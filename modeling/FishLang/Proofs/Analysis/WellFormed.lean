import FishLang.Proofs.Analysis.Simulate
import FishLang.Proofs.Parse.Program

namespace FishLang

open Node Grammar

structure Node.WellFormed (root : Node) : Prop where
  -- Every variable that is read or set is bound.
  bound : ∀ place node, root.at? place = some node → node.kind = .var ∨ node.kind = .assign →
    ∃ binder, root.resolve place node.text = some binder
  -- A scope binds a name once.
  distinct : ∀ one other node node' name, root.at? one = some node → root.at? other = some node' →
    node.binds name = true → node'.binds name = true → root.scopeOf one = root.scopeOf other → one = other
  -- A program defines a name once.
  unique : ∀ one other node node' name, root.at? one = some node → root.at? other = some node' →
    node.defines name = true → node'.defines name = true → one = other
  -- Every call has a function, and an argument for each of its parameters.
  called : ∀ place node, root.at? place = some node → node.kind = .call →
    ∃ function signature, root.callee place node.text = some function ∧
      root.signatureAt function = some signature ∧
      ((node.child? 0).elim [] Node.children).length = signature.parameters.length
  -- There is a function to give a result back from.
  returns : ∀ place node, root.at? place = some node → node.kind = .emerge →
    ∃ function, root.functionAround place = some function
  operands : ∀ place node, root.at? place = some node → node.kind = .binary →
    ∃ ty, root.typeAt (place ++ [0]) = some ty ∧ root.typeAt (place ++ [1]) = some ty
  initializers : ∀ place node initializer, root.at? place = some node → node.kind = .declaration →
    node.child? 1 = some initializer →
    ∃ ty, root.declaredTyAt place = some ty ∧ root.typeAt (place ++ [1] ++ [0]) = some ty
  assigned : ∀ place node binder, root.at? place = some node → node.kind = .assign →
    root.resolve place node.text = some binder →
    ∃ ty, root.declaredTyAt binder = some ty ∧ root.typeAt (place ++ [0]) = some ty
  arguments : ∀ place node function signature index parameter, root.at? place = some node → node.kind = .call →
    root.callee place node.text = some function → root.signatureAt function = some signature →
    signature.parameters[index]? = some parameter →
    ∃ ty, parameter.ty = some ty ∧ root.typeAt (place ++ [0] ++ [index]) = some ty
  results : ∀ place node function signature, root.at? place = some node → node.kind = .emerge →
    root.functionAround place = some function → root.signatureAt function = some signature →
    ∃ ty, signature.result = some ty ∧ root.typeAt (place ++ [0]) = some ty

-- No place has anything to report.
def Faultless (root : Node) : Prop := ∀ place node, root.at? place = some node → root.faults place node = []

theorem Grammar.Shaped.at? {root node : Node} (shaped : Shaped role root) (present : root.at? place = some node) :
    ∃ role, Shaped role node := by
  induction place generalizing root role with
  | nil =>
    cases present
    exact ⟨role, shaped⟩
  | cons index rest ih =>
    obtain ⟨child, found, present⟩ := Option.bind_eq_some_iff.mp present
    obtain ⟨role, inner⟩ := shaped.child child (List.mem_of_getElem? found)
    exact ih inner present

section
variable {root node : Node} {line : Nat}

theorem shaped_ty? (shaped : Shaped .typeName node) : ∃ ty, node.ty? = some ty := by
  obtain ⟨ty, line, rfl⟩ := shaped.typeName_eq
  exact ⟨ty, Ty.ofName?_name ty⟩

theorem declaredTyAt_known (shaped : Shaped role root) (present : root.at? place = some node)
    (binds : node.binds name = true) : ∃ ty, root.declaredTyAt place = some ty := by
  obtain ⟨_, shaped⟩ := shaped.at? present
  rw [declaredTyAt_eq present]
  have kinds : node.kind = .declaration ∨ node.kind = .param := by
    simpa using (Bool.and_eq_true_iff.mp binds).1
  cases kinds with
  | inl declaration =>
    obtain ⟨_, ty, _, typed, rfl | ⟨_, _, rfl, _⟩⟩ := shaped.of_declaration declaration
    · exact shaped_ty? typed
    · exact shaped_ty? typed
  | inr param =>
    obtain ⟨_, ty, _, rfl, typed⟩ := shaped.of_param param
    exact shaped_ty? typed

theorem signature_known (shaped : Shaped role root) (present : root.at? place = some node)
    (function : node.kind = .functionDef) : (∃ ty, (Signature.ofNode node).result = some ty) ∧
      ∀ parameter ∈ (Signature.ofNode node).parameters, ∃ ty, parameter.ty = some ty := by
  obtain ⟨_, shaped⟩ := shaped.at? present
  obtain ⟨_, params, _, result, _, _, rfl, taken, typed⟩ := shaped.of_functionDef function
  refine ⟨shaped_ty? typed, ?_⟩
  intro parameter member
  obtain ⟨param, among, rfl⟩ := List.mem_map.mp member
  obtain ⟨_, ty, _, rfl, typed⟩ := (taken param among).param_eq
  exact shaped_ty? typed

theorem compatible_known {expected given : Ty} : compatible (some expected) (some given) = true ↔ expected = given := by
  simp [compatible]

theorem argumentReports_eq_nil (function : String) (position : Nat) (expected given : List (Option Ty)) :
    Context.argumentReports function line position expected given = [] ↔
      ∀ (index : Nat) one two, expected[index]? = some one → given[index]? = some two → compatible one two = true := by
  induction expected generalizing position given with
  | nil => simp [Context.argumentReports]
  | cons ty tys ih =>
    cases given with
    | nil => simp [Context.argumentReports]
    | cons ty' others =>
      rw [Context.argumentReports, List.append_eq_nil_iff, reportUnless_eq_nil, ih]
      constructor
      · intro both index one two left right
        obtain ⟨first, rest⟩ := both
        cases index with
        | zero =>
          cases left
          cases right
          exact first
        | succ index => exact rest index one two left right
      · intro all
        exact ⟨all 0 ty ty' rfl rfl, fun index one two left right => all (index + 1) one two left right⟩

theorem callReports_eq_nil {function : Option Signature} : Context.callReports name line function given = [] ↔
    ∃ signature, function = some signature ∧ given.length = signature.parameters.length ∧
      Context.argumentReports name line 1 (signature.parameters.map Parameter.ty) given = [] := by
  cases function with
  | none => simp [Context.callReports]
  | some signature =>
    rw [Context.callReports]
    by_cases same : given.length = (signature.parameters.map Parameter.ty).length
    · simp_all
    · simp_all

theorem operandReports_eq_nil {one two : Ty} :
    Context.operandReports symbol line (some one) (some two) = [] ↔ one = two := by
  simp [Context.operandReports, reportUnless_eq_nil]

theorem infer_known (program : Shaped role root) (faultless : Faultless root) (shaped : Shaped within node)
    (kinds : within = .expression ∨ within = .call) :
    ∀ place, root.at? place = some node → ∃ ty, root.infer place node = some ty := by
  induction shaped with
  | @call args name line _ _ =>
    intro place present
    obtain ⟨signature, found, _⟩ := callReports_eq_nil.mp (faultless place _ present)
    obtain ⟨function, callee, signed⟩ := Option.bind_eq_some_iff.mp found
    obtain ⟨definition, there, kind, _⟩ := callee_present callee
    obtain ⟨⟨ty, result⟩, _⟩ := signature_known program there kind
    rw [signatureAt_eq there] at signed
    cases signed
    refine ⟨ty, ?_⟩
    have same : (root.callee place name).bind root.signatureAt = some (.ofNode definition) := found
    show ((root.callee place name).bind root.signatureAt).bind Signature.result = some ty
    rw [same]
    exact result
  | @binary op left right line _ _ _ ihLeft ihRight =>
    intro place present
    have first : root.at? (place ++ [0]) = some left := at?_child present 0
    have second : root.at? (place ++ [1]) = some right := at?_child present 1
    obtain ⟨one, typedLeft⟩ := ihLeft (.inl rfl) _ first
    obtain ⟨two, typedRight⟩ := ihRight (.inl rfl) _ second
    have none : Context.operandReports op.symbol line (root.typeAt (place ++ [0])) (root.typeAt (place ++ [1])) = [] :=
      faultless place _ present
    rw [typeAt_eq first, typeAt_eq second, typedLeft, typedRight] at none
    have same := operandReports_eq_nil.mp none
    refine ⟨operationTy op.symbol one, ?_⟩
    show operationTy? op.symbol (root.infer (place ++ [0]) left) (root.infer (place ++ [1]) right) = _
    rw [typedLeft, typedRight, same]
    simp [operationTy?]
  | unary _ _ ih =>
    intro place present
    exact ih (.inl rfl) (place ++ [0]) (at?_child present 0)
  | suffix _ _ ih =>
    intro place present
    exact ih (.inl rfl) (place ++ [0]) (at?_child present 0)
  | @var name line =>
    intro place present
    have found := reportUnless_eq_nil.mp (faultless place _ present)
    obtain ⟨binder, resolves⟩ := Option.isSome_iff_exists.mp found
    obtain ⟨node, there, binds⟩ := resolve_present resolves
    obtain ⟨ty, known⟩ := declaredTyAt_known program there binds
    refine ⟨ty, ?_⟩
    show (root.resolve place name).bind root.declaredTyAt = some ty
    have same : root.resolve place name = some binder := resolves
    rw [same]
    exact known
  | num => exact fun _ _ => ⟨_, rfl⟩
  | string => exact fun _ _ => ⟨_, rfl⟩
  | char => exact fun _ _ => ⟨_, rfl⟩
  | @takes other value role among _ ih =>
    apply ih
    cases role <;> simp_all [Role.admits]
  | _ => simp at kinds

theorem typeAt_known (program : Shaped role root) (faultless : Faultless root) (shaped : Shaped .expression node)
    (present : root.at? place = some node) : ∃ ty, root.typeAt place = some ty := by
  rw [typeAt_eq present]
  exact infer_known program faultless shaped (.inl rfl) place present

theorem program_opens (program : Shaped .program root) : root.kind.opensScope = true := by
  cases program with
  | program => rfl
  | takes among => cases among

theorem scopeOf_known (program : Shaped .program root) (present : root.at? place = some node)
    (binds : node.binds name = true) : ∃ scope, root.scopeOf place = some scope := by
  cases List.eq_nil_or_concat place with
  | inl top =>
    subst top
    cases present
    rw [not_binds_of_opensScope (program_opens program)] at binds
    cases binds
  | inr below =>
    obtain ⟨parent, index, rfl⟩ := below
    have inside := scopesAround_ne_nil (program_opens program) parent index
    obtain ⟨scope, outer, around⟩ := List.exists_cons_of_ne_nil inside
    refine ⟨scope, ?_⟩
    rw [List.concat_eq_append, scopeOf, around]
    rfl

theorem unbound_iff (own : root.scopeOf place = some scope) : root.unbound place name = true ↔
    ∀ other node, root.at? other = some node → node.binds name = true → root.scopeOf other = some scope →
      ¬ other < place := by
  rw [unbound, own, Option.all_some, List.isEmpty_iff, List.eq_nil_iff_forall_not_mem]
  constructor
  · intro none other node present binds same before
    exact none other (mem_bindersBefore.mpr ⟨⟨node, present, binds⟩, same, before⟩)
  · intro none other member
    obtain ⟨⟨node, present, binds⟩, same, before⟩ := mem_bindersBefore.mp member
    exact none other node present binds same before

theorem callee_eq_none : root.callee place name = none ↔
    ∀ other node, root.at? other = some node → node.defines name = true → ¬ other < place := by
  rw [callee_eq, List.find?_eq_none]
  constructor
  · intro none other node present defines before
    exact none other (mem_before.mpr ⟨⟨node, present⟩, before⟩) (holds_iff.mpr ⟨node, present, defines⟩)
  · intro none other member holds
    obtain ⟨node, present, defines⟩ := holds_iff.mp holds
    exact none other node present defines (mem_before.mp member).2

theorem Faultless.unbound (faultless : Faultless root) (present : root.at? place = some node)
    (binds : node.binds name = true) : root.unbound place name = true := by
  have none := faultless place node present
  obtain ⟨kinds, named⟩ := Bool.and_eq_true_iff.mp binds
  have named : node.text = name := by simpa using named
  have kinds : node.kind = .declaration ∨ node.kind = .param := by simpa using kinds
  rw [← named]
  cases kinds with
  | inl kind | inr kind =>
    simp only [faults, kind, List.append_eq_nil_iff, reportUnless_eq_nil] at none
    exact none.1

theorem Faultless.distinct (program : Shaped .program root) (faultless : Faultless root)
    (present : root.at? one = some node) (present' : root.at? other = some node') (binds : node.binds name = true)
    (binds' : node'.binds name = true) (same : root.scopeOf one = root.scopeOf other) : one = other := by
  obtain ⟨scope, own⟩ := scopeOf_known program present binds
  apply Place.eq_of_not_lt
  · exact (unbound_iff (same ▸ own)).mp (faultless.unbound present' binds') one node present binds own
  · exact (unbound_iff own).mp (faultless.unbound present binds) other node' present' binds' (same ▸ own)

theorem Faultless.unique (faultless : Faultless root) (present : root.at? one = some node)
    (present' : root.at? other = some node') (defines : node.defines name = true)
    (defines' : node'.defines name = true) : one = other := by
  have alone : ∀ place node, root.at? place = some node → node.defines name = true → root.callee place name = none := by
    intro place node present defines
    have none := faultless place node present
    obtain ⟨kind, named⟩ := defines_iff.mp defines
    simp only [faults, kind, reportUnless_eq_nil, Option.isNone_iff_eq_none, named] at none
    exact none
  apply Place.eq_of_not_lt
  · exact callee_eq_none.mp (alone other node' present' defines') one node present defines
  · exact callee_eq_none.mp (alone one node present defines) other node' present' defines'

theorem Faultless.bound (faultless : Faultless root) (present : root.at? place = some node)
    (uses : node.kind = .var ∨ node.kind = .assign) : ∃ binder, root.resolve place node.text = some binder := by
  have none := faultless place node present
  cases uses with
  | inl var =>
    simp only [faults, var, reportUnless_eq_nil] at none
    exact Option.isSome_iff_exists.mp none
  | inr assign =>
    simp only [faults, assign] at none
    cases found : root.resolve place node.text with
    | none => simp [found, Context.assignmentReports] at none
    | some binder => exact ⟨binder, rfl⟩

theorem argumentTys_length (root node : Node) (place : Place) :
    (root.argumentTys place node).length = ((node.child? 0).elim [] Node.children).length := by
  simp [argumentTys]

theorem argumentTys_getElem? (index : Nat) :
    (root.argumentTys place ⟨.call, some name, [.group .args given below], line⟩)[index]? =
      (given[index]?).map (root.infer (place ++ [0] ++ [index])) :=
  List.getElem?_mapIdx

theorem Faultless.called (faultless : Faultless root) (present : root.at? place = some node)
    (call : node.kind = .call) : ∃ function signature, root.callee place node.text = some function ∧
      root.signatureAt function = some signature ∧
      ((node.child? 0).elim [] Node.children).length = signature.parameters.length ∧
      Context.argumentReports node.text node.line 1 (signature.parameters.map Parameter.ty)
        (root.argumentTys place node) = [] := by
  have none := faultless place node present
  simp only [faults, call] at none
  obtain ⟨signature, found, same, matching⟩ := callReports_eq_nil.mp none
  obtain ⟨function, callee, signed⟩ := Option.bind_eq_some_iff.mp found
  rw [argumentTys_length] at same
  exact ⟨function, signature, callee, signed, same, matching⟩

theorem Faultless.returns (faultless : Faultless root) (present : root.at? place = some node)
    (emerge : node.kind = .emerge) : ∃ function signature, root.functionAround place = some function ∧
      root.signatureAt function = some signature ∧
      compatible signature.result (root.typeAt (place ++ [0])) = true := by
  have none := faultless place node present
  simp only [faults, emerge, List.append_eq_nil_iff, reportUnless_eq_nil] at none
  obtain ⟨signature, found⟩ := Option.isSome_iff_exists.mp none.1
  obtain ⟨function, around, signed⟩ := Option.bind_eq_some_iff.mp found
  rw [found] at none
  exact ⟨function, signature, around, signed, reportUnless_eq_nil.mp none.2⟩

theorem argument_at (shaped : Shaped role node) (present : root.at? place = some node) (call : node.kind = .call)
    (inside : index < ((node.child? 0).elim [] Node.children).length) :
    ∃ value, root.at? (place ++ [0] ++ [index]) = some value ∧ Shaped .expression value ∧
      (root.argumentTys place node)[index]? = some (root.typeAt (place ++ [0] ++ [index])) := by
  obtain ⟨name, given, below, line, rfl, each⟩ := shaped.of_call call
  have args : root.at? (place ++ [0]) = some (.group .args given below) := at?_child present 0
  have short : index < given.length := inside
  have there : root.at? (place ++ [0] ++ [index]) = some given[index] := by
    rw [at?_child args]
    exact List.getElem?_eq_getElem short
  refine ⟨given[index], there, each _ (List.getElem_mem short), ?_⟩
  rw [argumentTys_getElem?, List.getElem?_eq_getElem short, Option.map_some, ← typeAt_eq there]

theorem parameter_known (program : Shaped role root) (found : root.callee place name = some function)
    (signed : root.signatureAt function = some signature) (among : parameter ∈ signature.parameters) :
    ∃ ty, parameter.ty = some ty := by
  obtain ⟨definition, defined, kind, _⟩ := callee_present found
  rw [signatureAt_eq defined] at signed
  cases signed
  exact (signature_known program defined kind).2 parameter among

theorem result_known (program : Shaped role root) (around : root.functionAround place = some function)
    (signed : root.signatureAt function = some signature) : ∃ ty, signature.result = some ty := by
  obtain ⟨definition, there, kind⟩ := functionAround_present around
  rw [signatureAt_eq there] at signed
  cases signed
  exact (signature_known program there kind).1

theorem Faultless.operands (program : Shaped .program root) (faultless : Faultless root)
    (present : root.at? place = some node) (binary : node.kind = .binary) :
    ∃ ty, root.typeAt (place ++ [0]) = some ty ∧ root.typeAt (place ++ [1]) = some ty := by
  obtain ⟨_, shaped⟩ := program.at? present
  obtain ⟨op, left, right, line, rfl, _, one, two⟩ := shaped.of_binary binary
  have first : root.at? (place ++ [0]) = some left := at?_child present 0
  have second : root.at? (place ++ [1]) = some right := at?_child present 1
  obtain ⟨ty, typed⟩ := typeAt_known program faultless one first
  obtain ⟨ty', typed'⟩ := typeAt_known program faultless two second
  have none : Context.operandReports op.symbol line (root.typeAt (place ++ [0])) (root.typeAt (place ++ [1])) = [] :=
    faultless place _ present
  rw [typed, typed'] at none
  exact ⟨ty, typed, operandReports_eq_nil.mp none ▸ typed'⟩

theorem Faultless.initializers (program : Shaped .program root) (faultless : Faultless root)
    (present : root.at? place = some node) (declaration : node.kind = .declaration)
    (found : node.child? 1 = some initializer) :
    ∃ ty, root.declaredTyAt place = some ty ∧ root.typeAt (place ++ [1] ++ [0]) = some ty := by
  obtain ⟨_, shaped⟩ := program.at? present
  have none := faultless place node present
  simp only [faults, declaration, found, List.append_eq_nil_iff, reportUnless_eq_nil] at none
  obtain ⟨name, ty, line, typed, rfl | ⟨value, below, rfl, inner⟩⟩ := shaped.of_declaration declaration
  · cases found
  · have there : root.at? (place ++ [1]) = some (.group .initializer [value] below) := at?_child present 1
    have binds : Node.binds name ⟨.declaration, some name, [ty, .group .initializer [value] below], line⟩ = true := by
      simp [Node.binds, Node.text]
    obtain ⟨declared, bound⟩ := declaredTyAt_known program present binds
    obtain ⟨ty', known⟩ := typeAt_known program faultless inner (at?_child there 0)
    rw [bound, known] at none
    exact ⟨declared, bound, compatible_known.mp none.2 ▸ known⟩

theorem Faultless.assigned (program : Shaped .program root) (faultless : Faultless root)
    (present : root.at? place = some node) (assign : node.kind = .assign)
    (found : root.resolve place node.text = some binder) :
    ∃ ty, root.declaredTyAt binder = some ty ∧ root.typeAt (place ++ [0]) = some ty := by
  obtain ⟨_, shaped⟩ := program.at? present
  have none := faultless place node present
  simp only [faults, assign, found, Option.map_some, Context.assignmentReports, reportUnless_eq_nil] at none
  obtain ⟨_, value, _, rfl, given⟩ := shaped.of_assign assign
  obtain ⟨there, introduces, binds⟩ := resolve_present found
  obtain ⟨declared, bound⟩ := declaredTyAt_known program introduces binds
  obtain ⟨ty, typed⟩ := typeAt_known program faultless given (at?_child present 0)
  rw [bound, typed] at none
  exact ⟨declared, bound, compatible_known.mp none ▸ typed⟩

theorem Faultless.arguments (program : Shaped .program root) (faultless : Faultless root)
    (present : root.at? place = some node) (call : node.kind = .call)
    (found : root.callee place node.text = some function) (signed : root.signatureAt function = some signature)
    (taken : signature.parameters[index]? = some parameter) :
    ∃ ty, parameter.ty = some ty ∧ root.typeAt (place ++ [0] ++ [index]) = some ty := by
  obtain ⟨_, shaped⟩ := program.at? present
  obtain ⟨function', signature', found', signed', same, matching⟩ := faultless.called present call
  cases found.symm.trans found'
  cases signed.symm.trans signed'
  have inside := (List.getElem?_eq_some_iff.mp taken).1
  rw [← same] at inside
  obtain ⟨value, there, expression, offered⟩ := argument_at shaped present call inside
  obtain ⟨ty, typed⟩ := typeAt_known program faultless expression there
  obtain ⟨declared, known⟩ := parameter_known program found signed (List.mem_of_getElem? taken)
  have expected : (signature.parameters.map Parameter.ty)[index]? = some (some declared) := by
    rw [List.getElem?_map, taken, Option.map_some, known]
  rw [typed] at offered
  have fits := (argumentReports_eq_nil _ _ _ _).mp matching index _ _ expected offered
  exact ⟨declared, known, compatible_known.mp fits ▸ typed⟩

theorem Faultless.results (program : Shaped .program root) (faultless : Faultless root)
    (present : root.at? place = some node) (emerge : node.kind = .emerge)
    (around : root.functionAround place = some function) (signed : root.signatureAt function = some signature) :
    ∃ ty, signature.result = some ty ∧ root.typeAt (place ++ [0]) = some ty := by
  obtain ⟨_, shaped⟩ := program.at? present
  obtain ⟨function', signature', around', signed', fits⟩ := faultless.returns present emerge
  cases around.symm.trans around'
  cases signed.symm.trans signed'
  obtain ⟨value, _, rfl, given⟩ := shaped.of_emerge emerge
  obtain ⟨declared, result⟩ := result_known program around signed
  obtain ⟨ty, typed⟩ := typeAt_known program faultless given (at?_child present 0)
  rw [result, typed] at fits
  exact ⟨declared, result, compatible_known.mp fits ▸ typed⟩

theorem Node.WellFormed.unbound (program : Shaped .program root) (formed : root.WellFormed)
    (present : root.at? place = some node) (binds : node.binds name = true) : root.unbound place name = true := by
  obtain ⟨scope, own⟩ := scopeOf_known program present binds
  rw [unbound_iff own]
  intro other earlier there binds' own' before
  have same := formed.distinct other place earlier node name there present binds' binds (own'.trans own.symm)
  exact List.lt_irrefl place (same ▸ before)

theorem Node.WellFormed.argumentReports (shaped : Shaped role node) (formed : root.WellFormed)
    (present : root.at? place = some node) (call : node.kind = .call)
    (found : root.callee place node.text = some function) (signed : root.signatureAt function = some signature) :
    Context.argumentReports node.text node.line 1 (signature.parameters.map Parameter.ty)
      (root.argumentTys place node) = [] := by
  rw [argumentReports_eq_nil]
  intro index one two expected offered
  rw [List.getElem?_map] at expected
  obtain ⟨parameter, taken, rfl⟩ := Option.map_eq_some_iff.mp expected
  have inside := (List.getElem?_eq_some_iff.mp offered).1
  rw [argumentTys_length] at inside
  obtain ⟨value, _, _, given⟩ := argument_at shaped present call inside
  obtain rfl := Option.some.inj (given.symm.trans offered)
  obtain ⟨ty, known, typed⟩ :=
    formed.arguments place _ function signature index parameter present call found signed taken
  rw [known, typed, compatible_known]

theorem Node.WellFormed.faultless (program : Shaped .program root) (formed : root.WellFormed) : Faultless root := by
  intro place node present
  obtain ⟨_, shaped⟩ := program.at? present
  cases kind : node.kind with
  | var =>
    obtain ⟨binder, resolves⟩ := formed.bound place node present (.inl kind)
    simp [faults, kind, resolves, reportUnless]
  | assign =>
    obtain ⟨binder, resolves⟩ := formed.bound place node present (.inr kind)
    obtain ⟨ty, declared, given⟩ := formed.assigned place node binder present kind resolves
    simp [faults, kind, resolves, declared, given, Context.assignmentReports, compatible, reportUnless]
  | functionDef =>
    have alone : root.callee place node.text = none := by
      rw [callee_eq_none]
      intro other earlier there defines before
      have same := formed.unique other place earlier node node.text there present defines (by simp [defines_iff, kind])
      exact List.lt_irrefl place (same ▸ before)
    simp [faults, kind, alone, reportUnless]
  | emerge =>
    obtain ⟨function, around⟩ := formed.returns place node present kind
    obtain ⟨definition, there, _⟩ := functionAround_present around
    obtain ⟨ty, result, given⟩ :=
      formed.results place node function (.ofNode definition) present kind around (signatureAt_eq there)
    simp [faults, kind, around, signatureAt_eq there, result, given, Context.resultReports, compatible, reportUnless]
  | binary =>
    obtain ⟨ty, left, right⟩ := formed.operands place node present kind
    simp [faults, kind, left, right, Context.operandReports, reportUnless]
  | call =>
    obtain ⟨function, signature, found, signed, same⟩ := formed.called place node present kind
    simp only [faults, kind]
    apply callReports_eq_nil.mpr
    refine ⟨signature, by rw [found, Option.bind_some, signed], ?_, ?_⟩
    · rw [argumentTys_length]
      exact same
    · exact formed.argumentReports shaped present kind found signed
  | declaration =>
    have binds : node.binds node.text = true := by simp [Node.binds, kind]
    have new := formed.unbound program present binds
    cases found : node.child? 1 with
    | none => simp [faults, kind, new, found, reportUnless]
    | some initializer =>
      obtain ⟨ty, declared, given⟩ := formed.initializers place node initializer present kind found
      simp only [faults, kind, found, declared, given, List.append_eq_nil_iff, reportUnless_eq_nil, compatible_known]
      exact ⟨new, trivial⟩
  | param =>
    have binds : node.binds node.text = true := by simp [Node.binds, kind]
    have new := formed.unbound program present binds
    obtain ⟨name, ty, line, rfl, _⟩ := shaped.of_param kind
    simp [faults, new, Node.child?, reportUnless]
  | _ => simp [faults, kind]

end

end FishLang
