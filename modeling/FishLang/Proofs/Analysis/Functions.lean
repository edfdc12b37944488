import FishLang.Proofs.Analysis.Account
import FishLang.Proofs.Analysis.Run

namespace FishLang

open Node Grammar

-- Of all definitions of the name it is the first.
structure FirstOf (root : Node) (name : String) (first : Place) : Prop where
  defines : ∃ node, root.at? first = some node ∧ node.defines name = true
  least : ∀ other node, root.at? other = some node → node.defines name = true → ¬ other < first

-- What a call of the name at the place is a call of: the first definition, which must have been met.
structure Calls (root : Node) (place : Place) (name : String) (first : Place) : Prop where
  isFirst : FirstOf root name first
  before : first < place

def Node.arguments (call : Node) : List Node := (call.child? 0).elim [] Node.children

-- What is due at a definition of a name that has an earlier one.
inductive Duplicated (root : Node) : Place → Report → Prop
  | of {place earlier : Place} {node other : Node} : root.at? place = some node → node.kind = .functionDef →
      root.at? earlier = some other → other.defines node.text = true → earlier < place →
      Duplicated root place ⟨.duplicateFunction node.text, node.line⟩

-- What is due at a call with no definition before it.
inductive Undefined (root : Node) : Place → Report → Prop
  | of {place : Place} {node : Node} : root.at? place = some node → node.kind = .call →
      (∀ other function, root.at? other = some function → function.defines node.text = true → ¬ other < place) →
      Undefined root place ⟨.undeclaredFunction node.text, node.line⟩

-- What is due at a call with more arguments, or fewer, than there are parameters.
inductive Miscounted (root : Node) : Place → Report → Prop
  | of {place first : Place} {node definition : Node} : root.at? place = some node → node.kind = .call →
      Calls root place node.text first → root.at? first = some definition →
      node.arguments.length ≠ (Signature.ofNode definition).parameters.length →
      Miscounted root place
        ⟨.arity node.text node.arguments.length (Signature.ofNode definition).parameters.length, node.line⟩

-- What is due at an argument of another type than its parameter, in a call with an argument for each parameter.
inductive Misgiven (root : Node) : Place → Report → Prop
  | of {place first : Place} {node definition : Node} {index : Nat} {parameter : Parameter} :
      root.at? place = some node → node.kind = .call → Calls root place node.text first →
      root.at? first = some definition →
      node.arguments.length = (Signature.ofNode definition).parameters.length →
      (Signature.ofNode definition).parameters[index]? = some parameter →
      compatible parameter.ty (root.typeAt (place ++ [0] ++ [index])) = false →
      Misgiven root (place ++ [0] ++ [index])
        ⟨.argument node.text (1 + index) parameter.ty (root.typeAt (place ++ [0] ++ [index])), node.line⟩

def Finding.position? : Finding → Option Nat
  | .argument _ position .. => some position
  | _ => none

-- Functions are known by their first definition: what is reported of them is what is due, a call that comes after
-- a definition of its name is checked against the first one and has its result type, and every argument is visited,
-- once, whatever its call is a call of; the type it is checked with is the one that the visit yields.
structure Node.FirstDefined (root : Node) : Prop where
  duplicated : root.Diagnoses .duplicateFunction (Duplicated root)
  undefined : root.Diagnoses .undeclaredFunction (Undefined root)
  miscounted : root.Diagnoses .arityMismatch (Miscounted root)
  misgiven : OnePer (Misgiven root) (root.reports.filter (·.finding.position?.isSome))
  called : ∀ place node other function, root.at? place = some node → node.kind = .call →
    root.at? other = some function → function.defines node.text = true → other < place →
    ∃ first definition made, Calls root place node.text first ∧ root.at? first = some definition ∧
      root.visitsOf place = [made] ∧ made.node = node ∧
      made.before.functions.find? node.text = some (.ofNode definition) ∧
      made.ty = (Signature.ofNode definition).result
  visited : ∀ place node index argument, root.at? place = some node → node.kind = .call →
    node.arguments[index]? = some argument →
    ∃ made, root.visitsOf (place ++ [0] ++ [index]) = [made] ∧ made.node = argument ∧
      made.ty = root.typeAt (place ++ [0] ++ [index])

section
variable {root node : Node} {place : Place}

theorem FirstOf.of_find {name : String} {first : Place}
    (found : root.places.find? (root.holds (Node.defines name)) = some first) : FirstOf root name first := by
  refine ⟨holds_iff.mp (List.find?_some found), fun other node present defines => ?_⟩
  have passes : root.holds (Node.defines name) other = true := (holds_eq present _).trans defines
  rcases find?_first (places_sorted root) found (mem_places.mpr ⟨node, present⟩) passes with rfl | later
  · exact List.lt_irrefl other
  · exact List.lt_asymm later

theorem FirstOf.unique {name : String} {first other : Place} (one : FirstOf root name first)
    (two : FirstOf root name other) : first = other := by
  obtain ⟨node, present, defines⟩ := one.defines
  obtain ⟨node', present', defines'⟩ := two.defines
  exact Place.eq_of_not_lt (two.least first node present defines) (one.least other node' present' defines')

theorem find?_eq_some_first {name : String} {first : Place} :
    root.places.find? (root.holds (Node.defines name)) = some first ↔ FirstOf root name first := by
  constructor
  · exact .of_find
  · intro isFirst
    obtain ⟨node, present, defines⟩ := isFirst.defines
    cases found : root.places.find? (root.holds (Node.defines name)) with
    | none =>
      have none := List.find?_eq_none.mp found first (mem_places.mpr ⟨node, present⟩)
      exact absurd (holds_iff.mpr ⟨node, present, defines⟩) none
    | some other => rw [isFirst.unique (.of_find found)]

theorem callee_eq_some_iff {name : String} {first : Place} :
    root.callee place name = some first ↔ Calls root place name first := by
  rw [callee, Option.filter_eq_some_iff, find?_eq_some_first, decide_eq_true_eq]
  exact ⟨fun ⟨isFirst, before⟩ => ⟨isFirst, before⟩, fun ⟨isFirst, before⟩ => ⟨isFirst, before⟩⟩

theorem Calls.unique {name : String} {first other : Place} (one : Calls root place name first)
    (two : Calls root place name other) : first = other := one.isFirst.unique two.isFirst

theorem faults_of_undefined (kind : node.kind = .call) (none : root.callee place node.text = none) :
    root.faults place node = [⟨.undeclaredFunction node.text, node.line⟩] := by
  simp [faults, kind, none, Context.callReports]

theorem faults_of_calls {first : Place} {definition : Node} (kind : node.kind = .call)
    (calls : Calls root place node.text first) (present : root.at? first = some definition) :
    root.faults place node =
      if node.arguments.length = (Signature.ofNode definition).parameters.length then
        Context.argumentReports node.text node.line 1 ((Signature.ofNode definition).parameters.map Parameter.ty)
          (root.argumentTys place node)
      else [⟨.arity node.text node.arguments.length (Signature.ofNode definition).parameters.length, node.line⟩] := by
  have found := callee_eq_some_iff.mpr calls
  have expected : ((Signature.ofNode definition).parameters.map Parameter.ty).length =
      (Signature.ofNode definition).parameters.length := List.length_map _
  have given : (root.argumentTys place node).length = node.arguments.length := argumentTys_length _ _ _
  simp only [faults, kind, found, Option.bind_some, signatureAt_eq present, Context.callReports, expected, given]

theorem undefined_or_calls (root : Node) (place : Place) (name : String) :
    (root.callee place name = none ∧ ∀ first, ¬ Calls root place name first) ∨
      ∃ first definition, Calls root place name first ∧ root.at? first = some definition := by
  cases found : root.callee place name with
  | none =>
    refine .inl ⟨rfl, fun first calls => ?_⟩
    cases found.symm.trans (callee_eq_some_iff.mpr calls)
  | some first =>
    obtain ⟨definition, present, _⟩ := callee_present found
    exact .inr ⟨first, definition, callee_eq_some_iff.mp found, present⟩

theorem filter_argumentReports {kind : Diagnostic.Kind} (other : kind ≠ .typeMismatch) (name : String)
    (line position : Nat) (expected given : List (Option Ty)) :
    (Context.argumentReports name line position expected given).filter (Report.of kind) = [] := by
  rw [List.filter_eq_nil_iff]
  intro report member
  obtain ⟨_, _, _, _, _, _, rfl⟩ := (mem_argumentReports _ _ _ _).mp member
  simpa [Report.of, Finding.kind] using other.symm

theorem onePer_duplicated (program : Shaped .program root) :
    OnePer (Duplicated root) (root.reports.filter (Report.of .duplicateFunction)) := by
  refine onePer_of_kind program .functionDef (fun _ => Report.about_of) ?_ fun place node present kind => ?_
  · rintro place report ⟨present, kind, _⟩
    exact ⟨_, present, kind⟩
  cases found : root.callee place node.text with
  | none =>
    refine owes_none ?_ (by simp [faults, kind, found, reportUnless])
    rintro _ ⟨present', _, there, defines, before⟩
    cases present.symm.trans present'
    exact callee_eq_none.mp found _ _ there defines before
  | some first =>
    obtain ⟨⟨⟨definition, there, defines⟩, _⟩, before⟩ := callee_eq_some_iff.mp found
    refine owes_one (.of present kind there defines before) ?_ ?_
    · rintro _ ⟨present', _, _, _, _⟩
      cases present.symm.trans present'
      rfl
    · simp [faults, kind, found, reportUnless, Report.of, Finding.kind]

theorem onePer_undefined (program : Shaped .program root) :
    OnePer (Undefined root) (root.reports.filter (Report.of .undeclaredFunction)) := by
  refine onePer_of_kind program .call (fun _ => Report.about_of) ?_ fun place node present kind => ?_
  · rintro place report ⟨present, kind, _⟩
    exact ⟨_, present, kind⟩
  rcases undefined_or_calls root place node.text with ⟨unknown, _⟩ | ⟨first, definition, calls, there⟩
  · refine owes_one (.of present kind (callee_eq_none.mp unknown)) ?_ ?_
    · rintro _ ⟨present', _, _⟩
      cases present.symm.trans present'
      rfl
    · simp [faults_of_undefined kind unknown, Report.of, Finding.kind]
  · refine owes_none ?_ ?_
    · rintro _ ⟨present', _, undefined⟩
      cases present.symm.trans present'
      obtain ⟨_, there, defines⟩ := calls.isFirst.defines
      exact undefined _ _ there defines calls.before
    · rw [faults_of_calls kind calls there]
      split
      · exact filter_argumentReports (by decide) _ _ _ _ _
      · simp [Report.of, Finding.kind]

theorem onePer_miscounted (program : Shaped .program root) :
    OnePer (Miscounted root) (root.reports.filter (Report.of .arityMismatch)) := by
  refine onePer_of_kind program .call (fun _ => Report.about_of) ?_ fun place node present kind => ?_
  · rintro place report ⟨present, kind, _⟩
    exact ⟨_, present, kind⟩
  rcases undefined_or_calls root place node.text with ⟨unknown, undefined⟩ | ⟨first, definition, calls, there⟩
  · refine owes_none ?_ (by simp [faults_of_undefined kind unknown, Report.of, Finding.kind])
    rintro _ ⟨present', _, calls, _, _⟩
    cases present.symm.trans present'
    exact undefined _ calls
  rw [faults_of_calls kind calls there]
  split
  case isTrue same =>
    refine owes_none ?_ (filter_argumentReports (by decide) _ _ _ _ _)
    rintro _ ⟨present', _, calls', there', other⟩
    cases present.symm.trans present'
    cases calls.unique calls'
    cases there.symm.trans there'
    exact other same
  case isFalse other =>
    refine owes_one (.of present kind calls there other) ?_ (by simp [Report.of, Finding.kind])
    rintro _ ⟨present', _, calls', there', _⟩
    cases present.symm.trans present'
    cases calls.unique calls'
    cases there.symm.trans there'
    rfl

theorem argumentReports_nodup (name : String) (line position : Nat) (expected given : List (Option Ty)) :
    (Context.argumentReports name line position expected given).Nodup := by
  induction expected generalizing position given with
  | nil => simp [Context.argumentReports]
  | cons ty tys ih =>
    cases given with
    | nil => simp [Context.argumentReports]
    | cons ty' others =>
      rw [Context.argumentReports, List.nodup_append]
      refine ⟨?_, ih (position + 1) others, ?_⟩
      · unfold reportUnless
        split <;> simp
      · intro one here other later same
        rw [mem_reportUnless] at here
        obtain ⟨index, _, _, _, _, _, there⟩ := (mem_argumentReports _ _ _ _).mp later
        have told := here.2.symm.trans (same.trans there)
        simp only [Report.mk.injEq, Finding.argument.injEq] at told
        omega

theorem argumentTys_eq (present : root.at? place = some node) (index : Nat) :
    (root.argumentTys place node)[index]? =
      (node.arguments[index]?).map fun _ => root.typeAt (place ++ [0] ++ [index]) := by
  rw [argumentTys, List.getElem?_mapIdx]
  cases args : node.child? 0 with
  | none => simp [arguments, args]
  | some group =>
    have there : root.at? (place ++ [0]) = some group := (at?_child present 0).trans args
    cases among : group.children[index]? with
    | none => simp [arguments, args, among]
    | some argument =>
      have inner : root.at? (place ++ [0] ++ [index]) = some argument := (at?_child there index).trans among
      rw [typeAt_eq inner]
      simp [arguments, args, among]

theorem filter_position_of_calls {first : Place} {definition : Node} (kind : node.kind = .call)
    (calls : Calls root place node.text first) (there : root.at? first = some definition)
    (same : node.arguments.length = (Signature.ofNode definition).parameters.length) :
    (root.faults place node).filter (·.finding.position?.isSome) =
      Context.argumentReports node.text node.line 1 ((Signature.ofNode definition).parameters.map Parameter.ty)
        (root.argumentTys place node) := by
  rw [faults_of_calls kind calls there, if_pos same, List.filter_eq_self]
  intro report member
  obtain ⟨_, _, _, _, _, _, rfl⟩ := (mem_argumentReports _ _ _ _).mp member
  rfl

theorem filter_position_cases (root : Node) (place : Place) (node : Node) :
    (root.faults place node).filter (·.finding.position?.isSome) = [] ∨
      node.kind = .call ∧ ∃ first definition, Calls root place node.text first ∧ root.at? first = some definition ∧
        node.arguments.length = (Signature.ofNode definition).parameters.length := by
  by_cases kind : node.kind = .call
  · rcases undefined_or_calls root place node.text with ⟨unknown, _⟩ | ⟨first, definition, calls, there⟩
    · exact .inl (by simp [faults_of_undefined kind unknown, Finding.position?])
    · by_cases same : node.arguments.length = (Signature.ofNode definition).parameters.length
      · exact .inr ⟨kind, first, definition, calls, there, same⟩
      · exact .inl (by simp [faults_of_calls kind calls there, same, Finding.position?])
  · refine .inl (filter_faults_eq_nil fun report here among => kind ?_)
    obtain ⟨finding, line⟩ := report
    cases finding <;> simp_all [Finding.position?, Finding.about]

def argumentPlace (place : Place) (report : Report) : Place :=
  place ++ [0] ++ [(report.finding.position?.getD 1) - 1]

theorem argumentReports_places (place : Place) (name : String) (line : Nat) (expected given : List (Option Ty)) :
    ((Context.argumentReports name line 1 expected given).map (argumentPlace place)).Nodup := by
  refine (argumentReports_nodup name line 1 expected given).map_on ?_
  intro one first other second same
  obtain ⟨index, ty, ty', left, right, _, rfl⟩ := (mem_argumentReports _ _ _ _).mp first
  obtain ⟨index', _, _, left', right', _, rfl⟩ := (mem_argumentReports _ _ _ _).mp second
  have here : index = index' := by simpa [argumentPlace, Finding.position?] using same
  subst here
  cases left.symm.trans left'
  cases right.symm.trans right'
  rfl

theorem onePer_misgiven (program : Shaped .program root) :
    OnePer (Misgiven root) (root.reports.filter (·.finding.position?.isSome)) := by
  refine onePer_of_keys program argumentPlace (fun place => place.dropLast.dropLast) ?_ ?_ fun other report => ?_
  · intro place report _
    simp [argumentPlace]
  · intro place node present
    rcases filter_position_cases root place node with none | ⟨kind, first, definition, calls, there, same⟩
    · simp [none]
    · rw [filter_position_of_calls kind calls there same]
      exact argumentReports_places _ _ _ _ _
  constructor
  · rintro ⟨place, node, present, member, rfl⟩
    rcases filter_position_cases root place node with none | ⟨kind, first, definition, calls, there, same⟩
    · rw [none] at member
      cases member
    rw [filter_position_of_calls kind calls there same] at member
    obtain ⟨index, one, two, expected, given, unfit, rfl⟩ := (mem_argumentReports _ _ _ _).mp member
    rw [List.getElem?_map] at expected
    obtain ⟨parameter, taken, rfl⟩ := Option.map_eq_some_iff.mp expected
    rw [argumentTys_eq present] at given
    obtain ⟨argument, among, rfl⟩ := Option.map_eq_some_iff.mp given
    have key : argumentPlace place
        ⟨.argument node.text (1 + index) parameter.ty (root.typeAt (place ++ [0] ++ [index])), node.line⟩ =
          place ++ [0] ++ [index] := by simp [argumentPlace, Finding.position?]
    rw [key]
    exact .of present kind calls there same taken unfit
  · rintro @⟨place, first, node, definition, index, parameter, present, kind, calls, there, same, taken, unfit⟩
    refine ⟨place, node, present, ?_, by simp [argumentPlace, Finding.position?]⟩
    rw [filter_position_of_calls kind calls there same]
    refine (mem_argumentReports _ _ _ _).mpr ⟨index, parameter.ty, root.typeAt (place ++ [0] ++ [index]), ?_, ?_, unfit, rfl⟩
    · rw [List.getElem?_map, taken, Option.map_some]
    · have short : index < node.arguments.length := by
        rw [same]
        exact (List.getElem?_eq_some_iff.mp taken).1
      rw [argumentTys_eq present, List.getElem?_eq_getElem short, Option.map_some]

theorem visitable_of_expression (shaped : Shaped .expression node) : node.visitable = true := by
  cases shaped with
  | takes among inner =>
    cases List.mem_singleton.mp among
    cases inner with
    | call => rfl
    | takes among => cases among
  | _ => rfl

-- A call of a definition is visited with that definition known for its name, and has its result type.
theorem run_called {first : Place} {definition : Node} (program : Shaped .program root)
    (present : root.at? place = some node) (kind : node.kind = .call) (calls : Calls root place node.text first)
    (there : root.at? first = some definition) :
    ∃ made, root.visitsOf place = [made] ∧ made.node = node ∧
      made.before.functions.find? node.text = some (.ofNode definition) ∧
      made.ty = (Signature.ofNode definition).result := by
  have found := callee_eq_some_iff.mpr calls
  obtain ⟨made, only, same, agrees, typed⟩ := run_known program present (by simp [visitable, passedOver, kind])
  refine ⟨made, only, same, ?_, ?_⟩
  · rw [agrees.functions, found, Option.bind_some, signatureAt_eq there]
  · obtain ⟨_, content, _, _⟩ := node
    cases kind
    rw [typed, typeAt_eq present]
    show ((root.callee place (content.getD "")).bind root.signatureAt).bind Signature.result = _
    rw [show root.callee place (content.getD "") = some first from found, Option.bind_some, signatureAt_eq there]
    rfl

theorem run_argument {index : Nat} {argument : Node} (program : Shaped .program root)
    (present : root.at? place = some node) (kind : node.kind = .call)
    (among : node.arguments[index]? = some argument) :
    ∃ made, root.visitsOf (place ++ [0] ++ [index]) = [made] ∧ made.node = argument ∧
      made.ty = root.typeAt (place ++ [0] ++ [index]) := by
  obtain ⟨_, shaped⟩ := program.at? present
  obtain ⟨name, given, below, line, rfl, each⟩ := shaped.of_call kind
  have args : root.at? (place ++ [0]) = some (.group .args given below) := at?_child present 0
  have there : root.at? (place ++ [0] ++ [index]) = some argument := (at?_child args index).trans among
  have expression := each argument (List.mem_of_getElem? among)
  obtain ⟨made, only, same, _, typed⟩ := run_known program there (visitable_of_expression expression)
  exact ⟨made, only, same, typed⟩

end

-- Functions of accepted programs are known by their first definition.
theorem Node.ofTokens_firstDefined {root : Node} (accepted : Node.ofTokens tokens = .ok root) : root.FirstDefined := by
  have program := Node.ofTokens_shaped accepted
  refine ⟨diagnoses_of_onePer (onePer_duplicated program), diagnoses_of_onePer (onePer_undefined program),
    diagnoses_of_onePer (onePer_miscounted program), onePer_misgiven program, ?_, ?_⟩
  · intro place node other function present kind there defines before
    rcases undefined_or_calls root place node.text with ⟨unknown, _⟩ | ⟨first, definition, calls, known⟩
    · exact absurd before (callee_eq_none.mp unknown other function there defines)
    · obtain ⟨made, visited⟩ := run_called program present kind calls known
      exact ⟨first, definition, made, calls, known, visited⟩
  · intro place node index argument present kind among
    exact run_argument program present kind among

def overtaken : List Token :=
  [(.word .fish, "fish"), (.mark .leftBrace, "\x7b"), (.identifier, "same"), (.mark .leftParen, "("), (.number, "1"),
    (.mark .rightParen, ")"), (.delimiter, "<D"), (.word .fishtion, "fishtion"), (.identifier, "same"),
    (.mark .leftParen, "("), (.type .int, "<int"), (.identifier, "n"), (.mark .rightParen, ")"), (.type .int, "<int"),
    (.mark .leftBrace, "\x7b"), (.word .emerge, "emerge"), (.identifier, "n"), (.delimiter, "<D"),
    (.mark .rightBrace, "\x7d"), (.word .fishtion, "fishtion"), (.identifier, "same"), (.mark .leftParen, "("),
    (.mark .rightParen, ")"), (.type .int, "<int"), (.mark .leftBrace, "\x7b"), (.word .emerge, "emerge"),
    (.identifier, "same"), (.mark .leftParen, "("), (.mark .rightParen, ")"), (.delimiter, "<D"),
    (.mark .rightBrace, "\x7d"), (.mark .rightBrace, "\x7d")].map fun (kind, lexeme) => ⟨kind, .unplaced, lexeme⟩

theorem overtaken_firstDefined : ∃ root, Node.ofTokens overtaken = .ok root ∧
    root.diagnostics.map Diagnostic.kind = [.undeclaredFunction, .duplicateFunction, .arityMismatch] ∧
    root.FirstDefined := by
  have accepted : Node.ofTokens overtaken = .ok _ := rfl
  exact ⟨_, accepted, by decide, Node.ofTokens_firstDefined accepted⟩

end FishLang
