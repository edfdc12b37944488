import FishLang.Proofs.Analysis.Agree
import FishLang.Proofs.Analysis.Fault
import FishLang.Proofs.Grammar.Shape

namespace FishLang

open Node Grammar

theorem visit_var (context : Context) (name : String) (line : Nat) :
    visit context (.leaf .var name line) = match context.lookup name with
      | some ty => (ty, context)
      | none => (none, context.report (.undeclaredVariable name) line) := rfl

theorem visit_assign (context : Context) (name : String) (given : Node) (line : Nat) :
    visit context ⟨.assign, some name, [given], line⟩ = (none,
      (visit context given).2.checkAssignment name line (context.lookup name) (visit context given).1) := rfl

theorem visit_emerge (context : Context) (given : Node) (line : Nat) :
    visit context (.group .emerge [given] line) =
      (none, (visit (context.require context.enclosing.isSome .returnOutsideFunction line) given).2.checkResult line
        context.enclosing (visit (context.require context.enclosing.isSome .returnOutsideFunction line) given).1) := rfl

theorem visit_binary (context : Context) (symbol : String) (left right : Node) (line : Nat) :
    visit context ⟨.binary, some symbol, [left, right], line⟩ =
      (visit (visit context left).2 right).2.checkOperands symbol line (visit context left).1
        (visit (visit context left).2 right).1 := rfl

theorem visit_call (context : Context) (name : String) (given : List Node) (below line : Nat) :
    visit context ⟨.call, some name, [.group .args given below], line⟩ =
      (visitAll context given).2.checkCall name line (visitAll context given).1 := rfl

theorem visit_declaration (context : Context) (name : String) (ty : Node) (line : Nat) :
    visit context ⟨.declaration, some name, [ty], line⟩ = (none, context.declare name ty.ty? line) := rfl

theorem visit_initialized (context : Context) (name : String) (ty value : Node) (below line : Nat) :
    visit context ⟨.declaration, some name, [ty, .group .initializer [value] below], line⟩ =
      (none, (visit (context.declare name ty.ty? line) value).2.require
        (compatible ty.ty? (visit (context.declare name ty.ty? line) value).1)
        (.initializer name ty.ty? (visit (context.declare name ty.ty? line) value).1) line) := rfl

-- From a context the pass has come to the place, with these reports more, in some order.
structure Follows (root : Node) (place : Place) (found : List Report) (context after : Context) : Prop where
  agrees : Agrees root place after
  reports : after.reports.Perm (context.reports ++ found)

namespace Follows

theorem refl (agrees : Agrees root place context) : Follows root place [] context context :=
  ⟨agrees, by simp⟩

theorem trans (one : Follows root middle front context next) (two : Follows root place back next after) :
    Follows root place (front ++ back) context after := by
  refine ⟨two.agrees, two.reports.trans ?_⟩
  rw [← List.append_assoc]
  exact one.reports.append_right back

theorem move (follows : Follows root middle found context next) (agrees : Agrees root place after)
    (same : after.reports = next.reports) : Follows root place found context after :=
  ⟨agrees, same ▸ follows.reports⟩

-- The pass reports about a node before and after what is below.
theorem around (follows : Follows root middle found next last) (early : next.reports = context.reports ++ front)
    (late : after.reports = last.reports ++ back) (agrees : Agrees root place after) :
    Follows root place (front ++ back ++ found) context after := by
  refine ⟨agrees, ?_⟩
  rw [late]
  refine (follows.reports.append_right back).trans ?_
  rw [early, List.append_assoc, List.append_assoc, List.append_assoc]
  exact ((List.perm_append_comm).append_left front).append_left context.reports

-- The pass reports about a node once it is through with what is below.
theorem late (follows : Follows root middle found context next) (more : after.reports = next.reports ++ own)
    (agrees : Agrees root place after) : Follows root place (own ++ found) context after :=
  follows.around (List.append_nil _).symm more agrees

-- The pass reports about a node before it goes on.
theorem early (follows : Follows root place found next after) (more : next.reports = context.reports ++ own) :
    Follows root place (own ++ found) context after := by
  refine ⟨follows.agrees, ?_⟩
  rw [← List.append_assoc, ← more]
  exact follows.reports

end Follows

-- A visit of the node, wherever it stands in the tree, does what its place says.
def Simulated (root node : Node) : Prop :=
  ∀ parent index context, root.at? (parent ++ [index]) = some node → Agrees root (parent ++ [index]) context →
    (visit context node).1 = root.infer (parent ++ [index]) node ∧
      Follows root (parent ++ [index + 1]) (root.faultsFrom (parent ++ [index]) node) context (visit context node).2

section
variable {root node : Node} {place parent : Place}

theorem visitAll_simulated {whole : Node} (present : root.at? place = some whole) (nodes : List Node) :
    ∀ passed context, whole.children = passed ++ nodes → (∀ node ∈ nodes, Simulated root node) →
      Agrees root (place ++ [passed.length]) context →
      (visitAll context nodes).1 =
        nodes.mapIdx (fun index => root.infer (place ++ [passed.length + index])) ∧
      Follows root (place ++ [whole.children.length]) (root.faultsAll place passed.length nodes) context
        (visitAll context nodes).2 := by
  induction nodes with
  | nil =>
    intro passed context split _ agrees
    rw [split, List.append_nil]
    exact ⟨rfl, .refl agrees⟩
  | cons node others ih =>
    intro passed context split simulated agrees
    have here : root.at? (place ++ [passed.length]) = some node := by
      rw [at?_child present, split]
      simp
    obtain ⟨typed, follows⟩ := simulated node (by simp) place passed.length context here agrees
    have agrees' : Agrees root (place ++ [(passed ++ [node]).length]) (visit context node).2 := by
      rw [List.length_append]
      exact follows.agrees
    obtain ⟨types, follows'⟩ := ih (passed ++ [node]) (visit context node).2 (by simp [split])
      (fun other member => simulated other (by simp [member])) agrees'
    constructor
    · show (visit context node).1 :: (visitAll (visit context node).2 others).1 = _
      rw [typed, types, List.mapIdx_cons]
      simp [Nat.add_assoc, Nat.add_comm 1]
    · rw [faultsAll_cons]
      rw [List.length_append] at follows'
      exact follows.trans follows'

theorem visitAll_children (present : root.at? place = some node)
    (simulated : ∀ child ∈ node.children, Simulated root child) (agrees : Agrees root (place ++ [0]) context) :
    (visitAll context node.children).1 = node.children.mapIdx (fun index => root.infer (place ++ [index])) ∧
      Follows root (place ++ [node.children.length]) (root.faultsAll place 0 node.children) context
        (visitAll context node.children).2 := by
  simpa using visitAll_simulated present node.children [] context rfl simulated agrees

theorem simulated_group (flat : node.kind.opensScope = false) (binds : ∀ name, node.binds name = false)
    (visits : ∀ context, visit context node = (none, (visitAll context node.children).2))
    (untyped : ∀ place, root.infer place node = none) (faultless : ∀ place, root.faults place node = [])
    (simulated : ∀ child ∈ node.children, Simulated root child) : Simulated root node := by
  intro parent index context present agrees
  have entered := agrees.enter present flat binds
  obtain ⟨_, follows⟩ := visitAll_children present simulated entered
  rw [visits, untyped, faultsFrom_eq present, faultless, List.nil_append]
  exact ⟨rfl, follows.move (follows.agrees.leave present flat) rfl⟩

theorem simulated_scope (opens : node.kind.opensScope = true) (other : node.kind ≠ .functionDef)
    (visits : ∀ context, visit context node = (none, (visitAll context.openScope node.children).2.closeScope))
    (untyped : ∀ place, root.infer place node = none) (faultless : ∀ place, root.faults place node = [])
    (simulated : ∀ child ∈ node.children, Simulated root child) : Simulated root node := by
  intro parent index context present agrees
  have entered := agrees.openScope present opens other
  obtain ⟨_, follows⟩ := visitAll_children present simulated entered
  rw [visits, untyped, faultsFrom_eq present, faultless, List.nil_append]
  exact ⟨rfl, follows.agrees.closeScope present opens other, follows.reports⟩

theorem simulated_leaf (bare : node.children = []) (flat : node.kind.opensScope = false)
    (binds : ∀ name, node.binds name = false)
    (visits : ∀ context place, Agrees root place context → (visit context node).1 = root.infer place node ∧
      (visit context node).2 = { context with reports := context.reports ++ root.faults place node }) :
    Simulated root node := by
  intro parent index context present agrees
  have passed : Agrees root (parent ++ [index + 1]) context := by
    have entered := agrees.enter present flat binds
    refine Agrees.leave ?_ present flat
    rw [bare]
    exact entered
  obtain ⟨typed, done⟩ := visits context (parent ++ [index]) agrees
  refine ⟨typed, ?_, ?_⟩
  · rw [done]
    exact passed.of_same rfl rfl rfl
  · rw [done, faultsFrom_eq present, bare, faultsAll_nil, List.append_nil]

theorem simulated_typeName (ty : Ty) (line : Nat) : Simulated root (.ofTy ty line) :=
  simulated_group rfl (fun _ => rfl) (fun _ => rfl) (fun _ => rfl) (fun _ => rfl) (by simp [Node.ofTy, Node.leaf])

theorem simulated_num (text : String) (line : Nat) : Simulated root (.leaf .num text line) := by
  apply simulated_leaf rfl rfl (fun _ => rfl)
  intro context place _
  exact ⟨rfl, by simp [Node.leaf, Node.faults, visit]⟩

theorem simulated_string (text : String) (line : Nat) : Simulated root (.leaf .string text line) := by
  apply simulated_leaf rfl rfl (fun _ => rfl)
  intro context place _
  exact ⟨rfl, by simp [Node.leaf, Node.faults, visit]⟩

theorem simulated_char (text : String) (line : Nat) : Simulated root (.leaf .char text line) := by
  apply simulated_leaf rfl rfl (fun _ => rfl)
  intro context place _
  exact ⟨rfl, by simp [Node.leaf, Node.faults, visit]⟩

theorem simulated_var (name : String) (line : Nat) : Simulated root (.leaf .var name line) := by
  apply simulated_leaf rfl rfl (fun _ => rfl)
  intro context place agrees
  have found := agrees.lookup name
  have faults : root.faults place (.leaf .var name line) =
      reportUnless (root.resolve place name).isSome (.undeclaredVariable name) line := rfl
  have infer : root.infer place (.leaf .var name line) = (root.resolve place name).bind root.declaredTyAt := rfl
  rw [visit_var, faults, infer, found]
  cases root.resolve place name with
  | none => exact ⟨rfl, rfl⟩
  | some binder => simp [reportUnless]

theorem over_operand {operand : Node} (only : node.children = [operand]) (flat : node.kind.opensScope = false)
    (binds : ∀ name, node.binds name = false) (simulated : Simulated root operand)
    (present : root.at? (parent ++ [index]) = some node) (agrees : Agrees root (parent ++ [index]) context) :
    (visit context operand).1 = root.typeAt (parent ++ [index] ++ [0]) ∧
      Follows root (parent ++ [index + 1]) (root.faultsAll (parent ++ [index]) 0 node.children) context
        (visit context operand).2 := by
  have below : root.at? (parent ++ [index] ++ [0]) = some operand := by
    rw [at?_child present, only]
    rfl
  obtain ⟨typed, follows⟩ := simulated (parent ++ [index]) 0 context below (agrees.enter present flat binds)
  refine ⟨typed.trans (typeAt_eq below).symm, ?_⟩
  have left : Agrees root (parent ++ [index + 1]) (visit context operand).2 := by
    refine Agrees.leave ?_ present flat
    rw [only]
    exact follows.agrees
  rw [only, faultsAll_cons, faultsAll_nil, List.append_nil]
  exact follows.move left rfl

theorem simulated_through {operand : Node} {kind : Node.Kind} (kinds : kind = .unary ∨ kind = .suffix)
    (simulated : Simulated root operand) (symbol : Option String) (line : Nat) :
    Simulated root ⟨kind, symbol, [operand], line⟩ := by
  intro parent index context present agrees
  have below : root.at? (parent ++ [index] ++ [0]) = some operand := at?_child present 0
  rw [faultsFrom_eq present]
  cases kinds with
  | inl same | inr same =>
    subst same
    obtain ⟨typed, follows⟩ := over_operand rfl rfl (fun _ => rfl) simulated present agrees
    exact ⟨typed.trans (typeAt_eq below), follows⟩

theorem simulated_assign {given : Node} (simulated : Simulated root given) (name : String) (line : Nat) :
    Simulated root ⟨.assign, some name, [given], line⟩ := by
  intro parent index context present agrees
  obtain ⟨typed, follows⟩ := over_operand rfl rfl (fun _ => rfl) simulated present agrees
  rw [visit_assign, agrees.lookup name, typed, faultsFrom_eq present, Context.checkAssignment_eq]
  exact ⟨rfl, follows.late rfl (follows.agrees.of_same rfl rfl rfl)⟩

theorem simulated_emerge {given : Node} (simulated : Simulated root given) (line : Nat) :
    Simulated root (.group .emerge [given] line) := by
  intro parent index context present agrees
  have checked : Agrees root (parent ++ [index])
      (context.require context.enclosing.isSome .returnOutsideFunction line) :=
    agrees.of_same (by simp) (by simp) (by simp)
  obtain ⟨typed, follows⟩ := over_operand rfl rfl (fun _ => rfl) simulated present checked
  rw [visit_emerge, typed, Context.checkResult_eq, agrees.enclosing, faultsFrom_eq present]
  rw [agrees.enclosing] at follows
  exact ⟨rfl, follows.around (Context.reports_require ..) rfl (follows.agrees.of_same rfl rfl rfl)⟩

theorem simulated_binary {left right : Node} (one : Simulated root left) (two : Simulated root right) (symbol : String)
    (line : Nat) : Simulated root ⟨.binary, some symbol, [left, right], line⟩ := by
  intro parent index context present agrees
  have first : root.at? (parent ++ [index] ++ [0]) = some left := at?_child present 0
  have second : root.at? (parent ++ [index] ++ [1]) = some right := at?_child present 1
  obtain ⟨typedLeft, followsLeft⟩ := one _ 0 context first (agrees.enter present rfl fun _ => rfl)
  obtain ⟨typedRight, followsRight⟩ := two _ 1 _ second followsLeft.agrees
  have own : root.faults (parent ++ [index]) ⟨.binary, some symbol, [left, right], line⟩ =
      Context.operandReports symbol line (root.infer (parent ++ [index] ++ [0]) left)
        (root.infer (parent ++ [index] ++ [1]) right) := by
    rw [← typeAt_eq first, ← typeAt_eq second]
    rfl
  rw [visit_binary, Context.checkOperands_eq, faultsFrom_eq present, own, typedLeft, typedRight]
  have below := followsLeft.trans followsRight
  have found : root.faultsAll (parent ++ [index]) 0 [left, right] =
      root.faultsFrom (parent ++ [index] ++ [0]) left ++ root.faultsFrom (parent ++ [index] ++ [1]) right := by
    simp [faultsAll_cons, faultsAll_nil]
  rw [← found] at below
  have back : Agrees root (parent ++ [index + 1]) (visit (visit context left).2 right).2 :=
    below.agrees.leave present rfl
  exact ⟨rfl, below.late rfl (back.of_same rfl rfl rfl)⟩

theorem Agrees.passType (agrees : Agrees root (place ++ [index]) context) (present : root.at? place = some node)
    (typed : node.children[index]? = some ty) (shaped : Shaped .typeName ty) :
    Agrees root (place ++ [index + 1]) context ∧ root.faultsFrom (place ++ [index]) ty = [] := by
  obtain ⟨named, line, rfl⟩ := shaped.typeName_eq
  have below := (at?_child present index).trans typed
  obtain ⟨_, follows⟩ := simulated_typeName named line place index context below agrees
  exact ⟨follows.agrees, by rw [faultsFrom_eq below]; rfl⟩

theorem declaredTyAt_eq (present : root.at? place = some node) :
    root.declaredTyAt place = (node.child? 0).bind ty? := by
  rw [declaredTyAt, present]
  rfl

theorem simulated_declaration (opens : root.kind.opensScope = true) (typed : Shaped .typeName ty) (name : String)
    (line : Nat) : Simulated root ⟨.declaration, some name, [ty], line⟩ := by
  intro parent index context present agrees
  have binds : Node.binds name ⟨.declaration, some name, [ty], line⟩ = true := by simp [Node.binds, Node.text]
  have declared : root.declaredTyAt (parent ++ [index]) = ty.ty? := declaredTyAt_eq present
  obtain ⟨bound, reports⟩ := agrees.declare present binds (scopesAround_ne_nil opens parent index) line
  obtain ⟨passed, faultless⟩ := bound.passType present rfl typed
  rw [declared] at passed reports
  rw [visit_declaration, faultsFrom_eq present, faultsAll_cons, faultless]
  refine ⟨rfl, passed.leave present rfl, ?_⟩
  rw [reports]
  simp [Node.faults, faultsAll_nil, Node.child?, Node.text]

theorem simulated_initialized {value : Node} (opens : root.kind.opensScope = true) (typed : Shaped .typeName ty)
    (simulated : Simulated root value) (name : String) (line below : Nat) :
    Simulated root ⟨.declaration, some name, [ty, .group .initializer [value] below], line⟩ := by
  intro parent index context present agrees
  have binds : Node.binds name ⟨.declaration, some name, [ty, .group .initializer [value] below], line⟩ = true := by
    simp [Node.binds, Node.text]
  have declared : root.declaredTyAt (parent ++ [index]) = ty.ty? := declaredTyAt_eq present
  obtain ⟨bound, reports⟩ := agrees.declare present binds (scopesAround_ne_nil opens parent index) line
  obtain ⟨passed, faultless⟩ := bound.passType present rfl typed
  have initializer := at?_child present 1
  rw [declared] at passed reports
  obtain ⟨given, follows⟩ := over_operand rfl rfl (fun _ => rfl) simulated initializer passed
  have found : root.faultsAll (parent ++ [index]) 0 [ty, .group .initializer [value] below] =
      root.faultsAll (parent ++ [index] ++ [1]) 0 [value] := by
    rw [faultsAll_cons, faultless, faultsAll_cons, faultsFrom_eq initializer, faultsAll_nil, List.append_nil]
    rfl
  have own : root.faults (parent ++ [index]) ⟨.declaration, some name, [ty, .group .initializer [value] below], line⟩ =
      reportUnless (root.unbound (parent ++ [index]) name) (.redeclaration name) line ++
        reportUnless
          (compatible (root.declaredTyAt (parent ++ [index])) (root.typeAt (parent ++ [index] ++ [1] ++ [0])))
          (.initializer name (root.declaredTyAt (parent ++ [index])) (root.typeAt (parent ++ [index] ++ [1] ++ [0])))
          line := rfl
  have back : Agrees root (parent ++ [index + 1]) (visit (context.declare name ty.ty? line) value).2 :=
    follows.agrees.leave present rfl
  rw [visit_initialized, given, Context.require_eq, faultsFrom_eq present, own, declared]
  show _ ∧ Follows root _ (_ ++ root.faultsAll (parent ++ [index]) 0 [ty, .group .initializer [value] below]) _ _
  rw [found]
  exact ⟨rfl, follows.around reports rfl (back.of_same rfl rfl rfl)⟩

-- A visit that defines no function.
def Plain (node : Node) : Prop := ∀ context, (visit context node).2.functions = context.functions

theorem visitAll_plain (nodes : List Node) (plain : ∀ node ∈ nodes, Plain node) (context : Context) :
    (visitAll context nodes).2.functions = context.functions := by
  induction nodes generalizing context with
  | nil => rfl
  | cons node others ih =>
    show (visitAll (visit context node).2 others).2.functions = context.functions
    rw [ih (fun other member => plain other (by simp [member])), plain node (by simp)]

theorem expression_plain (shaped : Shaped role node) (kinds : role ∈ [Role.expression, .call, .args]) : Plain node := by
  induction shaped with
  | @call args name line taken ih =>
    obtain ⟨given, below, rfl, _⟩ := taken.args_eq
    intro context
    rw [visit_call, Context.checkCall_eq]
    exact ih (by simp) context
  | @args given line _ ih =>
    intro context
    exact visitAll_plain given (fun node member => ih node member (by simp)) context
  | @binary op left right line _ _ _ ihLeft ihRight =>
    intro context
    rw [visit_binary, Context.checkOperands_eq, ← ihLeft (by simp) context, ← ihRight (by simp) (visit context left).2]
  | unary _ _ ih => exact ih (by simp)
  | suffix _ _ ih => exact ih (by simp)
  | @var name line =>
    intro context
    rw [visit_var]
    cases context.lookup name <;> rfl
  | num | string | char =>
    intro context
    rfl
  | @takes other value role among _ ih =>
    apply ih
    cases role <;> simp_all [Role.admits]
  | _ => simp at kinds

theorem simulated_call {given : List Node} (each : ∀ node ∈ given, Simulated root node)
    (plain : ∀ node ∈ given, Plain node) (name : String) (below line : Nat) :
    Simulated root ⟨.call, some name, [.group .args given below], line⟩ := by
  intro parent index context present agrees
  have args : root.at? (parent ++ [index] ++ [0]) = some (.group .args given below) := at?_child present 0
  have entered := (agrees.enter present rfl fun _ => rfl).enter args rfl fun _ => rfl
  obtain ⟨types, follows⟩ := visitAll_children args each entered
  have types : (visitAll context given).1 =
      root.argumentTys (parent ++ [index]) ⟨.call, some name, [.group .args given below], line⟩ := types
  have inner : Agrees root (parent ++ [index] ++ [1]) (visitAll context given).2 := follows.agrees.leave args rfl
  have back : Agrees root (parent ++ [index + 1]) (visitAll context given).2 := inner.leave present rfl
  have found : root.faultsAll (parent ++ [index]) 0 [.group .args given below] =
      root.faultsAll (parent ++ [index] ++ [0]) 0 given := by
    rw [faultsAll_cons, faultsAll_nil, List.append_nil, faultsFrom_eq args]
    rfl
  rw [visit_call, Context.checkCall_eq, visitAll_plain given plain, agrees.functions, types, faultsFrom_eq present]
  show _ ∧ Follows root _ (_ ++ root.faultsAll (parent ++ [index]) 0 [.group .args given below]) _ _
  rw [found]
  exact ⟨rfl, follows.late rfl (back.of_same rfl (visitAll_plain given plain context).symm rfl)⟩

theorem declareAll_simulated {whole : Node} (opens : root.kind.opensScope = true)
    (present : root.at? place = some whole) (params : List Node) : ∀ passed context, whole.children = passed ++ params →
      (∀ param ∈ params, Shaped .param param) → Agrees root (place ++ [passed.length]) context →
      Follows root (place ++ [whole.children.length]) (root.faultsAll place passed.length params) context
        (context.declareAll (params.map .ofNode)) := by
  induction params with
  | nil =>
    intro passed context split _ agrees
    rw [split, List.append_nil]
    exact .refl agrees
  | cons param others ih =>
    intro passed context split shaped agrees
    have here : root.at? (place ++ [passed.length]) = some param := by
      rw [at?_child present, split]
      simp
    obtain ⟨name, ty, line, rfl, typed⟩ := (shaped param (by simp)).param_eq
    have binds : Node.binds name ⟨.param, some name, [ty], line⟩ = true := by simp [Node.binds, Node.text]
    have declared : root.declaredTyAt (place ++ [passed.length]) = ty.ty? := declaredTyAt_eq here
    obtain ⟨bound, reports⟩ := agrees.declare here binds (scopesAround_ne_nil opens place passed.length) line
    obtain ⟨inner, faultless⟩ := bound.passType here rfl typed
    have back : Agrees root (place ++ [passed.length + 1]) _ := inner.leave here rfl
    rw [declared] at back reports
    have own : root.faultsFrom (place ++ [passed.length]) ⟨.param, some name, [ty], line⟩ =
        reportUnless (root.unbound (place ++ [passed.length]) name) (.redeclaration name) line := by
      rw [faultsFrom_eq here, faultsAll_cons, faultless]
      simp [Node.faults, faultsAll_nil, Node.child?, Node.text]
    have follows := ih (passed ++ [⟨.param, some name, [ty], line⟩]) (context.declare name ty.ty? line)
      (by simp [split]) (fun other member => shaped other (by simp [member])) (by simpa using back)
    rw [List.length_append] at follows
    rw [faultsAll_cons, own]
    exact follows.early reports

theorem simulated_functionDef {params result body : Node} (opens : root.kind.opensScope = true)
    (taken : Shaped .params params) (typed : Shaped .typeName result) (simulated : Simulated root body) (name : String)
    (line : Nat) : Simulated root ⟨.functionDef, some name, [params, result, body], line⟩ := by
  intro parent index context present agrees
  obtain ⟨list, below, rfl, shaped⟩ := taken.params_eq
  have group : root.at? (parent ++ [index] ++ [0]) = some (.group .params list below) := at?_child present 0
  have inner : root.at? (parent ++ [index] ++ [2]) = some body := at?_child present 2
  have entered := (agrees.enterFunction present rfl line).enter group rfl fun _ => rfl
  have bound := declareAll_simulated opens group list [] _ rfl shaped entered
  have passed : Agrees root (parent ++ [index] ++ [1]) _ := bound.agrees.leave group rfl
  obtain ⟨atBody, faultless⟩ := passed.passType present rfl typed
  obtain ⟨_, follows⟩ := simulated _ 2 _ inner atBody
  have found : root.faultsAll (parent ++ [index]) 0 [.group .params list below, result, body] =
      root.faultsAll (parent ++ [index] ++ [0]) 0 list ++ root.faultsFrom (parent ++ [index] ++ [2]) body := by
    rw [faultsAll_cons, faultsFrom_eq group, faultsAll_cons, faultless, faultsAll_cons, faultsAll_nil, List.append_nil]
    rfl
  rw [faultsFrom_eq present]
  show _ ∧ Follows root _ (_ ++ root.faultsAll (parent ++ [index]) 0 [.group .params list below, result, body]) _ _
  rw [found]
  exact ⟨rfl, ((bound.trans follows).early (agrees.reports_define line)).move
    (follows.agrees.leaveFunction agrees present rfl) rfl⟩

-- What a visit does by the role of a node. Parameters are bound by their function; an initializer and arguments
-- are passed over to what is in them.
def Visited (root : Node) : Role → Node → Prop
  | .params, _ | .param, _ => True
  | .initializer, node | .args, node => ∀ child ∈ node.children, Simulated root child
  | _, node => Simulated root node

theorem simulated_suffix {op : String} {operand : Node} (simulated : Simulated root operand) (line : Nat) :
    Simulated root ⟨.suffix, some op, [operand], line⟩ :=
  simulated_through (.inr rfl) simulated _ _

theorem shaped_visited (opens : root.kind.opensScope = true) (shaped : Shaped role node) : Visited root role node := by
  induction shaped with
  | @program body line _ ih =>
    apply simulated_scope rfl (by simp [Node.group]) (fun _ => rfl) (fun _ => rfl) (fun _ => rfl)
    intro child member
    cases List.mem_singleton.mp member
    exact ih
  | block _ ih => exact simulated_scope rfl (by simp [Node.group]) (fun _ => rfl) (fun _ => rfl) (fun _ => rfl) ih
  | typeName => exact simulated_typeName _ _
  | declaration typed => exact simulated_declaration opens typed _ _
  | initialized typed given _ ih =>
    obtain ⟨value, line, rfl, _⟩ := given.initializer_eq
    exact simulated_initialized opens typed (ih value (by simp [Node.group])) _ _ _
  | initializer _ ih =>
    intro child member
    cases List.mem_singleton.mp member
    exact ih
  | functionDef taken typed _ _ _ ih => exact simulated_functionDef opens taken typed ih _ _
  | params | param => trivial
  | when _ _ _ _ ihGiven ihInner ihLast =>
    apply simulated_group rfl (fun _ => rfl) (fun _ => rfl) (fun _ => rfl) (fun _ => rfl)
    simpa [Node.group] using ⟨ihGiven, ihInner, ihLast⟩
  | whale _ _ ihGiven ihInner =>
    apply simulated_group rfl (fun _ => rfl) (fun _ => rfl) (fun _ => rfl) (fun _ => rfl)
    simpa [Node.group] using ⟨ihGiven, ihInner⟩
  | fork _ _ _ _ ihStart ihGiven ihStep ihInner =>
    apply simulated_scope rfl (by simp [Node.group]) (fun _ => rfl) (fun _ => rfl) (fun _ => rfl)
    simpa [Node.group] using ⟨ihStart, ihGiven, ihStep, ihInner⟩
  | attempt _ _ _ _ ihInner ihRescue ihLast =>
    apply simulated_group rfl (fun _ => rfl) (fun _ => rfl) (fun _ => rfl) (fun _ => rfl)
    simpa [Node.group] using ⟨ihInner, ihRescue, ihLast⟩
  | splash _ ih =>
    apply simulated_group rfl (fun _ => rfl) (fun _ => rfl) (fun _ => rfl) (fun _ => rfl)
    intro child member
    cases List.mem_singleton.mp member
    exact ih
  | emerge _ ih => exact simulated_emerge ih _
  | assign _ ih => exact simulated_assign ih _ _
  | count => exact simulated_suffix (simulated_var _ _) _
  | call taken ih =>
    obtain ⟨given, below, rfl, shaped⟩ := taken.args_eq
    exact simulated_call ih (fun node member => expression_plain (shaped node member) (by simp)) _ _ _
  | args _ ih => exact ih
  | binary _ _ _ ihLeft ihRight => exact simulated_binary ihLeft ihRight _ _
  | unary _ _ ih => exact simulated_through (.inl rfl) ih _ _
  | suffix _ _ ih => exact simulated_suffix ih _
  | var => exact simulated_var _ _
  | num => exact simulated_num _ _
  | string => exact simulated_string _ _
  | char => exact simulated_char _ _
  | absent =>
    apply simulated_group rfl (fun _ => rfl) (fun _ => rfl) (fun _ => rfl) (fun _ => rfl)
    simp [Node.absent, Node.group]
  | @takes other value role among _ ih =>
    cases role <;> cases other <;> first | exact ih | simp [Role.admits] at among

end

-- The reports on a program are those on its places, each as often as it is due.
theorem reports_perm {root : Node} (shaped : Shaped .program root) :
    root.reports.Perm (root.places.flatMap root.faultsAt) := by
  cases shaped with
  | takes among => cases among
  | @program body line inner =>
    have present : (Node.group .program [body] line).at? [] = some (.group .program [body] line) := rfl
    have simulated : ∀ child ∈ [body], Simulated (.group .program [body] line) child := by
      intro child member
      cases List.mem_singleton.mp member
      exact shaped_visited rfl inner
    obtain ⟨_, follows⟩ := visitAll_children present simulated (agrees_start rfl (by simp [Node.group]))
    have all : (Node.group .program [body] line).places.flatMap (Node.group .program [body] line).faultsAt =
        (Node.group .program [body] line).faultsAll [] 0 [body] := faultsFrom_eq present
    rw [all]
    exact follows.reports

end FishLang
