import Mathlib.Data.List.Forall2
import FishLang.Proofs.Analysis.Context
import FishLang.Proofs.Analysis.Resolve

namespace FishLang

open Node

-- The table has the types of the last variables of the scope before the cut.
def Fills (root : Node) (cut scope : Place) (table : Scope) : Prop :=
  ∀ name, table.find? name = ((root.bindersBefore cut scope name).getLast?).map root.declaredTyAt

structure Agrees (root : Node) (cut : Place) (context : Context) : Prop where
  scopes : List.Forall₂ (Fills root cut) (root.scopesAround cut) context.scopes
  functions : ∀ name, context.functions.find? name = (root.callee cut name).bind root.signatureAt
  enclosing : context.enclosing = (root.functionAround cut).bind root.signatureAt

namespace Agrees

theorem lookup (agrees : Agrees root use context) (name : String) :
    context.lookup name = (root.resolve use name).map root.declaredTyAt := by
  obtain ⟨scopes, _, _⟩ := agrees
  unfold Context.lookup Node.resolve
  generalize root.scopesAround use = around at scopes ⊢
  generalize context.scopes = tables at scopes ⊢
  induction scopes with
  | nil => rfl
  | @cons scope table _ _ here _ ih =>
    rw [List.findSome?_cons, List.findSome?_cons, here name, ih]
    cases (root.bindersBefore use scope name).getLast? <;> rfl

theorem of_same (agrees : Agrees root cut context) (scopes : after.scopes = context.scopes)
    (functions : after.functions = context.functions) (enclosing : after.enclosing = context.enclosing) :
    Agrees root cut after where
  scopes := by
    rw [scopes]
    exact agrees.scopes
  functions := by
    rw [functions]
    exact agrees.functions
  enclosing := by
    rw [enclosing]
    exact agrees.enclosing

end Agrees

section
variable {root node : Node}

theorem Fills.first_child (fills : Fills root place scope table) (present : root.at? place = some node)
    (apart : ∀ name, node.binds name = true → root.scopeOf place ≠ some scope) :
    Fills root (place ++ [0]) scope table := by
  intro name
  have nothing : (node.binds name && root.scopeOf place == some scope) = false := by
    cases binds : node.binds name with
    | false => rfl
    | true => simpa using apart name binds
  rw [fills name, bindersBefore_first_child present, nothing]
  simp

theorem Fills.next (fills : Fills root (parent ++ [index] ++ [node.children.length]) scope table)
    (present : root.at? (parent ++ [index]) = some node) : Fills root (parent ++ [index + 1]) scope table := by
  intro name
  rw [fills name, bindersBefore_next present]

theorem fills_empty (root : Node) (place : Place) : Fills root (place ++ [0]) place .empty := by
  intro name
  rw [bindersBefore_own]
  rfl

theorem Fills.insert (fills : Fills root place scope table) (present : root.at? place = some node)
    (binds : node.binds name = true) (own : root.scopeOf place = some scope) :
    Fills root (place ++ [0]) scope (table.insert name (root.declaredTyAt place)) := by
  intro other
  obtain ⟨introduces, named⟩ := Bool.and_eq_true_iff.mp binds
  have same : node.binds other = true ↔ name = other := by
    rw [Node.binds, introduces, ← beq_iff_eq.mp named]
    simp
  rw [Table.find?_insert, fills other, bindersBefore_first_child present, own]
  by_cases here : name = other
  · simp [here, same.mpr here]
  · simp [here, mt same.mp here]

theorem defines_iff {name : String} : node.defines name = true ↔ node.kind = .functionDef ∧ node.text = name := by
  simp [Node.defines]

theorem Agrees.functions_down (agrees : Agrees root place context) (present : root.at? place = some node)
    (other : node.kind ≠ .functionDef) (name : String) :
    context.functions.find? name = (root.callee (place ++ [0]) name).bind root.signatureAt := by
  have nothing : ¬ node.defines name = true := fun defines => other (defines_iff.mp defines).1
  simpa [callee_first_child present, nothing] using agrees.functions name

theorem Agrees.enclosing_down (agrees : Agrees root place context) (present : root.at? place = some node)
    (other : node.kind ≠ .functionDef) :
    context.enclosing = (root.functionAround (place ++ [0])).bind root.signatureAt := by
  rw [functionAround_child present, if_neg other]
  exact agrees.enclosing

theorem Agrees.enter (agrees : Agrees root place context) (present : root.at? place = some node)
    (flat : node.kind.opensScope = false) (binds : ∀ name, node.binds name = false) :
    Agrees root (place ++ [0]) context := by
  have other : node.kind ≠ .functionDef := by
    intro same
    simp [same, Node.Kind.opensScope] at flat
  refine ⟨?_, agrees.functions_down present other, agrees.enclosing_down present other⟩
  rw [scopesAround_child present, if_neg (by simp [flat])]
  exact agrees.scopes.imp fun scope table fills => fills.first_child present (by simp [binds])

theorem not_binds_of_opensScope (opens : node.kind.opensScope = true) (name : String) : node.binds name = false := by
  cases same : node.kind <;> simp_all [Node.binds, Node.Kind.opensScope]

theorem Agrees.openScope (agrees : Agrees root place context) (present : root.at? place = some node)
    (opens : node.kind.opensScope = true) (other : node.kind ≠ .functionDef) :
    Agrees root (place ++ [0]) context.openScope := by
  refine ⟨?_, agrees.functions_down present other, agrees.enclosing_down present other⟩
  rw [scopesAround_child present, if_pos opens]
  refine .cons (fills_empty root place) ?_
  exact agrees.scopes.imp fun scope table fills => fills.first_child present (by simp [not_binds_of_opensScope opens])

theorem scopes_of_around (agrees : Agrees root cut context) (around : root.scopesAround cut = scope :: outer) :
    ∃ table tables, context.scopes = table :: tables ∧ Fills root cut scope table ∧
      List.Forall₂ (Fills root cut) outer tables := by
  have scopes := agrees.scopes
  rw [around] at scopes
  generalize context.scopes = tables at scopes ⊢
  cases scopes with
  | cons here others => exact ⟨_, _, rfl, here, others⟩

theorem Agrees.declare (agrees : Agrees root place context) (present : root.at? place = some node)
    (binds : node.binds name = true) (inside : root.scopesAround place ≠ []) (line : Nat) :
    Agrees root (place ++ [0]) (context.declare name (root.declaredTyAt place) line) ∧
      (context.declare name (root.declaredTyAt place) line).reports =
        context.reports ++ reportUnless (root.unbound place name) (.redeclaration name) line := by
  obtain ⟨scope, outer, around⟩ := List.exists_cons_of_ne_nil inside
  obtain ⟨table, tables, scopes, fills, others⟩ := scopes_of_around agrees around
  have own : root.scopeOf place = some scope := by rw [scopeOf, around]; rfl
  have flat : node.kind.opensScope = false := by
    cases opens : node.kind.opensScope with
    | false => rfl
    | true => simp [not_binds_of_opensScope opens] at binds
  have other : node.kind ≠ .functionDef := by
    intro same
    simp [same, Node.Kind.opensScope] at flat
  have apart := ((List.forall₂_and_left _ _).mpr ⟨scopeOf_apart around, others⟩).imp fun scope' table' both =>
    Fills.first_child both.2 present fun _ _ => both.1
  rw [Context.declare_eq context line scopes]
  refine ⟨⟨?_, agrees.functions_down present other, agrees.enclosing_down present other⟩, ?_⟩
  · rw [scopesAround_child present, if_neg (by simp [flat]), around]
    exact .cons (fills.insert present binds own) apart
  · have new : (!table.contains name) = root.unbound place name := by
      rw [Node.unbound, own, Table.contains, fills name, Option.all_some]
      cases root.bindersBefore place scope name <;> simp
    rw [new]

theorem Agrees.functions_define (agrees : Agrees root place context) (present : root.at? place = some node)
    (function : node.kind = .functionDef) (line : Nat) (name : String) :
    (context.define (.ofNode node) line).functions.find? name =
      (root.callee (place ++ [0]) name).bind root.signatureAt := by
  have defines : node.defines name = true ↔ node.text = name := by simp [defines_iff, function]
  have known := agrees.functions node.text
  rw [callee_first_child present]
  have define : context.define (.ofNode node) line = if (context.functions.find? node.text).isSome = true then
      context.report (.duplicateFunction node.text) line
    else { context with functions := context.functions.insert node.text (.ofNode node) } := rfl
  rw [define]
  cases found : root.callee place node.text with
  | none =>
    have new : context.functions.find? node.text = none := by rw [known, found]; rfl
    simp only [new, Option.isSome_none, Bool.false_eq_true, if_false]
    show (context.functions.insert node.text (.ofNode node)).find? name = _
    rw [Table.find?_insert, agrees.functions name]
    by_cases same : node.text = name
    · subst same
      simp [found, defines, signatureAt_eq present]
    · simp [same, defines]
  | some first =>
    have old : (context.functions.find? node.text).isSome = true := by
      obtain ⟨definition, there, _⟩ := callee_present found
      rw [known, found, Option.bind_some, signatureAt_eq there]
      rfl
    rw [if_pos old]
    show context.functions.find? name = _
    rw [agrees.functions name]
    by_cases same : node.text = name
    · subst same
      simp [found]
    · simp [same, defines]

theorem Agrees.reports_define (agrees : Agrees root place context) (line : Nat) :
    (context.define (.ofNode node) line).reports =
      context.reports ++ reportUnless (root.callee place node.text).isNone (.duplicateFunction node.text) line := by
  have known : context.functions.contains (Signature.ofNode node).name = (root.callee place node.text).isSome := by
    rw [Table.contains]
    show (context.functions.find? node.text).isSome = _
    rw [agrees.functions node.text]
    cases found : root.callee place node.text with
    | none => rfl
    | some first =>
      obtain ⟨definition, there, _⟩ := callee_present found
      rw [Option.bind_some, signatureAt_eq there]
      rfl
  unfold Context.define
  rw [known]
  cases root.callee place node.text with
  | none => simp [reportUnless]
  | some first =>
    simp [reportUnless]
    rfl

theorem Context.scopes_define (context : Context) (signature : Signature) (line : Nat) :
    (context.define signature line).scopes = context.scopes := by
  unfold Context.define
  split <;> rfl

theorem Agrees.enterFunction (agrees : Agrees root place context) (present : root.at? place = some node)
    (function : node.kind = .functionDef) (line : Nat) :
    Agrees root (place ++ [0])
      { context.define (.ofNode node) line with enclosing := some (.ofNode node) : Context }.openScope := by
  have opens : node.kind.opensScope = true := by rw [function]; rfl
  refine ⟨?_, agrees.functions_define present function line, ?_⟩
  · rw [scopesAround_child present, if_pos opens]
    refine .cons (fills_empty root place) ?_
    show List.Forall₂ _ _ (context.define (.ofNode node) line).scopes
    rw [Context.scopes_define]
    exact agrees.scopes.imp fun scope table fills => fills.first_child present (by simp [not_binds_of_opensScope opens])
  · rw [functionAround_child present, if_pos function, Option.bind_some, signatureAt_eq present]
    rfl

-- Behind the last child of a node a pass is before the next node.
theorem Agrees.leave (agrees : Agrees root (parent ++ [index] ++ [node.children.length]) context)
    (present : root.at? (parent ++ [index]) = some node) (flat : node.kind.opensScope = false) :
    Agrees root (parent ++ [index + 1]) context := by
  obtain ⟨scopes, functions, enclosing⟩ := agrees
  have other : node.kind ≠ .functionDef := by
    intro same
    simp [same, Node.Kind.opensScope] at flat
  rw [scopesAround_child present, if_neg (by simp [flat]), scopesAround_sibling root parent index (index + 1)] at scopes
  rw [functionAround_child present, if_neg other, functionAround_sibling root parent index (index + 1)] at enclosing
  refine ⟨scopes.imp fun scope table fills => fills.next present, ?_, enclosing⟩
  intro name
  rw [callee_next present]
  exact functions name

theorem Agrees.closed (agrees : Agrees root (parent ++ [index] ++ [node.children.length]) context)
    (present : root.at? (parent ++ [index]) = some node) (opens : node.kind.opensScope = true) :
    List.Forall₂ (Fills root (parent ++ [index + 1])) (root.scopesAround (parent ++ [index + 1]))
      context.closeScope.scopes := by
  obtain ⟨table, tables, scopes, _, others⟩ := scopes_of_around agrees (by
    rw [scopesAround_child present, if_pos opens])
  rw [Context.scopes_closeScope, scopes, scopesAround_sibling root parent (index + 1) index]
  exact others.imp fun scope table fills => fills.next present

theorem Agrees.closeScope (agrees : Agrees root (parent ++ [index] ++ [node.children.length]) context)
    (present : root.at? (parent ++ [index]) = some node) (opens : node.kind.opensScope = true)
    (other : node.kind ≠ .functionDef) : Agrees root (parent ++ [index + 1]) context.closeScope := by
  refine ⟨agrees.closed present opens, ?_, ?_⟩
  · intro name
    rw [callee_next present]
    exact agrees.functions name
  · have enclosing := agrees.enclosing
    rw [functionAround_child present, if_neg other, functionAround_sibling root parent index (index + 1)] at enclosing
    exact enclosing

theorem Agrees.leaveFunction (agrees : Agrees root (parent ++ [index] ++ [node.children.length]) context)
    (outer : Agrees root (parent ++ [index]) earlier) (present : root.at? (parent ++ [index]) = some node)
    (function : node.kind = .functionDef) :
    Agrees root (parent ++ [index + 1]) { context.closeScope with enclosing := earlier.enclosing } := by
  refine ⟨agrees.closed present (by rw [function]; rfl), ?_, ?_⟩
  · intro name
    rw [callee_next present]
    exact agrees.functions name
  · rw [functionAround_sibling root parent (index + 1) index]
    exact outer.enclosing

theorem agrees_empty (root : Node) : Agrees root [] .empty := by
  refine ⟨.nil, ?_, rfl⟩
  intro name
  have nothing : root.before [] = [] := by simp [before]
  rw [callee_eq, nothing]
  rfl

theorem agrees_start (opens : root.kind.opensScope = true) (other : root.kind ≠ .functionDef) :
    Agrees root [0] Context.empty.openScope := by
  have present : root.at? [] = some root := rfl
  exact (agrees_empty root).openScope present opens other

theorem scopesAround_ne_nil (opens : root.kind.opensScope = true) (parent : Place) (index : Nat) :
    root.scopesAround (parent ++ [index]) ≠ [] := by
  have top : [] ∈ (parent ++ [index]).above := by
    cases parent with
    | nil => simp [Place.above]
    | cons first rest => simp [Place.above]
  have present : root.at? [] = some root := rfl
  exact List.ne_nil_of_mem (List.mem_filter.mpr ⟨top, by rw [holds_eq present]; exact opens⟩)

end

end FishLang
