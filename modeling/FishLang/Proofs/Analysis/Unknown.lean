import FishLang.Proofs.Analysis.Value

namespace FishLang

open Node Grammar

def Signature.Known (signature : Signature) : Prop :=
  (∃ ty, signature.result = some ty) ∧ ∀ parameter ∈ signature.parameters, ∃ ty, parameter.ty = some ty

-- All variables and functions are known with their types.
structure Context.Informed (context : Context) : Prop where
  bound : ∀ name ty, context.lookup name = some ty → ∃ known, ty = some known
  defined : ∀ name signature, context.functions.find? name = some signature → signature.Known
  enclosing : ∀ signature, context.enclosing = some signature → signature.Known

namespace Visit

def parts (made : Visit) : List (Option Ty) × Context := visitAll (made.before.enter made.node) made.node.parts

-- The types that the types of the parts are compared with, one by one. Two operands are compared with each other.
def expected (made : Visit) : List (Option Ty) :=
  match made.node.kind with
  | .declaration => [made.node.declaredTy?]
  | .assign => (made.before.lookup made.node.text).toList
  | .emerge => (made.before.enclosing.map Signature.result).toList
  | .call => (made.parts.2.functions.find? made.node.text).elim [] fun function => function.parameters.map Parameter.ty
  | .binary => made.parts.1.drop 1
  | _ => []

def checks (made : Visit) : List (Option Ty × Option Ty) := made.expected.zip made.parts.1

end Visit

section
variable {root node : Node}

theorem signatureAt_known (shaped : Shaped role root) (present : root.at? place = some node)
    (function : node.kind = .functionDef) (signed : root.signatureAt place = some signature) : signature.Known := by
  rw [signatureAt_eq present] at signed
  cases signed
  exact signature_known shaped present function

theorem run_informed {made : Visit} (program : Shaped .program root) (member : made ∈ root.run) :
    made.before.Informed := by
  obtain ⟨_, agrees⟩ := run_sound program member
  refine ⟨?_, ?_, ?_⟩
  · intro name ty found
    rw [agrees.lookup, Option.map_eq_some_iff] at found
    obtain ⟨binder, resolves, rfl⟩ := found
    obtain ⟨node, present, binds⟩ := resolve_present resolves
    exact declaredTyAt_known program present binds
  · intro name signature found
    rw [agrees.functions, Option.bind_eq_some_iff] at found
    obtain ⟨function, callee, signed⟩ := found
    obtain ⟨node, present, kind, _⟩ := callee_present callee
    exact signatureAt_known program present kind signed
  · intro signature found
    rw [agrees.enclosing, Option.bind_eq_some_iff] at found
    obtain ⟨function, around, signed⟩ := found
    obtain ⟨node, present, kind⟩ := functionAround_present around
    exact signatureAt_known program present kind signed

-- A visit of the node that reports nothing yields a type.
def Candid (node : Node) : Prop :=
  ∀ context : Context, context.Informed → (visit context node).2.reports = context.reports →
    ∃ ty, (visit context node).1 = some ty

theorem visitAll_candid {nodes : List Node} (each : ∀ node ∈ nodes, Harmless node ∧ Candid node) {context : Context}
    (informed : context.Informed) (silent : (visitAll context nodes).2.reports = context.reports) :
    ∀ ty ∈ (visitAll context nodes).1, ∃ known, ty = some known := by
  induction nodes with
  | nil => simp [visitAll]
  | cons node rest ih =>
    rw [visitAll_cons] at silent ⊢
    obtain ⟨harmless, candid⟩ := each node (by simp)
    have early := grows_visit node context
    have late := grows_among rest (visit context node).2
    rw [silent] at late
    have first := late.eq_of_length_le early.length_le
    have same : (visit context node).2 = context := by rw [harmless, first]
    rw [same] at silent ⊢
    exact List.forall_mem_cons.mpr
      ⟨candid context informed first, ih (fun other member => each other (by simp [member])) silent⟩

theorem known_pair {given : List (Option Ty)} (two : given.length = 2) (known : ∀ ty ∈ given, ∃ known, ty = some known) :
    ∃ one other, given = [some one, some other] := by
  obtain ⟨one, other, rfl⟩ := List.length_eq_two.mp two
  obtain ⟨one, rfl⟩ := known one (by simp)
  obtain ⟨other, rfl⟩ := known other (by simp)
  exact ⟨one, other, rfl⟩

theorem leave_candid {given : List (Option Ty)} (shaped : Shaped role node) (kinds : node.kind ∈ valueKinds)
    {context : Context} (informed : context.Informed) (known : ∀ ty ∈ given, ∃ known, ty = some known)
    (same : given.length = node.parts.length)
    (silent : (context.leave node given context).2.reports = context.reports) :
    ∃ ty, (context.leave node given context).1 = some ty := by
  unfold Context.leave at silent ⊢
  cases kind : node.kind with
  | call =>
    simp only [kind, Context.checkCall_eq, List.append_right_eq_self] at silent ⊢
    obtain ⟨signature, found, _⟩ := callReports_eq_nil.mp silent
    rw [found]
    exact (informed.defined _ _ found).1
  | binary =>
    obtain ⟨_, _, _, _, rfl, _⟩ := shaped.of_binary kind
    obtain ⟨one, other, rfl⟩ := known_pair same known
    simp only [Context.checkOperands_eq, List.append_right_eq_self] at silent ⊢
    cases operandReports_eq_nil.mp silent
    exact ⟨_, if_pos rfl⟩
  | unary | suffix =>
    obtain ⟨_, _, _, whole, _⟩ := shaped.of_operand (by simp [kind])
    rw [whole, kind] at same
    obtain ⟨one, rfl⟩ := List.length_eq_one_iff.mp same
    exact known one (by simp)
  | var =>
    simp only [kind] at silent ⊢
    cases found : context.lookup node.text with
    | none => simp [found, Context.report] at silent
    | some ty => exact informed.bound _ _ found
  | num | string | char => exact ⟨_, rfl⟩
  | _ => simp [kind, valueKinds] at kinds

theorem Grammar.Shaped.candid (shaped : Shaped role node) (kinds : node.kind ∈ valueKinds) : Candid node := by
  refine (shaped.value_induction (motive := fun node => Harmless node ∧ Candid node) ?_ kinds).2
  intro role node shaped kinds parts
  refine ⟨shaped.harmless kinds, ?_⟩
  intro context informed silent
  rw [visit_eq, enter_value kinds] at silent ⊢
  have before := grows_among node.parts context
  have behind := context.grows_leave node (visitAll context node.parts).1 (visitAll context node.parts).2
  rw [silent] at behind
  have unchanged := behind.eq_of_length_le before.length_le
  have same : (visitAll context node.parts).2 = context := by
    rw [visitAll_harmless (fun part member => (parts part member).1), unchanged]
  have known := visitAll_candid parts informed unchanged
  rw [same] at silent ⊢
  exact leave_candid shaped kinds informed known (visitAll_length _ _) silent

theorem visits_trans (node : Node) : ∀ place context, ∀ made ∈ visits place context node,
    ∀ inner ∈ visits made.place made.before made.node, inner ∈ visits place context node := by
  induction node using Node.parts_induction with
  | each node ih =>
    intro place context made member inner below
    rcases visits_cases member with rfl | ⟨front, part, back, split, within⟩
    · exact below
    · rw [visits_eq, List.mem_cons, mem_visitsAll]
      exact .inr ⟨front, part, back, split, ih part (by simp [split]) _ _ made within inner below⟩

theorem run_part {made : Visit} (member : made ∈ root.run) (split : made.node.parts = front ++ part :: back) :
    ∃ inner ∈ root.run, inner.node = part ∧ inner.before = (visitAll (made.before.enter made.node) front).2 := by
  refine ⟨⟨made.place ++ made.node.kind.detour ++ [made.node.kind.skipped + front.length], _, part⟩, ?_, rfl, rfl⟩
  refine visits_trans root [] .empty made member _ ?_
  rw [visits_eq made.place, List.mem_cons, mem_visitsAll]
  refine .inr ⟨front, part, back, split, ?_⟩
  rw [visits_eq]
  exact List.mem_cons_self

theorem run_silent {made : Visit} (silent : root.reports = []) (member : made ∈ root.run) :
    made.before.reports = [] ∧ made.after.reports = [] := by
  obtain ⟨_, late⟩ := grows_visits root [] .empty made member
  have after : made.after.reports = [] := List.prefix_nil.mp (silent ▸ late)
  exact ⟨List.prefix_nil.mp (after ▸ grows_visit made.node made.before), after⟩

theorem mem_visitAll {nodes : List Node} (member : ty ∈ (visitAll context nodes).1) :
    ∃ front node back, nodes = front ++ node :: back ∧ ty = (visit (visitAll context front).2 node).1 := by
  induction nodes generalizing context with
  | nil => cases member
  | cons node rest ih =>
    rcases List.mem_cons.mp member with rfl | later
    · exact ⟨[], node, rest, rfl, rfl⟩
    · obtain ⟨front, other, back, rfl, same⟩ := ih later
      exact ⟨node :: front, other, back, rfl, same⟩

theorem run_candid {made : Visit} (program : Shaped .program root) (silent : root.reports = [])
    (member : made ∈ root.run) (kinds : made.node.kind ∈ valueKinds) : ∃ ty, made.ty = some ty := by
  obtain ⟨present, _⟩ := run_sound program member
  obtain ⟨_, shaped⟩ := program.at? present
  obtain ⟨before, after⟩ := run_silent silent member
  exact (shaped.candid kinds made.before (run_informed program member) (after.trans before.symm))

theorem run_given {made : Visit} (program : Shaped .program root) (silent : root.reports = []) (member : made ∈ root.run)
    (kinds : made.node.kind ∈ .declaration :: .assign :: .emerge :: valueKinds) :
    ∀ ty ∈ made.parts.1, ∃ known, ty = some known := by
  intro ty among
  obtain ⟨present, _⟩ := run_sound program member
  obtain ⟨_, shaped⟩ := program.at? present
  obtain ⟨front, part, back, split, rfl⟩ := mem_visitAll among
  obtain ⟨inner, there, rfl, before⟩ := run_part member split
  have expression := shaped.part_expression kinds inner.node (by simp [split])
  rw [← before]
  exact run_candid program silent there (expression.expression_kind (.inl rfl))

theorem Visit.kind_of_expected {made : Visit} {ty : Option Ty} (member : ty ∈ made.expected) :
    made.node.kind ∈ .declaration :: .assign :: .emerge :: valueKinds := by
  unfold expected at member
  split at member <;> simp_all [valueKinds]

theorem run_expected {made : Visit} (program : Shaped .program root) (silent : root.reports = [])
    (member : made ∈ root.run) : ∀ ty ∈ made.expected, ∃ known, ty = some known := by
  obtain ⟨present, _⟩ := run_sound program member
  obtain ⟨_, shaped⟩ := program.at? present
  have informed := run_informed program member
  intro ty among
  unfold Visit.expected at among
  split at among
  case h_1 kind =>
    cases List.mem_singleton.mp among
    rw [Node.declaredTy?, ← declaredTyAt_eq present]
    have binds : made.node.binds made.node.text = true := by simp [Node.binds, kind]
    exact declaredTyAt_known program present binds
  case h_2 => exact informed.bound _ _ (Option.mem_toList.mp among)
  case h_3 =>
    obtain ⟨function, around, rfl⟩ := Option.map_eq_some_iff.mp (Option.mem_toList.mp among)
    exact (informed.enclosing _ around).1
  case h_4 kind =>
    have plain : made.parts.2.functions = made.before.functions := by
      rw [Visit.parts, enter_value (by simp [kind, valueKinds])]
      exact visitAll_plain _ (fun part member =>
        expression_plain (shaped.part_expression (by simp [kind, valueKinds]) part member) (by simp)) _
    rw [plain] at among
    cases found : made.before.functions.find? made.node.text with
    | none => simp [found] at among
    | some function =>
      rw [found] at among
      obtain ⟨parameter, taken, rfl⟩ := List.mem_map.mp among
      exact (informed.defined _ _ found).2 parameter taken
  case h_5 kind =>
    exact run_given program silent member (by simp [kind, valueKinds]) ty (List.mem_of_mem_drop among)
  case h_6 => cases among

end

-- An expression without a type is one in which something is reported; where nothing is, every expression has a type,
-- and so have both sides of everything that is compared.
theorem Node.ofTokens_unknown_reported {root : Node} (accepted : Node.ofTokens tokens = .ok root) :
    (∀ made ∈ root.run, made.node.kind ∈ valueKinds → made.ty = none →
      ∃ own, own ≠ [] ∧ made.after.reports = made.before.reports ++ own) ∧
    (root.diagnostics = [] →
      (∀ place node, root.at? place = some node → node.kind ∈ valueKinds →
        ∃ made ty, root.visitsOf place = [made] ∧ made.node = node ∧ made.ty = some ty) ∧
      ∀ made ∈ root.run, ∀ check ∈ made.checks, ∃ expected given, check = (some expected, some given)) := by
  have program := Node.ofTokens_shaped accepted
  refine ⟨?_, ?_⟩
  · intro made member kinds unknown
    obtain ⟨present, _⟩ := run_sound program member
    obtain ⟨_, shaped⟩ := program.at? present
    obtain ⟨own, more⟩ := grows_visit made.node made.before
    refine ⟨own, ?_, more.symm⟩
    rintro rfl
    rw [List.append_nil] at more
    obtain ⟨ty, known⟩ := shaped.candid kinds made.before (run_informed program member) more.symm
    exact absurd (unknown.symm.trans known) nofun
  · intro none
    have silent : root.reports = [] := List.map_eq_nil_iff.mp none
    refine ⟨?_, ?_⟩
    · intro place node present kinds
      obtain ⟨made, only, rfl⟩ := run_at program present (visitable_of_value kinds)
      obtain ⟨ty, known⟩ := run_candid program silent (mem_visitsOf.mp (by rw [only]; simp)).1 kinds
      exact ⟨made, ty, only, rfl, known⟩
    · rintro made member ⟨expected, given⟩ among
      obtain ⟨left, right⟩ := List.of_mem_zip among
      obtain ⟨expected, rfl⟩ := run_expected program silent member _ left
      obtain ⟨given, rfl⟩ := run_given program silent member (Visit.kind_of_expected left) _ right
      exact ⟨expected, given, rfl⟩

def orphaned : List Token :=
  [(.word .fish, "fish"), (.mark .leftBrace, "\x7b"), (.type .int, "<int"), (.identifier, "whole"), (.assign, "<="),
    (.identifier, "part"), (.delimiter, "<D"), (.mark .rightBrace, "\x7d")].map
      fun (kind, lexeme) => ⟨kind, .unplaced, lexeme⟩

theorem orphaned_unknown_reported : ∃ root, Node.ofTokens orphaned = .ok root ∧
    ∃ made ∈ root.run, made.node = .leaf .var "part" 0 ∧ made.ty = none ∧
      ∃ own, own ≠ [] ∧ made.after.reports = made.before.reports ++ own := by
  let root : Node := .group .program [.group .block
    [⟨.declaration, some "whole", [.ofTy .int 0, .group .initializer [.leaf .var "part" 0] 0], 0⟩] 0] 0
  have accepted : Node.ofTokens orphaned = .ok root := rfl
  have member : root.run[3] ∈ root.run := List.getElem_mem _
  have value : root.run[3].node.kind ∈ valueKinds := by decide
  exact ⟨root, accepted, root.run[3], member, rfl, rfl,
    (Node.ofTokens_unknown_reported accepted).1 _ member value rfl⟩

end FishLang
