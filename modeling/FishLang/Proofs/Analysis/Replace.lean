import FishLang.Proofs.Analysis.Blur
import FishLang.Proofs.Analysis.Value

namespace FishLang

open Node Grammar

namespace Node

def replace : (root : Node) → Place → (new : Node) → Node
  | _, [], new => new
  | root, index :: rest, new => { root with children := root.children.modify index (·.replace rest new) }

-- The way from a node to what is below one of its parts.
def way (node : Node) (index : Nat) (below : Place) : Place :=
  node.kind.detour ++ [node.kind.skipped + index] ++ below

variable {node : Node}

theorem parts_replace (node : Node) (index : Nat) (below : Place) (new : Node) :
    (node.replace (node.way index below) new).parts = node.parts.modify index (·.replace below new) := by
  obtain ⟨kind, value, children, line⟩ := node
  cases kind with
  | functionDef => simp [way, Kind.detour, Kind.skipped, replace, parts, List.drop_modify_of_ge, List.take_modify]
  | declaration =>
    cases found : children[1]? <;>
      simp [way, Kind.detour, Kind.skipped, replace, parts, child?, found, List.take_modify]
  | call =>
    cases found : children[0]? <;>
      simp [way, Kind.detour, Kind.skipped, replace, parts, child?, found]
  | var | num | string | char => simp [way, Kind.detour, replace, parts]
  | _ => simp [way, Kind.detour, Kind.skipped, replace, parts, List.take_modify]

theorem replace_way (node : Node) (index : Nat) (below : Place) (new : Node) :
    ∃ children, node.replace (node.way index below) new = { node with children := children } := by
  obtain ⟨first, rest, way⟩ := List.exists_cons_of_ne_nil (l := node.way index below) (by simp [way])
  rw [way]
  exact ⟨_, rfl⟩

theorem kind_replace (node : Node) (index : Nat) (below : Place) (new : Node) :
    (node.replace (node.way index below) new).kind = node.kind := by
  obtain ⟨_, same⟩ := node.replace_way index below new
  rw [same]

theorem text_replace (node : Node) (index : Nat) (below : Place) (new : Node) :
    (node.replace (node.way index below) new).text = node.text := by
  obtain ⟨_, same⟩ := node.replace_way index below new
  rw [same]
  rfl

theorem line_replace (node : Node) (index : Nat) (below : Place) (new : Node) :
    (node.replace (node.way index below) new).line = node.line := by
  obtain ⟨_, same⟩ := node.replace_way index below new
  rw [same]

theorem declaredTy?_replace (declaration : node.kind = .declaration) (index : Nat) (below : Place) (new : Node) :
    (node.replace (node.way index below) new).declaredTy? = node.declaredTy? := by
  simp [way, declaration, Kind.detour, Kind.skipped, replace, declaredTy?, child?]

theorem signature_replace (function : node.kind = .functionDef) (index : Nat) (below : Place) (new : Node) :
    Signature.ofNode (node.replace (node.way index below) new) = Signature.ofNode node := by
  have apart : 2 + index ≠ 1 := by omega
  simp [way, function, Kind.detour, Kind.skipped, replace, Signature.ofNode, child?, text, apart]

theorem enter_replace (context : Context) (node : Node) (index : Nat) (below : Place) (new : Node) :
    context.enter (node.replace (node.way index below) new) = context.enter node := by
  unfold Context.enter
  rw [kind_replace, line_replace, text_replace]
  cases of : node.kind with
  | functionDef => simp only [signature_replace of]
  | declaration => simp only [declaredTy?_replace of]
  | _ => rfl

theorem head_replace (node : Node) (index : Nat) (below : Place) (new : Node) :
    node.HeadBlurs Eq (node.replace (node.way index below) new) where
  kind := kind_replace node index below new
  line := (line_replace node index below new).symm
  text := fun _ => text_replace node index below new
  declared := fun declaration => .inr (declaredTy?_replace declaration index below new)
  signed := fun function => by
    rw [signature_replace function]
    exact .refl (fun _ => rfl) _

end Node

theorem modify_middle {α : Type} (change : α → α) (front : List α) (entry : α) (back : List α) :
    (front ++ entry :: back).modify front.length change = front ++ change entry :: back := by
  induction front with
  | nil => rfl
  | cons first front ih => exact congrArg (first :: ·) ih

-- A visit that comes to a new subtree in place of an old one trails from there on, if the new one is left knowing
-- as much as the old one.
theorem visit_replace (node : Node) : ∀ place context, ∀ made ∈ visits place context node,
    ∃ below, made.place = place ++ below ∧ ∀ new, Blurs made.ty (visit made.before new).1 →
      made.after.Blurs Eq (visit made.before new).2 →
      Blurs (visit context node).1 (visit context (node.replace below new)).1 ∧
        Trails Eq made.after.reports (visit made.before new).2.reports (visit context node).2
          (visit context (node.replace below new)).2 := by
  induction node using Node.parts_induction with
  | each node ih =>
    intro place context made member
    rcases visits_cases member with rfl | ⟨front, part, back, split, inner⟩
    · exact ⟨[], by simp, fun new types blurs => ⟨types, .start blurs⟩⟩
    · obtain ⟨below, there, replaced⟩ := ih part (by simp [split]) _ _ made inner
      refine ⟨node.way front.length below, by simp [there, way], fun new types blurs => ?_⟩
      obtain ⟨own, trails⟩ := replaced new types blurs
      have same : List.Forall₂ (Together Eq) back back :=
        List.forall₂_same.mpr fun other _ => together_refl (fun _ => rfl) other
      obtain ⟨others, behind⟩ := visitAll_together same trails
      rw [visit_eq, visit_eq context (node.replace _ new), enter_replace, parts_replace, split, modify_middle,
        visitAll_append, visitAll_append, visitAll_cons, visitAll_cons]
      refine behind.leave (.refl (fun _ => rfl) context) (head_replace node front.length below new) ?_
      exact List.rel_append (List.forall₂_same.mpr fun ty _ => .refl ty) (.cons own others)

section
variable {root : Node}

theorem lookup_undeclared {made : Visit} (program : Shaped .program root) (member : made ∈ root.run)
    (free : ∀ place node, root.at? place = some node → node.binds name = false) : made.before.lookup name = none := by
  rw [(run_sound program member).2.lookup, Option.map_eq_none_iff]
  cases resolves : root.resolve made.place name with
  | none => rfl
  | some binder =>
    obtain ⟨node, present, binds⟩ := resolve_present resolves
    simp [free binder node present] at binds

-- An expression gives way to a variable that nothing declares. That is reported once, where the reports of the
-- expression were; of what is reported before and behind nothing changes but for mismatches left out behind.
theorem Node.ofTokens_replace {node : Node} (accepted : Node.ofTokens tokens = .ok root)
    (present : root.at? place = some node) (kinds : node.kind ∈ valueKinds)
    (free : ∀ place node, root.at? place = some node → node.binds name = false) (line : Nat) :
    ∃ made front own back kept, root.visitsOf place = [made] ∧ made.node = node ∧
      made.before.reports.map Report.diagnostic = front ∧
      made.after.reports.map Report.diagnostic = front ++ own ∧
      root.diagnostics = front ++ own ++ back ∧
      (root.replace place (.leaf .var name line)).diagnostics =
        front ++ ⟨.undeclaredVariable, line, (Finding.undeclaredVariable name).message⟩ :: kept ∧
      kept.Sublist back ∧ kept.filter (·.kind != .typeMismatch) = back.filter (·.kind != .typeMismatch) := by
  have program := Node.ofTokens_shaped accepted
  obtain ⟨made, only, rfl⟩ := run_at program present (visitable_of_value kinds)
  have among : made ∈ root.visitsOf place := by
    rw [only]
    exact List.mem_singleton_self made
  obtain ⟨member, here⟩ := mem_visitsOf.mp among
  obtain ⟨_, shaped⟩ := program.at? present
  let new : Node := .leaf .var name line
  have unbound : visit made.before new = (none, made.before.report (.undeclaredVariable name) line) := by
    rw [visit_var, lookup_undeclared program member free]
  have harmless : made.after = { made.before with reports := made.after.reports } :=
    shaped.harmless kinds made.before
  have blurs : made.after.Blurs Eq (visit made.before new).2 := by
    have same : made.before.Blurs Eq made.before := .refl (fun _ => rfl) made.before
    rw [unbound, harmless]
    exact ⟨same.scopes, same.functions, same.enclosing⟩
  obtain ⟨below, there, replaced⟩ := visit_replace root [] .empty made member
  obtain rfl : below = place := there.symm.trans here
  obtain ⟨_, _, later, later', one, two, sheds⟩ := replaced new (unbound ▸ .unknown _) blurs
  obtain ⟨found, more⟩ := grows_visit made.node made.before
  have more : made.after.reports = made.before.reports ++ found := more.symm
  obtain ⟨sublist, others⟩ := sheds.diagnostics
  refine ⟨made, _, found.map Report.diagnostic, later.map Report.diagnostic, later'.map Report.diagnostic, only, rfl,
    rfl, ?_, ?_, ?_, sublist, others⟩
  · rw [more, List.map_append]
  · rw [diagnostics, reports, one, more, List.map_append, List.map_append]
  · rw [diagnostics, reports, two, unbound]
    simp [Context.report, Report.diagnostic, Finding.kind]

end

def mixed : List Token :=
  [(.word .fish, "fish"), (.mark .leftBrace, "\x7b"), (.type .int, "<int"), (.identifier, "whole"), (.delimiter, "<D"),
    (.type .float, "<bubble"), (.identifier, "part"), (.delimiter, "<D"), (.type .int, "<int"), (.identifier, "sum"),
    (.assign, "<="), (.identifier, "whole"), (.operator .add, "<+"), (.identifier, "part"), (.delimiter, "<D"),
    (.mark .rightBrace, "\x7d")].map fun (kind, lexeme) => ⟨kind, .unplaced, lexeme⟩

theorem mixed_replace : ∃ root, Node.ofTokens mixed = .ok root ∧ root.diagnostics.map Diagnostic.kind = [.typeMismatch] ∧
    ∃ node made front own back kept, root.at? [0, 2, 1, 0, 1] = some node ∧ root.visitsOf [0, 2, 1, 0, 1] = [made] ∧
      made.node = node ∧ made.before.reports.map Report.diagnostic = front ∧
      made.after.reports.map Report.diagnostic = front ++ own ∧ root.diagnostics = front ++ own ++ back ∧
      (root.replace [0, 2, 1, 0, 1] (.leaf .var "none" 7)).diagnostics =
        front ++ ⟨.undeclaredVariable, 7, (Finding.undeclaredVariable "none").message⟩ :: kept ∧
      kept.Sublist back ∧ kept.filter (·.kind != .typeMismatch) = back.filter (·.kind != .typeMismatch) := by
  let sum : Node := .binary "+" (.leaf .var "whole" 0) (.leaf .var "part" 0)
  let root : Node := .group .program [.group .block [⟨.declaration, some "whole", [.ofTy .int 0], 0⟩,
    ⟨.declaration, some "part", [.ofTy .float 0], 0⟩,
    ⟨.declaration, some "sum", [.ofTy .int 0, .group .initializer [sum] 0], 0⟩] 0] 0
  have accepted : Node.ofTokens mixed = .ok root := rfl
  have present : root.at? [0, 2, 1, 0, 1] = some (.leaf .var "part" 0) := rfl
  have free : ∀ place node, root.at? place = some node → node.binds "none" = false := by
    intro place node there
    have none : ∀ place ∈ root.places, root.holds (binds "none") place = false := by decide
    exact (holds_eq there _).symm.trans (none place (mem_places.mpr ⟨node, there⟩))
  obtain ⟨made, front, own, back, kept, facts⟩ := Node.ofTokens_replace accepted present (by decide) free 7
  exact ⟨root, accepted, by decide, _, made, front, own, back, kept, present, facts⟩

end FishLang
