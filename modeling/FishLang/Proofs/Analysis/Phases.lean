import FishLang.Proofs.Analysis.Run

namespace FishLang

namespace Node

-- Where the parts stand: the way to their parent, and how many of its children are passed over before them.
def Kind.detour : Node.Kind → Place
  | .declaration => [1]
  | .call => [0]
  | _ => []

def Kind.skipped : Node.Kind → Nat
  | .functionDef => 2
  | _ => 0

-- The nodes that a visit goes on to.
def parts (node : Node) : List Node :=
  match node.kind with
  | .functionDef => (node.children.drop 2).take 1
  | .declaration => ((node.child? 1).elim [] children).take 1
  | .call => (node.child? 0).elim [] children
  | .assign | .emerge | .unary | .suffix => node.children.take 1
  | .binary => node.children.take 2
  | .var | .num | .string | .char => []
  | _ => node.children

def declaredTy? (node : Node) : Option Ty := (node.child? 0).bind ty?

end Node

namespace Context

-- What is known once a node is taken up.
def enter (context : Context) (node : Node) : Context :=
  match node.kind with
  | .program | .block | .fork => context.openScope
  | .functionDef =>
    let signature := Signature.ofNode node
    { context.define signature node.line with enclosing := some signature }.openScope.declareAll signature.parameters
  | .declaration => context.declare node.text node.declaredTy? node.line
  | .emerge => context.require context.enclosing.isSome .returnOutsideFunction node.line
  | _ => context

-- The type of a node that was taken up in the context, and what is known behind it, by the types of its parts and
-- what is known behind them.
def leave (context : Context) (node : Node) (given : List (Option Ty)) (after : Context) : Option Ty × Context :=
  let first := given.headD none
  match node.kind with
  | .program | .block | .fork => (none, after.closeScope)
  | .functionDef => (none, { after.closeScope with enclosing := context.enclosing })
  | .declaration =>
    (none, after.require (compatible node.declaredTy? first) (.initializer node.text node.declaredTy? first) node.line)
  | .assign => (none, after.checkAssignment node.text node.line (context.lookup node.text) first)
  | .emerge => (none, after.checkResult node.line context.enclosing first)
  | .call => after.checkCall node.text node.line given
  | .binary => after.checkOperands node.text node.line first (given.getD 1 none)
  | .unary | .suffix => (first, after)
  | .var =>
    match context.lookup node.text with
    | some ty => (ty, after)
    | none => (none, after.report (.undeclaredVariable node.text) node.line)
  | .num => (some (numeralTy node.text), after)
  | .string => (some .string, after)
  | .char => (some .char, after)
  | _ => (none, after)

end Context

open Node

theorem compatible_unknown (expected : Option Ty) : compatible expected none = true := by
  cases expected <;> rfl

theorem visitAll_cons (context : Context) (node : Node) (rest : List Node) : visitAll context (node :: rest) =
    ((visit context node).1 :: (visitAll (visit context node).2 rest).1, (visitAll (visit context node).2 rest).2) := rfl

theorem visitAll_append (context : Context) (front back : List Node) : visitAll context (front ++ back) =
    ((visitAll context front).1 ++ (visitAll (visitAll context front).2 back).1,
      (visitAll (visitAll context front).2 back).2) := by
  induction front generalizing context with
  | nil => rfl
  | cons node front ih =>
    rw [List.cons_append, visitAll_cons, visitAll_cons, ih]
    rfl

theorem visitAt_eq (context : Context) (index : Nat) (nodes : List Node) : visitAt context index nodes =
    ((visitAll context ((nodes.drop index).take 1)).1.headD none, (visitAll context ((nodes.drop index).take 1)).2) := by
  induction nodes generalizing index with
  | nil => simp [visitAt, visitAll]
  | cons node rest ih =>
    cases index with
    | zero => rfl
    | succ index => exact ih index

theorem visit_eq (context : Context) (node : Node) : visit context node =
    context.leave node (visitAll (context.enter node) node.parts).1 (visitAll (context.enter node) node.parts).2 := by
  obtain ⟨kind, value, children, line⟩ := node
  cases kind with
  | functionDef =>
    rw [visit, visitAt_eq]
    rfl
  | declaration =>
    rcases children with _ | ⟨ty, _ | ⟨⟨_, _, value, _⟩, _⟩⟩
    · rfl
    · -- Without an initializer there is no type to check, and what has no type is compatible.
      show _ = (none, Context.require _ (compatible ty.ty? none) _ _)
      rw [compatible_unknown]
      rfl
    · rw [visit, visitAt_eq]
      rfl
  | assign | emerge | unary | suffix =>
    rw [visit, visitAt_eq]
    rfl
  | call => rcases children with _ | ⟨⟨_, _, arguments, _⟩, _⟩ <;> rfl
  | binary => rcases children with _ | ⟨_, _ | ⟨_, _⟩⟩ <;> rfl
  | _ => rfl

theorem visitsAt_eq (place : Place) (start : Nat) (context : Context) (index : Nat) (nodes : List Node) :
    visitsAt (place ++ [start + index]) context index nodes =
      visitsAll place (start + index) context ((nodes.drop index).take 1) := by
  induction nodes generalizing start index with
  | nil => simp [visitsAt, visitsAll]
  | cons node rest ih =>
    cases index with
    | zero => simp [visitsAt, visitsAll]
    | succ index =>
      have later := ih (start + 1) index
      rw [Nat.add_assoc, Nat.add_comm 1] at later
      exact later

-- The visits that a visit makes are itself and those of the parts.
theorem visits_eq (place : Place) (context : Context) (node : Node) : visits place context node =
    ⟨place, context, node⟩ ::
      visitsAll (place ++ node.kind.detour) node.kind.skipped (context.enter node) node.parts := by
  obtain ⟨kind, value, children, line⟩ := node
  have one (place : Place) (context : Context) (index : Nat) (nodes : List Node) :
      visitsAt (place ++ [index]) context index nodes = visitsAll place index context ((nodes.drop index).take 1) := by
    simpa using visitsAt_eq place 0 context index nodes
  cases kind with
  | functionDef =>
    rw [visits, one]
    simp [Kind.detour, Kind.skipped, parts, Context.enter]
  | declaration =>
    rcases children with _ | ⟨_, _ | ⟨⟨_, _, value, _⟩, _⟩⟩
    · rfl
    · rfl
    · rw [visits, one]
      rfl
  | assign | emerge | unary | suffix =>
    rw [visits, one]
    simp [Kind.detour, Kind.skipped, parts, Context.enter]
  | call => rcases children with _ | ⟨⟨_, _, arguments, _⟩, _⟩ <;> rfl
  | binary =>
    rw [visits, one, one]
    rcases children with _ | ⟨_, _ | ⟨_, _⟩⟩
    · rfl
    · simp [visitsAll, Kind.detour, Kind.skipped, parts, Context.enter]
    · simp [visitsAll, visitAt, Kind.detour, Kind.skipped, parts, Context.enter]
  | _ => simp [visits, visitsAll, Kind.detour, Kind.skipped, parts, Context.enter]

theorem mem_visitsAll {nodes : List Node} : made ∈ visitsAll place index context nodes ↔
    ∃ front node back, nodes = front ++ node :: back ∧
      made ∈ visits (place ++ [index + front.length]) (visitAll context front).2 node := by
  induction nodes generalizing index context with
  | nil => simp [visitsAll]
  | cons first rest ih =>
    rw [visitsAll, List.mem_append, ih]
    constructor
    · rintro (here | ⟨front, node, back, rfl, later⟩)
      · exact ⟨[], first, rest, rfl, here⟩
      · refine ⟨first :: front, node, back, rfl, ?_⟩
        rw [List.length_cons, Nat.add_comm front.length, ← Nat.add_assoc]
        exact later
    · rintro ⟨front, node, back, split, member⟩
      cases front with
      | nil =>
        cases split
        exact .inl member
      | cons _ front =>
        cases split
        refine .inr ⟨front, node, back, rfl, ?_⟩
        rw [List.length_cons, Nat.add_comm front.length, ← Nat.add_assoc] at member
        exact member

theorem visits_cases (member : made ∈ visits place context node) : made = ⟨place, context, node⟩ ∨
    ∃ front part back, node.parts = front ++ part :: back ∧
      made ∈ visits (place ++ node.kind.detour ++ [node.kind.skipped + front.length])
        (visitAll (context.enter node) front).2 part := by
  rw [visits_eq, List.mem_cons, mem_visitsAll] at member
  exact member

namespace Node

theorem sizeOf_child {node : Node} (member : child ∈ node.children) : sizeOf child < sizeOf node := by
  obtain ⟨kind, value, children, line⟩ := node
  have inner : sizeOf child < sizeOf children := List.sizeOf_lt_of_mem member
  simp only [mk.sizeOf_spec]
  omega

theorem mem_parts {node : Node} (member : part ∈ node.parts) :
    part ∈ node.children ∨ ∃ child ∈ node.children, part ∈ child.children := by
  have grandchild (index : Nat) (among : part ∈ (node.child? index).elim [] children) :
      ∃ child ∈ node.children, part ∈ child.children := by
    cases found : node.child? index with
    | none =>
      rw [found] at among
      cases among
    | some child =>
      rw [found] at among
      exact ⟨child, List.mem_of_getElem? found, among⟩
  unfold parts at member
  split at member
  · exact .inl (List.mem_of_mem_drop (List.mem_of_mem_take member))
  · exact .inr (grandchild 1 (List.mem_of_mem_take member))
  · exact .inr (grandchild 0 member)
  all_goals first | exact .inl (List.mem_of_mem_take member) | exact .inl member | cases member

theorem sizeOf_part {node : Node} (member : part ∈ node.parts) : sizeOf part < sizeOf node := by
  rcases mem_parts member with child | ⟨_, child, grandchild⟩
  · exact sizeOf_child child
  · exact Nat.lt_trans (sizeOf_child grandchild) (sizeOf_child child)

-- What holds of a node if it holds of its parts, holds of every node.
theorem parts_induction {motive : Node → Prop} (each : ∀ node, (∀ part ∈ node.parts, motive part) → motive node)
    (node : Node) : motive node :=
  each node fun part _ => parts_induction each part
termination_by sizeOf node
decreasing_by exact sizeOf_part ‹_›

end Node

theorem Grammar.Shaped.part {node : Node} (shaped : Shaped role node) (part : Node) (member : part ∈ node.parts) :
    ∃ role, Shaped role part := by
  rcases mem_parts member with among | ⟨child, among, below⟩
  · exact shaped.child part among
  · obtain ⟨_, inner⟩ := shaped.child child among
    exact inner.child part below

end FishLang
