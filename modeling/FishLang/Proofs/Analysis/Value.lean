import FishLang.Proofs.Analysis.Frame

namespace FishLang

open Node Grammar

namespace Node

def valueKinds : List Node.Kind := [.call, .binary, .unary, .suffix, .var, .num, .string, .char]

end Node

section
variable {node : Node}

theorem Grammar.Shaped.of_operand (shaped : Shaped role node) (kind : node.kind = .unary ∨ node.kind = .suffix) :
    ∃ value operand line, node = ⟨node.kind, value, [operand], line⟩ ∧ Shaped .expression operand := by
  induction shaped with
  | unary _ one | suffix _ one => exact ⟨_, _, _, rfl, one⟩
  | count _ => exact ⟨_, _, _, rfl, .var⟩
  | takes _ _ ih => exact ih kind
  | _ => simp [Node.group, Node.leaf, Node.ofTy, Node.absent] at kind

theorem Grammar.Shaped.part_expression (shaped : Shaped role node)
    (kinds : node.kind ∈ .declaration :: .assign :: .emerge :: valueKinds) :
    ∀ part ∈ node.parts, Shaped .expression part := by
  induction shaped with
  | declaration _ => simp [parts, Node.child?]
  | initialized _ given =>
    obtain ⟨value, _, rfl, inner⟩ := given.initializer_eq
    simpa [parts, Node.child?, Node.group] using inner
  | assign inner | emerge inner | unary _ inner | suffix _ inner => simpa [parts, Node.group] using inner
  | count _ => simpa [parts] using Shaped.var
  | call taken =>
    obtain ⟨given, _, rfl, each⟩ := taken.args_eq
    exact each
  | binary _ one two => simpa [parts] using ⟨one, two⟩
  | var | num | string | char => simp [parts, Node.leaf]
  | takes _ _ ih => exact ih kinds
  | _ => simp [Node.group, Node.ofTy, Node.leaf, Node.absent, valueKinds] at kinds

theorem Grammar.Shaped.expression_kind (shaped : Shaped role node) (expression : role = .expression ∨ role = .call) :
    node.kind ∈ valueKinds := by
  induction shaped with
  | takes among _ ih =>
    apply ih
    rcases expression with rfl | rfl <;> simp_all [Role.admits]
  | _ => simp_all [valueKinds, Node.leaf]

theorem visitable_of_value (kinds : node.kind ∈ valueKinds) : node.visitable = true := by
  cases kind : node.kind with
  | call | binary | unary | suffix | var | num | string | char => simp [visitable, passedOver, kind]
  | _ => simp [kind, valueKinds] at kinds

theorem enter_value (kinds : node.kind ∈ valueKinds) (context : Context) : context.enter node = context := by
  unfold Context.enter
  cases kind : node.kind with
  | program | block | fork | functionDef | declaration | emerge => simp [kind, valueKinds] at kinds
  | _ => rfl

theorem visitAll_length (nodes : List Node) (context : Context) :
    (visitAll context nodes).1.length = nodes.length := by
  induction nodes generalizing context with
  | nil => rfl
  | cons node rest ih => simp [visitAll_cons, ih]

theorem Grammar.Shaped.value_induction {motive : Node → Prop}
    (each : ∀ role node, Shaped role node → node.kind ∈ valueKinds → (∀ part ∈ node.parts, motive part) → motive node)
    (shaped : Shaped role node) (kinds : node.kind ∈ valueKinds) : motive node := by
  induction node using Node.parts_induction generalizing role with
  | each node ih =>
    refine each role node shaped kinds fun part member => ?_
    have inner := shaped.part_expression (by simp [kinds]) part member
    exact ih part member inner (inner.expression_kind (.inl rfl))

-- A visit of the node changes nothing but the reports.
def Harmless (node : Node) : Prop :=
  ∀ context, (visit context node).2 = { context with reports := (visit context node).2.reports }

theorem visitAll_harmless {nodes : List Node} (each : ∀ node ∈ nodes, Harmless node) (context : Context) :
    (visitAll context nodes).2 = { context with reports := (visitAll context nodes).2.reports } := by
  induction nodes generalizing context with
  | nil => rfl
  | cons node rest ih =>
    rw [visitAll_cons]
    have first := each node (by simp) context
    have others := ih (fun other member => each other (by simp [member])) (visit context node).2
    rw [first] at others ⊢
    exact others

theorem leave_harmless (kinds : node.kind ∈ valueKinds) (context : Context) (given : List (Option Ty)) (after : Context) :
    (context.leave node given after).2 = { after with reports := (context.leave node given after).2.reports } := by
  unfold Context.leave
  cases kind : node.kind with
  | program | block | fork | functionDef | declaration | assign | emerge => simp [kind, valueKinds] at kinds
  | call => simp only [Context.checkCall_eq]
  | binary => simp only [Context.checkOperands_eq]
  | var =>
    dsimp only
    split <;> rfl
  | _ => rfl

theorem Grammar.Shaped.harmless (shaped : Shaped role node) (kinds : node.kind ∈ valueKinds) : Harmless node := by
  refine shaped.value_induction ?_ kinds
  intro role node shaped kinds parts context
  rw [visit_eq, enter_value kinds, leave_harmless kinds, visitAll_harmless parts context]

end

end FishLang
