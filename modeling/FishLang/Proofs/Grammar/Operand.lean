import FishLang.Proofs.Grammar.Shape
import FishLang.Proofs.Node.Spell

namespace FishLang.Grammar

variable {node left right : Node} {nodes : List Node} {op : Token} {level : Level}

theorem Reads.of_phrase (reads : Reads (.phrase symbol) run parts) :
    ∃ inner, parts = [.nodes (build symbol inner)] ∧ Reads (rule symbol) run inner := by
  cases reads with
  | phrase body => exact ⟨_, rfl, body⟩

theorem Reads.of_rule (body : Reads (rule symbol) run parts) (same : other = run) (built : build symbol parts = nodes) :
    Reads (.phrase symbol) other [.nodes nodes] := by
  rw [same, ← built]
  exact .phrase body

def operandAt : Nat → Symbol
  | 0 => .level .equality
  | 1 => .level .relation
  | 2 => .level .sum
  | 3 => .level .product
  | 4 => .signed
  | 5 => .suffixed
  | _ => .primary

theorem operandAt_tightness (level : Level) : operandAt level.tightness = .level level := by
  cases level <;> rfl

theorem operandAt_above (level : Level) : operandAt (level.tightness + 1) = level.operand := by
  cases level <;> rfl

theorem Reads.loosen_level (level : Level) (reads : Reads (.phrase level.operand) run [.nodes [node]]) :
    Reads (.phrase (.level level)) run [.nodes [node]] :=
  .of_rule (.and reads (.and .stop .done)) (List.append_nil _).symm rfl

theorem Reads.loosen (reads : Reads (.phrase (operandAt (least + 1))) run [.nodes [node]]) :
    Reads (.phrase (operandAt least)) run [.nodes [node]] := by
  match least with
  | 0 => exact reads.loosen_level .equality
  | 1 => exact reads.loosen_level .relation
  | 2 => exact reads.loosen_level .sum
  | 3 => exact reads.loosen_level .product
  | 4 => exact .of_rule (.right reads) rfl rfl
  | 5 => exact .of_rule (.and reads (.and .stop .done)) (List.append_nil _).symm rfl
  | _ + 6 => exact reads

theorem Reads.looser (reads : Reads (.phrase (operandAt most)) run [.nodes [node]]) (order : least ≤ most) :
    Reads (.phrase (operandAt least)) run [.nodes [node]] := by
  induction order with
  | refl => exact reads
  | step _ ih => exact ih reads.loosen

theorem Reads.of_primary (reads : Reads (.phrase .primary) run [.nodes [node]]) (least : Nat) :
    Reads (.phrase (operandAt least)) run [.nodes [node]] := by
  have tightest : Reads (.phrase (operandAt 6)) run [.nodes [node]] := reads
  match least with
  | 0 | 1 | 2 | 3 | 4 | 5 => exact tightest.looser (by decide)
  | _ + 6 => exact reads

theorem Reads.expression (reads : Reads (.phrase (operandAt least)) run [.nodes [node]]) :
    Reads .expression run [.nodes [node]] :=
  .of_rule (reads.looser (Nat.zero_le _)) rfl rfl

theorem Reads.many_append (turns : Reads (.many form) front parts) (turn : Reads form back others) :
    Reads (.many form) (front ++ back) (parts ++ others) := by
  generalize same : Form.many form = whole at turns
  induction turns with
  | stop =>
    cases same
    exact (reads_many.mpr (.inr (reads_and.mpr ⟨_, _, _, _, (List.append_nil _).symm, (List.append_nil _).symm,
      turn, .stop⟩)))
  | more one _ _ ihOthers =>
    cases same
    rw [List.append_assoc, List.append_assoc]
    exact .more one (ihOthers rfl)
  | _ => cases same

-- An operator between operands, and what stands to its right.
structure Turn where
  op : Token
  right : Node

def Turn.parts (turn : Turn) : List Part := [.token turn.op, .nodes [turn.right]]

def Turn.take (left : Node) (turn : Turn) : Node := ⟨.binary, turn.op.kind.symbol?, [left, turn.right], left.line⟩

theorem chained_turns (left : Node) (turns : List Turn) :
    chained left (turns.flatMap Turn.parts) = turns.foldl Turn.take left := by
  induction turns generalizing left with
  | nil => rfl
  | cons turn turns ih => exact ih (Turn.take left turn)

def countOn (operand : Node) (op : Token) : Node := ⟨.suffix, op.kind.symbol?, [operand], operand.line⟩

theorem counted_tokens (node : Node) (ops : List Token) :
    counted node (ops.map .token) = ops.foldl countOn node := by
  induction ops generalizing node with
  | nil => rfl
  | cons op ops ih => exact ih (countOn node op)

theorem Reads.of_level (reads : Reads (.phrase (.level level)) run [.nodes [node]]) :
    ∃ front back first turns, run = front ++ back ∧ node = List.foldl Turn.take first turns ∧
      Reads (.phrase level.operand) front [.nodes [first]] ∧
      Reads (.many (.seq [.operators level.operators, .phrase level.operand])) back (turns.flatMap Turn.parts) := by
  obtain ⟨inner, same, body⟩ := reads.of_phrase
  obtain ⟨front, back, ahead, others, rfl, rfl, one, rest⟩ := reads_and.mp body
  have rest := reads_and_done.mp rest
  obtain ⟨within, rfl, _⟩ := one.of_phrase
  obtain ⟨first, made, _⟩ := one.fits.operand
  rw [made] at one same
  -- Every turn of the repetition is an operator and one operand.
  obtain ⟨turns, rfl⟩ : ∃ turns : List Turn, others = turns.flatMap Turn.parts := by
    refine rest.ensures (fun others => ∃ turns : List Turn, others = turns.flatMap Turn.parts) fun turns each => ?_
    induction turns with
    | nil => exact ⟨[], rfl⟩
    | cons turn turns ih =>
      obtain ⟨op, nodes, _, fits, rfl⟩ := turn_of_ensures _ _ (each turn (by simp))
      obtain ⟨right, rfl, _⟩ := fits.operand
      obtain ⟨others, split⟩ := ih fun turn member => each turn (by simp [member])
      exact ⟨⟨op, right⟩ :: others, by rw [List.flatten_cons, split]; rfl⟩
  refine ⟨front, back, first, turns, rfl, ?_, one, rest⟩
  have built : [node] = [chained first (turns.flatMap Turn.parts)] :=
    Part.nodes.inj (List.singleton_inj.mp same)
  rw [List.singleton_inj.mp built, chained_turns]

-- One more operator of the level behind what the level derives.
theorem Reads.operation (one : Reads (.phrase (.level level)) front [.nodes [left]])
    (allowed : op.kind ∈ level.operators.map Kind.operator)
    (two : Reads (.phrase level.operand) back [.nodes [right]]) :
    Reads (.phrase (.level level)) (front ++ op :: back) [.nodes [Turn.take left ⟨op, right⟩]] := by
  obtain ⟨head, tail, first, turns, rfl, rfl, reads, others⟩ := one.of_level
  have turn : Reads (.seq [.operators level.operators, .phrase level.operand]) (op :: back)
      (Turn.parts ⟨op, right⟩) := .and (.token allowed) (reads_and_done.mpr two)
  have turns' := others.many_append turn
  refine .of_rule (.and reads (reads_and_done.mpr turns')) (List.append_assoc ..) ?_
  show [chained first (turns.flatMap Turn.parts ++ Turn.parts ⟨op, right⟩)] = _
  have more := chained_turns first (turns ++ [⟨op, right⟩])
  simp only [List.flatMap_append, List.flatMap_singleton, List.foldl_append, List.foldl_cons, List.foldl_nil] at more
  rw [more]

theorem Reads.of_suffixed (reads : Reads (.phrase .suffixed) run [.nodes [node]]) :
    ∃ front back first ops, run = front ++ back ∧ node = List.foldl countOn first ops ∧
      Reads (.phrase .primary) front [.nodes [first]] ∧ Reads (.many .counts) back (ops.map .token) := by
  obtain ⟨inner, same, body⟩ := reads.of_phrase
  obtain ⟨front, back, ahead, others, rfl, rfl, one, rest⟩ := reads_and.mp body
  have rest := reads_and_done.mp rest
  obtain ⟨within, rfl, _⟩ := one.of_phrase
  obtain ⟨first, made, _⟩ : One .expression (build .primary within) := one.fits
  rw [made] at one same
  obtain ⟨ops, rfl⟩ : ∃ ops : List Token, others = ops.map .token := by
    refine rest.ensures (fun others => ∃ ops : List Token, others = ops.map .token) fun turns each => ?_
    induction turns with
    | nil => exact ⟨[], rfl⟩
    | cons turn turns ih =>
      obtain ⟨op, rfl⟩ := each turn (by simp) (fun parts => ∃ op, parts = [.token op]) fun op _ => ⟨op, rfl⟩
      obtain ⟨others, split⟩ := ih fun turn member => each turn (by simp [member])
      exact ⟨op :: others, by rw [List.flatten_cons, split]; rfl⟩
  refine ⟨front, back, first, ops, rfl, ?_, one, rest⟩
  have built : [node] = [counted first (ops.map .token)] :=
    Part.nodes.inj (List.singleton_inj.mp same)
  rw [List.singleton_inj.mp built, counted_tokens]

theorem Reads.countedOn (one : Reads (.phrase .suffixed) front [.nodes [node]])
    (allowed : op.kind ∈ [Operator.increment, .decrement].map Kind.operator) :
    Reads (.phrase .suffixed) (front ++ [op]) [.nodes [countOn node op]] := by
  obtain ⟨head, tail, first, ops, rfl, rfl, reads, others⟩ := one.of_suffixed
  have turn : Reads .counts [op] [.token op] := .token allowed
  have turns := others.many_append turn
  refine .of_rule (.and reads (reads_and_done.mpr turns)) (List.append_assoc ..) ?_
  show [counted first (ops.map .token ++ [.token op])] = _
  have more := counted_tokens first (ops ++ [op])
  simp only [List.map_append, List.map_cons, List.map_nil, List.foldl_append, List.foldl_cons, List.foldl_nil] at more
  rw [more]

theorem Reads.signedBy (one : Reads (.phrase .signed) run [.nodes [node]])
    (allowed : op.kind ∈ [Operator.add, .sub].map Kind.operator) :
    Reads (.phrase .signed) (op :: run) [.nodes [⟨.unary, op.kind.symbol?, [node], op.line⟩]] :=
  .of_rule (.left (.and (.token allowed) (reads_and_done.mpr one))) rfl rfl

end FishLang.Grammar
