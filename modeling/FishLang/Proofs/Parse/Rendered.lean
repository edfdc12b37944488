import FishLang.Proofs.Node.Render
import FishLang.Proofs.Parse.Written

namespace FishLang

open Node (separates Clear)

theorem clear_of_word {c : Char} (word : isWordChar c = true) : separates c = false := by
  cases sets : separates c with
  | false => rfl
  | true =>
    have either : (c = '(' ∨ c = ')') ∨ c = ',' := by simpa [separates] using sets
    rcases either with (rfl | rfl) | rfl
    · exact absurd word (by decide +kernel)
    · exact absurd word (by decide +kernel)
    · exact absurd word (by decide +kernel)

theorem tokenize_clear {text : String} (member : token ∈ tokenize text)
    (named : token.kind = .identifier ∨ token.kind = .number) : Clear token.lexeme := by
  intro c among
  rcases tokenize_worded member named c among with word | rfl
  · exact clear_of_word word
  · decide

namespace Grammar

open Node

section
variable {nodes : List Node} {child : Node}

theorem written_items (member : child ∈ nodes) (among : entry ∈ unparened child.spell) :
    entry ∈ unparened (spellItems nodes) := by
  induction nodes with
  | nil => cases member
  | cons node rest ih =>
    rw [spellItems, unparened_append, List.mem_append]
    rcases List.mem_cons.mp member with rfl | later
    · refine .inl ?_
      rw [itemOf]
      split
      · rw [unparened_append]
        exact List.mem_append_left _ among
      · exact among
    · exact .inr (ih later)

theorem written_opened (keyword : Word) (member : child ∈ nodes) (among : entry ∈ unparened child.spell) :
    entry ∈ unparened (spellOpened keyword nodes) := by
  induction nodes with
  | nil => cases member
  | cons node rest ih =>
    rw [spellOpened, List.flatMap_cons, unparened_append, unparened_word, List.append_assoc]
    rcases List.mem_cons.mp member with rfl | later
    · exact List.mem_append_right _ (List.mem_append_left _ among)
    · exact List.mem_append_right _ (List.mem_append_right _ (ih later))

theorem written_listed (member : child ∈ nodes) (among : entry ∈ unparened child.spell) :
    entry ∈ unparened (spellListed nodes) := by
  cases nodes with
  | nil => cases member
  | cons node rest =>
    rw [spellListed_cons, unparened_append, List.mem_append]
    rcases List.mem_cons.mp member with rfl | later
    · exact .inl among
    · refine .inr ?_
      clear member
      induction rest with
      | nil => cases later
      | cons second rest ih =>
        rw [spellOthers, List.flatMap_cons, unparened_append, unparened_mark, List.append_assoc]
        rcases List.mem_cons.mp later with rfl | last
        · exact List.mem_append_right _ (List.mem_append_left _ among)
        · exact List.mem_append_right _ (List.mem_append_right _ (ih last))

end

variable {node : Node}

theorem Shaped.hasText (shaped : Shaped role node) : node.value.isSome = node.kind.hasText := by
  induction shaped with
  | takes _ _ ih => exact ih
  | _ => rfl

-- What is written of a child is written of the node.
theorem Shaped.written_child (shaped : Shaped role node) :
    ∀ child ∈ node.children, ∀ entry ∈ unparened child.spell, entry ∈ unparened node.spell := by
  induction shaped with
  | takes _ _ ih => exact ih
  | typeName | var | num | string | char | absent => simp [ofTy, leaf, Node.absent, group]
  | @block items _ _ =>
    intro child member entry among
    have written : entry ∈ unparened (spellItems items) := written_items member among
    simp [group, spell, written]
  | params _ | args _ =>
    intro child member entry among
    exact written_listed member among
  | when _ _ _ once =>
    intro child member entry among
    rw [spell_when _ _ once]
    rcases List.mem_cons.mp member with rfl | behind
    · simp [among]
    · rcases List.mem_cons.mp behind with rfl | last
      · simp [among]
      · simp [written_opened .otherwise last among]
  | attempt _ _ _ once =>
    intro child member entry among
    rw [spell_attempt _ _ once]
    rcases List.mem_cons.mp member with rfl | behind
    · simp [among]
    · rcases List.mem_cons.mp behind with rfl | last
      · simp [among]
      · simp [written_opened .lastly last among]
  | _ => simp +contextual [spell, group]

def mention (node : Node) : Option (Kind × String) :=
  match node.kind with
  | .declaration | .functionDef | .param | .assign | .call | .var => some (.identifier, node.text)
  | .num => some (.number, node.text)
  | _ => none

theorem mention_kind (mentioned : entry ∈ mention node) : entry.1 = .identifier ∨ entry.1 = .number := by
  obtain ⟨kind, value, children, line⟩ := node
  cases kind with
  | declaration | functionDef | param | assign | call | var =>
    cases mentioned
    exact .inl rfl
  | num =>
    cases mentioned
    exact .inr rfl
  | _ => cases mentioned

theorem unparened_number (text : String) (run : List Token) :
    unparened (.number text :: run) = (.number, text) :: unparened run := rfl

theorem Shaped.written_mention (shaped : Shaped role node) : ∀ entry ∈ mention node, entry ∈ unparened node.spell := by
  induction shaped with
  | takes _ _ ih => exact ih
  | _ => simp [mention, spell, group, ofTy, leaf, Node.absent, Node.text, unparened_number]

theorem Shaped.inner {role : Role} : (node : Node) → Shaped role node → ∀ inner ∈ node.preorder,
    (∃ role, Shaped role inner) ∧ ∀ entry ∈ unparened inner.spell, entry ∈ unparened node.spell
  | ⟨kind, value, children, line⟩, shaped => by
    intro inner member
    rw [preorder, List.mem_cons, mem_preorderAll] at member
    rcases member with rfl | ⟨child, among, within⟩
    · exact ⟨⟨role, shaped⟩, fun _ => id⟩
    · obtain ⟨_, under⟩ := shaped.child child among
      obtain ⟨there, written⟩ := Shaped.inner child under inner within
      exact ⟨there, fun entry shown => shaped.written_child child among entry (written entry shown)⟩

theorem ty_clear (ty : Ty) : Clear ty.name := by
  cases ty <;> decide

theorem symbol_clear (op : Operator) : Clear op.symbol := by
  cases op <;> decide

-- What holds of types and operators holds of the text of a node, if it holds of names, numerals and literals.
theorem Shaped.holds_text {p : String → Prop} (types : ∀ ty : Ty, p ty.name) (symbols : ∀ op : Operator, p op.symbol)
    (shaped : Shaped role node) (mentioned : ∀ entry ∈ mention node, p entry.2)
    (literal : node.kind = .string ∨ node.kind = .char → ∀ text ∈ node.value, p text) :
    ∀ text ∈ node.value, p text := by
  have own (text : String) (holds : p text) : ∀ other ∈ some text, p other := by
    rintro _ ⟨⟩
    exact holds
  induction shaped with
  | takes _ _ ih => exact ih mentioned literal
  | @typeName ty => exact own _ (types ty)
  | @count op | @binary op | @unary op | @suffix op => exact own _ (symbols op)
  | string => exact literal (.inl rfl)
  | char => exact literal (.inr rfl)
  | declaration | initialized | functionDef | param | assign | call | var | num => exact own _ (mentioned _ rfl)
  | _ => nofun

end Grammar

open Grammar

namespace Node

-- No literal of the tree holds what sets the parts of a printed tree apart.
def ClearLiterals (root : Node) : Prop :=
  ∀ inner ∈ root.preorder, inner.kind = .string ∨ inner.kind = .char → ∀ text ∈ inner.value, Clear text

instance (root : Node) : Decidable root.ClearLiterals :=
  inferInstanceAs (Decidable (∀ inner ∈ root.preorder, _ → ∀ text ∈ inner.value, Clear text))

theorem mention_scanned {text : String} {root inner : Node} (accepted : Node.ofText text = .ok root)
    (member : inner ∈ root.preorder) : ∀ entry ∈ mention inner, ∃ token ∈ tokenize text, token.entry = entry := by
  intro entry mentioned
  obtain ⟨⟨role, shaped⟩, written⟩ := (ofTokens_shaped accepted).inner root inner member
  have among : entry ∈ unparened (tokenize text) := by
    rw [← ofTokens_kept (fun _ => tokenize_spelled) (endOfInput_not_mem_tokenize text) accepted]
    exact written entry (shaped.written_mention entry mentioned)
  exact List.mem_map.mp (List.mem_filter.mp among).1

theorem readable_ofText {text : String} {root : Node} (accepted : Node.ofText text = .ok root)
    (literals : root.ClearLiterals) : root.Readable := by
  intro inner member
  obtain ⟨⟨role, shaped⟩, _⟩ := (ofTokens_shaped accepted).inner root inner member
  refine ⟨shaped.hasText, shaped.holds_text ty_clear symbol_clear ?_ (literals inner member)⟩
  intro entry mentioned
  obtain ⟨token, scanned, rfl⟩ := mention_scanned accepted member entry mentioned
  exact tokenize_clear scanned (mention_kind mentioned)

-- The trees of two texts print the same just if they are the same apart from their lines.
theorem ofText_render_eq_iff {text text' : String} {root root' : Node} (accepted : Node.ofText text = .ok root)
    (accepted' : Node.ofText text' = .ok root') (literals : root.ClearLiterals) (literals' : root'.ClearLiterals) :
    root.render = root'.render ↔ root.bare = root'.bare :=
  ⟨(readable_ofText accepted literals).bare_of_render (readable_ofText accepted' literals'), render_of_bare⟩

def loose : String := "fish \x7b\n  splash (\"a b\" <* ((n <+ 1))) <D\n\x7d"

def tight : String := "fish\x7bsplash(\"a b\"<*(n<+1))<D\x7d"

def product (line : Nat) : Node :=
  let sum : Node := .binary Operator.add.symbol (.leaf .var "n" line) (.leaf .num "1" line)
  let printed : Node := .group .splash [.binary Operator.mul.symbol (.leaf .string "a b" line) sum] line
  .group .program [.group .block [printed] 1] 1

theorem loose_render_eq_iff : Node.ofText loose = .ok (product 2) ∧ Node.ofText tight = .ok (product 1) ∧
    (product 2).ClearLiterals ∧ (product 1).ClearLiterals ∧ product 2 ≠ product 1 ∧
    (product 2).render = "Program(Block(Print(BinaryOp(*, String(a b), BinaryOp(+, Var(n), Num(1))))))" ∧
    ((product 2).render = (product 1).render ↔ (product 2).bare = (product 1).bare) ∧
    (product 2).bare = (product 1).bare := by
  have read : [loose, tight].map (fun text => (Node.ofText text).toOption) = [some (product 2), some (product 1)] := by
    decide +kernel
  have accepted {text : String} {root : Node} (read : (Node.ofText text).toOption = some root) :
      Node.ofText text = .ok root := by
    cases answer : Node.ofText text with
    | error error =>
      rw [answer] at read
      cases read
    | ok root =>
      rw [answer] at read
      cases read
      rfl
  obtain ⟨spaced, others⟩ := List.cons.inj read
  obtain ⟨packed, _⟩ := List.cons.inj others
  have clear : (product 2).ClearLiterals := by decide +kernel
  have clear' : (product 1).ClearLiterals := by decide +kernel
  exact ⟨accepted spaced, accepted packed, clear, clear', by decide +kernel, by decide +kernel,
    ofText_render_eq_iff (accepted spaced) (accepted packed) clear clear', rfl⟩

end Node

end FishLang
