import FishLang.Proofs.Analysis.Account
import FishLang.Proofs.Analysis.Rename
import FishLang.Proofs.Parse.Rendered
import FishLang.Proofs.Text.Terminal

namespace FishLang

open Node Grammar

theorem printed_of_word {c : Char} (word : isWordChar c = true ∨ c = '.') : 0x20 ≤ c.toNat ∧ c.toNat ≠ 0x7F := by
  rcases word with word | rfl
  · rcases Bool.or_eq_true_iff.mp word with letter | digit
    · simp only [isLetter] at letter
      split at letter
      · simp only [Bool.or_eq_true, beq_iff_eq, Bool.and_eq_true, decide_eq_true_eq] at letter
        omega
      · omega
    · obtain ⟨low, high⟩ := Char.isDigit_iff_toNat.1 digit
      change 48 ≤ c.toNat at low
      change c.toNat ≤ 57 at high
      omega
  · decide

theorem printed_number (value : Nat) : Printed (toString value).toList := by
  have digits : (toString value).toList = Nat.toDigits 10 value := Nat.toList_repr
  rw [digits]
  exact fun c among => printed_of_word (.inl (by
    simp [isWordChar, Nat.isDigit_of_mem_toDigits (by decide) (Nat.le_refl 10) among]))

theorem printed_ty (ty : Ty) : Printed ty.name.toList := by
  cases ty <;> decide

theorem printed_tyName (ty : Option Ty) : Printed (Finding.tyName ty).toList := by
  cases ty with
  | none => decide
  | some ty => exact printed_ty ty

theorem printed_symbol (op : Operator) : Printed op.symbol.toList := by
  cases op <;> decide

theorem printed_quote {name : String} (printed : Printed name.toList) : Printed (Finding.quote name).toList := by
  simp only [Finding.quote, String.toList_append, printed_append, printed, and_true]
  decide

theorem Finding.printed_message (finding : Finding) (named : ∀ name ∈ finding.name?, Printed name.toList) :
    Printed finding.message.toList := by
  suffices ∀ wording ∈ finding.wordings, Printed wording.text.toList by
    rw [message_eq, String.toList_join, List.flatMap_map]
    intro c among
    obtain ⟨wording, within, inside⟩ := List.mem_flatMap.mp among
    exact this wording within c inside
  cases finding with
  | returnOutsideFunction => decide +kernel
  | undeclaredVariable name | undeclaredFunction name | redeclaration name | duplicateFunction name
  | arity name | initializer name | assignment name | argument name | result name | operands name =>
    have quoted := printed_quote (named name rfl)
    simp only [wordings, List.forall_mem_cons, Wording.text, quoted, printed_ty, printed_tyName, String.toList_append,
      printed_append, printed_number, and_true, true_and]
    decide +kernel

theorem Node.mem_preorder {root node : Node} (present : root.at? place = some node) : node ∈ root.preorder := by
  induction place generalizing root with
  | nil =>
    cases present
    cases node
    exact List.mem_cons_self ..
  | cons index place ih =>
    obtain ⟨child, among, below⟩ := Option.bind_eq_some_iff.mp present
    obtain ⟨kind, value, children, line⟩ := root
    exact List.mem_cons_of_mem _ (mem_preorderAll.mpr ⟨child, List.mem_of_getElem? among, ih below⟩)

theorem Node.ofText_printed_text {text : String} {root node : Node} (accepted : Node.ofText text = .ok root)
    (member : node ∈ root.preorder) (other : ¬ (node.kind = .string ∨ node.kind = .char)) :
    Printed node.text.toList := by
  obtain ⟨⟨role, shaped⟩, _⟩ := (ofTokens_shaped accepted).inner root node member
  have texts : ∀ text ∈ node.value, Printed text.toList := by
    refine shaped.holds_text printed_ty printed_symbol ?_ (fun literal => absurd literal other)
    intro entry mentioned
    obtain ⟨token, scanned, rfl⟩ := mention_scanned accepted member entry mentioned
    exact fun c among => printed_of_word (tokenize_worded scanned (mention_kind mentioned) c among)
  cases value : node.value with
  | none =>
    rw [Node.text, value]
    decide
  | some own =>
    rw [Node.text, value]
    exact texts own value

theorem Finding.not_about_literal {kind : Node.Kind} (finding : Finding) (about : kind ∈ finding.about) :
    ¬ (kind = .string ∨ kind = .char) := by
  rintro (rfl | rfl)
  · cases finding <;> simp [Finding.about] at about
  · cases finding <;> simp [Finding.about] at about

-- A diagnostic of a text takes up one line, and a terminal shows all of it.
theorem Node.ofText_printed {text : String} {root : Node} (accepted : Node.ofText text = .ok root) :
    ∀ diagnostic ∈ root.diagnostics, Printed diagnostic.message.toList := by
  intro diagnostic among
  obtain ⟨report, reported, rfl⟩ := List.mem_map.mp among
  obtain ⟨place, node, present, due⟩ := mem_reports (ofTokens_shaped accepted) reported
  obtain ⟨about, tells⟩ := names_faults root place node report due
  refine report.finding.printed_message fun name named => ?_
  rcases tells name named with rfl | ⟨_, function, there, definition, rfl⟩
  · exact ofText_printed_text accepted (mem_preorder present) (report.finding.not_about_literal about)
  · exact ofText_printed_text accepted (mem_preorder there) (by simp [definition])

end FishLang
