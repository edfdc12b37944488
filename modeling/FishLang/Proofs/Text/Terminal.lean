import FishLang.Proofs.Text.Lines
import FishLang.Text.Terminal

namespace FishLang

-- Text without control characters, which a terminal shows as it is.
def Printed (cs : List Char) : Prop := ∀ c ∈ cs, 0x20 ≤ c.toNat ∧ c.toNat ≠ 0x7F

instance (cs : List Char) : Decidable (Printed cs) :=
  List.decidableBAll (fun c : Char => 0x20 ≤ c.toNat ∧ c.toNat ≠ 0x7F) cs

section Printed

variable {cs front back : List Char}

theorem printed_append : Printed (front ++ back) ↔ Printed front ∧ Printed back := List.forall_mem_append

theorem Printed.single (printed : Printed cs) : '\n' ∉ cs := fun among => absurd (printed _ among).1 (by decide)

theorem Printed.isShown (printed : Printed cs) : ∀ c ∈ cs, Terminal.isShown c = true := by
  intro c among
  obtain ⟨low, other⟩ := printed c among
  simp [Terminal.isShown, low, other]

theorem Printed.plain_line (printed : Printed cs) : Terminal.plain .text (cs ++ ['\n']) = cs ++ ['\n'] :=
  Terminal.plain_eq_self (List.forall_mem_append.mpr ⟨printed.isShown, by simp [Terminal.isShown, Terminal.isSpacing]⟩)

end Printed

-- Every line but the first starts with a blank, if it is not empty.
def Hung : List Char → Prop
  | [] => True
  | c :: rest => (c = '\n' → ∀ d ∈ rest.head?, d = ' ') ∧ Hung rest

-- No line, or none but a first one that has been started before, starts with the bracket of an error's head.
def Calm (fresh : Prop) : List Char → Prop
  | [] => True
  | c :: rest => ¬ (fresh ∧ c = '[' ∧ rest.head? = some 'E') ∧ Calm (c = '\n') rest

theorem hung_append (single : '\n' ∉ front) : Hung (front ++ back) ↔ Hung back := by
  induction front with
  | nil => rfl
  | cons c front ih =>
    obtain ⟨other, single⟩ := not_or.mp (List.mem_cons.not.mp single)
    exact (and_iff_right fun same => absurd same.symm other).trans (ih single)

section Calm

variable {fresh stale : Prop} {cs front back : List Char}

theorem Calm.mono (calm : Calm fresh cs) (fewer : stale → fresh) : Calm stale cs := by
  cases cs with
  | nil => trivial
  | cons c rest => exact ⟨fun ⟨new, opens⟩ => calm.1 ⟨fewer new, opens⟩, calm.2⟩

theorem Calm.restart (calm : Calm stale (c :: rest)) (other : ¬ (c = '[' ∧ rest.head? = some 'E')) :
    Calm fresh (c :: rest) :=
  ⟨fun ⟨_, opens⟩ => other opens, calm.2⟩

theorem Calm.append (calm : Calm fresh front) (after : Calm True back) (other : back.head? ≠ some 'E') :
    Calm fresh (front ++ back) := by
  induction front generalizing fresh with
  | nil => exact after.mono fun _ => trivial
  | cons c rest ih =>
    obtain ⟨here, later⟩ := calm
    refine ⟨fun ⟨new, bracket, letter⟩ => ?_, ih later⟩
    cases rest with
    | nil => exact other letter
    | cons d rest => exact here ⟨new, bracket, letter⟩

theorem calm_flatMap {α : Type} {entries : List α} {text : α → List Char}
    (each : ∀ entry ∈ entries, Calm True (text entry) ∧ (text entry).head? = some '[') :
    Calm True (entries.flatMap text) := by
  suffices Calm True (entries.flatMap text) ∧ (entries.flatMap text).head? ≠ some 'E' from this.1
  induction entries with
  | nil => exact ⟨trivial, by simp⟩
  | cons entry rest ih =>
    obtain ⟨⟨here, bracket⟩, others⟩ := List.forall_mem_cons.mp each
    obtain ⟨further, other⟩ := ih others
    rw [List.flatMap_cons]
    refine ⟨here.append further other, ?_⟩
    simp [List.head?_append, bracket]

-- The first line is let off where the text only goes on with it.
theorem Calm.lines (calm : Calm fresh cs) : (fresh → ∀ line ∈ (splitLines cs).head?, ¬ ['[', 'E'] <+: line) ∧
    ∀ line ∈ (splitLines cs).tail, ¬ ['[', 'E'] <+: line := by
  induction cs generalizing fresh with
  | nil => exact ⟨fun _ => by simp [splitLines], by simp [splitLines]⟩
  | cons c rest ih =>
    obtain ⟨here, later⟩ := calm
    obtain ⟨first, others⟩ := ih later
    by_cases newline : c = '\n'
    · obtain ⟨line, lines, split⟩ := splitLines_eq_cons rest
      rw [splitLines, if_pos newline]
      refine ⟨fun _ => by simp, fun other among => ?_⟩
      rw [List.tail_cons, split] at among
      rw [split] at first others
      rcases List.mem_cons.mp among with rfl | behind
      · exact first newline _ rfl
      · exact others other behind
    · have head := splitLines_head? rest
      obtain ⟨line, lines, split⟩ := splitLines_eq_cons rest
      rw [split, List.head?_cons, Option.some_inj] at head
      rw [split] at others
      rw [splitLines_cons newline split]
      refine ⟨fun new => ?_, others⟩
      rintro _ ⟨⟩ opens
      obtain ⟨rfl, letters⟩ := List.cons_prefix_cons.mp opens
      rw [head] at letters
      cases rest with
      | nil => simp at letters
      | cons d rest =>
        have letter : d = 'E' := by
          rw [List.takeWhile_cons] at letters
          split at letters
          · exact (List.cons_prefix_cons.mp letters).1.symm
          · simp at letters
        exact here ⟨new, rfl, congrArg some letter⟩

theorem Calm.not_error (calm : Calm True cs) : ∀ line ∈ splitLines cs, ¬ ['[', 'E'] <+: line := by
  obtain ⟨first, others⟩ := calm.lines
  obtain ⟨line, lines, split⟩ := splitLines_eq_cons cs
  rw [split] at first others ⊢
  exact List.forall_mem_cons.mpr ⟨first trivial line rfl, others⟩

end Calm

namespace Terminal

theorem plain_cons {c : Char} (shown : isShown c = true) (cs : List Char) :
    plain .text (c :: cs) = c :: plain .text cs := by
  rw [plain, step_text shown]
  rfl

theorem step_newline {place next : Place} (shown : place.step '\n' = (true, next)) : next = .text := by
  cases place <;> cases shown <;> rfl

-- Nothing that a message holds starts a line, whatever is taken out of it.
theorem calm_plain {cs : List Char} (hung : Hung cs) (place : Place) : Calm False (plain place cs) := by
  induction cs generalizing place with
  | nil => trivial
  | cons c rest ih =>
    obtain ⟨blank, hung⟩ := hung
    rw [plain]
    cases step : place.step c with
    | mk shown next =>
      cases shown with
      | false => exact ih hung next
      | true =>
        refine ⟨And.left, ?_⟩
        by_cases newline : c = '\n'
        · subst newline
          obtain rfl := step_newline step
          cases rest with
          | nil => trivial
          | cons d rest =>
            obtain rfl := blank rfl d rfl
            have further := ih hung .text
            rw [plain_cons rfl] at further ⊢
            exact ⟨by simp, further.2⟩
        · exact (ih hung next).mono fun same => absurd same newline

end Terminal

end FishLang
