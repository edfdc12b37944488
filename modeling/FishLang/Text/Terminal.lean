namespace FishLang

namespace Terminal

def isSpacing (c : Char) : Bool := c == '\t' || c == '\n' || c == '\x0c' || c == '\r'

def isShown (c : Char) : Bool := isSpacing c || (0x20 ≤ c.toNat && c.toNat != 0x7F)

inductive Place where
  | text
  | escape
  -- Behind an escape character and blanks or marks, which a later character ends.
  | designation
  -- In a control sequence: parameters, then the character it is named by.
  | control
  -- In a command to the system, which a bell ends.
  | command
  | device
deriving DecidableEq, Repr

def Place.after : Place → Char → Place
  | .escape, '[' => .control
  | .escape, ']' => .command
  | .escape, 'P' | .escape, 'X' | .escape, '^' | .escape, '_' => .device
  | .escape, c | .designation, c => if c.toNat < 0x30 then .designation else .text
  | .control, c => if c.toNat < 0x40 then .control else .text
  | place, _ => place

-- Whether a character is shown, and where the reader is behind it. Cancelling or a new escape character ends
-- whatever was open. A spacing character breaks off a sequence, but is a part of a command or a string. A string
-- ends at the byte `9C`, also where it belongs to a longer character.
def Place.step (place : Place) (c : Char) : Bool × Place :=
  if c.toNat = 0x18 ∨ c.toNat = 0x1A then (false, .text)
  else if c.toNat = 0x1B then (false, .escape)
  else match place with
    | .text => (isShown c, .text)
    | .command => (false, if c.toNat = 7 then .text else .command)
    | .device => (false, if (String.utf8EncodeChar c).contains 0x9C then .text else .device)
    | place =>
      if isSpacing c then (true, .text)
      else if c.toNat < 0x20 ∨ 0x7F ≤ c.toNat then (false, place)
      else (false, place.after c)

def plain : Place → List Char → List Char
  | _, [] => []
  | place, c :: rest =>
    let (shown, next) := place.step c
    if shown then c :: plain next rest else plain next rest

theorem step_text {c : Char} (shown : isShown c = true) : Place.step .text c = (true, .text) := by
  have quiet : ¬(c.toNat = 0x18 ∨ c.toNat = 0x1A) ∧ c.toNat ≠ 0x1B := by
    simp only [isShown, isSpacing, Bool.or_eq_true, beq_iff_eq, Bool.and_eq_true, decide_eq_true_eq] at shown
    rcases shown with (((rfl | rfl) | rfl) | rfl) | ⟨low, _⟩
    · decide
    · decide
    · decide
    · decide
    · omega
  rw [Place.step, if_neg quiet.1, if_neg quiet.2, shown]

theorem plain_eq_self {cs : List Char} (shown : ∀ c ∈ cs, isShown c = true) : plain .text cs = cs := by
  induction cs with
  | nil => rfl
  | cons c rest ih =>
    simp [plain, step_text (shown c List.mem_cons_self), ih fun d member => shown d (List.mem_cons_of_mem _ member)]

end Terminal

end FishLang
