import FishLang.Text.Blank
import FishLang.Text.Letter
import FishLang.Token.Kind
import Mathlib.Data.List.Infix
import Mathlib.Data.List.TakeWhile

namespace FishLang

def blankCodes : List Nat :=
  [9, 10, 11, 12, 13, 0x20, 0x85, 0xA0, 0x1680, 0x2000, 0x2001, 0x2002, 0x2003, 0x2004, 0x2005, 0x2006, 0x2007,
    0x2008, 0x2009, 0x200A, 0x2028, 0x2029, 0x202F, 0x205F, 0x3000]

theorem toNat_mem_blankCodes {c : Char} (blank : isBlank c = true) : c.toNat ∈ blankCodes := by
  unfold isBlank at blank
  generalize c.toNat = n at blank
  simp only [Bool.or_eq_true, Bool.and_eq_true, decide_eq_true_eq, beq_iff_eq] at blank
  simp only [blankCodes, List.mem_cons, List.not_mem_nil, or_false]
  omega

theorem not_isLetter_of_isBlank {c : Char} (blank : isBlank c = true) : isLetter c = false := by
  have code := toNat_mem_blankCodes blank
  have known : ∀ n ∈ blankCodes,
      (if n < 128 then n == 0x5F || (0x41 ≤ n && n ≤ 0x5A) || (0x61 ≤ n && n ≤ 0x7A)
        else letterRanges.any fun range => range.1 ≤ n && n ≤ range.2) = false := by decide +kernel
  exact known c.toNat code

theorem not_isBlank_of_isWordChar {c : Char} (word : isWordChar c = true) : isBlank c = false := by
  cases blank : isBlank c with
  | false => rfl
  | true =>
    have letter := not_isLetter_of_isBlank blank
    have digit : c.isDigit = true := by simpa [isWordChar, letter] using word
    have ⟨low, high⟩ := Char.isDigit_iff_toNat.1 digit
    change 48 ≤ c.toNat at low
    change c.toNat ≤ 57 at high
    have code := toNat_mem_blankCodes blank
    simp only [blankCodes, List.mem_cons, List.not_mem_nil, or_false] at code
    omega

namespace Lexical

def kindOf? (rows : List (String × Kind)) (run : List Char) : Option Kind :=
  (rows.find? fun row => row.1.toList = run).map Prod.snd

-- Letters and digits from a letter on: a reserved word or a name.
def word (cs : List Char) : Kind × List Char :=
  let run := cs.takeWhile isWordChar
  ((kindOf? wordSpellings run).getD .identifier, run)

def digits (cs : List Char) : List Char :=
  cs.takeWhile Char.isDigit ++ match cs.dropWhile Char.isDigit with
    | '.' :: rest => '.' :: rest.takeWhile Char.isDigit
    | _ => []

-- A numeral from a digit on. What runs into a letter is no numeral, to the end of the letters and digits.
def numeral (cs : List Char) : Kind × List Char :=
  let number := digits cs
  let rest := cs.drop number.length
  if rest.head?.any isLetter then (.invalid, number ++ rest.takeWhile isWordChar)
  else if number.getLast? = some '.' then (.unrecognized, number)
  else (.number, number)

def opensSign (run : List Char) : Bool := angleSpellings.any fun row => run.isPrefixOf row.1.toList

-- The longest beginning of a sign.
def sign (cs : List Char) : Kind × List Char :=
  let run := ((cs.inits.filter opensSign).getLast?).getD []
  ((kindOf? angleSpellings run).getD .unrecognized, run)

-- Up to the first quote that no backslash takes for itself, the quote included.
def closed? : List Char → Option (List Char)
  | [] => none
  | '"' :: _ => some ['"']
  | '\\' :: c :: rest => (closed? rest).map ('\\' :: c :: ·)
  | c :: rest => (closed? rest).map (c :: ·)

def string (rest : List Char) : Kind × List Char :=
  match closed? rest with
  | some body => (.string, '"' :: body)
  | none => (.unrecognized, '"' :: rest)

-- One character between quotes, or after a backslash, by what is behind the opening quote.
def char : List Char → Kind × List Char
  | '\\' :: c :: '\'' :: _ => (.char, ['\'', '\\', c, '\''])
  | '\\' :: c :: _ => (.unrecognized, ['\'', '\\', c])
  | ['\\'] => (.unrecognized, ['\'', '\\'])
  | '\'' :: _ => (.unrecognized, ['\''])
  | c :: '\'' :: _ => (.char, ['\'', c, '\''])
  | c :: _ => (.unrecognized, ['\'', c])
  | [] => (.unrecognized, ['\''])

def first (c : Char) (rest : List Char) : Kind × List Char :=
  if isLetter c then word (c :: rest)
  else if c.isDigit then numeral (c :: rest)
  else if c = '<' then sign (c :: rest)
  else if c = '"' then string rest
  else if c = '\'' then char rest
  else (((markSpellings.find? fun row => row.1 = c).map Prod.snd).getD .unrecognized, [c])

-- The tokens of a text, blanks left out.
def tokens : List Char → List (Kind × List Char)
  | [] => []
  | c :: rest =>
    if isBlank c then tokens rest
    else first c rest :: tokens (rest.drop ((first c rest).2.length - 1))
termination_by cs => cs.length
decreasing_by
  · simp
  · simp only [List.length_drop, List.length_cons]
    omega

theorem forall_mem_tokens {p : Kind × List Char → Prop} (each : ∀ c rest, isBlank c = false → p (first c rest)) :
    ∀ cut ∈ tokens cs, p cut := by
  intro cut among
  induction cs using tokens.induct with
  | case1 =>
    rw [tokens] at among
    cases among
  | case2 c rest skipped ih =>
    rw [tokens, if_pos skipped] at among
    exact ih among
  | case3 c rest full ih =>
    rw [tokens, if_neg full] at among
    rcases List.mem_cons.mp among with rfl | later
    · exact each c rest (by simpa using full)
    · exact ih later

theorem digits_pointed (pointed : cs.dropWhile Char.isDigit = '.' :: more) :
    digits cs = cs.takeWhile Char.isDigit ++ '.' :: more.takeWhile Char.isDigit := by
  unfold digits
  rw [pointed]
  rfl

theorem digits_whole (bare : ∀ more, cs.dropWhile Char.isDigit ≠ '.' :: more) :
    digits cs = cs.takeWhile Char.isDigit := by
  unfold digits
  split
  · next more same => exact absurd same (bare more)
  · exact List.append_nil _

theorem longest_of_getLast? {allowed : List Char → Bool} {cs run : List Char}
    (last : (cs.inits.filter allowed).getLast? = some run) :
    run <+: cs ∧ allowed run = true ∧ ∀ other, other <+: cs → allowed other = true → other <+: run := by
  induction cs generalizing allowed run with
  | nil =>
    have member := List.mem_filter.mp (List.mem_of_getLast? last)
    obtain rfl : run = [] := by simpa using member.1
    exact ⟨List.prefix_rfl, member.2, fun other starts _ => starts⟩
  | cons c cs ih =>
    have split : ((c :: cs).inits.filter allowed) = (if allowed [] then [[]] else []) ++
        (cs.inits.filter fun run => allowed (c :: run)).map (c :: ·) := by
      rw [List.inits_cons, List.filter_cons, List.filter_map]
      split <;> rfl
    rw [split, List.getLast?_append, List.getLast?_map] at last
    cases inner : (cs.inits.filter fun run => allowed (c :: run)).getLast? with
    | some rest =>
      rw [inner] at last
      obtain rfl : c :: rest = run := by simpa using last
      obtain ⟨starts, good, most⟩ := ih inner
      refine ⟨List.cons_prefix_cons.mpr ⟨rfl, starts⟩, good, fun other begins allowedOther => ?_⟩
      rcases List.prefix_cons_iff.mp begins with rfl | ⟨more, rfl, further⟩
      · exact List.nil_prefix
      · exact List.cons_prefix_cons.mpr ⟨rfl, most more further allowedOther⟩
    | none =>
      rw [inner] at last
      have only : allowed [] = true ∧ run = [] := by
        cases empty : allowed [] <;> simp [empty] at last ⊢
        exact last
      obtain ⟨good, rfl⟩ := only
      refine ⟨List.nil_prefix, good, fun other begins allowedOther => ?_⟩
      rcases List.prefix_cons_iff.mp begins with rfl | ⟨more, rfl, further⟩
      · exact List.prefix_rfl
      · have member : more ∈ cs.inits.filter fun run => allowed (c :: run) :=
          List.mem_filter.mpr ⟨(List.mem_inits _ _).mpr further, allowedOther⟩
        rw [List.getLast?_eq_none_iff.mp inner] at member
        cases member

theorem angleSpellings_plain : ∀ row ∈ angleSpellings, ∀ c ∈ row.1.toList, isBlank c = false := by
  have checked : (angleSpellings.all fun row => row.1.toList.all fun c => !isBlank c) = true := by decide +kernel
  simpa only [List.all_eq_true, Bool.not_eq_true'] using checked

theorem digits_plain (cs : List Char) : ∀ c ∈ digits cs, isWordChar c = true ∨ c = '.' := by
  have digit {cs : List Char} {c : Char} (member : c ∈ cs.takeWhile Char.isDigit) : isWordChar c = true := by
    rw [isWordChar, List.mem_takeWhile_imp member, Bool.or_true]
  intro c member
  rcases List.mem_append.mp member with whole | fraction
  · exact .inl (digit whole)
  · split at fraction
    · rcases List.mem_cons.mp fraction with rfl | decimal
      · exact .inr rfl
      · exact .inl (digit decimal)
    · cases fraction

theorem numeral_plain (cs : List Char) : ∀ c ∈ (numeral cs).2, isWordChar c = true ∨ c = '.' := by
  intro c member
  unfold numeral at member
  dsimp only at member
  split at member
  · rcases List.mem_append.mp member with number | word
    · exact digits_plain cs c number
    · exact .inl (List.mem_takeWhile_imp word)
  · split at member
    · exact digits_plain cs c member
    · exact digits_plain cs c member

theorem sign_plain (cs : List Char) : ∀ c ∈ (sign cs).2, isBlank c = false := by
  intro c member
  change c ∈ ((cs.inits.filter opensSign).getLast?).getD [] at member
  cases last : (cs.inits.filter opensSign).getLast? with
  | none =>
    rw [last] at member
    cases member
  | some run =>
    rw [last] at member
    obtain ⟨_, opens, _⟩ := longest_of_getLast? last
    obtain ⟨row, among, starts⟩ := List.any_eq_true.mp opens
    exact angleSpellings_plain row among c ((List.isPrefixOf_iff_prefix.mp starts).subset member)

theorem first_plain (c : Char) (rest : List Char) (plain : isBlank c = false) :
    (∀ d ∈ (first c rest).2, isBlank d = false) ∨
      (first c rest).2.head? = some '"' ∨ (first c rest).2.head? = some '\'' := by
  unfold first
  split
  · exact .inl fun d member => not_isBlank_of_isWordChar (List.mem_takeWhile_imp member)
  · split
    · refine .inl fun d member => ?_
      rcases numeral_plain _ d member with word | rfl
      · exact not_isBlank_of_isWordChar word
      · decide
    · split
      · exact .inl (sign_plain _)
      · split
        · refine .inr (.inl ?_)
          unfold string
          split
          · rfl
          · rfl
        · split
          · refine .inr (.inr ?_)
            unfold char
            split <;> rfl
          · refine .inl fun d member => ?_
            obtain rfl := List.mem_singleton.mp member
            exact plain

theorem quoted_of_blank (cut : Kind × List Char) (among : cut ∈ tokens cs) (blank : ∃ c ∈ cut.2, isBlank c = true) :
    cut.2.head? = some '"' ∨ cut.2.head? = some '\'' := by
  have known : ∀ cut ∈ tokens cs, (∀ d ∈ cut.2, isBlank d = false) ∨
      cut.2.head? = some '"' ∨ cut.2.head? = some '\'' := forall_mem_tokens first_plain
  refine (known cut among).resolve_left fun none => ?_
  obtain ⟨d, member, found⟩ := blank
  rw [none d member] at found
  cases found

end Lexical

end FishLang
