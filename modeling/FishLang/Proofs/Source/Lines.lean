import FishLang.Parse.Basic
import FishLang.Proofs.Source.Comment
import FishLang.Proofs.Text.Lines
import FishLang.Proofs.Token.Respace

namespace FishLang

-- A line of a file may end in a carriage return, which is no part of it.
def dropReturn (line : List Char) : List Char := if line.getLast? = some '\r' then line.dropLast else line

-- The lines of a file, whether a newline stands between them or a carriage return and a newline.
def fileLines (cs : List Char) : List (List Char) := (splitLines cs).map dropReturn

theorem sublist_dropReturn {line less : List Char} (taken : less.Sublist line) (without : '\r' ∉ less) :
    less.Sublist (dropReturn line) := by
  unfold dropReturn
  split
  · next last =>
    rw [← List.dropLast_append_getLast? '\r' last] at taken
    obtain ⟨front, back, rfl, inside, behind⟩ := List.sublist_append_iff.mp taken
    rcases List.sublist_cons_iff.mp behind with none | ⟨_, rfl, _⟩
    · rw [List.sublist_nil.mp none, List.append_nil]
      exact inside
    · simp at without
  · exact taken

section
variable {source : String}

theorem clean_preserve_sublist (paired : PairedReturns source.toList) :
    (clean .preserve source).toList.Sublist source.toList ∧
      (clean .preserve source).toList.count '\n' = source.toList.count '\n' := by
  obtain ⟨taken, same⟩ := unifyLineEnds_sublist (Comment.remove_paired .code paired)
  rw [clean_preserve_toList]
  exact ⟨taken.trans (Comment.remove_sublist ..), same.trans (Comment.count_remove ..)⟩

-- At a character that is left, a source falls into two that are cleaned apart.
theorem clean_preserve_cut {before after : List Char} {c : Char} (other : c ≠ '\n')
    (cut : (clean .preserve source).toList = before ++ c :: after) : ∃ front back, source.toList = front ++ c :: back ∧
      (clean .preserve (.ofList front)).toList = before ∧ (clean .preserve (.ofList (c :: back))).toList = c :: after := by
  simp only [clean_preserve_toList, String.toList_ofList] at cut ⊢
  obtain ⟨passed, left, split, ahead, behind⟩ := unifyLineEnds_cut other cut
  obtain ⟨front, back, whole, ahead', behind'⟩ := Comment.remove_cut other split
  exact ⟨front, back, whole, by rw [ahead', ahead], by rw [behind', behind]⟩

end

-- A token of what is left of a source stands between two parts of it: of the first part what stands before the token
-- is left, and of the second, which starts with the token's first character, the token and what is behind it.
structure Token.StandsIn (token : Token) (source : String) (front back : List Char) : Prop where
  whole : source.toList = front ++ back
  first : back.head? = token.lexeme.toList.head?
  offset : token.span.start.offset = (clean .preserve (.ofList front)).utf8ByteSize
  before : clean .preserve source = clean .preserve (.ofList front) ++ clean .preserve (.ofList back)
  behind : token.lexeme.toList <+: (clean .preserve (.ofList back)).toList

theorem stands_in (source : String) (member : token ∈ tokenize (clean .preserve source)) :
    ∃ front back, token.StandsIn source front back ∧ back.head? ≠ some '\n' ∧
      token.line = 1 + (clean .preserve (.ofList front)).toList.count '\n' := by
  obtain ⟨full, before, after, split, span⟩ := (tokenize_covers _).placed member
  obtain ⟨c, run, lexeme⟩ := List.exists_cons_of_ne_nil fun empty => full (String.toList_eq_nil_iff.mp empty)
  have other : c ≠ '\n' := by
    rintro rfl
    have plain := Lexical.tokens_head (tokenize_cut member) '\n' (by rw [lexeme]; rfl)
    exact absurd plain (by decide)
  rw [lexeme, List.append_assoc, List.cons_append] at split
  obtain ⟨front, back, whole, ahead, behind⟩ := clean_preserve_cut other split
  have place := Location.after_start before
  refine ⟨front, c :: back, ⟨whole, by rw [lexeme]; rfl, ?_, ?_, ?_⟩, by simpa using other, ?_⟩
  · rw [span, place.offset, ← ahead, String.ofList_toList]
  · apply String.toList_injective
    rw [split, String.toList_append, ahead, behind]
  · rw [behind, lexeme]
    exact ⟨after, rfl⟩
  · rw [Token.line, span, place.line, ahead]

-- A source whose carriage returns all stand before newlines is left with its lines, and no carriage return, when the
-- layout is preserved. Of each line some characters are left in their order, and a token is on the line of the source
-- that it starts on.
theorem clean_preserve_lines {source : String} (paired : PairedReturns source.toList) :
    '\r' ∉ (clean .preserve source).toList ∧
    (splitLines (clean .preserve source).toList).length = (fileLines source.toList).length ∧
    List.Forall₂ List.Sublist (splitLines (clean .preserve source).toList) (fileLines source.toList) ∧
    ∀ token ∈ tokenize (clean .preserve source), ∃ front back, token.StandsIn source front back ∧
      token.line = 1 + front.count '\n' := by
  obtain ⟨taken, same⟩ := clean_preserve_sublist paired
  have without : '\r' ∉ (clean .preserve source).toList := by
    rw [clean_preserve_toList]
    exact unifyLineEnds_no_return _
  have lines : List.Forall₂ List.Sublist (splitLines (clean .preserve source).toList) (fileLines source.toList) := by
    rw [fileLines, List.forall₂_map_right_iff]
    have plain : ∀ line ∈ splitLines (clean .preserve source).toList, '\r' ∉ line := fun line among member =>
      without ((sublist_of_mem_splitLines among).subset member)
    have each := (List.forall₂_and_left _ _).mpr ⟨plain, splitLines_sublist taken same⟩
    exact each.imp fun less line both => sublist_dropReturn both.2 both.1
  refine ⟨without, lines.length_eq, lines, fun token member => ?_⟩
  obtain ⟨front, back, stands, other, line⟩ := stands_in source member
  have ahead : PairedReturns (String.ofList front).toList := by
    rw [String.toList_ofList]
    exact (stands.whole ▸ paired).append_left other
  obtain ⟨_, fewer⟩ := clean_preserve_sublist ahead
  rw [String.toList_ofList] at fewer
  exact ⟨front, back, stands, by rw [line, fewer]⟩

def commented : String := "a\r\n<~ b\r\nc ~> d ~~ e\r\nf <~ g\r\n"

theorem commented_lines : PairedReturns commented.toList ∧
    clean .preserve commented = "a\n\n d \nf \n" ∧
    (tokenize (clean .preserve commented)).map (fun token => (token.lexeme, token.line)) =
      [("a", 1), ("d", 3), ("f", 4)] ∧
    List.Forall₂ List.Sublist (splitLines (clean .preserve commented).toList) (fileLines commented.toList) ∧
    ∀ token ∈ tokenize (clean .preserve commented), ∃ front back, token.StandsIn commented front back ∧
      token.line = 1 + front.count '\n' := by
  have paired : PairedReturns commented.toList := by decide
  obtain ⟨_, _, lines, tokens⟩ := clean_preserve_lines paired
  exact ⟨paired, by decide, by decide +kernel, lines, tokens⟩

end FishLang
