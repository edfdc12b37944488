import FishLang.Proofs.Automaton.Grown
import FishLang.Proofs.Token.Lexical
import FishLang.Proofs.Token.Reach

namespace FishLang

open Builder Scanner

variable {automaton : Automaton} {state : State} {c : Char}

theorem escape_outside (outside : state.isLiteralBody = false) : state.isEscape = false := by
  simp only [State.isLiteralBody, Bool.or_eq_false_iff] at outside
  simp only [State.isEscape, outside, Bool.or_self]

section Categories

variable (outside : state.isLiteralBody = false)
include outside

theorem categorize_digit (digit : c.isDigit = true) : automaton.categorize state c = .digit := by
  unfold Automaton.categorize
  rw [escape_outside outside, outside, if_neg Bool.false_ne_true, if_neg Bool.false_ne_true, if_pos digit]

theorem categorize_other (digit : c.isDigit = false) (letter : isLetter c = false) :
    automaton.categorize state c = .exact c := by
  unfold Automaton.categorize
  rw [escape_outside outside, outside, if_neg Bool.false_ne_true, if_neg Bool.false_ne_true, digit,
    if_neg Bool.false_ne_true, letter, if_neg Bool.false_ne_true]

theorem categorize_letter (letter : isLetter c = true) : automaton.categorize state c =
    if (state == .start || automaton.onReservedPath state) && automaton.hasEdge state (.exact c) then .exact c
    else .letter := by
  have digit : c.isDigit = false := by
    cases same : c.isDigit with
    | false => rfl
    | true => rw [not_isLetter_of_isDigit same] at letter; cases letter
  unfold Automaton.categorize
  rw [escape_outside outside, outside, if_neg Bool.false_ne_true, if_neg Bool.false_ne_true, digit,
    if_neg Bool.false_ne_true, if_pos letter]

end Categories

theorem State.ordinary_of_far (far : 12 ≤ state.number.toNat) :
    state.isLiteralBody = false ∧ state.isNumeral = false := by
  have apart (other : State) (near : other.number.toNat < 12) : (state == other) = false := by
    rw [beq_eq_false_iff_ne]
    intro same
    rw [same] at far
    omega
  constructor
  · simp only [State.isLiteralBody, apart .stringBody (by decide), apart .stringEscape (by decide),
      apart .charOpen (by decide), apart .charEscape (by decide), apart .charBody (by decide), Bool.or_self]
  · simp only [State.isNumeral, apart .integer (by decide), apart .point (by decide), apart .fraction (by decide),
      Bool.or_self]

namespace Builder

-- Spellings among which words are told by their first character.
structure Vocabulary (entries : List Entry) : Prop where
  plain : ∀ entry ∈ entries, ∀ c ∈ entry.spelling, isBlank c = false ∧ c.isDigit = false
  words : ∀ entry ∈ entries, entry.isWord = entry.spelling.head?.any isLetter
  letters : ∀ entry ∈ entries, entry.isWord = true → ∀ c ∈ entry.spelling, isLetter c = true
  marks : ∀ entry ∈ entries, entry.isReserved = false → entry.spelling.length = 1

structure Named (base : Builder) : Prop where
  begins : base.edges.find? (.start, .letter) = some .ident
  letter : base.edges.find? (.ident, .letter) = some .ident
  digit : base.edges.find? (.ident, .digit) = some .ident
  ends : ∀ c, base.edges.find? (.ident, .exact c) = none
  free : ∀ c, isLetter c = true → base.edges.find? (.start, .exact c) = none
  accepts : base.accepting.find? .ident = some .identifier

-- The state behind letters and digits: that of a reserved run, or that of names.
def wordState (entries : List Entry) (run : List Char) : State :=
  if run ∈ nodesOf entries then place (nodesOf entries) run else .ident

namespace Vocabulary

theorem of_subset {entries others : List Entry} (vocabulary : Vocabulary entries) (within : others ⊆ entries) :
    Vocabulary others where
  plain entry among := vocabulary.plain entry (within among)
  words entry among := vocabulary.words entry (within among)
  letters entry among := vocabulary.letters entry (within among)
  marks entry among := vocabulary.marks entry (within among)

variable {entries : List Entry} {run : List Char} (vocabulary : Vocabulary entries)
include vocabulary

theorem plain_run (member : run ∈ nodesOf entries) : ∀ c ∈ run, isBlank c = false ∧ c.isDigit = false := by
  obtain ⟨_, entry, among, starts⟩ := mem_nodesOf.mp member
  exact fun c inside => vocabulary.plain entry among c (starts.subset inside)

theorem isWord_of_prefix (among : entry ∈ entries) (starts : run <+: entry.spelling)
    (letters : run.head?.any isLetter = true) : entry.isWord = true := by
  rw [vocabulary.words entry among, ← letters]
  obtain ⟨more, same⟩ := starts
  rw [← same]
  cases run with
  | nil => cases letters
  | cons c run => rfl

theorem letters_run (member : run ∈ nodesOf entries) (letters : run.head?.any isLetter = true) :
    ∀ c ∈ run, isLetter c = true := by
  obtain ⟨_, entry, among, starts⟩ := mem_nodesOf.mp member
  have word := vocabulary.isWord_of_prefix among starts letters
  exact fun c inside => vocabulary.letters entry among word c (starts.subset inside)

-- What letters spell is a name, unless an entry spells just them.
theorem kindAt_letters (member : run ∈ nodesOf entries) (letters : run.head?.any isLetter = true) :
    kindAt entries run = some ((lastKind? entries run).getD .identifier) := by
  rw [kindAt]
  cases spelled : lastKind? entries run with
  | some kind => rfl
  | none =>
    obtain ⟨_, entry, among, starts⟩ := mem_nodesOf.mp member
    have word := vocabulary.isWord_of_prefix among starts letters
    have longer : run ≠ entry.spelling := by
      intro same
      have none := List.findSome?_eq_none_iff.mp spelled entry (List.mem_reverse.mpr among)
      rw [if_pos same.symm] at none
      cases entry with
      | word | symbol | mark => cases none
      | edge | accept => cases word
    rw [Option.none_or, if_pos ⟨entry, among, word, starts, longer⟩]
    rfl

end Vocabulary

namespace Grown

variable {base : Builder} {entries : List Entry} {run rest : List Char} {scanner : Scanner}

section Runs

variable (grown : Grown base entries automaton)
include grown

theorem ordinary (member : run ∈ nodesOf entries) : (place (nodesOf entries) run).isLiteralBody = false ∧
    (place (nodesOf entries) run).isNumeral = false := State.ordinary_of_far (grown.far member)

theorem outside (inside : run = [] ∨ run ∈ nodesOf entries) :
    (place (nodesOf entries) run).isLiteralBody = false := by
  rcases inside with rfl | member
  · rfl
  · exact (grown.ordinary member).1

variable (vocabulary : Vocabulary entries)
include vocabulary

theorem onReservedPath_of_longer (member : run ∈ nodesOf entries) (goesOn : run ++ [c] ∈ nodesOf entries) :
    automaton.onReservedPath (place (nodesOf entries) run) = true := by
  obtain ⟨_, entry, among, starts⟩ := mem_nodesOf.mp goesOn
  refine (grown.onReservedPath_run member).mpr ⟨entry, among, ?_, (List.prefix_append run [c]).trans starts⟩
  cases reserved : entry.isReserved with
  | true => rfl
  | false =>
    have single := vocabulary.marks entry among reserved
    have full : run ≠ [] := fun empty => nodesOf_full entries (empty ▸ member)
    have long := starts.length_le
    have positive := List.length_pos_iff.mpr full
    rw [List.length_append, List.length_singleton] at long
    omega

theorem categorize_run (inside : run = [] ∨ run ∈ nodesOf entries) (goesOn : run ++ [c] ∈ nodesOf entries) :
    automaton.categorize (place (nodesOf entries) run) c = .exact c := by
  have outside := grown.outside inside
  have digit : c.isDigit = false := (vocabulary.plain_run goesOn c (by simp)).2
  cases letter : isLetter c with
  | false => exact categorize_other outside digit letter
  | true =>
    have edge : automaton.hasEdge (place (nodesOf entries) run) (.exact c) = true := by
      rw [Automaton.hasEdge, grown.step_exact inside goesOn]
      rfl
    rw [categorize_letter outside letter, edge, Bool.and_true, if_pos]
    rcases inside with rfl | member
    · rfl
    · rw [grown.onReservedPath_of_longer vocabulary member goesOn, Bool.or_true]

theorem reaches_run (fresh : scanner.Fresh) (member : run ∈ nodesOf entries) :
    scanner.Reaches automaton run (.state (place (nodesOf entries) run)) := by
  induction run using List.reverseRecOn with
  | nil => exact absurd member (nodesOf_full entries)
  | append_singleton front c ih =>
    have inside := nodesOf_closed member
    have reaches : scanner.Reaches automaton front (.state (place (nodesOf entries) front)) := by
      rcases inside with rfl | earlier
      · exact fresh.reaches
      · exact ih earlier
    have plain : isBlank c = false := (vocabulary.plain_run member c (by simp)).1
    refine reaches.step (.inl plain) ?_
    rw [grown.categorize_run vocabulary inside member, grown.step_exact inside member]

end Runs

section Words

variable (grown : Grown base entries automaton) (named : Named base)
include grown named

theorem step_ident (word : isWordChar c = true) :
    automaton.step .ident (automaton.categorize .ident c) = some .ident := by
  have outside : State.ident.isLiteralBody = false := by decide
  cases digit : c.isDigit with
  | true =>
    rw [categorize_digit outside digit, grown.step_fixed (by decide) (by decide)]
    exact named.digit
  | false =>
    have letter : isLetter c = true := by simpa [isWordChar, digit] using word
    have path : automaton.onReservedPath .ident = false := grown.onReservedPath_fixed (by decide)
    rw [categorize_letter outside letter, path, show (State.ident == .start) = false by decide, Bool.or_self,
      Bool.false_and, if_neg Bool.false_ne_true, grown.step_fixed (by decide) (by decide)]
    exact named.letter

omit named in
theorem step_word (member : run ∈ nodesOf entries) (word : isWordChar c = true)
    (past : run ++ [c] ∉ nodesOf entries) :
    automaton.step (place (nodesOf entries) run) (automaton.categorize (place (nodesOf entries) run) c) =
      if ∃ entry ∈ entries, entry.isWord = true ∧ entry.spelling = run then some .ident else none := by
  have outside := (grown.ordinary member).1
  cases digit : c.isDigit with
  | true => rw [categorize_digit outside digit, grown.step_run member, edgeAt]
  | false =>
    have letter : isLetter c = true := by simpa [isWordChar, digit] using word
    have edge : automaton.hasEdge (place (nodesOf entries) run) (.exact c) = false := by
      rw [Automaton.hasEdge, grown.step_exact_none member past]
      rfl
    rw [categorize_letter outside letter, edge, Bool.and_false, if_neg Bool.false_ne_true, grown.step_run member,
      edgeAt]

variable (vocabulary : Vocabulary entries)
include vocabulary

omit named in
-- A beginning of a word that is none itself becomes a name where it does not go on.
theorem becomesName_run (member : run ∈ nodesOf entries) (letters : run.head?.any isLetter = true)
    (word : isWordChar c = true) (partly : ¬ ∃ entry ∈ entries, entry.isWord = true ∧ entry.spelling = run) :
    automaton.becomesName (place (nodesOf entries) run) run c = true := by
  obtain ⟨_, entry, among, starts⟩ := mem_nodesOf.mp member
  have isWord := vocabulary.isWord_of_prefix among starts letters
  have reserved : entry.isReserved = true := by cases entry <;> first | rfl | cases isWord
  have path : automaton.onReservedPath (place (nodesOf entries) run) = true :=
    (grown.onReservedPath_run member).mpr ⟨entry, among, reserved, starts⟩
  have going : automaton.endsReserved (place (nodesOf entries) run) = false := by
    cases ends : automaton.endsReserved (place (nodesOf entries) run) with
    | false => rfl
    | true =>
      obtain ⟨other, otherAmong, _, same⟩ := (grown.endsReserved_run member).mp ends
      have otherWord := vocabulary.isWord_of_prefix otherAmong (same ▸ List.prefix_rfl) letters
      exact absurd ⟨other, otherAmong, otherWord, same.symm⟩ partly
  rw [Automaton.becomesName, path, going, letters, word]
  rfl

theorem goOnWord (fresh : scanner.Fresh) (reaches : scanner.Reaches automaton run (.state (wordState entries run)))
    (letters : run.head?.any isLetter = true) (word : isWordChar c = true) :
    scanner.Reaches automaton (run ++ [c]) (.state (wordState entries (run ++ [c]))) := by
  have plain := not_isBlank_of_isWordChar word
  by_cases longer : run ++ [c] ∈ nodesOf entries
  · rw [wordState, if_pos longer]
    exact grown.reaches_run vocabulary fresh longer
  · rw [wordState, if_neg longer]
    by_cases member : run ∈ nodesOf entries
    · rw [wordState, if_pos member] at reaches
      have step := grown.step_word member word longer
      by_cases whole : ∃ entry ∈ entries, entry.isWord = true ∧ entry.spelling = run
      · rw [if_pos whole] at step
        exact reaches.step (.inl plain) step
      · rw [if_neg whole] at step
        exact reaches.becomeName fresh (.inl plain) step (grown.becomesName_run vocabulary member letters word whole)
          (.inl plain) (grown.step_ident named word)
    · rw [wordState, if_neg member] at reaches
      exact reaches.step (.inl plain) (grown.step_ident named word)

theorem reaches_letter (fresh : scanner.Fresh) (letter : isLetter c = true) :
    scanner.Reaches automaton [c] (.state (wordState entries [c])) := by
  by_cases member : [c] ∈ nodesOf entries
  · rw [wordState, if_pos member]
    exact grown.reaches_run vocabulary fresh member
  · rw [wordState, if_neg member]
    have plain : isBlank c = false := not_isBlank_of_isWordChar (by rw [isWordChar, letter, Bool.true_or])
    have edge : automaton.hasEdge .start (.exact c) = false := by
      rw [Automaton.hasEdge, grown.step_start, edgeAt, List.nil_append, if_neg member, named.free c letter]
      rfl
    have category : automaton.categorize .start c = .letter := by
      rw [categorize_letter (by decide) letter, edge, Bool.and_false, if_neg Bool.false_ne_true]
    have step : automaton.step .start .letter = some .ident := by
      rw [grown.step_start, edgeAt, if_neg]
      · exact named.begins
      · intro spelled
        obtain ⟨entry, among, _, empty⟩ := spelled
        exact grown.full entry among empty
    have begun : scanner.Reaches automaton [] (.state .start) := fresh.reaches
    refine begun.step (.inl plain) ?_
    rw [category, step]

theorem reaches_word (fresh : scanner.Fresh) (letter : isLetter c = true) (more : List Char)
    (words : ∀ d ∈ more, isWordChar d = true) :
    scanner.Reaches automaton (c :: more) (.state (wordState entries (c :: more))) := by
  induction more using List.reverseRecOn with
  | nil => exact grown.reaches_letter named vocabulary fresh letter
  | append_singleton more d ih =>
    obtain ⟨front, last⟩ := List.forall_mem_append.mp words
    exact grown.goOnWord named vocabulary fresh (ih front) letter (last d (List.mem_singleton_self d))

omit named vocabulary in
theorem wordState_ordinary (run : List Char) :
    (wordState entries run).isLiteralBody = false ∧ (wordState entries run).isNumeral = false := by
  unfold wordState
  split
  · next member => exact grown.ordinary member
  · decide

theorem ends_word (run : List Char) (past : ∀ c ∈ rest.head?, isWordChar c = false)
    (letters : run.head?.any isLetter = true) : Ends automaton (wordState entries run) run rest := by
  intro c head
  have ⟨outside, numeral⟩ := grown.wordState_ordinary run
  have ⟨letter, digit⟩ := Bool.or_eq_false_iff.mp (past c head)
  by_cases blank : isBlank c = true
  · exact .inl ⟨blank, outside⟩
  · refine .inr ⟨?_, ?_, by rw [numeral, Bool.false_and]⟩
    · rw [categorize_other outside digit letter, wordState]
      split
      · next member =>
        refine grown.step_exact_none member fun longer => ?_
        have still := vocabulary.letters_run longer
          (by cases run <;> first | cases letters | exact letters) c (by simp)
        rw [letter] at still
        cases still
      · rw [grown.step_fixed (by decide) (by decide)]
        exact named.ends c
    · rw [Automaton.becomesName, past c head, Bool.and_false]

theorem classify_word (letters : run.head?.any isLetter = true) :
    automaton.classify (wordState entries run) = some ((lastKind? entries run).getD .identifier) := by
  unfold wordState
  split
  · next member => rw [grown.classify_run member, vocabulary.kindAt_letters member letters]
  · next unreserved =>
    have full : run ≠ [] := by intro rfl; cases letters
    rw [grown.classify_fixed (by decide), lastKind?_eq_none full unreserved]
    exact named.accepts

-- A word is read to its end, and is what the table has for it.
theorem cuts_word (fresh : scanner.Fresh) (letter : isLetter c = true) (more : List Char)
    (words : ∀ d ∈ more, isWordChar d = true) (past : ∀ d ∈ rest.head?, isWordChar d = false) :
    scanner.Cuts automaton ((lastKind? entries (c :: more)).getD .identifier) (c :: more) rest := by
  have reaches := grown.reaches_word named vocabulary fresh letter more words
  have cuts := reaches.cuts fresh (List.cons_ne_nil c more) (grown.ends_word named vocabulary _ past letter)
  have letters : (c :: more).head?.any isLetter = true := letter
  rwa [grown.classify_word named vocabulary letters, Option.getD_some] at cuts

end Words

end Grown

end Builder

end FishLang
