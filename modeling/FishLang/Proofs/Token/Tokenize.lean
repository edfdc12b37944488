import FishLang.Proofs.Automaton.Fish
import FishLang.Proofs.Token.Word
import Mathlib.Data.List.TakeWhile

namespace FishLang

open Builder Scanner

section Vocabulary

-- What is checked on every beginning of a reserved spelling, one after the other.
structure Spelled (run : List Char) : Prop where
  plain : ∀ c ∈ run, isBlank c = false ∧ c.isDigit = false
  letters : run.head?.any isLetter = true → ∀ c ∈ run, isLetter c = true
  word : run.head?.any isLetter = true →
    kindAt reservedEntries run = some ((Lexical.kindOf? wordSpellings run).getD .identifier)
  sign : run.head? = some '<' →
    kindAt reservedEntries run = Lexical.kindOf? angleSpellings run ∧ Lexical.opensSign run = true
  mark : ∀ c ∈ run.head?, isLetter c = false → c ≠ '<' →
    run = [c] ∧ kindAt reservedEntries run = (markSpellings.find? fun row => row.1 = c).map Prod.snd
  unquoted : run ≠ ['"'] ∧ run ≠ ['\'']

-- Told character by character: of a statement about all characters the kernel would try every one there is.
theorem spelled_iff (run : List Char) :
    ((run.all fun c => !isBlank c && !c.isDigit) = true ∧
      (run.head?.any isLetter = true → run.all isLetter = true) ∧
      (run.head?.any isLetter = true →
        kindAt reservedEntries run = some ((Lexical.kindOf? wordSpellings run).getD .identifier)) ∧
      (run.head? = some '<' →
        kindAt reservedEntries run = Lexical.kindOf? angleSpellings run ∧ Lexical.opensSign run = true) ∧
      (run.head?.all fun c => isLetter c || c == '<' ||
        (run == [c] && kindAt reservedEntries run == (markSpellings.find? fun row => row.1 = c).map Prod.snd)) = true ∧
      run ≠ ['"'] ∧ run ≠ ['\'']) ↔ Spelled run := by
  constructor
  · intro ⟨plain, letters, word, sign, mark, unquoted⟩
    refine ⟨by simpa using plain, by simpa using letters, word, sign, ?_, unquoted⟩
    intro c head other apart
    have mark := (Option.all_eq_true _ _).mp mark c head
    simpa [other, apart] using mark
  · intro ⟨plain, letters, word, sign, mark, unquoted⟩
    refine ⟨by simpa using plain, by simpa using letters, word, sign, ?_, unquoted⟩
    rw [Option.all_eq_true]
    intro c head
    cases letter : isLetter c with
    | true => simp
    | false =>
      by_cases angle : c = '<'
      · simp [angle]
      · simpa [angle] using mark c head letter angle

instance (run : List Char) : Decidable (Spelled run) := decidable_of_iff _ (spelled_iff run)

theorem reservedRuns_spelled : ∀ run ∈ reservedRuns, Spelled run := by decide +kernel

theorem sign_mem : ['<'] ∈ reservedRuns := by decide +kernel

theorem reservedEntries_words : ∀ entry ∈ reservedEntries, entry.isWord = entry.spelling.head?.any isLetter := by
  decide +kernel

theorem fish_vocabulary : Vocabulary reservedEntries where
  plain entry among c inside := by
    have whole : entry.spelling ∈ reservedRuns :=
      mem_nodesOf.mpr ⟨reservedEntries_full entry among, entry, among, List.prefix_rfl⟩
    exact (reservedRuns_spelled _ whole).plain c inside
  words := reservedEntries_words
  letters entry among word := by
    have whole : entry.spelling ∈ reservedRuns :=
      mem_nodesOf.mpr ⟨reservedEntries_full entry among, entry, among, List.prefix_rfl⟩
    exact (reservedRuns_spelled _ whole).letters (reservedEntries_words entry among ▸ word)
  marks := by decide +kernel

theorem fishBase_named : Named fishBase where
  begins := rfl
  letter := rfl
  digit := rfl
  ends _ := rfl
  free c letter := by
    have unquoted : c ≠ '"' ∧ c ≠ '\'' := by
      constructor
      · rintro rfl
        exact absurd letter (by decide)
      · rintro rfl
        exact absurd letter (by decide)
    rw [fishBase_start_exact, if_neg unquoted.1, if_neg unquoted.2]
  accepts := rfl

end Vocabulary

theorem spot_free (member : run ∈ reservedRuns) : (spot run).isLiteralBody = false ∧ (spot run).isNumeral = false :=
  fish_grown.ordinary member

section Runs

variable {scanner : Scanner} {run rest : List Char} {c : Char}

theorem reaches_run (fresh : scanner.Fresh) (member : run ∈ reservedRuns) :
    scanner.Reaches fishAutomaton run (.state (spot run)) :=
  fish_grown.reaches_run fish_vocabulary fresh member

theorem step_exact_none (member : run ∈ reservedRuns) (past : run ++ [c] ∉ reservedRuns) :
    fishAutomaton.step (spot run) (.exact c) = none :=
  fish_grown.step_exact_none member past

theorem cuts_sign (fresh : scanner.Fresh) (member : run ∈ reservedRuns) (symbol : run.head?.any isLetter = false)
    (past : ∀ c ∈ rest.head?, run ++ [c] ∉ reservedRuns) :
    scanner.Cuts fishAutomaton ((kindAt reservedEntries run).getD .unrecognized) run rest := by
  rw [← classify_run member]
  have full : run ≠ [] := fun empty => reservedRuns_full (empty ▸ member)
  refine (reaches_run fresh member).cuts fresh full fun c head => ?_
  have ⟨outside, numeral⟩ := spot_free member
  have wordless : ¬ ∃ entry ∈ reservedEntries, entry.isWord = true ∧ entry.spelling = run := by
    intro ⟨entry, among, word, same⟩
    rw [reservedEntries_words entry among, same, symbol] at word
    cases word
  have none := step_exact_none member (past c head)
  by_cases blank : isBlank c = true
  · exact .inl ⟨blank, outside⟩
  · refine .inr ⟨?_, ?_, by rw [numeral, Bool.false_and]⟩
    · cases digit : c.isDigit with
      | true => rw [categorize_digit outside digit, step_run member, edgeAt, if_neg wordless]
      | false =>
        cases letter : isLetter c with
        | false => rw [categorize_other outside digit letter, none]
        | true =>
          have edge : fishAutomaton.hasEdge (spot run) (.exact c) = false := by rw [Automaton.hasEdge, none]; rfl
          rw [categorize_letter outside letter, edge, Bool.and_false, if_neg Bool.false_ne_true, step_run member,
            edgeAt, if_neg wordless]
    · rw [Automaton.becomesName, symbol, Bool.and_false, Bool.false_and]

end Runs

section Words

variable {scanner : Scanner} {run rest : List Char} {c : Char}

theorem kindOf?_eq_none (full : run ≠ []) (unreserved : run ∉ reservedRuns) :
    Lexical.kindOf? wordSpellings run = none := by
  rw [Lexical.kindOf?, Option.map_eq_none_iff, List.find?_eq_none]
  intro row among same
  have spelled : row.1.toList = run := by simpa using same
  refine unreserved (mem_nodesOf.mpr ⟨full, .word row.1 row.2, ?_, spelled ▸ List.prefix_rfl⟩)
  exact List.mem_append_left _ (List.mem_append_left _ (List.mem_map_of_mem among))

theorem lastKind?_word (letters : run.head?.any isLetter = true) : (lastKind? reservedEntries run).getD .identifier =
    (Lexical.kindOf? wordSpellings run).getD .identifier := by
  by_cases member : run ∈ reservedRuns
  · have spelled := (reservedRuns_spelled run member).word letters
    rw [fish_vocabulary.kindAt_letters member letters] at spelled
    exact Option.some.inj spelled
  · have full : run ≠ [] := by intro rfl; cases letters
    rw [lastKind?_eq_none full member, kindOf?_eq_none full member]

theorem not_of_head_dropWhile (p : Char → Bool) (cs : List Char) : ∀ c ∈ (cs.dropWhile p).head?, p c = false := by
  intro c head
  have first := List.head?_dropWhile_not p cs
  rw [Option.mem_def.mp head] at first
  exact first

-- What the lexical grammar says about the first token is what is given out.
def Scanner.Yields (scanner : Scanner) (cs : List Char) (result : Kind × List Char) : Prop :=
  ∃ back, result.2 ≠ [] ∧ result.2 ++ back = cs ∧ scanner.Cuts fishAutomaton result.1 result.2 back

theorem yields_word (fresh : scanner.Fresh) (letter : isLetter c = true) :
    scanner.Yields (c :: rest) (Lexical.word (c :: rest)) := by
  have taken : (c :: rest).takeWhile isWordChar = c :: rest.takeWhile isWordChar := by
    rw [List.takeWhile_cons, isWordChar, letter, Bool.true_or, if_pos rfl]
  have letters : ((c :: rest).takeWhile isWordChar).head?.any isLetter = true := by rw [taken]; exact letter
  refine ⟨(c :: rest).dropWhile isWordChar, ?_, List.takeWhile_append_dropWhile, ?_⟩
  · change (c :: rest).takeWhile isWordChar ≠ []
    rw [taken]
    exact List.cons_ne_nil _ _
  · change scanner.Cuts fishAutomaton ((Lexical.kindOf? wordSpellings _).getD .identifier)
      ((c :: rest).takeWhile isWordChar) _
    rw [← lastKind?_word letters, taken]
    exact fish_grown.cuts_word fishBase_named fish_vocabulary fresh letter _
      (fun d member => List.mem_takeWhile_imp member) (not_of_head_dropWhile isWordChar _)

end Words

section Signs

variable {scanner : Scanner} {run rest : List Char} {c : Char}

theorem mem_of_opensSign (full : run ≠ []) (opens : Lexical.opensSign run = true) : run ∈ reservedRuns := by
  obtain ⟨row, among, starts⟩ := List.any_eq_true.mp opens
  refine mem_nodesOf.mpr ⟨full, .symbol row.1 row.2, ?_, List.isPrefixOf_iff_prefix.mp starts⟩
  exact List.mem_append_left _ (List.mem_append_right _ (List.mem_map_of_mem among))

theorem yields_sign (fresh : scanner.Fresh) : scanner.Yields ('<' :: rest) (Lexical.sign ('<' :: rest)) := by
  have allowed : Lexical.opensSign ['<'] = true := ((reservedRuns_spelled _ sign_mem).sign rfl).2
  have member : ['<'] ∈ ('<' :: rest).inits.filter Lexical.opensSign :=
    List.mem_filter.mpr ⟨(List.mem_inits _ _).mpr (by simp), allowed⟩
  cases last : (('<' :: rest).inits.filter Lexical.opensSign).getLast? with
  | none =>
    rw [List.getLast?_eq_none_iff.mp last] at member
    cases member
  | some run =>
    obtain ⟨⟨back, whole⟩, opens, most⟩ := Lexical.longest_of_getLast? last
    obtain ⟨more, starts⟩ := most ['<'] (by simp) allowed
    have full : run ≠ [] := by rw [← starts]; exact List.cons_ne_nil _ _
    have head : run.head? = some '<' := by rw [← starts]; rfl
    have inside := mem_of_opensSign full opens
    have cut : Lexical.sign ('<' :: rest) = ((Lexical.kindOf? angleSpellings run).getD .unrecognized, run) := by
      unfold Lexical.sign
      rw [last]
      rfl
    rw [cut]
    refine ⟨back, full, whole, ?_⟩
    rw [← ((reservedRuns_spelled run inside).sign head).1]
    refine cuts_sign fresh inside (by rw [head]; decide) fun c next longer => ?_
    have headLonger : (run ++ [c]).head? = some '<' := by rw [← starts]; rfl
    obtain ⟨tail, same⟩ : ∃ tail, back = c :: tail := ⟨back.tail, (List.cons_head?_tail next).symm⟩
    have begins : run ++ [c] <+: '<' :: rest := ⟨tail, by rw [← whole, same]; simp⟩
    have short := (most _ begins ((reservedRuns_spelled _ longer).sign headLonger).2).length_le
    rw [List.length_append, List.length_singleton] at short
    omega

theorem yields_one (fresh : scanner.Fresh) (plain : isBlank c = false) (letter : isLetter c = false)
    (digit : c.isDigit = false) (sign : c ≠ '<') (unquoted : c ≠ '"' ∧ c ≠ '\'') :
    scanner.Yields (c :: rest) (((markSpellings.find? fun row => row.1 = c).map Prod.snd).getD .unrecognized, [c]) := by
  refine ⟨rest, List.cons_ne_nil _ _, rfl, ?_⟩
  by_cases member : [c] ∈ reservedRuns
  · rw [← ((reservedRuns_spelled _ member).mark c rfl letter sign).2]
    refine cuts_sign fresh member letter fun d _ longer => ?_
    have single := ((reservedRuns_spelled _ longer).mark c rfl letter sign).1
    cases single
  · have unmarked : markSpellings.find? (fun row => row.1 = c) = none := by
      rw [List.find?_eq_none]
      intro row among same
      have spelled : row.1 = c := by simpa using same
      refine member (mem_nodesOf.mpr ⟨List.cons_ne_nil _ _, .mark row.1 row.2, ?_, ?_⟩)
      · exact List.mem_append_right _ (List.mem_map_of_mem among)
      · rw [← spelled]
        exact List.prefix_rfl
    rw [unmarked]
    refine fresh.cutsOne plain ?_
    rw [categorize_other (by decide) digit letter, step_start, edgeAt, List.nil_append, if_neg member,
      fishBase_start_exact, if_neg unquoted.1, if_neg unquoted.2]
    rfl

end Signs

section Numerals

variable {scanner : Scanner} {run back rest : List Char} {c : Char} {state : State}

theorem not_isBlank_of_isDigit (digit : c.isDigit = true) : isBlank c = false :=
  not_isBlank_of_isWordChar (by rw [isWordChar, digit, Bool.or_true])

theorem reaches_digits (reaches : scanner.Reaches fishAutomaton run (.state state))
    (outside : state.isLiteralBody = false) (loop : fishAutomaton.step state .digit = some state)
    (more : List Char) (digits : ∀ c ∈ more, c.isDigit = true) :
    scanner.Reaches fishAutomaton (run ++ more) (.state state) := by
  induction more generalizing run with
  | nil =>
    rw [List.append_nil]
    exact reaches
  | cons c more ih =>
    have digit := digits c (List.mem_cons_self ..)
    rw [List.append_cons]
    refine ih (reaches.step (.inl (not_isBlank_of_isDigit digit)) ?_) fun d member =>
      digits d (List.mem_cons_of_mem c member)
    rw [categorize_digit outside digit, loop]

def numeralStates : List State := [.integer, .point, .fraction]

theorem numeralStates_plain : ∀ state ∈ numeralStates, state.isLiteralBody = false ∧ state.isNumeral = true ∧
    state ≠ .start ∧ state.number.toNat < 12 := by decide

theorem numeral_becomesName (numeral : state ∈ numeralStates) :
    fishAutomaton.becomesName state run c = false := by
  obtain ⟨_, _, _, fixed⟩ := numeralStates_plain state numeral
  rw [Automaton.becomesName, onReservedPath_fixed fixed, Bool.false_and, Bool.false_and, Bool.false_and]

theorem numeral_step_letter (numeral : state ∈ numeralStates) (letter : isLetter c = true) :
    fishAutomaton.step state (fishAutomaton.categorize state c) = none := by
  obtain ⟨outside, _, behind, fixed⟩ := numeralStates_plain state numeral
  have apart : (state == State.start) = false := beq_eq_false_iff_ne.mpr behind
  rw [categorize_letter outside letter, onReservedPath_fixed fixed, apart, Bool.or_self, Bool.false_and,
    if_neg Bool.false_ne_true]
  refine step_fixed behind fixed ?_
  revert state
  decide

theorem fishBase_numeral_exact (numeral : state ∈ numeralStates) (other : state = .integer → c ≠ '.') :
    fishBase.edges.find? (state, .exact c) = none := by
  cases found : fishBase.edges.find? (state, .exact c) with
  | none => rfl
  | some target =>
    have known : ∀ row ∈ fishBase.edges.entries, row.1.1 ∈ numeralStates →
        row.1.2 = .digit ∨ row.1 = (.integer, .exact '.') := by decide +kernel
    rcases known _ (Table.mem_of_find? found) numeral with digit | point
    · cases digit
    · cases point
      exact absurd rfl (other rfl)

theorem reaches_broken (reaches : scanner.Reaches fishAutomaton run .brokenNumeral) (more : List Char)
    (words : ∀ c ∈ more, isWordChar c = true) : scanner.Reaches fishAutomaton (run ++ more) .brokenNumeral := by
  induction more generalizing run with
  | nil =>
    rw [List.append_nil]
    exact reaches
  | cons c more ih =>
    rw [List.append_cons]
    exact ih (reaches.goOnBroken (words c (List.mem_cons_self ..))) fun d member =>
      words d (List.mem_cons_of_mem c member)

-- A numeral that has reached its last state is given out, or takes the letters and digits that it runs into.
theorem yields_number (fresh : scanner.Fresh) (reaches : scanner.Reaches fishAutomaton run (.state state))
    (numeral : state ∈ numeralStates) (full : run ≠ [])
    (past : ∀ c ∈ back.head?, c.isDigit = false ∧ (state = .integer → c ≠ '.'))
    (read : Lexical.digits (run ++ back) = run)
    (accepts : (fishAutomaton.classify state).getD .unrecognized =
      if run.getLast? = some '.' then .unrecognized else .number) :
    scanner.Yields (run ++ back) (Lexical.numeral (run ++ back)) := by
  obtain ⟨outside, isNumeral, behind, fixed⟩ := numeralStates_plain state numeral
  unfold Lexical.numeral
  rw [read]
  dsimp only
  rw [List.drop_left]
  cases met : back.head?.any isLetter with
  | true =>
    rw [if_pos rfl]
    obtain ⟨c, tail, rfl, letter⟩ : ∃ c tail, back = c :: tail ∧ isLetter c = true := by
      cases back with
      | nil => cases met
      | cons c tail => exact ⟨c, tail, rfl, met⟩
    have word : isWordChar c = true := by rw [isWordChar, letter, Bool.true_or]
    have broken := reaches.breakNumeral (not_isBlank_of_isWordChar word) (numeral_step_letter numeral letter)
      (numeral_becomesName numeral) fresh ⟨isNumeral, letter⟩
    have taken : (c :: tail).takeWhile isWordChar = c :: tail.takeWhile isWordChar := by
      rw [List.takeWhile_cons, if_pos word]
    refine ⟨(c :: tail).dropWhile isWordChar, by simp [full], ?_, ?_⟩
    · rw [List.append_assoc, List.takeWhile_append_dropWhile]
    · refine Reaches.cutsBroken ?_ fresh (not_of_head_dropWhile isWordChar _)
      rw [taken, List.append_cons]
      exact reaches_broken broken _ fun d member => List.mem_takeWhile_imp member
  | false =>
    rw [if_neg Bool.false_ne_true]
    have ends : Ends fishAutomaton state run back := by
      intro c head
      have letter : isLetter c = false := by
        rw [Option.mem_def.mp head] at met
        exact met
      by_cases blank : isBlank c = true
      · exact .inl ⟨blank, outside⟩
      · refine .inr ⟨?_, numeral_becomesName numeral, by rw [letter, Bool.and_false]⟩
        obtain ⟨digit, other⟩ := past c head
        rw [categorize_other outside digit letter]
        exact step_fixed behind fixed (fishBase_numeral_exact numeral other)
    have cuts := reaches.cuts fresh full ends
    rw [accepts] at cuts
    by_cases point : run.getLast? = some '.'
    · rw [if_pos point] at cuts ⊢
      exact ⟨back, full, rfl, cuts⟩
    · rw [if_neg point] at cuts ⊢
      exact ⟨back, full, rfl, cuts⟩

theorem getLast?_digits (full : run ≠ []) (digits : ∀ c ∈ run, c.isDigit = true) (front : List Char) :
    (front ++ run).getLast? ≠ some '.' := by
  intro last
  rw [List.getLast?_append_of_ne_nil _ full] at last
  exact absurd (digits '.' (List.mem_of_getLast? last)) (by decide)

theorem reaches_integer (fresh : scanner.Fresh) (digit : c.isDigit = true) (more : List Char)
    (digits : ∀ d ∈ more, d.isDigit = true) : scanner.Reaches fishAutomaton (c :: more) (.state .integer) := by
  have begun : scanner.Reaches fishAutomaton [] (.state .start) := fresh.reaches
  have first : fishAutomaton.step .start .digit = some .integer := by
    rw [step_start, edgeAt, if_neg]
    · rfl
    · intro spelled
      obtain ⟨entry, among, _, empty⟩ := spelled
      exact reservedEntries_full entry among empty
  have one := begun.step (.inl (not_isBlank_of_isDigit digit))
    ((congrArg _ (categorize_digit (by decide) digit)).trans first)
  exact reaches_digits one (by decide) (step_fixed (by decide) (by decide) rfl) more digits

theorem reaches_point (reaches : scanner.Reaches fishAutomaton run (.state .integer)) :
    scanner.Reaches fishAutomaton (run ++ ['.']) (.state .point) := by
  refine reaches.step (.inl (by decide)) ?_
  rw [categorize_other (by decide) (by decide) (by decide)]
  exact step_fixed (by decide) (by decide) rfl

theorem reaches_fraction (reaches : scanner.Reaches fishAutomaton run (.state .point)) (digit : c.isDigit = true)
    (more : List Char) (digits : ∀ d ∈ more, d.isDigit = true) :
    scanner.Reaches fishAutomaton (run ++ c :: more) (.state .fraction) := by
  have step : fishAutomaton.step .point (fishAutomaton.categorize .point c) = some .fraction := by
    rw [categorize_digit (by decide) digit]
    exact step_fixed (by decide) (by decide) rfl
  have one := reaches.step (.inl (not_isBlank_of_isDigit digit)) step
  rw [List.append_cons]
  exact reaches_digits one (by decide) (step_fixed (by decide) (by decide) rfl) more digits

theorem yields_numeral (fresh : scanner.Fresh) (digit : c.isDigit = true) :
    scanner.Yields (c :: rest) (Lexical.numeral (c :: rest)) := by
  have whole : (c :: rest).takeWhile Char.isDigit = c :: rest.takeWhile Char.isDigit := by
    rw [List.takeWhile_cons, if_pos digit]
  have digits : ∀ d ∈ c :: rest.takeWhile Char.isDigit, d.isDigit = true := by
    rw [← whole]
    exact fun d member => List.mem_takeWhile_imp member
  have integer := reaches_integer fresh digit (rest.takeWhile Char.isDigit) fun d member =>
    digits d (List.mem_cons_of_mem c member)
  have past := not_of_head_dropWhile Char.isDigit (c :: rest)
  generalize left : (c :: rest).dropWhile Char.isDigit = back at past
  have split : c :: rest = (c :: rest.takeWhile Char.isDigit) ++ back := by
    rw [← left, ← whole, List.takeWhile_append_dropWhile]
  by_cases pointed : ∃ more, back = '.' :: more
  · obtain ⟨more, rfl⟩ := pointed
    have number := Lexical.digits_pointed left
    have point := reaches_point integer
    have overMore := not_of_head_dropWhile Char.isDigit more
    have fraction : ∀ d ∈ more.takeWhile Char.isDigit, d.isDigit = true := fun d member =>
      List.mem_takeWhile_imp member
    have behind : more.takeWhile Char.isDigit ++ more.dropWhile Char.isDigit = more :=
      List.takeWhile_append_dropWhile
    rw [whole] at number
    generalize c :: rest.takeWhile Char.isDigit = run at *
    generalize more.takeWhile Char.isDigit = decimals at *
    generalize more.dropWhile Char.isDigit = back at *
    have both : c :: rest = (run ++ '.' :: decimals) ++ back := by rw [split, ← behind]; simp
    have read : Lexical.digits ((run ++ '.' :: decimals) ++ back) = run ++ '.' :: decimals := by rw [← both, number]
    rw [both]
    cases decimals with
    | nil =>
      refine yields_number fresh point (by decide) (by simp) (fun d head => ⟨overMore d head, nofun⟩) read ?_
      rw [if_pos List.getLast?_concat, classify_fixed (by decide) rfl]
      rfl
    | cons d decimals =>
      have reaches := reaches_fraction point (fraction d (List.mem_cons_self ..)) decimals fun e member =>
        fraction e (List.mem_cons_of_mem d member)
      rw [← List.append_cons] at reaches
      refine yields_number fresh reaches (by decide) (by simp) (fun d head => ⟨overMore d head, nofun⟩) read ?_
      have last := getLast?_digits (List.cons_ne_nil _ _) fraction (run ++ ['.'])
      rw [← List.append_cons] at last
      rw [if_neg last, classify_fixed (by decide) rfl]
      rfl
  · have number := Lexical.digits_whole fun more same => pointed ⟨more, left.symm.trans same⟩
    rw [whole] at number
    have read : Lexical.digits ((c :: rest.takeWhile Char.isDigit) ++ back) = c :: rest.takeWhile Char.isDigit := by
      rw [← split, number]
    rw [split]
    refine yields_number fresh integer (by decide) (List.cons_ne_nil _ _) ?_ read ?_
    · intro d head
      refine ⟨past d head, fun _ point => pointed ⟨back.tail, ?_⟩⟩
      rw [← point]
      exact (List.cons_head?_tail head).symm
    · have last := getLast?_digits (List.cons_ne_nil _ _) digits []
      rw [List.nil_append] at last
      rw [if_neg last, classify_fixed (by decide) rfl]
      rfl

end Numerals

section Literals

variable {scanner : Scanner} {run rest : List Char} {c : Char} {state : State}

theorem categorize_escape (escape : state.isEscape = true) : fishAutomaton.categorize state c = .literal := by
  rw [Automaton.categorize, if_pos escape]

theorem categorize_string : fishAutomaton.categorize .stringBody c =
    if c = '"' ∨ c = '\\' then .exact c else .literal := by
  rw [Automaton.categorize, if_neg (by decide), if_pos (by decide), if_pos rfl]

theorem categorize_char (char : state = .charOpen ∨ state = .charBody) : fishAutomaton.categorize state c =
    if c = '\'' ∨ c = '\\' then .exact c else .literal := by
  have apart : state ≠ .stringBody := by rcases char with rfl | rfl <;> decide
  have body : state.isEscape = false ∧ state.isLiteralBody = true := by rcases char with rfl | rfl <;> decide
  rw [Automaton.categorize, body.1, body.2, if_neg Bool.false_ne_true, if_pos rfl, if_neg apart]

theorem ends_fixed (behind : state ≠ .start) (fixed : state.number.toNat < 12) (whole : state.isNumeral = false)
    (stuck : ∀ c ∈ rest.head?, fishBase.edges.find? (state, fishAutomaton.categorize state c) = none) :
    Ends fishAutomaton state run rest := by
  intro c head
  refine .inr ⟨step_fixed behind fixed (stuck c head), ?_, by rw [whole, Bool.false_and]⟩
  rw [Automaton.becomesName, onReservedPath_fixed fixed, Bool.false_and, Bool.false_and, Bool.false_and]

theorem reaches_quote (fresh : scanner.Fresh) (quoted : c = '"' ∨ c = '\'') :
    scanner.Reaches fishAutomaton [c] (.state (if c = '"' then .stringBody else .charOpen)) := by
  have begun : scanner.Reaches fishAutomaton [] (.state .start) := fresh.reaches
  have known : isBlank c = false ∧ c.isDigit = false ∧ isLetter c = false := by rcases quoted with rfl | rfl <;> decide
  obtain ⟨plain, digit, letter⟩ := known
  have unreserved : [c] ∉ reservedRuns := fun member => by
    obtain ⟨string, char⟩ := (reservedRuns_spelled _ member).unquoted
    rcases quoted with rfl | rfl
    · exact string rfl
    · exact char rfl
  refine begun.step (.inl plain) ?_
  rw [categorize_other (by decide) digit letter, step_start, edgeAt, List.nil_append, if_neg unreserved,
    fishBase_start_exact]
  rcases quoted with rfl | rfl <;> rfl

theorem Scanner.Reaches.literal (reaches : scanner.Reaches fishAutomaton run (.state state))
    (inside : state.isLiteralBody = true) {category : Category} {target : State}
    (categorized : fishAutomaton.categorize state c = category)
    (found : fishBase.edges.find? (state, category) = some target) :
    scanner.Reaches fishAutomaton (run ++ [c]) (.state target) := by
  have behind : state ≠ .start := by
    intro rfl
    cases inside
  have fixed : state.number.toNat < 12 := by
    simp only [State.isLiteralBody, Bool.or_eq_true, beq_iff_eq] at inside
    rcases inside with (((rfl | rfl) | rfl) | rfl) | rfl <;> decide
  refine reaches.step (.inr inside) ?_
  rw [categorized]
  exact step_fixed behind fixed found

theorem reaches_string (reaches : scanner.Reaches fishAutomaton run (.state .stringBody)) (cs : List Char) :
    match Lexical.closed? cs with
    | some body => scanner.Reaches fishAutomaton (run ++ body) (.state .stringEnd) ∧ body <+: cs
    | none => ∃ state, (state = .stringBody ∨ state = .stringEscape) ∧
        scanner.Reaches fishAutomaton (run ++ cs) (.state state) := by
  fun_induction Lexical.closed? cs generalizing run with
  | case1 => exact ⟨.stringBody, .inl rfl, by rw [List.append_nil]; exact reaches⟩
  | case2 rest => exact ⟨reaches.literal (by decide) categorize_string rfl, by simp⟩
  | case3 c rest ih =>
    have escaped : scanner.Reaches fishAutomaton (run ++ ['\\']) (.state .stringEscape) :=
      reaches.literal (by decide) categorize_string rfl
    have further := ih (escaped.literal (by decide) (categorize_escape (by decide)) (c := c) rfl)
    cases closed : Lexical.closed? rest with
    | some body =>
      rw [closed] at further
      obtain ⟨ended, starts⟩ := further
      refine ⟨by simpa using ended, ?_⟩
      exact List.cons_prefix_cons.mpr ⟨rfl, List.cons_prefix_cons.mpr ⟨rfl, starts⟩⟩
    | none =>
      rw [closed] at further
      obtain ⟨state, unclosed, left⟩ := further
      exact ⟨state, unclosed, by simpa using left⟩
  | case4 c rest quote escape ih =>
    by_cases backslash : c = '\\'
    · obtain rfl : rest = [] := by
        cases rest with
        | nil => rfl
        | cons d rest => exact absurd rfl (escape d rest backslash)
      rw [backslash]
      exact ⟨.stringEscape, .inr rfl, reaches.literal (by decide) categorize_string rfl⟩
    · have plain : fishAutomaton.categorize .stringBody c = .literal := by
        rw [categorize_string, if_neg]
        intro special
        rcases special with same | same
        · exact quote same
        · exact backslash same
      have further := ih (reaches.literal (by decide) plain rfl)
      cases closed : Lexical.closed? rest with
      | some body =>
        rw [closed] at further
        obtain ⟨ended, starts⟩ := further
        exact ⟨by simpa using ended, List.cons_prefix_cons.mpr ⟨rfl, starts⟩⟩
      | none =>
        rw [closed] at further
        obtain ⟨state, unclosed, left⟩ := further
        exact ⟨state, unclosed, by simpa using left⟩

theorem fishBase_closed (closed : state = .stringEnd ∨ state = .charEnd) (category : Category) :
    fishBase.edges.find? (state, category) = none := by
  rcases closed with rfl | rfl
  · cases category <;> rfl
  · cases category <;> rfl

theorem yields_string (fresh : scanner.Fresh) : scanner.Yields ('"' :: rest) (Lexical.string rest) := by
  have begun : scanner.Reaches fishAutomaton ['"'] (.state .stringBody) := reaches_quote fresh (.inl rfl)
  have read := reaches_string begun rest
  unfold Lexical.string
  cases closed : Lexical.closed? rest with
  | some body =>
    rw [closed] at read
    obtain ⟨ended, back, split⟩ := read
    refine ⟨back, List.cons_ne_nil _ _, by rw [← split]; rfl, ?_⟩
    have kind : fishAutomaton.classify .stringEnd = some .string := classify_fixed (by decide) rfl
    have cuts : scanner.Cuts fishAutomaton _ _ back := ended.cuts fresh (List.cons_ne_nil _ _)
      (ends_fixed (by decide) (by decide) (by decide) fun _ _ => fishBase_closed (.inl rfl) _)
    rw [kind] at cuts
    exact cuts
  | none =>
    rw [closed] at read
    obtain ⟨state, unclosed, left⟩ := read
    refine ⟨[], List.cons_ne_nil _ _, List.append_nil _, ?_⟩
    have kind : fishAutomaton.classify state = none := by
      rcases unclosed with rfl | rfl <;> exact classify_fixed (by decide) rfl
    have cuts : scanner.Cuts fishAutomaton _ _ [] := left.cuts fresh (List.cons_ne_nil _ _) nofun
    rw [kind] at cuts
    exact cuts

theorem cuts_closedChar (fresh : scanner.Fresh) (reaches : scanner.Reaches fishAutomaton run (.state .charBody)) :
    scanner.Cuts fishAutomaton .char (run ++ ['\'']) rest := by
  have kind : fishAutomaton.classify .charEnd = some .char := classify_fixed (by decide) rfl
  have ended : scanner.Reaches fishAutomaton (run ++ ['\'']) (.state .charEnd) :=
    reaches.literal (by decide) (categorize_char (.inr rfl)) rfl
  have cuts : scanner.Cuts fishAutomaton _ _ rest := ended.cuts fresh (by simp)
    (ends_fixed (by decide) (by decide) (by decide) fun _ _ => fishBase_closed (.inr rfl) _)
  rw [kind] at cuts
  exact cuts

theorem cuts_openChar (fresh : scanner.Fresh) (reaches : scanner.Reaches fishAutomaton run (.state .charBody))
    (full : run ≠ []) (other : ∀ c ∈ rest.head?, c ≠ '\'') :
    scanner.Cuts fishAutomaton .unrecognized run rest := by
  have kind : fishAutomaton.classify .charBody = none := classify_fixed (by decide) rfl
  have ends : Ends fishAutomaton .charBody run rest := by
    refine ends_fixed (by decide) (by decide) (by decide) fun c head => ?_
    rw [categorize_char (.inr rfl)]
    by_cases backslash : c = '\\'
    · rw [backslash]
      rfl
    · rw [if_neg (not_or.mpr ⟨other c head, backslash⟩)]
      rfl
  have cuts := reaches.cuts fresh full ends
  rw [kind] at cuts
  exact cuts

theorem yields_char (fresh : scanner.Fresh) : scanner.Yields ('\'' :: rest) (Lexical.char rest) := by
  have opened : scanner.Reaches fishAutomaton ['\''] (.state .charOpen) := reaches_quote fresh (.inr rfl)
  have unfinished : fishAutomaton.classify .charOpen = none := classify_fixed (by decide) rfl
  have escaped : scanner.Reaches fishAutomaton ['\'', '\\'] (.state .charEscape) :=
    opened.literal (by decide) (categorize_char (.inl rfl)) rfl
  have behindEscape (c : Char) : scanner.Reaches fishAutomaton ['\'', '\\', c] (.state .charBody) :=
    escaped.literal (by decide) (categorize_escape (by decide)) rfl
  have plain {c : Char} (quote : c ≠ '\'') (backslash : c ≠ '\\') :
      scanner.Reaches fishAutomaton ['\'', c] (.state .charBody) := by
    refine opened.literal (by decide) (categorize_char (.inl rfl)) ?_
    rw [if_neg (not_or.mpr ⟨quote, backslash⟩)]
    rfl
  have unquoted {back : List Char} (other : ∀ tail, back = '\'' :: tail → False) : ∀ c ∈ back.head?, c ≠ '\'' := by
    intro c head same
    exact other back.tail (by rw [← same]; exact (List.cons_head?_tail head).symm)
  unfold Lexical.char
  split
  · next c back => exact ⟨back, List.cons_ne_nil _ _, rfl, cuts_closedChar fresh (behindEscape c)⟩
  · next c back other =>
    refine ⟨back, List.cons_ne_nil _ _, rfl, cuts_openChar fresh (behindEscape c) (List.cons_ne_nil _ _) ?_⟩
    exact unquoted other
  · have kind : fishAutomaton.classify .charEscape = none := classify_fixed (by decide) rfl
    have cuts : scanner.Cuts fishAutomaton _ _ [] := escaped.cuts fresh (List.cons_ne_nil _ _) nofun
    rw [kind] at cuts
    exact ⟨[], List.cons_ne_nil _ _, rfl, cuts⟩
  · next back =>
    have cuts : scanner.Cuts fishAutomaton _ _ ('\'' :: back) := opened.cuts fresh (List.cons_ne_nil _ _)
      (ends_fixed (by decide) (by decide) (by decide) fun c head => ?_)
    · rw [unfinished] at cuts
      exact ⟨'\'' :: back, List.cons_ne_nil _ _, rfl, cuts⟩
    · obtain rfl : '\'' = c := by simpa using head
      rfl
  · next c back _ backslash quote =>
    exact ⟨back, List.cons_ne_nil _ _, rfl, cuts_closedChar fresh (plain quote backslash)⟩
  · next c back _ goesOn ends quote other =>
    have backslash : c ≠ '\\' := by
      intro same
      cases back with
      | nil => exact ends same rfl
      | cons d back => exact goesOn d back same rfl
    refine ⟨back, List.cons_ne_nil _ _, rfl, cuts_openChar fresh (plain quote backslash) (List.cons_ne_nil _ _) ?_⟩
    exact unquoted other
  · have cuts : scanner.Cuts fishAutomaton _ _ [] := opened.cuts fresh (List.cons_ne_nil _ _) nofun
    rw [unfinished] at cuts
    exact ⟨[], List.cons_ne_nil _ _, rfl, cuts⟩

end Literals

-- The first token of a text that starts with no blank.
theorem yields_first {scanner : Scanner} (fresh : scanner.Fresh) (plain : isBlank c = false) :
    scanner.Yields (c :: rest) (Lexical.first c rest) := by
  unfold Lexical.first
  by_cases letter : isLetter c = true
  · rw [if_pos letter]
    exact yields_word fresh letter
  · have letter : isLetter c = false := by simpa using letter
    rw [letter, if_neg Bool.false_ne_true]
    by_cases digit : c.isDigit = true
    · rw [if_pos digit]
      exact yields_numeral fresh digit
    · have digit : c.isDigit = false := by simpa using digit
      rw [digit, if_neg Bool.false_ne_true]
      by_cases sign : c = '<'
      · rw [if_pos sign, sign]
        exact yields_sign fresh
      · rw [if_neg sign]
        by_cases string : c = '"'
        · rw [if_pos string, string]
          exact yields_string fresh
        · rw [if_neg string]
          by_cases char : c = '\''
          · rw [if_pos char, char]
            exact yields_char fresh
          · rw [if_neg char]
            exact yields_one fresh plain letter digit sign ⟨string, char⟩

theorem tokens?_blank {scanner : Scanner} {automaton : Automaton} (fresh : scanner.Fresh) (blank : isBlank c = true) :
    (scanner.skip c).Fresh ∧ scanner.tokens? automaton (c :: rest) = (scanner.skip c).tokens? automaton rest := by
  refine ⟨⟨fresh.reading, fresh.empty⟩, ?_⟩
  have taken : scanner.offer automaton c = .taken (scanner.skip c) := by
    unfold offer
    rw [fresh.reading]
    dsimp only
    rw [blank, show State.start.isLiteralBody = false by decide, Bool.not_false, Bool.true_and, if_pos rfl, fresh.flush]
  rw [tokens?, read?, accept?_taken taken]
  rfl

theorem tokens?_fish {scanner : Scanner} (fresh : scanner.Fresh) (cs : List Char) :
    ∃ tokens, scanner.tokens? fishAutomaton cs = some tokens ∧ tokens.map Token.entry =
      scanner.emitted.reverse.map Token.entry ++ (Lexical.tokens cs).map fun cut => (cut.1, String.ofList cut.2) := by
  induction cs using Lexical.tokens.induct generalizing scanner with
  | case1 =>
    refine ⟨scanner.emitted.reverse, ?_, ?_⟩
    · have done : scanner.finish fishAutomaton = scanner := by
        rw [finish, fresh.reading]
        exact fresh.flush .start
      rw [tokens?, read?, Option.map_some, done]
    · rw [Lexical.tokens, List.map_nil, List.append_nil]
  | case2 c rest blank ih =>
    have passed : _ ∧ scanner.tokens? fishAutomaton (c :: rest) = _ := tokens?_blank fresh blank
    obtain ⟨skipped, same⟩ := passed
    rw [same, Lexical.tokens, if_pos blank]
    exact ih skipped
  | case3 c rest full ih =>
    have plain : isBlank c = false := by simpa using full
    have yields : scanner.Yields (c :: rest) (Lexical.first c rest) := yields_first fresh plain
    obtain ⟨back, nonempty, whole, next, token, started, emitted, kind, lexeme, same⟩ := yields
    have left : back = rest.drop ((Lexical.first c rest).2.length - 1) := by
      obtain ⟨d, run, cut⟩ := List.exists_cons_of_ne_nil nonempty
      rw [cut, List.cons_append] at whole
      rw [cut, ← (List.cons.inj whole).2, List.length_cons, Nat.add_sub_cancel, List.drop_left]
    obtain ⟨tokens, ran, entries⟩ := ih started
    rw [← left] at ran entries
    refine ⟨tokens, by rw [← whole, same, ran], ?_⟩
    have entry : token.entry = ((Lexical.first c rest).1, String.ofList (Lexical.first c rest).2) := by
      rw [Token.entry, kind, lexeme]
    rw [entries, emitted, Lexical.tokens, if_neg full, ← left, List.reverse_cons, List.map_append, List.append_assoc,
      List.map_cons, List.map_cons, entry]
    rfl

theorem tokenize_scanned (text : String) : fishAutomaton.scan? text = some (tokenize text) ∧
    (tokenize text).map Token.entry =
      (Lexical.tokens text.toList).map fun cut => (cut.1, String.ofList cut.2) := by
  have fresh : Scanner.initial.Fresh := ⟨rfl, rfl⟩
  obtain ⟨tokens, scanned, entries⟩ := tokens?_fish fresh text.toList
  have scanned : fishAutomaton.scan? text = some tokens := scanned
  have same : tokenize text = tokens := by
    rw [tokenize, scanned]
    rfl
  exact ⟨same ▸ scanned, same ▸ entries⟩

theorem tokenize_entries (text : String) : (tokenize text).map Token.entry =
    (Lexical.tokens text.toList).map fun cut => (cut.1, String.ofList cut.2) :=
  (tokenize_scanned text).2

theorem tokenize_covers (text : String) : Covers .start text.toList (tokenize text) :=
  (Automaton.scan?_covers (tokenize_scanned text).1).1

theorem tokenize_cut {text : String} (member : token ∈ tokenize text) :
    (token.kind, token.lexeme.toList) ∈ Lexical.tokens text.toList := by
  have entry : token.entry ∈ (tokenize text).map Token.entry := List.mem_map_of_mem member
  rw [(tokenize_scanned text).2] at entry
  obtain ⟨⟨kind, lexeme⟩, among, same⟩ := List.mem_map.mp entry
  have same : kind = token.kind ∧ String.ofList lexeme = token.lexeme := Prod.mk.inj same
  rw [← same.1, ← same.2, String.toList_ofList]
  exact among

theorem fish_namesGoOn : fishAutomaton.NamesGoOn := by
  have path : fishAutomaton.onReservedPath .ident = false := onReservedPath_fixed (by decide)
  refine .inl fun partly => ?_
  rw [path] at partly
  cases partly.1

-- Scanning ends wherever names go on, and the tokens are all of the text but blanks. With the automaton of the
-- language no token has a blank in it that does not open with a quote.
theorem scan?_partitions :
    (∀ (automaton : Automaton) (text : String), automaton.NamesGoOn →
      ∃ tokens, automaton.scan? text = some tokens ∧ Partitions text tokens ∧
        ∀ token ∈ tokens, token.kind = .endOfInput → ∃ state, automaton.classify state = some .endOfInput) ∧
    fishAutomaton.NamesGoOn ∧
    ∀ text, fishAutomaton.scan? text = some (tokenize text) ∧
      ∀ token ∈ tokenize text, (∃ c ∈ token.lexeme.toList, isBlank c = true) →
        token.lexeme.toList.head? = some '"' ∨ token.lexeme.toList.head? = some '\'' := by
  refine ⟨fun automaton text goesOn => ?_, fish_namesGoOn, fun text => ⟨?_, fun token member blank => ?_⟩⟩
  · obtain ⟨tokens, scanned⟩ := Automaton.scan?_isSome goesOn text
    obtain ⟨covers, kinds⟩ := Automaton.scan?_covers scanned
    refine ⟨tokens, scanned, covers.partitions, fun token member ended => ?_⟩
    rcases kinds token member with unknown | invalid | accepted
    · rw [ended] at unknown
      cases unknown
    · rw [ended] at invalid
      cases invalid
    · rw [ended] at accepted
      exact accepted
  · exact (tokenize_scanned text).1
  · exact Lexical.quoted_of_blank _ (tokenize_cut member) blank

def besideNames : Automaton := .ofEntries <|
  identifierEntries ++ [.word "fish" (.word .fish), .word "fork" (.word .fork), .symbol "<=" .assign]

-- A word whose spelling leads through the state of names.
def throughNames : Automaton := .ofEntries <|
  .edge .start .ident (.exact 'f') :: identifierEntries ++ [.word "fish" (.word .fish)]

theorem scan?_partitions_reserved :
    (besideNames.NamesGoOn ∧ ∃ tokens, besideNames.scan? "fork2 <= fish" = some tokens ∧
      Partitions "fork2 <= fish" tokens ∧
      tokens.map Token.entry = [(.identifier, "fork2"), (.assign, "<="), (.word .fish, "fish")]) ∧
    (throughNames.onReservedPath .ident = true ∧ throughNames.endsReserved .ident = false) ∧
    throughNames.NamesGoOn ∧ ∃ tokens, throughNames.scan? "fi fish2" = some tokens ∧ Partitions "fi fish2" tokens ∧
      tokens.map Token.entry = [(.identifier, "fi"), (.identifier, "fish2")] := by
  have beside : besideNames.NamesGoOn := .inl (by decide)
  have through : throughNames.NamesGoOn := .inr (by decide)
  obtain ⟨tokens, scanned, cut, _⟩ := scan?_partitions.1 besideNames "fork2 <= fish" beside
  obtain ⟨others, rescanned, recut, _⟩ := scan?_partitions.1 throughNames "fi fish2" through
  have entries : (besideNames.scan? "fork2 <= fish").map (·.map Token.entry) =
      some [(.identifier, "fork2"), (.assign, "<="), (.word .fish, "fish")] := by decide +kernel
  have names : (throughNames.scan? "fi fish2").map (·.map Token.entry) =
      some [(.identifier, "fi"), (.identifier, "fish2")] := by decide +kernel
  rw [scanned] at entries
  rw [rescanned] at names
  exact ⟨⟨beside, tokens, scanned, cut, Option.some.inj entries⟩, by decide, through, others, rescanned, recut,
    Option.some.inj names⟩

end FishLang
