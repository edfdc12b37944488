import FishLang.Automaton.Fish
import FishLang.Proofs.Token.Word
import Mathlib.Data.List.Permutation

namespace FishLang

open Builder Scanner

theorem Automaton.scan?_of_cuts {automaton : Automaton} (cuts : Scanner.initial.Cuts automaton kind run []) :
    automaton.scan? (.ofList run) = some [⟨kind, ⟨.start, Location.start.after run⟩, .ofList run⟩] := by
  obtain ⟨next, token, fresh, emitted, rfl, lexeme, rest⟩ := cuts
  have done : next.tokens? automaton [] = some [token] := by
    have ended : next.finish automaton = next := by
      rw [finish, fresh.reading]
      exact fresh.flush .start
    rw [tokens?, read?, Option.map_some, ended, emitted]
    rfl
  have scanned : automaton.scan? (.ofList run) = some [token] := by
    rw [List.append_nil, done] at rest
    rw [scan?, String.toList_ofList]
    exact rest
  obtain ⟨_, before, after, split, span⟩ := (scan?_covers scanned).1.placed (List.mem_singleton_self token)
  rw [lexeme, String.toList_ofList] at split span
  have length := congrArg List.length split
  simp only [List.length_append] at length
  obtain rfl : before = [] := List.eq_nil_of_length_eq_zero (by omega)
  rw [scanned, ← lexeme]
  exact congrArg (fun span => some [Token.mk token.kind span token.lexeme]) span

def wordEntries (table : List (String × Kind)) : List Builder.Entry := table.map fun row => .word row.1 row.2

theorem named_of_perm (order : entries.Perm identifierEntries) : Named (Builder.empty.addAll entries) := by
  have checked : ∀ entries ∈ identifierEntries.permutations',
      let base := Builder.empty.addAll entries
      base.edges.find? (.start, .letter) = some .ident ∧ base.edges.find? (.ident, .letter) = some .ident ∧
      base.edges.find? (.ident, .digit) = some .ident ∧ base.accepting.find? .ident = some .identifier ∧
      ∀ row ∈ base.edges.entries, row.1.2 = .letter ∨ row.1.2 = .digit := by decide +kernel
  obtain ⟨begins, letter, digit, accepts, classes⟩ := checked entries (List.mem_permutations'.mpr order)
  have exact_none (state : State) (c : Char) : (Builder.empty.addAll entries).edges.find? (state, .exact c) = none := by
    cases found : (Builder.empty.addAll entries).edges.find? (state, .exact c) with
    | none => rfl
    | some target => exact absurd (classes _ (Table.mem_of_find? found)) (by simp)
  exact ⟨begins, letter, digit, exact_none .ident, fun c _ => exact_none .start c, accepts⟩

section Table

variable {table : List (String × Kind)} {entries : List Builder.Entry}

theorem mem_wordEntries {entry : Builder.Entry} :
    entry ∈ wordEntries table ↔ ∃ row ∈ table, entry = .word row.1 row.2 := by
  simp [wordEntries, eq_comm]

theorem vocabulary_of_letters (words : ∀ row ∈ table, ∀ c ∈ row.1.toList, isLetter c = true)
    (full : ∀ row ∈ table, row.1.toList ≠ []) : Vocabulary (wordEntries table) where
  plain entry among c inside := by
    obtain ⟨row, member, rfl⟩ := mem_wordEntries.mp among
    have letter := words row member c inside
    refine ⟨not_isBlank_of_isWordChar (by rw [isWordChar, letter, Bool.true_or]), ?_⟩
    cases digit : c.isDigit with
    | false => rfl
    | true => rw [not_isLetter_of_isDigit digit] at letter; cases letter
  words entry among := by
    obtain ⟨row, member, rfl⟩ := mem_wordEntries.mp among
    obtain ⟨first, rest, spelling⟩ := List.exists_cons_of_ne_nil (full row member)
    have letter := words row member first (by simp [spelling])
    simp [Builder.Entry.isWord, Builder.Entry.spelling, spelling, letter]
  letters entry among _ := by
    obtain ⟨row, member, rfl⟩ := mem_wordEntries.mp among
    exact words row member
  marks entry among single := by
    obtain ⟨row, member, rfl⟩ := mem_wordEntries.mp among
    cases single

theorem lookup_eq_some_iff (distinct : (table.map Prod.fst).Nodup) {word : String} {kind : Kind} :
    table.lookup word = some kind ↔ (word, kind) ∈ table := by
  induction table with
  | nil => simp
  | cons row table ih =>
    obtain ⟨key, value⟩ := row
    obtain ⟨fresh, distinct⟩ := List.nodup_cons.mp distinct
    rw [List.lookup_cons]
    by_cases here : word = key
    · subst here
      have apart : (word, kind) ∉ table := fun member => fresh (List.mem_map.mpr ⟨_, member, rfl⟩)
      simp [apart, eq_comm]
    · have other : (word == key) = false := beq_eq_false_iff_ne.mpr here
      simp [other, here, ih distinct]

theorem nodup_wordEntries (distinct : (table.map Prod.fst).Nodup) :
    ((wordEntries table).map Builder.Entry.spelling).Nodup := by
  have spellings : (wordEntries table).map Builder.Entry.spelling = (table.map Prod.fst).map String.toList := by
    simp [wordEntries, Builder.Entry.spelling, Function.comp_def]
  rw [spellings]
  exact distinct.map fun _ _ same => String.toList_injective same

theorem lastKind?_wordEntries (distinct : (table.map Prod.fst).Nodup) (run : List Char) :
    lastKind? (wordEntries table) run = table.lookup (.ofList run) := by
  refine Option.ext fun kind => ?_
  rw [lastKind?_eq_some_iff (nodup_wordEntries distinct), lookup_eq_some_iff distinct]
  constructor
  · intro ⟨entry, among, spells, same⟩
    obtain ⟨row, member, rfl⟩ := mem_wordEntries.mp among
    cases same
    have key : row.1 = .ofList run := String.toList_injective (spells.trans String.toList_ofList.symm)
    exact key ▸ member
  · intro member
    exact ⟨_, mem_wordEntries.mpr ⟨_, member, rfl⟩, String.toList_ofList, rfl⟩

theorem spelled_wordEntries (full : ∀ row ∈ table, row.1.toList ≠ []) :
    spelled (wordEntries table) = wordEntries table ∧ unspelled (wordEntries table) = [] := by
  have each : ∀ entry ∈ wordEntries table, entry.spelling ≠ [] := by
    intro entry among
    obtain ⟨row, member, rfl⟩ := mem_wordEntries.mp among
    exact full row member
  constructor
  · exact List.filter_eq_self.mpr fun entry among => by simp [each entry among]
  · exact List.filter_eq_nil_iff.mpr fun entry among => by simp [each entry among]

theorem identifierEntries_leave (all : List (List Char)) : ∀ entry ∈ identifierEntries, entry.Leaves all := by
  simp [identifierEntries, Builder.Entry.Leaves, State.start, State.ident]

theorem keyword_grown (full : ∀ row ∈ table, row.1.toList ≠ [])
    (order : entries.Perm (identifierEntries ++ wordEntries table)) (few : beginningCount entries ≤ 65524) :
    (unspelled entries).Perm identifierEntries ∧ (spelled entries).Perm (wordEntries table) ∧
      Grown (Builder.empty.addAll (unspelled entries)) (spelled entries) (.ofEntries entries) := by
  obtain ⟨words, none⟩ := spelled_wordEntries full
  refine ⟨?_, ?_, ofEntries_grown (by rwa [length_nodesOf]) fun entry among => ?_⟩
  · have filtered := order.filter fun entry => entry.spelling.isEmpty
    rw [List.filter_append] at filtered
    change (unspelled entries).Perm (unspelled identifierEntries ++ unspelled (wordEntries table)) at filtered
    rwa [none, List.append_nil] at filtered
  · have filtered := order.filter fun entry => !entry.spelling.isEmpty
    rw [List.filter_append] at filtered
    change (spelled entries).Perm (spelled identifierEntries ++ spelled (wordEntries table)) at filtered
    rwa [words] at filtered
  · rcases List.mem_append.mp (order.subset among) with base | word
    · exact .inr (identifierEntries_leave _ entry base)
    · rw [← words] at word
      exact .inl (mem_spelled.mp word).2

-- Every text of letters and digits that a letter starts is one token.
theorem scan?_keyword (words : ∀ row ∈ table, row.1 ≠ "" ∧ ∀ c ∈ row.1.toList, isLetter c = true)
    (distinct : (table.map Prod.fst).Nodup) (order : entries.Perm (identifierEntries ++ wordEntries table))
    (few : beginningCount entries < 65524) (letter : isLetter first = true)
    (more : ∀ c ∈ rest, isWordChar c = true) :
    (Automaton.ofEntries entries).scan? (.ofList (first :: rest)) =
      some [⟨(table.lookup (.ofList (first :: rest))).getD .identifier,
        ⟨.start, Location.start.after (first :: rest)⟩, .ofList (first :: rest)⟩] := by
  have full : ∀ row ∈ table, row.1.toList ≠ [] := fun row member => by simpa using (words row member).1
  obtain ⟨base, learned, grown⟩ := keyword_grown full order (Nat.le_of_lt few)
  have vocabulary : Vocabulary (spelled entries) :=
    (vocabulary_of_letters (fun row member => (words row member).2) full).of_subset learned.subset
  have fresh : Scanner.initial.Fresh := ⟨rfl, rfl⟩
  have cuts : Scanner.initial.Cuts (.ofEntries entries) _ (first :: rest) [] :=
    grown.cuts_word (named_of_perm base) vocabulary fresh letter rest more nofun
  rw [lastKind?_perm ((learned.map _).nodup_iff.mpr (nodup_wordEntries distinct)) learned,
    lastKind?_wordEntries distinct] at cuts
  exact Automaton.scan?_of_cuts cuts

end Table

def nestedWords : List (String × Kind) := [("if", .word .when), ("iffy", .word .fork), ("i", .word .whale)]

def nestedEntries : List Builder.Entry :=
  [.word "i" (.word .whale), .accept .ident .identifier, .word "iffy" (.word .fork), .edge .ident .ident .digit,
    .edge .start .ident .letter, .word "if" (.word .when), .edge .ident .ident .letter]

theorem nestedWords_scanned :
    ((∀ row ∈ nestedWords, row.1 ≠ "" ∧ ∀ c ∈ row.1.toList, isLetter c = true) ∧
      (nestedWords.map Prod.fst).Nodup ∧ nestedEntries.Perm (identifierEntries ++ wordEntries nestedWords) ∧
      beginningCount nestedEntries < 65524) ∧
    (Automaton.ofEntries nestedEntries).scan? (.ofList ['i', 'f', 'f', 'y']) =
      some [⟨.word .fork, ⟨.start, ⟨1, 5, 4⟩⟩, .ofList ['i', 'f', 'f', 'y']⟩] ∧
    (Automaton.ofEntries nestedEntries).scan? (.ofList ['i', 'f', 'f', '2']) =
      some [⟨.identifier, ⟨.start, ⟨1, 5, 4⟩⟩, .ofList ['i', 'f', 'f', '2']⟩] := by
  have spelled : (nestedWords.all fun row => row.1 != "" && row.1.toList.all isLetter) = true := by decide
  have words : ∀ row ∈ nestedWords, row.1 ≠ "" ∧ ∀ c ∈ row.1.toList, isLetter c = true := by
    simpa only [List.all_eq_true, Bool.and_eq_true, bne_iff_ne] using spelled
  have distinct : (nestedWords.map Prod.fst).Nodup := by decide
  have order : nestedEntries.Perm (identifierEntries ++ wordEntries nestedWords) := by decide
  have few : beginningCount nestedEntries < 65524 := by decide
  have letter : isLetter 'i' = true := by decide
  have whole : ∀ c ∈ ['f', 'f', 'y'], isWordChar c = true := List.all_eq_true.mp (by decide)
  have broken : ∀ c ∈ ['f', 'f', '2'], isWordChar c = true := List.all_eq_true.mp (by decide)
  exact ⟨⟨words, distinct, order, few⟩, scan?_keyword words distinct order few letter whole,
    scan?_keyword words distinct order few letter broken⟩

end FishLang
