import FishLang.Proofs.Text.SourceMap
import FishLang.Proofs.Token.Scan

namespace FishLang

theorem Location.Behind.line? {place : Location} {before : List Char} (behind : place.Behind before)
    (lexeme after : List Char) : ∃ line, (SourceMap.ofText (.ofList (before ++ lexeme ++ after))).line? place.line =
      some line ∧ lexeme.takeWhile (· ≠ '\n') <+: line.toList.drop (place.column - 1) := by
  have found := splitLines_append before (lexeme ++ after)
  refine ⟨.ofList (lastLine before ++ (lexeme ++ after).takeWhile (· ≠ '\n')), ?_, ?_⟩
  · rw [behind.line, Nat.add_comm, SourceMap.line?_succ, String.toList_ofList, List.append_assoc, found,
      Option.map_some]
  · rw [behind.column, Nat.add_sub_cancel_left, String.toList_ofList, List.drop_left]
    rcases line_cases lexeme with single | ⟨first, rest, rfl, single⟩
    · rw [takeWhile_single single, takeWhile_line single]
      exact List.prefix_append ..
    · refine ⟨[], ?_⟩
      rw [List.append_nil, List.append_assoc, List.cons_append, takeWhile_first single, takeWhile_first single]

theorem Covers.line?_isSome {text : String} (covers : Covers .start text.toList tokens) (member : token ∈ tokens) :
    ((SourceMap.ofText text).line? token.span.start.line).isSome := by
  obtain ⟨_, before, after, split, span⟩ := covers.placed member
  have start : token.span.start.Behind before := span ▸ Location.after_start before
  obtain ⟨line, found, _⟩ := start.line? token.lexeme.toList after
  rw [← split, String.ofList_toList] at found
  exact Option.isSome_of_eq_some found

-- The tokens of a scan stand where their spans say, lines of the text are found by their numbers, and every token is
-- found on the line and at the column that its span names.
theorem Automaton.scan?_located {automaton : Automaton} (scanned : automaton.scan? text = some tokens) :
    (∀ token ∈ tokens, ∃ before after, text = .ofList (before ++ token.lexeme.toList ++ after) ∧
      token.span.start.Behind before ∧ token.span.stop.Behind (before ++ token.lexeme.toList)) ∧
    ((SourceMap.ofText text).line? 0 = none ∧
      ∀ n, (SourceMap.ofText text).line? (n + 1) = (splitLines text.toList)[n]?.map String.ofList) ∧
    ∀ token ∈ tokens, ∃ line, (SourceMap.ofText text).line? token.span.start.line = some line ∧
      token.lexeme.toList.takeWhile (· ≠ '\n') <+: line.toList.drop (token.span.start.column - 1) := by
  have covers := (scan?_covers scanned).1
  have placed : ∀ token ∈ tokens, ∃ before after, text = .ofList (before ++ token.lexeme.toList ++ after) ∧
      token.span.start.Behind before ∧ token.span.stop.Behind (before ++ token.lexeme.toList) := by
    intro token member
    obtain ⟨_, before, after, split, span⟩ := covers.placed member
    refine ⟨before, after, ?_, ?_, ?_⟩
    · rw [← split, String.ofList_toList]
    · rw [span]
      exact Location.after_start before
    · rw [span]
      exact Location.after_start _
  refine ⟨placed, ⟨rfl, SourceMap.line?_succ text⟩, fun token member => ?_⟩
  obtain ⟨before, after, rfl, start, _⟩ := placed token member
  exact start.line? token.lexeme.toList after

def twoLines : String := "é \"a\nb\" c\n"

theorem twoLines_located : ∃ tokens, fishAutomaton.scan? twoLines = some tokens ∧
    tokens.map Token.span = [⟨⟨1, 1, 0⟩, ⟨1, 2, 2⟩⟩, ⟨⟨1, 3, 3⟩, ⟨2, 3, 8⟩⟩, ⟨⟨2, 4, 9⟩, ⟨2, 5, 10⟩⟩] ∧
    ∀ token ∈ tokens, ∃ line, (SourceMap.ofText twoLines).line? token.span.start.line = some line ∧
      token.lexeme.toList.takeWhile (· ≠ '\n') <+: line.toList.drop (token.span.start.column - 1) := by
  have spans : (fishAutomaton.scan? twoLines).map (·.map Token.span) =
      some [⟨⟨1, 1, 0⟩, ⟨1, 2, 2⟩⟩, ⟨⟨1, 3, 3⟩, ⟨2, 3, 8⟩⟩, ⟨⟨2, 4, 9⟩, ⟨2, 5, 10⟩⟩] := by decide +kernel
  obtain ⟨tokens, scanned, same⟩ := Option.map_eq_some_iff.mp spans
  exact ⟨tokens, scanned, same, (Automaton.scan?_located scanned).2.2⟩

end FishLang
