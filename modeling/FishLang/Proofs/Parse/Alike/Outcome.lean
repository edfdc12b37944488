import FishLang.Proofs.Parse.Alike.Statement

namespace FishLang

def ParseError.bare (error : ParseError) : ParseError := { error with span := .unplaced }

def Parse.bareOutcome (view : α → β) (outcome : Except ParseError α) : Except ParseError β :=
  (outcome.mapError ParseError.bare).map view

open Parse

theorem Token.describe_entry {token token' : Token} (same : token.entry = token'.entry) :
    token.describe = token'.describe := by
  rw [describe, describe, Spells.kind same, Spells.lexeme same]

theorem Violation.report_bare {found found' : Token} (violation : Violation) (same : found.entry = found'.entry) :
    (violation.report found).bare = (violation.report found').bare := by
  have described := Token.describe_entry same
  have message : violation.message found = violation.message found' := by
    cases violation with
    | missing kind phrase => rw [Violation.message, Violation.message, described]
    | _ => rfl
  simp only [report, ParseError.bare, message, described]

theorem Node.ofTokens_outcome (spells : Spells tokens other) :
    bareOutcome Node.bare (Node.ofTokens tokens) = bareOutcome Node.bare (Node.ofTokens other) := by
  obtain ⟨run, split, same⟩ := program_matches tokens
  rw [Spells, split, List.map_append] at spells
  obtain ⟨run', rest', rfl, front, back⟩ := List.map_eq_append_iff.mp spells.symm
  have shows : Shows (remaining (program tokens)) rest' := by
    rw [Shows, ← List.head?_map, ← List.head?_map, back]
  have matched := same run' rest' front.symm shows
  rw [Node.ofTokens, Node.ofTokens]
  cases ran : program tokens with
  | error stop =>
    rw [ran] at matched shows
    have stopped : program (run' ++ rest') = .error ⟨stop.violation, rest'⟩ := matched
    rw [stopped]
    exact congrArg Except.error (stop.violation.report_bare shows.current_entry)
  | ok read =>
    rw [ran] at matched
    obtain ⟨value', viewed, ran'⟩ := matched
    rw [ran']
    exact congrArg Except.ok viewed

end FishLang
