import FishLang.Proofs.Analysis.Blanks
import FishLang.Proofs.Parse.Lines
import FishLang.Proofs.Source.Comment
import FishLang.Proofs.Text.Lines
import FishLang.Proofs.Token.Joined

namespace FishLang

open Parse

def Failure.bare : Failure → Failure
  | .parse error => .parse error.bare
  | .semantic diagnostics => .semantic (diagnostics.map Diagnostic.bare)

def bareCheck (outcome : Except Failure Node) : Except Failure Node := (outcome.mapError Failure.bare).map Node.bare

def verdict : Except ParseError (Node × List Diagnostic) → Except Failure Node
  | .error error => .error (.parse error)
  | .ok (node, diagnostics) => if diagnostics.isEmpty then .ok node else .error (.semantic diagnostics)

theorem check_bare (layout : Layout) (source : String) :
    bareCheck (check layout source) = verdict (bareOutcome bareAnalysis (analyze (clean layout source))) := by
  unfold check parse analyze
  cases Node.ofText (clean layout source) with
  | error error => rfl
  | ok node =>
    show bareCheck (if node.diagnostics.isEmpty then _ else _) = verdict (.ok (node.bare, node.diagnostics.map _))
    rw [verdict, List.isEmpty_map]
    split <;> rfl

theorem tokenize_single {text : String} (single : '\n' ∉ text.toList) : ∀ token ∈ tokenize text, token.line = 1 := by
  intro token member
  obtain ⟨_, before, after, split, span⟩ := (tokenize_covers text).placed member
  have none : before.count '\n' = 0 := by
    refine List.count_eq_zero.mpr fun newline => single ?_
    rw [split, List.append_assoc]
    exact List.mem_append_left _ newline
  rw [Token.line, span, (Location.after_start before).line, none]

theorem newline_not_mem_clean_strip (source : String) : '\n' ∉ (clean .strip source).toList := by
  rw [clean_strip_toList]
  intro member
  exact absurd (List.mem_filter.mp member).2 (by decide)

-- Where no token has a blank in it and no two neighbours merge, a source without blanks has the tokens that it has
-- with its layout, and comes to the same, on its first line.
theorem strip_outcome {source : String}
    (solid : ∀ token ∈ tokenize (clean .preserve source), ∀ c ∈ token.lexeme.toList, isBlank c = false)
    (apart : (tokenize (clean .preserve source)).IsChain fun token next =>
      (tokenize (token.lexeme ++ next.lexeme)).map Token.entry = [token.entry, next.entry]) :
    (tokenize (clean .strip source)).map Token.entry = (tokenize (clean .preserve source)).map Token.entry ∧
    bareOutcome Node.bare (parse .strip source) = bareOutcome Node.bare (parse .preserve source) ∧
    (∀ root, parse .strip source = .ok root → root.On (· = 1)) ∧
    bareCheck (check .strip source) = bareCheck (check .preserve source) := by
  have whole : (clean .strip source).toList =
      (tokenize (clean .preserve source)).flatMap fun token => token.lexeme.toList := by
    rw [clean_plain, (tokenize_covers _).filter_plain solid]
  have spells : Spells (tokenize (clean .strip source)) (tokenize (clean .preserve source)) :=
    tokenize_joined whole apart
  refine ⟨spells, ?_, fun root accepted => ?_, ?_⟩
  · rw [parse, parse, Node.ofText, Node.ofText]
    exact Node.ofTokens_outcome spells
  · rw [parse, Node.ofText] at accepted
    exact Node.ofTokens_on accepted (tokenize_single (newline_not_mem_clean_strip source))
  · rw [check_bare, check_bare, analyze_outcome spells]

def spread : String := "fish \x7b\r\n  splash (a <+ 1) <D ~~ a\n\x7d\n"

theorem spread_outcome : clean .strip spread = "fish\x7bsplash(a<+1)<D\x7d" ∧
    (∀ token ∈ tokenize (clean .preserve spread), ∀ c ∈ token.lexeme.toList, isBlank c = false) ∧
    ((tokenize (clean .preserve spread)).IsChain fun token next =>
      (tokenize (token.lexeme ++ next.lexeme)).map Token.entry = [token.entry, next.entry]) ∧
    (tokenize (clean .strip spread)).map Token.entry = (tokenize (clean .preserve spread)).map Token.entry ∧
    bareCheck (check .strip spread) = bareCheck (check .preserve spread) := by
  have checked : ((tokenize (clean .preserve spread)).all fun token => token.lexeme.toList.all fun c => !isBlank c) =
      true ∧ (tokenize (clean .preserve spread)).IsChain fun token next =>
        (tokenize (token.lexeme ++ next.lexeme)).map Token.entry = [token.entry, next.entry] := by decide +kernel
  obtain ⟨plain, apart⟩ := checked
  have solid : ∀ token ∈ tokenize (clean .preserve spread), ∀ c ∈ token.lexeme.toList, isBlank c = false := by
    simpa only [List.all_eq_true, Bool.not_eq_true'] using plain
  obtain ⟨tokens, _, _, same⟩ := strip_outcome solid apart
  exact ⟨by decide, solid, apart, tokens, same⟩

end FishLang
