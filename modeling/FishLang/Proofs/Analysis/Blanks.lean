import FishLang.Check
import FishLang.Proofs.Analysis.Blur
import FishLang.Proofs.Grammar.Shape
import FishLang.Proofs.Node.Bare
import FishLang.Proofs.Parse.Alike.Outcome
import FishLang.Proofs.Token.Respace

namespace FishLang

def Diagnostic.bare (diagnostic : Diagnostic) : Diagnostic := { diagnostic with line := 0 }

def bareAnalysis : Node × List Diagnostic → Node × List Diagnostic
  | (node, diagnostics) => (node.bare, diagnostics.map Diagnostic.bare)

open Grammar Parse

-- Trees that differ in lines only hide nothing of one another.
theorem bare_fades : Fades (fun _ _ => True) fun node other : Node => node.bare = other.bare where
  node := by
    rintro ⟨kind, value, children, line⟩ ⟨kind', value', children', line'⟩ same
    simp only [Node.bare_mk, Node.mk.injEq] at same
    obtain ⟨rfl, rfl, _⟩ := same
    exact ⟨rfl, trivial, fun _ => rfl, .refl _⟩
  children := by
    rintro ⟨kind, value, children, line⟩ ⟨kind', value', children', line'⟩ same
    simp only [Node.bare_mk, Node.mk.injEq] at same
    rw [← List.forall₂_map_right_iff, ← List.forall₂_map_left_iff, List.forall₂_eq_eq_eq]
    exact same.2.2.1

theorem findings_bare {root other : Node} (program : Shaped .program root) (program' : Shaped .program other)
    (same : root.bare = other.bare) : root.reports.map Report.finding = other.reports.map Report.finding := by
  have less := (bare_fades.together same program).sheds.findings
  have more := (bare_fades.together same.symm program').sheds.findings
  exact more.antisymm less

theorem diagnostics_bare {root other : Node} (program : Shaped .program root) (program' : Shaped .program other)
    (same : root.bare = other.bare) : root.diagnostics.map Diagnostic.bare = other.diagnostics.map Diagnostic.bare := by
  have view (node : Node) : node.diagnostics.map Diagnostic.bare =
      (node.reports.map Report.finding).map fun finding => ⟨finding.kind, 0, finding.message⟩ := by
    rw [Node.diagnostics, List.map_map, List.map_map]
    rfl
  rw [view, view, findings_bare program program' same]

theorem analyze_outcome {text other : String} (spells : Spells (tokenize text) (tokenize other)) :
    bareOutcome bareAnalysis (analyze text) = bareOutcome bareAnalysis (analyze other) := by
  have outcome := Node.ofTokens_outcome spells
  unfold analyze Node.ofText
  cases read : Node.ofTokens (tokenize text) with
  | error error =>
    cases read' : Node.ofTokens (tokenize other) with
    | error error' =>
      rw [read, read'] at outcome
      exact congrArg Except.error (Except.error.inj outcome)
    | ok node' =>
      rw [read, read'] at outcome
      cases outcome
  | ok node =>
    cases read' : Node.ofTokens (tokenize other) with
    | error error' =>
      rw [read, read'] at outcome
      cases outcome
    | ok node' =>
      rw [read, read'] at outcome
      have same : node.bare = node'.bare := Except.ok.inj outcome
      have found := diagnostics_bare (Node.ofTokens_shaped read) (Node.ofTokens_shaped read') same
      exact congrArg Except.ok (Prod.ext same found)

-- A text without unclosed literals means the same with any other blanks between its tokens, so long as tokens that
-- were apart stay apart. In particular one blank between every two tokens will do.
theorem analyze_weave {text : String} (closed : ∀ token ∈ tokenize text, ¬ token.Unclosed) :
    (∀ lead rows, Respaces (tokenize text) lead rows →
      (tokenize (weave lead rows)).map Token.entry = (tokenize text).map Token.entry ∧
      bareOutcome Node.bare (Node.ofText (weave lead rows)) = bareOutcome Node.bare (Node.ofText text) ∧
      bareOutcome bareAnalysis (analyze (weave lead rows)) = bareOutcome bareAnalysis (analyze text)) ∧
    (tokenize (" ".intercalate ((tokenize text).map Token.lexeme))).map Token.entry =
      (tokenize text).map Token.entry := by
  refine ⟨fun lead rows respaces => ?_, ?_⟩
  · have spells := tokenize_weave closed respaces
    exact ⟨spells, Node.ofTokens_outcome spells, analyze_outcome spells⟩
  · rw [← weave_spaced]
    exact tokenize_weave closed (respaces_spaced _)

def unnamed : String := "fish \x7ba<=1<D\x7d"

def unnamedTokens : List Token :=
  [(.word .fish, "fish", 0), (.mark .leftBrace, "\x7b", 5), (.identifier, "a", 6), (.assign, "<=", 7), (.number, "1", 9),
    (.delimiter, "<D", 10), (.mark .rightBrace, "\x7d", 12)].map fun (kind, lexeme, offset) =>
      let stop := offset + lexeme.length
      ⟨kind, ⟨⟨1, offset + 1, offset⟩, ⟨1, stop + 1, stop⟩⟩, lexeme⟩

def unnamedRows : List (Token × String) := unnamedTokens.zip ["\n", "\n\t", "", " ", "\t", " ", "\n"]

theorem unnamed_weave : (∀ token ∈ tokenize unnamed, ¬ token.Unclosed) ∧
    Respaces (tokenize unnamed) "" unnamedRows ∧ weave "" unnamedRows = "fish\n\x7b\n\ta<= 1\t<D \x7d\n" ∧
    (analyze unnamed).toOption.map (·.2.map Diagnostic.kind) = some [.undeclaredVariable] ∧
    bareOutcome bareAnalysis (analyze (weave "" unnamedRows)) = bareOutcome bareAnalysis (analyze unnamed) := by
  have read : tokenize unnamed = unnamedTokens := by decide +kernel
  have closed : ∀ token ∈ tokenize unnamed, ¬ token.Unclosed := by
    rw [read]
    decide +kernel
  have respaces : Respaces (tokenize unnamed) "" unnamedRows := by
    have blanks : (unnamedRows.all fun row => row.2.toList.all isBlank) = true := by decide +kernel
    rw [read]
    exact ⟨rfl, by simp, by simpa only [List.all_eq_true] using blanks, by decide +kernel⟩
  have found : (analyze unnamed).toOption.map (·.2.map Diagnostic.kind) = some [.undeclaredVariable] := by
    rw [analyze, Node.ofText, read]
    decide
  exact ⟨closed, respaces, by decide, found, ((analyze_weave closed).1 "" unnamedRows respaces).2.2⟩

end FishLang
