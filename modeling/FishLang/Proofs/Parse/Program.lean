import Mathlib.Logic.ExistsUnique
import FishLang.Parse.Program
import FishLang.Proofs.Grammar.Shape
import FishLang.Proofs.Parse.Statement

namespace FishLang

open Grammar

namespace Parse

def programForm : Form := .seq [.word .fish, .block]

def programParts (parts : List Part) (value : Node) : Prop :=
  ∀ closing, node [.nodes (build .program (parts ++ [.token closing]))] value

theorem program_refines : Refines limit anything (· = .endOfInput) program programForm programParts := by
  have past (keyword : Token) (body : Node) : Refines limit anything (· = .endOfInput)
      (Parse.peek >>= fun kind =>
        if kind = .endOfInput then Pure.pure (Node.group .program [body] keyword.line) else Parse.fail .trailing)
      .done (gives (Node.group .program [body] keyword.line)) := by
    refine .peek fun kind _ => ?_
    split
    · exact .pure _
    · next trailing =>
      refine .fail ?_ rfl
      intro _ rfl either
      obtain starting | ⟨_, follows⟩ := either
      · cases starting
      · exact trailing follows
  refine (Refines.andThen (expect_refines (by decide)) (fun keyword =>
    .andThen block_refines (fun body => past keyword body) rfl) rfl).view ?_
  intro _ _ laid closing
  obtain ⟨_, keyword, _, rfl, rfl, _, body, _, rfl, rfl, rfl, rfl⟩ := laid
  rfl

theorem program_ends {node : Node} (ran : program tokens = .ok (node, rest)) : (current rest).kind = .endOfInput := by
  obtain ⟨keyword, inner, _, ran⟩ := bind_eq_ok_iff.mp ran
  obtain ⟨body, left, _, ran⟩ := bind_eq_ok_iff.mp ran
  obtain ⟨kind, same, looked, ran⟩ := bind_eq_ok_iff.mp ran
  cases looked
  split at ran
  · next past =>
    cases ran
    exact past
  · cases ran

theorem reads_rule_program : Reads (rule .program) run parts ↔
    Reads (.and programForm (.token [.endOfInput])) run parts := by
  constructor
  · intro reads
    have flat : Reads (.and (.word .fish) (.and .block (.token [.endOfInput]))) run parts :=
      reads_and_mono id (reads_and_mono id fun last => reads_and_done.mp last) reads
    exact reads_and_mono (reads_and_mono id fun last => reads_and_done.mpr last) id (reads_assoc.mpr flat)
  · intro reads
    have flat := reads_assoc.mp (reads_and_mono (reads_and_mono id fun last => reads_and_done.mp last) id reads)
    exact reads_and_mono id (reads_and_mono id fun last => reads_and_done.mpr last) flat

theorem reads_program : Reads (rule .program) (tokens ++ [Token.endOfInput]) parts ↔
    ∃ passed, parts = passed ++ [.token .endOfInput] ∧ Reads programForm tokens passed := by
  rw [reads_rule_program]
  constructor
  · intro reads
    obtain ⟨front, back, passed, others, split, rfl, inner, last⟩ := reads_and.mp reads
    cases last
    obtain ⟨rfl, same⟩ := List.append_inj' split rfl
    cases same
    exact ⟨passed, rfl, inner⟩
  · intro laid
    obtain ⟨passed, rfl, reads⟩ := laid
    exact .and reads (.token (by decide))

end Parse

-- What is read is the tree of a derivation of what is before the end of the input.
open Parse in
theorem Node.ofTokens_reads {value : Node} (accepted : Node.ofTokens tokens = .ok value) :
    ∃ run rest, tokens = run ++ rest ∧ (current rest).kind = .endOfInput ∧
      Reads (.phrase .program) (run ++ [Token.endOfInput]) [.nodes [value]] := by
  rw [Node.ofTokens] at accepted
  cases ran : program tokens with
  | error stop =>
    rw [ran] at accepted
    cases accepted
  | ok read =>
    rw [ran] at accepted
    cases accepted
    obtain ⟨run, parts, rfl, reads, made⟩ := program_refines.sound (Nat.le_refl _) trivial ran
    refine ⟨run, read.2, rfl, program_ends ran, ?_⟩
    rw [← made .endOfInput]
    exact .phrase (reads_program.mpr ⟨parts, rfl, reads⟩)

open Parse in
theorem Node.ofTokens_passed {root : Node} (accepted : Node.ofTokens tokens = .ok root) :
    ∃ run rest keyword body, tokens = run ++ rest ∧ Reads programForm run [.token keyword, .nodes body] ∧
      root = .group .program body keyword.line := by
  rw [Node.ofTokens] at accepted
  cases ran : program tokens with
  | error stop =>
    rw [ran] at accepted
    cases accepted
  | ok read =>
    rw [ran] at accepted
    cases accepted
    obtain ⟨run, parts, rfl, reads, made⟩ := program_refines.sound (Nat.le_refl _) trivial ran
    obtain ⟨keyword, body, rfl⟩ : ∃ keyword body, parts = [.token keyword, .nodes body] :=
      reads.ensures (fun parts => ∃ keyword body, parts = [.token keyword, .nodes body])
        fun keyword _ body _ => ⟨keyword, body, rfl⟩
    have root := Part.nodes.inj (List.singleton_inj.mp (made .endOfInput))
    exact ⟨run, read.2, keyword, body, rfl, reads, (List.singleton_inj.mp root).symm⟩

theorem Node.ofTokens_shaped {root : Node} (accepted : Node.ofTokens tokens = .ok root) : Shaped .program root := by
  obtain ⟨run, rest, _, _, reads⟩ := ofTokens_reads accepted
  obtain ⟨node, same, shaped⟩ := reads.fits
  cases same
  exact shaped

open Parse in
theorem Node.ofTokens_sound {value : Node} (inside : ∀ token ∈ tokens, token.kind ≠ .endOfInput)
    (accepted : Node.ofTokens tokens = .ok value) :
    Reads (.phrase .program) (tokens ++ [Token.endOfInput]) [.nodes [value]] := by
  obtain ⟨run, rest, rfl, ended, reads⟩ := ofTokens_reads accepted
  cases rest with
  | nil =>
    rw [List.append_nil]
    exact reads
  | cons token others => exact absurd ended (inside token (by simp))

open Parse in
theorem Node.ofTokens_complete (reads : Reads (.phrase .program) (tokens ++ [Token.endOfInput]) parts) :
    ∃ value, parts = [.nodes [value]] ∧ Node.ofTokens tokens = .ok value := by
  cases reads with
  | phrase body =>
    obtain ⟨passed, rfl, reads⟩ := reads_program.mp body
    have whole : (tokens ++ []).length ≤ tokens.length := by simp
    obtain ⟨value, made, ran⟩ := program_refines.complete whole trivial reads rfl
    rw [List.append_nil] at ran
    exact ⟨value, made .endOfInput, by rw [Node.ofTokens, ran]⟩

-- A list of tokens is read just where the grammar derives its kinds, and what is read is the one tree of the
-- derivation.
theorem Node.ofTokens_decides (inside : ∀ token ∈ tokens, token.kind ≠ .endOfInput) :
    ((∃ value, Node.ofTokens tokens = .ok value) ↔
      Generates (.phrase .program) (tokens.map Token.kind ++ [.endOfInput])) ∧
    (∀ value, Node.ofTokens tokens = .ok value ↔
      Reads (.phrase .program) (tokens ++ [Token.endOfInput]) [.nodes [value]]) ∧
    (Generates (.phrase .program) (tokens.map Token.kind ++ [.endOfInput]) →
      ∃! parts, Reads (.phrase .program) (tokens ++ [Token.endOfInput]) parts) := by
  have kinds : (tokens ++ [Token.endOfInput]).map Token.kind = tokens.map Token.kind ++ [.endOfInput] := by
    rw [List.map_append]
    rfl
  rw [← kinds, generates_iff_reads]
  refine ⟨?_, ?_, ?_⟩
  · constructor
    · intro ⟨value, accepted⟩
      exact ⟨_, ofTokens_sound inside accepted⟩
    · intro ⟨parts, reads⟩
      obtain ⟨value, _, accepted⟩ := ofTokens_complete reads
      exact ⟨value, accepted⟩
  · intro value
    refine ⟨ofTokens_sound inside, fun reads => ?_⟩
    obtain ⟨_, ⟨⟩, accepted⟩ := ofTokens_complete reads
    exact accepted
  · intro ⟨parts, reads⟩
    obtain ⟨value, rfl, accepted⟩ := ofTokens_complete reads
    refine ⟨_, reads, fun others again => ?_⟩
    obtain ⟨other, rfl, same⟩ := ofTokens_complete again
    cases accepted.symm.trans same
    rfl

-- A program that does nothing.
def idle : List Token :=
  [⟨.word .fish, .unplaced, "fish"⟩, ⟨.mark .leftBrace, .unplaced, "\x7b"⟩, ⟨.mark .rightBrace, .unplaced, "\x7d"⟩]

-- A function that adds up numbers in a loop, those of one kind apart from the others, and a call of it.
def sumUp : List Token :=
  [(.word .fish, "fish"), (.mark .leftBrace, "\x7b"), (.word .fishtion, "fishtion"), (.identifier, "sum"),
    (.mark .leftParen, "("), (.type .int, "<int"), (.identifier, "n"), (.mark .rightParen, ")"), (.type .int, "<int"),
    (.mark .leftBrace, "\x7b"), (.type .int, "<int"), (.identifier, "total"), (.assign, "<="), (.number, "0"),
    (.delimiter, "<D"), (.word .whale, "whale"), (.mark .leftParen, "("), (.identifier, "n"),
    (.operator .unequal, "<!="), (.number, "0"), (.mark .rightParen, ")"), (.mark .leftBrace, "\x7b"),
    (.word .when, "if"), (.mark .leftParen, "("), (.identifier, "n"), (.operator .rem, "<%"), (.number, "2"),
    (.operator .equal, "<=="), (.number, "0"), (.mark .rightParen, ")"), (.mark .leftBrace, "\x7b"),
    (.identifier, "total"), (.assign, "<="), (.identifier, "total"), (.operator .add, "<+"), (.identifier, "n"),
    (.delimiter, "<D"), (.mark .rightBrace, "\x7d"), (.word .otherwise, "else"), (.mark .leftBrace, "\x7b"),
    (.identifier, "total"), (.operator .decrement, "<--"), (.delimiter, "<D"), (.mark .rightBrace, "\x7d"),
    (.identifier, "n"), (.operator .decrement, "<--"), (.delimiter, "<D"), (.mark .rightBrace, "\x7d"),
    (.word .emerge, "emerge"), (.identifier, "total"), (.delimiter, "<D"), (.mark .rightBrace, "\x7d"),
    (.word .splash, "splash"), (.mark .leftParen, "("), (.identifier, "sum"), (.mark .leftParen, "("), (.number, "5"),
    (.mark .rightParen, ")"), (.operator .mul, "<*"), (.number, "2"), (.mark .rightParen, ")"), (.delimiter, "<D"),
    (.mark .rightBrace, "\x7d")].map fun (kind, lexeme) => ⟨kind, .unplaced, lexeme⟩

theorem sumUp_generated : (∀ token ∈ sumUp, token.kind ≠ .endOfInput) ∧
    Generates (.phrase .program) (sumUp.map Token.kind ++ [.endOfInput]) := by
  have inside : ∀ token ∈ sumUp, token.kind ≠ .endOfInput := by decide
  have accepted : ∃ value, Node.ofTokens sumUp = .ok value := ⟨_, rfl⟩
  exact ⟨inside, (Node.ofTokens_decides inside).1.mp accepted⟩

end FishLang
