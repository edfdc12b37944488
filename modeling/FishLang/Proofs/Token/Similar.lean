import FishLang.Proofs.Token.Scan
import Mathlib.Data.Option.Basic

namespace FishLang

-- Tied states go on to tied states and say the same; a state with a fixed meaning is tied to itself alone.
structure Automaton.Similar (one other : Automaton) (tied : State → State → Prop) : Prop where
  start : tied .start .start
  ident : tied .ident .ident
  fixed : ∀ {state state'}, tied state state' → state.number.toNat < 12 ∨ state'.number.toNat < 12 → state = state'
  step : ∀ {state state'}, tied state state' → ∀ category,
    Option.Rel tied (one.step state category) (other.step state' category)
  classify : ∀ {state state'}, tied state state' → one.classify state = other.classify state'
  path : ∀ {state state'}, tied state state' → one.onReservedPath state = other.onReservedPath state'
  ends : ∀ {state state'}, tied state state' → one.endsReserved state = other.endsReserved state'

namespace Scanner

-- What it is for readings to be tied, and for scanners to differ in nothing else.
inductive TiedReading (tied : State → State → Prop) : Reading → Reading → Prop where
  | state (related : tied state state') : TiedReading tied (.state state) (.state state')
  | brokenNumeral : TiedReading tied .brokenNumeral .brokenNumeral

def Tied (tied : State → State → Prop) (scanner scanner' : Scanner) : Prop :=
  ∃ reading', scanner' = { scanner with reading := reading' } ∧ TiedReading tied scanner.reading reading'

inductive Reply.Tied (tied : State → State → Prop) : Reply → Reply → Prop where
  | taken (related : Scanner.Tied tied scanner scanner') : Reply.Tied tied (.taken scanner) (.taken scanner')
  | retry (related : Scanner.Tied tied scanner scanner') : Reply.Tied tied (.retry scanner) (.retry scanner')

end Scanner

variable {one other : Automaton} {tied : State → State → Prop} {state state' : State}

namespace Automaton.Similar

variable (similar : one.Similar other tied)
include similar

theorem beq_fixed (related : tied state state') (known : State) (near : known.number.toNat < 12) :
    (state == known) = (state' == known) := by
  rw [Bool.eq_iff_iff, beq_iff_eq, beq_iff_eq]
  constructor
  · rintro rfl
    exact (similar.fixed related (.inl near)).symm
  · rintro rfl
    exact similar.fixed related (.inr near)

theorem isNumeral_eq (related : tied state state') : state.isNumeral = state'.isNumeral := by
  simp only [State.isNumeral, similar.beq_fixed related .integer (by decide),
    similar.beq_fixed related .point (by decide), similar.beq_fixed related .fraction (by decide)]

theorem isLiteralBody_eq (related : tied state state') : state.isLiteralBody = state'.isLiteralBody := by
  simp only [State.isLiteralBody, similar.beq_fixed related .stringBody (by decide),
    similar.beq_fixed related .stringEscape (by decide), similar.beq_fixed related .charOpen (by decide),
    similar.beq_fixed related .charEscape (by decide), similar.beq_fixed related .charBody (by decide)]

theorem isEscape_eq (related : tied state state') : state.isEscape = state'.isEscape := by
  simp only [State.isEscape, similar.beq_fixed related .stringEscape (by decide),
    similar.beq_fixed related .charEscape (by decide)]

theorem hasEdge_eq (related : tied state state') (category : Category) :
    one.hasEdge state category = other.hasEdge state' category := by
  have stepped := similar.step related category
  rw [Automaton.hasEdge, Automaton.hasEdge]
  generalize one.step state category = next, other.step state' category = next' at stepped
  cases stepped with
  | some _ => rfl
  | none => rfl

theorem categorize_eq (related : tied state state') (c : Char) : one.categorize state c = other.categorize state' c := by
  have body : state = .stringBody ↔ state' = .stringBody := by
    rw [← beq_iff_eq, similar.beq_fixed related .stringBody (by decide), beq_iff_eq]
  unfold Automaton.categorize
  simp only [similar.isEscape_eq related, similar.isLiteralBody_eq related, body,
    similar.beq_fixed related .start (by decide), similar.path related, similar.hasEdge_eq related]

theorem becomesName_eq (related : tied state state') (lexeme : List Char) (c : Char) :
    one.becomesName state lexeme c = other.becomesName state' lexeme c := by
  rw [Automaton.becomesName, Automaton.becomesName, similar.path related, similar.ends related]

end Automaton.Similar

namespace Scanner

variable {scanner scanner' : Scanner} (similar : one.Similar other tied)
include similar

theorem tied_of_start (reading : scanner.reading = .state .start) : Tied tied scanner scanner :=
  ⟨scanner.reading, rfl, by rw [reading]; exact .state similar.start⟩

theorem flush_tied (related : tied state state') (reading' : Reading) :
    Scanner.flush { scanner with reading := reading' } other state' = scanner.flush one state := by
  unfold flush
  rw [similar.classify related]
  rfl

theorem offer_tied (both : Tied tied scanner scanner') (c : Char) :
    Reply.Tied tied (scanner.offer one c) (scanner'.offer other c) := by
  obtain ⟨reading', rfl, readings⟩ := both
  cases read : scanner.reading with
  | brokenNumeral =>
    rw [read] at readings
    cases readings
    unfold offer
    rw [read]
    dsimp only
    split
    · exact .taken ⟨.brokenNumeral, rfl, by rw [take, read]; exact .brokenNumeral⟩
    · exact .retry (tied_of_start similar rfl)
  | state state =>
    rw [read] at readings
    cases readings with
    | @state _ state' related =>
      have stepped := similar.step related (one.categorize state c)
      unfold offer
      rw [read]
      dsimp only
      rw [← similar.isLiteralBody_eq related, ← similar.categorize_eq related, flush_tied similar related,
        ← similar.isNumeral_eq related]
      split
      · refine .taken (tied_of_start similar ?_)
        exact flush_reading state
      · generalize one.step state (one.categorize state c) = next,
          other.step state' (one.categorize state c) = next' at stepped
        cases stepped with
        | some onward => exact .taken ⟨_, rfl, .state onward⟩
        | none =>
          dsimp only
          rw [similar.becomesName_eq related]
          change Reply.Tied tied _ (if other.becomesName state' scanner.lexeme c = true then _ else _)
          split
          · exact .retry ⟨_, rfl, .state similar.ident⟩
          · split
            · exact .taken ⟨_, rfl, .brokenNumeral⟩
            · split
              · exact .taken (tied_of_start similar rfl)
              · exact .retry (tied_of_start similar (flush_reading state))

theorem offerUpTo_tied (both : Tied tied scanner scanner') (c : Char) (n : Nat) :
    Option.Rel (Tied tied) (offerUpTo one n scanner c) (offerUpTo other n scanner' c) := by
  induction n generalizing scanner scanner' with
  | zero => exact .none
  | succ n ih =>
    have replies := offer_tied similar both c
    rw [offerUpTo, offerUpTo]
    generalize scanner.offer one c = reply, scanner'.offer other c = reply' at replies
    cases replies with
    | taken related => exact .some related
    | retry related => exact ih related

theorem read?_tied (both : Tied tied scanner scanner') (cs : List Char) :
    Option.Rel (Tied tied) (scanner.read? one cs) (scanner'.read? other cs) := by
  induction cs generalizing scanner scanner' with
  | nil => exact .some both
  | cons c cs ih =>
    have accepted := offerUpTo_tied similar both c 3
    rw [read?, read?, accept?, accept?]
    generalize offerUpTo one 3 scanner c = next, offerUpTo other 3 scanner' c = next' at accepted
    cases accepted with
    | some related => exact ih related
    | none => exact .none

theorem finish_tied (both : Tied tied scanner scanner') :
    (scanner.finish one).emitted = (scanner'.finish other).emitted := by
  obtain ⟨reading', rfl, readings⟩ := both
  unfold finish
  cases read : scanner.reading with
  | brokenNumeral =>
    rw [read] at readings
    cases readings
    rfl
  | state state =>
    rw [read] at readings
    cases readings with
    | state related =>
      dsimp only
      rw [flush_tied similar related]

end Scanner

theorem Automaton.scan?_similar (similar : one.Similar other tied) (text : String) :
    one.scan? text = other.scan? text := by
  have start : Scanner.Tied tied .initial .initial := Scanner.tied_of_start similar rfl
  have both := Scanner.read?_tied similar start text.toList
  rw [scan?, scan?]
  generalize Scanner.read? one .initial text.toList = last,
    Scanner.read? other .initial text.toList = last' at both
  cases both with
  | some related => exact congrArg (fun tokens => some tokens.reverse) (Scanner.finish_tied similar related)
  | none => rfl

end FishLang
