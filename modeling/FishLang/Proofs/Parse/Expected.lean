import FishLang.Proofs.Parse.Blame.Block
import FishLang.Proofs.Parse.Resumed

namespace FishLang

open Grammar

-- A kind in the words of what is expected, where all types go by one name.
def Kind.mention : Kind → String
  | .type _ => "type"
  | .identifier => "identifier"
  | .number => "number"
  | .string => "string literal"
  | .char => "character literal"
  | kind => "'" ++ kind.name ++ "'"

def Stop.passed (stop : Stop) (tokens : List Token) : List Kind := (tokens.take (stop.position tokens)).map Token.kind

namespace Parse

theorem awaits_program {choice : Choice} {front : List Token} :
    Awaits choice.symbol (.phrase .program) front ↔ Awaits choice.symbol programForm front := by
  have whole : Awaits choice.symbol (rule .program) front ↔ Awaits choice.symbol programForm front :=
    awaits_and_right ((awaits_and_plain rfl).trans awaits_and_done.symm)
  refine awaits_phrase.trans ((or_iff_right fun ⟨same, _⟩ => ?_).trans whole)
  cases choice <;> cases same

theorem barred_of_stop (stopped : program (passed ++ rest) = .error ⟨violation, rest⟩) :
    Barred programForm nothing passed (current rest) where
  inside more parts reads := by
    cases rest with
    | nil => cases reads.live (by decide) .endOfInput (by simp [current])
    | cons token rest =>
      have sentence : Sentence ((passed ++ token :: more).map Token.kind) := by
        have generates := (Reads.phrase (reads_program.mpr ⟨parts, rfl, reads⟩)).generates
        rw [List.map_append] at generates
        exact generates
      exact offending_not_viable stopped ⟨more.map Token.kind, by simpa using sentence⟩
  behind _ _ never := never

-- Where a choice is expanded, a stop is about that choice, or about a last part that is awaited with it.
theorem blamed_of_expands {tokens : List Token} {stop : Stop} {choice : Choice}
    (stopped : program tokens = .error stop) (expanding : Expands choice.symbol (stop.passed tokens)) :
    ∃ blamed : Choice, stop.violation = blamed.violation (current stop.rest).kind ∧
      Expands blamed.symbol (stop.passed tokens) ∧ (current stop.rest).kind ∉ blamed.symbol.admitted ∧
      (blamed = choice ∨ choice = .items ∧ (blamed = .otherwise ∨ blamed = .lastly)) := by
  obtain ⟨passed, split, _⟩ := passed_viable stopped
  have same : stop.passed tokens = passed.map Token.kind := by
    have position : stop.position tokens = passed.length := by
      rw [Stop.position, split, List.length_append, Nat.add_sub_cancel]
    rw [Stop.passed, position, split, List.take_left]
  obtain ⟨violation, rest⟩ := stop
  obtain rfl : tokens = passed ++ rest := split
  rw [same] at expanding ⊢
  obtain ⟨blamed, charged, again⟩ :=
    program_blames.stops (Nat.le_refl _) trivial (awaits_program.mp expanding) (barred_of_stop stopped)
  cases stopped.symm.trans again
  exact ⟨blamed, rfl, awaits_program.mpr charged.awaited, charged.refused, charged.instead⟩

theorem admitted_last {last : Choice} (either : last = .otherwise ∨ last = .lastly) :
    ∀ kind ∈ Symbol.items.admitted, kind ∈ last.symbol.admitted := by
  rcases either with rfl | rfl <;> decide

theorem names_admitted {choice : Choice} {found : Kind} (named : choice ≠ .arguments)
    (going : choice = .items → found ≠ .endOfInput) :
    ∀ kind ∈ choice.symbol.admitted, kind.mention ∈ (choice.violation found).expected := by
  have same : choice.violation found = choice.violation .unrecognized := by
    cases choice with
    | items => rw [Choice.violation, if_neg (going rfl)]; rfl
    | _ => rfl
  rw [same]
  cases choice with
  | arguments => exact absurd rfl named
  | _ => decide +kernel

theorem arguments_reached : ∃ behind run, Reaches .arguments (.phrase .program)
    [.word .fish, .mark .leftBrace, .identifier, .mark .leftParen] behind ∧
    Generates behind (.mark .rightParen :: run) := by
  have call : Reaches .arguments .call ([.mark .leftParen] ++ []) _ := .second (.token (by decide)) (.first .here)
  have statement : Reaches .arguments (.phrase .nameStatement) ([.identifier] ++ [.mark .leftParen]) _ :=
    .phrase (.second (.token (by decide)) (.first (.left call)))
  have item : Reaches .arguments (.phrase .item) [.identifier, .mark .leftParen] _ :=
    .phrase (.right (.right (.phrase (.right (.right (.right (.right (.right (.right (.right statement))))))))))
  have block : Reaches .arguments .block ([.mark .leftBrace] ++ [.identifier, .mark .leftParen]) _ :=
    .phrase (.second (.token (by decide)) (.first (.phrase (.left (.first item)))))
  have program : Reaches .arguments (.phrase .program)
      ([.word .fish] ++ [.mark .leftBrace, .identifier, .mark .leftParen]) _ :=
    .phrase (.second (.token (by decide)) (.first block))
  have one {kind : Kind} : Generates (.seq [.token [kind]]) ([kind] ++ []) := .and (.token (by simp)) .done
  have none : Generates (.seq [.phrase .items]) ([] ++ []) := .and (.phrase (.right .done)) .done
  exact ⟨_, _, program, .and (.and (.and (.and (.and .done one) one) none) one) one⟩

theorem admits_closing : Admits .arguments (.mark .rightParen) := by
  obtain ⟨behind, run, reaches, generates⟩ := arguments_reached
  exact .inr ⟨.phrase (.right .done), _, behind, run, reaches, generates⟩

-- The report about a choice names what the choice admits, but for those two.
theorem names_admitted_iff {choice : Choice} {found : Kind} :
    (∀ kind, Admits choice.symbol kind → kind.mention ∈ (choice.violation found).expected) ↔
      choice ≠ .arguments ∧ (choice = .items → found ≠ .endOfInput) := by
  constructor
  · intro names
    constructor
    · rintro rfl
      have named : Kind.mention (.mark .rightParen) ∈ Violation.noExpression.expected := names _ admits_closing
      exact absurd named (by decide +kernel)
    · rintro rfl rfl
      have admits : Admits .items .identifier := .inl (.of_first (by decide))
      exact absurd (names _ admits) (by decide +kernel)
  · intro ⟨called, going⟩ kind admits
    exact names_admitted called going kind admits.mem_admitted

theorem last_reported {tokens : List Token} {stop : Stop} {last : Choice} (either : last = .otherwise ∨ last = .lastly)
    (stopped : program tokens = .error stop) (expanding : Expands last.symbol (stop.passed tokens)) :
    stop.violation = last.violation (current stop.rest).kind := by
  obtain ⟨blamed, reported, _, _, instead⟩ := blamed_of_expands stopped expanding
  obtain rfl : blamed = last := by
    refine instead.resolve_right fun ⟨never, _⟩ => ?_
    rcases either with rfl | rfl <;> cases never
  exact reported

end Parse

open Parse in
-- Where reading stops at a choice, the choice does not admit the token at hand. The report names all that is admitted,
-- unless it is about arguments, or about items at the end of the input where no last part of a statement is awaited.
theorem expected_names_admitted_iff {tokens : List Token} {stop : Stop} {choice : Choice}
    (stopped : program tokens = .error stop) (expanding : Expands choice.symbol (stop.passed tokens)) :
    ¬ Admits choice.symbol (current stop.rest).kind ∧
    ((∀ kind, Admits choice.symbol kind → kind.mention ∈ stop.error.expected) ↔
      choice ≠ .arguments ∧ (choice = .items → (current stop.rest).kind = .endOfInput →
        Expands .otherwise (stop.passed tokens) ∨ Expands .lastly (stop.passed tokens))) := by
  obtain ⟨blamed, reported, awaited, refused, instead⟩ := blamed_of_expands stopped expanding
  have expected : stop.error.expected = (blamed.violation (current stop.rest).kind).expected :=
    congrArg Violation.expected reported
  rw [expected]
  rcases instead with rfl | ⟨rfl, either⟩
  · refine ⟨fun admits => refused admits.mem_admitted, names_admitted_iff.trans (and_congr_right fun _ => ?_)⟩
    -- A last part that is awaited too would have been reported.
    refine forall_congr' fun items => ⟨fun going ended => absurd ended going, fun awaits ended => ?_⟩
    subst items
    rw [ended] at reported
    rcases awaits ended with waiting | waiting
    · cases reported.symm.trans (last_reported (.inl rfl) stopped waiting)
    · cases reported.symm.trans (last_reported (.inr rfl) stopped waiting)
  · have wider := admitted_last either
    refine ⟨fun admits => refused (wider _ admits.mem_admitted), iff_of_true (fun kind admits => ?_) ?_⟩
    · refine names_admitted ?_ ?_ kind (wider kind admits.mem_admitted) <;> rcases either with rfl | rfl <;> simp
    · refine ⟨by decide, fun _ _ => ?_⟩
      rcases either with rfl | rfl
      · exact .inl awaited
      · exact .inr awaited

theorem stray_named : Expands .items (Stop.passed ⟨.inBlock, stray.drop 2⟩ stray) ∧ ¬ Admits .items .unrecognized ∧
    ∀ kind, Admits .items kind → kind.mention ∈ Violation.inBlock.expected := by
  have expanding : Expands .items ([.word .fish] ++ ([.mark .leftBrace] ++ [])) :=
    ⟨_, .phrase (.second (.token (by decide)) (.first (.phrase (.second (.token (by decide)) (.first .here)))))⟩
  have stopped : Parse.program stray = .error ⟨.inBlock, stray.drop 2⟩ := rfl
  obtain ⟨refused, named⟩ := @expected_names_admitted_iff stray ⟨.inBlock, stray.drop 2⟩ .items stopped expanding
  exact ⟨expanding, refused, named.mpr ⟨by decide, fun _ ended => by cases ended⟩⟩

def strayArgument : List Token :=
  idle.take 2 ++ [⟨.identifier, .unplaced, "f"⟩, ⟨.mark .leftParen, .unplaced, "("⟩, ⟨.unrecognized, .unplaced, "@"⟩,
    ⟨.mark .rightParen, .unplaced, ")"⟩, ⟨.delimiter, .unplaced, "<D"⟩] ++ idle.drop 2

-- The call could be closed there, and the report does not say so.
theorem strayArgument_unnamed : ∃ stop, Parse.program strayArgument = .error stop ∧
    Expands .arguments (stop.passed strayArgument) ∧ ¬ Admits .arguments (current stop.rest).kind ∧
    Admits .arguments (.mark .rightParen) ∧ Kind.mention (.mark .rightParen) ∉ stop.error.expected := by
  obtain ⟨behind, _, reaches, _⟩ := Parse.arguments_reached
  refine ⟨⟨.noExpression, strayArgument.drop 4⟩, rfl, ⟨behind, reaches⟩, fun admits => ?_, Parse.admits_closing, ?_⟩
  · exact absurd admits.mem_admitted (by decide)
  · decide +kernel

end FishLang
