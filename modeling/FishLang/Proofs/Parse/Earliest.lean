import FishLang.Proofs.Parse.Alike.Statement
import FishLang.Proofs.Parse.Program

namespace FishLang

open Grammar

-- The kinds of a program, and what may be gone on with to the kinds of one.
def Sentence (kinds : List Kind) : Prop := Generates (.phrase .program) (kinds ++ [.endOfInput])
def Viable (kinds : List Kind) : Prop := ∃ more, Sentence (kinds ++ more)

-- How many tokens were passed before the stop.
def Stop.position (stop : Stop) (tokens : List Token) : Nat := tokens.length - stop.rest.length

-- What it is to stop no later than has to be, and to report just the offending token.
structure Earliest (tokens : List Token) (stop : Stop) : Prop where
  left : stop.rest = tokens.drop (stop.position tokens)
  reported : Node.ofTokens tokens = .error stop.error
  viable : Viable ((tokens.take (stop.position tokens)).map Token.kind)
  offending : ∀ token, tokens[stop.position tokens]? = some token →
    ¬ Viable ((tokens.take (stop.position tokens + 1)).map Token.kind) ∧
    stop.error.span = token.span ∧ stop.error.found = some token.describe ∧
    ∀ others, Node.ofTokens (tokens.take (stop.position tokens + 1) ++ others) = .error stop.error
  ended : tokens[stop.position tokens]? = none →
    ¬ Sentence (tokens.map Token.kind) ∧ stop.error.span = .unplaced ∧ stop.error.found = some "end of input"

namespace Grammar

def Form.spares (kind : Kind) : Form → Bool
  | .token kinds => kind ∉ kinds
  | .phrase _ | .done => true
  | .and first second | .or first second => first.spares kind && second.spares kind
  | .many form => form.spares kind

theorem Generates.spares (generates : Generates form run) (rules : ∀ symbol, (rule symbol).spares kind = true)
    (spared : form.spares kind = true) : kind ∉ run := by
  induction generates with
  | token allowed =>
    rintro member
    obtain rfl := List.mem_singleton.mp member
    simp [Form.spares, allowed] at spared
  | @phrase symbol _ _ ih => exact ih (rules symbol)
  | done | stop => exact List.not_mem_nil
  | and _ _ ihOne ihTwo =>
    obtain ⟨one, two⟩ := Bool.and_eq_true_iff.mp spared
    simp [ihOne one, ihTwo two]
  | left _ ih => exact ih (Bool.and_eq_true_iff.mp spared).1
  | right _ ih => exact ih (Bool.and_eq_true_iff.mp spared).2
  | more _ _ ihOne ihOthers => simp [ihOne spared, ihOthers spared]

def strayKinds : List Kind := [.unrecognized, .invalid]

theorem rule_spares_stray {kind : Kind} (stray : kind ∈ strayKinds) (symbol : Symbol) :
    (rule symbol).spares kind = true := by
  have each : ∀ kind ∈ strayKinds, (rule symbol).spares kind = true := by
    cases symbol with
    | level level => cases level <;> decide
    | _ => decide
  exact each kind stray

end Grammar

theorem Sentence.spares_stray {kind : Kind} (sentence : Sentence kinds) (stray : kind ∈ strayKinds) : kind ∉ kinds :=
  fun member => Generates.spares sentence (rule_spares_stray stray) rfl (List.mem_append_left _ member)

theorem Viable.spares_stray {kind : Kind} (viable : Viable kinds) (stray : kind ∈ strayKinds) : kind ∉ kinds := by
  obtain ⟨more, sentence⟩ := viable
  exact fun member => sentence.spares_stray stray (List.mem_append_left _ member)

namespace Parse

variable {passed rest : List Token} {token : Token} {violation : Violation}

theorem ofTokens_error_iff : Node.ofTokens tokens = .error error ↔
    ∃ stop, program tokens = .error stop ∧ stop.error = error := by
  rw [Node.ofTokens]
  rcases program tokens with stop | ⟨node, rest⟩ <;> simp

theorem sentence_accepted (sentence : Sentence (tokens.map Token.kind)) : ∃ value, Node.ofTokens tokens = .ok value := by
  have kinds : (tokens ++ [Token.endOfInput]).map Token.kind = tokens.map Token.kind ++ [.endOfInput] :=
    List.map_append ..
  obtain ⟨parts, reads⟩ := Generates.reads sentence kinds
  obtain ⟨value, _, accepted⟩ := Node.ofTokens_complete reads
  exact ⟨value, accepted⟩

theorem refused_no_sentence (stopped : program tokens = .error stop) : ¬ Sentence (tokens.map Token.kind) := by
  intro sentence
  obtain ⟨value, accepted⟩ := sentence_accepted sentence
  cases accepted.symm.trans (ofTokens_error_iff.mpr ⟨stop, stopped, rfl⟩)

-- What was passed before a stop can be gone on with.
theorem passed_viable (stopped : program tokens = .error stop) :
    ∃ passed, tokens = passed ++ stop.rest ∧ Viable (passed.map Token.kind) := by
  obtain ⟨passed, more, parts, split, reads⟩ := program_refines.viable (Nat.le_refl _) trivial stopped
  refine ⟨passed, split, more.map Token.kind, ?_⟩
  have generates := (Reads.phrase (reads_program.mpr ⟨parts, rfl, reads⟩)).generates
  rw [List.map_append, List.map_append] at generates
  exact generates

-- A stop is not undone by what stands behind the token at hand.
theorem stops_alike (stopped : program (passed ++ token :: rest) = .error ⟨violation, token :: rest⟩)
    (others : List Token) : program (passed ++ token :: others) = .error ⟨violation, token :: others⟩ := by
  obtain ⟨run, split, same⟩ := program_matches (passed ++ token :: rest)
  rw [stopped] at split same
  obtain rfl := List.append_cancel_right split
  exact same passed (token :: others) rfl rfl

-- With the offending token, nothing that is gone on with is a program.
theorem offending_not_viable (stopped : program (passed ++ token :: rest) = .error ⟨violation, token :: rest⟩) :
    ¬ Viable ((passed ++ [token]).map Token.kind) := by
  intro viable
  obtain ⟨more, sentence⟩ := viable
  let others : List Token := more.map fun kind => ⟨kind, .unplaced, ""⟩
  have kinds : (passed ++ token :: others).map Token.kind = (passed ++ [token]).map Token.kind ++ more := by
    simp [others, Function.comp_def]
  exact refused_no_sentence (stops_alike stopped others) (kinds ▸ sentence)

theorem stop_earliest (stopped : program tokens = .error stop) : Earliest tokens stop := by
  obtain ⟨violation, rest⟩ := stop
  obtain ⟨passed, rfl, viable⟩ := passed_viable stopped
  have position : Stop.position ⟨violation, rest⟩ (passed ++ rest) = passed.length := by
    simp [Stop.position]
  constructor
  case left => rw [position, List.drop_left]
  case reported => exact ofTokens_error_iff.mpr ⟨_, stopped, rfl⟩
  case viable =>
    rw [position, List.take_left]
    exact viable
  case offending =>
    intro token here
    rw [position] at here ⊢
    obtain ⟨others, rfl⟩ : ∃ others, rest = token :: others := by
      cases rest with
      | nil => simp at here
      | cons first others => simpa using here
    have upTo : (passed ++ token :: others).take (passed.length + 1) = passed ++ [token] :=
      List.take_length_add_append 1
    rw [upTo]
    refine ⟨offending_not_viable stopped, rfl, rfl, fun others => ?_⟩
    rw [List.append_assoc]
    exact ofTokens_error_iff.mpr ⟨_, stops_alike stopped others, rfl⟩
  case ended =>
    intro past
    rw [position] at past
    obtain rfl : rest = [] := by simpa using past
    exact ⟨refused_no_sentence stopped, rfl, rfl⟩

end Parse

open Parse in
-- Where reading fails it fails at the earliest token that tells; and it fails at what is no token of the language,
-- or before.
theorem Node.ofTokens_fails_earliest (inside : ∀ token ∈ tokens, token.kind ≠ .endOfInput) :
    (∀ error, Node.ofTokens tokens = .error error →
      ∃ stop, program tokens = .error stop ∧ stop.error = error ∧ Earliest tokens stop) ∧
    (∀ index token, tokens[index]? = some token → token.kind ∈ strayKinds →
      ∃ stop, program tokens = .error stop ∧ stop.position tokens ≤ index) := by
  constructor
  · intro error failed
    obtain ⟨stop, stopped, same⟩ := ofTokens_error_iff.mp failed
    exact ⟨stop, stopped, same, stop_earliest stopped⟩
  · intro index token here stray
    cases ran : program tokens with
    | ok read =>
      have accepted : Node.ofTokens tokens = .ok read.1 := by rw [Node.ofTokens, ran]
      have generates := (Node.ofTokens_sound inside accepted).generates
      rw [List.map_append] at generates
      have sentence : Sentence (tokens.map Token.kind) := generates
      exact absurd (List.mem_map_of_mem (List.mem_of_getElem? here)) (sentence.spares_stray stray)
    | error stop =>
      refine ⟨stop, rfl, Nat.le_of_not_lt fun later => ?_⟩
      have passed : token ∈ tokens.take (stop.position tokens) := by
        refine List.mem_of_getElem? (i := index) ?_
        rw [List.getElem?_take_of_lt later, here]
      exact (stop_earliest ran).viable.spares_stray stray (List.mem_map_of_mem passed)

def stray : List Token := idle.take 2 ++ ⟨.unrecognized, .unplaced, "@"⟩ :: idle.drop 2

theorem stray_fails : (∀ token ∈ stray, token.kind ≠ .endOfInput) ∧
    (∃ error, Node.ofTokens stray = .error error ∧
      ∃ stop, Parse.program stray = .error stop ∧ stop.error = error ∧ Earliest stray stop) ∧
    ∃ stop, Parse.program stray = .error stop ∧ stop.position stray ≤ 2 := by
  have inside : ∀ token ∈ stray, token.kind ≠ .endOfInput := by decide
  exact ⟨inside, ⟨_, rfl, (Node.ofTokens_fails_earliest inside).1 _ rfl⟩,
    (Node.ofTokens_fails_earliest inside).2 2 _ rfl (by decide)⟩

end FishLang
