import FishLang.Proofs.Node.Bare
import FishLang.Proofs.Parse.Refines

namespace FishLang.Parse

variable {α β γ δ ι : Type}

-- What is left where reading ends, at a value or at a stop.
def remaining : Except Stop (α × List Token) → List Token
  | .ok (_, rest) => rest
  | .error stop => stop.rest

-- The second outcome is the first one, with these tokens left; of the value only a view is compared.
def Matches (view : α → β) (rest : List Token) (outcome other : Except Stop (α × List Token)) : Prop :=
  match outcome with
  | .ok (value, _) => ∃ value', view value = view value' ∧ other = .ok (value', rest)
  | .error stop => other = .error ⟨stop.violation, rest⟩

def Spells (run run' : List Token) : Prop := run.map Token.entry = run'.map Token.entry

def Shows (rest rest' : List Token) : Prop := rest.head?.map Token.entry = rest'.head?.map Token.entry

theorem Spells.kind {token token' : Token} (same : token.entry = token'.entry) : token.kind = token'.kind :=
  congrArg Prod.fst same

theorem Spells.lexeme {token token' : Token} (same : token.entry = token'.entry) : token.lexeme = token'.lexeme :=
  congrArg Prod.snd same

theorem Spells.append (spells : Spells run run') (shows : Shows rest rest') : Shows (run ++ rest) (run' ++ rest') := by
  cases run with
  | nil =>
    obtain rfl := List.map_eq_nil_iff.mp spells.symm
    exact shows
  | cons token run =>
    obtain ⟨token', run', rfl, same, _⟩ := List.map_eq_cons_iff.mp spells.symm
    exact congrArg some same.symm

theorem Shows.current_entry (shows : Shows tokens tokens') : (current tokens).entry = (current tokens').entry := by
  cases tokens with
  | nil =>
    cases tokens' with
    | nil => rfl
    | cons => cases shows
  | cons token rest =>
    cases tokens' with
    | nil => cases shows
    | cons token' rest' => exact Option.some.inj shows

theorem Shows.current_kind (shows : Shows tokens tokens') : (current tokens).kind = (current tokens').kind :=
  Spells.kind shows.current_entry

theorem Shows.of_nil (shows : Shows rest []) : rest = [] := by
  cases rest with
  | nil => rfl
  | cons => cases shows

def Alike (limit limit' : Nat) (starts : Kind → Prop) (view : α → β) (parse parse' : Parse α) : Prop :=
  ∀ tokens : List Token, tokens.length ≤ limit → starts (current tokens).kind →
    ∃ run, tokens = run ++ remaining (parse tokens) ∧ ∀ run' rest', (run' ++ rest').length ≤ limit' →
      Spells run run' → Shows (remaining (parse tokens)) rest' →
      Matches view rest' (parse tokens) (parse' (run' ++ rest'))

namespace Alike

variable {limit limit' smaller smaller' : Nat} {starts begins : Kind → Prop} {view : α → γ} {views : β → δ}
  {parse parse' other other' : Parse α}

theorem weaken (alike : Alike limit limit' starts view parse parse') (shorter : smaller ≤ limit)
    (shorter' : smaller' ≤ limit') (narrower : ∀ kind, begins kind → starts kind) :
    Alike smaller smaller' begins view parse parse' := by
  intro tokens enough start
  obtain ⟨run, split, same⟩ := alike tokens (Nat.le_trans enough shorter) (narrower _ start)
  exact ⟨run, split, fun run' rest' enough' => same run' rest' (Nat.le_trans enough' shorter')⟩

theorem anywhere (alike : Alike limit limit' anything view parse parse') :
    Alike limit limit' starts view parse parse' :=
  alike.weaken (Nat.le_refl _) (Nat.le_refl _) fun _ _ => trivial

theorem less (alike : Alike limit limit' starts view parse parse') :
    Alike (limit - 1) (limit' - 1) starts view parse parse' :=
  alike.weaken (Nat.sub_le ..) (Nat.sub_le ..) fun _ start => start

theorem congr (alike : Alike limit limit' starts view parse parse')
    (equal : ∀ tokens, starts (current tokens).kind → other tokens = parse tokens)
    (equal' : ∀ tokens, starts (current tokens).kind → other' tokens = parse' tokens) :
    Alike limit limit' starts view other other' := by
  intro tokens enough start
  rw [equal tokens start]
  obtain ⟨run, split, same⟩ := alike tokens enough start
  refine ⟨run, split, fun run' rest' enough' spells shows => ?_⟩
  have start' : starts (current (run' ++ rest')).kind := by
    rw [← (spells.append shows).current_kind, ← split]
    exact start
  rw [equal' _ start']
  exact same run' rest' enough' spells shows

theorem of_end (alike : Alike 0 limit' (· = .endOfInput) view parse parse') :
    Alike 0 limit' starts view parse parse' := by
  intro tokens enough _
  obtain rfl := List.eq_nil_of_length_eq_zero (Nat.le_zero.mp enough)
  exact alike [] enough rfl

theorem pure {value value' : α} (same : view value = view value') :
    Alike limit limit' starts view (Pure.pure value) (Pure.pure value') := by
  intro tokens _ _
  refine ⟨[], rfl, fun run' rest' _ spells _ => ?_⟩
  obtain rfl := List.map_eq_nil_iff.mp spells.symm
  exact ⟨value', same, rfl⟩

theorem fail {violation : Violation} :
    Alike limit limit' starts view (Parse.fail violation) (Parse.fail violation) := by
  intro tokens _ _
  refine ⟨[], rfl, fun run' rest' _ spells _ => ?_⟩
  obtain rfl := List.map_eq_nil_iff.mp spells.symm
  rfl

-- One reader and then another, which has less to go by what the first one passes at least.
theorem bindPast {next next' : α → Parse β} (least : Nat) (one : Alike limit limit' starts view parse parse')
    (past : ∀ {run value rest}, (run ++ rest).length ≤ limit → parse (run ++ rest) = .ok (value, rest) →
      least ≤ run.length)
    (two : ∀ value value', view value = view value' →
      Alike (limit - least) (limit' - least) anything views (next value) (next' value')) :
    Alike limit limit' starts views (parse >>= next) (parse' >>= next') := by
  intro tokens enough start
  obtain ⟨front, split, same⟩ := one tokens enough start
  rw [bind_run]
  cases ran : parse tokens with
  | error stop =>
    rw [ran] at split same
    refine ⟨front, split, fun run' rest' enough' spells shows => ?_⟩
    have stopped : parse' (run' ++ rest') = .error ⟨stop.violation, rest'⟩ := same run' rest' enough' spells shows
    rw [bind_run, stopped]
    rfl
  | ok read =>
    obtain ⟨value, between⟩ := read
    rw [ran] at split same
    obtain rfl : tokens = front ++ between := split
    have passed := past enough ran
    have short : between.length ≤ limit - least := by
      rw [List.length_append] at enough
      omega
    obtain ⟨back, behind, _⟩ := two value value rfl between short trivial
    refine ⟨front ++ back, by rw [List.append_assoc, ← behind], fun run' rest' enough' spells shows => ?_⟩
    obtain ⟨front', back', rfl, spellsFront, spellsBack⟩ :=
      List.map_eq_append_iff.mp (spells.symm.trans (List.map_append ..))
    have passed' : front'.length = front.length := by simpa using congrArg List.length spellsFront
    rw [List.append_assoc] at enough' ⊢
    have hand : Shows between (back' ++ rest') := by
      have joined := Spells.append spellsBack.symm shows
      rw [← behind] at joined
      exact joined
    obtain ⟨value', viewed, ran'⟩ := same front' (back' ++ rest') enough' spellsFront.symm hand
    obtain ⟨again, behind', same⟩ := two value value' viewed between short trivial
    obtain rfl := List.append_cancel_right (behind.symm.trans behind')
    rw [bind_run, ran']
    refine same back' rest' ?_ spellsBack.symm shows
    rw [List.length_append] at enough'
    omega

theorem bind {next next' : α → Parse β} (one : Alike limit limit' starts view parse parse')
    (two : ∀ value value', view value = view value' →
      Alike limit limit' anything views (next value) (next' value')) :
    Alike limit limit' starts views (parse >>= next) (parse' >>= next') :=
  one.bindPast 0 (fun _ _ => Nat.zero_le _) two

theorem peek {next next' : Kind → Parse α}
    (each : ∀ kind, starts kind → Alike limit limit' (· = kind) view (next kind) (next' kind)) :
    Alike limit limit' starts view (Parse.peek >>= next) (Parse.peek >>= next') := by
  intro tokens enough start
  obtain ⟨run, split, same⟩ := each _ start tokens enough rfl
  refine ⟨run, split, fun run' rest' enough' spells shows => ?_⟩
  have kind : (current tokens).kind = (current (run' ++ rest')).kind := by
    have shows : Shows (remaining (next (current tokens).kind tokens)) rest' := shows
    have joined := Spells.append spells shows
    rw [← split] at joined
    exact joined.current_kind
  have matched := same run' rest' enough' spells shows
  show Matches view rest' _ (next' (current (run' ++ rest')).kind (run' ++ rest'))
  rw [← kind]
  exact matched

theorem take {next next' : Token → Parse α} (live : ∀ kind, starts kind → kind ≠ .endOfInput)
    (each : ∀ token token' : Token, token.entry = token'.entry → starts token.kind →
      Alike (limit - 1) (limit' - 1) anything view (next token) (next' token')) :
    Alike limit limit' starts view (Parse.next >>= next) (Parse.next >>= next') := by
  intro tokens enough start
  obtain ⟨token, rest, rfl⟩ : ∃ token rest, tokens = token :: rest :=
    ⟨_, _, current_advance (live _ start)⟩
  have taken : ∀ (token : Token) (rest : List Token), token.kind ≠ .endOfInput →
      Parse.next (token :: rest) = .ok (token, rest) := by
    intro token rest apart
    simp [Parse.next, current, advance, Token.isEnd, apart]
  have start : starts token.kind := start
  have short : rest.length ≤ limit - 1 := Nat.le_sub_one_of_lt enough
  rw [bind_run, taken token rest (live _ start)]
  obtain ⟨run, split, _⟩ := each token token rfl start rest short trivial
  refine ⟨token :: run, congrArg (token :: ·) split, fun run' rest' enough' spells shows => ?_⟩
  obtain ⟨token', run', rfl, same, spells⟩ := List.map_eq_cons_iff.mp spells.symm
  obtain ⟨again, split', matched⟩ := each token token' same.symm start rest short trivial
  obtain rfl := List.append_cancel_right (split.symm.trans split')
  have start' : token'.kind ≠ .endOfInput := Spells.kind same ▸ live _ start
  rw [List.cons_append, bind_run, taken token' _ start']
  exact matched run' rest' (Nat.le_sub_one_of_lt enough') spells.symm shows

theorem next {next next' : Token → Parse α} (live : ∀ kind, starts kind → kind ≠ .endOfInput)
    (each : ∀ token token' : Token, token.entry = token'.entry → starts token.kind →
      Alike limit limit' anything view (next token) (next' token')) :
    Alike limit limit' starts view (Parse.next >>= next) (Parse.next >>= next') :=
  .take live fun token token' same start => (each token token' same start).less

theorem takeKind {kind : Kind} {phrase : Phrase} {next next' : Token → Parse α} (live : kind ≠ .endOfInput)
    (each : ∀ token token' : Token, token.entry = token'.entry →
      Alike (limit - 1) (limit' - 1) anything view (next token) (next' token')) :
    Alike limit limit' starts view (Parse.expect kind phrase >>= next) (Parse.expect kind phrase >>= next') := by
  have opened (next : Token → Parse α) : Parse.expect kind phrase >>= next = (Parse.peek >>= fun found =>
      if found = kind then Parse.next >>= next else Parse.fail (.missing kind phrase)) := by
    rw [Parse.expect, bind_assoc]
    refine congrArg (Parse.peek >>= ·) (funext fun found => ?_)
    split
    · rfl
    · rfl
  rw [opened, opened]
  refine .peek fun found _ => ?_
  split
  · next same => exact .take (by rintro _ rfl; exact same ▸ live) fun token token' same _ => each token token' same
  · exact .fail

theorem expect {kind : Kind} {phrase : Phrase} {next next' : Token → Parse α} (live : kind ≠ .endOfInput)
    (each : ∀ token token' : Token, token.entry = token'.entry →
      Alike limit limit' anything view (next token) (next' token')) :
    Alike limit limit' starts view (Parse.expect kind phrase >>= next) (Parse.expect kind phrase >>= next') :=
  .takeKind live fun token token' same => (each token token' same).less

theorem bounded {loop loop' : List Token → Parse α} (each : ∀ bound bound' : List Token, bound.length ≤ limit →
      bound'.length ≤ limit' → Alike bound.length bound'.length anything view (loop bound) (loop' bound')) :
    Alike limit limit' starts view (Parse.bounded loop) (Parse.bounded loop') := by
  intro tokens enough _
  obtain ⟨run, split, _⟩ := each tokens [] enough (Nat.zero_le _) tokens (Nat.le_refl _) trivial
  refine ⟨run, split, fun run' rest' enough' spells shows => ?_⟩
  obtain ⟨again, split', same⟩ := each tokens (run' ++ rest') enough enough' tokens (Nat.le_refl _) trivial
  obtain rfl := List.append_cancel_right (split.symm.trans split')
  exact same run' rest' (Nat.le_refl _) spells shows

-- Loops by their bounds. Where a bound is used up no token is left, and there a loop ends as with any bound; and
-- a turn may count on what is left of the bounds being enough for the rest.
theorem loop (related : ι → ι → Prop) (loop loop' : List Token → ι → Parse α)
    (ends : ∀ bound bound' start start', related start start' →
      remaining (loop bound start []) = [] ∧ Matches view [] (loop bound start []) (loop' bound' start' []))
    (turn : ∀ token bound token' bound' smaller', bound.length < limit → smaller' ≤ bound'.length + 1 →
      smaller' ≤ limit' →
      (∀ start start', related start start' →
        Alike bound.length (smaller' - 1) anything view (loop bound start) (loop' bound' start')) →
      ∀ start start', related start start' →
        Alike (bound.length + 1) smaller' anything view (loop (token :: bound) start)
          (loop' (token' :: bound') start'))
    (bound bound' : List Token) (enough : bound.length ≤ limit) (enough' : bound'.length ≤ limit') (start start' : ι)
    (same : related start start') :
    Alike bound.length bound'.length anything view (loop bound start) (loop' bound' start') := by
  suffices ∀ bound' smaller', smaller' ≤ bound'.length → smaller' ≤ limit' → ∀ start start', related start start' →
      Alike bound.length smaller' anything view (loop bound start) (loop' bound' start') from
    this bound' _ (Nat.le_refl _) enough' _ _ same
  induction bound with
  | nil =>
    intro bound' smaller' _ _ start start' same tokens short _
    obtain rfl := List.eq_nil_of_length_eq_zero (Nat.le_zero.mp short)
    obtain ⟨past, matched⟩ := ends [] bound' start start' same
    refine ⟨[], by rw [past]; rfl, fun run' rest' _ spells shows => ?_⟩
    obtain rfl := List.map_eq_nil_iff.mp spells.symm
    rw [past] at shows
    obtain rfl := Shows.of_nil shows.symm
    exact matched
  | cons token bound ih =>
    intro bound' smaller' short large start start' same
    have ih := ih (Nat.le_of_succ_le enough)
    cases bound' with
    | cons token' bound' =>
      exact turn token bound token' bound' smaller' enough short large
        (ih bound' (smaller' - 1) (by simpa using short) (Nat.le_trans (Nat.sub_le ..) large)) start start' same
    | nil =>
      -- A bound that is used up on one side only is of no account: no token is left there.
      obtain rfl := Nat.le_zero.mp short
      intro tokens fits _
      obtain ⟨run, split, _⟩ := turn token bound token [] 0 enough (Nat.zero_le _) (Nat.zero_le _)
        (ih [] 0 (Nat.zero_le _) (Nat.zero_le _)) start start' same tokens fits trivial
      refine ⟨run, split, fun run' rest' none spells shows => ?_⟩
      obtain ⟨rfl, rfl⟩ := List.append_eq_nil_iff.mp (List.eq_nil_of_length_eq_zero (Nat.le_zero.mp none))
      obtain rfl := List.map_eq_nil_iff.mp spells
      have past := shows.of_nil
      rw [past] at split
      obtain rfl := split
      exact (ends _ [] start start' same).2

theorem turns {loop loop' : List Token → Parse α}
    (ends : ∀ bound bound', remaining (loop bound []) = [] ∧ Matches view [] (loop bound []) (loop' bound' []))
    (turn : ∀ token bound token' bound' smaller', bound.length < limit → smaller' ≤ bound'.length + 1 →
      smaller' ≤ limit' → Alike bound.length (smaller' - 1) anything view (loop bound) (loop' bound') →
      Alike (bound.length + 1) smaller' anything view (loop (token :: bound)) (loop' (token' :: bound')))
    (bound bound' : List Token) (enough : bound.length ≤ limit) (enough' : bound'.length ≤ limit') :
    Alike bound.length bound'.length anything view (loop bound) (loop' bound') := by
  refine Alike.loop (fun _ _ : Unit => True) (fun bound _ => loop bound) (fun bound _ => loop' bound) ?_ ?_ bound bound'
    enough enough' () () trivial
  · intro bound bound' _ _ _
    exact ends bound bound'
  · intro token bound token' bound' smaller' fits short large rest _ _ _
    exact turn token bound token' bound' smaller' fits short large (rest () () trivial)

end Alike

end FishLang.Parse
