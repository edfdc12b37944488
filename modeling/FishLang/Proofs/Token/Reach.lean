import FishLang.Proofs.Token.Scan

namespace FishLang

namespace Scanner

variable {automaton : Automaton} {scanner middle last : Scanner} {run rest : List Char} {state target : State}
  {reading after : Reading} {kind : Kind}

structure Fresh (scanner : Scanner) : Prop where
  reading : scanner.reading = .state .start
  empty : scanner.pending = []

-- The tokens that the rest of a text brings, those that are given out already in front.
def tokens? (automaton : Automaton) (scanner : Scanner) (rest : List Char) : Option (List Token) :=
  (scanner.read? automaton rest).map fun last => (last.finish automaton).emitted.reverse

-- Taking a run of characters, a scanner comes to read something, and gives out nothing.
structure ReachesAs (automaton : Automaton) (scanner : Scanner) (run : List Char) (reading : Reading)
    (reached : Scanner) : Prop where
  ran : scanner.read? automaton run = some reached
  reading : reached.reading = reading
  lexeme : reached.lexeme = scanner.lexeme ++ run
  emitted : reached.emitted = scanner.emitted

def Reaches (automaton : Automaton) (scanner : Scanner) (run : List Char) (reading : Reading) : Prop :=
  ∃ reached, scanner.ReachesAs automaton run reading reached

theorem read?_append (front back : List Char) : scanner.read? automaton (front ++ back) =
    (scanner.read? automaton front).bind fun middle => middle.read? automaton back := by
  induction front generalizing scanner with
  | nil => rfl
  | cons c front ih =>
    rw [List.cons_append, read?, read?]
    cases scanner.accept? automaton c with
    | none => rfl
    | some next => exact ih

theorem read?_singleton (c : Char) : scanner.read? automaton [c] = scanner.accept? automaton c := by
  rw [read?]
  cases scanner.accept? automaton c <;> rfl

theorem Fresh.reaches (fresh : scanner.Fresh) : scanner.Reaches automaton [] (.state .start) :=
  ⟨scanner, rfl, fresh.reading, (List.append_nil _).symm, rfl⟩

theorem accept?_taken (took : scanner.offer automaton c = .taken last) :
    scanner.accept? automaton c = some last := offerUpTo_taken took 2

theorem accept?_retried (retried : scanner.offer automaton c = .retry middle)
    (took : middle.offer automaton c = .taken last) : scanner.accept? automaton c = some last := by
  rw [accept?, offerUpTo_retry retried, offerUpTo_taken took]

theorem Reaches.take (reaches : scanner.Reaches automaton run reading)
    (took : ∀ reached, scanner.ReachesAs automaton run reading reached →
      reached.accept? automaton c = some { reached.take c with reading := after }) :
    scanner.Reaches automaton (run ++ [c]) after := by
  obtain ⟨reached, as⟩ := reaches
  refine ⟨{ reached.take c with reading := after }, ?_, rfl, ?_, as.emitted⟩
  · rw [read?_append, as.ran]
    exact (read?_singleton c).trans (took reached as)
  · rw [← List.append_assoc, ← as.lexeme]
    exact lexeme_take reached c

-- A blank is a character like any other inside a literal, and nowhere else.
def Admits (state : State) (c : Char) : Prop := isBlank c = false ∨ state.isLiteralBody = true

theorem offer_step {reached : Scanner} (reading : reached.reading = .state state) (admits : Admits state c)
    (step : automaton.step state (automaton.categorize state c) = some target) :
    reached.offer automaton c = .taken { reached.take c with reading := .state target } := by
  have going : (isBlank c && !state.isLiteralBody) = false := by
    rcases admits with plain | inside
    · rw [plain, Bool.false_and]
    · rw [inside, Bool.not_true, Bool.and_false]
  unfold offer
  rw [reading]
  dsimp only
  rw [going, if_neg Bool.false_ne_true, step]

theorem Reaches.step (reaches : scanner.Reaches automaton run (.state state)) (admits : Admits state c)
    (step : automaton.step state (automaton.categorize state c) = some target) :
    scanner.Reaches automaton (run ++ [c]) (.state target) :=
  reaches.take fun _ as => accept?_taken (offer_step as.reading admits step)

-- A beginning of a reserved word that goes on otherwise becomes a name and takes the character as one.
theorem Reaches.becomeName (reaches : scanner.Reaches automaton run (.state state)) (fresh : scanner.Fresh)
    (admits : Admits state c) (missing : automaton.step state (automaton.categorize state c) = none)
    (becomes : automaton.becomesName state run c = true) (named : Admits .ident c)
    (step : automaton.step .ident (automaton.categorize .ident c) = some target) :
    scanner.Reaches automaton (run ++ [c]) (.state target) := by
  refine reaches.take fun reached as => ?_
  have lexeme : reached.lexeme = run := by rw [as.lexeme, lexeme_of_empty fresh.empty, List.nil_append]
  have going : (isBlank c && !state.isLiteralBody) = false := by
    rcases admits with plain | inside
    · rw [plain, Bool.false_and]
    · rw [inside, Bool.not_true, Bool.and_false]
  have retried : reached.offer automaton c = .retry { reached with reading := .state .ident } := by
    unfold offer
    rw [as.reading]
    dsimp only
    rw [going, if_neg Bool.false_ne_true, missing]
    dsimp only
    rw [lexeme, becomes, if_pos rfl]
  exact accept?_retried retried (offer_step rfl named step)

theorem Reaches.breakNumeral (reaches : scanner.Reaches automaton run (.state state)) (plain : isBlank c = false)
    (missing : automaton.step state (automaton.categorize state c) = none)
    (stays : automaton.becomesName state run c = false) (fresh : scanner.Fresh)
    (broken : state.isNumeral = true ∧ isLetter c = true) :
    scanner.Reaches automaton (run ++ [c]) .brokenNumeral := by
  refine reaches.take fun reached as => accept?_taken ?_
  have lexeme : reached.lexeme = run := by rw [as.lexeme, lexeme_of_empty fresh.empty, List.nil_append]
  unfold offer
  rw [as.reading]
  dsimp only
  rw [plain, Bool.false_and, if_neg Bool.false_ne_true, missing]
  dsimp only
  rw [lexeme, stays, if_neg Bool.false_ne_true, broken.1, broken.2, Bool.true_and, if_pos rfl]

theorem Reaches.goOnBroken (reaches : scanner.Reaches automaton run .brokenNumeral) (word : isWordChar c = true) :
    scanner.Reaches automaton (run ++ [c]) .brokenNumeral := by
  refine reaches.take fun reached as => accept?_taken ?_
  unfold offer
  rw [as.reading]
  dsimp only
  rw [if_pos word]
  exact congrArg (fun reading => Reply.taken { reached.take c with reading := reading }) as.reading

def Ends (automaton : Automaton) (state : State) (run rest : List Char) : Prop :=
  ∀ c ∈ rest.head?, isBlank c = true ∧ state.isLiteralBody = false ∨
    automaton.step state (automaton.categorize state c) = none ∧ automaton.becomesName state run c = false ∧
      (state.isNumeral && isLetter c) = false

-- A token is given out, and the rest is read from the start.
def Cuts (automaton : Automaton) (scanner : Scanner) (kind : Kind) (run rest : List Char) : Prop :=
  ∃ (next : Scanner) (token : Token), next.Fresh ∧ next.emitted = token :: scanner.emitted ∧ token.kind = kind ∧
    token.lexeme = .ofList run ∧ scanner.tokens? automaton (run ++ rest) = next.tokens? automaton rest

theorem emit_fresh (scanner : Scanner) (kind : Kind) : (scanner.emit kind).Fresh := ⟨rfl, rfl⟩

theorem Fresh.flush (fresh : scanner.Fresh) (state : State) : scanner.flush automaton state = scanner := by
  rw [flush_of_empty fresh.empty, ← fresh.reading]

-- What ends a token meets the scanner as if the token were given out already.
theorem accept?_flush (reading : scanner.reading = .state state) (full : scanner.pending ≠ [])
    (ends : Ends automaton state scanner.lexeme (c :: rest)) :
    scanner.accept? automaton c = (scanner.flush automaton state).accept? automaton c := by
  have fresh : (scanner.flush automaton state).Fresh := ⟨flush_reading state, flush_pending state⟩
  by_cases skips : (isBlank c && !state.isLiteralBody) = true
  · have blank : isBlank c = true := (Bool.and_eq_true_iff.mp skips).1
    have skipped : scanner.offer automaton c = .taken ((scanner.flush automaton state).skip c) := by
      unfold offer
      rw [reading]
      dsimp only
      rw [skips, if_pos rfl]
    have same : (scanner.flush automaton state).offer automaton c =
        .taken ((scanner.flush automaton state).skip c) := by
      unfold offer
      rw [fresh.reading]
      dsimp only
      rw [blank, show State.start.isLiteralBody = false by decide, Bool.not_false, Bool.true_and, if_pos rfl,
        fresh.flush]
    rw [accept?_taken skipped, accept?_taken same]
  · obtain ⟨missing, stays, whole⟩ : automaton.step state (automaton.categorize state c) = none ∧
        automaton.becomesName state scanner.lexeme c = false ∧ (state.isNumeral && isLetter c) = false := by
      rcases ends c rfl with ⟨blank, outside⟩ | goesNowhere
      · exact absurd (by rw [blank, outside]; rfl) skips
      · exact goesNowhere
    have retried : scanner.offer automaton c = .retry (scanner.flush automaton state) := by
      unfold offer
      rw [reading]
      dsimp only
      rw [if_neg skips, missing]
      dsimp only
      rw [stays, whole, if_neg Bool.false_ne_true, if_neg Bool.false_ne_true, if_neg (by simpa using full)]
    obtain ⟨next, took⟩ := offer_fresh automaton fresh.reading fresh.empty c
    rw [accept?_retried retried took, accept?_taken took]

theorem tokens?_flush (reading : scanner.reading = .state state) (full : scanner.pending ≠ [])
    (ends : Ends automaton state scanner.lexeme rest) :
    scanner.tokens? automaton rest = (scanner.flush automaton state).tokens? automaton rest := by
  unfold tokens?
  cases rest with
  | nil =>
    have fresh : (scanner.flush automaton state).Fresh := ⟨flush_reading state, flush_pending state⟩
    have done : scanner.finish automaton = scanner.flush automaton state := by
      rw [finish, reading]
    have again : (scanner.flush automaton state).finish automaton = scanner.flush automaton state := by
      rw [finish, fresh.reading]
      exact fresh.flush .start
    rw [read?, read?, Option.map_some, Option.map_some, done, again]
  | cons c rest => rw [read?, read?, accept?_flush reading full ends]

theorem Reaches.cuts (reaches : scanner.Reaches automaton run (.state state)) (fresh : scanner.Fresh)
    (full : run ≠ []) (ends : Ends automaton state run rest) :
    scanner.Cuts automaton ((automaton.classify state).getD .unrecognized) run rest := by
  obtain ⟨reached, as⟩ := reaches
  have lexeme : reached.lexeme = run := by rw [as.lexeme, lexeme_of_empty fresh.empty, List.nil_append]
  have pending : reached.pending ≠ [] := fun empty => full (lexeme ▸ lexeme_of_empty empty)
  refine ⟨reached.flush automaton state, ⟨_, ⟨reached.origin, reached.here⟩, .ofList reached.lexeme⟩,
    ⟨flush_reading state, flush_pending state⟩, ?_, rfl, congrArg String.ofList lexeme, ?_⟩
  · rw [flush_of_full pending, ← as.emitted]
    rfl
  · rw [tokens?, read?_append, as.ran, Option.bind_some]
    exact tokens?_flush as.reading pending (lexeme ▸ ends)

theorem Reaches.cutsBroken (reaches : scanner.Reaches automaton run .brokenNumeral) (fresh : scanner.Fresh)
    (ends : ∀ c ∈ rest.head?, isWordChar c = false) : scanner.Cuts automaton .invalid run rest := by
  obtain ⟨reached, as⟩ := reaches
  have lexeme : reached.lexeme = run := by rw [as.lexeme, lexeme_of_empty fresh.empty, List.nil_append]
  refine ⟨reached.emit .invalid, _, emit_fresh reached .invalid, congrArg (_ :: ·) as.emitted, rfl,
    congrArg String.ofList lexeme, ?_⟩
  rw [tokens?, read?_append, as.ran, Option.bind_some]
  unfold tokens?
  cases rest with
  | nil =>
    have done : reached.finish automaton = reached.emit .invalid := by rw [finish, as.reading]
    have again : (reached.emit .invalid).finish automaton = reached.emit .invalid :=
      (emit_fresh reached .invalid).flush .start
    rw [read?, read?, Option.map_some, Option.map_some, done, again]
  | cons c rest =>
    have retried : reached.offer automaton c = .retry (reached.emit .invalid) := by
      unfold offer
      rw [as.reading]
      dsimp only
      rw [ends c rfl, if_neg Bool.false_ne_true]
    obtain ⟨next, took⟩ := offer_fresh automaton (emit_fresh reached .invalid).reading rfl c
    rw [read?, read?, accept?_retried retried took, accept?_taken took]

theorem Fresh.cutsOne (fresh : scanner.Fresh) (plain : isBlank c = false)
    (missing : automaton.step .start (automaton.categorize .start c) = none) :
    scanner.Cuts automaton .unrecognized [c] rest := by
  have lexeme := lexeme_of_empty fresh.empty
  have taken : scanner.offer automaton c = .taken ((scanner.take c).emit .unrecognized) := by
    have stays : automaton.becomesName .start scanner.lexeme c = false := by
      rw [lexeme]
      simp [Automaton.becomesName]
    unfold offer
    rw [fresh.reading]
    dsimp only
    rw [plain, Bool.false_and, if_neg Bool.false_ne_true, missing]
    dsimp only
    rw [stays, if_neg Bool.false_ne_true, show State.start.isNumeral = false by decide, Bool.false_and,
      if_neg Bool.false_ne_true, fresh.empty]
    rfl
  refine ⟨(scanner.take c).emit .unrecognized, _, emit_fresh _ _, rfl, rfl, ?_, ?_⟩
  · exact congrArg String.ofList ((lexeme_take scanner c).trans (by rw [lexeme]; rfl))
  · rw [tokens?, List.singleton_append, read?, accept?_taken taken]
    rfl

end Scanner

end FishLang
