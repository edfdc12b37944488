import FishLang.Proofs.Token.Cover
import FishLang.Token.Scan

namespace FishLang

def Automaton.Gives (automaton : Automaton) (kind : Kind) : Prop :=
  kind = .unrecognized ∨ kind = .invalid ∨ ∃ state, automaton.classify state = some kind

namespace Scanner

variable {automaton : Automaton} {scanner next : Scanner} {read : List Char}

-- What the scanner has done with the text read so far.
structure Tracks (automaton : Automaton) (scanner : Scanner) (before : List Char) : Prop where
  covers : Covers .start before scanner.emitted.reverse
  origin : scanner.origin = Location.start.after before
  here : scanner.here = Location.start.after (before ++ scanner.lexeme)
  full : scanner.reading = .brokenNumeral → scanner.pending ≠ []
  kinds : ∀ token ∈ scanner.emitted, automaton.Gives token.kind

theorem initial_tracks : Tracks automaton .initial [] where
  covers := .done
  origin := rfl
  here := rfl
  full := nofun
  kinds := nofun

theorem lexeme_take (scanner : Scanner) (c : Char) : (scanner.take c).lexeme = scanner.lexeme ++ [c] :=
  List.reverse_cons ..

theorem lexeme_of_empty (empty : scanner.pending = []) : scanner.lexeme = [] := by
  rw [lexeme, empty]
  rfl

theorem take_tracks (tracks : scanner.Tracks automaton before) (c : Char) (reading : Reading) :
    Tracks automaton { scanner.take c with reading := reading } before where
  covers := tracks.covers
  origin := tracks.origin
  here := by
    change scanner.here.next c = Location.start.after (before ++ (scanner.take c).lexeme)
    rw [lexeme_take, ← List.append_assoc, Location.after_append, ← tracks.here]
    rfl
  full _ := List.cons_ne_nil _ _
  kinds := tracks.kinds

theorem emit_tracks (tracks : scanner.Tracks automaton before) (kind : Kind) (given : automaton.Gives kind)
    (full : scanner.pending ≠ []) : Tracks automaton (scanner.emit kind) (before ++ scanner.lexeme) where
  covers := by
    have cut : Covers (Location.start.after before) (scanner.lexeme ++ [])
        [⟨kind, ⟨_, (Location.start.after before).after scanner.lexeme⟩, .ofList scanner.lexeme⟩] :=
      .cut kind (by simpa [lexeme] using full) .done
    have covers := tracks.covers.append cut
    rw [List.append_nil, ← Location.after_append, ← tracks.here, ← tracks.origin] at covers
    rw [emit, List.reverse_cons]
    exact covers
  origin := tracks.here
  here := by
    rw [show (scanner.emit kind).lexeme = [] from rfl, List.append_nil]
    exact tracks.here
  full := nofun
  kinds token member := by
    rcases List.mem_cons.mp member with rfl | earlier
    · exact given
    · exact tracks.kinds token earlier

theorem flush_of_empty (empty : scanner.pending = []) (state : State) :
    scanner.flush automaton state = { scanner with reading := .state .start } := by
  simp [flush, empty]

theorem flush_of_full (full : scanner.pending ≠ []) (state : State) :
    scanner.flush automaton state = scanner.emit ((automaton.classify state).getD .unrecognized) := by
  simp [flush, full]

theorem flush_pending (state : State) : (scanner.flush automaton state).pending = [] := by
  by_cases empty : scanner.pending = []
  · rw [flush_of_empty empty, empty]
  · rw [flush_of_full empty]
    rfl

theorem flush_reading (state : State) : (scanner.flush automaton state).reading = .state .start := by
  by_cases empty : scanner.pending = []
  · rw [flush_of_empty empty]
  · rw [flush_of_full empty]
    rfl

theorem gives_classified (state : State) : automaton.Gives ((automaton.classify state).getD .unrecognized) := by
  cases accepted : automaton.classify state with
  | none => exact .inl rfl
  | some kind => exact .inr (.inr ⟨state, accepted⟩)

theorem flush_tracks (tracks : scanner.Tracks automaton before) (state : State) :
    Tracks automaton (scanner.flush automaton state) (before ++ scanner.lexeme) := by
  by_cases empty : scanner.pending = []
  · rw [flush_of_empty empty, lexeme_of_empty empty, List.append_nil]
    exact ⟨tracks.covers, tracks.origin, tracks.here, nofun, tracks.kinds⟩
  · rw [flush_of_full empty]
    exact emit_tracks tracks _ (gives_classified state) empty

theorem skip_tracks (tracks : scanner.Tracks automaton before) (none : scanner.pending = [])
    (blank : isBlank c = true) (fresh : scanner.reading ≠ .brokenNumeral) :
    Tracks automaton (scanner.skip c) (before ++ [c]) := by
  have lexeme := lexeme_of_empty none
  have here := tracks.here
  rw [lexeme, List.append_nil] at here
  have past : scanner.here.next c = Location.start.after (before ++ [c]) := by
    rw [Location.after_append, ← here]
    rfl
  have covers := tracks.covers.append (.skip blank .done)
  rw [List.append_nil] at covers
  refine ⟨covers, past, ?_, fun broken => absurd broken fresh, tracks.kinds⟩
  rw [show (scanner.skip c).lexeme = [] from lexeme, List.append_nil]
  exact past

def HasRead (automaton : Automaton) (scanner : Scanner) (read : List Char) : Prop :=
  ∃ before, scanner.Tracks automaton before ∧ read = before ++ scanner.lexeme

theorem initial_hasRead : HasRead automaton .initial [] := ⟨[], initial_tracks, rfl⟩

theorem take_hasRead (hasRead : scanner.HasRead automaton read) (c : Char) (reading : Reading) :
    HasRead automaton { scanner.take c with reading := reading } (read ++ [c]) := by
  obtain ⟨before, tracks, rfl⟩ := hasRead
  refine ⟨before, take_tracks tracks c reading, ?_⟩
  rw [List.append_assoc]
  exact congrArg (before ++ ·) (lexeme_take scanner c).symm

theorem emit_hasRead (hasRead : scanner.HasRead automaton read) (given : automaton.Gives kind)
    (full : scanner.pending ≠ []) : HasRead automaton (scanner.emit kind) read := by
  obtain ⟨before, tracks, rfl⟩ := hasRead
  exact ⟨_, emit_tracks tracks kind given full, (List.append_nil _).symm⟩

theorem flush_hasRead (hasRead : scanner.HasRead automaton read) (state : State) :
    HasRead automaton (scanner.flush automaton state) read := by
  obtain ⟨before, tracks, rfl⟩ := hasRead
  refine ⟨_, flush_tracks tracks state, ?_⟩
  rw [lexeme_of_empty (flush_pending state), List.append_nil]

theorem skip_hasRead (hasRead : scanner.HasRead automaton read) (empty : scanner.pending = [])
    (blank : isBlank c = true) (fresh : scanner.reading ≠ .brokenNumeral) :
    HasRead automaton (scanner.skip c) (read ++ [c]) := by
  obtain ⟨before, tracks, rfl⟩ := hasRead
  have lexeme := lexeme_of_empty empty
  refine ⟨_, skip_tracks tracks empty blank fresh, ?_⟩
  rw [show (scanner.skip c).lexeme = [] from lexeme, lexeme, List.append_nil, List.append_nil]

def Reply.HasRead (automaton : Automaton) (read : List Char) (c : Char) : Reply → Prop
  | .taken next => next.HasRead automaton (read ++ [c])
  | .retry next => next.HasRead automaton read

theorem offer_hasRead (hasRead : scanner.HasRead automaton read) (c : Char) :
    (scanner.offer automaton c).HasRead automaton read c := by
  unfold offer
  split
  · next broken =>
    have full : scanner.pending ≠ [] := by
      obtain ⟨before, tracks, _⟩ := hasRead
      exact tracks.full broken
    split
    · have taken := take_hasRead hasRead c scanner.reading
      exact taken
    · exact emit_hasRead hasRead (.inr (.inl rfl)) full
  · next state reading =>
    split
    · next blank =>
      have blank : isBlank c = true := (Bool.and_eq_true_iff.mp blank).1
      refine skip_hasRead (flush_hasRead hasRead state) (flush_pending state) blank ?_
      rw [flush_reading]
      nofun
    · split
      · next target _ => exact take_hasRead hasRead c (.state target)
      · split
        · obtain ⟨before, tracks, split⟩ := hasRead
          exact ⟨before, ⟨tracks.covers, tracks.origin, tracks.here, nofun, tracks.kinds⟩, split⟩
        · split
          · exact take_hasRead hasRead c .brokenNumeral
          · split
            · have taken := take_hasRead hasRead c scanner.reading
              exact emit_hasRead taken (.inl rfl) (List.cons_ne_nil _ _)
            · exact flush_hasRead hasRead state

theorem offerUpTo_hasRead (hasRead : scanner.HasRead automaton read)
    (took : offerUpTo automaton n scanner c = some next) : next.HasRead automaton (read ++ [c]) := by
  induction n generalizing scanner with
  | zero => cases took
  | succ n ih =>
    have replied := offer_hasRead hasRead c
    unfold offerUpTo at took
    split at took
    · next taken same =>
      rw [same] at replied
      cases took
      exact replied
    · next retried same =>
      rw [same] at replied
      exact ih replied took

theorem read?_hasRead (hasRead : scanner.HasRead automaton read)
    (ran : scanner.read? automaton cs = some next) : next.HasRead automaton (read ++ cs) := by
  induction cs generalizing scanner read with
  | nil =>
    cases ran
    rw [List.append_nil]
    exact hasRead
  | cons c cs ih =>
    unfold read? at ran
    split at ran
    · cases ran
    · next middle took =>
      rw [List.append_cons]
      exact ih (offerUpTo_hasRead hasRead took) ran

theorem finish_hasRead (hasRead : scanner.HasRead automaton read) :
    (scanner.finish automaton).HasRead automaton read ∧ (scanner.finish automaton).pending = [] := by
  unfold finish
  split
  · next broken =>
    have full : scanner.pending ≠ [] := by
      obtain ⟨before, tracks, _⟩ := hasRead
      exact tracks.full broken
    exact ⟨emit_hasRead hasRead (.inr (.inl rfl)) full, rfl⟩
  · next state _ => exact ⟨flush_hasRead hasRead state, flush_pending state⟩

-- An offer is taken, or the scanner starts afresh, or what it reads becomes a name.
theorem offer_cases (automaton : Automaton) (scanner : Scanner) (c : Char) :
    (∃ next, scanner.offer automaton c = .taken next) ∨
    (∃ next, scanner.offer automaton c = .retry next ∧ next.reading = .state .start ∧ next.pending = []) ∨
    ∃ state, scanner.reading = .state state ∧ automaton.becomesName state scanner.lexeme c = true ∧
      automaton.step state (automaton.categorize state c) = none ∧
      scanner.offer automaton c = .retry { scanner with reading := .state .ident } := by
  unfold offer
  split
  · split
    · exact .inl ⟨_, rfl⟩
    · exact .inr (.inl ⟨_, rfl, rfl, rfl⟩)
  · next state reading =>
    split
    · exact .inl ⟨_, rfl⟩
    · split
      · exact .inl ⟨_, rfl⟩
      · next missing =>
        split
        · next named => exact .inr (.inr ⟨state, reading, named, missing, rfl⟩)
        · split
          · exact .inl ⟨_, rfl⟩
          · split
            · exact .inl ⟨_, rfl⟩
            · exact .inr (.inl ⟨_, rfl, flush_reading state, flush_pending state⟩)

theorem becomesName_full (named : automaton.becomesName state run c = true) :
    automaton.onReservedPath state = true ∧ automaton.endsReserved state = false ∧ run ≠ [] ∧
      isWordChar c = true := by
  unfold Automaton.becomesName at named
  simp only [Bool.and_eq_true, Bool.not_eq_true'] at named
  obtain ⟨⟨⟨path, going⟩, letter⟩, word⟩ := named
  refine ⟨path, going, ?_, word⟩
  intro rfl
  cases letter

theorem offer_fresh (automaton : Automaton) (reading : scanner.reading = .state .start)
    (empty : scanner.pending = []) (c : Char) :
    ∃ next, scanner.offer automaton c = .taken next := by
  unfold offer
  rw [reading]
  dsimp only
  split
  · exact ⟨_, rfl⟩
  · split
    · exact ⟨_, rfl⟩
    · split
      · next named =>
        obtain ⟨_, _, full, _⟩ := becomesName_full named
        exact absurd (lexeme_of_empty empty) full
      · split
        · exact ⟨_, rfl⟩
        · rw [if_pos (by rw [empty]; rfl)]
          exact ⟨_, rfl⟩

theorem offerUpTo_taken (took : scanner.offer automaton c = .taken next) (n : Nat) :
    offerUpTo automaton (n + 1) scanner c = some next := by
  unfold offerUpTo
  rw [took]

theorem offerUpTo_retry (retried : scanner.offer automaton c = .retry next) (n : Nat) :
    offerUpTo automaton (n + 1) scanner c = offerUpTo automaton n next c := by
  rw [offerUpTo, retried]

theorem offerUpTo_fresh (reading : scanner.reading = .state .start) (empty : scanner.pending = []) (c : Char)
    (n m : Nat) : offerUpTo automaton (n + 1) scanner c = offerUpTo automaton (m + 1) scanner c := by
  obtain ⟨next, took⟩ := offer_fresh automaton reading empty c
  rw [offerUpTo_taken took, offerUpTo_taken took]

-- What is offered again to a name, and is no start of another token, stays with the name for ever.
theorem offerUpTo_named (reading : scanner.reading = .state .ident)
    (retried : scanner.offer automaton c = .retry { scanner with reading := .state .ident }) (n : Nat) :
    offerUpTo automaton n scanner c = none := by
  have same : { scanner with reading := .state .ident } = scanner := by rw [← reading]
  rw [same] at retried
  induction n with
  | zero => rfl
  | succ n ih => rw [offerUpTo_retry retried, ih]

-- Three offers are enough for every character that is taken at all.
theorem accept?_of_offerUpTo (took : offerUpTo automaton n scanner c = some next) :
    scanner.accept? automaton c = some next := by
  unfold accept?
  cases n with
  | zero => cases took
  | succ n =>
    rcases offer_cases automaton scanner c with ⟨_, taken⟩ | ⟨_, retried, reading, empty⟩ | ⟨_, _, _, _, retried⟩
    · rw [offerUpTo_taken taken] at took ⊢
      exact took
    · rw [offerUpTo_retry retried] at took ⊢
      cases n with
      | zero => cases took
      | succ n => rwa [offerUpTo_fresh reading empty c 1 n]
    · rw [offerUpTo_retry retried] at took ⊢
      generalize named : { scanner with reading := .state .ident } = name at took ⊢
      have reading : name.reading = .state .ident := by rw [← named]
      cases n with
      | zero => cases took
      | succ n =>
        rcases offer_cases automaton name c with ⟨_, taken⟩ | ⟨_, again, start, empty⟩ | ⟨_, _, _, _, again⟩
        · rw [offerUpTo_taken taken] at took ⊢
          exact took
        · rw [offerUpTo_retry again] at took ⊢
          cases n with
          | zero => cases took
          | succ n => rwa [offerUpTo_fresh start empty c 0 n]
        · rw [offerUpTo_named reading again] at took
          cases took

end Scanner

namespace Automaton

-- A name goes on: it is no broken reserved word itself, or letters and digits continue it.
def NamesGoOn (automaton : Automaton) : Prop :=
  ¬ (automaton.onReservedPath .ident = true ∧ automaton.endsReserved .ident = false) ∨
    automaton.hasEdge .ident .letter = true ∧ automaton.hasEdge .ident .digit = true

theorem hasEdge_categorize {automaton : Automaton} (letter : automaton.hasEdge .ident .letter = true)
    (digit : automaton.hasEdge .ident .digit = true) (word : isWordChar c = true) :
    automaton.hasEdge .ident (automaton.categorize .ident c) = true := by
  unfold categorize
  rw [if_neg (by decide), if_neg (by decide)]
  split
  · exact digit
  · next other =>
    have letters : isLetter c = true := by simpa [isWordChar, other] using word
    rw [if_pos letters]
    split
    · next exact => exact (Bool.and_eq_true_iff.mp exact).2
    · exact letter

end Automaton

namespace Scanner

theorem accept?_isSome (goesOn : automaton.NamesGoOn) (scanner : Scanner) (c : Char) :
    ∃ next, scanner.accept? automaton c = some next := by
  unfold accept?
  rcases offer_cases automaton scanner c with ⟨_, taken⟩ | ⟨_, retried, reading, empty⟩ |
    ⟨_, _, became, _, retried⟩
  · exact ⟨_, offerUpTo_taken taken 2⟩
  · obtain ⟨_, taken⟩ := offer_fresh automaton reading empty c
    exact ⟨_, by rw [offerUpTo_retry retried, offerUpTo_taken taken]⟩
  · rw [offerUpTo_retry retried]
    generalize named : { scanner with reading := .state .ident } = name
    have reading : name.reading = .state .ident := by rw [← named]
    rcases offer_cases automaton name c with ⟨_, taken⟩ | ⟨_, again, start, empty⟩ | ⟨_, same, still, missing, _⟩
    · exact ⟨_, offerUpTo_taken taken 1⟩
    · obtain ⟨_, taken⟩ := offer_fresh automaton start empty c
      exact ⟨_, by rw [offerUpTo_retry again, offerUpTo_taken taken]⟩
    · cases reading.symm.trans same
      obtain ⟨path, going, _, word⟩ := becomesName_full still
      rcases goesOn with apart | ⟨letter, digit⟩
      · exact absurd ⟨path, going⟩ apart
      · have edge := Automaton.hasEdge_categorize letter digit word
        rw [Automaton.hasEdge, missing] at edge
        cases edge

theorem read?_isSome (goesOn : automaton.NamesGoOn) (scanner : Scanner) (cs : List Char) :
    ∃ next, scanner.read? automaton cs = some next := by
  induction cs generalizing scanner with
  | nil => exact ⟨scanner, rfl⟩
  | cons c cs ih =>
    obtain ⟨middle, took⟩ := accept?_isSome goesOn scanner c
    obtain ⟨next, ran⟩ := ih middle
    exact ⟨next, by rw [read?, took]; exact ran⟩

end Scanner

theorem Automaton.scan?_isSome {automaton : Automaton} (goesOn : automaton.NamesGoOn) (text : String) :
    ∃ tokens, automaton.scan? text = some tokens := by
  obtain ⟨last, ran⟩ := Scanner.read?_isSome goesOn .initial text.toList
  exact ⟨_, by rw [scan?, ran]; rfl⟩

theorem Automaton.scan?_covers {automaton : Automaton} (scanned : automaton.scan? text = some tokens) :
    Covers .start text.toList tokens ∧ ∀ token ∈ tokens, automaton.Gives token.kind := by
  unfold scan? at scanned
  obtain ⟨last, ran, rfl⟩ := Option.map_eq_some_iff.mp scanned
  have finished := Scanner.finish_hasRead (Scanner.read?_hasRead Scanner.initial_hasRead ran)
  obtain ⟨⟨before, tracks, whole⟩, empty⟩ := finished
  rw [Scanner.lexeme_of_empty empty, List.nil_append] at whole
  have same : text.toList = before := whole.trans (List.append_nil before)
  rw [same]
  exact ⟨tracks.covers, fun token member => tracks.kinds token (List.mem_reverse.mp member)⟩

end FishLang
