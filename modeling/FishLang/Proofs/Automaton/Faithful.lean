import FishLang.Proofs.Automaton.Grown

namespace FishLang

-- The state that the characters of a text lead to from the start, an edge for each.
def Automaton.along (automaton : Automaton) (run : List Char) : Option State :=
  run.foldlM (fun state c => automaton.step state (.exact c)) .start

namespace Builder

-- The last entry that spells the run reserves it for the kind.
def LastSpells (entries : List Entry) (run : List Char) (kind : Kind) : Prop :=
  ∃ front entry back, entries = front ++ entry :: back ∧ entry.spelling = run ∧ entry.kind? = some kind ∧
    ∀ later ∈ back, later.spelling ≠ run

-- What it is for an automaton to know the spellings of the entries, and to know no more.
structure Faithful (entries : List Entry) (automaton : Automaton) : Prop where
  leads : ∀ run, run ≠ [] → ((automaton.along run).isSome ↔ ∃ entry ∈ entries, run <+: entry.spelling)
  apart : ∀ run other state, run ≠ [] → other ≠ [] → automaton.along run = some state →
    automaton.along other = some state → run = other
  free : ∀ run state, run ≠ [] → automaton.along run = some state → 12 ≤ state.number.toNat
  -- What is spelled by itself is what it was last reserved for; else the beginning of a word is a name.
  kinds : ∀ run state, run ≠ [] → automaton.along run = some state → ∀ kind,
    automaton.classify state = some kind ↔ LastSpells entries run kind ∨
      kind = .identifier ∧ (∀ entry ∈ entries, entry.spelling ≠ run) ∧
        ∃ entry ∈ entries, entry.isWord ∧ run <+: entry.spelling ∧ run ≠ entry.spelling
  path : ∀ run state, run ≠ [] → automaton.along run = some state →
    (automaton.onReservedPath state = true ↔ ∃ entry ∈ entries, entry.isReserved ∧ run <+: entry.spelling)
  ends : ∀ run state, run ≠ [] → automaton.along run = some state →
    (automaton.endsReserved state = true ↔ ∃ entry ∈ entries, entry.isReserved ∧ run = entry.spelling)
  onward : ∀ state category target, category = .letter ∨ category = .digit →
    (automaton.step state category = some target ↔
      target = .ident ∧ ∃ entry ∈ entries, entry.isWord ∧ automaton.along entry.spelling = some state)

variable {entries : List Entry} {automaton : Automaton} {run : List Char}

theorem along_append (automaton : Automaton) (run : List Char) (c : Char) :
    automaton.along (run ++ [c]) = (automaton.along run).bind fun state => automaton.step state (.exact c) := by
  unfold Automaton.along
  rw [List.foldlM_append]
  simp only [List.foldlM_cons, List.foldlM_nil, bind_pure]
  rfl

theorem kind?_isSome {entry : Entry} (full : entry.spelling ≠ []) : entry.kind?.isSome := by
  cases entry with
  | edge | accept => exact absurd rfl full
  | word | symbol | mark => rfl

theorem lastKind?_eq_some_iff_last (full : ∀ entry ∈ entries, entry.spelling ≠ []) (kind : Kind) :
    lastKind? entries run = some kind ↔ LastSpells entries run kind := by
  rw [lastKind?, List.findSome?_eq_some_iff]
  constructor
  · intro found
    obtain ⟨back, entry, front, split, spells, others⟩ := found
    have whole : entries = front.reverse ++ entry :: back.reverse := by
      rw [← List.reverse_inj, split]
      simp
    split at spells
    · next here =>
      refine ⟨front.reverse, entry, back.reverse, whole, here, spells, fun later among same => ?_⟩
      have nothing := others later (List.mem_reverse.mp among)
      rw [if_pos same] at nothing
      have some := kind?_isSome (full later (by rw [whole]; simp [List.mem_reverse.mp among]))
      rw [nothing] at some
      cases some
    · cases spells
  · intro last
    obtain ⟨front, entry, back, rfl, here, spells, others⟩ := last
    refine ⟨back.reverse, entry, front.reverse, by simp, by rw [if_pos here, spells], fun later among => ?_⟩
    exact if_neg (others later (List.mem_reverse.mp among))

theorem lastKind?_eq_none_iff (full : ∀ entry ∈ entries, entry.spelling ≠ []) :
    lastKind? entries run = none ↔ ∀ entry ∈ entries, entry.spelling ≠ run := by
  rw [lastKind?, List.findSome?_eq_none_iff]
  constructor
  · intro nothing entry among same
    have none := nothing entry (List.mem_reverse.mpr among)
    rw [if_pos same] at none
    have some := kind?_isSome (full entry among)
    rw [none] at some
    cases some
  · intro unspelled entry among
    exact if_neg (unspelled entry (List.mem_reverse.mp among))

theorem kindAt_eq_some_iff (full : ∀ entry ∈ entries, entry.spelling ≠ []) (kind : Kind) :
    kindAt entries run = some kind ↔ LastSpells entries run kind ∨
      kind = .identifier ∧ (∀ entry ∈ entries, entry.spelling ≠ run) ∧
        ∃ entry ∈ entries, entry.isWord ∧ run <+: entry.spelling ∧ run ≠ entry.spelling := by
  rw [kindAt, Option.or_eq_some_iff, lastKind?_eq_some_iff_last full, lastKind?_eq_none_iff full]
  refine or_congr_right ?_
  constructor
  · rintro ⟨unspelled, named⟩
    split at named
    · next word =>
      cases named
      exact ⟨rfl, unspelled, word⟩
    · cases named
  · rintro ⟨same, unspelled, word⟩
    exact ⟨unspelled, by rw [if_pos word, same]⟩

section Grown

variable (grown : Grown .empty entries automaton)
include grown

theorem step_exact_iff (inside : run = [] ∨ run ∈ nodesOf entries) (c : Char) (state : State) :
    automaton.step (place (nodesOf entries) run) (.exact c) = some state ↔
      run ++ [c] ∈ nodesOf entries ∧ state = place (nodesOf entries) (run ++ [c]) := by
  rw [grown.step_place inside, show Builder.empty.edges.find? _ = none from rfl, Option.or_none, edgeAt]
  split
  · next goesOn => simp [goesOn, eq_comm]
  · next past => simp [past]

-- A text leads to its place, if it is the beginning of a spelling, and else nowhere.
theorem along_eq_some_iff (run : List Char) (state : State) : automaton.along run = some state ↔
    (run = [] ∨ run ∈ nodesOf entries) ∧ state = place (nodesOf entries) run := by
  induction run using List.reverseRecOn generalizing state with
  | nil => simp [Automaton.along, place_nil, eq_comm]
  | append_singleton run c ih =>
    rw [along_append, Option.bind_eq_some_iff]
    constructor
    · intro ⟨middle, reached, onward⟩
      obtain ⟨inside, rfl⟩ := (ih middle).mp reached
      obtain ⟨goesOn, placed⟩ := (step_exact_iff grown inside c state).mp onward
      exact ⟨.inr goesOn, placed⟩
    · intro ⟨either, placed⟩
      have goesOn : run ++ [c] ∈ nodesOf entries := either.resolve_left (by simp)
      have inside := nodesOf_closed goesOn
      exact ⟨_, (ih _).mpr ⟨inside, rfl⟩, (step_exact_iff grown inside c state).mpr ⟨goesOn, placed⟩⟩

theorem along_full (full : run ≠ []) (reached : automaton.along run = some state) :
    run ∈ nodesOf entries ∧ state = place (nodesOf entries) run := by
  obtain ⟨either, placed⟩ := (along_eq_some_iff grown run state).mp reached
  exact ⟨either.resolve_left full, placed⟩

theorem step_word_iff (state target : State) (category : Category) (wordly : category = .letter ∨ category = .digit) :
    automaton.step state category = some target ↔
      target = .ident ∧ ∃ entry ∈ entries, entry.isWord ∧ automaton.along entry.spelling = some state := by
  by_cases placed : ∃ run, (run = [] ∨ run ∈ nodesOf entries) ∧ state = place (nodesOf entries) run
  · obtain ⟨run, inside, rfl⟩ := placed
    have ended : (∃ entry ∈ entries, entry.isWord ∧
        automaton.along entry.spelling = some (place (nodesOf entries) run)) ↔
        ∃ entry ∈ entries, entry.isWord = true ∧ entry.spelling = run := by
      refine exists_congr fun entry => and_congr_right fun among => and_congr_right fun _ => ?_
      rw [along_eq_some_iff grown]
      constructor
      · intro ⟨known, same⟩
        exact (grown.place_inj inside known same).symm
      · intro same
        exact ⟨same ▸ inside, by rw [same]⟩
    have looked : automaton.step (place (nodesOf entries) run) category =
        if ∃ entry ∈ entries, entry.isWord = true ∧ entry.spelling = run then some .ident else none := by
      rw [grown.step_place inside, show Builder.empty.edges.find? _ = none from rfl, Option.or_none]
      rcases wordly with rfl | rfl <;> rfl
    rw [looked, ended]
    split
    · next word =>
      rw [and_iff_left word, Option.some_inj]
      exact eq_comm
    · next none => exact iff_of_false (by simp) fun both => none both.2
  · have nowhere : automaton.step state category = none := by
      obtain ⟨builder, rfl, learned⟩ := grown.learned
      exact learned.otherEdges state (fun run inside same => placed ⟨run, inside, same⟩) category
    rw [nowhere]
    refine iff_of_false (by simp) fun onward => ?_
    obtain ⟨_, entry, _, _, reached⟩ := onward
    exact placed ⟨entry.spelling, (along_eq_some_iff grown _ _).mp reached⟩

theorem faithful_of_grown : Faithful entries automaton where
  leads run full := by
    constructor
    · intro leads
      obtain ⟨state, reached⟩ := Option.isSome_iff_exists.mp leads
      exact (mem_nodesOf.mp (along_full grown full reached).1).2
    · intro begins
      have member : run ∈ nodesOf entries := mem_nodesOf.mpr ⟨full, begins⟩
      rw [(along_eq_some_iff grown run _).mpr ⟨.inr member, rfl⟩]
      rfl
  apart run other state full otherFull reached otherReached := by
    obtain ⟨member, placed⟩ := along_full grown full reached
    obtain ⟨otherMember, otherPlaced⟩ := along_full grown otherFull otherReached
    exact grown.place_inj (.inr member) (.inr otherMember) (placed.symm.trans otherPlaced)
  free run state full reached := by
    obtain ⟨member, rfl⟩ := along_full grown full reached
    exact grown.far member
  kinds run state full reached kind := by
    obtain ⟨member, rfl⟩ := along_full grown full reached
    rw [grown.classify_run member, kindAt_eq_some_iff grown.full]
  path run state full reached := by
    obtain ⟨member, rfl⟩ := along_full grown full reached
    exact grown.onReservedPath_run member
  ends run state full reached := by
    obtain ⟨member, rfl⟩ := along_full grown full reached
    exact grown.endsReserved_run member
  onward state category target wordly := step_word_iff grown state target category wordly

end Grown

end Builder

open Builder

-- Spellings in any order and number, of which each may begin or repeat another, make an automaton that is faithful
-- to them, as long as there is a state for every beginning.
theorem Automaton.ofEntries_faithful {entries : List Builder.Entry} (full : ∀ entry ∈ entries, entry.spelling ≠ [])
    (few : beginningCount entries < 65524) : Faithful entries (.ofEntries entries) := by
  have bare : Bare .empty (nodesOf entries) :=
    empty_bare (nodesOf_full entries) (length_nodesOf entries ▸ Nat.le_of_lt few)
  exact faithful_of_grown ⟨bare, full, _, rfl, addAll_learned bare full⟩

def overlapping : List Builder.Entry :=
  [.word "fishtion" (.word .fishtion), .word "fish" (.word .fork), .symbol "<=" .assign, .mark '<' (.mark .dot),
    .word "fish" (.word .fish)]

theorem overlapping_faithful : ((∀ entry ∈ overlapping, entry.spelling ≠ []) ∧ beginningCount overlapping < 65524) ∧
    Faithful overlapping (.ofEntries overlapping) ∧
    LastSpells overlapping "fish".toList (.word .fish) ∧ ¬ LastSpells overlapping "fish".toList (.word .fork) := by
  have full : ∀ entry ∈ overlapping, entry.spelling ≠ [] := by decide
  have few : beginningCount overlapping < 65524 := by decide
  have last : lastKind? overlapping "fish".toList = some (.word .fish) := by decide
  refine ⟨⟨full, few⟩, Automaton.ofEntries_faithful full few, (lastKind?_eq_some_iff_last full _).mp last, ?_⟩
  rw [← lastKind?_eq_some_iff_last full, last]
  decide

end FishLang
