import FishLang.Proofs.Automaton.Trie
import Mathlib.Data.List.Dedup
import Mathlib.Data.List.Induction

namespace FishLang.Builder

-- An automaton whose tables are those of a base and what was learned on top of it.
structure Grown (base : Builder) (entries : List Entry) (automaton : Automaton) : Prop where
  bare : Bare base (nodesOf entries)
  full : ∀ entry ∈ entries, entry.spelling ≠ []
  learned : ∃ builder, automaton = builder.build ∧ Learned base (nodesOf entries) (nodesOf entries) entries builder

theorem nodesOf_full (entries : List Entry) : [] ∉ nodesOf entries := fun member => (mem_nodesOf.mp member).1 rfl

theorem nodesOf_closed {entries : List Entry} (member : run ++ more ∈ nodesOf entries) :
    run = [] ∨ run ∈ nodesOf entries := by
  obtain ⟨_, entry, among, starts⟩ := mem_nodesOf.mp member
  by_cases empty : run = []
  · exact .inl empty
  · exact .inr (mem_nodesOf.mpr ⟨empty, entry, among, (List.prefix_append run more).trans starts⟩)

theorem lastKind?_eq_none {entries : List Entry} (full : run ≠ []) (unspelled : run ∉ nodesOf entries) :
    lastKind? entries run = none := by
  rw [lastKind?, List.findSome?_eq_none_iff]
  intro entry among
  refine if_neg fun same => unspelled ?_
  exact mem_nodesOf.mpr ⟨full, entry, List.mem_reverse.mp among, same ▸ List.prefix_rfl⟩

theorem nodup_grow {nodes : List (List Char)} (distinct : nodes.Nodup) (run : List Char) : (grow nodes run).Nodup := by
  unfold grow
  split
  · exact distinct
  · next fresh => exact List.nodup_append.mpr ⟨distinct, List.nodup_singleton run, by
      rintro other inside _ here rfl
      exact fresh (List.mem_singleton.mp here ▸ inside)⟩

theorem nodup_nodesOf (entries : List Entry) : (nodesOf entries).Nodup := by
  unfold nodesOf
  suffices ∀ runs nodes : List (List Char), nodes.Nodup → (runs.foldl grow nodes).Nodup from this _ _ List.nodup_nil
  intro runs
  induction runs with
  | nil => exact fun _ distinct => distinct
  | cons run runs ih => exact fun nodes distinct => ih _ (nodup_grow distinct run)

-- How many different beginnings the spellings have, the empty one left out.
def beginningCount (entries : List Entry) : Nat :=
  (entries.flatMap fun entry => beginnings [] entry.spelling).dedup.length

theorem length_nodesOf (entries : List Entry) : (nodesOf entries).length = beginningCount entries := by
  refine ((List.perm_ext_iff_of_nodup (nodup_nodesOf entries) (List.nodup_dedup _)).mpr fun run => ?_).length_eq
  rw [List.mem_dedup, nodesOf, mem_foldl_grow]
  simp

-- Of spellings that are all different, the one that spells a run says its kind, wherever it stands.
theorem lastKind?_eq_some_iff {entries : List Entry} (distinct : (entries.map Entry.spelling).Nodup) :
    lastKind? entries run = some kind ↔ ∃ entry ∈ entries, entry.spelling = run ∧ entry.kind? = some kind := by
  constructor
  · intro found
    obtain ⟨entry, among, same⟩ := List.exists_of_findSome?_eq_some found
    split at same
    · next here => exact ⟨entry, List.mem_reverse.mp among, here, same⟩
    · cases same
  · intro ⟨entry, among, here, same⟩
    cases found : lastKind? entries run with
    | none =>
      have none := List.findSome?_eq_none_iff.mp found entry (List.mem_reverse.mpr among)
      rw [if_pos here, same] at none
      cases none
    | some other =>
      obtain ⟨last, amongLast, sameLast⟩ := List.exists_of_findSome?_eq_some found
      split at sameLast
      · next hereLast =>
        have one := List.inj_on_of_nodup_map distinct (List.mem_reverse.mp amongLast) among (hereLast.trans here.symm)
        rw [one] at sameLast
        exact sameLast.symm.trans same
      · cases sameLast

theorem lastKind?_perm {entries others : List Entry} (distinct : (entries.map Entry.spelling).Nodup)
    (perm : entries.Perm others) (run : List Char) : lastKind? entries run = lastKind? others run := by
  refine Option.ext fun kind => ?_
  rw [lastKind?_eq_some_iff distinct, lastKind?_eq_some_iff ((perm.map _).nodup_iff.mp distinct)]
  simp only [perm.mem_iff]

theorem place_far {all : List (List Char)} (full : [] ∉ all) (few : all.length ≤ 65524) (member : run ∈ all) :
    12 ≤ (place all run).number.toNat := by
  rw [place_number few (fun empty => full (empty ▸ member)) member]
  exact Nat.le_add_right ..

theorem bare_of_fixed {base : Builder} {all : List (List Char)} (full : [] ∉ all) (few : all.length ≤ 65524)
    (edges : ∀ row ∈ base.edges.entries, row.1.1.number.toNat < 12)
    (starts : ∀ run ∈ all, ∀ c ∈ run.head?, base.edges.find? (.start, .exact c) = none)
    (accepting : ∀ row ∈ base.accepting.entries, row.1.number.toNat < 12)
    (next : base.next = State.firstFree) (path : base.reservedPath = []) (ends : base.reservedEnd = []) :
    Bare base all where
  full := full
  few := few
  next := next
  edges run member category := by
    have far := place_far full few member
    cases found : base.edges.find? (place all run, category) with
    | none => rfl
    | some target =>
      have near := edges _ (Table.mem_of_find? found)
      dsimp only at near
      omega
  starts := starts
  accepting run member := by
    have far := place_far full few member
    cases found : base.accepting.find? (place all run) with
    | none => rfl
    | some kind =>
      have near := accepting _ (Table.mem_of_find? found)
      dsimp only at near
      omega
  path := path
  ends := ends

namespace Grown

variable {base : Builder} {entries : List Entry} {automaton : Automaton} {run : List Char}

section Edges

variable (grown : Grown base entries automaton)
include grown

theorem far (member : run ∈ nodesOf entries) : 12 ≤ (place (nodesOf entries) run).number.toNat :=
  place_far grown.bare.full grown.bare.few member

theorem place_inj (inside : run = [] ∨ run ∈ nodesOf entries) (otherInside : other = [] ∨ other ∈ nodesOf entries)
    (same : place (nodesOf entries) run = place (nodesOf entries) other) : run = other :=
  place_injective grown.bare.few inside otherInside same

theorem step_place (inside : run = [] ∨ run ∈ nodesOf entries) (category : Category) :
    automaton.step (place (nodesOf entries) run) category =
      (edgeAt (nodesOf entries) (nodesOf entries) entries run category).or
        (base.edges.find? (place (nodesOf entries) run, category)) := by
  obtain ⟨builder, rfl, learned⟩ := grown.learned
  exact learned.edges run inside category

theorem step_start (category : Category) : automaton.step .start category =
    (edgeAt (nodesOf entries) (nodesOf entries) entries [] category).or (base.edges.find? (.start, category)) :=
  grown.step_place (.inl rfl) category

theorem step_run (member : run ∈ nodesOf entries) (category : Category) :
    automaton.step (place (nodesOf entries) run) category =
      edgeAt (nodesOf entries) (nodesOf entries) entries run category := by
  rw [grown.step_place (.inr member), grown.bare.edges run member category, Option.or_none]

theorem step_fixed {state : State} {category : Category} (behind : state ≠ .start)
    (fixed : state.number.toNat < 12) : automaton.step state category = base.edges.find? (state, category) := by
  have apart (run : List Char) (inside : run = [] ∨ run ∈ nodesOf entries) :
      state ≠ place (nodesOf entries) run := by
    intro same
    rcases inside with rfl | member
    · exact behind same
    · have far := grown.far member
      rw [← same] at far
      omega
  obtain ⟨builder, rfl, learned⟩ := grown.learned
  exact learned.otherEdges state apart category

theorem step_exact (inside : run = [] ∨ run ∈ nodesOf entries) (goesOn : run ++ [c] ∈ nodesOf entries) :
    automaton.step (place (nodesOf entries) run) (.exact c) = some (place (nodesOf entries) (run ++ [c])) := by
  rw [grown.step_place inside, edgeAt, if_pos goesOn]
  rfl

theorem step_exact_none (member : run ∈ nodesOf entries) (past : run ++ [c] ∉ nodesOf entries) :
    automaton.step (place (nodesOf entries) run) (.exact c) = none := by
  rw [grown.step_run member, edgeAt, if_neg past]

end Edges

section Marks

variable (grown : Grown base entries automaton)
include grown

theorem classify_run (member : run ∈ nodesOf entries) :
    automaton.classify (place (nodesOf entries) run) = kindAt entries run := by
  obtain ⟨builder, rfl, learned⟩ := grown.learned
  exact learned.kinds run member

theorem classify_fixed {state : State} (fixed : state.number.toNat < 12) :
    automaton.classify state = base.accepting.find? state := by
  have apart (run : List Char) (member : run ∈ nodesOf entries) : state ≠ place (nodesOf entries) run := by
    intro same
    have far := grown.far member
    rw [← same] at far
    omega
  obtain ⟨builder, rfl, learned⟩ := grown.learned
  exact learned.otherKinds state apart

theorem onReservedPath_iff (state : State) : automaton.onReservedPath state = true ↔
    ∃ entry ∈ entries, entry.isReserved ∧ ∃ run, run ≠ [] ∧ run <+: entry.spelling ∧
      state = place (nodesOf entries) run := by
  obtain ⟨builder, rfl, learned⟩ := grown.learned
  rw [build_onReservedPath]
  exact learned.path state

theorem endsReserved_iff (state : State) : automaton.endsReserved state = true ↔
    ∃ entry ∈ entries, entry.isReserved ∧ state = place (nodesOf entries) entry.spelling := by
  obtain ⟨builder, rfl, learned⟩ := grown.learned
  rw [build_endsReserved]
  exact learned.ends state

theorem onReservedPath_run (member : run ∈ nodesOf entries) :
    automaton.onReservedPath (place (nodesOf entries) run) = true ↔
      ∃ entry ∈ entries, entry.isReserved ∧ run <+: entry.spelling := by
  rw [grown.onReservedPath_iff]
  constructor
  · intro ⟨entry, among, reserved, other, full, starts, same⟩
    have inside : other ∈ nodesOf entries := mem_nodesOf.mpr ⟨full, entry, among, starts⟩
    rw [grown.place_inj (.inr member) (.inr inside) same]
    exact ⟨entry, among, reserved, starts⟩
  · intro ⟨entry, among, reserved, starts⟩
    exact ⟨entry, among, reserved, run, fun empty => nodesOf_full entries (empty ▸ member), starts, rfl⟩

theorem endsReserved_run (member : run ∈ nodesOf entries) :
    automaton.endsReserved (place (nodesOf entries) run) = true ↔
      ∃ entry ∈ entries, entry.isReserved ∧ run = entry.spelling := by
  rw [grown.endsReserved_iff]
  constructor
  · intro ⟨entry, among, reserved, same⟩
    have inside : entry.spelling ∈ nodesOf entries :=
      mem_nodesOf.mpr ⟨grown.full entry among, entry, among, List.prefix_rfl⟩
    exact ⟨entry, among, reserved, grown.place_inj (.inr member) (.inr inside) same⟩
  · intro ⟨entry, among, reserved, same⟩
    exact ⟨entry, among, reserved, by rw [same]⟩

theorem onReservedPath_fixed {state : State} (fixed : state.number.toNat < 12) :
    automaton.onReservedPath state = false := by
  cases path : automaton.onReservedPath state with
  | false => rfl
  | true =>
    obtain ⟨entry, among, _, run, full, starts, rfl⟩ := (grown.onReservedPath_iff state).mp path
    have far := grown.far (mem_nodesOf.mpr ⟨full, entry, among, starts⟩)
    omega

theorem endsReserved_fixed {state : State} (fixed : state.number.toNat < 12) :
    automaton.endsReserved state = false := by
  cases ends : automaton.endsReserved state with
  | false => rfl
  | true =>
    obtain ⟨entry, among, _, rfl⟩ := (grown.endsReserved_iff state).mp ends
    have far := grown.far (mem_nodesOf.mpr ⟨grown.full entry among, entry, among, List.prefix_rfl⟩)
    omega

end Marks

end Grown

-- An entry that spells nothing: it is about states with a fixed meaning, and leads on with the first character of no
-- run.
def Entry.Leaves (all : List (List Char)) : Entry → Prop
  | .edge origin _ category =>
    origin.number.toNat < 12 ∧ ∀ run ∈ all, ∀ c ∈ run.head?, (origin, category) ≠ (.start, .exact c)
  | .accept state _ => state.number.toNat < 12
  | _ => False

def spelled (entries : List Entry) : List Entry := entries.filter fun entry => !entry.spelling.isEmpty

def unspelled (entries : List Entry) : List Entry := entries.filter fun entry => entry.spelling.isEmpty

section Mixed

variable {base builder : Builder} {all nodes : List (List Char)} {entries : List Entry} {entry : Entry}

theorem mem_spelled : entry ∈ spelled entries ↔ entry ∈ entries ∧ entry.spelling ≠ [] := by
  simp [spelled]

theorem nodesOf_spelled (entries : List Entry) : nodesOf (spelled entries) = nodesOf entries := by
  unfold nodesOf
  congr 1
  induction entries with
  | nil => rfl
  | cons entry entries ih =>
    rw [spelled, List.filter_cons]
    split
    · rw [List.flatMap_cons, List.flatMap_cons]
      exact congrArg _ ih
    · next empty =>
      have none : entry.spelling = [] := by simpa using empty
      rw [List.flatMap_cons, none]
      exact ih

theorem Bare.add (bare : Bare base all) (leaves : entry.Leaves all) : Bare (base.add entry) all := by
  cases entry with
  | word | symbol | mark => cases leaves
  | edge origin target category =>
    obtain ⟨fixed, apart⟩ := leaves
    refine ⟨bare.full, bare.few, bare.next, fun run member other => ?_, fun run member c head => ?_, bare.accepting,
      bare.path, bare.ends⟩
    · have far := place_far bare.full bare.few member
      change (base.edges.insert _ _).find? _ = _
      rw [Table.find?_insert_of_ne, bare.edges run member]
      intro same
      rw [← (Prod.mk.inj same).1] at far
      omega
    · change (base.edges.insert _ _).find? _ = _
      rw [Table.find?_insert_of_ne _ _ (apart run member c head), bare.starts run member c head]
  | accept state kind =>
    refine ⟨bare.full, bare.few, bare.next, bare.edges, bare.starts, fun run member => ?_, bare.path, bare.ends⟩
    have fixed : state.number.toNat < 12 := leaves
    have far := place_far bare.full bare.few member
    change (base.accepting.insert _ _).find? _ = _
    rw [Table.find?_insert_of_ne, bare.accepting run member]
    intro same
    rw [← same] at far
    omega

theorem Learned.add_base (learned : Learned base all nodes entries builder) (bare : Bare base all)
    (full : ∀ entry ∈ entries, entry.spelling ≠ []) (leaves : entry.Leaves all) :
    Learned (base.add entry) all nodes entries (builder.add entry) := by
  cases entry with
  | word | symbol | mark => cases leaves
  | edge origin target category =>
    obtain ⟨fixed, apart⟩ := leaves
    refine ⟨learned.within, learned.next, fun run inside other => ?_, fun state behind other => ?_, learned.kinds,
      learned.otherKinds, learned.path, learned.ends⟩
    · change (builder.edges.insert _ _).find? _ = (edgeAt all nodes entries run other).or ((base.edges.insert _ _).find? _)
      rw [Table.find?_insert, Table.find?_insert, learned.edges run inside]
      by_cases here : (origin, category) = (place all run, other)
      · rw [if_pos here, if_pos here]
        obtain ⟨place, rfl⟩ := Prod.mk.inj here
        have start : run = [] := by
          refine inside.resolve_right fun member => ?_
          have far := place_far bare.full bare.few member
          rw [← place] at far
          omega
        subst start
        have nothing : edgeAt all nodes entries [] category = none := by
          cases category with
          | exact c =>
            refine if_neg fun member => ?_
            exact apart [c] (learned.within.subset member) c rfl (by rw [place]; rfl)
          | letter | digit =>
            refine if_neg fun spelled => ?_
            obtain ⟨entry, among, _, empty⟩ := spelled
            exact full entry among empty
          | literal => rfl
        rw [nothing, Option.none_or]
      · rw [if_neg here, if_neg here]
    · change (builder.edges.insert _ _).find? _ = (base.edges.insert _ _).find? _
      rw [Table.find?_insert, Table.find?_insert, learned.otherEdges state behind]
  | accept state kind =>
    refine ⟨learned.within, learned.next, learned.edges, learned.otherEdges, fun run member => ?_,
      fun other behind => ?_, learned.path, learned.ends⟩
    · have fixed : state.number.toNat < 12 := leaves
      have far := place_far bare.full bare.few member
      change (builder.accepting.insert _ _).find? _ = _
      rw [Table.find?_insert_of_ne, learned.kinds run member]
      intro same
      rw [← same] at far
      omega
    · change (builder.accepting.insert _ _).find? _ = (base.accepting.insert _ _).find? _
      rw [Table.find?_insert, Table.find?_insert, learned.otherKinds other behind]

theorem addAll_append (builder : Builder) (front back : List Entry) :
    builder.addAll (front ++ back) = (builder.addAll front).addAll back := List.foldl_append

theorem empty_bare (full : [] ∉ all) (few : all.length ≤ 65524) : Bare .empty all :=
  ⟨full, few, rfl, fun _ _ _ => rfl, fun _ _ _ _ => rfl, fun _ _ => rfl, rfl, rfl⟩

theorem front_learned (few : (nodesOf entries).length ≤ 65524)
    (each : ∀ entry ∈ entries, entry.spelling ≠ [] ∨ entry.Leaves (nodesOf entries)) (front : List Entry)
    (starts : front <+: entries) : Bare (Builder.empty.addAll (unspelled front)) (nodesOf entries) ∧
      Learned (Builder.empty.addAll (unspelled front)) (nodesOf entries) (nodesOf front) (spelled front)
        (Builder.empty.addAll front) := by
  induction front using List.reverseRecOn with
  | nil =>
    have bare := empty_bare (nodesOf_full entries) few
    exact ⟨bare, learned_base bare⟩
  | append_singleton front entry ih =>
    obtain ⟨bare, learned⟩ := ih ((List.prefix_append front [entry]).trans starts)
    have member : entry ∈ entries := starts.subset (by simp)
    have grown : nodesOf (front ++ [entry]) = (beginnings [] entry.spelling).foldl grow (nodesOf front) := by
      rw [nodesOf_append, List.flatMap_singleton]
    rw [unspelled, List.filter_append, spelled, List.filter_append, addAll_append .empty front]
    by_cases empty : entry.spelling = []
    · have leaves := (each entry member).resolve_left (not_not_intro empty)
      have same : nodesOf (front ++ [entry]) = nodesOf front := by rw [grown, empty]; rfl
      rw [List.filter_singleton, List.filter_singleton, empty, same, addAll_append]
      simp only [List.isEmpty_nil, Bool.not_true, cond_true, cond_false, List.append_nil]
      exact ⟨bare.add leaves, learned.add_base bare (fun entry among => (mem_spelled.mp among).2) leaves⟩
    · have some : entry.spelling.isEmpty = false := by simpa using empty
      rw [List.filter_singleton, List.filter_singleton, some]
      simp only [Bool.not_false, cond_true, cond_false, List.append_nil]
      refine ⟨bare, ?_⟩
      rw [grown]
      refine add_learned bare learned empty ?_
      rw [← grown]
      obtain ⟨rest, rfl⟩ := starts
      rw [nodesOf_append (front ++ [entry])]
      exact prefix_foldl_grow _ _

-- Entries that spell nothing and spellings, mixed in any way, make an automaton that is grown by the spellings.
theorem ofEntries_grown (few : (nodesOf entries).length ≤ 65524)
    (each : ∀ entry ∈ entries, entry.spelling ≠ [] ∨ entry.Leaves (nodesOf entries)) :
    Grown (Builder.empty.addAll (unspelled entries)) (spelled entries) (.ofEntries entries) := by
  obtain ⟨bare, learned⟩ := front_learned few each entries List.prefix_rfl
  rw [← nodesOf_spelled] at bare learned
  exact ⟨bare, fun entry among => (mem_spelled.mp among).2, _, rfl, learned⟩

end Mixed

end FishLang.Builder
