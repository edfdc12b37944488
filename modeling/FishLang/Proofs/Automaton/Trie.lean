import FishLang.Automaton.Builder
import Mathlib.Data.List.Basic

namespace FishLang.Builder

namespace Entry

-- What an entry reserves a kind for. An edge or a kind of a state reserves nothing.
def spelling : Entry → List Char
  | .word spelling _ | .symbol spelling _ => spelling.toList
  | .mark c _ => [c]
  | _ => []

def isWord : Entry → Bool
  | .word _ _ => true
  | _ => false

def isReserved : Entry → Bool
  | .word _ _ | .symbol _ _ => true
  | _ => false

def kind? : Entry → Option Kind
  | .word _ kind | .symbol _ kind | .mark _ kind => some kind
  | _ => none

end Entry

-- The runs that go through a list of characters, one character after the other.
def beginnings (run : List Char) : List Char → List (List Char)
  | [] => []
  | c :: rest => (run ++ [c]) :: beginnings (run ++ [c]) rest

theorem mem_beginnings {run spelling other : List Char} :
    other ∈ beginnings run spelling ↔ ∃ front, front ≠ [] ∧ front <+: spelling ∧ other = run ++ front := by
  induction spelling generalizing run with
  | nil => simp +contextual [beginnings]
  | cons c rest ih =>
    simp only [beginnings, List.mem_cons, ih, List.prefix_cons_iff]
    constructor
    · intro either
      obtain rfl | ⟨front, _, starts, rfl⟩ := either
      · exact ⟨[c], by simp, .inr ⟨[], rfl, List.nil_prefix⟩, rfl⟩
      · exact ⟨c :: front, by simp, .inr ⟨front, rfl, starts⟩, by simp⟩
    · intro laid
      obtain ⟨_, full, rfl | ⟨front, rfl, starts⟩, rfl⟩ := laid
      · exact absurd rfl full
      · cases front with
        | nil => exact .inl rfl
        | cons d front => exact .inr ⟨d :: front, by simp, starts, by simp⟩

theorem getLast?_beginnings {run spelling : List Char} (full : spelling ≠ []) :
    (beginnings run spelling).getLast? = some (run ++ spelling) := by
  induction spelling generalizing run with
  | nil => exact absurd rfl full
  | cons c rest ih =>
    cases rest with
    | nil => rfl
    | cons d rest =>
      rw [beginnings, beginnings, List.getLast?_cons_cons, ← beginnings, ih (by simp)]
      simp

instance decidableMemRuns (run : List Char) (runs : List (List Char)) : Decidable (run ∈ runs) := inferInstance

def grow (nodes : List (List Char)) (run : List Char) : List (List Char) :=
  if run ∈ nodes then nodes else nodes ++ [run]

theorem mem_grow {nodes : List (List Char)} {run other : List Char} :
    other ∈ grow nodes run ↔ other ∈ nodes ∨ other = run := by
  unfold grow
  split
  · next member =>
    constructor
    · exact .inl
    · intro either
      obtain inside | rfl := either
      · exact inside
      · exact member
  · simp

theorem prefix_grow (nodes : List (List Char)) (run : List Char) : nodes <+: grow nodes run := by
  unfold grow
  split
  · exact List.prefix_rfl
  · exact List.prefix_append ..

theorem mem_foldl_grow {nodes runs : List (List Char)} {other : List Char} :
    other ∈ runs.foldl grow nodes ↔ other ∈ nodes ∨ other ∈ runs := by
  induction runs generalizing nodes with
  | nil => simp
  | cons run runs ih => simp [ih, mem_grow, or_assoc]

theorem prefix_foldl_grow (nodes runs : List (List Char)) : nodes <+: runs.foldl grow nodes := by
  induction runs generalizing nodes with
  | nil => exact List.prefix_rfl
  | cons run runs ih => exact (prefix_grow nodes run).trans (ih _)

-- The beginnings of all spellings, in the order in which they are met.
def nodesOf (entries : List Entry) : List (List Char) :=
  (entries.flatMap fun entry => beginnings [] entry.spelling).foldl grow []

theorem mem_nodesOf {entries : List Entry} {run : List Char} :
    run ∈ nodesOf entries ↔ run ≠ [] ∧ ∃ entry ∈ entries, run <+: entry.spelling := by
  simp only [nodesOf, mem_foldl_grow, List.not_mem_nil, false_or, List.mem_flatMap, mem_beginnings, List.nil_append]
  constructor
  · intro laid
    obtain ⟨entry, member, front, full, starts, rfl⟩ := laid
    exact ⟨full, entry, member, starts⟩
  · intro ⟨full, entry, member, starts⟩
    exact ⟨entry, member, run, full, starts, rfl⟩

-- The state of a run, where `all` lists the runs in the order of their states.
def place (all : List (List Char)) (run : List Char) : State :=
  if run = [] then .start else ⟨State.firstFree + .ofNat (all.idxOf run)⟩

theorem place_nil (all : List (List Char)) : place all [] = .start := rfl

theorem place_number {all : List (List Char)} (few : all.length ≤ 65524) {run : List Char} (full : run ≠ [])
    (member : run ∈ all) : (place all run).number.toNat = 12 + all.idxOf run := by
  have index := List.idxOf_lt_length_of_mem member
  rw [place, if_neg full, UInt16.toNat_add, UInt16.toNat_ofNat']
  change (12 + all.idxOf run % 2 ^ 16) % 2 ^ 16 = 12 + all.idxOf run
  omega

theorem place_injective {all : List (List Char)} (few : all.length ≤ 65524) {run other : List Char}
    (inside : run = [] ∨ run ∈ all) (otherInside : other = [] ∨ other ∈ all)
    (same : place all run = place all other) : run = other := by
  have number : (place all run).number.toNat = (place all other).number.toNat := by rw [same]
  by_cases empty : run = []
  · by_cases otherEmpty : other = []
    · rw [empty, otherEmpty]
    · rw [empty, place_nil, place_number few otherEmpty (otherInside.resolve_left otherEmpty)] at number
      change 0 = _ at number
      omega
  · by_cases otherEmpty : other = []
    · rw [otherEmpty, place_nil, place_number few empty (inside.resolve_left empty)] at number
      change _ = 0 at number
      omega
    · have member := otherInside.resolve_left otherEmpty
      rw [place_number few empty (inside.resolve_left empty), place_number few otherEmpty member] at number
      exact (List.idxOf_inj (inside.resolve_left empty)).mp (by omega)

def lastKind? (entries : List Entry) (run : List Char) : Option Kind :=
  entries.reverse.findSome? fun entry => if entry.spelling = run then entry.kind? else none

-- What the state of a run accepts: a beginning of a word is a name, unless it is spelled itself.
def kindAt (entries : List Entry) (run : List Char) : Option Kind :=
  (lastKind? entries run).or
    (if ∃ entry ∈ entries, entry.isWord ∧ run <+: entry.spelling ∧ run ≠ entry.spelling then some .identifier
    else none)

-- Where the trie goes on from a run. Behind a word, letters and digits make a name.
def edgeAt (all nodes : List (List Char)) (entries : List Entry) (run : List Char) : Category → Option State
  | .exact c => if run ++ [c] ∈ nodes then some (place all (run ++ [c])) else none
  | .letter | .digit => if ∃ entry ∈ entries, entry.isWord ∧ entry.spelling = run then some .ident else none
  | .literal => none

-- What a base must leave free for the runs.
structure Bare (base : Builder) (all : List (List Char)) : Prop where
  full : [] ∉ all
  few : all.length ≤ 65524
  next : base.next = State.firstFree
  edges : ∀ run ∈ all, ∀ category, base.edges.find? (place all run, category) = none
  starts : ∀ run ∈ all, ∀ c ∈ run.head?, base.edges.find? (.start, .exact c) = none
  accepting : ∀ run ∈ all, base.accepting.find? (place all run) = none
  path : base.reservedPath = []
  ends : base.reservedEnd = []

-- What a builder has learned from entries on top of a base, where `nodes` are the runs met so far.
structure Learned (base : Builder) (all nodes : List (List Char)) (entries : List Entry) (builder : Builder) :
    Prop where
  within : nodes <+: all
  next : builder.next = State.firstFree + .ofNat nodes.length
  edges : ∀ run, run = [] ∨ run ∈ all → ∀ category, builder.edges.find? (place all run, category) =
    (edgeAt all nodes entries run category).or (base.edges.find? (place all run, category))
  otherEdges : ∀ state, (∀ run, run = [] ∨ run ∈ all → state ≠ place all run) → ∀ category,
    builder.edges.find? (state, category) = base.edges.find? (state, category)
  kinds : ∀ run ∈ all, builder.accepting.find? (place all run) = kindAt entries run
  otherKinds : ∀ state, (∀ run ∈ all, state ≠ place all run) →
    builder.accepting.find? state = base.accepting.find? state
  path : ∀ state, state ∈ builder.reservedPath ↔
    ∃ entry ∈ entries, entry.isReserved ∧ ∃ run, run ≠ [] ∧ run <+: entry.spelling ∧ state = place all run
  ends : ∀ state, state ∈ builder.reservedEnd ↔
    ∃ entry ∈ entries, entry.isReserved ∧ state = place all entry.spelling

variable {base builder : Builder} {all nodes : List (List Char)} {entries : List Entry}

theorem learned_base (bare : Bare base all) : Learned base all [] [] base where
  within := List.nil_prefix
  next := bare.next
  edges run _ category := by cases category <;> simp [edgeAt]
  otherEdges _ _ _ := rfl
  kinds run member := by simp [kindAt, lastKind?, bare.accepting run member]
  otherKinds _ _ := rfl
  path := by simp [bare.path]
  ends := by simp [bare.ends]

theorem place_fresh {run : List Char} (full : run ≠ []) (fresh : run ∉ nodes) (within : nodes ++ [run] <+: all) :
    place all run = ⟨State.firstFree + .ofNat nodes.length⟩ := by
  obtain ⟨rest, rfl⟩ := within
  have index : (nodes ++ [run] ++ rest).idxOf run = nodes.length := by
    rw [List.append_assoc, List.idxOf_append_of_notMem fresh]
    simp
  rw [place, if_neg full, index]

theorem edgeAt_grow (run other : List Char) (c : Char) (category : Category) :
    edgeAt all (grow nodes (run ++ [c])) entries other category =
      if run = other ∧ .exact c = category then some (place all (run ++ [c]))
      else edgeAt all nodes entries other category := by
  cases category with
  | exact d =>
    by_cases here : run = other ∧ c = d
    · obtain ⟨rfl, rfl⟩ := here
      simp [edgeAt, mem_grow]
    · have apart : other ++ [d] ≠ run ++ [c] := by
        intro same
        obtain ⟨front, back⟩ := List.append_inj' same rfl
        exact here ⟨front.symm, (List.cons.inj back).1.symm⟩
      simp [edgeAt, mem_grow, apart, here]
  | _ => simp [edgeAt]

theorem base_starts_none (bare : Bare base all) (inside : run = [] ∨ run ∈ all) (goesOn : run ++ [c] ∈ all) :
    base.edges.find? (place all run, .exact c) = none := by
  rcases inside with rfl | member
  · exact bare.starts _ goesOn c rfl
  · exact bare.edges run member _

theorem extend_learned (bare : Bare base all) (learned : Learned base all nodes entries builder)
    (inside : run = [] ∨ run ∈ all) (within : grow nodes (run ++ [c]) <+: all) :
    (builder.extend (place all run) c).2 = place all (run ++ [c]) ∧
      Learned base all (grow nodes (run ++ [c])) entries (builder.extend (place all run) c).1 := by
  have found := learned.edges run inside (.exact c)
  by_cases member : run ++ [c] ∈ nodes
  · simp only [edgeAt, if_pos member, Option.some_or] at found
    have grown : grow nodes (run ++ [c]) = nodes := if_pos member
    rw [extend, found, grown]
    exact ⟨rfl, learned⟩
  · have goesOn : run ++ [c] ∈ all := within.subset (mem_grow.mpr (.inr rfl))
    rw [base_starts_none bare inside goesOn, edgeAt, if_neg member, Option.none_or] at found
    have grown : grow nodes (run ++ [c]) = nodes ++ [run ++ [c]] := if_neg member
    have fresh : place all (run ++ [c]) = ⟨builder.next⟩ := by
      rw [learned.next, place_fresh (by simp) member (grown ▸ within)]
    rw [extend, found]
    refine ⟨fresh.symm, within, ?_, ?_, ?_, learned.kinds, learned.otherKinds, learned.path, learned.ends⟩
    · change builder.next + 1 = _
      rw [learned.next, grown, List.length_append, List.length_singleton, UInt16.ofNat_add, UInt16.add_assoc]
      rfl
    · intro other otherInside category
      change (builder.edges.insert _ _).find? _ = _
      rw [Table.find?_insert, edgeAt_grow, learned.edges other otherInside]
      by_cases here : run = other ∧ .exact c = category
      · obtain ⟨rfl, rfl⟩ := here
        simp [fresh]
      · rw [if_neg here, if_neg]
        intro same
        obtain ⟨places, categories⟩ := Prod.mk.inj same
        exact here ⟨place_injective bare.few inside otherInside places, categories⟩
    · intro state apart category
      change (builder.edges.insert _ _).find? _ = _
      rw [Table.find?_insert_of_ne, learned.otherEdges state apart]
      intro same
      exact apart run inside (Prod.mk.inj same).1.symm

-- Following a spelling makes what is missing of it and passes the places of its beginnings.
theorem follow_learned (bare : Bare base all) (learned : Learned base all nodes entries builder)
    (inside : run = [] ∨ run ∈ all) (within : (beginnings run spelling).foldl grow nodes <+: all) :
    (builder.follow (place all run) spelling).2 = (beginnings run spelling).map (place all) ∧
      Learned base all ((beginnings run spelling).foldl grow nodes) entries
        (builder.follow (place all run) spelling).1 := by
  induction spelling generalizing builder nodes run with
  | nil => exact ⟨rfl, learned⟩
  | cons c rest ih =>
    rw [beginnings, List.foldl_cons] at within
    have first := (prefix_foldl_grow _ _).trans within
    obtain ⟨reached, extended⟩ := extend_learned bare learned inside first
    have goesOn : run ++ [c] ∈ all := first.subset (mem_grow.mpr (.inr rfl))
    obtain ⟨path, done⟩ := ih extended (.inr goesOn) within
    rw [follow]
    dsimp only
    rw [reached, path]
    exact ⟨rfl, done⟩

theorem lastKind?_append (entries : List Entry) (entry : Entry) (run : List Char) :
    lastKind? (entries ++ [entry]) run =
      (if entry.spelling = run then entry.kind? else none).or (lastKind? entries run) := by
  unfold lastKind?
  rw [List.reverse_append, List.reverse_singleton, List.singleton_append, List.findSome?_cons]
  cases (if entry.spelling = run then entry.kind? else none) <;> rfl

theorem kindAt_append (entries : List Entry) {entry : Entry} {kind : Kind} (spelled : entry.kind? = some kind)
    (run : List Char) : kindAt (entries ++ [entry]) run =
      if entry.spelling = run then some kind
      else (kindAt entries run).or (if entry.isWord ∧ run <+: entry.spelling then some .identifier else none) := by
  unfold kindAt
  rw [lastKind?_append, spelled]
  by_cases same : entry.spelling = run
  · simp [same]
  · have apart : run ≠ entry.spelling := fun equal => same equal.symm
    rw [if_neg same, if_neg same, Option.none_or, Option.or_assoc]
    congr 1
    simp only [List.mem_append, List.mem_singleton, or_and_right, exists_or, exists_eq_left, apart, and_true, ne_eq,
      not_false_eq_true]
    by_cases earlier : ∃ entry ∈ entries, entry.isWord = true ∧ run <+: entry.spelling ∧ run ≠ entry.spelling
    · simp [earlier]
    · simp [earlier]

theorem edgeAt_append (entries : List Entry) (entry : Entry) (run : List Char) (category : Category) :
    edgeAt all nodes (entries ++ [entry]) run category =
      if entry.isWord ∧ entry.spelling = run ∧ (category = .letter ∨ category = .digit) then some .ident
      else edgeAt all nodes entries run category := by
  cases category with
  | exact c => simp [edgeAt]
  | literal => simp [edgeAt]
  | _ =>
    simp only [edgeAt, List.mem_append, List.mem_singleton, or_and_right, exists_or, exists_eq_left]
    by_cases here : entry.isWord = true ∧ entry.spelling = run
    · simp [here]
    · simp [here]

theorem mem_markPath {states : List State} {state : State} :
    state ∈ (builder.markPath states).reservedPath ↔ state ∈ builder.reservedPath ∨ state ∈ states := by
  change state ∈ states.foldl (fun marked state => marked.insert state) builder.reservedPath ↔ _
  generalize builder.reservedPath = marked
  induction states generalizing marked with
  | nil => simp
  | cons first states ih =>
    rw [List.foldl_cons, ih, List.mem_insert_iff, List.mem_cons]
    simp only [or_left_comm, or_assoc]

theorem acceptIfNew_eq (builder : Builder) (state : State) (kind : Kind) : builder.acceptIfNew state kind =
    { builder with accepting := (builder.acceptIfNew state kind).accepting } := by
  unfold acceptIfNew
  split <;> rfl

theorem find?_acceptIfNew (builder : Builder) (state other : State) (kind : Kind) :
    (builder.acceptIfNew state kind).accepting.find? other =
      (builder.accepting.find? other).or (if other = state then some kind else none) := by
  unfold acceptIfNew
  split
  · next there =>
    by_cases same : other = state
    · obtain ⟨found, accepts⟩ := Option.isSome_iff_exists.mp there
      rw [same, accepts]
      rfl
    · simp [same]
  · next missing =>
    have nothing : builder.accepting.find? state = none := by simpa [Table.contains] using missing
    change (builder.accepting.insert state kind).find? other = _
    rw [Table.find?_insert]
    by_cases same : state = other
    · simp [← same, nothing]
    · simp [same, eq_comm]

theorem acceptAllNew (builder : Builder) (states : List State) (kind : Kind) :
    let after := states.foldl (fun b state => b.acceptIfNew state kind) builder
    after = { builder with accepting := after.accepting } ∧ ∀ state, after.accepting.find? state =
      (builder.accepting.find? state).or (if state ∈ states then some kind else none) := by
  induction states generalizing builder with
  | nil => simp
  | cons first states ih =>
    obtain ⟨same, found⟩ := ih (builder.acceptIfNew first kind)
    refine ⟨?_, fun state => ?_⟩
    · rw [List.foldl_cons, same, acceptIfNew_eq]
    · rw [List.foldl_cons, found, find?_acceptIfNew, Option.or_assoc]
      congr 1
      by_cases here : state = first
      · simp [here]
      · simp [here]

-- What an entry does to the tables of a builder that has followed its spelling.
structure Registers (all : List (List Char)) (entry : Entry) (kind : Kind) (builder after : Builder) : Prop where
  next : after.next = builder.next
  edges : ∀ state category, after.edges.find? (state, category) =
    if entry.isWord ∧ state = place all entry.spelling ∧ (category = .letter ∨ category = .digit) then some .ident
    else builder.edges.find? (state, category)
  accepting : ∀ state, after.accepting.find? state =
    if state = place all entry.spelling then some kind
    else (builder.accepting.find? state).or
      (if entry.isWord ∧ state ∈ (beginnings [] entry.spelling).map (place all) then some .identifier else none)
  path : ∀ state, state ∈ after.reservedPath ↔ state ∈ builder.reservedPath ∨
    entry.isReserved ∧ state ∈ (beginnings [] entry.spelling).map (place all)
  ends : ∀ state, state ∈ after.reservedEnd ↔ state ∈ builder.reservedEnd ∨
    entry.isReserved ∧ state = place all entry.spelling

theorem mem_places {spelling : List Char} {state : State} : state ∈ (beginnings [] spelling).map (place all) ↔
    ∃ run, run ≠ [] ∧ run <+: spelling ∧ state = place all run := by
  simp only [List.mem_map, mem_beginnings, List.nil_append]
  constructor
  · intro ⟨_, ⟨run, full, starts, same⟩, placed⟩
    exact ⟨run, full, starts, by rw [← placed, same]⟩
  · intro ⟨run, full, starts, placed⟩
    exact ⟨run, ⟨run, full, starts, rfl⟩, placed.symm⟩

theorem registers_learned (bare : Bare base all) (learned : Learned base all nodes entries builder)
    (registers : Registers all entry kind builder after) (spelled : entry.kind? = some kind)
    (known : ∀ run, run ≠ [] → run <+: entry.spelling → run ∈ all) (full : entry.spelling ≠ []) :
    Learned base all nodes (entries ++ [entry]) after := by
  have whole : entry.spelling ∈ all := known _ full List.prefix_rfl
  have same {run : List Char} (inside : run = [] ∨ run ∈ all) :
      place all run = place all entry.spelling ↔ entry.spelling = run :=
    ⟨fun equal => (place_injective bare.few inside (.inr whole) equal).symm, fun equal => equal ▸ rfl⟩
  refine ⟨learned.within, registers.next.trans learned.next, ?_, ?_, ?_, ?_, ?_, ?_⟩
  · intro run inside category
    rw [registers.edges, edgeAt_append, learned.edges run inside]
    simp only [same inside]
    split
    · rfl
    · rfl
  · intro state apart category
    rw [registers.edges, if_neg fun here => apart _ (.inr whole) here.2.1, learned.otherEdges state apart]
  · intro run member
    have begins : place all run ∈ (beginnings [] entry.spelling).map (place all) ↔ run <+: entry.spelling := by
      rw [mem_places]
      constructor
      · intro reached
        obtain ⟨other, otherFull, starts, equal⟩ := reached
        rwa [place_injective bare.few (.inr member) (.inr (known other otherFull starts)) equal]
      · intro starts
        exact ⟨run, fun empty => bare.full (empty ▸ member), starts, rfl⟩
    rw [registers.accepting, kindAt_append entries spelled, learned.kinds run member]
    simp only [begins, same (.inr member)]
  · intro state apart
    rw [registers.accepting, if_neg (apart _ whole), learned.otherKinds state apart, if_neg, Option.or_none]
    intro accepts
    obtain ⟨run, runFull, starts, equal⟩ := mem_places.mp accepts.2
    exact apart run (known run runFull starts) equal
  · intro state
    rw [registers.path, learned.path, mem_places]
    simp only [List.mem_append, List.mem_singleton, or_and_right, exists_or, exists_eq_left]
  · intro state
    rw [registers.ends, learned.ends]
    simp only [List.mem_append, List.mem_singleton, or_and_right, exists_or, exists_eq_left]

theorem mem_markEnd {state other : State} :
    other ∈ (builder.markEnd state).reservedEnd ↔ other ∈ builder.reservedEnd ∨ other = state := by
  change other ∈ builder.reservedEnd.insert state ↔ _
  rw [List.mem_insert_iff, or_comm]

theorem last_of_path {spelling : List Char} {path : List State} (full : spelling ≠ [])
    (passed : path = (beginnings [] spelling).map (place all)) :
    path.getLast? = some (place all spelling) ∧ ∀ state, state ≠ place all spelling →
      (state ∈ path.dropLast ↔ state ∈ (beginnings [] spelling).map (place all)) := by
  have last : path.getLast? = some (place all spelling) := by
    rw [passed, List.getLast?_map, getLast?_beginnings full]
    rfl
  refine ⟨last, fun state apart => ?_⟩
  have whole := List.dropLast_append_getLast? _ last
  rw [← passed]
  conv_rhs => rw [← whole]
  simp [apart]

theorem word_registers {spelling : String} (full : spelling.toList ≠ [])
    (passed : (builder.follow .start spelling.toList).2 = (beginnings [] spelling.toList).map (place all)) :
    Registers all (.word spelling kind) kind (builder.follow .start spelling.toList).1
      (builder.word spelling.toList kind) := by
  obtain ⟨last, before⟩ := last_of_path full passed
  unfold word
  dsimp only
  rw [last]
  dsimp only
  generalize (builder.follow .start spelling.toList).1 = grown at *
  generalize (builder.follow .start spelling.toList).2 = path at *
  obtain ⟨same, named⟩ := acceptAllNew grown path.dropLast .identifier
  generalize path.dropLast.foldl (fun b state => b.acceptIfNew state .identifier) grown = after at *
  refine ⟨?_, ?_, ?_, ?_, ?_⟩
  · change after.next = grown.next
    rw [same]
  · intro state category
    have edges : after.edges = grown.edges := by rw [same]
    change ((after.edges.insert _ _).insert _ _).find? _ = _
    rw [Table.find?_insert, Table.find?_insert, edges]
    by_cases here : state = place all spelling.toList
    · rw [here]
      cases category <;> simp [Entry.isWord, Entry.spelling]
    · have apart : place all spelling.toList ≠ state := fun equal => here equal.symm
      simp [here, apart, Entry.spelling]
  · intro state
    change (after.accepting.insert _ _).find? _ = _
    rw [Table.find?_insert, named]
    by_cases here : state = place all spelling.toList
    · simp [here, Entry.spelling]
    · have apart : place all spelling.toList ≠ state := fun equal => here equal.symm
      simp only [here, apart, before state here, Entry.spelling, Entry.isWord, true_and, if_false]
  · intro state
    change state ∈ (after.markPath path).reservedPath ↔ _
    rw [mem_markPath, same, passed]
    simp [Entry.isReserved, Entry.spelling]
  · intro state
    change state ∈ ((after.markPath path).markEnd (place all spelling.toList)).reservedEnd ↔ _
    rw [mem_markEnd]
    change state ∈ after.reservedEnd ∨ _ ↔ _
    rw [same]
    simp [Entry.isReserved, Entry.spelling]

theorem symbol_registers {spelling : String} (full : spelling.toList ≠ [])
    (passed : (builder.follow .start spelling.toList).2 = (beginnings [] spelling.toList).map (place all)) :
    Registers all (.symbol spelling kind) kind (builder.follow .start spelling.toList).1
      (builder.symbol spelling.toList kind) := by
  obtain ⟨last, _⟩ := last_of_path full passed
  unfold symbol
  dsimp only
  rw [last]
  dsimp only
  generalize (builder.follow .start spelling.toList).1 = grown at *
  generalize (builder.follow .start spelling.toList).2 = path at *
  refine ⟨rfl, fun state category => ?_, fun state => ?_, fun state => ?_, fun state => ?_⟩
  · simp [Entry.isWord, markPath, markEnd, accept]
  · change (grown.accepting.insert _ _).find? _ = _
    rw [Table.find?_insert]
    by_cases here : state = place all spelling.toList
    · simp [here, Entry.spelling]
    · have apart : place all spelling.toList ≠ state := fun equal => here equal.symm
      simp [here, apart, Entry.spelling, Entry.isWord]
  · change state ∈ (grown.markPath path).reservedPath ↔ _
    rw [mem_markPath, passed]
    simp [Entry.isReserved, Entry.spelling]
  · change state ∈ ((grown.markPath path).markEnd (place all spelling.toList)).reservedEnd ↔ _
    rw [mem_markEnd]
    simp [Entry.isReserved, Entry.spelling, markPath]

theorem mark_registers (passed : (builder.extend .start c).2 = place all [c]) :
    Registers all (.mark c kind) kind (builder.extend .start c).1 (builder.mark c kind) := by
  unfold mark
  dsimp only
  rw [passed]
  refine ⟨rfl, fun state category => ?_, fun state => ?_, fun state => ?_, fun state => ?_⟩
  · simp [Entry.isWord, accept]
  · change ((builder.extend .start c).1.accepting.insert _ _).find? _ = _
    rw [Table.find?_insert]
    by_cases here : state = place all [c]
    · simp [here, Entry.spelling]
    · have apart : place all [c] ≠ state := fun equal => here equal.symm
      simp [here, apart, Entry.spelling, Entry.isWord]
  · simp [Entry.isReserved, accept]
  · simp [Entry.isReserved, accept]

theorem add_learned (bare : Bare base all) (learned : Learned base all nodes entries builder)
    (full : entry.spelling ≠ []) (within : (beginnings [] entry.spelling).foldl grow nodes <+: all) :
    Learned base all ((beginnings [] entry.spelling).foldl grow nodes) (entries ++ [entry]) (builder.add entry) := by
  have known : ∀ run, run ≠ [] → run <+: entry.spelling → run ∈ all := by
    intro run runFull starts
    exact within.subset (mem_foldl_grow.mpr (.inr (mem_beginnings.mpr ⟨run, runFull, starts, rfl⟩)))
  cases entry with
  | edge => exact absurd rfl full
  | accept => exact absurd rfl full
  | word spelling kind =>
    obtain ⟨passed, grown⟩ := follow_learned bare learned (.inl rfl) within
    exact registers_learned bare grown (word_registers full passed) rfl known full
  | symbol spelling kind =>
    obtain ⟨passed, grown⟩ := follow_learned bare learned (.inl rfl) within
    exact registers_learned bare grown (symbol_registers full passed) rfl known full
  | mark c kind =>
    obtain ⟨passed, grown⟩ := extend_learned bare learned (.inl rfl) within
    exact registers_learned bare grown (mark_registers passed) rfl known full

theorem nodesOf_append (done rest : List Entry) : nodesOf (done ++ rest) =
    (rest.flatMap fun entry => beginnings [] entry.spelling).foldl grow (nodesOf done) := by
  unfold nodesOf
  rw [List.flatMap_append, List.foldl_append]

theorem addAll_learned (bare : Bare base (nodesOf entries)) (full : ∀ entry ∈ entries, entry.spelling ≠ []) :
    Learned base (nodesOf entries) (nodesOf entries) entries (base.addAll entries) := by
  have step : ∀ done rest builder, entries = done ++ rest →
      Learned base (nodesOf entries) (nodesOf done) done builder →
      Learned base (nodesOf entries) (nodesOf entries) entries (builder.addAll rest) := by
    intro done rest
    induction rest generalizing done with
    | nil =>
      intro builder whole learned
      rw [List.append_nil] at whole
      rw [whole] at learned ⊢
      exact learned
    | cons entry rest ih =>
      intro builder whole learned
      have member : entry ∈ entries := by simp [whole]
      have grown : nodesOf (done ++ [entry]) = (beginnings [] entry.spelling).foldl grow (nodesOf done) := by
        rw [nodesOf_append, List.flatMap_singleton]
      have whole' : entries = (done ++ [entry]) ++ rest := by simp [whole]
      have within : nodesOf (done ++ [entry]) <+: nodesOf entries := by
        rw [whole', nodesOf_append (done ++ [entry])]
        exact prefix_foldl_grow _ _
      refine ih (done ++ [entry]) (builder.add entry) whole' ?_
      rw [grown] at within ⊢
      exact add_learned bare learned (full entry member) within
  exact step [] entries base rfl (learned_base bare)

theorem build_onReservedPath (builder : Builder) (state : State) :
    builder.build.onReservedPath state = true ↔ state ∈ builder.reservedPath := List.contains_iff_mem

theorem build_endsReserved (builder : Builder) (state : State) :
    builder.build.endsReserved state = true ↔ state ∈ builder.reservedEnd := List.contains_iff_mem

end FishLang.Builder
