import FishLang.Node.Basic

namespace FishLang

-- Which child to go to, from the root on.
abbrev Place := List Nat

-- The places above a place, the nearest first.
def Place.above : Place → List Place
  | [] => []
  | index :: rest => (above rest).map (index :: ·) ++ [[]]

namespace Node

def at? (root : Node) : Place → Option Node
  | [] => some root
  | index :: rest => (root.children[index]?).bind fun child => child.at? rest

mutual

def places : Node → List Place
  | ⟨_, _, children, _⟩ => [] :: placesAll 0 children

def placesAll (index : Nat) : List Node → List Place
  | [] => []
  | node :: rest => node.places.map (index :: ·) ++ placesAll (index + 1) rest

end

-- The places met before the cut.
def before (root : Node) (cut : Place) : List Place := root.places.filter (· < cut)

end Node

theorem Place.above_child (place : Place) (index : Nat) : above (place ++ [index]) = place :: above place := by
  induction place with
  | nil => rfl
  | cons first rest ih => simp [above, ih]

theorem Place.mem_above {place other : Place} : other ∈ place.above ↔ other <+: place ∧ other ≠ place := by
  induction place generalizing other with
  | nil => simp [Place.above]
  | cons first rest ih =>
    cases other with
    | nil => simp [Place.above]
    | cons index others =>
      simp only [Place.above, List.mem_append, List.mem_map, List.cons.injEq, List.mem_singleton, reduceCtorEq,
        or_false, List.cons_prefix_cons, ne_eq, not_and]
      constructor
      · rintro ⟨_, member, rfl, rfl⟩
        exact ⟨⟨rfl, (ih.mp member).1⟩, fun _ => (ih.mp member).2⟩
      · rintro ⟨⟨rfl, above⟩, other⟩
        exact ⟨others, ih.mpr ⟨above, other rfl⟩, rfl, rfl⟩

theorem Place.above_prefixes (place : Place) : place.above.Pairwise fun inner outer => outer <+: inner := by
  induction place with
  | nil => exact .nil
  | cons first rest ih =>
    simp only [above, List.pairwise_append, List.pairwise_map]
    refine ⟨ih.imp fun above => List.cons_prefix_cons.mpr ⟨rfl, above⟩, .cons (by simp) .nil, ?_⟩
    intro inner _ top member
    cases List.mem_singleton.mp member
    exact List.nil_prefix

theorem Place.lt_first_child (place other : Place) : other < place ++ [0] ↔ other < place ∨ other = place := by
  induction place generalizing other with
  | nil => cases other <;> simp [List.cons_lt_cons_iff]
  | cons first rest ih =>
    cases other with
    | nil => simp
    | cons index others =>
      simp only [List.cons_append, List.cons_lt_cons_iff, ih, List.cons.injEq]
      by_cases same : index = first <;> simp [same]

theorem Place.eq_of_not_lt {one other : Place} (left : ¬ one < other) (right : ¬ other < one) : one = other :=
  List.le_antisymm (List.not_lt.mp right) (List.not_lt.mp left)

namespace Node

theorem at?_append (root : Node) (place rest : Place) :
    root.at? (place ++ rest) = (root.at? place).bind fun node => node.at? rest := by
  induction place generalizing root with
  | nil => rfl
  | cons index others ih =>
    simp only [List.cons_append, at?]
    cases root.children[index]? with
    | none => rfl
    | some child => exact ih child

theorem at?_child {root node : Node} (present : root.at? place = some node) (index : Nat) :
    root.at? (place ++ [index]) = node.children[index]? := by
  rw [at?_append, present]
  show ((node.children[index]?).bind fun child => some child) = _
  cases node.children[index]? <;> rfl

theorem mem_placesAll {nodes : List Node} : place ∈ placesAll start nodes ↔
    ∃ index rest child, place = (start + index) :: rest ∧ nodes[index]? = some child ∧ rest ∈ child.places := by
  induction nodes generalizing start with
  | nil => simp [placesAll]
  | cons node others ih =>
    simp only [placesAll, List.mem_append, List.mem_map, ih]
    constructor
    · intro either
      cases either with
      | inl here =>
        obtain ⟨rest, member, rfl⟩ := here
        exact ⟨0, rest, node, rfl, rfl, member⟩
      | inr later =>
        obtain ⟨index, rest, child, rfl, found, member⟩ := later
        exact ⟨index + 1, rest, child, by congr 1; omega, found, member⟩
    · intro ⟨index, rest, child, same, found, member⟩
      cases index with
      | zero =>
        cases found
        exact .inl ⟨rest, member, same.symm⟩
      | succ index => exact .inr ⟨index, rest, child, by rw [same]; congr 1; omega, found, member⟩

theorem mem_places {root : Node} : place ∈ root.places ↔ ∃ node, root.at? place = some node := by
  induction place generalizing root with
  | nil =>
    cases root
    simp [places, at?]
  | cons index rest ih =>
    obtain ⟨kind, content, children, line⟩ := root
    simp only [places, List.mem_cons, reduceCtorEq, false_or, mem_placesAll, at?]
    constructor
    · intro ⟨number, others, child, same, found, member⟩
      cases same
      simpa [found] using ih.mp member
    · intro ⟨node, present⟩
      obtain ⟨child, found, present⟩ := Option.bind_eq_some_iff.mp present
      exact ⟨index, rest, child, by simp, found, ih.mpr ⟨node, present⟩⟩

mutual

theorem places_sorted : (node : Node) → node.places.Pairwise (· < ·)
  | ⟨_, _, children, _⟩ => by
    simp only [places, List.pairwise_cons]
    constructor
    · intro place member
      obtain ⟨index, rest, _, rfl, _, _⟩ := mem_placesAll.mp member
      exact List.nil_lt_cons _ _
    · exact placesAll_sorted 0 children

theorem placesAll_sorted (start : Nat) : (nodes : List Node) → (placesAll start nodes).Pairwise (· < ·)
  | [] => .nil
  | node :: others => by
    simp only [placesAll, List.pairwise_append, List.pairwise_map]
    refine ⟨?_, placesAll_sorted (start + 1) others, ?_⟩
    · exact (places_sorted node).imp fun less => by simpa [List.cons_lt_cons_iff] using less
    · intro place here other later
      obtain ⟨rest, _, rfl⟩ := List.mem_map.mp here
      obtain ⟨index, beyond, _, rfl, _, _⟩ := mem_placesAll.mp later
      exact List.cons_lt_cons_iff.mpr (.inl (by omega))

end

theorem places_nodup (root : Node) : root.places.Nodup := by
  refine (places_sorted root).imp fun less => ?_
  rintro rfl
  exact List.lt_irrefl _ less

theorem mem_before {root : Node} : place ∈ root.before cut ↔ (∃ node, root.at? place = some node) ∧ place < cut := by
  simp [before, mem_places]

theorem filter_of_split {front back : List Place} (keep : Place → Bool) (kept : ∀ place ∈ front, keep place = true)
    (dropped : ∀ place ∈ back, keep place = false) : (front ++ back).filter keep = front := by
  rw [List.filter_append, List.filter_eq_self.mpr kept, List.filter_eq_nil_iff.mpr (by simpa using dropped),
    List.append_nil]

theorem before_first_child {root node : Node} (present : root.at? place = some node) :
    root.before (place ++ [0]) = root.before place ++ [place] := by
  obtain ⟨front, back, split⟩ := List.append_of_mem (mem_places.mpr ⟨node, present⟩)
  have sorted := places_sorted root
  rw [split] at sorted
  obtain ⟨_, behind, ahead⟩ := List.pairwise_append.mp sorted
  have earlier : ∀ other ∈ front, other < place := fun other member => ahead other member place (by simp)
  have later : ∀ other ∈ back, place < other := (List.pairwise_cons.mp behind).1
  have one : root.before place = front := by
    rw [before, split]
    apply filter_of_split
    · simpa using earlier
    · simpa [List.lt_irrefl] using fun other member => List.lt_asymm (later other member)
  have two : root.before (place ++ [0]) = front ++ [place] := by
    rw [before, split, List.append_cons front place back]
    apply filter_of_split
    · simpa [Place.lt_first_child, or_imp, forall_and] using fun other member => .inl (earlier other member)
    · intro other member
      have apart : other ≠ place := fun same => List.lt_irrefl place (same ▸ later other member)
      simpa [Place.lt_first_child, apart] using List.lt_asymm (later other member)
  rw [one, two]

theorem lt_next_iff {root node inner : Node} (present : root.at? (parent ++ [index]) = some node)
    (below : root.at? other = some inner) :
    other < parent ++ [index + 1] ↔ other < parent ++ [index] ++ [node.children.length] := by
  induction parent generalizing root other with
  | nil =>
    cases other with
    | nil => simp
    | cons first rest =>
      simp only [List.nil_append, at?, Option.bind_eq_some_iff] at present below
      obtain ⟨child, found, same⟩ := present
      cases same
      obtain ⟨child, found', below⟩ := below
      have inside : first = index → rest < [node.children.length] := by
        intro here
        subst here
        cases found.symm.trans found'
        cases rest with
        | nil => exact List.nil_lt_cons _ _
        | cons number others =>
          obtain ⟨_, found, _⟩ := Option.bind_eq_some_iff.mp below
          exact List.cons_lt_cons_iff.mpr (.inl (List.getElem?_eq_some_iff.mp found).1)
      simp only [List.nil_append, List.cons_append, List.cons_lt_cons_iff, List.not_lt_nil, and_false, or_false]
      by_cases here : first = index
      · simp [here, inside here]
      · omega
  | cons first parent ih =>
    cases other with
    | nil => simp
    | cons number rest =>
      simp only [List.cons_append, at?, Option.bind_eq_some_iff] at present below
      obtain ⟨child, found, present⟩ := present
      obtain ⟨child', found', below⟩ := below
      simp only [List.cons_append, List.cons_lt_cons_iff]
      by_cases here : number = first
      · subst here
        cases found.symm.trans found'
        have same := ih present below
        simp only [List.append_assoc] at same
        simp [same]
      · simp [here]

theorem before_next {root node : Node} (present : root.at? (parent ++ [index]) = some node) :
    root.before (parent ++ [index + 1]) = root.before (parent ++ [index] ++ [node.children.length]) := by
  rw [before, before]
  apply List.filter_congr
  intro other member
  obtain ⟨inner, below⟩ := mem_places.mp member
  simp only [lt_next_iff present below]

end Node

end FishLang
