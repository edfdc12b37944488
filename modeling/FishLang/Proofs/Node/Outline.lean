import FishLang.Node.Print
import FishLang.Proofs.Analysis.Place
import FishLang.Proofs.Node.Bare
import FishLang.Proofs.Node.Label

namespace FishLang.Node

-- What the outline shows of a node.
structure Row where
  depth : Nat
  kind : Node.Kind
  value : Option String
deriving DecidableEq, Repr

def Row.line (row : Row) : String := headline row.depth row.kind row.value

mutual

def rows (depth : Nat) : Node → List Row
  | ⟨kind, value, children, _⟩ => ⟨depth, kind, value⟩ :: rowsAll (depth + 1) children

def rowsAll (depth : Nat) : List Node → List Row
  | [] => []
  | node :: rest => rows depth node ++ rowsAll depth rest

end

-- No text in the tree goes over a line's end.
def SingleLined (node : Node) : Prop := ∀ inner ∈ node.preorder, ∀ text ∈ inner.value, '\n' ∉ text.toList

-- The tree printed as lines: one for every node, in the order of the nodes, each as far in as the node is deep.
structure Outlined (root : Node) (lines : List String) : Prop where
  text : root.pretty = .join (lines.map (· ++ "\n"))
  single : ∀ line ∈ lines, '\n' ∉ line.toList
  count : lines.length = root.count
  all : root.preorder.length = root.count
  each : ∀ (index : Nat) node, root.preorder[index]? = some node → ∃ place, root.places[index]? = some place ∧
    root.at? place = some node ∧
    lines[index]? = some (String.ofList (.replicate (2 * place.length) ' ') ++ headline 0 node.kind node.value)

mutual

theorem outline_eq (depth : Nat) : (node : Node) → outline depth node = (rows depth node).map Row.line
  | ⟨kind, value, children, _⟩ => by
    rw [outline, rows, List.map_cons, outlineAll_eq]
    rfl

theorem outlineAll_eq (depth : Nat) : (nodes : List Node) → outlineAll depth nodes = (rowsAll depth nodes).map Row.line
  | [] => rfl
  | node :: rest => by rw [outlineAll, rowsAll, List.map_append, outline_eq, outlineAll_eq]

end

mutual

theorem length_preorder : (node : Node) → node.preorder.length = node.count
  | ⟨kind, value, children, _⟩ => by rw [preorder, count, List.length_cons, length_preorderAll]

theorem length_preorderAll : (nodes : List Node) → (preorderAll nodes).length = countAll nodes
  | [] => rfl
  | node :: rest => by rw [preorderAll, countAll, List.length_append, length_preorder, length_preorderAll]

end

mutual

theorem length_places : (node : Node) → node.places.length = node.count
  | ⟨kind, value, children, _⟩ => by rw [places, count, List.length_cons, length_placesAll]

theorem length_placesAll (index : Nat) : (nodes : List Node) → (placesAll index nodes).length = countAll nodes
  | [] => rfl
  | node :: rest => by
    rw [placesAll, countAll, List.length_append, List.length_map, length_places, length_placesAll]

end

mutual

theorem at?_places : (node : Node) → node.places.map node.at? = node.preorder.map some
  | ⟨kind, value, children, line⟩ => by
    rw [places, preorder, List.map_cons, List.map_cons]
    exact congrArg (_ :: ·) (at?_placesAll ⟨kind, value, children, line⟩ [] children rfl)

theorem at?_placesAll (parent : Node) (front : List Node) : (nodes : List Node) → parent.children = front ++ nodes →
    (placesAll front.length nodes).map parent.at? = (preorderAll nodes).map some
  | [], _ => rfl
  | node :: rest, split => by
    have here : parent.children[front.length]? = some node := by simp [split]
    have later := at?_placesAll parent (front ++ [node]) rest (by simp [split])
    rw [List.length_append, List.length_singleton] at later
    have down : (node.places.map (front.length :: ·)).map parent.at? = node.preorder.map some := by
      rw [← at?_places node, List.map_map]
      refine List.map_congr_left fun place _ => ?_
      simp [at?, here]
    rw [placesAll, preorderAll, List.map_append, List.map_append, down, later]

end

def rowAt (depth : Nat) (place : Place) (node : Node) : Row := ⟨depth + place.length, node.kind, node.value⟩

mutual

theorem rows_eq (depth : Nat) : (node : Node) → rows depth node = List.zipWith (rowAt depth) node.places node.preorder
  | ⟨kind, value, children, line⟩ => by
    rw [rows, places, preorder, List.zipWith_cons_cons, rowsAll_eq depth 0]
    rfl

theorem rowsAll_eq (depth index : Nat) : (nodes : List Node) →
    rowsAll (depth + 1) nodes = List.zipWith (rowAt depth) (placesAll index nodes) (preorderAll nodes)
  | [] => rfl
  | node :: rest => by
    have deeper (place : Place) (inner : Node) : rowAt depth (index :: place) inner = rowAt (depth + 1) place inner := by
      simp only [rowAt, List.length_cons]
      congr 1
      omega
    have aligned : (node.places.map (index :: ·)).length = node.preorder.length := by
      rw [List.length_map, length_places, length_preorder]
    rw [rowsAll, placesAll, preorderAll, List.zipWith_append aligned, List.zipWith_map_left, rows_eq,
      rowsAll_eq depth (index + 1)]
    simp only [deeper]

end

theorem headline_eq (depth : Nat) (kind : Node.Kind) (value : Option String) :
    headline depth kind value = .ofList (.replicate (2 * depth) ' ') ++ headline 0 kind value := by
  simp [headline, String.append_assoc]

theorem toList_pretty (node : Node) :
    node.pretty.toList = (outline 0 node).flatMap fun line => line.toList ++ ['\n'] := by
  rw [pretty, String.toList_join, List.flatMap_map]
  simp

theorem splitLines_ended {lines : List (List Char)} (single : ∀ line ∈ lines, '\n' ∉ line) :
    splitLines (lines.flatMap (· ++ ['\n'])) = lines ++ [[]] := by
  induction lines with
  | nil => rfl
  | cons line rest ih =>
    obtain ⟨first, others⟩ := List.forall_mem_cons.mp single
    rw [List.flatMap_cons, List.append_assoc, List.singleton_append, splitLines_append_newline first, ih others,
      List.cons_append]

theorem headline_single {depth : Nat} {kind : Node.Kind} {value : Option String}
    (single : ∀ text ∈ value, '\n' ∉ text.toList) : '\n' ∉ (headline depth kind value).toList := by
  have label : '\n' ∉ kind.label.toList := fun among => absurd (kind.label_letters _ among) (by decide)
  cases value with
  | none => simp [headline, label]
  | some text => simp [headline, label, single text rfl]

def shownText (value : Option String) : List Char := (value.elim "" (": " ++ ·)).toList

theorem shownText_head (value : Option String) : ∀ c ∈ (shownText value).head?, c.isAlpha = false := by
  cases value with
  | none => simp [shownText]
  | some text => simp [shownText]

theorem shownText_injective {value value' : Option String} (same : shownText value = shownText value') :
    value = value' := by
  cases value <;> cases value' <;> simp_all [shownText, String.toList_inj]

theorem label_head (kind : Node.Kind) (rest : List Char) :
    ∀ c ∈ (kind.label.toList ++ rest).head?, (c == ' ') = false := by
  obtain ⟨letter, others, label⟩ := List.exists_cons_of_ne_nil kind.label_full
  have alpha := kind.label_letters letter (by simp [label])
  intro c first
  rw [label] at first
  cases first
  rw [beq_eq_false_iff_ne]
  rintro rfl
  exact absurd alpha (by decide)

-- A row is told from its line: blanks in front, then the letters of the label, then the text.
theorem line_injective {row other : Row} (same : row.line = other.line) : row = other := by
  obtain ⟨depth, kind, value⟩ := row
  obtain ⟨depth', kind', value'⟩ := other
  have blanks (depth : Nat) : ∀ c ∈ List.replicate (2 * depth) ' ', (c == ' ') = true := by simp
  have texts : List.replicate (2 * depth) ' ' ++ (kind.label.toList ++ shownText value) =
      List.replicate (2 * depth') ' ' ++ (kind'.label.toList ++ shownText value') := by
    simpa [Row.line, headline, shownText] using congrArg String.toList same
  obtain ⟨indents, shown⟩ := run_unique (p := (· == ' ')) (blanks depth) (label_head kind _) (blanks depth')
    (label_head kind' _) texts
  obtain ⟨kinds, tails⟩ := Kind.label_unique (shownText_head value) (shownText_head value') shown
  have depths : 2 * depth = 2 * depth' := by simpa using congrArg List.length indents
  rw [Row.mk.injEq]
  exact ⟨by omega, kinds, shownText_injective tails⟩

-- What stands behind neighbours is not as deep as they are.
def Shallower (depth : Nat) (rest : List Row) : Prop := ∀ row ∈ rest.head?, row.depth < depth

theorem shallower_rows (nodes : List Node) {rest : List Row} (behind : Shallower depth rest) :
    Shallower (depth + 1) (rowsAll depth nodes ++ rest) := by
  cases nodes with
  | nil =>
    intro row first
    exact Nat.lt_succ_of_lt (behind row first)
  | cons node others =>
    obtain ⟨kind, value, children, line⟩ := node
    intro row first
    cases first
    exact Nat.lt_succ_self depth

-- Neighbours are told from their rows, and so is where they end.
theorem rowsAll_unique (depth : Nat) {rest rest' : List Row} (behind : Shallower depth rest)
    (behind' : Shallower depth rest') : (nodes others : List Node) →
    rowsAll depth nodes ++ rest = rowsAll depth others ++ rest' → bareAll nodes = bareAll others ∧ rest = rest'
  | [], [], same => ⟨rfl, same⟩
  | [], ⟨kind, value, children, line⟩ :: others, same => by
    have first : rest.head? = some ⟨depth, kind, value⟩ := congrArg List.head? same
    exact absurd (behind _ first) (Nat.lt_irrefl depth)
  | ⟨kind, value, children, line⟩ :: nodes, [], same => by
    have first : rest'.head? = some ⟨depth, kind, value⟩ := congrArg List.head? same.symm
    exact absurd (behind' _ first) (Nat.lt_irrefl depth)
  | ⟨kind, value, children, line⟩ :: nodes, ⟨kind', value', children', line'⟩ :: others, same => by
    simp only [rowsAll, rows, List.cons_append, List.append_assoc, List.cons.injEq, Row.mk.injEq, true_and] at same
    obtain ⟨⟨rfl, rfl⟩, below⟩ := same
    obtain ⟨inner, later⟩ := rowsAll_unique (depth + 1) (shallower_rows nodes behind) (shallower_rows others behind')
      children children' below
    obtain ⟨next, rests⟩ := rowsAll_unique depth behind behind' nodes others later
    exact ⟨by rw [bareAll, bareAll, bare, bare, inner, next], rests⟩

theorem rows_unique {node other : Node} (same : rows 0 node = rows 0 other) : node.bare = other.bare := by
  have alone (depth : Nat) : Shallower depth [] := nofun
  obtain ⟨bare, _⟩ := rowsAll_unique 0 (alone 0) (alone 0) [node] [other] (by simp [rowsAll, same])
  simpa [bareAll] using bare

mutual

theorem rows_bare (depth : Nat) : (node : Node) → rows depth node.bare = rows depth node
  | ⟨kind, value, children, line⟩ => by rw [bare, rows, rows, rowsAll_bare]

theorem rowsAll_bare (depth : Nat) : (nodes : List Node) → rowsAll depth (bareAll nodes) = rowsAll depth nodes
  | [] => rfl
  | node :: rest => by rw [bareAll, rowsAll, rowsAll, rows_bare, rowsAll_bare]

end

section
variable {node other : Node}

theorem pretty_of_bare (same : node.bare = other.bare) : node.pretty = other.pretty := by
  have rows : rows 0 node = rows 0 other := by rw [← rows_bare, same, rows_bare]
  rw [pretty, pretty, outline_eq, outline_eq, rows]

theorem mem_outline {line : String} (among : line ∈ outline 0 node) :
    ∃ inner ∈ node.preorder, ∃ depth, line = headline depth inner.kind inner.value := by
  rw [outline_eq, rows_eq, ← List.map_uncurry_zip_eq_zipWith] at among
  simp only [List.mem_map] at among
  obtain ⟨_, ⟨⟨place, inner⟩, pair, rfl⟩, rfl⟩ := among
  exact ⟨inner, (List.of_mem_zip pair).2, 0 + place.length, rfl⟩

theorem SingleLined.outline (single : node.SingleLined) : ∀ line ∈ outline 0 node, '\n' ∉ line.toList := by
  intro line among
  obtain ⟨inner, member, depth, rfl⟩ := mem_outline among
  exact headline_single (single inner member)

theorem SingleLined.splitLines_pretty (single : node.SingleLined) :
    splitLines node.pretty.toList = (Node.outline 0 node).map String.toList ++ [[]] := by
  have each : ∀ line ∈ (Node.outline 0 node).map String.toList, '\n' ∉ line := by
    simpa using single.outline
  have split := splitLines_ended each
  rwa [List.flatMap_map, ← toList_pretty] at split

theorem SingleLined.outlined (single : node.SingleLined) : node.Outlined (Node.outline 0 node) where
  text := rfl
  single := single.outline
  count := by
    rw [outline_eq, List.length_map, rows_eq, List.length_zipWith, length_places, length_preorder, Nat.min_self]
  all := length_preorder node
  each := by
    intro index inner found
    have places : (node.places.map node.at?)[index]? = some (some inner) := by
      rw [at?_places, List.getElem?_map, found]
      rfl
    rw [List.getElem?_map] at places
    obtain ⟨place, here, present⟩ := Option.map_eq_some_iff.mp places
    refine ⟨place, here, present, ?_⟩
    rw [outline_eq, rows_eq, List.getElem?_map, List.getElem?_zipWith, here, found]
    simp [rowAt, Row.line, headline_eq place.length]

-- The outline of a tree shows it node by node, a line for each, and two trees with the same outline differ in nothing
-- but the lines of their nodes.
theorem pretty_decodes (single : node.SingleLined) (single' : other.SingleLined) :
    (∃ lines, node.Outlined lines) ∧ (node.pretty = other.pretty ↔ node.bare = other.bare) := by
  refine ⟨⟨_, single.outlined⟩, fun same => ?_, pretty_of_bare⟩
  have split := congrArg (fun text => splitLines text.toList) same
  simp only [single.splitLines_pretty, single'.splitLines_pretty, List.append_cancel_right_eq] at split
  have lines : outline 0 node = outline 0 other := List.map_injective_iff.mpr (fun _ _ => String.toList_inj.mp) split
  rw [outline_eq, outline_eq] at lines
  exact rows_unique (List.map_injective_iff.mpr (fun _ _ => line_injective) lines)

end

def deceptive (value : Option String) : Node :=
  ⟨.program, none, [⟨.splash, value, [⟨.var, some "  Var: x", [], 3⟩], 2⟩, ⟨.var, some ": Block", [], 1⟩], 7⟩

theorem deceptive_decodes : (deceptive none).SingleLined ∧ (deceptive (some "")).SingleLined ∧
    (deceptive none).pretty = "Program\n  Print\n    Var:   Var: x\n  Var: : Block\n" ∧
    (deceptive (some "")).pretty = "Program\n  Print: \n    Var:   Var: x\n  Var: : Block\n" ∧
    (deceptive none).bare ≠ (deceptive (some "")).bare ∧ (∃ lines, (deceptive none).Outlined lines) ∧
    ((deceptive none).pretty = (deceptive (some "")).pretty ↔ (deceptive none).bare = (deceptive (some "")).bare) := by
  have single : (deceptive none).SingleLined := by
    unfold SingleLined
    decide +kernel
  have single' : (deceptive (some "")).SingleLined := by
    unfold SingleLined
    decide +kernel
  exact ⟨single, single', by decide +kernel, by decide +kernel, by decide, pretty_decodes single single'⟩

end FishLang.Node
