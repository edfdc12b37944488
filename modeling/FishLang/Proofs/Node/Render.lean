import FishLang.Node.Print
import FishLang.Proofs.Node.Bare
import FishLang.Proofs.Node.Label

namespace FishLang.Node

-- The kinds whose nodes have a text in a program.
def Kind.hasText : Node.Kind → Bool
  | .declaration | .typeName | .functionDef | .param | .assign | .call | .binary | .unary | .suffix | .var | .num
  | .string | .char => true
  | _ => false

-- What sets the parts of a printed tree apart.
def separates (c : Char) : Bool := c == '(' || c == ')' || c == ','

def Clear (text : String) : Prop := ∀ c ∈ text.toList, separates c = false

instance (text : String) : Decidable (Clear text) := List.decidableBAll (separates · = false) text.toList

structure Told (node : Node) : Prop where
  value : node.value.isSome = node.kind.hasText
  clear : ∀ text ∈ node.value, Clear text

def Readable (node : Node) : Prop := ∀ inner ∈ node.preorder, inner.Told

theorem renderAll_eq (nodes : List Node) : renderAll nodes = nodes.map render := by
  induction nodes with
  | nil => rfl
  | cons node rest ih => rw [renderAll, ih, List.map_cons]

def further (parts : List String) : List Char := parts.flatMap fun part => ',' :: ' ' :: part.toList

def enclosed : List String → List Char
  | [] => []
  | first :: others => '(' :: (first.toList ++ (further others ++ [')']))

theorem toList_intercalate (first : String) (others : List String) :
    (", ".intercalate (first :: others)).toList = first.toList ++ further others := by
  induction others generalizing first with
  | nil => simp [further]
  | cons second others ih =>
    rw [String.intercalate_cons_cons, String.toList_append, String.toList_append, ih]
    simp [further]

theorem toList_render (kind : Node.Kind) (value : Option String) (children : List Node) (line : Nat) :
    (render ⟨kind, value, children, line⟩).toList =
      kind.label.toList ++ enclosed (value.toList ++ children.map render) := by
  rw [render, renderAll_eq]
  split
  · next none => simp [none, enclosed]
  · next parts some =>
    obtain ⟨first, others, split⟩ := List.exists_cons_of_ne_nil some
    rw [split, String.toList_append, String.toList_append, String.toList_append, toList_intercalate]
    simp [enclosed]

theorem readable_mk {kind : Node.Kind} {value : Option String} {children : List Node} {line : Nat}
    (readable : Readable ⟨kind, value, children, line⟩) :
    Told ⟨kind, value, children, line⟩ ∧ ∀ child ∈ children, child.Readable := by
  constructor
  · exact readable _ (by simp [preorder])
  · intro child member inner among
    refine readable inner ?_
    rw [preorder, List.mem_cons, mem_preorderAll]
    exact .inr ⟨child, member, among⟩

-- What may stand behind a tree that is printed within another one, or alone.
def Closes (rest : List Char) : Prop := ∀ c ∈ rest.head?, c = ',' ∨ c = ')'

section
variable {rest rest' : List Char}

theorem closes_further (parts : List String) : Closes (further parts ++ ')' :: rest) := by
  cases parts with
  | nil => simp [Closes, further]
  | cons part parts => simp [Closes, further]

theorem Closes.not_enclosed {part : String} {parts : List String} (closes : Closes rest)
    (same : rest = enclosed (part :: parts) ++ rest') : False := by
  rw [same] at closes
  rcases closes '(' rfl with comma | parenthesis
  · cases comma
  · cases parenthesis

theorem Closes.head (closes : Closes rest) (parts : List String) :
    ∀ c ∈ (enclosed parts ++ rest).head?, c.isAlpha = false := by
  intro c first
  cases parts with
  | nil =>
    rcases closes c first with rfl | rfl
    · decide
    · decide
  | cons part parts =>
    cases first
    decide

-- A clear text goes on to what sets it apart from the next part.
theorem text_unique {text text' : String} (clear : Clear text) (clear' : Clear text') {parts parts' : List String}
    (same : text.toList ++ (further parts ++ ')' :: rest) = text'.toList ++ (further parts' ++ ')' :: rest')) :
    text = text' ∧ further parts ++ ')' :: rest = further parts' ++ ')' :: rest' := by
  have inside {text : String} (clear : Clear text) : ∀ c ∈ text.toList, (!separates c) = true := by
    intro c member
    rw [clear c member]
    rfl
  have ends (rest : List Char) (parts : List String) :
      ∀ c ∈ (further parts ++ ')' :: rest).head?, (!separates c) = false := by
    intro c first
    rcases closes_further parts c first with rfl | rfl
    · decide
    · decide
  obtain ⟨texts, others⟩ := run_unique (p := fun c => !separates c) (inside clear) (ends rest parts) (inside clear')
    (ends rest' parts') same
  exact ⟨String.toList_inj.mp texts, others⟩

end

-- A tree is told from how it is printed, and so is where it ends.

mutual

theorem render_unique {rest rest' : List Char} (closes : Closes rest) (closes' : Closes rest') :
    (node other : Node) → node.Readable → other.Readable →
    (render node).toList ++ rest = (render other).toList ++ rest' → node.bare = other.bare ∧ rest = rest'
  | ⟨kind, value, children, line⟩, ⟨kind', value', children', line'⟩, readable, readable', same => by
    obtain ⟨⟨told, clear⟩, below⟩ := readable_mk readable
    obtain ⟨⟨told', clear'⟩, below'⟩ := readable_mk readable'
    rw [toList_render, toList_render, List.append_assoc, List.append_assoc] at same
    obtain ⟨rfl, inside⟩ := Kind.label_unique (closes.head _) (closes'.head _) same
    -- Whether there is a text is told by the kind, which is the same.
    have texts : value.isSome = value'.isSome := told.trans told'.symm
    match value, value', children, children' with
    | some text, some text', children, children' =>
      obtain ⟨rfl, others⟩ := text_unique (clear text rfl) (clear' text' rfl) (by simpa [enclosed] using inside)
      obtain ⟨same, rests⟩ := children_unique children children' below below' others
      exact ⟨by rw [bare_mk, bare_mk, same], rests⟩
    | some _, none, _, _ | none, some _, _, _ => cases texts
    | none, none, [], [] => exact ⟨rfl, inside⟩
    | none, none, [], _ :: _ => exact (closes.not_enclosed inside).elim
    | none, none, _ :: _, [] => exact (closes'.not_enclosed inside.symm).elim
    | none, none, child :: children, child' :: children' =>
      obtain ⟨first, below⟩ := List.forall_mem_cons.mp below
      obtain ⟨first', below'⟩ := List.forall_mem_cons.mp below'
      obtain ⟨one, others⟩ := render_unique (closes_further _) (closes_further _) child child' first first'
        (by simpa [enclosed] using inside)
      obtain ⟨same, rests⟩ := children_unique children children' below below' others
      exact ⟨by rw [bare_mk, bare_mk, List.map_cons, List.map_cons, one, same], rests⟩

theorem children_unique {rest rest' : List Char} :
    (nodes others : List Node) → (∀ node ∈ nodes, node.Readable) → (∀ node ∈ others, node.Readable) →
    further (nodes.map render) ++ ')' :: rest = further (others.map render) ++ ')' :: rest' →
    nodes.map bare = others.map bare ∧ rest = rest'
  | [], [], _, _, same => ⟨rfl, (List.cons.inj same).2⟩
  | [], _ :: _, _, _, same => absurd (List.cons.inj same).1 (by decide)
  | _ :: _, [], _, _, same => absurd (List.cons.inj same).1 (by decide)
  | node :: nodes, other :: others, readable, readable', same => by
    obtain ⟨first, below⟩ := List.forall_mem_cons.mp readable
    obtain ⟨first', below'⟩ := List.forall_mem_cons.mp readable'
    obtain ⟨one, behind⟩ := render_unique (closes_further _) (closes_further _) node other first first'
      (by simpa [further] using same)
    obtain ⟨rest, rests⟩ := children_unique nodes others below below' behind
    exact ⟨by rw [List.map_cons, List.map_cons, one, rest], rests⟩

end

mutual

theorem render_bare : (node : Node) → render node.bare = render node
  | ⟨kind, value, children, line⟩ => by rw [bare, render, render, renderAll_bareAll]

theorem renderAll_bareAll : (nodes : List Node) → renderAll (bareAll nodes) = renderAll nodes
  | [] => rfl
  | node :: rest => by rw [bareAll, renderAll, renderAll, render_bare, renderAll_bareAll]

end

theorem render_of_bare {node other : Node} (same : node.bare = other.bare) : render node = render other := by
  rw [← render_bare, same, render_bare]

theorem Readable.bare_of_render {node other : Node} (readable : node.Readable) (readable' : other.Readable)
    (same : render node = render other) : node.bare = other.bare := by
  have nothing : Closes [] := nofun
  exact (render_unique nothing nothing node other readable readable' (by rw [same])).1

-- A literal that is not clear may print as two.
example : render (group .args [leaf .string "a" 0, leaf .string "b" 0] 0) =
    render (group .args [leaf .string "a), String(b" 0] 0) := by decide +kernel

end FishLang.Node
