import FishLang.Node.Basic

namespace FishLang.Node

mutual

def bare : Node → Node
  | ⟨kind, value, children, _⟩ => ⟨kind, value, bareAll children, 0⟩

def bareAll : List Node → List Node
  | [] => []
  | node :: rest => bare node :: bareAll rest

end

theorem bareAll_eq (nodes : List Node) : bareAll nodes = nodes.map bare := by
  induction nodes with
  | nil => rfl
  | cons node rest ih => rw [bareAll, ih, List.map_cons]

@[simp] theorem bare_mk (kind : Node.Kind) (value : Option String) (children : List Node) (line : Nat) :
    bare ⟨kind, value, children, line⟩ = ⟨kind, value, children.map bare, 0⟩ := by
  rw [bare, bareAll_eq]

mutual

@[simp] theorem bare_bare : (node : Node) → node.bare.bare = node.bare
  | ⟨kind, value, children, line⟩ => by rw [bare, bare, bareAll_bareAll]

theorem bareAll_bareAll : (nodes : List Node) → bareAll (bareAll nodes) = bareAll nodes
  | [] => rfl
  | node :: rest => by rw [bareAll, bareAll, bare_bare, bareAll_bareAll]

end

@[simp] theorem bare_leaf (kind : Node.Kind) (value : String) (line : Nat) :
    (leaf kind value line).bare = leaf kind value 0 := rfl

@[simp] theorem bare_group (kind : Node.Kind) (children : List Node) (line : Nat) :
    (group kind children line).bare = group kind (children.map bare) 0 := bare_mk ..

@[simp] theorem bare_binary (symbol : String) (left right : Node) :
    (binary symbol left right).bare = ⟨.binary, some symbol, [left.bare, right.bare], 0⟩ := bare_mk ..

end FishLang.Node
