import FishLang.Node.Basic

namespace FishLang.Node

mutual

-- The tree on one line. A node without text and children is its label alone.
def render : Node → String
  | ⟨kind, value, children, _⟩ =>
    match value.toList ++ renderAll children with
    | [] => kind.label
    | parts => kind.label ++ "(" ++ ", ".intercalate parts ++ ")"

def renderAll : List Node → List String
  | [] => []
  | node :: rest => render node :: renderAll rest

end

def headline (depth : Nat) (kind : Node.Kind) (value : Option String) : String :=
  .ofList (.replicate (2 * depth) ' ') ++ kind.label ++ (value.elim "" (": " ++ ·))

mutual

def outline (depth : Nat) : Node → List String
  | ⟨kind, value, children, _⟩ => headline depth kind value :: outlineAll (depth + 1) children

def outlineAll (depth : Nat) : List Node → List String
  | [] => []
  | node :: rest => outline depth node ++ outlineAll depth rest

end

def pretty (node : Node) : String := .join ((outline 0 node).map (· ++ "\n"))

end FishLang.Node
