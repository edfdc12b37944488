import FishLang.Ty

namespace FishLang

inductive Node.Kind where
  | program
  -- The statements of a braced body, or the program's.
  | block
  -- A variable, named by the text: its type, and its initializer if it has one.
  | declaration
  | initializer
  | typeName
  -- A function, named by the text: parameters, result type, body.
  | functionDef
  | params
  -- A parameter, named by the text, over its type.
  | param
  | when
  | whale
  -- A loop over start, condition, step and block.
  | fork
  -- A block, a block for its failure, and a last block if there is one.
  | attempt
  | splash
  | emerge
  -- A new value for the variable that the text names.
  | assign
  | call
  | args
  | binary
  | unary
  -- An operator behind its operand.
  | suffix
  | var
  | num
  | string
  | char
  | empty
deriving DecidableEq, Repr

namespace Node.Kind

def all : List Node.Kind :=
  [.program, .block, .declaration, .initializer, .typeName, .functionDef, .params, .param, .when, .whale,
    .fork, .attempt, .splash, .emerge, .assign, .call, .args, .binary, .unary, .suffix, .var, .num, .string,
    .char, .empty]

theorem mem_all (kind : Node.Kind) : kind ∈ all := by cases kind <;> decide

def label : Node.Kind → String
  | .program => "Program"
  | .block => "Block"
  | .declaration => "Declaration"
  | .initializer => "Initializer"
  | .typeName => "Type"
  | .functionDef => "FunctionDef"
  | .params => "Params"
  | .param => "Param"
  | .when => "If"
  | .whale => "While"
  | .fork => "For"
  | .attempt => "TryCatch"
  | .splash => "Print"
  | .emerge => "Return"
  | .assign => "Assign"
  | .call => "Call"
  | .args => "Args"
  | .binary => "BinaryOp"
  | .unary => "UnaryOp"
  | .suffix => "PostfixOp"
  | .var => "Var"
  | .num => "Num"
  | .string => "String"
  | .char => "Char"
  | .empty => "Empty"

end Node.Kind

structure Node where
  kind : Node.Kind
  value : Option String
  children : List Node
  -- The line in the text, or zero where there is none.
  line : Nat
deriving Repr

namespace Node

mutual

protected def decEq : (left right : Node) → Decidable (left = right)
  | ⟨kind, value, children, line⟩, ⟨kind', value', children', line'⟩ =>
    match Node.decEqAll children children' with
    | .isTrue same =>
      if others : kind = kind' ∧ value = value' ∧ line = line' then
        .isTrue (by obtain ⟨rfl, rfl, rfl⟩ := others; rw [same])
      else .isFalse (by intro equal; cases equal; exact others ⟨rfl, rfl, rfl⟩)
    | .isFalse apart => .isFalse (by intro equal; cases equal; exact apart rfl)

protected def decEqAll : (left right : List Node) → Decidable (left = right)
  | [], [] => .isTrue rfl
  | [], _ :: _ => .isFalse nofun
  | _ :: _, [] => .isFalse nofun
  | first :: rest, first' :: rest' =>
    match Node.decEq first first', Node.decEqAll rest rest' with
    | .isTrue here, .isTrue there => .isTrue (by rw [here, there])
    | .isFalse apart, _ => .isFalse (by intro equal; cases equal; exact apart rfl)
    | _, .isFalse apart => .isFalse (by intro equal; cases equal; exact apart rfl)

end

instance : DecidableEq Node := Node.decEq

def leaf (kind : Node.Kind) (value : String) (line : Nat) : Node := ⟨kind, some value, [], line⟩

def group (kind : Node.Kind) (children : List Node) (line : Nat) : Node := ⟨kind, none, children, line⟩

def ofTy (ty : Ty) (line : Nat) : Node := leaf .typeName ty.name line

-- An operation stands on the line of its left operand.
def binary (symbol : String) (left right : Node) : Node := ⟨.binary, some symbol, [left, right], left.line⟩

def absent (line : Nat) : Node := group .empty [] line

-- The text of the node; one without has the empty text.
def text (node : Node) : String := node.value.getD ""

def child? (node : Node) (index : Nat) : Option Node := node.children[index]?

def ty? (node : Node) : Option Ty :=
  match node.kind with
  | .typeName => node.value.bind Ty.ofName?
  | _ => none

mutual

-- The node and all below it, every node before its children.
def preorder : Node → List Node
  | ⟨kind, value, children, line⟩ => ⟨kind, value, children, line⟩ :: preorderAll children

def preorderAll : List Node → List Node
  | [] => []
  | node :: rest => preorder node ++ preorderAll rest

end

theorem mem_preorderAll {nodes : List Node} {inner : Node} :
    inner ∈ preorderAll nodes ↔ ∃ node ∈ nodes, inner ∈ node.preorder := by
  induction nodes with
  | nil => simp [preorderAll]
  | cons node rest ih => simp [preorderAll, ih]

mutual

def count : Node → Nat
  | ⟨_, _, children, _⟩ => countAll children + 1

def countAll : List Node → Nat
  | [] => 0
  | node :: rest => count node + countAll rest

end

end Node

end FishLang
