import FishLang.Analysis.Diagnostic
import FishLang.Node.Basic
import FishLang.Table

namespace FishLang

-- Whether a value may stand where a type is expected. A type that is not known agrees with every type.
def compatible : (expected given : Option Ty) → Bool
  | some expected, some given => expected == given
  | _, _ => true

structure Parameter where
  name : String
  ty : Option Ty
  line : Nat
deriving DecidableEq, Repr

structure Signature where
  name : String
  result : Option Ty
  parameters : List Parameter
deriving DecidableEq, Repr

abbrev Scope := Table String (Option Ty)

structure Context where
  -- The open scopes, the innermost first.
  scopes : List Scope
  functions : Table String Signature
  enclosing : Option Signature
  reports : List Report
deriving Repr

namespace Context

def empty : Context := ⟨[], .empty, none, []⟩

def report (context : Context) (finding : Finding) (line : Nat) : Context :=
  { context with reports := context.reports ++ [⟨finding, line⟩] }

def require (context : Context) (condition : Bool) (finding : Finding) (line : Nat) : Context :=
  if condition then context else context.report finding line

def openScope (context : Context) : Context := { context with scopes := .empty :: context.scopes }

def closeScope (context : Context) : Context := { context with scopes := context.scopes.tail }

def lookup (context : Context) (name : String) : Option (Option Ty) :=
  context.scopes.findSome? (·.find? name)

-- Bind a variable in the innermost scope, where it takes the place of one of its name. A scope is opened if
-- there is none.
def declare (context : Context) (name : String) (ty : Option Ty) (line : Nat) : Context :=
  match context.scopes with
  | [] => { context with scopes := [Table.empty.insert name ty] }
  | scope :: outer =>
    { context.require (!scope.contains name) (.redeclaration name) line with
      scopes := scope.insert name ty :: outer }

def declareAll (context : Context) (parameters : List Parameter) : Context :=
  parameters.foldl (fun context parameter => context.declare parameter.name parameter.ty parameter.line) context

-- Make a function known. Of two of one name the first stays.
def define (context : Context) (signature : Signature) (line : Nat) : Context :=
  if context.functions.contains signature.name then
    context.report (.duplicateFunction signature.name) line
  else { context with functions := context.functions.insert signature.name signature }

end Context

def Parameter.ofNode (node : Node) : Parameter := ⟨node.text, (node.child? 0).bind Node.ty?, node.line⟩

def Signature.ofNode (node : Node) : Signature where
  name := node.text
  result := (node.child? 1).bind Node.ty?
  parameters := ((node.child? 0).elim [] Node.children).map .ofNode

end FishLang
