import FishLang.Ty

namespace FishLang

inductive Diagnostic.Kind where
  | undeclaredVariable | undeclaredFunction | redeclaration | duplicateFunction
  | arityMismatch | typeMismatch | returnOutsideFunction
deriving DecidableEq, Repr

namespace Diagnostic.Kind

def all : List Diagnostic.Kind :=
  [.undeclaredVariable, .undeclaredFunction, .redeclaration, .duplicateFunction, .arityMismatch,
    .typeMismatch, .returnOutsideFunction]

def label : Diagnostic.Kind → String
  | .undeclaredVariable => "UndeclaredVariable"
  | .undeclaredFunction => "UndeclaredFunction"
  | .redeclaration => "Redeclaration"
  | .duplicateFunction => "DuplicateFunction"
  | .arityMismatch => "ArityMismatch"
  | .typeMismatch => "TypeMismatch"
  | .returnOutsideFunction => "ReturnOutsideFunction"

end Diagnostic.Kind

structure Diagnostic where
  kind : Diagnostic.Kind
  line : Nat
  message : String
deriving DecidableEq, Repr

def Diagnostic.render (diagnostic : Diagnostic) : String :=
  s!"[line {diagnostic.line}] " ++ diagnostic.message

-- A fault. Of two types the expected one comes first; a type that is not known is `none`.
inductive Finding where
  | undeclaredVariable (name : String)
  | undeclaredFunction (name : String)
  | redeclaration (name : String)
  | duplicateFunction (name : String)
  | arity (function : String) (given expected : Nat)
  | initializer (name : String) (declared given : Option Ty)
  | assignment (name : String) (declared given : Option Ty)
  -- Arguments are counted from one.
  | argument (function : String) (position : Nat) (expected given : Option Ty)
  | result (function : String) (expected given : Option Ty)
  | operands (symbol : String) (left right : Ty)
  | returnOutsideFunction
deriving DecidableEq, Repr

namespace Finding

def kind : Finding → Diagnostic.Kind
  | .undeclaredVariable _ => .undeclaredVariable
  | .undeclaredFunction _ => .undeclaredFunction
  | .redeclaration _ => .redeclaration
  | .duplicateFunction _ => .duplicateFunction
  | .arity .. => .arityMismatch
  | .initializer .. | .assignment .. | .argument .. | .result .. | .operands .. => .typeMismatch
  | .returnOutsideFunction => .returnOutsideFunction

def tyName (ty : Option Ty) : String := ty.elim "unknown" Ty.name

def quote (name : String) : String := "'" ++ name ++ "'"

def message : Finding → String
  | .undeclaredVariable name => "Variable " ++ quote name ++ " is not declared"
  | .undeclaredFunction name => "Call to undeclared function " ++ quote name
  | .redeclaration name => "Variable " ++ quote name ++ " is already declared in this scope"
  | .duplicateFunction name => "Function " ++ quote name ++ " is already declared"
  | .arity function given expected =>
    "Call to " ++ quote function ++ s!" with {given} argument(s), expected {expected}"
  | .initializer name declared given =>
    "Initializer of " ++ quote name ++ " is not compatible with type " ++ tyName declared ++ ": found " ++
      tyName given
  | .assignment name declared given =>
    "Assignment to " ++ quote name ++ " (" ++ tyName declared ++ ") with incompatible type " ++ tyName given
  | .argument function position expected given =>
    s!"Argument {position} in call to " ++ quote function ++ " is incompatible: expected " ++
      tyName expected ++ ", found " ++ tyName given
  | .result function expected given =>
    "Incompatible return type in function " ++ quote function ++ ": expected " ++ tyName expected ++
      ", found " ++ tyName given
  | .operands symbol left right =>
    "Binary operation " ++ quote symbol ++ " between incompatible types: " ++ left.name ++ " and " ++ right.name
  | .returnOutsideFunction => "'emerge' outside of a function"

end Finding

structure Report where
  finding : Finding
  line : Nat
deriving DecidableEq, Repr

def Report.diagnostic (report : Report) : Diagnostic :=
  ⟨report.finding.kind, report.line, report.finding.message⟩

end FishLang
