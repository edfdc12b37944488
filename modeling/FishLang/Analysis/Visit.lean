import FishLang.Analysis.Context

namespace FishLang

def numeralTy (text : String) : Ty := if text.toList.contains '.' then .float else .int

def isComparison (symbol : String) : Bool := ["<", ">", "<=", ">=", "==", "!="].contains symbol

def operationTy (symbol : String) (operand : Ty) : Ty := if isComparison symbol then .bool else operand

namespace Context

def checkArguments (context : Context) (function : String) (line position : Nat) :
    (expected given : List (Option Ty)) → Context
  | expected :: expecteds, given :: givens =>
    (context.require (compatible expected given) (.argument function position expected given) line)
      |>.checkArguments function line (position + 1) expecteds givens
  | _, _ => context

def checkCall (context : Context) (name : String) (line : Nat) (given : List (Option Ty)) :
    Option Ty × Context :=
  match context.functions.find? name with
  | none => (none, context.report (.undeclaredFunction name) line)
  | some signature =>
    let expected := signature.parameters.map Parameter.ty
    (signature.result,
      if given.length = expected.length then context.checkArguments name line 1 expected given
      else context.report (.arity name given.length expected.length) line)

-- Check the value of an assignment against the type its target had before the value was read.
def checkAssignment (context : Context) (name : String) (line : Nat) (target : Option (Option Ty))
    (given : Option Ty) : Context :=
  match target with
  | none => context.report (.undeclaredVariable name) line
  | some declared => context.require (compatible declared given) (.assignment name declared given) line

def checkResult (context : Context) (line : Nat) (function : Option Signature) (given : Option Ty) : Context :=
  match function with
  | none => context
  | some function =>
    context.require (compatible function.result given) (.result function.name function.result given) line

-- Check the operands of an operation. One that is not known leaves the operation unknown, without a report.
def checkOperands (context : Context) (symbol : String) (line : Nat) (left right : Option Ty) :
    Option Ty × Context :=
  match left, right with
  | some left, some right =>
    if left = right then (some (operationTy symbol left), context)
    else (none, context.report (.operands symbol left right) line)
  | _, _ => (none, context)

end Context

mutual

-- The type of a node and what is known after it.
def visit (context : Context) : Node → Option Ty × Context
  | ⟨kind, value, children, line⟩ =>
    let name := value.getD ""
    match kind with
    | .program | .block | .fork => (none, (visitAll context.openScope children).2.closeScope)
    | .functionDef =>
      let signature := Signature.ofNode ⟨kind, value, children, line⟩
      let inside := { context.define signature line with enclosing := some signature }
      let entered := inside.openScope.declareAll signature.parameters
      let left := (visitAt entered 2 children).2.closeScope
      (none, { left with enclosing := context.enclosing })
    | .declaration =>
      let declared := (children[0]?).bind Node.ty?
      let bound := context.declare name declared line
      (none, match children with
        | _ :: ⟨_, _, value, _⟩ :: _ =>
          let (given, checked) := visitAt bound 0 value
          checked.require (compatible declared given) (.initializer name declared given) line
        | _ => bound)
    | .assign =>
      let target := context.lookup name
      let (given, checked) := visitAt context 0 children
      (none, checked.checkAssignment name line target given)
    | .emerge =>
      let function := context.enclosing
      let (given, checked) := visitAt (context.require function.isSome .returnOutsideFunction line) 0 children
      (none, checked.checkResult line function given)
    | .call =>
      let (given, checked) := match children with
        | ⟨_, _, arguments, _⟩ :: _ => visitAll context arguments
        | [] => ([], context)
      checked.checkCall name line given
    | .binary =>
      let (left, afterLeft) := visitAt context 0 children
      let (right, afterRight) := visitAt afterLeft 1 children
      afterRight.checkOperands name line left right
    | .unary | .suffix => visitAt context 0 children
    | .var =>
      match context.lookup name with
      | some ty => (ty, context)
      | none => (none, context.report (.undeclaredVariable name) line)
    | .num => (some (numeralTy name), context)
    | .string => (some .string, context)
    | .char => (some .char, context)
    | .initializer | .typeName | .params | .param | .when | .whale | .attempt | .splash | .args | .empty =>
      (none, (visitAll context children).2)

def visitAll (context : Context) : List Node → List (Option Ty) × Context
  | [] => ([], context)
  | node :: rest =>
    let (ty, visited) := visit context node
    let (tys, done) := visitAll visited rest
    (ty :: tys, done)

def visitAt (context : Context) : Nat → List Node → Option Ty × Context
  | _, [] => (none, context)
  | 0, node :: _ => visit context node
  | index + 1, _ :: rest => visitAt context index rest

end

namespace Node

mutual

-- The nodes that a visit reaches, in the order in which it starts on them.
def visited : Node → List Node
  | ⟨kind, value, children, line⟩ =>
    ⟨kind, value, children, line⟩ ::
      match kind with
      | .functionDef => visitedAt 2 children
      | .declaration =>
        match children with
        | _ :: ⟨_, _, value, _⟩ :: _ => visitedAt 0 value
        | _ => []
      | .call =>
        match children with
        | ⟨_, _, arguments, _⟩ :: _ => visitedAll arguments
        | [] => []
      | .assign | .emerge | .unary | .suffix => visitedAt 0 children
      | .binary => visitedAt 0 children ++ visitedAt 1 children
      | .var | .num | .string | .char => []
      | _ => visitedAll children

def visitedAll : List Node → List Node
  | [] => []
  | node :: rest => visited node ++ visitedAll rest

def visitedAt : Nat → List Node → List Node
  | _, [] => []
  | 0, node :: _ => visited node
  | index + 1, _ :: rest => visitedAt index rest

end

def reports (node : Node) : List Report := (visit .empty node).2.reports

def diagnostics (node : Node) : List Diagnostic := node.reports.map Report.diagnostic

end Node

end FishLang
