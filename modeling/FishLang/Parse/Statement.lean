import FishLang.Parse.Expression

namespace FishLang

namespace Parse

def typeName : Parse Node := do
  match ← peek with
  | .type ty =>
    let token ← next
    pure (.ofTy ty token.line)
  | _ => fail .noType

def startsItem : Kind → Bool
  | .type _ | .identifier | .mark .leftBrace => true
  | .word word => word ∈ [.fishtion, .when, .whale, .fork, .attempt, .splash, .emerge]
  | _ => false

-- What may follow a statement whose last part is left out.
def followsItem (kind : Kind) : Bool := startsItem kind || kind == .mark .rightBrace

def startsExpression : Kind → Bool
  | .identifier | .number | .string | .char | .mark .leftParen | .operator .add | .operator .sub => true
  | _ => false

def initializer (value : Node) : Node := .group .initializer [value] value.line

def declaration : Parse Node := do
  let ty ← typeName
  let name ← expect .identifier .declaration
  match ← peek with
  | .assign =>
    let _ ← next
    let value ← expression
    let _ ← expect .delimiter .declaration
    pure ⟨.declaration, some name.lexeme, [ty, initializer value], ty.line⟩
  | .delimiter =>
    let _ ← next
    pure ⟨.declaration, some name.lexeme, [ty], ty.line⟩
  | _ => fail .inDeclaration

def parameterList : List Token → Parse (List Node)
  | [] => fail .noType
  | _ :: bound => do
    let ty ← typeName
    let name ← expect .identifier .parameter
    let first : Node := ⟨.param, some name.lexeme, [ty], ty.line⟩
    match ← peek with
    | .mark .comma =>
      let _ ← next
      let rest ← parameterList bound
      pure (first :: rest)
    | .mark .rightParen => pure [first]
    | _ => fail .afterParameter

def parameters (line : Nat) : Parse Node := do
  match ← peek with
  | .mark .rightParen => pure (.group .params [] line)
  | .type _ =>
    let list ← bounded parameterList
    pure (.group .params list line)
  | _ => fail .inParameters

def functionDef (block : Parse Node) : Parse Node := do
  let keyword ← expect (.word .fishtion) .functionDef
  let name ← expect .identifier .functionDef
  let _ ← expect (.mark .leftParen) .functionDef
  let list ← parameters keyword.line
  let _ ← expect (.mark .rightParen) .functionDef
  let result ← typeName
  let body ← block
  pure ⟨.functionDef, some name.lexeme, [list, result, body], keyword.line⟩

-- A last part that a keyword opens and that may be left out.
def optionalBlock (word : Word) (otherwise : Violation) (block : Parse Node) : Parse (List Node) := do
  let kind ← peek
  if kind = .word word then
    let _ ← next
    let last ← block
    pure [last]
  else if followsItem kind then pure []
  else fail otherwise

def when (block : Parse Node) : Parse Node := do
  let keyword ← expect (.word .when) .when
  let condition ← parenthesized expression .when
  let body ← block
  let other ← optionalBlock .otherwise .afterWhen block
  pure (.group .when ([condition, body] ++ other) keyword.line)

def whale (block : Parse Node) : Parse Node := do
  let keyword ← expect (.word .whale) .whale
  let condition ← parenthesized expression .whale
  let body ← block
  pure (.group .whale [condition, body] keyword.line)

def update : Parse Node := do
  let name ← expect .identifier .update
  match ← peek with
  | .assign =>
    let _ ← next
    let value ← expression
    pure ⟨.assign, some name.lexeme, [value], name.line⟩
  | .operator op =>
    if op = .increment ∨ op = .decrement then
      let _ ← next
      pure ⟨.suffix, some op.symbol, [.leaf .var name.lexeme name.line], name.line⟩
    else fail .afterUpdatedName
  | _ => fail .afterUpdatedName

def forkInitializer (line : Nat) : Parse Node := do
  match ← peek with
  | .type _ =>
    let ty ← typeName
    let name ← expect .identifier .forkInitializer
    let _ ← expect .assign .forkInitializer
    let value ← expression
    pure ⟨.declaration, some name.lexeme, [ty, initializer value], ty.line⟩
  | .identifier => update
  | .delimiter => pure (.absent line)
  | _ => fail .forkInitializer

def forkCondition (line : Nat) : Parse Node := do
  let kind ← peek
  if kind = .delimiter then pure (.absent line)
  else if startsExpression kind then expression
  else fail .forkCondition

def forkStep (line : Nat) : Parse Node := do
  match ← peek with
  | .identifier => update
  | .mark .rightParen => pure (.absent line)
  | _ => fail .forkStep

def fork (block : Parse Node) : Parse Node := do
  let keyword ← expect (.word .fork) .fork
  let _ ← expect (.mark .leftParen) .fork
  let first ← forkInitializer keyword.line
  let _ ← expect .delimiter .fork
  let condition ← forkCondition keyword.line
  let _ ← expect .delimiter .fork
  let step ← forkStep keyword.line
  let _ ← expect (.mark .rightParen) .fork
  let body ← block
  pure (.group .fork [first, condition, step, body] keyword.line)

def attempt (block : Parse Node) : Parse Node := do
  let keyword ← expect (.word .attempt) .attempt
  let body ← block
  let _ ← expect (.word .rescue) .attempt
  let handler ← block
  let last ← optionalBlock .lastly .afterAttempt block
  pure (.group .attempt ([body, handler] ++ last) keyword.line)

def splash : Parse Node := do
  let keyword ← expect (.word .splash) .splash
  let value ← parenthesized expression .splash
  let _ ← expect .delimiter .splash
  pure (.group .splash [value] keyword.line)

def emerge : Parse Node := do
  let keyword ← expect (.word .emerge) .emerge
  let value ← expression
  let _ ← expect .delimiter .emerge
  pure (.group .emerge [value] keyword.line)

def startsUpdate : Kind → Bool
  | .assign | .operator .increment | .operator .decrement => true
  | _ => false

-- What a statement that starts with a name does; the token behind the name decides.
def nameAction : Parse Node := do
  let second ← peekSecond
  if second = .mark .leftParen then
    let name ← next
    call expression name
  else if startsUpdate second then update
  else
    let _ ← next
    fail .afterName

def nameStatement : Parse Node := do
  let node ← nameAction
  let _ ← expect .delimiter .statement
  pure node

def item (block : Parse Node) : Parse Node := do
  match ← peek with
  | .type _ => declaration
  | .word .fishtion => functionDef block
  | .word .when => when block
  | .word .whale => whale block
  | .word .fork => fork block
  | .word .attempt => attempt block
  | .word .splash => splash
  | .word .emerge => emerge
  | .mark .leftBrace => block
  | .identifier => nameStatement
  | _ => fail .inBlock

-- Items up to the closing brace or the end of the input, which is not passed.
def itemList (item : Parse Node) : List Token → Parse (List Node)
  | [] => pure []
  | _ :: bound => do
    let kind ← peek
    if kind = .mark .rightBrace ∨ kind = .endOfInput then pure []
    else
      let first ← item
      let rest ← itemList item bound
      pure (first :: rest)

def braced (block : Parse Node) : Parse Node := do
  let opening ← expect (.mark .leftBrace) .block
  let items ← bounded (itemList (item block))
  let _ ← expect (.mark .rightBrace) .block
  pure (.group .block items opening.line)

-- A block whose braces nest no deeper than the bound is long.
def blockTo : List Token → Parse Node
  | [], tokens => fail (.missing (.mark .leftBrace) .block) tokens
  | _ :: bound, tokens => braced (blockTo bound) tokens

def block : Parse Node := bounded blockTo

end Parse

end FishLang
