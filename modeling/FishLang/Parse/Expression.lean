import FishLang.Parse.Basic

namespace FishLang

namespace Parse

-- Go on with operators of one level, the operands so far at the left.
def chain (operators : List Operator) (operand : Parse Node) : List Token → Node → Parse Node
  | [], left => pure left
  | _ :: bound, left => do
    match ← peek with
    | .operator op =>
      if op ∈ operators then
        let _ ← next
        let right ← operand
        chain operators operand bound (.binary op.symbol left right)
      else pure left
    | _ => pure left

def level (operators : List Operator) (operand : Parse Node) : Parse Node := do
  let left ← operand
  bounded fun bound => chain operators operand bound left

def suffixes (operand : Node) : List Token → Node × List Token
  | [] => (operand, [])
  | token :: rest =>
    match token.kind with
    | .operator op =>
      if op = .increment ∨ op = .decrement then
        suffixes ⟨.suffix, some op.symbol, [operand], operand.line⟩ rest
      else (operand, token :: rest)
    | _ => (operand, token :: rest)

def suffixed (primary : Parse Node) : Parse Node := do
  let operand ← primary
  fun tokens => .ok (suffixes operand tokens)

def signed (primary : Parse Node) : Parse Node
  | [] => suffixed primary []
  | token :: rest =>
    match token.kind with
    | .operator op =>
      if op = .add ∨ op = .sub then
        match signed primary rest with
        | .ok (operand, left) => .ok (⟨.unary, some op.symbol, [operand], token.line⟩, left)
        | .error stop => .error stop
      else suffixed primary (token :: rest)
    | _ => suffixed primary (token :: rest)

def equalityOperators : List Operator := [.equal, .unequal]
def relationOperators : List Operator := [.less, .greater, .lessEqual, .greaterEqual]
def sumOperators : List Operator := [.add, .sub]
def productOperators : List Operator := [.mul, .div, .rem]

def operation (primary : Parse Node) : Parse Node :=
  level equalityOperators (level relationOperators (level sumOperators (level productOperators (signed primary))))

def endsExpression : Kind → Bool
  | .mark .rightParen | .mark .comma | .delimiter => true
  | _ => false

def ended (inner : Parse Node) : Parse Node := do
  let node ← inner
  if endsExpression (← peek) then pure node else fail .afterExpression

def parenthesized (expression : Parse Node) (phrase : Phrase) : Parse Node := do
  let _ ← expect (.mark .leftParen) phrase
  let node ← expression
  let _ ← expect (.mark .rightParen) phrase
  pure node

def argumentList (expression : Parse Node) : List Token → Parse (List Node)
  | [] => fail .noExpression
  | _ :: bound => do
    let first ← expression
    if (← peek) = .mark .comma then
      let _ ← next
      let rest ← argumentList expression bound
      pure (first :: rest)
    else pure [first]

def arguments (expression : Parse Node) : Parse (List Node) := do
  if (← peek) = .mark .rightParen then pure [] else bounded (argumentList expression)

def call (expression : Parse Node) (name : Token) : Parse Node := do
  let opening ← expect (.mark .leftParen) .call
  let given ← arguments expression
  let _ ← expect (.mark .rightParen) .call
  pure ⟨.call, some name.lexeme, [.group .args given opening.line], name.line⟩

-- A name, a call, a literal, or an expression between parentheses.
def primary (expression : Parse Node) : Parse Node := do
  match ← peek with
  | .identifier =>
    let name ← next
    if (← peek) = .mark .leftParen then call expression name
    else pure (.leaf .var name.lexeme name.line)
  | .number =>
    let token ← next
    pure (.leaf .num token.lexeme token.line)
  | .string =>
    let token ← next
    pure (.leaf .string (unquote '"' token.lexeme) token.line)
  | .char =>
    let token ← next
    pure (.leaf .char (unquote '\'' token.lexeme) token.line)
  | .mark .leftParen => parenthesized expression .parenthesized
  | _ => fail .noExpression

-- An expression whose parentheses nest no deeper than the bound is long.
def expressionTo : List Token → Parse Node
  | [], tokens => fail .noExpression tokens
  | _ :: bound, tokens => ended (operation (primary (expressionTo bound))) tokens

def expression : Parse Node := bounded expressionTo

end Parse

end FishLang
