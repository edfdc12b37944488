import FishLang.Token.Basic

namespace FishLang

inductive Phrase where
  | program | block | declaration | functionDef | parameter
  | when | whale | fork | forkInitializer | update | attempt | splash | emerge | statement
  | call | parenthesized
deriving DecidableEq, Repr

def Phrase.name : Phrase → String
  | .program => "program"
  | .block => "block"
  | .declaration => "declaration"
  | .functionDef => "function definition"
  | .parameter => "parameter"
  | .when => "if statement"
  | .whale => "while loop"
  | .fork => "for loop"
  | .forkInitializer => "for loop initializer"
  | .update => "update"
  | .attempt => "try statement"
  | .splash => "print statement"
  | .emerge => "return statement"
  | .statement => "statement"
  | .call => "call"
  | .parenthesized => "parenthesized expression"

-- The token as messages describe it: by its kind too where the text alone would not tell.
def Token.describe (token : Token) : String :=
  let quoted := "'" ++ token.lexeme ++ "'"
  match token.kind with
  | .endOfInput => token.kind.name
  | .identifier | .number | .string | .char | .unrecognized | .invalid => token.kind.name ++ " " ++ quoted
  | _ => quoted

inductive ParseError.Kind where
  -- The rule asks for one kind of token and another stands there.
  | expectedToken
  -- The token neither starts nor may follow what an optional part allows.
  | unexpectedToken
  | expectedExpression
  | expectedType
  -- Tokens are left behind the program.
  | trailingInput
deriving DecidableEq, Repr

namespace ParseError.Kind

def all : List ParseError.Kind :=
  [.expectedToken, .unexpectedToken, .expectedExpression, .expectedType, .trailingInput]

def label : ParseError.Kind → String
  | .expectedToken => "ExpectedToken"
  | .unexpectedToken => "UnexpectedToken"
  | .expectedExpression => "ExpectedExpression"
  | .expectedType => "ExpectedType"
  | .trailingInput => "TrailingInput"

end ParseError.Kind

structure ParseError where
  kind : ParseError.Kind
  message : String
  span : Span
  expected : List String
  found : Option String
deriving DecidableEq, Repr

namespace ParseError

def line? (error : ParseError) : Option Nat := error.span.line?

def render (error : ParseError) : String :=
  (match error.line? with
    | some line => s!"[line {line}] "
    | none => "[end of input] ") ++
  error.message ++
  (if error.expected.isEmpty then "" else " (expected: " ++ ", ".intercalate error.expected ++ ")") ++
  error.found.elim "" (" (found: " ++ · ++ ")")

end ParseError

-- The rule of the grammar that the token at hand breaks.
inductive Violation where
  -- A construct goes on with a token of this kind and no other.
  | missing (kind : Kind) (phrase : Phrase)
  | noExpression
  | noType
  | trailing
  -- Neither an item nor the end of the block.
  | inBlock
  -- A declared name is followed neither by a value nor by the end of the statement.
  | inDeclaration
  -- Neither a parameter nor the end of an empty list.
  | inParameters
  -- A parameter is followed neither by another nor by the end of the list.
  | afterParameter
  -- A statement that starts with a name is neither call nor assignment nor count.
  | afterName
  -- A clause that starts with a name is neither assignment nor count.
  | afterUpdatedName
  | afterExpression
  | forkInitializer
  | forkCondition
  | forkStep
  -- Neither the other branch nor what may follow the statement.
  | afterWhen
  -- Neither the last block nor what may follow the statement.
  | afterAttempt
deriving DecidableEq, Repr

namespace Violation

def itemStart : List String :=
  ["type", "'fishtion'", "'if'", "'whale'", "'fork'", "'try'", "'splash'", "'emerge'", "'\x7b'", "identifier"]

def expressionStart : List String :=
  ["identifier", "number", "string literal", "character literal", "'('", "'<+'", "'<-'"]

def kind : Violation → ParseError.Kind
  | .missing .. => .expectedToken
  | .noExpression => .expectedExpression
  | .noType => .expectedType
  | .trailing => .trailingInput
  | _ => .unexpectedToken

def message (found : Token) : Violation → String
  | .missing kind phrase => "Expected '" ++ kind.name ++ "' in " ++ phrase.name ++ ", found " ++ found.describe
  | .noExpression => "Expected an expression"
  | .noType => "Expected a type"
  | .trailing => "Unexpected input after the program block"
  | .inBlock => "Unexpected token in block"
  | .inDeclaration => "Unexpected token in declaration"
  | .inParameters | .afterParameter => "Unexpected token in parameter list"
  | .afterName | .afterUpdatedName => "Unexpected token after identifier"
  | .afterExpression => "Unexpected token after expression"
  | .forkInitializer => "Unexpected token in for loop initializer"
  | .forkCondition => "Unexpected token in for loop condition"
  | .forkStep => "Unexpected token in for loop step"
  | .afterWhen => "Unexpected token after if statement"
  | .afterAttempt => "Unexpected token after try statement"

def expected : Violation → List String
  | .missing kind _ => ["'" ++ kind.name ++ "'"]
  | .noExpression => expressionStart
  | .noType => ["type"]
  | .trailing => ["end of input"]
  | .inBlock => "'\x7d'" :: itemStart
  | .inDeclaration => ["'<='", "'<D'"]
  | .inParameters => ["type", "')'"]
  | .afterParameter => ["','", "')'"]
  | .afterName => ["'('", "'<='", "'<++'", "'<--'"]
  | .afterUpdatedName => ["'<='", "'<++'", "'<--'"]
  | .afterExpression => ["operator", "')'", "','", "'<D'"]
  | .forkInitializer => ["type", "identifier", "'<D'"]
  | .forkCondition => expressionStart ++ ["'<D'"]
  | .forkStep => ["identifier", "')'"]
  | .afterWhen => "'else'" :: "'\x7d'" :: itemStart
  | .afterAttempt => "'finally'" :: "'\x7d'" :: itemStart

def report (violation : Violation) (found : Token) : ParseError where
  kind := violation.kind
  message := violation.message found
  span := found.span
  expected := violation.expected
  found := some found.describe

end Violation

end FishLang
