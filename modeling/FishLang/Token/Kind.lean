import FishLang.Ty

namespace FishLang

inductive Word where
  | fish | fishtion | when | otherwise | whale | fork | attempt | rescue | lastly | splash | emerge
deriving DecidableEq, Repr

namespace Word

def all : List Word :=
  [.fish, .fishtion, .when, .otherwise, .whale, .fork, .attempt, .rescue, .lastly, .splash, .emerge]

theorem mem_all (word : Word) : word ∈ all := by cases word <;> decide

def spelling : Word → String
  | .fish => "fish"
  | .fishtion => "fishtion"
  | .when => "if"
  | .otherwise => "else"
  | .whale => "whale"
  | .fork => "fork"
  | .attempt => "try"
  | .rescue => "catch"
  | .lastly => "finally"
  | .splash => "splash"
  | .emerge => "emerge"

def label : Word → String
  | .fish => "Main"
  | .fishtion => "Function"
  | .when => "If"
  | .otherwise => "Else"
  | .whale => "While"
  | .fork => "For"
  | .attempt => "Try"
  | .rescue => "Catch"
  | .lastly => "Finally"
  | .splash => "Print"
  | .emerge => "Return"

end Word

inductive Operator where
  | add | sub | mul | div | rem
  | less | greater | lessEqual | greaterEqual | equal | unequal
  | increment | decrement
deriving DecidableEq, Repr

namespace Operator

def all : List Operator :=
  [.add, .sub, .mul, .div, .rem, .less, .greater, .lessEqual, .greaterEqual, .equal, .unequal,
    .increment, .decrement]

theorem mem_all (op : Operator) : op ∈ all := by cases op <;> decide

def spelling : Operator → String
  | .add => "<+"
  | .sub => "<-"
  | .mul => "<*"
  | .div => "</"
  | .rem => "<%"
  | .less => "<<"
  | .greater => "<<>"
  | .lessEqual => "<<="
  | .greaterEqual => "<<>="
  | .equal => "<=="
  | .unequal => "<!="
  | .increment => "<++"
  | .decrement => "<--"

def symbol : Operator → String
  | .add => "+"
  | .sub => "-"
  | .mul => "*"
  | .div => "/"
  | .rem => "%"
  | .less => "<"
  | .greater => ">"
  | .lessEqual => "<="
  | .greaterEqual => ">="
  | .equal => "=="
  | .unequal => "!="
  | .increment => "++"
  | .decrement => "--"

def label : Operator → String
  | .add => "Plus"
  | .sub => "Minus"
  | .mul => "Star"
  | .div => "Slash"
  | .rem => "Percent"
  | .less => "Less"
  | .greater => "Greater"
  | .lessEqual => "LessEqual"
  | .greaterEqual => "GreaterEqual"
  | .equal => "EqualEqual"
  | .unequal => "BangEqual"
  | .increment => "Increment"
  | .decrement => "Decrement"

end Operator

-- The tokens of one punctuation character. Brackets and the dot are tokens, though no phrase uses them.
inductive Mark where
  | leftParen | rightParen | leftBracket | rightBracket | leftBrace | rightBrace | comma | dot
deriving DecidableEq, Repr

namespace Mark

def all : List Mark :=
  [.leftParen, .rightParen, .leftBracket, .rightBracket, .leftBrace, .rightBrace, .comma, .dot]

theorem mem_all (mark : Mark) : mark ∈ all := by cases mark <;> decide

def char : Mark → Char
  | .leftParen => '('
  | .rightParen => ')'
  | .leftBracket => '['
  | .rightBracket => ']'
  | .leftBrace => '\x7b'
  | .rightBrace => '\x7d'
  | .comma => ','
  | .dot => '.'

def label : Mark → String
  | .leftParen => "LeftParen"
  | .rightParen => "RightParen"
  | .leftBracket => "LeftBracket"
  | .rightBracket => "RightBracket"
  | .leftBrace => "LeftBrace"
  | .rightBrace => "RightBrace"
  | .comma => "Comma"
  | .dot => "Dot"

end Mark

inductive Kind where
  -- An integer or a decimal fraction.
  | number
  -- A string literal, its quotes included.
  | string
  -- A character literal, its quotes included.
  | char
  | identifier
  | word (word : Word)
  | type (ty : Ty)
  | operator (op : Operator)
  -- The sign `<=` between a variable and its value.
  | assign
  -- The sign `<D` that ends a statement.
  | delimiter
  | mark (mark : Mark)
  -- A run of characters that is the start of a token and no token.
  | unrecognized
  -- A numeral that runs into letters.
  | invalid
  | endOfInput
deriving DecidableEq, Repr

namespace Kind

def all : List Kind :=
  [.number, .string, .char, .identifier] ++ Word.all.map .word ++ Ty.all.map .type ++
    Operator.all.map .operator ++ [.assign, .delimiter] ++ Mark.all.map .mark ++
    [.unrecognized, .invalid, .endOfInput]

theorem mem_all (kind : Kind) : kind ∈ all := by
  cases kind with
  | word word => simp [all, Word.mem_all]
  | type ty => simp [all, Ty.mem_all]
  | operator op => simp [all, Operator.mem_all]
  | mark mark => simp [all, Mark.mem_all]
  | _ => simp [all]

-- The name in messages. A reserved token is named by its spelling.
def name : Kind → String
  | .number => "number"
  | .string => "string literal"
  | .char => "character literal"
  | .identifier => "identifier"
  | .word w => w.spelling
  | .type ty => ty.keyword
  | .operator op => op.spelling
  | .assign => "<="
  | .delimiter => "<D"
  | .mark m => String.singleton m.char
  | .unrecognized => "unrecognized input"
  | .invalid => "invalid numeral"
  | .endOfInput => "end of input"

def label : Kind → String
  | .number => "Number"
  | .string => "String"
  | .char => "Char"
  | .identifier => "Identifier"
  | .word w => w.label
  | .type ty => "Type(" ++ ty.label ++ ")"
  | .operator op => op.label
  | .assign => "Assign"
  | .delimiter => "Delimiter"
  | .mark m => m.label
  | .unrecognized => "Unrecognized"
  | .invalid => "Invalid"
  | .endOfInput => "Eof"

def symbol? : Kind → Option String
  | .operator op => some op.symbol
  | _ => none

def isType : Kind → Bool
  | .type _ => true
  | _ => false

end Kind

def wordSpellings : List (String × Kind) := Word.all.map fun word => (word.spelling, .word word)

-- The reserved spellings that open with `<`, in the order in which the automaton learns them.
def angleSpellings : List (String × Kind) :=
  ("<=", .assign) :: Operator.all.map (fun op => (op.spelling, .operator op)) ++
    ("<D", .delimiter) :: Ty.all.map fun ty => (ty.keyword, .type ty)

def markSpellings : List (Char × Kind) := Mark.all.map fun mark => (mark.char, .mark mark)

end FishLang
