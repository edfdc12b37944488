import FishLang.Token.Kind

namespace FishLang.Grammar

-- The levels of the operators between two operands, loosest first.
inductive Level where
  | equality | relation | sum | product
deriving DecidableEq, Repr

inductive Symbol where
  | program | block | items | item
  | declaration | declarationTail | typeName
  | functionDef | params | moreParams | param
  | statement | nameStatement | when | otherwise | whale | fork | forkInitializer | forkCondition | forkStep
  | attempt | lastly | splash | emerge
  | expression | level (level : Level) | signed | suffixed | primary | arguments
deriving DecidableEq, Repr

def Level.operators : Level → List Operator
  | .equality => [.equal, .unequal]
  | .relation => [.less, .greater, .lessEqual, .greaterEqual]
  | .sum => [.add, .sub]
  | .product => [.mul, .div, .rem]

def Level.operand : Level → Symbol
  | .equality => .level .relation
  | .relation => .level .sum
  | .sum => .level .product
  | .product => .signed

-- The right side of a rule.
inductive Form where
  -- One token, of any of the kinds.
  | token (kinds : List Kind)
  | phrase (symbol : Symbol)
  | done
  | and (first second : Form)
  | or (first second : Form)
  -- Any number of times, also none.
  | many (form : Form)
deriving DecidableEq, Repr

namespace Form

def seq (forms : List Form) : Form := forms.foldr .and .done

def any : List Form → Form
  | [] => .token []
  | [form] => form
  | form :: others => .or form (any others)

def optional (form : Form) : Form := .or form .done

def word (word : Word) : Form := .token [.word word]
def mark (mark : Mark) : Form := .token [.mark mark]
def operators (operators : List Operator) : Form := .token (operators.map .operator)

def block : Form := .phrase .block
def expression : Form := .phrase .expression
def typeName : Form := .phrase .typeName
def name : Form := .token [.identifier]
def assign : Form := .token [.assign]
def delimiter : Form := .token [.delimiter]
def counts : Form := operators [.increment, .decrement]

def parenthesized : Form := seq [mark .leftParen, expression, mark .rightParen]
def call : Form := seq [mark .leftParen, .phrase .arguments, mark .rightParen]

def update : Form := seq [name, any [seq [assign, expression], counts]]

end Form

open Form in
def rule : Symbol → Form
  | .program => seq [word .fish, block, .token [.endOfInput]]
  | .block => seq [mark .leftBrace, .phrase .items, mark .rightBrace]
  | .items => optional (seq [.phrase .item, .phrase .items])
  | .item => any [.phrase .declaration, .phrase .functionDef, .phrase .statement]
  | .declaration => seq [typeName, name, .phrase .declarationTail]
  | .declarationTail => any [seq [assign, expression, delimiter], delimiter]
  | .typeName => .token (Ty.all.map .type)
  | .functionDef =>
    seq [word .fishtion, name, mark .leftParen, .phrase .params, mark .rightParen, typeName, block]
  | .params => optional (seq [.phrase .param, .phrase .moreParams])
  | .moreParams => optional (seq [mark .comma, .phrase .param, .phrase .moreParams])
  | .param => seq [typeName, name]
  | .statement =>
    any [.phrase .when, .phrase .whale, .phrase .fork, .phrase .attempt, .phrase .splash, .phrase .emerge,
      block, .phrase .nameStatement]
  | .nameStatement => seq [name, any [call, seq [assign, expression], counts], delimiter]
  | .when => seq [word .when, parenthesized, block, .phrase .otherwise]
  | .otherwise => optional (seq [word .otherwise, block])
  | .whale => seq [word .whale, parenthesized, block]
  | .fork =>
    seq [word .fork, mark .leftParen, .phrase .forkInitializer, delimiter, .phrase .forkCondition, delimiter,
      .phrase .forkStep, mark .rightParen, block]
  | .forkInitializer => any [seq [typeName, name, assign, expression], update, .done]
  | .forkCondition => optional expression
  | .forkStep => optional update
  | .attempt => seq [word .attempt, block, word .rescue, block, .phrase .lastly]
  | .lastly => optional (seq [word .lastly, block])
  | .splash => seq [word .splash, parenthesized, delimiter]
  | .emerge => seq [word .emerge, expression, delimiter]
  | .expression => .phrase (.level .equality)
  | .level level =>
    seq [.phrase level.operand, .many (seq [operators level.operators, .phrase level.operand])]
  | .signed => any [seq [operators [.add, .sub], .phrase .signed], .phrase .suffixed]
  | .suffixed => seq [.phrase .primary, .many counts]
  | .primary =>
    any [seq [name, optional call], .token [.number], .token [.string], .token [.char], parenthesized]
  | .arguments => optional (seq [expression, .many (seq [mark .comma, expression])])

-- The runs of kinds that a form derives.
inductive Generates : Form → List Kind → Prop where
  | token (allowed : kind ∈ kinds) : Generates (.token kinds) [kind]
  | phrase (body : Generates (rule symbol) run) : Generates (.phrase symbol) run
  | done : Generates .done []
  | and (one : Generates first front) (two : Generates second back) :
      Generates (.and first second) (front ++ back)
  | left (one : Generates first run) : Generates (.or first second) run
  | right (two : Generates second run) : Generates (.or first second) run
  | stop : Generates (.many form) []
  | more (one : Generates form front) (others : Generates (.many form) back) :
      Generates (.many form) (front ++ back)

end FishLang.Grammar
