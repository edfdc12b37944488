import FishLang.Parse.Basic
import FishLang.Proofs.Node.Bare
import FishLang.Proofs.Grammar.Rule

namespace FishLang

open Grammar

namespace Token

def fixed (kind : Kind) : Token := ⟨kind, .unplaced, kind.name⟩

def word (word : Word) : Token := fixed (.word word)
def mark (mark : Mark) : Token := fixed (.mark mark)
def delimiter : Token := fixed .delimiter
def named (text : String) : Token := ⟨.identifier, .unplaced, text⟩
def number (text : String) : Token := ⟨.number, .unplaced, text⟩

def quoted (kind : Kind) (quote : Char) (text : String) : Token :=
  ⟨kind, .unplaced, .ofList (quote :: (text.toList ++ [quote]))⟩

@[simp] theorem mark_line (mark : Mark) : (Token.mark mark).line = 0 := rfl
@[simp] theorem named_line (text : String) : (named text).line = 0 := rfl
@[simp] theorem named_lexeme (text : String) : (named text).lexeme = text := rfl

end Token

theorem unquote_quoted (kind : Kind) (quote : Char) (text : String) :
    unquote quote (Token.quoted kind quote text).lexeme = text := by
  simp [Token.quoted, unquote]

-- The operator that the tree writes so.
def Operator.ofSymbol? (symbol : String) : Option Operator := all.find? (·.symbol == symbol)

theorem Operator.ofSymbol?_symbol (op : Operator) : ofSymbol? op.symbol = some op := by
  cases op <;> decide

def Operator.level : Operator → Grammar.Level
  | .equal | .unequal => .equality
  | .less | .greater | .lessEqual | .greaterEqual => .relation
  | .add | .sub => .sum
  | _ => .product

-- How tightly operators bind: those between operands by their level, then signs, then counts.
def Grammar.Level.tightness : Grammar.Level → Nat
  | .equality => 0
  | .relation => 1
  | .sum => 2
  | .product => 3

def signTightness : Nat := 4
def countTightness : Nat := 5
def primaryTightness : Nat := 6

namespace Node

def levelOf (symbol : String) : Nat := (Operator.ofSymbol? symbol).elim 0 (·.level.tightness)

def tightness (node : Node) : Nat :=
  match node.kind with
  | .binary => levelOf node.text
  | .unary => signTightness
  | .suffix => countTightness
  | _ => primaryTightness

open Token

def parenthesized (run : List Token) : List Token := mark .leftParen :: (run ++ [mark .rightParen])

-- The node as an operand where nothing looser may stand, given how it is written.
def operand (least : Nat) (node : Node) (run : List Token) : List Token :=
  if node.tightness < least then parenthesized run else run

-- What is closed by a delimiter as an item of a block, and not where it is a clause of a loop or an expression.
def delimited : List Node.Kind := [.declaration, .assign, .suffix, .call]

-- The node as an item of a block, given how it is written.
def itemOf (node : Node) (run : List Token) : List Token :=
  if node.kind ∈ delimited then run ++ [delimiter] else run

def operatorOf (symbol : String) : List Token :=
  (Operator.ofSymbol? symbol).toList.map fun op => fixed (.operator op)

theorem operatorOf_symbol (op : Operator) : operatorOf op.symbol = [fixed (.operator op)] := by
  simp [operatorOf, Operator.ofSymbol?_symbol]

theorem levelOf_symbol (op : Operator) : levelOf op.symbol = op.level.tightness := by
  simp [levelOf, Operator.ofSymbol?_symbol]

mutual

def spell : Node → List Token
  | ⟨.program, _, [body], _⟩ => word .fish :: spell body
  | ⟨.block, _, items, _⟩ => mark .leftBrace :: (spellItems items ++ [mark .rightBrace])
  | ⟨.declaration, some name, [ty], _⟩ => spell ty ++ [named name]
  | ⟨.declaration, some name, [ty, initializer], _⟩ => spell ty ++ named name :: spell initializer
  | ⟨.initializer, _, [value], _⟩ => fixed .assign :: spell value
  | ⟨.typeName, some name, _, _⟩ => (Ty.ofName? name).toList.map fun ty => fixed (.type ty)
  | ⟨.functionDef, some name, [params, result, body], _⟩ =>
    word .fishtion :: named name :: mark .leftParen :: (spell params ++
      mark .rightParen :: (spell result ++ spell body))
  | ⟨.params, _, listed, _⟩ | ⟨.args, _, listed, _⟩ => spellListed listed
  | ⟨.param, some name, [ty], _⟩ => spell ty ++ [named name]
  | ⟨.when, _, [condition, body], _⟩ => word .when :: (parenthesized (spell condition) ++ spell body)
  | ⟨.when, _, [condition, body, other], _⟩ =>
    word .when :: (parenthesized (spell condition) ++ (spell body ++ word .otherwise :: spell other))
  | ⟨.whale, _, [condition, body], _⟩ => word .whale :: (parenthesized (spell condition) ++ spell body)
  | ⟨.fork, _, [start, condition, step, body], _⟩ =>
    word .fork :: mark .leftParen :: (spell start ++ delimiter :: (spell condition ++ delimiter :: (spell step ++
      mark .rightParen :: spell body)))
  | ⟨.attempt, _, [body, handler], _⟩ => word .attempt :: (spell body ++ word .rescue :: spell handler)
  | ⟨.attempt, _, [body, handler, last], _⟩ =>
    word .attempt :: (spell body ++ word .rescue :: (spell handler ++ word .lastly :: spell last))
  | ⟨.splash, _, [value], _⟩ => word .splash :: (parenthesized (spell value) ++ [delimiter])
  | ⟨.emerge, _, [value], _⟩ => word .emerge :: (spell value ++ [delimiter])
  | ⟨.assign, some name, [value], _⟩ => named name :: fixed .assign :: spell value
  | ⟨.call, some name, [given], _⟩ => named name :: mark .leftParen :: (spell given ++ [mark .rightParen])
  | ⟨.binary, some symbol, [left, right], _⟩ =>
    operand (levelOf symbol) left (spell left) ++
      (operatorOf symbol ++ operand (levelOf symbol + 1) right (spell right))
  | ⟨.unary, some symbol, [inner], _⟩ => operatorOf symbol ++ operand signTightness inner (spell inner)
  | ⟨.suffix, some symbol, [inner], _⟩ => operand countTightness inner (spell inner) ++ operatorOf symbol
  | ⟨.var, some name, _, _⟩ => [named name]
  | ⟨.num, some text, _, _⟩ => [number text]
  | ⟨.string, some text, _, _⟩ => [quoted .string '"' text]
  | ⟨.char, some text, _, _⟩ => [quoted .char '\'' text]
  | _ => []

def spellItems : List Node → List Token
  | [] => []
  | node :: rest => itemOf node (spell node) ++ spellItems rest

def spellListed : List Node → List Token
  | [] => []
  | [node] => spell node
  | node :: rest => spell node ++ mark .comma :: spellListed rest

end

-- An operation of the same level is written between parentheses to the right, and as it is to the left.
example : let name (text : String) : Node := .leaf .var text 0
    let minus (left right : Node) : Node := .binary Operator.sub.symbol left right
    (minus (minus (name "a") (name "b")) (minus (name "c") (name "d"))).spell.map Token.lexeme =
      ["a", "<-", "b", "<-", "(", "c", "<-", "d", ")"] := by decide +kernel

def spellOthers (nodes : List Node) : List Token := nodes.flatMap fun node => mark .comma :: node.spell

theorem spellListed_cons (node : Node) (rest : List Node) :
    spellListed (node :: rest) = node.spell ++ spellOthers rest := by
  induction rest generalizing node with
  | nil => exact (List.append_nil _).symm
  | cons second rest ih => exact congrArg (fun others => node.spell ++ mark .comma :: others) (ih second)

def spellOpened (keyword : Word) (nodes : List Node) : List Token := nodes.flatMap fun node => word keyword :: node.spell

theorem spell_when (condition body : Node) (once : other.length ≤ 1) (line : Nat) :
    spell (.group .when (condition :: body :: other) line) =
      word .when :: (parenthesized condition.spell ++ (body.spell ++ spellOpened .otherwise other)) := by
  match other, once with
  | [], _ =>
    rw [spellOpened, List.flatMap_nil, List.append_nil]
    rfl
  | [_], _ =>
    rw [spellOpened, List.flatMap_singleton]
    rfl

theorem spell_attempt (body handler : Node) (once : other.length ≤ 1) (line : Nat) :
    spell (.group .attempt (body :: handler :: other) line) =
      word .attempt :: (body.spell ++ word .rescue :: (handler.spell ++ spellOpened .lastly other)) := by
  match other, once with
  | [], _ =>
    rw [spellOpened, List.flatMap_nil, List.append_nil]
    rfl
  | [_], _ =>
    rw [spellOpened, List.flatMap_singleton]
    rfl

theorem spell_ofTy (ty : Ty) (line : Nat) : spell (ofTy ty line) = [fixed (.type ty)] := by
  show (Ty.ofName? ty.name).toList.map _ = _
  rw [Ty.ofName?_name]
  rfl

theorem spell_binary (op : Operator) (left right : Node) (line : Nat) :
    spell ⟨.binary, some op.symbol, [left, right], line⟩ =
      left.operand op.level.tightness left.spell ++
        fixed (.operator op) :: right.operand (op.level.tightness + 1) right.spell := by
  show left.operand (levelOf op.symbol) left.spell ++
    (operatorOf op.symbol ++ right.operand (levelOf op.symbol + 1) right.spell) = _
  rw [operatorOf_symbol, levelOf_symbol]
  rfl

theorem spell_unary (op : Operator) (inner : Node) (line : Nat) :
    spell ⟨.unary, some op.symbol, [inner], line⟩ =
      fixed (.operator op) :: inner.operand signTightness inner.spell := by
  show operatorOf op.symbol ++ inner.operand signTightness inner.spell = _
  rw [operatorOf_symbol]
  rfl

theorem spell_suffix (op : Operator) (inner : Node) (line : Nat) :
    spell ⟨.suffix, some op.symbol, [inner], line⟩ =
      inner.operand countTightness inner.spell ++ [fixed (.operator op)] := by
  show inner.operand countTightness inner.spell ++ operatorOf op.symbol = _
  rw [operatorOf_symbol]

end Node

end FishLang
