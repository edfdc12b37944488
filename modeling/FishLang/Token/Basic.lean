import FishLang.Text.Location
import FishLang.Token.Kind

namespace FishLang

structure Token where
  kind : Kind
  span : Span
  lexeme : String
deriving DecidableEq, Repr

namespace Token

def endOfInput : Token := ⟨.endOfInput, .unplaced, "$"⟩

def isEnd (token : Token) : Bool := token.kind == .endOfInput

def line? (token : Token) : Option Nat := token.span.line?

def entry (token : Token) : Kind × String := (token.kind, token.lexeme)

def render (token : Token) : String := token.kind.label ++ "(" ++ token.lexeme ++ ")"

def renderPlaced (token : Token) : String := token.render ++ " at " ++ token.span.render

end Token

end FishLang
