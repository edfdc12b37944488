import FishLang.Parse.Statement
import FishLang.Token.Scan

namespace FishLang

namespace Parse

def program : Parse Node := do
  let keyword ← expect (.word .fish) .program
  let body ← block
  if (← peek) = .endOfInput then pure (.group .program [body] keyword.line) else fail .trailing

-- Read a program, then go on reading from where each time ended: behind a program only the end of the input is
-- left, and a program that failed is taken up at its offending token.
def programs : Nat → List Token → List (Except ParseError Node)
  | 0, _ => []
  | times + 1, tokens =>
    match program tokens with
    | .ok (node, rest) => .ok node :: programs times rest
    | .error stop => .error stop.error :: programs times stop.rest

end Parse

def Node.ofTokens (tokens : List Token) : Except ParseError Node :=
  match Parse.program tokens with
  | .ok (node, _) => .ok node
  | .error stop => .error stop.error

def Node.ofText (text : String) : Except ParseError Node := Node.ofTokens (tokenize text)

end FishLang
