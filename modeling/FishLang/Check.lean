import FishLang.Analysis.Visit
import FishLang.Parse.Program
import FishLang.Source.Clean

namespace FishLang

inductive Failure where
  | parse (error : ParseError)
  | semantic (diagnostics : List Diagnostic)
deriving DecidableEq, Repr

namespace Failure

def render : Failure → String
  | .parse error => "Parse error: " ++ error.render
  | .semantic diagnostics => s!"{diagnostics.length} semantic error(s) found"

-- The diagnostics a failure carries; a source that is no program has none.
def diagnostics : Failure → List Diagnostic
  | .parse _ => []
  | .semantic diagnostics => diagnostics

end Failure

def parse (layout : Layout) (source : String) : Except ParseError Node := Node.ofText (clean layout source)

def check (layout : Layout) (source : String) : Except Failure Node :=
  match parse layout source with
  | .error error => .error (.parse error)
  | .ok node => if node.diagnostics.isEmpty then .ok node else .error (.semantic node.diagnostics)

def analyze (text : String) : Except ParseError (Node × List Diagnostic) :=
  (Node.ofText text).map fun node => (node, node.diagnostics)

end FishLang
