import FishLang.Check
import FishLang.CommandLine.Log
import FishLang.Document.Encode
import FishLang.Node.Print
import FishLang.Text.SourceMap

namespace FishLang

def version : String := "0.1.0"

namespace Options

def tokensText (options : Options) (tokens : List Token) : String :=
  if options.json then (Document.list (tokens.map Token.document)).render
  else "\n".intercalate <| tokens.map fun token =>
    Entry.padLeft 4 (token.line?.elim "-" toString) ++ "  " ++ Entry.padRight 18 token.kind.name ++ " " ++
      token.lexeme

def treeText (options : Options) (node : Node) : String :=
  if options.json then node.document.render else node.pretty

def diagnosticsText (options : Options) (diagnostics : List Diagnostic) : String :=
  if options.json then (Document.list (diagnostics.map Diagnostic.document)).render
  else "\n".intercalate (diagnostics.map Diagnostic.render)

def layoutName (options : Options) : String :=
  match options.layout with
  | .strip => "Strip"
  | .preserve => "Preserve"

end Options

namespace Entry

def echo? (text : String) (line : Nat) : List Entry := (lineAt? text line).toList.map (.echo line)

def opening (options : Options) : List Entry :=
  [.log .info .command ("fishc v" ++ version),
    .log .debug .command ("Input file: " ++ Problem.quotePath options.input),
    .log .debug .command ("Frontend config: FrontendConfig \x7b whitespace: " ++ options.layoutName ++ " \x7d")]

def ofTokens (tokens : List Token) : List Entry :=
  .log .debug .automaton s!"Built Fish automaton with {fishAutomaton.edgeCount} transitions" ::
    tokens.map (fun token => .log .trace .lexer ("token " ++ token.renderPlaced)) ++
    [.log .debug .lexer s!"Lexed {tokens.length} tokens"]

-- What is said before tokens are parsed. The end of the input counts as one of them.
def parsing (tokens : List Token) : List Entry :=
  [.log .info .command "Parsing...", .log .debug .parser s!"Parsing {tokens.length + 1} tokens"]

def checking (node : Node) : List Entry :=
  .log .info .command "Checking..." ::
    node.visited.map (fun visited =>
      .log .trace .analyzer ("Visiting " ++ visited.kind.label ++ s!" (line {visited.line})")) ++
    [.log .debug .analyzer s!"Semantic analysis found {node.diagnostics.length} diagnostic(s)"]

def ofParseError (text : String) (error : ParseError) : List Entry :=
  .log .error .command error.render :: error.line?.elim [] (echo? text)

def ofDiagnostic (text : String) (diagnostic : Diagnostic) : List Entry :=
  .log .error .command diagnostic.render :: echo? text diagnostic.line

end Entry

structure Plan where
  before : List Entry
  document : Option String
  after : List Entry
  problem : Option Problem
deriving DecidableEq, Repr

namespace Plan

def ofSource (options : Options) (source : String) : Plan :=
  let text := clean options.layout source
  let tokens := tokenize text
  let scanned := Entry.opening options ++ Entry.ofTokens tokens
  match options.emit with
  | .tokens => ⟨scanned, some (options.tokensText tokens), [], none⟩
  | emit =>
    let parsed := scanned ++ Entry.parsing tokens
    match Node.ofTokens tokens with
    | .error error =>
      ⟨parsed ++ [.log .debug .parser ("Parse failed: " ++ error.render)],
        if options.json then some error.document.render else none,
        Entry.ofParseError text error, some (.noProgram options.input)⟩
    | .ok node =>
      if emit = .ast then ⟨parsed, some (options.treeText node), [], none⟩
      else
        let diagnostics := node.diagnostics
        ⟨parsed ++ Entry.checking node,
          if options.json || options.output.isSome then some (options.diagnosticsText diagnostics) else none,
          if diagnostics.isEmpty then [.log .info .command "No semantic errors found"]
          else diagnostics.flatMap (Entry.ofDiagnostic text),
          if diagnostics.isEmpty then none else some (.faulty diagnostics.length)⟩

def of (options : Options) : Except Fault String → Plan
  | .error fault => ⟨Entry.opening options, none, [], some (.unreadable options.input fault)⟩
  | .ok source => ofSource options source

end Plan

structure Outcome where
  stdout : String
  stderr : String
  -- What was written to the output file, if anything was.
  file : Option String
  success : Bool
deriving DecidableEq, Repr

namespace Plan

def said (options : Options) (entries : List Entry) (problem : Option Problem) : String :=
  .join ((entries.filter (Entry.shown options.level)).map Entry.render ++ problem.toList.map Problem.render)

-- Carry a plan out. The fault is what writing to the output file meets, if there is one.
def run (options : Options) (plan : Plan) (fault : Option Fault) : Outcome :=
  match plan.document, options.output with
  | some document, some path =>
    match fault with
    | some fault => ⟨"", said options plan.before (some (.unwritable path fault)), none, false⟩
    | none => ⟨"", said options (plan.before ++ plan.after) plan.problem, some document, plan.problem.isNone⟩
  | some document, none =>
    ⟨document ++ "\n", said options (plan.before ++ plan.after) plan.problem, none, plan.problem.isNone⟩
  | none, _ => ⟨"", said options (plan.before ++ plan.after) plan.problem, none, plan.problem.isNone⟩

end Plan

end FishLang
