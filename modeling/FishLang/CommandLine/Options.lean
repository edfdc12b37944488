import FishLang.Source.Layout

namespace FishLang

inductive Emit where
  | tokens | ast | check
deriving DecidableEq, Repr

def Emit.ofName? : String → Option Emit
  | "tokens" => some .tokens
  | "ast" => some .ast
  | "check" => some .check
  | _ => none

inductive Level where
  | error | warn | info | debug | trace
deriving DecidableEq, Repr

namespace Level

def rank : Level → Nat
  | .error => 0
  | .warn => 1
  | .info => 2
  | .debug => 3
  | .trace => 4

-- The level at the head of an entry, in five columns.
def tag : Level → String
  | .error => "ERROR"
  | .warn => "WARN "
  | .info => "INFO "
  | .debug => "DEBUG"
  | .trace => "TRACE"

end Level

structure Options where
  input : String
  -- The file that a document is written to, if not to standard output.
  output : Option String
  emit : Emit
  layout : Layout
  json : Bool
  -- How often more of the log was asked for.
  verbose : Nat
  -- Only errors are logged, however verbose the run.
  quiet : Bool
deriving DecidableEq, Repr

def Options.level (options : Options) : Level :=
  if options.quiet then .error
  else match options.verbose with
    | 0 => .warn
    | 1 => .info
    | 2 => .debug
    | _ => .trace

-- The arguments read so far. A switch is set once at most; only verbosity adds up.
structure Arguments where
  input : Option String
  output : Option String
  emit : Option Emit
  strip : Bool
  json : Bool
  verbose : Nat
  quiet : Bool
deriving DecidableEq, Repr

namespace Arguments

def initial : Arguments := ⟨none, none, none, false, false, 0, false⟩

def setInput (read : Arguments) (path : String) : Option Arguments :=
  if read.input.isSome then none else some { read with input := some path }

def setOutput (read : Arguments) (path : String) : Option Arguments :=
  if read.output.isSome || path.isEmpty then none else some { read with output := some path }

def setEmit (read : Arguments) (name : String) : Option Arguments :=
  if read.emit.isSome then none else (Emit.ofName? name).map fun emit => { read with emit := some emit }

def setQuiet (read : Arguments) : Option Arguments :=
  if read.quiet then none else some { read with quiet := true }

def setFlag (read : Arguments) : String → Option Arguments
  | "strip-whitespace" => if read.strip then none else some { read with strip := true }
  | "json" => if read.json then none else some { read with json := true }
  | "verbose" => some { read with verbose := read.verbose + 1 }
  | "quiet" => read.setQuiet
  | _ => none

def setValue (read : Arguments) (name value : String) : Option Arguments :=
  match name with
  | "output" => read.setOutput value
  | "emit" => read.setEmit value
  | _ => none

def takesValue (name : String) : Bool := name == "output" || name == "emit"

inductive Shape where
  | plain
  -- Two dashes alone: only plain arguments follow.
  | divider
  -- Two dashes and a name, with a value behind an equals sign or without.
  | long (name : String) (value : Option String)
  | short (letters : List Char)
deriving DecidableEq, Repr

def shape (argument : String) : Shape :=
  match argument.toList with
  | ['-', '-'] => .divider
  | '-' :: '-' :: rest =>
    let name := rest.takeWhile (· != '=')
    .long (.ofList name) ((rest.drop name.length).tail?.map .ofList)
  | ['-'] => .plain
  | '-' :: letters => .short letters
  | _ => .plain

-- Letters behind one dash. The letter `o` takes the rest as its value, an equals sign before it left out; if
-- nothing is left it asks for the next argument, which the flag tells.
def setLetters (read : Arguments) : List Char → Option (Arguments × Bool)
  | [] => some (read, false)
  | 'v' :: rest => setLetters { read with verbose := read.verbose + 1 } rest
  | 'q' :: rest => read.setQuiet.bind (setLetters · rest)
  | ['o'] => some (read, true)
  | 'o' :: '=' :: value => (read.setOutput (.ofList value)).map (·, false)
  | 'o' :: value => (read.setOutput (.ofList value)).map (·, false)
  | _ => none

def setInputs (read : Arguments) (paths : List String) : Option Arguments := paths.foldlM setInput read

def read? (read : Arguments) : List String → Option Arguments
  | [] => some read
  | argument :: rest =>
    match shape argument with
    | .plain => (read.setInput argument).bind (read? · rest)
    | .divider => read.setInputs rest
    | .long name (some value) => (read.setValue name value).bind (read? · rest)
    | .long name none =>
      if takesValue name then
        match rest with
        | value :: others =>
          if shape value = .plain then (read.setValue name value).bind (read? · others) else none
        | [] => none
      else (read.setFlag name).bind (read? · rest)
    | .short letters =>
      match read.setLetters letters with
      | some (set, false) => read? set rest
      | some (set, true) =>
        match rest with
        | value :: others =>
          if shape value = .plain then (set.setOutput value).bind (read? · others) else none
        | [] => none
      | none => none

end Arguments

-- The options that arguments ask for. Checking is what is done unless they say otherwise.
def Options.ofArguments? (arguments : List String) : Option Options := do
  let read ← Arguments.initial.read? arguments
  let input ← read.input
  return {
    input := input
    output := read.output
    emit := read.emit.getD .check
    layout := if read.strip then .strip else .preserve
    json := read.json
    verbose := read.verbose
    quiet := read.quiet }

end FishLang
