import FishLang.CommandLine.Plan

namespace FishLang

def Fault.ofError : IO.Error → Fault
  | .noFileOrDirectory .. => .absent
  | .permissionDenied .. => .denied
  | .inappropriateType _ code _ => if code = 21 then .directory else .notDirectory
  | error => .other (toString error)

def readSource (path : String) : IO (Except Fault String) := do
  match ← (IO.FS.readBinFile path).toBaseIO with
  | .ok bytes => return (String.fromUTF8? bytes).elim (.error .notText) .ok
  | .error error => return .error (.ofError error)

def writeOutput (path text : String) : IO (Option Fault) := do
  match ← (IO.FS.writeFile path text).toBaseIO with
  | .ok () => return none
  | .error error => return some (.ofError error)

end FishLang

open FishLang in
def main (arguments : List String) : IO UInt32 := do
  match Options.ofArguments? arguments with
  | none =>
    IO.eprintln "Usage: fishc [OPTIONS] <FILE>"
    return 2
  | some options =>
    let plan := Plan.of options (← readSource options.input)
    let fault ← match plan.document, options.output with
      | some document, some path => writeOutput path document
      | _, _ => pure none
    let outcome := plan.run options fault
    IO.print outcome.stdout
    IO.eprint outcome.stderr
    return if outcome.success then 0 else 1
