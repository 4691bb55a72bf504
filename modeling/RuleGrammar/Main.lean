import RuleGrammar.Command

/-!
# The program

The command over the files of the machine.
-/

namespace RuleGrammar

/-- The problem behind an error of the machine. -/
def FileProblem.ofError : IO.Error → FileProblem
  | .noFileOrDirectory .. => .notFound
  | .inappropriateType .. => .isDirectory
  | e => .other (toString e)

def machineHost : Host IO where
  read path := do
    try
      match String.fromUTF8? (← IO.FS.readBinFile path) with
      | some text => return .ok text
      | none => return .error .notText
    catch e => return .error (.ofError e)
  write path text := do
    try
      IO.FS.writeFile path text
      return .ok ()
    catch e => return .error (.ofError e)

end RuleGrammar

def main (arguments : List String) : IO UInt32 := do
  let outcome ← RuleGrammar.Command.run RuleGrammar.machineHost arguments
  IO.print outcome.stdout
  IO.eprint outcome.stderr
  return outcome.code.toUInt32
