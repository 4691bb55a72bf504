import RuleGrammar.Command.Host
import RuleGrammar.Command.Options
import RuleGrammar.Report

/-!
# The command

The command reads one file of rules, transforms the grammar, reports on it, and writes or prints the
result.

* `Command.Outcome`: what is printed, and the exit code.
* `Command.run`: the command over any host.
-/

namespace RuleGrammar.Command

structure Outcome where
  code : Nat := 0
  stdout : String := ""
  stderr : String := ""
deriving DecidableEq, Repr

def programName : String := "grammargens"

/-- The least urgent level that is printed. -/
def threshold (r : Options.Reading) : Journal.Level :=
  if r.has .quiet then .error
  else
    match r.count .verbose with
    | 0 => .warn
    | 1 => .info
    | 2 => .debug
    | _ => .trace

def failure (message : String) : Outcome := { code := 1, stderr := message ++ "\n" }

/-- What is left to do once the options are read. -/
structure Task where
  path : String
  config : Report.Config
  -- where to write the result; to standard output if there is no file
  output? : Option String
  threshold : Journal.Level

/-- The task that the arguments ask for, or what to print instead. -/
def plan (program : String) (arguments : List String) : Except Outcome Task :=
  match Options.read arguments with
  | .error problem => .error (failure problem.message)
  | .ok r =>
      if r.has .help then .error { stdout := Options.usage program }
      else
        match Transform.parse (r.values .transform) with
        | .error unknown => .error (failure unknown.message)
        | .ok transforms =>
            match r.free with
            | [path] =>
                .ok
                  { path := path
                    config :=
                      { transforms := transforms
                        table := r.has .table
                        firstFollow := r.has .firstFollow }
                    output? := (r.values .output).head?
                    threshold := threshold r }
            | _ => .error { code := 1, stdout := Options.usage program }

/-- The entries of a journal that are urgent enough, a line each. -/
def journalText (task : Task) (entries : List Journal.Entry) : String :=
  String.join ((Journal.lines task.threshold entries).map (· ++ "\n"))

def perform {m : Type → Type} [Monad m] (host : Host m) (task : Task) : m Outcome := do
  match ← host.read task.path with
  | .error problem => return failure ("cannot read " ++ task.path ++ ": " ++ problem.message)
  | .ok input =>
      match Report.run input task.config with
      | .error fault => return { code := 1, stderr := fault.report task.path input }
      | .ok output =>
          let told := journalText task output.journal
          let text := output.grammar.toText
          match task.output? with
          | none => return { stdout := output.report ++ "\n" ++ text, stderr := told }
          | some path =>
              match ← host.write path text with
              | .ok () => return { stdout := output.report, stderr := told }
              | .error problem =>
                  return { code := 1
                           stdout := output.report
                           stderr := told ++ "cannot write " ++ path ++ ": " ++
                             problem.message ++ "\n" }

def run {m : Type → Type} [Monad m] (host : Host m) (arguments : List String) : m Outcome :=
  match plan programName arguments with
  | .error outcome => pure outcome
  | .ok task => perform host task

end RuleGrammar.Command
