/-!
# Options of the command line

An option has a long name and perhaps a letter.  `--name value`, `--name=value`, `-l value` and
`-lvalue` give a value; letters without values may stand together; `--` ends the options; an argument
that is `-` or does not begin with `-` is a free argument.

* `Options.Key`: the options.
* `Options.Problem`: what can be wrong, with its wording.
* `Options.read`: the options and free arguments of a command line.
* `Options.usage`: the help text.
-/

namespace RuleGrammar.Options

/-! ### The options -/

/-- The options, in the order in which they are listed. -/
inductive Key where
  | transform
  | table
  | firstFollow
  | output
  | verbose
  | quiet
  | help
deriving DecidableEq, Repr

namespace Key

def all : List Key := [.transform, .table, .firstFollow, .output, .verbose, .quiet, .help]

def long : Key → String
  | .transform => "transform"
  | .table => "table"
  | .firstFollow => "first-follow"
  | .output => "output"
  | .verbose => "verbose"
  | .quiet => "quiet"
  | .help => "help"

def short? : Key → Option Char
  | .transform => some 't'
  | .table => none
  | .firstFollow => none
  | .output => some 'o'
  | .verbose => some 'v'
  | .quiet => some 'q'
  | .help => some 'h'

def hasValue : Key → Bool
  | .transform => true
  | .output => true
  | _ => false

def mayRepeat : Key → Bool
  | .transform => true
  | .verbose => true
  | _ => false

def ofLetter? (c : Char) : Option Key := all.find? fun key => key.short? = some c

/-- The option with a name; a name of one byte is a letter. -/
def ofName? (name : String) : Option Key :=
  match name.toList with
  | [c] => if c.utf8Size = 1 then ofLetter? c else none
  | _ => all.find? fun key => key.long = name

end Key

/-! ### Reading arguments -/

/-- What can be wrong with the options of a command line. -/
inductive Problem where
  | unrecognized (name : String)
  | missingValue (name : String)
  | unexpectedValue (name : String)
  | repeated (name : String)
deriving DecidableEq, Repr

def Problem.message : Problem → String
  | .unrecognized name => "Unrecognized option: '" ++ name ++ "'"
  | .missingValue name => "Argument to option '" ++ name ++ "' missing"
  | .unexpectedValue name => "Option '" ++ name ++ "' does not take an argument"
  | .repeated name => "Option '" ++ name ++ "' given more than once"

structure Reading where
  given : List (Key × Option String) := []
  free : List String := []
deriving DecidableEq, Repr

/-- A reading with one more free argument in front. -/
def Reading.withFree (argument : String) (r : Reading) : Reading :=
  { r with free := argument :: r.free }

/-- What one argument asks for. -/
inductive Request where
  | free
  | stop
  | complete (given : List (Key × Option String))
  -- options, and behind them one whose value is the next argument
  | pending (given : List (Key × Option String)) (key : Key) (name : String)
deriving DecidableEq, Repr

/-- The options in a group of letters.  The first of them that has a value takes the rest of the
group for it. -/
def readLetters : List Char → Except Problem Request
  | [] => .ok (.complete [])
  | c :: cs =>
      match Key.ofLetter? c with
      | none => .error (.unrecognized c.toString)
      | some key =>
          if key.hasValue then
            if cs.isEmpty then .ok (.pending [] key c.toString)
            else .ok (.complete [(key, some (String.ofList cs))])
          else
            (readLetters cs).map fun
              | .complete given => .complete ((key, none) :: given)
              | .pending given last name => .pending ((key, none) :: given) last name
              | other => other

/-- The option in an argument behind two dashes. -/
def readLong (cs : List Char) : Except Problem Request :=
  let name := String.ofList (cs.takeWhile (· != '='))
  let value := match cs.dropWhile (· != '=') with
    | [] => none
    | _ :: rest => some (String.ofList rest)
  match Key.ofName? name with
  | none => .error (.unrecognized name)
  | some key =>
      if key.hasValue then
        match value with
        | some v => .ok (.complete [(key, some v)])
        | none => .ok (.pending [] key name)
      else if value.isSome then .error (.unexpectedValue name)
      else .ok (.complete [(key, none)])

/-- What one argument asks for. -/
def request (argument : String) : Except Problem Request :=
  match argument.toList with
  | ['-', '-'] => .ok .stop
  | '-' :: '-' :: cs => readLong cs
  | '-' :: c :: cs => readLetters (c :: cs)
  | _ => .ok .free

/-- The options and free arguments of a command line, however often options are given. -/
def readAll : List String → Except Problem Reading
  | [] => .ok {}
  | argument :: rest =>
      match request argument with
      | .error problem => .error problem
      | .ok .free => (readAll rest).map (Reading.withFree argument)
      | .ok .stop => .ok { free := rest }
      | .ok (.complete given) =>
          (readAll rest).map fun r => { r with given := given ++ r.given }
      | .ok (.pending given key name) =>
          match rest with
          | [] => .error (.missingValue name)
          | value :: others =>
              (readAll others).map fun r =>
                { r with given := given ++ (key, some value) :: r.given }

def Reading.count (r : Reading) (key : Key) : Nat := r.given.countP fun (other, _) => other = key

def Reading.has (r : Reading) (key : Key) : Bool := r.count key != 0

def Reading.values (r : Reading) (key : Key) : List String :=
  r.given.filterMap fun (other, value) => if other = key then value else none

/-- The options and free arguments of a command line. -/
def read (arguments : List String) : Except Problem Reading := do
  let r ← readAll arguments
  match Key.all.find? fun key => !key.mayRepeat && r.count key > 1 with
  | some key => .error (.repeated key.long)
  | none => .ok r

/-! ### Help -/

/-- The help text for a program. -/
def usage (program : String) : String :=
  "Usage: " ++ program ++ " [options] PATH\n" ++
  "\n" ++
  "Options:\n" ++
  "    -t, --transform NAME\n" ++
  "                        Rewrite to apply, in the order given. May be repeated.\n" ++
  "                        Supported: left-recursion, factorize, useless, all\n" ++
  "        --table         Print the LL(1) table\n" ++
  "        --first-follow  Print NULLABLE, FIRST and FOLLOW sets\n" ++
  "    -o, --output FILE   Write the resulting grammar to FILE\n" ++
  "    -v, --verbose       Log more (repeat for trace output)\n" ++
  "    -q, --quiet         Only log errors\n" ++
  "    -h, --help          Print this message\n"

end RuleGrammar.Options
