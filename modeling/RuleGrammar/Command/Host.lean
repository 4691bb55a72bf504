/-!
# Files

The command line reads and writes files through a host, so that it runs the same over the files of a
machine and over a directory that is a value.

* `FileProblem`: why a file cannot be read or written.
* `Host`: how to read and to write a file.
* `Directory`: files by name, with a host that works on it.
-/

namespace RuleGrammar

/-- Why a file cannot be read or written. -/
inductive FileProblem where
  | notFound
  | isDirectory
  | notText
  | other (message : String)
deriving DecidableEq, Repr

def FileProblem.message : FileProblem → String
  | .notFound => "No such file or directory (os error 2)"
  | .isDirectory => "Is a directory (os error 21)"
  | .notText => "stream did not contain valid UTF-8"
  | .other message => message

structure Host (m : Type → Type) where
  read : String → m (Except FileProblem String)
  write : String → String → m (Except FileProblem Unit)

structure Directory where
  files : List (String × ByteArray)

namespace Directory

/-- Whether a path is that of the directory itself or the one above it. -/
def isDirectory (path : String) : Bool := path == "." || path == ".."

/-- Whether a path cannot be that of a file here. -/
def isElsewhere (path : String) : Bool := path.isEmpty || path.toList.contains '/'

def get? (d : Directory) (path : String) : Option ByteArray := d.files.lookup path

def read (d : Directory) (path : String) : Except FileProblem String :=
  if isDirectory path then .error .isDirectory
  else if isElsewhere path then .error .notFound
  else
    match d.get? path with
    | none => .error .notFound
    | some bytes =>
        match String.fromUTF8? bytes with
        | some text => .ok text
        | none => .error .notText

/-- The directory with a text in a file. -/
def write (d : Directory) (path text : String) : Except FileProblem Directory :=
  if isDirectory path then .error .isDirectory
  else if isElsewhere path then .error .notFound
  else .ok ⟨d.files.filter (fun (name, _) => name != path) ++ [(path, text.toUTF8)]⟩

/-- A host that works on a directory. -/
def host : Host (StateM Directory) where
  read path := fun d => (d.read path, d)
  write path text := fun d =>
    match d.write path text with
    | .ok larger => (.ok (), larger)
    | .error problem => (.error problem, d)

/-- The files that are new or have changed since an earlier directory. -/
def changes (before after : Directory) : List (String × ByteArray) :=
  after.files.filter fun (name, bytes) =>
    match before.get? name with
    | some old => old.toList != bytes.toList
    | none => true

end Directory

end RuleGrammar
