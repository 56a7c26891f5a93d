import HeapImage.Error

/-!
# Reports

What a command prints, and how it fails.

* `Failure`: a message with the errors behind it, and its lines on standard error.
* `Report`: the end of a command.
* `Listing`: a computation that prints lines and may fail.
-/

namespace HeapImage.CommandLine

/-- Why a command fails. -/
structure Failure where
  message : String
  /-- The messages of the errors behind it, nearest first. -/
  causes : List String
  deriving DecidableEq, Repr

namespace Failure

/-- An error as a failure. -/
def ofError (e : ArchiveError) : Failure := ⟨e.message, e.causes⟩

/-- The failure to do something, with its cause. -/
def under (context : String) (f : Failure) : Failure := ⟨context, f.message :: f.causes⟩

/-- The failure to do something because of the file system. -/
def ofFile (context : String) (e : FileError) : Failure := ⟨context, [e.text]⟩

/-- The lines of a text behind a mark, with blanks in front of all lines but the first. -/
def indented (mark : String) (text : String) : List String :=
  match text.splitOn "\n" with
  | [] => [mark]
  | first :: rest => (mark ++ first) :: rest.map fun line => "".pushn ' ' mark.length ++ line

/-- The lines of the causes, which are numbered if there are several. -/
def causeLines : List String → List String
  | [] => []
  | [cause] => indented "    " cause
  | causes => causes.zipIdx.flatMap fun (cause, i) =>
      indented ("".pushn ' ' (5 - (toString i).length) ++ toString i ++ ": ") cause

/-- The lines of a failure on standard error. -/
def lines (f : Failure) : List String :=
  ("Error: " ++ f.message).splitOn "\n" ++
    if f.causes.isEmpty then [] else "" :: "Caused by:" :: causeLines f.causes

end Failure

/-- The end of a command. -/
structure Report where
  /-- The lines printed on standard output. -/
  output : List String
  failure : Option Failure
  deriving DecidableEq, Repr

/-- The exit code of a command. -/
def Report.exitCode (r : Report) : UInt8 := if r.failure.isSome then 1 else 0

/-- A computation that prints lines and may fail. -/
abbrev Listing (α : Type) := ExceptT Failure (StateM (List String)) α

namespace Listing

/-- Prints a line. -/
def say (line : String) : Listing Unit := modify (· ++ [line])

/-- Fails with an error if there is one. -/
def attempt {α : Type} (r : Except ArchiveError α) : Listing α :=
  MonadExcept.ofExcept (r.mapError Failure.ofError)

/-- The report of a finished listing. -/
def report (l : Listing Unit) : Report :=
  match (ExceptT.run l).run [] with
  | (.ok (), output) => ⟨output, none⟩
  | (.error f, output) => ⟨output, some f⟩

end Listing

end HeapImage.CommandLine
