import HeapImage.CommandLine.Options

/-!
# Help texts

A help text says what a command is for, how it is called, and what it can be given. The entries of a
section stand in two columns.

* `HelpSection`: a title with entries under it.
* `helpLines`: the lines of a help text.
* `CommandSpec.help`: the help text of a command.
-/

namespace HeapImage.CommandLine

/-- A part of a help text. -/
structure HelpSection where
  title : String
  /-- What is explained, and how. -/
  entries : List (String × String)
  deriving DecidableEq, Repr

/-- Entries in two columns; the second starts two blanks behind the longest of the first. -/
def columns (entries : List (String × String)) : List String :=
  let width := (entries.map fun entry => entry.1.length).foldl max 0
  entries.map fun (label, text) =>
    "  " ++ label ++ "".pushn ' ' (width - label.length + 2) ++ text

/-- The lines of a section, with a blank line in front. A section without entries is left out. -/
def HelpSection.lines (s : HelpSection) : List String :=
  if s.entries.isEmpty then [] else "" :: (s.title ++ ":") :: columns s.entries

/-- The lines of a help text. -/
def helpLines (about usage : String) (sections : List HelpSection) : List String :=
  about :: "" :: ("Usage: " ++ usage) :: sections.flatMap HelpSection.lines

/-- What stands for a value. -/
def ValueSpec.label (v : ValueSpec) : String := "<" ++ v.name ++ ">"

/-- The words that a value can be, if there is a choice. -/
def ValueKind.choicesText : ValueKind → String
  | word choices => " [possible values: " ++ String.intercalate ", " choices ++ "]"
  | _ => ""

namespace OptionSpec

/-- The option's long name and what stands for its value. -/
def call (spec : OptionSpec) : String :=
  match spec.role with
  | .value value _ => "--" ++ spec.long ++ " " ++ value.label
  | _ => "--" ++ spec.long

/-- Both names of the option and what stands for its value. -/
def label (spec : OptionSpec) : String :=
  match spec.short with
  | some c => String.ofList ['-', c, ',', ' '] ++ spec.call
  | none => "    " ++ spec.call

/-- What the option is for, and what its value can be. -/
def explanation (spec : OptionSpec) : String :=
  match spec.role with
  | .value value _ => spec.about ++ value.kind.choicesText
  | _ => spec.about

/-- The option has to be there. -/
def isRequired (spec : OptionSpec) : Bool :=
  match spec.role with
  | .value _ isRequired => isRequired
  | _ => false

end OptionSpec

/-- The section about options. -/
def optionSection (options : List OptionSpec) : HelpSection :=
  ⟨"Options", options.map fun spec => (spec.label, spec.explanation)⟩

namespace CommandSpec

/-- How the command of a program is called. What has to be there is spelled out. -/
def usage (program : String) (c : CommandSpec) : String :=
  let required := (c.options.filter OptionSpec.isRequired).map OptionSpec.call
  let operand := c.operand.toList.map fun operand => operand.value.label
  String.intercalate " " ([program, c.name, "[OPTIONS]"] ++ required ++ operand)

/-- The help text of a command of a program. -/
def help (program : String) (c : CommandSpec) : List String :=
  let operand := c.operand.toList.map fun operand => (operand.value.label, operand.about)
  helpLines c.about (c.usage program) [⟨"Arguments", operand⟩, optionSection c.options]

end CommandSpec

end HeapImage.CommandLine
