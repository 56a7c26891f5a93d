import HeapImage.Text.Numeral

/-!
# Options and operands

An argument is an option if a hyphen and something else are in front. Options have a long name after
two hyphens, and some have a short one of one character; short flags may share one hyphen. The value
of an option stands behind its name, set off by an equals sign or as the next argument, or directly
behind a short name. A value that is an argument of its own does not look like an option. After two
hyphens alone everything is an operand.

* `OptionSpec`, `OperandSpec`, `CommandSpec`: what a command can be given.
* `UsageError`: the ways in which arguments make no sense.
* `Scan.arguments`: the options and operands given to a command. Each is checked when its argument
  is met, so the first argument that makes no sense wins.
-/

namespace HeapImage.CommandLine

/-- What a value has to be. -/
inductive ValueKind where
  /-- A path, which has characters. -/
  | path
  /-- A number that fits a heap word. -/
  | number
  /-- One of some words. -/
  | word (choices : List String)
  deriving DecidableEq, Repr

/-- A text can be the value. -/
def ValueKind.accepts : ValueKind → String → Bool
  | path, text => !text.isEmpty
  | number, text => (readNat? 0x10000000000000000 text).isSome
  | word choices, text => choices.contains text

/-- A value that a command can be given. -/
structure ValueSpec where
  /-- What stands for the value in a help text. -/
  name : String
  kind : ValueKind
  deriving DecidableEq, Repr

/-- What an option does. -/
inductive OptionRole where
  | flag
  /-- Nothing behind the option is looked at. -/
  | final
  /-- The option takes a value, and may have to be there. -/
  | value (spec : ValueSpec) (isRequired : Bool)
  deriving DecidableEq, Repr

/-- An option that a command can be given once. -/
structure OptionSpec where
  /-- The name after two hyphens. -/
  long : String
  /-- The name after one hyphen. -/
  short : Option Char
  role : OptionRole
  /-- What the option is for. -/
  about : String
  deriving DecidableEq, Repr

/-- The operand of a command. -/
structure OperandSpec where
  value : ValueSpec
  /-- What the operand is for. -/
  about : String
  deriving DecidableEq, Repr

/-- What a command can be given. -/
structure CommandSpec where
  name : String
  /-- What the command is for. -/
  about : String
  options : List OptionSpec
  operand : Option OperandSpec
  deriving DecidableEq, Repr

/-- Why arguments make no sense. -/
inductive UsageError where
  | noCommand
  | unknownCommand (text : String)
  | unknownOption (text : String)
  | missingValue (option : String)
  | uncalledValue (option : String)
  | repeated (option : String)
  | unexpected (operand : String)
  | missing (what : String)
  | badValue (what value : String)
  deriving DecidableEq, Repr

/-- The wording of an error. -/
def UsageError.message : UsageError → String
  | noCommand => "a command is required"
  | unknownCommand text => "unknown command '" ++ text ++ "'"
  | unknownOption text => "unknown option '" ++ text ++ "'"
  | missingValue option => "option '--" ++ option ++ "' needs a value"
  | uncalledValue option => "option '--" ++ option ++ "' takes no value"
  | repeated option => "option '--" ++ option ++ "' is given twice"
  | unexpected operand => "unexpected argument '" ++ operand ++ "'"
  | missing what => what ++ " is missing"
  | badValue what value => "'" ++ value ++ "' is no value for " ++ what

/-- The options and operands given to a command. -/
structure Scan where
  /-- The options by their long names, with their values. -/
  options : List (String × Option String)
  /-- The operands in order. -/
  operands : List String
  deriving DecidableEq, Repr

namespace Scan

/-- Nothing was given. -/
def empty : Scan := ⟨[], []⟩

/-- The option was given. -/
def has (s : Scan) (long : String) : Bool := s.options.any fun o => o.1 == long

/-- The value given with an option. -/
def value? (s : Scan) (long : String) : Option String :=
  (s.options.find? fun o => o.1 == long).bind Prod.snd

/-- Refuses a text that cannot be a value. -/
def checkValue (value : ValueSpec) (text : String) : Except UsageError Unit :=
  if value.kind.accepts text then .ok () else .error (.badValue value.name text)

/-- One more option, which may be given once. -/
def withOption (s : Scan) (spec : OptionSpec) (value : Option String) : Except UsageError Scan :=
  if s.has spec.long then .error (.repeated spec.long)
  else .ok { s with options := s.options ++ [(spec.long, value)] }

/-- One more option with a value. -/
def withValue (s : Scan) (spec : OptionSpec) (value : ValueSpec) (text : String) :
    Except UsageError Scan := do
  checkValue value text
  s.withOption spec (some text)

/-- One more operand. There is at most one. -/
def withOperand (command : CommandSpec) (s : Scan) (text : String) : Except UsageError Scan :=
  match command.operand, s.operands with
  | some operand, [] => do
    checkValue operand.value text
    return { s with operands := [text] }
  | _, _ => .error (.unexpected text)

/-! ### Arguments -/

/-- The argument names options. -/
def looksLikeOption (argument : String) : Bool :=
  argument.startsWith "-" && argument != "-"

/-- The parts of a text before and after its first equals sign. -/
def splitAtEquals (cs : List Char) : String × Option String :=
  let name := cs.takeWhile (· ≠ '=')
  match cs.dropWhile (· ≠ '=') with
  | [] => (String.ofList name, none)
  | _ :: value => (String.ofList name, some (String.ofList value))

/-- What is known after one argument. -/
inductive Progress where
  /-- The next argument can be anything. -/
  | ready (scan : Scan)
  /-- The next argument has to be the value of an option. -/
  | awaiting (spec : OptionSpec) (value : ValueSpec) (scan : Scan)
  /-- No more arguments are looked at. -/
  | over (scan : Scan)

/-- Reads the characters after two hyphens. -/
def long (command : CommandSpec) (s : Scan) (cs : List Char) : Except UsageError Progress := do
  let (name, attached) := splitAtEquals cs
  match command.options.find? fun spec => spec.long == name with
  | none => throw (.unknownOption (String.ofList ('-' :: '-' :: cs)))
  | some spec =>
    match spec.role, attached with
    | .value value _, none => return .awaiting spec value s
    | .value value _, some text => return .ready (← s.withValue spec value text)
    | .flag, none => return .ready (← s.withOption spec none)
    | .final, none => return .over (← s.withOption spec none)
    | _, some _ => throw (.uncalledValue spec.long)

/-- Reads the characters after one hyphen. -/
def short (command : CommandSpec) (s : Scan) : List Char → Except UsageError Progress
  | [] => .ok (.ready s)
  | c :: cs =>
    match command.options.find? fun spec => spec.short == some c with
    | none => .error (.unknownOption (String.ofList ['-', c]))
    | some spec =>
      match spec.role, cs with
      | .value value _, [] => .ok (.awaiting spec value s)
      | .value value _, '=' :: text => (s.withValue spec value (String.ofList text)).map .ready
      | .value value _, text => (s.withValue spec value (String.ofList text)).map .ready
      | .final, _ => (s.withOption spec none).map .over
      | .flag, cs =>
        match s.withOption spec none with
        | .ok s => short command s cs
        | .error e => .error e

/-- Reads one argument that looks like an option. -/
def option (command : CommandSpec) (s : Scan) (argument : String) : Except UsageError Progress :=
  match argument.toList with
  | '-' :: '-' :: cs => long command s cs
  | _ :: cs => short command s cs
  | [] => .ok (.ready s)

/-- Reads the arguments of a command after those read before. -/
def argumentsAfter (command : CommandSpec) (s : Scan) : List String → Except UsageError Scan
  | [] => .ok s
  | "--" :: operands => operands.foldlM (withOperand command) s
  | argument :: rest =>
    if looksLikeOption argument then
      match option command s argument with
      | .error e => .error e
      | .ok (.over s) => .ok s
      | .ok (.ready s) => argumentsAfter command s rest
      | .ok (.awaiting spec value s) =>
        match rest with
        | [] => .error (.missingValue spec.long)
        | text :: rest =>
          if looksLikeOption text then .error (.missingValue spec.long)
          else
            match s.withValue spec value text with
            | .ok s => argumentsAfter command s rest
            | .error e => .error e
    else
      match withOperand command s argument with
      | .ok s => argumentsAfter command s rest
      | .error e => .error e

/-- Reads the arguments of a command. -/
def arguments (command : CommandSpec) (args : List String) : Except UsageError Scan :=
  argumentsAfter command empty args

end Scan

end HeapImage.CommandLine
