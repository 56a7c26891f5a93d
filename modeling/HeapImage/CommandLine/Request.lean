import HeapImage.CommandLine.Help
import HeapImage.FileTree
import HeapImage.Load.Options

/-!
# Requests

What a user asks for on the command line.

* `Command`: one of the four things that can be done with archives.
* `CommandName`: the commands by name, with what each can be given.
* `Request.ofArguments`: the request that a list of arguments makes.
-/

namespace HeapImage.CommandLine

/-- Something to be done. -/
inductive Command where
  /-- Write an archive of the objects that a graph file describes. -/
  | dump (graph out : String) (wide : Bool) (alignment : Option Nat)
  /-- Show the header of an archive. -/
  | info (file : String)
  /-- Check the checksum, the maps and the objects of an archive. -/
  | verify (file : String)
  /-- Load an archive into an arena. -/
  | load (file : String) (mode : Option LoadMode)
  deriving DecidableEq, Repr

/-- The file that a command reads. -/
def Command.input : Command → String
  | dump graph .. => graph
  | info file => file
  | verify file => file
  | load file _ => file

/-- How a command reads its file. -/
def Command.access : Command → FileAccess
  | dump .. | info _ => .read
  | verify _ | load .. => .map

/-- What a user asks for. -/
inductive Request where
  | run (command : Command)
  /-- Lines to be printed: a help text, or the version. -/
  | print (lines : List String)
  deriving DecidableEq, Repr

/-! ### Known options -/

/-- The option for more messages, of which there are none on standard output. -/
def verboseOption : OptionSpec := ⟨"verbose", some 'v', .flag, "Show debug output"⟩

/-- The option that asks for help. -/
def helpOption : OptionSpec := ⟨"help", some 'h', .final, "Print help"⟩

/-- The option that asks for the version. -/
def versionOption : OptionSpec := ⟨"version", some 'V', .final, "Print version"⟩

/-- The graph file of a dump. -/
def graphOption : OptionSpec :=
  ⟨"graph", some 'g', .value ⟨"GRAPH", .path⟩ true, "Graph description (JSON)"⟩

/-- The file that a dump writes. -/
def outOption : OptionSpec :=
  ⟨"out", some 'o', .value ⟨"OUT", .path⟩ true, "Output archive file"⟩

/-- The option for wide references. -/
def wideOption : OptionSpec :=
  ⟨"wide", none, .flag, "Store 64-bit references instead of compressed ones"⟩

/-- The alignment of a dump's regions. -/
def alignmentOption : OptionSpec :=
  ⟨"alignment", none, .value ⟨"ALIGNMENT", .number⟩ false, "Region alignment in bytes"⟩

/-- The ways to load that can be asked for. -/
def modes : List LoadMode := [.mapped, .loaded, .auto]

/-- The way to load. -/
def modeOption : OptionSpec :=
  ⟨"mode", some 'm', .value ⟨"MODE", .word (modes.map LoadMode.name)⟩ false, "Loader to use"⟩

/-- The archive file that a command reads. -/
def fileOperand : OperandSpec := ⟨⟨"FILE", .path⟩, "Archive file"⟩

/-! ### Commands by name -/

/-- The commands. -/
inductive CommandName where
  | dump
  | info
  | verify
  | load
  deriving DecidableEq, Repr

namespace CommandName

/-- All commands, as they are listed. -/
def all : List CommandName := [dump, info, verify, load]

/-- What a command can be given, as it is listed. -/
def spec : CommandName → CommandSpec
  | dump =>
    ⟨"dump", "Dump an object graph into a heap archive",
      [graphOption, verboseOption, outOption, wideOption, alignmentOption, helpOption], none⟩
  | info =>
    ⟨"info", "Show the header of an archive", [verboseOption, helpOption], some fileOperand⟩
  | verify =>
    ⟨"verify", "Check the checksum and reference maps of an archive",
      [verboseOption, helpOption], some fileOperand⟩
  | load =>
    ⟨"load", "Trial-load an archive into an in-process heap",
      [modeOption, verboseOption, helpOption], some fileOperand⟩

/-- The command with a name. -/
def ofText? (text : String) : Option CommandName := all.find? fun c => c.spec.name == text

/-- The value given with an option, which has to be there. -/
def required (s : Scan) (option : OptionSpec) : Except UsageError String :=
  match s.value? option.long with
  | some text => .ok text
  | none => .error (.missing ("option '--" ++ option.long ++ "'"))

/-- The operand, which has to be there. -/
def file (s : Scan) : Except UsageError String :=
  match s.operands with
  | text :: _ => .ok text
  | [] => .error (.missing "a file")

/-- The command under the options and operands given to it. -/
def command (c : CommandName) (s : Scan) : Except UsageError Command := do
  match c with
  | dump =>
    let alignment := (s.value? alignmentOption.long).bind (readNat? 0x10000000000000000)
    return .dump (← required s graphOption) (← required s outOption) (s.has wideOption.long)
      alignment
  | info => return .info (← file s)
  | verify => return .verify (← file s)
  | load =>
    let mode := (s.value? modeOption.long).bind fun text =>
      modes.find? fun mode => mode.name == text
    return .load (← file s) mode

end CommandName

/-! ### The program -/

namespace Program

/-- The name under which the program is called. -/
def name : String := "raya-archive"

/-- The line that tells the version. -/
def versionLine : String := name ++ " 0.2.0"

/-- What can be given in front of a command's name. -/
def spec : CommandSpec :=
  ⟨name, "Raya heap archive tool", [verboseOption, helpOption, versionOption], none⟩

/-- What the command for help texts is for. -/
def helpAbout : String := "Print this message or the help of the given subcommand(s)"

/-- The help text of the program. -/
def help : List String :=
  let commands := (CommandName.all.map fun c => (c.spec.name, c.spec.about)) ++
    [("help", helpAbout)]
  helpLines spec.about (name ++ " [OPTIONS] <COMMAND>")
    [⟨"Commands", commands⟩, optionSection spec.options]

/-- The help text of the command for help texts. -/
def helpOfHelp : List String :=
  helpLines helpAbout (name ++ " help [COMMAND]...")
    [⟨"Arguments", [("[COMMAND]...", "Print help for the subcommand(s)")]⟩]

end Program

/-! ### Reading arguments -/

namespace Request

/-- The request made by the arguments of a command. -/
def ofCommand (c : CommandName) (args : List String) : Except UsageError Request := do
  let s ← Scan.arguments c.spec args
  if s.has helpOption.long then return .print (c.spec.help Program.name)
  return .run (← c.command s)

/-- The request for a help text, on a command or in general. -/
def ofHelp : List String → Except UsageError Request
  | [] => .ok (.print Program.help)
  | ["help"] => .ok (.print Program.helpOfHelp)
  | [text] =>
    match CommandName.ofText? text with
    | some c => .ok (.print (c.spec.help Program.name))
    | none => .error (.unknownCommand text)
  | _ :: text :: _ => .error (.unknownCommand text)

/-- The request that a list of arguments makes. Options of no particular command stand in front of
the command's name. -/
def ofArguments (args : List String) : Except UsageError Request := do
  let front := args.takeWhile Scan.looksLikeOption
  let s ← Scan.arguments Program.spec front
  if s.has helpOption.long then return .print Program.help
  if s.has versionOption.long then return .print [Program.versionLine]
  match args.drop front.length with
  | [] => throw .noCommand
  | text :: rest =>
    -- Two hyphens make an operand of what follows, even of a command's name.
    if front.contains "--" then throw (.unexpected text)
    else if text = "help" then ofHelp rest
    else
      match CommandName.ofText? text with
      | some c => ofCommand c rest
      | none => throw (.unknownCommand text)

end Request

end HeapImage.CommandLine
