import HeapImage.Error
import HeapImage.Text.Blank

/-!
# Load options

* `LoadMode`, `LoadMode.parse`: how an archive is brought into memory.
* `LoadOptions`: everything a load can be told.
* `LoadOptions.ofEnvironment`: the standard options changed by environment variables.
-/

namespace HeapImage

/-- How an archive is brought into memory. -/
inductive LoadMode where
  /-- The image is used where it is mapped. -/
  | mapped
  /-- The objects are copied. -/
  | loaded
  /-- The image is mapped, or else its objects are copied. -/
  | auto
  deriving DecidableEq, Repr

namespace LoadMode

/-- The mode's name. -/
def name : LoadMode → String
  | mapped => "mapped"
  | loaded => "loaded"
  | auto => "auto"

/-- The mode with a name, regardless of the case of ASCII letters. -/
def parse (text : String) : Except ArchiveError LoadMode :=
  let folded := foldAscii text
  if folded = "mapped" then .ok mapped
  else if folded = "loaded" then .ok loaded
  else if folded = "auto" then .ok auto
  else .error (.options (.unknownMode folded))

end LoadMode

/-- How an archive is loaded. -/
structure LoadOptions where
  mode : LoadMode
  /-- The encoding of references in the running heap; that of the archive if nothing is said. -/
  runtime : Option ReferenceEncoding
  /-- Where the native image is; where the dump expected it if nothing is said. -/
  nativeBase : Option UInt64
  /-- Every reference is checked after the load. -/
  verifyAfterLoad : Bool
  /-- The checksum of the file is checked before the load. -/
  verifyChecksum : Bool
  deriving DecidableEq, Repr

namespace LoadOptions

/-- Mapping if possible, with the checksum checked and nothing else. -/
def standard : LoadOptions where
  mode := .auto
  runtime := none
  nativeBase := none
  verifyAfterLoad := false
  verifyChecksum := true

instance : Inhabited LoadOptions := ⟨standard⟩

/-! ### Environment -/

/-- The variable that chooses the mode. -/
def modeVariable : String := "RAYA_ARCHIVE_MODE"

/-- The variable that asks for a check of every reference. -/
def verifyVariable : String := "RAYA_ARCHIVE_VERIFY"

/-- The variable that asks for a check of the checksum. -/
def checksumVariable : String := "RAYA_ARCHIVE_CHECKSUM"

/-- The truth value that a text stands for, regardless of blanks around it and of the case of ASCII
letters. -/
def parseFlag (setting text : String) : Except ArchiveError Bool :=
  let folded := foldAscii (trimBlanks text)
  if ["1", "true", "yes", "on"].contains folded then .ok true
  else if ["0", "false", "no", "off"].contains folded then .ok false
  else .error (.options (.notBoolean setting text))

/-- The standard options changed by the variables that an environment sets. -/
def ofEnvironment (env : String → Option String) : Except ArchiveError LoadOptions := do
  let mode ← match env modeVariable with
    | some text => LoadMode.parse text
    | none => pure standard.mode
  let verify ← match env verifyVariable with
    | some text => parseFlag verifyVariable text
    | none => pure standard.verifyAfterLoad
  let checksum ← match env checksumVariable with
    | some text => parseFlag checksumVariable text
    | none => pure standard.verifyChecksum
  return { standard with mode := mode, verifyAfterLoad := verify, verifyChecksum := checksum }

end LoadOptions

end HeapImage
