import HeapImage.CommandLine.Report
import HeapImage.CommandLine.Request
import HeapImage.Graph.File
import HeapImage.Heap.Arena
import HeapImage.Load.Outcome

/-!
# Commands

Each command as a function of its arguments and of the file that it reads.

* `dumpFile`: the archive file of a graph file.
* `infoFile`, `verifyFile`, `loadFile`: listings about an archive file.
* `Command.plan`: what is left to do once a command has read its file.
* `Command.run`: a command on a tree of files.
-/

namespace HeapImage.CommandLine

/-- The contents of a file, or the failure to read it. -/
abbrev FileContents := Except FileError ByteArray

/-! ### Dumping -/

/-- The text of a file. -/
def textOf (contents : FileContents) : Except FileError String :=
  match contents with
  | .error e => .error e
  | .ok bytes =>
    match String.fromUTF8? bytes with
    | some text => .ok text
    | none => .error .invalidText

/-- The graph file at a path. -/
def readGraph (path : String) (contents : FileContents) : Except Failure GraphFile :=
  match textOf contents with
  | .error e => .error (.ofFile ("Failed to read " ++ path) e)
  | .ok text =>
    match GraphFile.parse? text with
    | some file => .ok file
    | none => .error ⟨"Invalid graph file " ++ path, []⟩

/-- The options of a dump. -/
def dumpSettings (wide : Bool) (alignment : Option Nat) : DumpOptions :=
  { DumpOptions.standard with
    encoding := if wide then .wide else DumpOptions.standard.encoding
    alignment := alignment.getD DumpOptions.standard.alignment }

/-- The archive of what a graph file describes. -/
def dumpFile (graph : String) (contents : FileContents) (options : DumpOptions) :
    Except Failure Archive := do
  let file ← readGraph graph contents
  let registry ← file.registry.mapError fun e => .ofError (.invalidType e)
  (Archive.dump registry file.graph file.selectionOrDefault options).mapError fun e =>
    (Failure.ofError e).under ("Failed to dump " ++ graph)

/-- The line that announces a written archive. -/
def writtenLine (out : String) (a : Archive) : String :=
  "Wrote " ++ out ++ ": " ++ toString a.header.objectCount.toNat ++ " objects, " ++
    toString a.header.imageLength.toNat ++ " byte image (" ++ a.encoding.describe ++
    " references)"

/-! ### Showing a header -/

/-- Two addresses with dots between them. -/
def rangeText (e : Extent) : String := hexNumeral e.bottom ++ ".." ++ hexNumeral e.top

/-- The line about a region. -/
def regionLine (a : Archive) (region : Region) : String :=
  let maps := a.maps region
  "  " ++ region.name ++ "".pushn ' ' (7 - region.name.length) ++ " @" ++
    rangeText (a.header.range region) ++ "  " ++ toString maps.references.count ++
    " references, " ++ toString maps.natives.count ++ " native pointers"

/-- The lines about an archive and the digest in its file. -/
def infoLines (file : String) (a : Archive) (stored : ByteArray) (valid : Bool) : List String :=
  let h := a.header
  ["Archive:      " ++ file,
    "Version:      " ++ toString h.version.toNat,
    "Encoding:     " ++ a.encoding.describe,
    "Alignment:    " ++ hexNumeral h.regionAlignment.toNat,
    "Requested:    " ++ hexNumeral h.requestedBase.toNat,
    "Objects:      " ++ toString h.objectCount.toNat,
    "Image:        " ++ toString h.imageLength.toNat ++ " bytes"] ++
  Region.all.map (regionLine a) ++
  ["Root:         @" ++ hexNumeral h.rootOffset.toNat,
    "Native image: " ++ rangeText ⟨h.nativeBase.toNat, (h.nativeBase + h.nativeSize).toNat⟩,
    "Checksum:     " ++ hexOfBytes stored ++ (if valid then " (ok)" else " (MISMATCH)")]

/-- Shows the header of an archive, whether its checksum is right or not. -/
def infoFile (file : String) (contents : FileContents) : Except Failure (List String) := do
  let bytes ← contents.mapError (.ofFile ("Failed to read " ++ file))
  let asFailure (e : FormatError) : Failure :=
    (Failure.ofError (.format e)).under ("Not a heap archive: " ++ file)
  let a ← (Archive.ofBytes bytes false).mapError asFailure
  let stored ← (Archive.storedDigest bytes a.header).mapError asFailure
  return infoLines file a stored (Archive.checkDigest bytes a.header stored).isOk

/-! ### Verifying -/

/-- Checks the checksum, the maps and the objects of an archive. -/
def verifyFile (file : String) (contents : FileContents) : Listing Unit := do
  let a ← MonadExcept.ofExcept <| (Archive.openFile contents true).mapError fun e =>
    (Failure.ofError (.format e)).under ("Failed to open " ++ file)
  Listing.say "Checksum:       ok"
  MonadExcept.ofExcept <| a.checkMaps.mapError fun e =>
    ⟨"Reference maps do not match the image: " ++ e.message, []⟩
  Listing.say "Reference maps: ok"
  let (result, heap) := copyImage a Arena.standard a.encoding 0
  let objects ← Listing.attempt result
  let report ← Listing.attempt (verifyHeap heap objects.types objects.encoding objects.extents)
  Listing.say ("Object graph:   ok (" ++ toString report.objects ++ " objects, " ++
    toString report.references ++ " references, " ++ toString report.nulls ++ " null)")

/-! ### Loading -/

/-- The end of the line about adjusted references. -/
def countsText (c : LoadCounts) : String :=
  toString c.references ++ " references (" ++ toString c.nulls ++ " null), " ++
    toString c.natives ++ " native pointers"

/-- The line about a block of copies. -/
def blockLine (b : Block) : String :=
  "Block:      " ++ rangeText b.dest ++ " (" ++ b.region.name ++ ", stream @" ++
    hexNumeral b.streamOffset ++ ")"

/-- The lines about a load. -/
def outcomeLines : LoadOutcome → List String
  | .mapped m =>
    ["Mode:       mapped (quick path: " ++ toString m.byConstant ++ ")",
      "Root:       " ++ hexNumeral m.root] ++
    m.regions.map (fun e => "Region:     " ++ rangeText e) ++
    ["Patched:    " ++ countsText m.counts]
  | .loaded c =>
    ["Mode:       loaded", "Root:       " ++ hexNumeral c.root,
      "Objects:    " ++ toString c.objects] ++
    c.blocks.toList.map blockLine ++
    ["Relocated:  " ++ countsText c.counts]
  | .disabled reason => ["Archive disabled: " ++ reason.message]

/-- Loads an archive into an arena. The mode given wins over that of the environment. -/
def loadFile (contents : FileContents) (mode : Option LoadMode) (env : String → Option String) :
    Except Failure (List String) := do
  let options ← (LoadOptions.ofEnvironment env).mapError Failure.ofError
  let options := { options with mode := mode.getD options.mode }
  let (result, _) := loadArchive (.file contents) Arena.standard options
  let outcome ← result.mapError Failure.ofError
  return outcomeLines outcome

/-! ### All commands -/

/-- What is left to do once a command has read its file. -/
inductive Plan where
  /-- Nothing. -/
  | done (report : Report)
  /-- A file is to be written, which a line then announces. -/
  | write (path : String) (bytes : ByteArray) (line : String)

/-- The plan to print lines, or to fail. -/
def Plan.ofLines : Except Failure (List String) → Plan
  | .ok lines => .done ⟨lines, none⟩
  | .error f => .done ⟨[], some f⟩

/-- The report of a plan, given how writing its file went. -/
def Plan.conclude (written : Except FileError Unit) : Plan → Report
  | .done report => report
  | .write path _ line =>
    match written with
    | .ok () => ⟨[line], none⟩
    | .error e =>
      let failure := Failure.ofError (.format (.file e))
      ⟨[], some (failure.under ("Failed to write " ++ path))⟩

/-- What is left to do once a command has read its file, in an environment of variables. -/
def Command.plan (c : Command) (env : String → Option String) (contents : FileContents) : Plan :=
  match c with
  | .dump graph out wide alignment =>
    match dumpFile graph contents (dumpSettings wide alignment) with
    | .ok a => .write out a.toBytes (writtenLine out a)
    | .error f => .done ⟨[], some f⟩
  | .info file => .ofLines (infoFile file contents)
  | .verify file => .done (verifyFile file contents).report
  | .load _ mode => .ofLines (loadFile contents mode env)

/-- Carries out a command on a tree of files, in an environment of variables. -/
def Command.run (c : Command) (env : String → Option String) (tree : FileTree) :
    Report × FileTree :=
  let plan := c.plan env (tree.read c.access c.input)
  match plan with
  | .done report => (report, tree)
  | .write path bytes _ =>
    match tree.write path bytes with
    | .ok tree => (plan.conclude (.ok ()), tree)
    | .error e => (plan.conclude (.error e), tree)

end HeapImage.CommandLine
