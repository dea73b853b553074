import PackedRecord.Command.Files
import PackedRecord.Command.Line
import PackedRecord.Decoder
import PackedRecord.Encoder
import PackedRecord.Format.Parser
import PackedRecord.Hex
import PackedRecord.Json.Parser
import PackedRecord.Json.Values

/-!
# Running a command

What a command does, step by step, on any system that can read standard input,
handle files and print (`Command.System`). Printing is a step like the others
and the last one that a command takes. The exit status tells faults of the data
from all others.

A packed record goes to its file by way of a temporary one beside it, so that
the target is replaced at once or not at all.

`Command.run` runs a command on a pure model of the system, and
`Command.execute` is the whole program: from the arguments to the exit status.
-/

namespace PackedRecord.Command

/-! ## Failures -/

/-- Why a command fails: the text and the exit status. -/
structure Failure where
  message : String
  status : Nat
deriving DecidableEq

namespace Failure

/-- A failure that is not the data's fault. -/
def plain (message : String) : Failure := ⟨message, 1⟩

def ofError (e : Error) : Failure :=
  ⟨e.message, if e.category = .data then 2 else 1⟩

end Failure

/-! ## Systems -/

/-- What a command needs of the system it runs on. Faults are texts. -/
structure System (m : Type → Type) where
  standardInput : m (Except String (List UInt8))
  readFile : String → m (Except String (List UInt8))
  writeFile : String → List UInt8 → m (Except String Unit)
  /-- Removes a file; it does not matter if that fails. -/
  discardFile : String → m Unit
  renameFile : (source target : String) → m (Except String Unit)
  /-- Writes to standard output. -/
  print : List UInt8 → m (Except String Unit)

/-! ## Steps -/

variable {m : Type → Type} [Monad m]

/-- A step that may end the command. -/
abbrev Step (m : Type → Type) (α : Type) := ExceptT Failure m α

/-- A result that ends the command if it is an error. -/
def settle {ε α : Type} (describe : ε → Failure) : Except ε α → Step m α
  | .ok a => pure a
  | .error e => throw (describe e)

def parseFormat (text : String) : Step m Format :=
  settle Failure.ofError (Format.parse text)

/-- The bytes of a file, or of standard input for a single dash. -/
def readInput (system : System m) (path : String) : Step m (List UInt8) := do
  if path = "-" then
    let result ← (system.standardInput : m _)
    settle (fun fault => .plain s!"Lesefehler (stdin): {fault}") result
  else
    let result ← (system.readFile path : m _)
    settle (fun fault => .plain s!"Lesefehler '{path}': {fault}") result

/-- How far strict reading of standard input came. -/
def utf8Message (fault : Utf8.Fault) : String :=
  let length := fault.length
  let offset := fault.offset
  if fault.atEnd then s!"incomplete utf-8 byte sequence from index {offset}"
  else s!"invalid utf-8 sequence of {length} bytes from index {offset}"

/-- The text of a values argument. -/
def valuesText (system : System m) (argument : String) : Step m String := do
  if argument = "-" then
    let content ← readInput system argument
    settle (fun fault => .plain ("UTF-8-Fehler: " ++ utf8Message fault)) (Utf8.decode content)
  else return argument

def parseValues (system : System m) (format : Format) (argument : String) :
    Step m (List Value) := do
  let text ← valuesText system argument
  match Json.parse? text with
  | none => throw (.plain "JSON-Parse-Fehler: not a JSON document")
  | some j =>
    settle (fun mismatch => .plain ("JSON-Wert-Fehler: " ++ mismatch.message))
      (format.valuesOfJson j)

/-- Digits with blanks anywhere between. -/
def decodeHex (digits : String) : Except Hex.Fault (List UInt8) :=
  Hex.decode (Utf8.encode (digits.toList.filter fun c => !Format.isBlank c))

def readSource (system : System m) : Source → Step m (List UInt8)
  | .hex digits => settle (fun fault => .plain ("Hex-Fehler: " ++ fault.message)) (decodeHex digits)
  | .input path => readInput system path

def printOut (system : System m) (content : List UInt8) : Step m Unit := do
  let result ← (system.print content : m _)
  settle (fun fault => .plain s!"Schreibfehler: {fault}") result

/-- Writes a file by way of a temporary one. -/
def writeOutput (system : System m) (path : String) (content : List UInt8) : Step m Unit := do
  let temporary := path ++ ".tmp"
  match ← (system.writeFile temporary content : m _) with
  | .error fault => do
    (system.discardFile temporary : m _)
    throw (.plain s!"Schreibfehler '{temporary}': {fault}")
  | .ok () =>
    let result ← (system.renameFile temporary path : m _)
    settle (fun fault => .plain s!"Rename-Fehler: {fault}") result

/-! ## Commands -/

/-- A line of text as bytes. -/
def line (text : String) : List UInt8 := Utf8.bytes text ++ [10]

/-- What is printed for an unpacked record. -/
def unpackedJson (format : Format) (record : Unpacked) : Json :=
  Json.ofFields [("values", format.jsonOfValues record.values),
    ("next_offset", .ofNat record.nextOffset)]

/-- What is printed for a prediction. -/
def predictionJson (p : Size.Prediction) : Json :=
  Json.ofFields [("fixed_bytes", .ofNat p.fixedBytes),
    ("variable_fields", .ofNat p.variableFields),
    ("exact", p.exact?.elim .null .ofNat)]

/-- What becomes of a packed record: it is printed, or it goes to a file. -/
def deliver (system : System m) (content : List UInt8) : Option String → Step m Unit
  | none => printOut system (line (Hex.encode content))
  | some path =>
    if path = "-" then printOut system content else writeOutput system path content

/-- Runs a command. -/
def perform (system : System m) (options : Options) : Invocation → Step m Unit
  | .pack formatText argument output? => do
    let format ← parseFormat formatText
    let values ← parseValues system format argument
    let content ← settle Failure.ofError (format.pack values options)
    deliver system content output?
  | .unpack formatText source offset pretty => do
    let format ← parseFormat formatText
    let data ← readSource system source
    let record ← settle Failure.ofError (format.unpack data offset options)
    let j := unpackedJson format record
    printOut system (line (if pretty then j.pretty else j.compact))
  | .size formatText argument? => do
    let format ← parseFormat formatText
    match argument? with
    | some argument =>
      let values ← parseValues system format argument
      let size ← settle Failure.ofError (Size.measure format values options)
      printOut system (line (Json.ofFields [("size", .ofNat size)]).compact)
    | none => printOut system (line (predictionJson (Size.predict format)).compact)

/-! ## The program -/

/-- How a program ends: the exit status and what it says about a failure. -/
structure Exit where
  status : Nat
  errors : String
deriving DecidableEq

/-- How to ask for what there is. -/
def usage : String :=
  "usage: pack -f FORMAT VALUES [-o FILE]\n" ++
  "       unpack -f FORMAT (--hex DIGITS | -i FILE) [--offset N] [--pretty]\n" ++
  "       size -f FORMAT [VALUES]\n" ++
  "flags: --ignore-extra --lenient-strings --lossy-utf8 -v\n"

/-- The end of a command line that asks for nothing there is. -/
def usageError : Exit := ⟨2, usage⟩

def Exit.ofResult : Except Failure Unit → Exit
  | .ok _ => ⟨0, ""⟩
  | .error failure => ⟨failure.status, "Fehler: " ++ failure.message ++ "\n"⟩

/-- From the arguments to the exit status. -/
def execute (system : System m) (arguments : List String) : m Exit :=
  match parseLine arguments with
  | none => return usageError
  | some (options, invocation) =>
    return .ofResult (← (perform system options invocation).run)

/-! ## The model -/

/-- What a run changes: the files, and what stands on standard output. -/
structure World where
  files : Files
  printed : List UInt8
deriving DecidableEq

/-- A system whose standard input is `input`, and whose standard output can always be
written. -/
def modelSystem (input : List UInt8) : System (StateM World) where
  standardInput := return .ok input
  readFile path := return ((← get).files.read path).mapError FileFault.message
  writeFile path content := do
    match (← get).files.write path content with
    | .ok files => modify fun world => { world with files }; return .ok ()
    | .error fault => return .error fault.message
  discardFile path := modify fun world => { world with files := world.files.discard path }
  renameFile source target := do
    match (← get).files.rename source target with
    | .ok files => modify fun world => { world with files }; return .ok ()
    | .error fault => return .error fault.message
  print content := do
    modify fun world => { world with printed := world.printed ++ content }
    return .ok ()

/-- What a run leaves for its caller. -/
structure Outcome where
  status : Nat
  output : List UInt8
  errors : String
deriving DecidableEq

/-- A run on the model: its outcome and the files afterwards. -/
def run (arguments : List String) (input : List UInt8) (fs : Files) : Outcome × Files :=
  let (exit, world) := (execute (modelSystem input) arguments).run ⟨fs, []⟩
  (⟨exit.status, world.printed, exit.errors⟩, world.files)

end PackedRecord.Command
