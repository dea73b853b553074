import PackedRecord.Command.Run

/-!
# The program

The command line on a real system.
-/

namespace PackedRecord.Command

/-- The text of a fault, with the system's number where there is one. -/
def faultText : IO.Error → String
  | .noFileOrDirectory _ code details => s!"{details} (os error {code})"
  | .inappropriateType _ code details => s!"{details} (os error {code})"
  | .permissionDenied _ code details => s!"{details} (os error {code})"
  | .resourceBusy code details => s!"{details} (os error {code})"
  | .resourceExhausted _ code details => s!"{details} (os error {code})"
  | e => toString e

/-- An action with its fault caught. -/
def caught {α : Type} (action : IO α) : IO (Except String α) := do
  try return .ok (← action) catch e => return .error (faultText e)

/-- Everything on standard input. -/
def readStandardInput : IO (List UInt8) := do
  let stream ← IO.getStdin
  if ← stream.isTty then
    IO.eprintln "Lese von stdin (Ctrl+D zum Beenden)..."
  return (← stream.readBinToEnd).toList

def hostSystem : System IO where
  standardInput := caught readStandardInput
  readFile path := caught do return (← IO.FS.readBinFile path).toList
  writeFile path content := caught (IO.FS.writeBinFile path ⟨content.toArray⟩)
  discardFile path := do
    let _ ← caught (IO.FS.removeFile path)
  renameFile source target := caught (IO.FS.rename source target)
  print content := caught do
    let stdout ← IO.getStdout
    stdout.write ⟨content.toArray⟩
    stdout.flush

end PackedRecord.Command

open PackedRecord.Command in
def main (arguments : List String) : IO UInt32 := do
  let exit ← execute hostSystem arguments
  IO.eprint exit.errors
  return .ofNat exit.status
