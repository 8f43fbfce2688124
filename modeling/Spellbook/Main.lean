import Spellbook.Command
import Spellbook.Files.Snapshot

/-! The program: it reads what the command needs, and prints what the command leaves behind. -/
namespace Spellbook

/-- The reason for an error of the system, which may be numbered in either direction. -/
def ReadError.ofCode (code : UInt32) (details : String) : ReadError :=
  match if code < 0x80000000 then code else 0 - code with
  | 2 => .notFound
  | 20 => .notDirectory
  | 21 => .isDirectory
  | 36 => .nameTooLong
  | code => .other (details ++ " (os error " ++ toString code.toNat ++ ")")

def ReadError.ofError : IO.Error → ReadError
  | .noFileOrDirectory _ code details => .ofCode code details
  | .invalidArgument _ code details => .ofCode code details
  | .permissionDenied _ code details => .ofCode code details
  | .inappropriateType _ code details => .ofCode code details
  | .resourceExhausted _ code details => .ofCode code details
  | .otherError code details => .ofCode code details
  | e => .other (toString e)

def textOf (bytes : ByteArray) : Except ReadError String :=
  match String.fromUTF8? bytes with
  | some text => .ok text
  | none => .error .notText

def readText (p : Path) : IO (Except ReadError String) := do
  try return textOf (← IO.FS.readBinFile p.text)
  catch e => return .error (.ofError e)

def canonicalPath (p : Path) : IO Path := do
  try return ⟨(← IO.FS.realPath p.text).toString⟩
  catch _ => return p

/-- Follows the imports of texts. -/
partial def follow (base : Path) (names : List String) (s : Snapshot) : IO Snapshot := do
  match names with
  | [] => return s
  | name :: rest =>
    let p := base.join (Import.ofText name).file
    if s.knows p then follow base rest s
    else
      let found ← readText p
      let s := s.add p (← canonicalPath p) found
      match found with
      | .ok text => follow base (importsIn text ++ rest) s
      | .error _ => follow base rest s

partial def readAll (input : IO.FS.Stream) (bytes : ByteArray) : IO ByteArray := do
  let more ← input.read 65536
  if more.isEmpty then return bytes else readAll input (bytes ++ more)

def environment : IO (List (String × String)) := do
  let mut found := []
  for name in ["CARRION_PATH", "CARRION_MAX_DEPTH", "CARRION_DEBUG"] do
    match ← IO.getEnv name with
    | some value => found := (name, value) :: found
    | none => pure ()
  return found

def snapshot (base : Path) (command : Command) : IO (Except ReadError String × Snapshot) := do
  match command with
  | .run (some name) _ =>
    let p : Path := ⟨name⟩
    let found ← readText p
    let s := Snapshot.empty.add p (← canonicalPath p) found
    return (.ok "", ← follow base ((found.toOption.map importsIn).getD []) s)
  | .run none _ =>
    let found := textOf (← readAll (← IO.getStdin) .empty)
    return (found, ← follow base ((found.toOption.map importsIn).getD []) .empty)
  | _ => return (.ok "", .empty)

end Spellbook

open Spellbook in
def main (args : List String) : IO UInt32 := do
  let found ← environment
  let settings := Settings.ofVariables fun name => found.lookup name
  let command := Command.ofArgs args
  let directory : Path := ⟨(← IO.currentDir).toString⟩
  let base := (Command.worldOf settings .none directory).base
  let (input, seen) ← snapshot base command
  let result := command.perform (Command.worldOf settings seen.files directory) input
  (← IO.getStdout).putStr result.stdout
  (← IO.getStderr).putStr result.stderr
  return result.code.toUInt32
