import Spellbook.Path

/-! What a program can see of a file system: where a path leads, and what stands there. -/
namespace Spellbook

inductive ReadError where
  | notFound
  | notDirectory
  | isDirectory
  | nameTooLong
  /-- The path has a character that no file name has. -/
  | badName
  | notText
  | other (text : String)
deriving DecidableEq, Repr

def ReadError.message : ReadError → String
  | .notFound => "No such file or directory (os error 2)"
  | .notDirectory => "Not a directory (os error 20)"
  | .isDirectory => "Is a directory (os error 21)"
  | .nameTooLong => "File name too long (os error 36)"
  | .badName => "file name contained an unexpected NUL byte"
  | .notText => "stream did not contain valid UTF-8"
  | .other text => text

structure Files where
  /-- The one path of the thing a path leads to, or the path itself if it leads nowhere. -/
  canonical : Path → Path
  read : Path → Except ReadError String

def Files.none : Files := ⟨id, fun _ => .error .notFound⟩

end Spellbook
