/-!
# Files

Why the text of a file cannot be read or written, in the words of the operating system.
-/

namespace Lamina

/-- Why a file cannot be used. -/
inductive FileError
  | missing
  | isDirectory
  | notDirectory
  /-- The bytes of the file are not UTF-8. -/
  | notText
deriving DecidableEq, Inhabited, Repr

/-- What the operating system says. -/
def FileError.message : FileError → String
  | missing => "No such file or directory (os error 2)"
  | isDirectory => "Is a directory (os error 21)"
  | notDirectory => "Not a directory (os error 20)"
  | notText => "stream did not contain valid UTF-8"

/-- The text that the bytes of a file encode. -/
def decodeText (bytes : ByteArray) : Except FileError String :=
  match String.fromUTF8? bytes with
  | some text => .ok text
  | none => .error .notText

end Lamina
