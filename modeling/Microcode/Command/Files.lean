/-!
# Microcode.Command.Files

What a command may do with files.

`FileAccess` is the interface that the commands are written against.  Texts are stored as UTF-8.
-/

namespace Microcode

/-- Why a file cannot be read or written. -/
inductive FileFault where
  | notFound
  | notDirectory
  | isDirectory
  | nameTooLong
  /-- The file is not UTF-8 text. -/
  | notText
  | other (message : String)
deriving DecidableEq, Repr

def FileFault.message : FileFault → String
  | .notFound => "No such file or directory (os error 2)"
  | .notDirectory => "Not a directory (os error 20)"
  | .isDirectory => "Is a directory (os error 21)"
  | .nameTooLong => "File name too long (os error 36)"
  | .notText => "stream did not contain valid UTF-8"
  | .other message => message

/-- Reading, writing and removing files. -/
class FileAccess (m : Type → Type) where
  readBytes : String → m (Except FileFault ByteArray)
  writeBytes : String → ByteArray → m (Except FileFault Unit)
  /-- Removes a file, if that is possible. -/
  removeFile : String → m Unit

/-- The text that bytes stand for. -/
def textOfBytes (bytes : ByteArray) : Except FileFault String :=
  match String.fromUTF8? bytes with
  | some text => .ok text
  | none => .error .notText

def readText {m : Type → Type} [Monad m] [FileAccess m] (path : String) :
    m (Except FileFault String) := do
  return (← FileAccess.readBytes path) >>= textOfBytes

def writeText {m : Type → Type} [FileAccess m] (path text : String) : m (Except FileFault Unit) :=
  FileAccess.writeBytes path text.toUTF8

end Microcode
