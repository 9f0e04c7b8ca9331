/-
  What a run needs from the machine it runs on: reading and writing files, a sink for diagnostics,
  and the two output streams.
-/

namespace ZAssembler.CommandLine

inductive FileError
  | missing
  | notDirectory
  | isDirectory
  | notText
  | noSpace
  | nameTooLong
  | nulInName
  /-- Any other cause, as the machine words it. -/
  | other (text : String)
  deriving DecidableEq, Repr

def FileError.message : FileError → String
  | missing => "No such file or directory (os error 2)"
  | notDirectory => "Not a directory (os error 20)"
  | isDirectory => "Is a directory (os error 21)"
  | notText => "stream did not contain valid UTF-8"
  | noSpace => "No space left on device (os error 28)"
  | nameTooLong => "File name too long (os error 36)"
  | nulInName => "file name contained an unexpected NUL byte"
  | other text => text

/-- A file could not be created, or not be written once it was there. -/
inductive WriteError
  | creating (error : FileError)
  | writing (error : FileError)
  deriving DecidableEq, Repr

structure Host (m : Type → Type) where
  readText : (path : String) → m (Except FileError String)
  /-- Creates a file or empties it, then writes it. -/
  writeFile : (path : String) → (bytes : List UInt8) → m (Except WriteError Unit)
  /-- Opens a file, emptied or to append to, and gives what writes to it. -/
  openSink : (path : String) → (append : Bool) → m (Except FileError (String → m Unit))
  writeOut : (text : String) → m (Except FileError Unit)
  writeError : (text : String) → m Unit

end ZAssembler.CommandLine
