import Std.Time.DateTime.Timestamp
import ZAssembler.Calendar
import ZAssembler.CommandLine.Run

/-
  The program on a machine: files, streams, environment and clock.
-/

namespace ZAssembler.Main

open CommandLine

/-- The code and the words of the machine's own error. -/
def errorText (code : UInt32) (details : String) : String := s!"{details} (os error {code.toNat})"

def fileError : IO.Error → FileError
  | .noFileOrDirectory _ _ _ => .missing
  | .alreadyExists _ code details | .invalidArgument _ code details
  | .permissionDenied _ code details | .resourceExhausted _ code details
  | .inappropriateType _ code details | .noSuchThing _ code details =>
    .other (errorText code details)
  | .otherError code details | .resourceBusy code details | .resourceVanished code details
  | .unsupportedOperation code details | .hardwareFault code details
  | .unsatisfiedConstraints code details | .illegalOperation code details
  | .protocolError code details | .timeExpired code details => .other (errorText code details)
  | .interrupted _ code details => .other (errorText code details)
  | .unexpectedEof => .other "unexpected end of file"
  | .userError text => .other text

/-- The action's result, or the file error it ended with. -/
def caught {α : Type} (action : IO α) : BaseIO (Except FileError α) := do
  match ← action.toBaseIO with
  | .ok a => return .ok a
  | .error e => return .error (fileError e)

def readText (path : String) : BaseIO (Except FileError String) := do
  match ← caught (IO.FS.readBinFile path) with
  | .error e => return .error e
  | .ok bytes =>
    match String.fromUTF8? bytes with
    | some text => return .ok text
    | none => return .error .notText

def writeFile (path : String) (bytes : List UInt8) : BaseIO (Except WriteError Unit) := do
  match ← caught (IO.FS.Handle.mk path .write) with
  | .error e => return .error (.creating e)
  | .ok handle =>
    match ← caught (do handle.write ⟨bytes.toArray⟩; handle.flush) with
    | .error e => return .error (.writing e)
    | .ok () => return .ok ()

/-- Writes to the sink; an error there has nowhere to be reported. -/
def writeSink (handle : IO.FS.Handle) (text : String) : BaseIO Unit := do
  let _ ← caught (do handle.putStr text; handle.flush)

def openSink (path : String) (append : Bool) :
    BaseIO (Except FileError (String → BaseIO Unit)) := do
  match ← caught (IO.FS.Handle.mk path (if append then .append else .write)) with
  | .error e => return .error e
  | .ok handle => return .ok (writeSink handle)

def host : Host BaseIO :=
  { readText, writeFile, openSink
    writeOut := fun text => caught (do
      let out ← IO.getStdout
      out.putStr text
      out.flush)
    writeError := fun text => do
      let _ ← caught (do
        let out ← IO.getStderr
        out.putStr text
        out.flush) }

def environment : BaseIO Environment := do
  let settings ← settingNames.filterMapM fun name => do
    return (← IO.getEnv name).map fun value => (name, value)
  return fun name => List.lookup name settings

/-- The serial of the present day. -/
def today : IO String := do
  let now ← Std.Time.Timestamp.now
  return Calendar.serialOfDay (Int64.ofInt (now.toSecondsSinceUnixEpoch.val / 86400))

end ZAssembler.Main

open ZAssembler in
def main (args : List String) : IO UInt32 := do
  let env ← Main.environment
  let today ← Main.today
  let code : BaseIO UInt32 := CommandLine.run Main.host env today args
  code
