import ZAssembler.CommandLine.Host
import ZAssembler.Text.Decode

/-
  A host that holds its files in memory. A file is known by its place: the names that lead to it
  from the folder of the run. A place above that folder begins with "..", an absolute one with
  "/". The folders that exist are those on the way to a file, those above the run's folder, and a
  few that every machine has.
-/

namespace ZAssembler.CommandLine

abbrev Place := List String

namespace Place

/-- The folder above a folder. -/
def parent (here : Place) : Place :=
  if here.all (· == "..") then here ++ [".."]
  else if here == ["/"] then here
  else here.dropLast

/-- A place is in the folder of the run, or in a folder of it. -/
def isInside (place : Place) : Bool := place.head? != some ".." && place.head? != some "/"

/-- The folders outside that are known to exist. -/
def isKnownFolder (place : Place) : Bool :=
  place.all (· == "..") || [["/"], ["/", "dev"], ["/", "tmp"]].contains place

end Place

/-- What has a file's name but keeps nothing; all of them read as empty. -/
inductive Device
  /-- Takes everything. -/
  | null
  /-- Takes nothing. -/
  | full
  | stdin
  | stdout
  | stderr
  deriving DecidableEq, Repr

def Device.at? : Place → Option Device
  | ["/", "dev", name] =>
    match name with
    | "null" => some .null
    | "full" => some .full
    | "stdin" => some .stdin
    | "stdout" => some .stdout
    | "stderr" => some .stderr
    | _ => none
  | _ => none

structure Folder where
  files : List (Place × List UInt8) := []
  deriving DecidableEq, Repr

namespace Folder

def find? (f : Folder) (place : Place) : Option (List UInt8) :=
  if (Device.at? place).isSome then some [] else f.files.lookup place

def putIn (place : Place) (bytes : List UInt8) :
    List (Place × List UInt8) → List (Place × List UInt8)
  | [] => [(place, bytes)]
  | (old, content) :: rest =>
    if old = place then (place, bytes) :: rest else (old, content) :: putIn place bytes rest

/-- Puts a file in the place of the one that is there, or at the end. -/
def put (f : Folder) (place : Place) (bytes : List UInt8) : Folder :=
  { files := putIn place bytes f.files }

def isFolder (f : Folder) (place : Place) : Bool :=
  place.isKnownFolder || f.files.any fun (file, _) => place.isPrefixOf file && place != file

/-! ## Paths -/

/-- A name may have 255 bytes. -/
def isLongName (name : String) : Bool := 255 < name.utf8ByteSize

/-- A path may have 4095 bytes. -/
def isLongPath (path : String) : Bool := 4095 < path.utf8ByteSize

/-- Goes down a path from a folder that exists; every part has to name a folder. -/
def enter (f : Folder) : Place → List String → Except FileError Place
  | here, [] => .ok here
  | here, part :: rest =>
    if part.isEmpty || part == "." then f.enter here rest
    else if part == ".." then f.enter here.parent rest
    else if isLongName part then .error .nameTooLong
    else if f.isFolder (here ++ [part]) then f.enter (here ++ [part]) rest
    else if (f.find? (here ++ [part])).isSome then .error .notDirectory
    else .error .missing

/-- The parts of a path before its last name, that name, and whether a slash follows it; none if
    the path ends in no name. -/
def lastName? (path : String) : Option (List String × String × Bool) :=
  let parts := (path.splitOn "/").reverse
  match parts.dropWhile String.isEmpty with
  | [] => none
  | name :: before =>
    if name == "." || name == ".." then none
    else some (before.reverse, name, parts.head? != some name)

/-- The folder that a path leads to, the name there, and whether a slash follows it. -/
def locate (f : Folder) (path : String) : Except FileError (Place × String × Bool) := do
  if path.any (· == '\x00') then throw .nulInName
  if path.isEmpty then throw .missing
  if isLongPath path then throw .nameTooLong
  let start := if path.startsWith "/" then ["/"] else []
  match lastName? path with
  | none => do
    let _ ← f.enter start (path.splitOn "/")
    throw .isDirectory
  | some (before, name, slash) =>
    let here ← f.enter start before
    return (here, name, slash)

def read (f : Folder) (path : String) : Except FileError (List UInt8) := do
  let (here, name, slash) ← f.locate path
  let place := here ++ [name]
  if isLongName name then throw .nameTooLong
  if f.isFolder place then throw .isDirectory
  match f.find? place with
  | none => throw .missing
  | some bytes => if slash then throw .notDirectory else return bytes

/-- The place of a file that is to be written. -/
def target (f : Folder) (path : String) : Except FileError Place := do
  let (here, name, slash) ← f.locate path
  let place := here ++ [name]
  if slash then throw .isDirectory
  if isLongName name then throw .nameTooLong
  if f.isFolder place then throw .isDirectory
  return place

end Folder

/-- What a run in a folder leaves: the files, what it wrote to the streams, and where the sink
    writes next. -/
structure Session where
  folder : Folder
  out : String := ""
  error : String := ""
  sinkOffset : Nat := 0
  deriving Repr

/-- Writes `data` over a file's bytes from `offset` on; a gap is filled with zeros. -/
def overwrite (bytes : List UInt8) (offset : Nat) (data : List UInt8) : List UInt8 :=
  bytes.take offset ++ List.replicate (offset - bytes.length) 0 ++ data ++
    bytes.drop (offset + data.length)

namespace Session

def readText (path : String) : StateM Session (Except FileError String) := do
  match (← get).folder.read path with
  | .error e => return .error e
  | .ok bytes =>
    match String.fromUTF8? ⟨bytes.toArray⟩ with
    | some text => return .ok text
    | none => return .error .notText

/-- What is written to a device; a stream shows it as text. -/
def writeDevice (device : Device) (bytes : List UInt8) :
    StateM Session (Except FileError Unit) := do
  let text := Text.ofBytes bytes
  match device with
  | .full => return if bytes.isEmpty then .ok () else .error .noSpace
  | .stdout => modify fun s => { s with out := s.out ++ text }
  | .stderr => modify fun s => { s with error := s.error ++ text }
  | .null | .stdin => pure ()
  return .ok ()

def writeFile (path : String) (bytes : List UInt8) : StateM Session (Except WriteError Unit) := do
  let s ← get
  match s.folder.target path with
  | .error e => return .error (.creating e)
  | .ok place =>
    match Device.at? place with
    | some device => return (← writeDevice device bytes).mapError .writing
    | none =>
      set { s with folder := s.folder.put place bytes }
      return .ok ()

/-- A sink keeps its own offset in the file, or always writes at its end. -/
def writeSink (place : Place) (append : Bool) (text : String) : StateM Session Unit := do
  let data := text.toUTF8.data.toList
  match Device.at? place with
  | some device => let _ ← writeDevice device data
  | none =>
    modify fun s =>
      let bytes := (s.folder.find? place).getD []
      let offset := if append then bytes.length else s.sinkOffset
      { s with folder := s.folder.put place (overwrite bytes offset data)
               sinkOffset := offset + data.length }

def openSink (path : String) (append : Bool) :
    StateM Session (Except FileError (String → StateM Session Unit)) := do
  let s ← get
  match s.folder.target path with
  | .error e => return .error e
  | .ok place =>
    if (Device.at? place).isNone then
      let kept := if append then (s.folder.find? place).getD [] else []
      set { s with folder := s.folder.put place kept }
    return .ok (writeSink place append)

/-- The host that a session is. -/
def host : Host (StateM Session) :=
  { readText, writeFile, openSink
    writeOut := fun text => do
      modify fun s => { s with out := s.out ++ text }
      return .ok ()
    writeError := fun text => modify fun s => { s with error := s.error ++ text } }

end Session

end ZAssembler.CommandLine
