/-
  The name of the story file: the name of the input with another extension.
-/

namespace ZAssembler.CommandLine

/-- Parts of a path that name nothing at its end. -/
def isBlankPart (part : String) : Bool := part.isEmpty || part == "."

/-- The parts before the file name, and the file name; none if the path ends in no file name. -/
def fileName? (path : String) : Option (List String × String) :=
  match (path.splitOn "/").reverse.dropWhile isBlankPart with
  | [] => none
  | name :: before => if name == ".." then none else some (before.reverse, name)

/-- A name cut at its last dot; a name without dot, or with the only one in front, has no
    extension. -/
def cutExtension (name : String) : String × Option String :=
  let cs := name.toList.reverse
  let extension := (cs.takeWhile (· ≠ '.')).reverse
  match cs.dropWhile (· ≠ '.') with
  | [] | ['.'] => (name, none)
  | _ :: stem => (String.ofList stem.reverse, some (String.ofList extension))

/-- Puts an extension in the place of the file name's own; a path without file name stays. -/
def setExtension (path extension : String) : String :=
  match fileName? path with
  | none => path
  | some (before, name) =>
    String.intercalate "/" (before ++ [(cutExtension name).1 ++ "." ++ extension])

/-- The path with the file name's extension taken off its end, then `extension` put on. -/
def withExtension (path extension : String) : String :=
  match fileName? path with
  | none => path
  | some (_, name) =>
    let taken := ((cutExtension name).2.getD "").length
    setExtension (String.ofList (path.toList.take (path.length - taken))) extension

end ZAssembler.CommandLine
