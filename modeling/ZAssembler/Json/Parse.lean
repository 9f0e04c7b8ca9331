import ZAssembler.Json.Token

/-
  JSON values from tokens. `Reader` keeps the arrays and objects that are open, innermost first, and
  what may come next. Nothing bounds the nesting here; a reader of values may.
-/

namespace ZAssembler.Json

/-- An open array or object; what it holds so far, last first. -/
inductive Frame
  | array (items : List Json)
  /-- With the name whose value is due or was last read; none for an unreadable name. -/
  | object (members : List (Option String × Json)) (name : Option String)

/-- What may come next. -/
inductive Due
  | value
  /-- Right after a left bracket: a value, or the end of the array. -/
  | firstItem
  | name
  /-- Right after a left brace: a name, or the end of the object. -/
  | firstName
  | colon
  /-- After a value in an array or object: a comma, or the end. -/
  | separator
  /-- Nothing: the text is read, and this is its value. -/
  | nothing (value : Json)

structure Reader where
  stack : List Frame := []
  due : Due := .value

/-- An object whose names can be read. -/
def objectOf (members : List (Option String × Json)) : Json :=
  match members.mapM (fun (name, value) => name.map (·, value)) with
  | some named => .object named
  | none => .unreadable

/-- A value is complete: it belongs to the innermost open array or object. -/
def Reader.complete (stack : List Frame) (value : Json) : Reader :=
  match stack with
  | [] => { stack := [], due := .nothing value }
  | .array items :: rest => { stack := .array (value :: items) :: rest, due := .separator }
  | .object members name :: rest =>
    { stack := .object ((name, value) :: members) name :: rest, due := .separator }

/-- A token where a value is due. -/
def Reader.value (stack : List Frame) : Token → Option Reader
  | .scalar v => some (complete stack v)
  | .text (some s) => some (complete stack (.string s))
  | .text none => some (complete stack .unreadable)
  | .leftBracket => some { stack := .array [] :: stack, due := .firstItem }
  | .leftBrace => some { stack := .object [] none :: stack, due := .firstName }
  | _ => none

/-- A token where a name is due. -/
def Reader.name (stack : List Frame) : Token → Option Reader
  | .text name =>
    match stack with
    | .object members _ :: rest => some { stack := .object members name :: rest, due := .colon }
    | _ => none
  | _ => none

/-- A token that closes the innermost array or object. -/
def Reader.close (stack : List Frame) : Token → Option Reader
  | .rightBracket =>
    match stack with
    | .array items :: rest => some (complete rest (.array items.reverse))
    | _ => none
  | .rightBrace =>
    match stack with
    | .object members _ :: rest => some (complete rest (objectOf members.reverse))
    | _ => none
  | _ => none

def Reader.step (r : Reader) (t : Token) : Option Reader :=
  match r.due with
  | .value => value r.stack t
  | .firstItem => (close r.stack t).or (value r.stack t)
  | .name => name r.stack t
  | .firstName => (close r.stack t).or (name r.stack t)
  | .colon =>
    match t with
    | .colon => some { r with due := .value }
    | _ => none
  | .separator =>
    match t, r.stack with
    | .comma, .array _ :: _ => some { r with due := .value }
    | .comma, .object _ _ :: _ => some { r with due := .name }
    | _, _ => close r.stack t
  | .nothing _ => none

def Reader.run (r : Reader) : List Token → Option Reader
  | [] => some r
  | t :: rest =>
    match r.step t with
    | some next => next.run rest
    | none => none

/-- The value of a JSON text: one value, with blanks around it. -/
def parse? (text : String) : Option Json := do
  let tokens ← tokens? text.toList
  let r ← Reader.run {} tokens
  match r.due with
  | .nothing value => some value
  | _ => none

end ZAssembler.Json
