import ZAssembler.Json.Parse
import ZAssembler.Json.Print
import ZAssembler.Json.Shape

/-
  What a format of data takes from a library for JSON: the text of values, how deep they may nest,
  and the shapes in which records, variants, lists and options are written and read. `library` is
  the one that the program comes with.
-/

namespace ZAssembler.Json

structure Library where
  parse? : String → Option Json
  print : Json → String
  /-- How many arrays and objects may be open at a time in what is read. -/
  limit : Nat
  text? : Json → Option String
  bool? : Json → Option Bool
  /-- An integer from a least one to a greatest one. -/
  intWithin? : Int → Int → Json → Option Int
  /-- The value stands for none, or for the data of a variant that has no data. -/
  isNull : Json → Bool
  /-- The items of a list, and how many arrays and objects may still be opened in them. -/
  items? : (d : Nat) → Json → Option (List Json × Fin d)
  /-- The values of the fields of a record, as far as given. -/
  fields? : List String → (d : Nat) → Json → Option (List (Option Json) × Fin d)
  /-- The name of a variant, and its data if there is any. -/
  variant? : (d : Nat) → Json → Option (String × Option (Json × Fin d))
  string : String → Json
  bool : Bool → Json
  int : Int → Json
  null : Json
  list : List Json → Json
  record : List (String × Json) → Json
  /-- A variant without data. -/
  bare : String → Json
  /-- A variant with data. -/
  tagged : String → Json → Json

namespace Library

variable (lib : Library)

/-! ## Reading -/

def int32? (j : Json) : Option Int32 :=
  (lib.intWithin? (-2147483648) 2147483647 j).map Int32.ofInt

def uint16? (j : Json) : Option UInt16 :=
  (lib.intWithin? 0 65535 j).map fun n => UInt16.ofNat n.toNat

def uint32? (j : Json) : Option UInt32 :=
  (lib.intWithin? 0 4294967295 j).map fun n => UInt32.ofNat n.toNat

/-- A list whose items are all read by `item`. -/
def list? {α : Type} (item : Nat → Json → Option α) (d : Nat) (j : Json) : Option (List α) :=
  match lib.items? d j with
  | some (items, d) => items.mapM (item d)
  | none => none

/-- A value, or none. -/
def option? {α : Type} (item : Nat → Json → Option α) (d : Nat) (j : Json) : Option (Option α) :=
  if lib.isNull j then some none else (item d j).map some

/-- The variant has no data, in either spelling. -/
def isBare {d : Nat} (data : Option (Json × Fin d)) : Bool := data.all fun (j, _) => lib.isNull j

/-! ## Writing -/

def listOf {α : Type} (item : α → Json) (values : List α) : Json := lib.list (values.map item)

def optionOf {α : Type} (item : α → Json) (value : Option α) : Json := value.elim lib.null item

end Library

/-- A field that may be missing. -/
def orElse? {α : Type} (read : Json → Option α) (default : α) : Option Json → Option α
  | none => some default
  | some j => read j

/-- The library of the program. -/
def library : Library where
  parse? := parse?
  print := compact
  limit := 127
  text? := text?
  bool? := bool?
  intWithin? := intWithin?
  isNull := isNull
  items? := items?
  fields? := fields?
  variant? := variant?
  string := .string
  bool := .bool
  int := .int
  null := .null
  list := .array
  record := .object
  bare := .string
  tagged name data := .object [(name, data)]

end ZAssembler.Json
