import ZAssembler.Json

/-
  Shapes of values that stand for data: records, variants, lists and options. A record is an object
  or an array of its fields in order, where fields at the end may be missing; names it does not
  know are passed over and a repeated field is refused. A variant without data is its name, or an
  object from its name to null; one with data is an object with that one member.

  A reader that opens an array or object takes the number of them that may be opened, and gives the
  number that may still be opened inside.
-/

namespace ZAssembler.Json

def text? : Json → Option String
  | .string s => some s
  | _ => none

def bool? : Json → Option Bool
  | .bool b => some b
  | _ => none

/-- An integer from `low` to `high`. -/
def intWithin? (low high : Int) : Json → Option Int
  | .int n => if low ≤ n ∧ n ≤ high then some n else none
  | _ => none

def isNull : Json → Bool
  | .null => true
  | _ => false

/-- The items of an array. -/
def items? : (d : Nat) → Json → Option (List Json × Fin d)
  | d + 1, .array items => some (items, Fin.last d)
  | _, _ => none

/-- The name of a variant, and its data if it has any. -/
def variant? : (d : Nat) → Json → Option (String × Option (Json × Fin d))
  | _, .string name => some (name, none)
  | d + 1, .object [(name, data)] => some (name, some (data, Fin.last d))
  | _, _ => none

/-- The value that an object gives a field, if any; refused if it gives several. -/
def fieldOf? (members : List (String × Json)) (name : String) : Option (Option Json) :=
  match members.filter (·.1 == name) with
  | [] => some none
  | [(_, value)] => some (some value)
  | _ => none

/-- The values of a record's fields, as far as given. -/
def fields? (names : List String) : (d : Nat) → Json → Option (List (Option Json) × Fin d)
  | d + 1, .array items =>
    if items.length ≤ names.length then
      some (items.map some ++ List.replicate (names.length - items.length) none, Fin.last d)
    else none
  | d + 1, .object members => (names.mapM (fieldOf? members)).map (·, Fin.last d)
  | _, _ => none

end ZAssembler.Json
