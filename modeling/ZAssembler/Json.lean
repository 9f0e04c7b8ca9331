/-
  JSON values. An object keeps its members in order, repeated names included, because a reader may
  have to refuse them. Numbers are integers or not: no value here is ever a fraction, so a number
  written with a fraction or an exponent, or as minus zero, is kept as it was written.
-/

namespace ZAssembler

inductive Json
  | null
  | bool (value : Bool)
  | int (value : Int)
  /-- A number that is not written as an integer. -/
  | real (lexeme : String)
  | string (value : String)
  | array (items : List Json)
  | object (members : List (String × Json))
  /-- A string, or an object with a name, that holds half a surrogate pair. It is well formed, but
      there is no text to read. -/
  | unreadable
  deriving Repr, Inhabited

namespace Json

/-- The member with a given name, the first if there are several. -/
def get? (name : String) : Json → Option Json
  | .object members => members.lookup name
  | _ => none

mutual

/-- How deep arrays and objects nest. -/
def depth : Json → Nat
  | .array items => 1 + depthItems items
  | .object members => 1 + depthMembers members
  | _ => 0

def depthItems : List Json → Nat
  | [] => 0
  | item :: rest => max (depth item) (depthItems rest)

def depthMembers : List (String × Json) → Nat
  | [] => 0
  | (_, value) :: rest => max (depth value) (depthMembers rest)

end

end Json

end ZAssembler
