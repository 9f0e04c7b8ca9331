import ZAssembler.Pattern.Read

/-
  The pattern that a tree stands for. Of letters outside ASCII nothing is known: not which of them
  are letters or digits, and not which are the same but for their case. So what needs to know has
  no meaning, unless the flag for all scripts is off.
-/

namespace ZAssembler.Pattern

/-! ## Single characters and classes -/

def refuse {α : Type} (cause : PatternCause) (span : Span) : Except PatternFault α :=
  .error { cause, span }

/-- The character of a literal. A byte that is not a character by itself has no meaning. -/
def Literal.meaning (flags : Flags) (l : Literal) : Except PatternFault Char :=
  if !flags.unicode && l.isByte && 128 ≤ l.char.toNat then refuse .notUnicode l.span
  else .ok l.char

/-- The character of a literal in a set: without all scripts it has to be of ASCII. -/
def Literal.member (flags : Flags) (l : Literal) : Except PatternFault Char := do
  let c ← l.meaning flags
  if !flags.unicode && 128 ≤ c.toNat then refuse .unicodeForbidden l.span else return c

/-- A set with its letters in both cases, where case does not count. -/
def foldCase (flags : Flags) (span : Span) (set : CharSet) : Except PatternFault CharSet :=
  if !flags.anyCase then .ok set
  else if !flags.unicode then .ok set.anyCase
  else if set.isEmpty then .ok set
  else refuse .caseUnknown span

/-- The characters outside a set, which are bytes and not characters without all scripts. -/
def negate (flags : Flags) (span : Span) (set : CharSet) : Except PatternFault CharSet :=
  if flags.unicode then .ok set.other else refuse .notUnicode span

/-- The set of a bracket or a named class. -/
def foldAndNegate (flags : Flags) (span : Span) (negated : Bool) (set : CharSet) :
    Except PatternFault CharSet := do
  let set ← foldCase flags span set
  if negated then negate flags span set else return set

def letterSet (flags : Flags) (letter : Char) (span : Span) : Except PatternFault CharSet :=
  if flags.unicode then refuse .letterClassUnknown span
  else
    let set := match letter.toLower with
      | 'd' => CharSet.digit
      | 's' => CharSet.blank
      | _ => CharSet.word
    if letter.isUpper then negate flags span set else .ok set

/-- The name of a property in the form that counts: without blanks, hyphens, underscores, and `is`
    at its beginning, and in small letters. -/
def propertyKey (name : String) : List Char :=
  let small := name.toList.map Char.toLower
  let rest := if ['i', 's'].isPrefixOf small then small.drop 2 else small
  rest.filter fun c => c.toNat < 128 && c ∉ [' ', '_', '-']

/-- No property is known. Three names are looked for among the values of a property only. -/
def propertyCause (name : String) : PatternCause :=
  let isPair := name.any fun c => c == '=' || c == ':'
  if !isPair && String.ofList (propertyKey name) ∈ ["cf", "sc", "lc"] then .propertyValueUnknown
  else .propertyUnknown

def propertySet (flags : Flags) (name : String) (span : Span) : Except PatternFault CharSet :=
  refuse (if flags.unicode then propertyCause name else .unicodeForbidden) span

/-! ## Sets in brackets -/

def SetOperator.apply : SetOperator → CharSet → CharSet → CharSet
  | meet => .meet
  | without => .without
  | onlyOne => .onlyOne

namespace SetTree

mutual

def meaning (flags : Flags) : SetTree → Except PatternFault CharSet
  | empty _ => .ok {}
  | atom (.literal l) => do return .single (← l.member flags)
  | atom (.letterClass letter span) => letterSet flags letter span
  | atom (.property name span) => propertySet flags name span
  | range first last => do return .ofRanges [(← first.member flags, ← last.member flags)]
  | named set negated span => foldAndNegate flags span negated set
  | brackets negated body span => do foldAndNegate flags span negated (← meaning flags body)
  | union items _ => unionMeaning flags items
  | operator op left right _ => do
    let leftSet ← meaning flags left
    let rightSet ← meaning flags right
    let rightSet ← foldCase flags right.span rightSet
    let leftSet ← foldCase flags left.span leftSet
    return op.apply leftSet rightSet

def unionMeaning (flags : Flags) : List SetTree → Except PatternFault CharSet
  | [] => .ok {}
  | item :: rest => do
    let set ← meaning flags item
    return set.union (← unionMeaning flags rest)

end

end SetTree

/-! ## Whole patterns -/

/-- A character by itself. -/
def ofLiteral (flags : Flags) (l : Literal) : Except PatternFault Pattern := do
  let c ← l.meaning flags
  return ofSet (← foldCase flags l.span (.single c))

/-- What a dot stands for. -/
def dotSet (flags : Flags) : CharSet :=
  if flags.dotAll then .all
  else (CharSet.ofChars (if flags.returns then ['\n', '\r'] else ['\n'])).other

def EdgeMark.meaning (flags : Flags) : EdgeMark → Edge
  | start => if flags.lines then .lineStart flags.returns else .textStart
  | stop => if flags.lines then .lineEnd flags.returns else .textEnd
  | textStart => .textStart
  | textEnd => .textEnd
  | word side => .word (!flags.unicode) side

namespace Tree

mutual

/-- The pattern of a tree, and the flags after it. -/
def meaning (flags : Flags) : Tree → Except PatternFault (Pattern × Flags)
  | empty _ => .ok (.empty, flags)
  | .flags letters _ => .ok (.empty, flags.changeAll letters)
  | atom (.literal l) => do return (← ofLiteral flags l, flags)
  | atom (.letterClass letter span) => do return (ofSet (← letterSet flags letter span), flags)
  | atom (.property name span) => do return (ofSet (← propertySet flags name span), flags)
  | dot span => do
    if !flags.unicode then refuse .notUnicode span
    return (ofSet (dotSet flags), flags)
  | edge mark _ => .ok (.edge (mark.meaning flags), flags)
  | brackets negated body span => do
    return (ofSet (← foldAndNegate flags span negated (← body.meaning flags)), flags)
  | loop least most body _ => do
    let (p, flags) ← meaning flags body
    return (times least most p, flags)
  | group letters body _ => do
    let (p, _) ← meaning (flags.changeAll (letters.getD [])) body
    return (if letters.isNone then .group p else p, flags)
  | seq items _ => do
    let (ps, flags) ← meanings flags items
    return (inOrder ps, flags)
  | alt branches _ => do
    let (ps, flags) ← meanings flags branches
    return (anyOf ps, flags)

def meanings (flags : Flags) : List Tree → Except PatternFault (List Pattern × Flags)
  | [] => .ok ([], flags)
  | item :: rest => do
    let (p, flags) ← meaning flags item
    let (ps, flags) ← meanings flags rest
    return (p :: ps, flags)

end

end Tree

end ZAssembler.Pattern
