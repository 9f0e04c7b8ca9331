import ZAssembler.Bytecode
import ZAssembler.Node
import ZAssembler.ZText

/-
  What can go wrong. A problem is its cause; kind, code and wording are read off it here and
  nowhere else.
-/

namespace ZAssembler

/-- The areas that problems belong to. -/
inductive ProblemKind
  | assembler | cli | directive | expression | instruction | io | layout | symbol
  deriving DecidableEq, Repr

/-- The code that diagnostics of a kind carry. -/
def ProblemKind.code : ProblemKind → String
  | assembler => "zap001"
  | cli => "zap101"
  | directive => "zap201"
  | symbol => "zap301"
  | expression => "zap401"
  | instruction => "zap402"
  | io => "zap501"
  | layout => "zap601"

inductive Problem
  /-- Errors were reported, though none that ended the run. -/
  | errorsInAssembly (count : Nat)
  | tooManyErrors (count : Nat)
  | warningsAreErrors
  | invalidBoolean (setting value : String)
  | invalidInteger (setting value : String)
  | versionOutOfRange (number : Nat)
  | noErrorsAllowed
  | noAbbreviationsAsked
  | tooManyAbbreviationsAsked (limit : Nat)
  | unprintableSerial (serial : String)
  | unfitCreator (creator : String)
  | unclosedTable (start : Nat)
  | nestedTable (start : Nat)
  | tableNotOpen
  | tableSizeMismatch (start declared actual : Nat)
  | unclosedVocabulary
  | nestedVocabulary
  | vocabularyNotOpen
  | vocabularySizes (recordSize keySize : Int32)
  | partialRecord (length recordSize : Nat)
  /-- A value that layout cannot wait for is not known. -/
  | neededAtOnce (what name : String)
  | unsupportedVersion (value : Int32)
  | conflictingVersions (current wanted : Version)
  | tooManyLocals (count : Nat)
  | ignoredLocalDefaults (version : Version) (routine : String)
  | abbreviation (error : ZText.AbbreviationError) (name : String)
  | tooManyGlobals (name : String)
  | tooManyFlagWords (version : Version) (limit : Nat) (name : String)
  | tooManyObjects (name : String)
  | propertySize (size : Int32)
  | propertyNumber (number : Int32)
  | stringTooLong
  | expression (error : EvalError)
  | unresolvedReferences (names : List String)
  | alreadyDefined (kind : SymbolKind) (name : String)
  | localLabelOutsideRoutine (name : String)
  | duplicateLocalLabel (name : String)
  | undeclaredLocalLabel (name : String)
  | opcodeNotAvailable (version : Version) (opcode : String)
  | unknownOpcode (opcode : String)
  | storesNothing (opcode : String)
  | branchesNowhere (opcode : String)
  | needsBranch (opcode : String)
  | takesNoText (opcode : String)
  | needsText (opcode : String)
  /-- A jump goes to a label; the name if it goes to another symbol. -/
  | jumpTarget (name : Option String)
  | storeTarget
  | branchOutsideRoutine (name : String)
  | branchTarget (name : String)
  | encoding (error : Bytecode.EncodeError)
  | routineNotSettled (walks : Nat) (routine : String)
  | valueChanged (old new : Int32) (name : String)
  | packedOverflow (packed : Nat) (name : String)
  | storyTooLong (version : Version) (excess : Nat)
  | readingNodes (path reason : String)
  | invalidNodes (path : String)
  | creatingFile (path reason : String)
  | writingFile (path reason : String)
  | writingAbbreviations (reason : String)
  /-- A problem worded by whoever reports it. -/
  | stated (kind : ProblemKind) (text : String) (detail : Option String)
  deriving DecidableEq, Repr

namespace Problem

def kind : Problem → ProblemKind
  | errorsInAssembly _ | tooManyErrors _ | warningsAreErrors => .assembler
  | invalidBoolean _ _ | invalidInteger _ _ | versionOutOfRange _ | noErrorsAllowed
  | noAbbreviationsAsked | tooManyAbbreviationsAsked _ | unprintableSerial _
  | unfitCreator _ => .cli
  | unclosedTable _ | nestedTable _ | tableNotOpen | tableSizeMismatch _ _ _
  | unclosedVocabulary | nestedVocabulary | vocabularyNotOpen | vocabularySizes _ _
  | partialRecord _ _ | neededAtOnce _ _ | unsupportedVersion _ | conflictingVersions _ _
  | tooManyLocals _ | ignoredLocalDefaults _ _ | abbreviation _ _ | tooManyGlobals _
  | tooManyFlagWords _ _ _ | tooManyObjects _ | propertySize _ | propertyNumber _
  | stringTooLong => .directive
  | expression (.undefined _) => .symbol
  | expression _ => .expression
  | unresolvedReferences _ | alreadyDefined _ _ | localLabelOutsideRoutine _
  | duplicateLocalLabel _ | undeclaredLocalLabel _ => .symbol
  | opcodeNotAvailable _ _ | unknownOpcode _ | storesNothing _ | branchesNowhere _
  | needsBranch _ | takesNoText _ | needsText _ | jumpTarget _ | storeTarget
  | branchOutsideRoutine _ | branchTarget _ | encoding _ => .instruction
  | routineNotSettled _ _ | valueChanged _ _ _ | packedOverflow _ _ | storyTooLong _ _ => .layout
  | readingNodes _ _ | invalidNodes _ | creatingFile _ _ | writingFile _ _
  | writingAbbreviations _ => .io
  | stated kind _ _ => kind

def message : Problem → String
  | errorsInAssembly count => s!"Errors in assembly: {count}"
  | tooManyErrors count => s!"Too many errors: {count}"
  | warningsAreErrors => "Warnings treated as errors (--Werror)"
  | invalidBoolean setting value => s!"Invalid boolean value for {setting}: {value}"
  | invalidInteger setting value => s!"Invalid integer value for {setting}: {value}"
  | versionOutOfRange number => s!"Story version must be between 1 and 8, found {number}"
  | noErrorsAllowed => "--max-errors must be at least 1"
  | noAbbreviationsAsked => "--abbreviations must be at least 1"
  | tooManyAbbreviationsAsked limit => s!"--abbreviations must be at most {limit}"
  | unprintableSerial serial => s!"Serial must be printable ASCII: {serial}"
  | unfitCreator creator => s!"Creator tag must be at most 4 ASCII characters: {creator}"
  | unclosedTable start => s!".TABLE without .ENDT, opened at: {hex start}"
  | nestedTable start => s!"Nested .TABLE; the open table starts at: {hex start}"
  | tableNotOpen => ".ENDT without .TABLE"
  | tableSizeMismatch start declared actual =>
    s!"Table size mismatch: declared {declared}, actual {actual}: {hex start}"
  | unclosedVocabulary => ".VOCBEG without .VOCEND"
  | nestedVocabulary => "Nested .VOCBEG"
  | vocabularyNotOpen => ".VOCEND without .VOCBEG"
  | vocabularySizes recordSize keySize =>
    s!"Invalid vocabulary sizes: record {recordSize.toInt}, key {keySize.toInt}"
  | partialRecord length recordSize =>
    s!"Vocabulary block of {length} bytes is not a whole number of {recordSize}-byte records"
  | neededAtOnce what name => s!"{what} must be defined before use: {name}"
  | unsupportedVersion value => s!"Unsupported story version: {value.toInt}"
  | conflictingVersions current wanted =>
    s!"Conflicting version directives: {current.number} and {wanted.number}"
  | tooManyLocals count => s!"Routines may declare at most 15 locals, found: {count}"
  | ignoredLocalDefaults version routine =>
    s!"Local defaults are ignored in version {version.number}: {routine}"
  | abbreviation error name => s!"{error.message}: {name}"
  | tooManyGlobals name => s!"Too many global variables: {name}"
  | tooManyFlagWords version limit name =>
    s!"Objects in version {version.number} have {limit} flag words: {name}"
  | tooManyObjects name => s!"Too many objects: {name}"
  | propertySize size => s!"Property size out of range: {size.toInt}"
  | propertyNumber number => s!"Property number out of range: {number.toInt}"
  | stringTooLong => "String is too long for a length byte"
  | expression error => s!"{error.message}: {error.subject}"
  | unresolvedReferences names => "Unresolved references: " ++ String.intercalate ", " names
  | alreadyDefined kind name => s!"Symbol already defined as {kind.text}: {name}"
  | localLabelOutsideRoutine name => s!"Local label outside a routine: {name}"
  | duplicateLocalLabel name => s!"Duplicate local label: {name}"
  | undeclaredLocalLabel name => s!"Local label was not declared by its routine: {name}"
  | opcodeNotAvailable version opcode =>
    s!"Opcode not available in version {version.number}: {opcode}"
  | unknownOpcode opcode => s!"Unknown opcode: {opcode}"
  | storesNothing opcode => s!"{opcode} does not store a result"
  | branchesNowhere opcode => s!"{opcode} does not branch"
  | needsBranch opcode => s!"{opcode} requires a branch target"
  | takesNoText opcode => s!"{opcode} does not take a string"
  | needsText opcode => s!"{opcode} requires a string"
  | jumpTarget none => "JUMP target must be a label"
  | jumpTarget (some name) => s!"JUMP target must be a label: {name}"
  | storeTarget => "Store target is not a variable"
  | branchOutsideRoutine name => s!"Branch outside a routine: {name}"
  | branchTarget name => s!"Branch target is not a label of this routine: {name}"
  | encoding error => error.message
  | routineNotSettled walks routine => s!"Routine did not settle after {walks} walks: {routine}"
  | valueChanged old new name =>
    s!"Value changed from {hexValue old} to {hexValue new} during the final pass: {name}"
  | packedOverflow packed name =>
    s!"Packed address {hex packed} does not fit in 16 bits: {name}"
  | storyTooLong version excess =>
    s!"Story file exceeds the version {version.number} limit by {excess} bytes"
  | readingNodes path reason => s!"Error reading node file: {path}: {reason}"
  | invalidNodes path => s!"Invalid node file: {path}"
  | creatingFile path reason => s!"Error creating file: {path}: {reason}"
  | writingFile path reason => s!"Error writing file: {path}: {reason}"
  | writingAbbreviations reason => s!"Error writing abbreviations: -: {reason}"
  | stated _ text none => text
  | stated _ text (some detail) => s!"{text}: {detail}"

end Problem

end ZAssembler
