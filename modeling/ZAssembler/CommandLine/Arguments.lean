import ZAssembler.CommandLine.Numeral

/-
  The arguments of the command line. Options take a value, either attached (`--name=value`,
  `-xvalue`, `-x=value`) or as the next argument; flags take none. What does not start with a dash,
  a lone dash, and everything after `--` is the input file or a value.

  A value is looked at when the next known argument, or the end, shows that it is complete; an
  argument that is not known ends the reading before that.
-/

namespace ZAssembler.CommandLine

inductive OutputFormat
  | text | json
  deriving DecidableEq, Repr

/-- Why the arguments give no run. -/
inductive UsageStop
  | summary
  | help
  | version
  | unknownArgument
  | invalidValue
  | invalidNumber
  | conflict
  | valueForFlag
  | missingArgument
  deriving DecidableEq, Repr

/-- The arguments that take a value; the input file is the one without a name. -/
inductive Param
  | input | outfile | storyVersion | debugInfo | abbreviations | abbrevOutput | serial | release
  | creator | maxErrors | format | errorFile
  deriving DecidableEq, Repr

inductive Flag
  | verbose | quiet | errorAppend | noError | noWarn | warnError | summary | help | version
  deriving DecidableEq, Repr

/-- What has been given so far. -/
structure Arguments where
  input : Option String := none
  outfile : Option String := none
  storyVersion : Option Nat := none
  debugInfo : Option String := none
  abbreviations : Option Nat := none
  abbrevOutput : Option String := none
  serial : Option String := none
  release : Option Nat := none
  creator : Option String := none
  maxErrors : Option Nat := none
  format : Option OutputFormat := none
  errorFile : Option String := none
  verbosity : Nat := 0
  /-- The flags that may be given once. -/
  flags : List Flag := []
  deriving DecidableEq, Repr

/-! ## Names -/

inductive Named
  | param (p : Param)
  | flag (f : Flag)
  deriving DecidableEq, Repr

def longName? : String → Option Named
  | "outfile" => some (.param .outfile)
  | "story-version" => some (.param .storyVersion)
  | "debug-info" => some (.param .debugInfo)
  | "abbreviations" => some (.param .abbreviations)
  | "abbrev-output" => some (.param .abbrevOutput)
  | "serial" => some (.param .serial)
  | "release" => some (.param .release)
  | "creator" => some (.param .creator)
  | "max-errors" => some (.param .maxErrors)
  | "format" => some (.param .format)
  | "error" => some (.param .errorFile)
  | "verbose" => some (.flag .verbose)
  | "quiet" => some (.flag .quiet)
  | "error-append" => some (.flag .errorAppend)
  | "no-error" => some (.flag .noError)
  | "no-warn" => some (.flag .noWarn)
  | "Werror" => some (.flag .warnError)
  | "help" => some (.flag .help)
  | "version" => some (.flag .version)
  | _ => none

def shortName? : Char → Option Named
  | 'o' => some (.param .outfile)
  | 'a' => some (.param .abbreviations)
  | 'E' => some (.param .errorFile)
  | 'v' => some (.flag .verbose)
  | 'q' => some (.flag .quiet)
  | 'w' => some (.flag .noWarn)
  | 'h' => some (.flag .summary)
  | 'V' => some (.flag .version)
  | _ => none

/-! ## Values -/

def path (value : String) : Except UsageStop String :=
  if value.isEmpty then .error .invalidValue else .ok value

def number (value : Option Nat) : Except UsageStop Nat :=
  match value with
  | some n => .ok n
  | none => .error .invalidNumber

def outputFormat : String → Except UsageStop OutputFormat
  | "text" => .ok .text
  | "json" => .ok .json
  | _ => .error .invalidValue

def once {α : Type} (old : Option α) (value : Except UsageStop α) :
    Except UsageStop (Option α) :=
  match old with
  | some _ => .error .conflict
  | none => some <$> value

/-- Adds a value; each may be given once. -/
def Arguments.put (a : Arguments) (p : Param) (value : String) : Except UsageStop Arguments := do
  match p with
  | .input => return { a with input := ← once a.input (path value) }
  | .outfile => return { a with outfile := ← once a.outfile (path value) }
  | .storyVersion =>
    return { a with storyVersion := ← once a.storyVersion (number (Numeral.between? 1 8 value)) }
  | .debugInfo => return { a with debugInfo := ← once a.debugInfo (path value) }
  | .abbreviations =>
    return { a with abbreviations := ← once a.abbreviations (number (Numeral.natural? value)) }
  | .abbrevOutput => return { a with abbrevOutput := ← once a.abbrevOutput (path value) }
  | .serial => return { a with serial := ← once a.serial (.ok value) }
  | .release =>
    return { a with release := ← once a.release (number (Numeral.between? 0 65535 value)) }
  | .creator => return { a with creator := ← once a.creator (.ok value) }
  | .maxErrors =>
    return { a with maxErrors := ← once a.maxErrors (number (Numeral.natural? value)) }
  | .format => return { a with format := ← once a.format (outputFormat value) }
  | .errorFile => return { a with errorFile := ← once a.errorFile (path value) }

/-- Raises a flag. Verbosity adds up, to 255 at most; the other flags may be given once. -/
def Arguments.raise (a : Arguments) : Flag → Except UsageStop Arguments
  | .summary => .error .summary
  | .help => .error .help
  | .version => .error .version
  | .verbose => .ok { a with verbosity := min (a.verbosity + 1) 255 }
  | f => if f ∈ a.flags then .error .conflict else .ok { a with flags := a.flags ++ [f] }

/-! ## Reading -/

structure Reader where
  arguments : Arguments := {}
  /-- An option that has been named, or the input file, with its value once that is there. -/
  pending : Option (Param × Option String) := none
  inputGiven : Bool := false
  /-- After `--` nothing is an option. -/
  plainOnly : Bool := false
  deriving DecidableEq, Repr

namespace Reader

/-- Completes what is pending. -/
def settle (r : Reader) : Except UsageStop Reader := do
  match r.pending with
  | none => return r
  | some (_, none) => throw .invalidValue
  | some (p, some value) =>
    return { r with arguments := ← r.arguments.put p value, pending := none }

def raise (r : Reader) (f : Flag) : Except UsageStop Reader := do
  let r ← r.settle
  return { r with arguments := ← r.arguments.raise f }

/-- An option, with its value if that is attached. -/
def option (r : Reader) (p : Param) (attached : Option String) : Except UsageStop Reader := do
  let r ← r.settle
  match attached with
  | some value => return { r with arguments := ← r.arguments.put p value }
  | none => return { r with pending := some (p, none) }

/-- The input file; there is one at most. -/
def plain (r : Reader) (arg : String) : Except UsageStop Reader := do
  if r.inputGiven then throw .unknownArgument
  let r ← r.settle
  return { r with pending := some (.input, some arg), inputGiven := true }

def long (r : Reader) (name : String) (attached : Option String) : Except UsageStop Reader :=
  match longName? name, attached with
  | some (.param p), attached => r.option p attached
  | some (.flag f), none => r.raise f
  | some (.flag _), some _ => .error .valueForFlag
  | none, _ => .error .unknownArgument

/-- Short names in one argument; the first that takes a value takes the rest. -/
def cluster (r : Reader) : List Char → Except UsageStop Reader
  | [] => .ok r
  | c :: rest =>
    match shortName? c with
    | some (.flag f) => do (← r.raise f).cluster rest
    | some (.param p) =>
      match rest with
      | [] => r.option p none
      | '=' :: value => r.option p (some (String.ofList value))
      | value => r.option p (some (String.ofList value))
    | none => .error .unknownArgument

def next (r : Reader) (arg : String) : Except UsageStop Reader :=
  if r.plainOnly then r.plain arg
  else
    match arg.toList with
    | ['-', '-'] => .ok { r with plainOnly := true }
    | '-' :: '-' :: rest =>
      let name := String.ofList (rest.takeWhile (· ≠ '='))
      match rest.dropWhile (· ≠ '=') with
      | _ :: value => r.long name (some (String.ofList value))
      | [] => r.long name none
    | '-' :: c :: rest => r.cluster (c :: rest)
    | _ =>
      match r.pending with
      | some (p, none) => .ok { r with pending := some (p, some arg) }
      | _ => r.plain arg

end Reader

/-- Two arguments exclude each other. -/
def Arguments.hasConflict (a : Arguments) : Bool :=
  (.noError ∈ a.flags && a.errorFile.isSome) || (.warnError ∈ a.flags && .noWarn ∈ a.flags)

/-- An argument is missing that another one asks for. Appending asks for an error file, unless
    there is to be no error output. -/
def Arguments.lacksArgument (a : Arguments) : Bool :=
  (a.abbrevOutput.isSome && a.abbreviations.isNone) ||
    (.errorAppend ∈ a.flags && a.errorFile.isNone && !(.noError ∈ a.flags))

/-- The input file and all arguments. -/
def Arguments.read (args : List String) : Except UsageStop (String × Arguments) := do
  let r ← args.foldlM Reader.next {}
  let a := (← r.settle).arguments
  if a.hasConflict then throw .conflict
  if a.lacksArgument then throw .missingArgument
  match a.input with
  | some input => return (input, a)
  | none => throw .missingArgument

end ZAssembler.CommandLine
