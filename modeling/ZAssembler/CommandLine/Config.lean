import ZAssembler.Assemble
import ZAssembler.CommandLine.Arguments
import ZAssembler.CommandLine.StoryPath
import ZAssembler.Text.Blank

/-
  The configuration of a run: arguments, with settings of the environment where an argument is not
  given. Every setting is read, in a fixed order, before anything else is checked, so that a
  setting that makes no sense is reported even if an argument stands over it.
-/

namespace ZAssembler.CommandLine

/-- The values of settings by name. -/
abbrev Environment := String → Option String

/-! ## Settings -/

/-- The full name of a setting. -/
def settingName (name : String) : String := "ZFORGE_" ++ name

/-- The names of all settings, the log setting included. -/
def settingNames : List String :=
  ["STORY_VERSION", "MAX_ERRORS", "SERIAL", "CREATOR", "DEBUG_INFO", "QUIET", "NO_WARN", "WERROR",
    "ERROR_FILE", "ERROR_APPEND", "NO_ERROR", "LOG"].map settingName

/-- A setting's value without blanks around it; an empty one counts as not set. -/
def textSetting (env : Environment) (name : String) : Option String :=
  ((env (settingName name)).map Text.trimmed).filter (!·.isEmpty)

def numberSetting (env : Environment) (name : String) : Except Problem (Option Nat) :=
  match textSetting env name with
  | none => .ok none
  | some value =>
    match Numeral.natural? value with
    | some n => .ok (some n)
    | none => .error (.invalidInteger (settingName name) value)

def boolSetting (env : Environment) (name : String) : Except Problem (Option Bool) :=
  match (textSetting env name).map (·.map Char.toLower) with
  | none => .ok none
  | some value =>
    if value ∈ ["1", "true", "yes", "on"] then .ok (some true)
    else if value ∈ ["0", "false", "no", "off"] then .ok (some false)
    else .error (.invalidBoolean (settingName name) value)

structure Settings where
  storyVersion : Option Nat
  maxErrors : Option Nat
  serial : Option String
  creator : Option String
  debugInfo : Option String
  quiet : Option Bool
  noWarn : Option Bool
  warnError : Option Bool
  errorFile : Option String
  errorAppend : Option Bool
  noError : Option Bool
  deriving DecidableEq, Repr

def Settings.read (env : Environment) : Except Problem Settings := do
  return {
    storyVersion := ← numberSetting env "STORY_VERSION"
    maxErrors := ← numberSetting env "MAX_ERRORS"
    serial := textSetting env "SERIAL"
    creator := textSetting env "CREATOR"
    debugInfo := textSetting env "DEBUG_INFO"
    quiet := ← boolSetting env "QUIET"
    noWarn := ← boolSetting env "NO_WARN"
    warnError := ← boolSetting env "WERROR"
    errorFile := textSetting env "ERROR_FILE"
    errorAppend := ← boolSetting env "ERROR_APPEND"
    noError := ← boolSetting env "NO_ERROR" }

/-! ## Configuration -/

/-- Where diagnostics go. -/
inductive Sink
  | stderr
  | file (path : String) (append : Bool)
  | disabled
  deriving DecidableEq, Repr

structure Config where
  input : String
  outfile : Option String
  debugInfo : Option String
  /-- How many abbreviations to suggest. -/
  abbreviations : Option Nat
  abbrevOutput : Option String
  version : Version
  maxErrors : Nat
  serial : Option String
  release : Option UInt16
  creator : Option String
  verbosity : Nat
  quiet : Bool
  format : OutputFormat
  sink : Sink
  emitWarnings : Bool
  warningsAsErrors : Bool
  deriving DecidableEq, Repr

/-- As many abbreviations as any version holds. -/
def maxAbbreviations : Nat := 96

def chooseVersion (number : Nat) : Except Problem Version :=
  match Version.ofNat? number with
  | some v => .ok v
  | none => .error (.versionOutOfRange number)

def checkErrorLimit (limit : Nat) : Except Problem Unit :=
  if limit = 0 then .error .noErrorsAllowed else .ok ()

def checkAbbreviations : Option Nat → Except Problem Unit
  | none => .ok ()
  | some count =>
    if count = 0 then .error .noAbbreviationsAsked
    else if maxAbbreviations < count then .error (.tooManyAbbreviationsAsked maxAbbreviations)
    else .ok ()

def checkSerial : Option String → Except Problem Unit
  | none => .ok ()
  | some serial =>
    if serial.toList.all fun c => 0x21 ≤ c.toNat && c.toNat ≤ 0x7E then .ok ()
    else .error (.unprintableSerial serial)

def checkCreator : Option String → Except Problem Unit
  | none => .ok ()
  | some creator =>
    if creator.utf8ByteSize ≤ 4 ∧ creator.toList.all (·.toNat < 0x80) then .ok ()
    else .error (.unfitCreator creator)

/-- Warnings that are errors have to be shown, so each of the two flags overrules the other one's
    setting. -/
def Config.of (input : String) (a : Arguments) (env : Environment) : Except Problem Config := do
  let settings ← Settings.read env
  let has (f : Flag) : Bool := f ∈ a.flags
  let version ← chooseVersion
    ((a.storyVersion.or settings.storyVersion).getD Version.standard.number)
  let maxErrors := (a.maxErrors.or settings.maxErrors).getD 100
  checkErrorLimit maxErrors
  checkAbbreviations a.abbreviations
  let serial := a.serial.or settings.serial
  checkSerial serial
  let creator := a.creator.or settings.creator
  checkCreator creator
  let noWarn := has .noWarn || (!has .warnError && settings.noWarn.getD false)
  let warnError := has .warnError || (!noWarn && settings.warnError.getD false)
  let append := has .errorAppend || settings.errorAppend.getD false
  let noError := has .noError || (a.errorFile.isNone && settings.noError.getD false)
  let sink : Sink :=
    if noError then .disabled
    else
      match a.errorFile.or settings.errorFile with
      | some path => .file path append
      | none => .stderr
  return {
    input
    outfile := a.outfile
    debugInfo := a.debugInfo.or settings.debugInfo
    abbreviations := a.abbreviations
    abbrevOutput := a.abbrevOutput
    version, maxErrors, serial
    release := a.release.map UInt16.ofNat
    creator
    verbosity := a.verbosity
    quiet := has .quiet || settings.quiet.getD false
    format := a.format.getD .text
    sink
    emitWarnings := !noWarn
    warningsAsErrors := warnError }

namespace Config

/-- The story file for the version that the run ended with. -/
def storyPath (c : Config) (version : Nat) : String :=
  c.outfile.getD (withExtension c.input s!"z{version}")

/-- What the assembler is to do; `today` is the serial if none is given. -/
def options (c : Config) (today : String) : Options :=
  { version := c.version
    maxErrors := c.maxErrors
    identity := { serial := c.serial.getD today, release := c.release, creator := c.creator }
    collectText := c.abbreviations.isSome }

end Config

end ZAssembler.CommandLine
