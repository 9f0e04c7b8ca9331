import ZAssembler.CommandLine.Config
import ZAssembler.CommandLine.Help
import ZAssembler.CommandLine.Host
import ZAssembler.CommandLine.LogFilter
import ZAssembler.Json.Print
import ZAssembler.Node.Json

/-
  A run from the command line: read the nodes, assemble them, write the story and what else was
  asked for, then show the diagnostics.
-/

namespace ZAssembler.CommandLine

structure Failure where
  problem : Problem
  diagnostics : List Diagnostic
  deriving DecidableEq, Repr

structure Report where
  story : AssembledStory
  diagnostics : List Diagnostic
  counts : Assembly.Counts
  deriving DecidableEq, Repr

/-- A failure that its one diagnostic tells of. -/
def Failure.ofProblem (problem : Problem) : Failure :=
  { problem, diagnostics := [{ severity := .fatal, problem }] }

/-- The failure of a run in which warnings count as errors. -/
def Failure.ofWarnings (ds : List Diagnostic) : Option Failure :=
  let warnings := ds.filter (!·.isError)
  if warnings.isEmpty then none
  else
    some { problem := .warningsAreErrors
           diagnostics := warnings.map fun d => { d with severity := .error } }

section

variable {m : Type → Type} [Monad m] (host : Host m)

def writeOutput (path : String) (bytes : List UInt8) : ExceptT Failure m Unit := do
  match ← host.writeFile path bytes with
  | .ok () => pure ()
  | .error (.creating e) => throw (.ofProblem (.creatingFile path e.message))
  | .error (.writing e) => throw (.ofProblem (.writingFile path e.message))

def textBytes (text : String) : List UInt8 := text.toUTF8.data.toList

/-- Searches the story's text for abbreviations and writes their declarations. -/
def suggestAbbreviations (log : Event → m Unit) (output : Option String) (max : Nat)
    (finder : Abbreviation.Finder) : ExceptT Failure m Unit := do
  log (.abbreviationSearch finder.text.size finder.candidates.size)
  let choices := finder.results max
  log (.abbreviationsSelected choices.length)
  let listing := Abbreviation.listing choices
  match output with
  | some path => writeOutput host path (textBytes listing)
  | none =>
    match ← host.writeOut listing with
    | .ok () => pure ()
    | .error e => throw (.ofProblem (.writingAbbreviations e.message))

/-- Does what the configuration asks for; `today` is the serial if none is given. -/
def Config.run (log : Event → m Unit) (today : String) (c : Config) :
    ExceptT Failure m Report := do
  let text ← match ← host.readText c.input with
    | .ok text => pure text
    | .error e => throw (.ofProblem (.readingNodes c.input e.message))
  let nodes ← match Node.listOfText? text with
    | some nodes => pure nodes
    | none => throw { problem := .invalidNodes c.input, diagnostics := [] }
  log (.nodesRead nodes.length c.input)
  let outcome := assemble (c.options today) nodes
  outcome.log.forM fun event => (log event : ExceptT Failure m Unit)
  let story ← match outcome.result with
    | .ok story => pure story
    | .error problem => throw { problem, diagnostics := outcome.diagnostics }
  if c.warningsAsErrors then
    match Failure.ofWarnings outcome.diagnostics with
    | some failure => throw failure
    | none => pure ()
  let storyPath := c.storyPath ((story.bytes.head?.map UInt8.toNat).getD Version.standard.number)
  writeOutput host storyPath story.bytes
  log (.storyWritten storyPath story.bytes.length)
  match c.debugInfo with
  | some path =>
    writeOutput host path (textBytes (DebugRecord.listToText outcome.debug))
    log (.debugWritten outcome.debug.length path)
  | none => pure ()
  match c.abbreviations, story.text with
  | some max, some finder => suggestAbbreviations host log c.abbrevOutput max finder
  | _, _ => pure ()
  return { story, diagnostics := outcome.diagnostics, counts := outcome.counts }

/-! ## Diagnostics -/

/-- A diagnostic as a line of JSON; its keys are in alphabetical order. -/
def diagnosticJson (d : Diagnostic) : Json :=
  let file := (d.location.map Location.file).filter (!·.isEmpty)
  .object [("code", .string d.code), ("file", file.elim .null .string),
    ("help", .array (d.help.map .string)),
    ("line", (d.location.map Location.line).elim .null fun line => .int line.toNat),
    ("message", .string d.message), ("notes", .array (d.notes.map .string)),
    ("severity", .string d.severity.text)]

def diagnosticLine (format : OutputFormat) (d : Diagnostic) : String :=
  match format with
  | .text => d.text
  | .json => (diagnosticJson d).compact

def Config.shows (c : Config) (d : Diagnostic) : Bool := c.emitWarnings || d.isError

/-- What writes lines to the sink, if it can be opened. -/
def openSink (sink : Sink) : m (Except FileError (String → m Unit)) :=
  match sink with
  | .disabled => return .ok fun _ => pure ()
  | .stderr => return .ok host.writeError
  | .file path append => host.openSink path append

/-! ## The program -/

/-- Runs a configuration and shows its diagnostics; gives the exit code. -/
def Config.execute (log : Event → m Unit) (today : String) (c : Config) : m UInt32 := do
  match ← openSink host c.sink with
  | .error e =>
    host.writeError s!"Failed to open diagnostics sink: {e.message}\n"
    return 1
  | .ok write =>
    let emit (line : String) : m Unit := write (line ++ "\n")
    let emitAll (ds : List Diagnostic) : m Unit :=
      (ds.filter c.shows).forM fun d => emit (diagnosticLine c.format d)
    match ← (c.run host log today).run with
    | .ok report =>
      if !c.quiet then emitAll report.diagnostics
      return 0
    | .error failure =>
      emitAll failure.diagnostics
      if c.format = .text then emit failure.problem.message
      return 1

def UsageStop.message : UsageStop → String
  | .summary => summaryText
  | .help => helpText
  | .version => versionText
  | .unknownArgument => "error: unexpected argument\n"
  | .invalidValue => "error: invalid or missing value\n"
  | .invalidNumber => "error: invalid number\n"
  | .conflict => "error: arguments exclude each other\n"
  | .valueForFlag => "error: unexpected value\n"
  | .missingArgument => "error: required argument not given\n"

/-- The program; gives the exit code. -/
def run (env : Environment) (today : String) (args : List String) : m UInt32 := do
  match Arguments.read args with
  | .error stop =>
    if stop ∈ [.summary, .help, .version] then
      let _ ← host.writeOut stop.message
      return 0
    else
      host.writeError stop.message
      return 2
  | .ok (input, arguments) =>
    match Config.of input arguments env with
    | .error problem =>
      host.writeError (problem.message ++ "\n")
      return 1
    | .ok c =>
      let filter := LogFilter.of c.verbosity (env (settingName "LOG"))
      host.writeError filter.complaintText
      let log (event : Event) : m Unit :=
        if filter.shows event then host.writeError (logLine event) else pure ()
      c.execute host log today

end

end ZAssembler.CommandLine
