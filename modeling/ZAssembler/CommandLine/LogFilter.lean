import ZAssembler.Event
import ZAssembler.Pattern.Compile
import ZAssembler.Text.Plain

/-
  Which events are shown, and how. The number of `-v` flags sets a level for all of them; the log
  setting adds rules. It is a list of levels, names, and names with a level, and may end in a slash
  and a pattern that the messages have to match. Of the rules whose name begins an event's topic,
  the one with the longest name counts.
-/

namespace ZAssembler

/-- The level that a number of `-v` flags asks for. -/
def LogLevel.ofVerbosity : Nat → LogLevel
  | 0 => .warn
  | 1 => .info
  | 2 => .debug
  | _ => .trace

def LogLevel.ofName? (name : String) : Option LogLevel :=
  match name.map Char.toLower with
  | "off" => some .off
  | "error" => some .error
  | "warn" => some .warn
  | "info" => some .info
  | "debug" => some .debug
  | "trace" => some .trace
  | _ => none

/-- The topic of an event, by the name that the log setting knows it by. -/
def Event.topic : Event → String
  | .labelMoved _ _ _ _ | .globalMoved _ _ _ _ => "zforge::assembler::node_labels"
  | .vocabularySorted _ _ => "zforge::assembler::node_directives_layout"
  | .abbreviationSearch _ _ => "zforge::core::abbrev_finder"
  | .nodesRead _ _ | .storyWritten _ _ | .debugWritten _ _ | .abbreviationsSelected _ =>
    "zforge::assembler::passes"
  | .restarting _ _ | .passMeasured _ _ _ | .stillMoving _ | .assembled _ _ _
  | .routineSettled _ _ _ | .walkingAgain _ _ | .warned _ => "zforge::assembler::engine"

namespace CommandLine

/-- Events whose topic begins with the name are shown up to the level. -/
structure LogRule where
  /-- A rule without name is for all events, and gives way to every other. -/
  name : Option String
  level : LogLevel
  deriving DecidableEq, Repr

namespace LogRule

def fits (r : LogRule) (topic : String) : Bool :=
  r.name.all fun name => name.toList.isPrefixOf topic.toList

/-- A rule counts before another if its name is at least as long. -/
def isOver (r : LogRule) (other : LogRule) : Bool :=
  (other.name.getD "").utf8ByteSize ≤ (r.name.getD "").utf8ByteSize

end LogRule

structure LogFilter where
  rules : List LogRule
  /-- Finds the pattern that messages have to match. -/
  pattern : Option Pattern.Machine := none
  /-- What makes no sense in the setting. -/
  complaints : List String := []
  deriving DecidableEq, Repr

namespace LogFilter

def putRule (rule : LogRule) : List LogRule → List LogRule
  | [] => [rule]
  | old :: rest => if old.name = rule.name then rule :: rest else old :: putRule rule rest

/-- Adds a rule, in the place of one with the same name. -/
def add (f : LogFilter) (name : Option String) (level : LogLevel) : LogFilter :=
  { f with rules := putRule { name, level } f.rules }

def complain (f : LogFilter) (text : String) : LogFilter :=
  { f with complaints := f.complaints ++ [text] }

/-- Takes in one part of the setting: a level, a name, or a name and its level. -/
def addPart (f : LogFilter) (part : String) : LogFilter :=
  match part.splitOn "=" with
  | [""] => f
  | [word] =>
    match LogLevel.ofName? word with
    | some level => f.add none level
    | none => f.add (some word) .trace
  | [name, value] =>
    let word := Text.trimmed value
    if word.isEmpty then f.add (some name) .trace
    else
      match LogLevel.ofName? word with
      | some level => f.add (some name) level
      | none => f.complain s!"invalid logging spec '{word}'"
  | _ => f.complain s!"invalid logging spec '{part}'"

def addParts (f : LogFilter) (parts : String) : LogFilter :=
  ((parts.splitOn ",").map Text.trimmed).foldl addPart f

def setPattern (f : LogFilter) (text : String) : LogFilter :=
  match Pattern.Machine.ofText text with
  | .ok machine => { f with pattern := some machine }
  | .error fault => f.complain s!"invalid regex filter - {fault.report text}"

/-- The filter for a number of `-v` flags and the setting's value. -/
def of (verbosity : Nat) (setting : Option String) : LogFilter :=
  let base : LogFilter := { rules := [⟨none, LogLevel.ofVerbosity verbosity⟩] }
  match setting with
  | none => base
  | some text =>
    match text.splitOn "/" with
    | [parts] => base.addParts parts
    | [parts, pattern] => (base.addParts parts).setPattern pattern
    | _ => base.complain s!"invalid logging spec '{text}' (too many '/'s)"

/-- Lines that tell of what makes no sense. -/
def complaintText (f : LogFilter) : String :=
  String.join (f.complaints.map fun complaint => s!"warning: {complaint}, ignoring it\n")

/-- The rule that counts for a topic; of two with names of the same length, the later one. -/
def ruleFor? (f : LogFilter) (topic : String) : Option LogRule :=
  (f.rules.filter (·.fits topic)).foldl
    (fun best rule => if best.all rule.isOver then some rule else best) none

def shows (f : LogFilter) (e : Event) : Bool :=
  (f.ruleFor? e.topic).any (fun rule => e.level.rank ≤ rule.level.rank) &&
    f.pattern.all (·.finds e.message)

end LogFilter

def levelTag : LogLevel → String
  | .off => "OFF  "
  | .error => "ERROR"
  | .warn => "WARN "
  | .info => "INFO "
  | .debug => "DEBUG"
  | .trace => "TRACE"

/-- An event as a line of the log; lines after its first are set in. -/
def logLine (e : Event) : String :=
  let message := String.intercalate "\n    " (e.message.splitOn "\n")
  Text.plain s!"[{levelTag e.level}] {message}\n"

end CommandLine

end ZAssembler
