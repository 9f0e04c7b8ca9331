import ZAssembler.Word

/-
  What an assembly tells of its progress. Events are kept in order; whoever runs the assembly
  decides which levels to show.
-/

namespace ZAssembler

inductive LogLevel
  | off | error | warn | info | debug | trace
  deriving DecidableEq, Repr

/-- A higher rank shows more. -/
def LogLevel.rank : LogLevel → Nat
  | off => 0
  | error => 1
  | warn => 2
  | info => 3
  | debug => 4
  | trace => 5

inductive Event
  | restarting (version pass : Nat)
  | passMeasured (pass finish fixups : Nat)
  | stillMoving (passes : Nat)
  | assembled (version bytes passes : Nat)
  | routineSettled (routine : String) (walks pass : Nat)
  | walkingAgain (routine : String) (walk : Nat)
  | labelMoved (name routine : String) (guess actual : Int32)
  | globalMoved (name : String) (old new : Int32) (pass : Nat)
  /-- A warning of the final pass, as text. -/
  | warned (text : String)
  | vocabularySorted (records start : Nat)
  | abbreviationSearch (bytes candidates : Nat)
  | nodesRead (count : Nat) (path : String)
  | storyWritten (path : String) (bytes : Nat)
  | debugWritten (records : Nat) (path : String)
  | abbreviationsSelected (count : Nat)
  deriving DecidableEq, Repr

namespace Event

def level : Event → LogLevel
  | assembled _ _ _ | storyWritten _ _ | abbreviationsSelected _ => .info
  | _ => .debug

def message : Event → String
  | restarting version pass => s!"restarting assembly for version {version} after pass {pass}"
  | passMeasured pass finish fixups =>
    s!"measuring pass {pass} ended at {hex finish} with {fixups} fixups"
  | stillMoving passes => s!"layout still moving after {passes} measuring passes"
  | assembled version bytes passes =>
    s!"assembled version {version} story: {bytes} bytes after {passes} measuring passes"
  | routineSettled routine walks pass =>
    s!"routine {routine} settled after {walks} walks in pass {pass}"
  | walkingAgain routine walk => s!"reassembling routine {routine} (walk {walk})"
  | labelMoved name routine guess actual =>
    s!"local label {name} in {routine} moved from {hexValue guess} to {hexValue actual}"
  | globalMoved name old new pass =>
    s!"{name} moved from {hexValue old} to {hexValue new} in pass {pass}"
  | warned text => text
  | vocabularySorted records start => s!"sorted {records} vocabulary records at {hex start}"
  | abbreviationSearch bytes candidates =>
    s!"abbreviation search over {bytes} bytes with {candidates} candidates"
  | nodesRead count path => s!"read {count} nodes from {path}"
  | storyWritten path bytes => s!"wrote {path} ({bytes} bytes)"
  | debugWritten records path => s!"wrote {records} debug records to {path}"
  | abbreviationsSelected count => s!"selected {count} abbreviations"

end Event

end ZAssembler
