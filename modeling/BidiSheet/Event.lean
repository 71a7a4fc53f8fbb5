import BidiSheet.Segment

/-!
# Events

What is reported while a stylesheet is reflected. An event has a level and a wording, both given once
and here.
-/

namespace BidiSheet

/-- How important a report is. -/
inductive Level where
  | trace
  | debug
  | info
  | warn
  deriving DecidableEq, Repr

/-- The name of a level. -/
def Level.name : Level → String
  | .trace => "TRACE"
  | .debug => "DEBUG"
  | .info => "INFO"
  | .warn => "WARN"

/-- Levels in the order of their importance. -/
def Level.rank : Level → Nat
  | .trace => 0
  | .debug => 1
  | .info => 2
  | .warn => 3

/-- A report about one stylesheet. -/
inductive Event where
  /-- The source was masked, with this many spans. -/
  | masked (spans : Nat)
  /-- A rule changed a declaration. -/
  | changed (change : Change)
  /-- Words were exchanged in this many urls. -/
  | urlsSwapped (urls : Nat)
  /-- The stylesheet was reflected. -/
  | reflected (substitutions declarations spans : Nat)
  deriving DecidableEq, Repr

namespace Event

/-- The level of an event. -/
def level : Event → Level
  | .reflected _ _ _ => .debug
  | _ => .trace

/-- The wording of an event. Segments are shown without the white space around them. -/
def message : Event → String
  | .masked spans => s!"protected {spans} spans"
  | .changed ⟨rule, before, after⟩ =>
    let old := String.ofList (trim before)
    let new := String.ofList (trim after)
    s!"{rule}: `{old}` -> `{new}`"
  | .urlsSwapped urls => s!"swapped directions in {urls} urls"
  | .reflected substitutions declarations spans =>
    s!"flipped {substitutions} of {declarations} declarations ({spans} protected spans)"

end Event

end BidiSheet
