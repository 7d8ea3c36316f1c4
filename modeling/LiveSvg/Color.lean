import LiveSvg.Script.Compile
import LiveSvg.Settings.Field
/-!
Colors that follow a value: constant, by the range that a number lies in, or computed by a script.
-/

namespace LiveSvg

open Number (Binary64)
open Settings (field? required? optional? text? float? members?)

/-- A color for the numbers from one bound up to another; a missing bound does not limit. -/
structure ColorRange where
  low : Option Binary64
  high : Option Binary64
  color : String

inductive ColorKind where
  | constant | range | function
  deriving DecidableEq

/-- The color of what has none of its own. -/
def defaultColor : String := "#000"

structure ColorSettings where
  kind : ColorKind := .constant
  color : String := defaultColor
  ranges : List ColorRange := []
  function : Option String := none

namespace ColorRange

def ofValue? (v : Value) : Option ColorRange := do
  let ms ← members? v
  return {
    low := ← field? ms "from" "from_" (optional? float?) none
    high := ← field? ms "to" "to" (optional? float?) none
    color := ← required? ms "color" "color" text? }

/-- A range takes a number unless one of its bounds rules it out. -/
def admits (r : ColorRange) (x : Value.Numeric) : Bool :=
  let below := r.low.map fun low => x.compare? (.float low) == some .lt
  let beyond := r.high.map fun high => ((x.compare? (.float high)).map (· != .lt)).getD false
  !below.getD false && !beyond.getD false

end ColorRange

namespace ColorKind

def ofValue? : Value → Option ColorKind
  | .text "constant" => some .constant
  | .text "range" => some .range
  | .text "function" => some .function
  | _ => none

def name : ColorKind → String
  | .constant => "constant"
  | .range => "range"
  | .function => "function"

end ColorKind

namespace ColorSettings

def rangesOf? : Value → Option (List ColorRange)
  | .list items => items.mapM ColorRange.ofValue?
  | _ => none

def ofValue? (v : Value) : Option ColorSettings := do
  let ms ← members? v
  let d : ColorSettings := {}
  return {
    kind := ← field? ms "type" "type" ColorKind.ofValue? d.kind
    color := ← field? ms "color" "color" text? d.color
    ranges := ← field? ms "rangeList" "range_list" rangesOf? d.ranges
    function := ← field? ms "colorFunction" "color_function" (optional? text?) d.function }

/-- The color for a number: that of the first range which takes it. -/
def rangeColor (s : ColorSettings) (x : Value.Numeric) : String :=
  match s.ranges.find? (·.admits x) with
  | some r => r.color
  | none => s.color

end ColorSettings

/-- A color that has followed values so far. -/
structure Color where
  settings : ColorSettings
  program : Option Script.Program
  current : Script.Datum

namespace Color

open Script

/-- The program of a color that is computed. -/
def programOf (s : ColorSettings) : Log × Option Program :=
  match s.kind with
  | .function =>
    match s.function with
    | some source =>
      let (log, p) := Program.ofSource source ["value"] "color_function"
      (log, some p)
    | none => ([], some (Program.idle ["value"] "color_function"))
  | _ => ([], none)

def ofSettings (s : ColorSettings) : Log × Color :=
  let (log, program) := programOf s
  (log, { settings := s, program, current := .text s.color })

def constant (color : String) : Color := (ofSettings { color }).2

/-- The color that settings ask for, the default one where there are none. -/
def ofValue? (v : Value) : Option (Log × Color) :=
  match v with
  | .null => some ([], constant defaultColor)
  | v => (ColorSettings.ofValue? v).map ofSettings

/-- The number that a range is asked for: a truth value is none. -/
def number? : Datum → Option Value.Numeric
  | .int n => some (.int n)
  | .float x => some (.float x)
  | _ => none

/-- The color for a value. -/
def colorFor (c : Color) (value : Datum) : Act Datum :=
  match c.settings.kind, c.program with
  | .range, _ => .done (.text (((number? value).map c.settings.rangeColor).getD c.settings.color))
  | _, some p => do
    let d ← p.call [value]
    return if (← Act.view).truthy d then d else .text c.settings.color
  | _, none => .done c.current

end Color

end LiveSvg
