import LiveSvg.Script.Compile
import LiveSvg.Settings.Resolve
/-!
All programs of one descriptor: that of the whole visual, one for each tag, and one for each action
of a tag.
-/

namespace LiveSvg.Script

open Settings (Table)

/-- The actions of a tag by their triggers. -/
abbrev Actions := List (String × Program)

structure Programs where
  root : Program
  renders : Table Program := []
  actions : Table Actions := []

namespace Programs

def rootParams : List String := ["svg", "ctx"]

def renderParams : List String := ["element", "ctx"]

def actionParams : List String := ["event", "ctx"]

/-- A program, once what its compiling has to say is in the log. -/
def compile (source : Value) (params : List String) (name : String) : Logging Program := do
  let (log, p) ← Program.ofScript source params name
  modify (· ++ log)
  return p

def compileActions (tag : String) : List (String × Value) → Logging Actions
  | [] => return []
  | (trigger, source) :: rest => do
    let p ← compile source actionParams (tag ++ "_" ++ trigger)
    return (trigger, p) :: (← compileActions tag rest)

def compileTag (ps : Programs) (t : Tag) : Logging Programs := do
  let name := t.name.shown
  let render ← compile t.render renderParams (name ++ "_render")
  let ps := { ps with renders := Table.set ps.renders t.name render }
  match t.actions with
  | none => return ps
  | some [] => return ps
  | some sources =>
    return { ps with actions := Table.set ps.actions t.name (← compileActions name sources) }

/-- The programs of a descriptor. -/
def ofDescriptor (d : Descriptor) : Logging Programs := do
  let root ← compile d.render rootParams "state_render"
  d.tags.foldlM compileTag { root }

end Programs

end LiveSvg.Script
