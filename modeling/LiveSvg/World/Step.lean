import LiveSvg.World.Create
/-!
What is done to a visual from outside, one step after another: before it is loaded, when it is, and
as long as it is there. A step that fails leaves what it has changed by then.
-/

namespace LiveSvg

open Number (Binary64)
open Script (Act Datum)

/-- What is left of a world after something has happened in it, also when it has failed. -/
def Run.after (x : Run α) (w : World) : World :=
  match x w with
  | .ok _ w => w
  | .error _ w => w

/-- What can be done to a visual, loading it apart. Code outside can do all that scripts can; the
host can change what it has at any time. -/
inductive Step where
  | set (id value : Value)
  | call (event id value : Value) (observer : Observer)
  | fire (element : Nat) (trigger event : Value)
  | script (act : Act Datum)
  | render
  | size (width height : Value)
  | resize
  | mount
  | host (change : HostState → HostState)
  | turn
  | wait (seconds : Binary64)
  | destroy

namespace Step

def run : Step → Run Unit
  | .set id value => do Run.setValue Run.play (← Run.load id) (← Run.load value)
  | .call event id value observer => do
    discard (Run.callAction (← Run.load event) (← Run.load id) (← Run.load value) observer)
  | .fire element trigger event => do
    Run.fire Run.play element (← Run.load trigger) (← Run.load event)
  | .script act => discard (Run.play act)
  | .render => Run.render Run.play
  | .size width height => Run.setSize width height
  | .resize => Run.resize
  | .mount => Run.addTo
  | .host change => Run.modifyHost change
  | .turn => discard (Run.turn Run.play)
  | .wait seconds => modify fun w => { w with clock := w.clock.advance seconds }
  | .destroy => Run.destroy

/-- What a step makes of a world. -/
def after (s : Step) (w : World) : World := Run.after s.run w

end Step

namespace World

/-- Worlds of a visual that has not been loaded yet. -/
inductive Waiting : World → Prop where
  | setup (s : Setup) : Waiting (ofSetup s)
  | step (s : Step) {w : World} : Waiting w → Waiting (s.after w)

/-- Worlds of a visual that has just been put in place; nothing of it has been shown yet. -/
def Placed (w : World) : Prop := ∃ w₀, Waiting w₀ ∧ Run.place w₀ = .ok () w

/-- Worlds that follow when a visual in place is shown. -/
inductive Follows (w₁ : World) : World → Prop where
  | present {w : World} : Run.present Run.play w₁ = .ok () w → Follows w₁ w
  | step (s : Step) {w : World} : Follows w₁ w → Follows w₁ (s.after w)

/-- What has come to pass in a world since an earlier one, the latest first. -/
def since (w w₁ : World) : List Event := w.past.take (w.past.length - w₁.past.length)

end World

end LiveSvg
