import LiveSvg.Failure
import LiveSvg.Settings.Models
import LiveSvg.Text.Uppercase
import LiveSvg.Value.Shown
/-!
The host of a visual: what it can be asked for, how it names things, and how failures read.
-/

namespace LiveSvg

/-- What a visual asks its host for. -/
inductive Host.Service where
  | fetch | acquire | send | makeGetter | makeSetter | widgetAction
  deriving DecidableEq

namespace Host

/-- The failure of a service that a host does not provide. -/
def notProvided (_ : Service) : Failure := ⟨.notProvided, ""⟩

/-- What something is called by a host without names of its own. -/
def plainName (name : String) : String := name

/-- The text of what was raised with arguments; a lone missing key is shown in notation. -/
def raisedText (cause : Cause) : List Value → String
  | [] => ""
  | [v] => if cause = .noKey then v.notated else v.shown
  | args => "(" ++ ", ".intercalate (args.map Value.notated) ++ ")"

/-- What can be reported as an error: a value, or what was raised with a text and maybe a message. -/
inductive Problem where
  | value (v : Value)
  | raised (text : String) (message : Option String)

/-- The message in a problem, which may be empty. -/
def Problem.text : Problem → String
  | .value .null => ""
  | .value (.object ms) =>
    match Value.Members.get? ms "message" with
    | some v => if v.truthy then v.shown else ""
    | none => ""
  | .value v => v.shown
  | .raised text message =>
    match message with
    | some m => if m.isEmpty then text else m
    | none => text

/-- What stands for a message that says nothing. -/
def unknown : String := "Unknown Error"

/-- The message for a problem, never an empty one. -/
def message (p : Problem) : String := if p.text.isEmpty then unknown else p.text

/-- The message for a failure. -/
def failureMessage (f : Failure) : String := message (.raised f.message none)

/-- How many milliseconds a host takes for a name; others are answered at once. -/
abbrev Delays := List (String × Value)

/-- Whether labels are shown in the reader's words, here capitals in brackets, or as they are. -/
structure Naming where
  isTranslated : Bool := false

/-- The text of a property as the host shows it; only texts can be translated. -/
def Naming.label (n : Naming) (v : Value) : Except Failure Value :=
  if n.isTranslated then
    match v with
    | .text s => .ok (.text ("[" ++ Text.uppercase s ++ "]"))
    | _ => .error (Failure.noAttribute "value" "upper")
  else .ok v

end Host

end LiveSvg
