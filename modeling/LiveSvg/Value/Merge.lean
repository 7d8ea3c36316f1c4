import LiveSvg.Value.Basic
/-!
Merging one object into another: objects meet member by member, anything else is replaced.
-/

namespace LiveSvg.Value

mutual

/-- What an override makes of a value. -/
def override (current : Value) : Value → Value
  | .object news =>
    match current with
    | .object olds => .object (merge olds news)
    | _ => .object news
  | v => v

/-- The members with the overriding ones merged in, new ones at the end. -/
def merge (olds : List (String × Value)) : List (String × Value) → List (String × Value)
  | [] => olds
  | (k, v) :: news =>
    match Members.get? olds k with
    | some current => merge (Members.set olds k (override current v)) news
    | none => merge (Members.set olds k v) news

end

end LiveSvg.Value
