/-!
Binary heaps in arrays: the children of place `i` stand at `2 * i + 1` and `2 * i + 2`, and no item
is less than its parent.
-/

namespace LiveSvg.Heap

variable {α : Type}

/-- Puts an item at a place whose parents move down while they are greater. -/
def rise (less : α → α → Bool) (a : Array α) (place : Nat) (item : α) : Array α :=
  if place = 0 then a.setIfInBounds 0 item
  else
    let above := (place - 1) / 2
    match a[above]? with
    | some parent =>
      if less item parent then rise less (a.setIfInBounds place parent) above item
      else a.setIfInBounds place item
    | none => a.setIfInBounds place item
termination_by place
decreasing_by omega

/-- The lesser child of a place, the right one of two equals. -/
def lesserChild (less : α → α → Bool) (a : Array α) (place : Nat) : Option (Nat × α) :=
  match a[2 * place + 1]?, a[2 * place + 2]? with
  | some left, some right =>
    if less left right then some (2 * place + 1, left) else some (2 * place + 2, right)
  | some left, none => some (2 * place + 1, left)
  | none, _ => none

/-- Moves the lesser children of a place up as far as there are any, then lets the item rise from
where the last one stood. -/
def sink (less : α → α → Bool) (a : Array α) (fuel place : Nat) (item : α) : Array α :=
  match fuel with
  | 0 => rise less a place item
  | fuel + 1 =>
    match lesserChild less a place with
    | some (below, child) => sink less (a.setIfInBounds place child) fuel below item
    | none => rise less a place item

def push (less : α → α → Bool) (a : Array α) (item : α) : Array α :=
  rise less (a.push item) a.size item

/-- The least item, and the heap without it. -/
def pop? (less : α → α → Bool) (a : Array α) : Option (α × Array α) :=
  match a.back?, a.pop with
  | none, _ => none
  | some last, rest =>
    match rest[0]? with
    | none => some (last, rest)
    | some least => some (least, sink less rest rest.size 0 last)

end LiveSvg.Heap
