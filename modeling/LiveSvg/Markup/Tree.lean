import LiveSvg.Markup.Scope
/-!
Trees whose elements are known by labels: finding one with the scope around it, finding its parent,
and replacing one.
-/

namespace LiveSvg.Markup

namespace Content

/-- The element with a label, and the frames around it. -/
def find? (id : Nat) (around : Scope) : Content Nat → Option (Scope × Element Nat)
  | .nil => none
  | .leaf _ rest => find? id around rest
  | .element i head inner rest =>
    if i = id then some (around, ⟨i, head, inner⟩)
    else
      match find? id (head.frame :: around) inner with
      | some found => some found
      | none => find? id around rest

/-- The element that the one with a label stands in. -/
def parent? (id : Nat) (around : Element Nat) : Content Nat → Option (Element Nat)
  | .nil => none
  | .leaf _ rest => parent? id around rest
  | .element i head inner rest =>
    if i = id then some around
    else
      match parent? id ⟨i, head, inner⟩ inner with
      | some found => some found
      | none => parent? id around rest

/-- Replaces the element with a label; the label stays. -/
def update (id : Nat) (f : Head → Content Nat → Head × Content Nat) : Content Nat → Content Nat
  | .nil => .nil
  | .leaf l rest => .leaf l (update id f rest)
  | .element i head inner rest =>
    if i = id then
      let (head, inner) := f head inner
      .element i head inner (update id f rest)
    else .element i head (update id f inner) (update id f rest)

end Content

namespace Element

def find? (id : Nat) (e : Element Nat) : Option (Scope × Element Nat) :=
  if e.id = id then some ([], e) else e.inner.find? id [e.head.frame]

def parent? (id : Nat) (e : Element Nat) : Option (Element Nat) :=
  if e.id = id then none else e.inner.parent? id e

def update (id : Nat) (f : Head → Content Nat → Head × Content Nat) (e : Element Nat) :
    Element Nat :=
  if e.id = id then
    let (head, inner) := f e.head e.inner
    ⟨e.id, head, inner⟩
  else { e with inner := e.inner.update id f }

end Element

end LiveSvg.Markup
