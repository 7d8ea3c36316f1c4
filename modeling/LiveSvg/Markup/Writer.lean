import LiveSvg.Markup.Basic
/-!
Writing markup: namespace declarations first, then attributes, and an element without content as
one tag.
-/

namespace LiveSvg.Markup

def escapeData (c : Char) : List Char :=
  if c = '<' then "&lt;".toList
  else if c = '>' then "&gt;".toList
  else if c = '&' then "&amp;".toList
  else if c = '\r' then "&#13;".toList
  else [c]

def escapeAttr (c : Char) : List Char :=
  if c = '\x22' then "&quot;".toList
  else if c = '\n' then "&#10;".toList
  else if c = '\t' then "&#9;".toList
  else escapeData c

/-- An address in quotation marks that it does not contain, as far as that is possible. -/
def addressChars (s : String) : List Char :=
  let cs := s.toList
  if !cs.contains '\x22' then '\x22' :: cs ++ ['\x22']
  else if !cs.contains '\x27' then '\x27' :: cs ++ ['\x27']
  else '\x22' :: cs.flatMap (fun c => if c = '\x22' then "&quot;".toList else [c]) ++ ['\x22']

def Declaration.chars (d : Declaration) : List Char :=
  let name :=
    match d.short with
    | some short => " xmlns:".toList ++ short.toList
    | none => " xmlns".toList
  name ++ '=' :: addressChars d.uri

def Attr.chars (a : Attr) : List Char :=
  ' ' :: a.name.written.toList ++ '=' :: '\x22' :: a.value.toList.flatMap escapeAttr ++ ['\x22']

/-- A start tag without its end. -/
def Head.chars (h : Head) : List Char :=
  '<' :: h.name.written.toList ++ h.declarations.flatMap Declaration.chars ++
    h.attrs.flatMap Attr.chars

def Leaf.chars : Leaf → List Char
  | .text s => s.toList.flatMap escapeData
  | .cdata s => "<![CDATA[".toList ++ s.toList ++ "]]>".toList
  | .comment s => "<!--".toList ++ s.toList ++ "-->".toList
  | .instruction target body =>
    "<?".toList ++ target.toList ++ (if body.isEmpty then [] else ' ' :: body.toList) ++ "?>".toList

/-- An element from its tag and the written form of its content, if it has any. -/
def elementChars (h : Head) (inner : Option (List Char)) : List Char :=
  match inner with
  | none => h.chars ++ ['/', '>']
  | some cs => h.chars ++ '>' :: cs ++ '<' :: '/' :: h.name.written.toList ++ ['>']

def Content.chars : Content ι → List Char
  | .nil => []
  | .leaf l rest => l.chars ++ chars rest
  | .element _ head inner rest =>
    let body :=
      match inner with
      | .nil => none
      | inner => some (chars inner)
    elementChars head body ++ chars rest

/-- The markup of an element. -/
def Element.markup (e : Element ι) : String :=
  String.ofList (elementChars e.head
    (match e.inner with
      | .nil => none
      | inner => some inner.chars))

end LiveSvg.Markup
