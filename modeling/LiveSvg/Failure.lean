/-!
Failures that a script, a host or an operation can end in: the cause, and the text that it shows.
-/

namespace LiveSvg

/-- What went wrong. -/
inductive Cause where
  | wrongType
  | wrongValue
  | noAttribute
  | noKey
  | noIndex
  | noName
  | unassigned
  | zeroDivision
  | overflow
  | undefinedDecimal
  | decimalOverflow
  | invalidSettings
  | notProvided
  | stackExhausted
  | general
  | undecodable
  | noFile
  | isDirectory
  | notDirectory
  | invalidAddress
  | unknownScheme
  | transport
  | acquisition
  | dispatch
  | descriptor
  | illFormed
  deriving DecidableEq

/-- A failure with the text that it shows. -/
structure Failure where
  cause : Cause
  message : String
  deriving DecidableEq

namespace Failure

def wrongType (message : String) : Failure := ⟨.wrongType, message⟩

def wrongValue (message : String) : Failure := ⟨.wrongValue, message⟩

def noAttribute (kind name : String) : Failure :=
  ⟨.noAttribute, "'" ++ kind ++ "' object has no attribute '" ++ name ++ "'"⟩

/-- The failure of what needs something that is not there yet. -/
def absent (name : String) : Failure := noAttribute "NoneType" name

def hugeInteger : Failure :=
  wrongValue "Exceeds the limit (4300 digits) for integer string conversion"

end Failure

end LiveSvg
