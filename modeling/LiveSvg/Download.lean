import LiveSvg.Log
import LiveSvg.Download.Address
/-!
Fetching documents over HTTP: relative addresses are taken from a base, and only an answer of the
two hundreds is a document.
-/

namespace LiveSvg.Download

open Number

/-- The kinds of text asked for. -/
def accepted : String := "image/svg+xml, text/plain"

def dropSlashesRight (cs : List Char) : List Char := (cs.reverse.dropWhile (· == '/')).reverse

/-- The address to ask: a full one as it is, any other below the base. -/
def resolve (base url : String) : String :=
  if url.startsWith "http://" || url.startsWith "https://" || base.isEmpty then url
  else
    String.ofList (dropSlashesRight base.toList ++ '/' :: url.toList.dropWhile (· == '/'))

/-- What comes back from a host. -/
inductive Reply where
  | answer (status : Nat) (body : String)
  | failure (message : String)

/-- The standard phrase of a status, if it has one. -/
def phrase : Nat → String
  | 100 => "Continue"
  | 101 => "Switching Protocols"
  | 102 => "Processing"
  | 103 => "Early Hints"
  | 200 => "OK"
  | 201 => "Created"
  | 202 => "Accepted"
  | 203 => "Non-Authoritative Information"
  | 204 => "No Content"
  | 205 => "Reset Content"
  | 206 => "Partial Content"
  | 207 => "Multi-Status"
  | 208 => "Already Reported"
  | 226 => "IM Used"
  | 300 => "Multiple Choices"
  | 301 => "Moved Permanently"
  | 302 => "Found"
  | 303 => "See Other"
  | 304 => "Not Modified"
  | 305 => "Use Proxy"
  | 307 => "Temporary Redirect"
  | 308 => "Permanent Redirect"
  | 400 => "Bad Request"
  | 401 => "Unauthorized"
  | 402 => "Payment Required"
  | 403 => "Forbidden"
  | 404 => "Not Found"
  | 405 => "Method Not Allowed"
  | 406 => "Not Acceptable"
  | 407 => "Proxy Authentication Required"
  | 408 => "Request Timeout"
  | 409 => "Conflict"
  | 410 => "Gone"
  | 411 => "Length Required"
  | 412 => "Precondition Failed"
  | 413 => "Request Entity Too Large"
  | 414 => "Request-URI Too Long"
  | 415 => "Unsupported Media Type"
  | 416 => "Requested Range Not Satisfiable"
  | 417 => "Expectation Failed"
  | 418 => "I'm a teapot"
  | 421 => "Misdirected Request"
  | 422 => "Unprocessable Entity"
  | 423 => "Locked"
  | 424 => "Failed Dependency"
  | 425 => "Too Early"
  | 426 => "Upgrade Required"
  | 428 => "Precondition Required"
  | 429 => "Too Many Requests"
  | 431 => "Request Header Fields Too Large"
  | 451 => "Unavailable For Legal Reasons"
  | 500 => "Internal Server Error"
  | 501 => "Not Implemented"
  | 502 => "Bad Gateway"
  | 503 => "Service Unavailable"
  | 504 => "Gateway Timeout"
  | 505 => "HTTP Version Not Supported"
  | 506 => "Variant Also Negotiates"
  | 507 => "Insufficient Storage"
  | 508 => "Loop Detected"
  | 510 => "Not Extended"
  | 511 => "Network Authentication Required"
  | _ => ""

def fetchFailure (url reason : String) : Failure :=
  ⟨.transport, "Failed to fetch " ++ url ++ ": " ++ reason⟩

/-- The document in a reply to a request for the address, and what is logged. -/
def document (url : String) : Reply → Except Failure String × Log
  | .failure message =>
    (.error (fetchFailure url message),
      [Log.warning ("http_source: failed to fetch " ++ url ++ ": " ++ message)])
  | .answer status body =>
    if 200 ≤ status ∧ status < 300 then (.ok body, [])
    else
      let code := intText status
      (.error (fetchFailure url (code ++ " " ++ phrase status)),
        [Log.warning ("http_source: " ++ url ++ " answered " ++ code)])

/-- A request: the addresses asked for, the document or the failure, and what is logged. -/
structure Exchange where
  asked : List String
  result : Except Failure String
  log : Log

/-- Asks for the document of an address. An answer counts only if the address names a host. -/
def fetch (url : String) (reply : Reply) : Exchange :=
  match Address.read? url with
  | none => ⟨[], .error (Address.invalid url), []⟩
  | some address =>
    let (result, log) :=
      match reply, address.isAbsolute with
      | .answer _ _, false => (.error ⟨.unknownScheme, "No scheme: " ++ url⟩, [])
      | _, _ => document url reply
    ⟨[address.text], result, log⟩

end LiveSvg.Download
