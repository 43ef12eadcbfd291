import GemStaging.Http.Transport
import GemStaging.Http.Url

/-!
A network answers requests for addresses with a status and a body, or refuses the connection. As a
transport it gives the body where the status says that all is well, and else a fault that says
what went wrong.
-/

namespace GemStaging.Http

structure Response where
  status : Nat
  body : Bytes
deriving DecidableEq

/-- What answers a request, given the earlier ones; none is a refused connection. -/
structure Network where
  send : List String → Url → Option Response

def statusWords (status : Nat) : String :=
  let known : List (Nat × String) :=
    [(400, "Bad Request"), (401, "Unauthorized"), (402, "Payment Required"), (403, "Forbidden"),
      (404, "Not Found"), (405, "Method Not Allowed"), (406, "Not Acceptable"),
      (407, "Proxy Authentication Required"), (408, "Request Timeout"), (409, "Conflict"),
      (410, "Gone"), (411, "Length Required"), (412, "Precondition Failed"),
      (413, "Payload Too Large"), (414, "URI Too Long"), (415, "Unsupported Media Type"),
      (416, "Range Not Satisfiable"), (417, "Expectation Failed"), (418, "I'm a teapot"),
      (421, "Misdirected Request"), (422, "Unprocessable Entity"), (423, "Locked"),
      (424, "Failed Dependency"), (426, "Upgrade Required"), (428, "Precondition Required"),
      (429, "Too Many Requests"), (431, "Request Header Fields Too Large"),
      (451, "Unavailable For Legal Reasons"), (500, "Internal Server Error"),
      (501, "Not Implemented"), (502, "Bad Gateway"), (503, "Service Unavailable"),
      (504, "Gateway Timeout"), (505, "HTTP Version Not Supported"),
      (506, "Variant Also Negotiates"), (507, "Insufficient Storage"), (508, "Loop Detected"),
      (510, "Not Extended"), (511, "Network Authentication Required")]
  ((known.find? (·.1 == status)).map (·.2)).getD "<unknown status code>"

/-- What is wrong with a status; none where it is no failure. -/
def statusFault? (status : Nat) (url : Url) : Option String :=
  let words (side : String) : String :=
    "HTTP status " ++ side ++ " error (" ++ toString status ++ " " ++ statusWords status
      ++ ") for url (" ++ url.text ++ ")"
  if 400 ≤ status && status < 500 then some (words "client")
  else if 500 ≤ status && status < 600 then some (words "server")
  else none

/-- Why a request fails, or the body that answers it. -/
def Network.request (n : Network) (earlier : List String) (address : String) :
    Except String Bytes :=
  match Url.parse? address with
  | none => .error "builder error"
  | some url =>
    if !url.isWeb then .error ("builder error for url (" ++ url.text ++ ")")
    else match n.send earlier url with
      | none => .error ("error sending request for url (" ++ url.text ++ ")")
      | some r =>
        match statusFault? r.status url with
        | some reason => .error reason
        | none => .ok r.body

def Network.transport (n : Network) : Transport where
  answer earlier address :=
    (n.request earlier address).mapError fun reason => .requestFailed address reason

def Network.closed : Network where
  send _ _ := none

end GemStaging.Http
