import BundleStore.Model.HttpFields
import BundleStore.Model.Multipart
import BundleStore.Model.UploadAction

set_option autoImplicit false

/-!
# The request of a FastCGI call

SOURCE: src/cwf/stream.h:27-122, src/cwf/stream.cc:126-249, src/cwf/http.cc:24-101,
src/3rdparty/libfcgi/fcgiapp.c:143-181

The environment is a list of C strings `KEY=value`. The body comes in whatever pieces
the connection delivers. Assertions are left out.
-/

namespace BundleStore

namespace Cwf

open Text

/-! ## The input stream -/

/-- An `FCGX_Stream` that is read: what its buffer still holds, what each further call of
`fillBuffProc` puts there, until one closes the stream. -/
structure InStream where
  buffer : Bytes
  fills : List Bytes
  isClosed : Bool := false

namespace InStream

/-- The general case of `FCGX_GetStr`: `n` bytes are still wanted. -/
def getLoop (n : ℕ) (buffer : Bytes) : List Bytes → Bytes × InStream
  | [] =>
      if n ≤ buffer.length ∧ buffer ≠ [] then (buffer.take n, ⟨buffer.drop n, [], false⟩)
      else (buffer, ⟨[], [], true⟩)
  | fill :: fills =>
      if n ≤ buffer.length ∧ buffer ≠ [] then (buffer.take n, ⟨buffer.drop n, fill :: fills, false⟩)
      else
        let rest := getLoop (n - buffer.length) fill fills
        (buffer ++ rest.1, rest.2)

/-- `FCGX_GetStr`. -/
def getStr (stream : InStream) (n : ℕ) : Bytes × InStream :=
  if stream.isClosed ∨ n = 0 then ([], stream)
  else if n ≤ stream.buffer.length then
    (stream.buffer.take n, { stream with buffer := stream.buffer.drop n })
  else getLoop n stream.buffer stream.fills

/-- The bytes that have not been read. -/
def text (stream : InStream) : Bytes :=
  if stream.isClosed then [] else stream.buffer ++ stream.fills.flatten

end InStream

/-! ## The request -/

/-- `strcasecmp(a, b) == 0` -/
def stricmp (a b : Bytes) : Bool :=
  a.map tolower == b.map tolower

def kHttpVerbs : List (Bytes × HttpVerb) :=
  [(ascii "GET", .HV_GET), (ascii "POST", .HV_POST), (ascii "PUT", .HV_PUT),
    (ascii "DELETE", .HV_DELETE), (ascii "CONNECT", .HV_CONNECT), (ascii "HEAD", .HV_HEAD)]

/-- `FromString(verb, str)`: an unknown word leaves the verb as it is. -/
def verbFromString (verb : HttpVerb) (str : Bytes) : HttpVerb :=
  match kHttpVerbs.find? fun e => stricmp str e.1 with
  | some e => e.2
  | none => verb

/-- `m[key] = value` -/
def StringMap.assign (m : StringMap) (key value : Bytes) : StringMap :=
  match m.lookup key with
  | some _ => m.map fun e => if e.1 = key then (key, value) else e
  | none => m ++ [(key, value)]

structure Request where
  host_ : Bytes := []
  url_ : Bytes := []
  cookie_ : Cookie := {}
  query_ : StringMap := []
  header_ : StringMap := []
  query_string_ : Bytes := []
  form_ : StringMap := []
  file_array_ : List FormDisposition := []
  method_ : HttpVerb := .HV_GET

namespace Request

/-- `header(key)`, `query(key)` and `form(key)` are empty where there is no entry. -/
def header (q : Request) (key : Bytes) : Bytes :=
  (q.header_.lookup key).getD []

def query (q : Request) (key : Bytes) : Bytes :=
  (q.query_.lookup key).getD []

def form (q : Request) (key : Bytes) : Bytes :=
  (q.form_.lookup key).getD []

/-- `get(key)`: of the query, or else of the form. -/
def get (q : Request) (key : Bytes) : Bytes :=
  if q.query key = [] then q.form key else q.query key

/-- One string of the environment. -/
def takeEnv (q : Request) (str : Bytes) : Request :=
  match splitEqual str with
  | none => q
  | some (key, value) =>
      if value = [] then q
      else if ascii "HTTP_" <+: key then
        { q with header_ := q.header_.assign (key.drop (ascii "HTTP_").length) value }
      else if key = ascii "QUERY_STRING" then { q with query_string_ := value }
      else if key = ascii "REQUEST_METHOD" then
        { q with method_ := verbFromString q.method_ value }
      else if key = ascii "REQUEST_URI" then { q with url_ := value }
      else { q with header_ := q.header_.assign key value }

/-- The loop that reads the body, `rounds` calls of `FCGX_GetStr` at most. -/
def readBody (buf_size : ℕ) : ℕ → InStream → Bytes × InStream
  | 0, stream => ([], stream)
  | rounds + 1, stream =>
      let (readed, stream) := stream.getStr buf_size
      if readed.length = buf_size then
        let rest := readBody buf_size rounds stream
        (readed ++ rest.1, rest.2)
      else (readed, stream)

/-- The part of the content type in front of a semicolon. -/
def partType (type : Bytes) : Bytes :=
  type.takeWhile (· != 59)

/-- A part without a file name is a field of the form. -/
def addPart (q : Request) (afd : FormDisposition) : Request :=
  if afd.filename = [] then { q with form_ := q.form_.insert afd.name afd.data }
  else { q with file_array_ := q.file_array_ ++ [afd] }

/-- `ParseOctetStream` -/
def parseOctetStream (_ : Bytes) : FormDisposition := {}

/-- What is made of a body. -/
def takeBody (q : Request) (data : Bytes) : Request :=
  if data = [] then q
  else
    let type := q.header (ascii "CONTENT_TYPE")
    if partType type = ascii "application/x-www-form-urlencoded" then
      { q with form_ := parseQuery data }
    else if partType type = ascii "multipart/form-data" then
      (parseMultipartForm type data).foldl addPart q
    else if partType type = ascii "application/octet-stream" then
      let fd := parseOctetStream data
      if fd.data = [] then q
      else { q with file_array_ := q.file_array_ ++ [{ fd with name := ascii "noname" }] }
    else q

/-- What is made of the environment. -/
def takeEnvs (q : Request) (envp : List Bytes) : Request :=
  let q := envp.foldl takeEnv q
  let q := { q with host_ := q.header (ascii "HOST") }
  let q := { q with cookie_ := q.cookie_.parse (q.header (ascii "COOKIE")) }
  if q.query_string_ = [] then q else { q with query_ := parseQuery q.query_string_ }

/-- `Request::Init`, of a new request: the request, and the result. The body is read with
a call for every 2048 bytes of it and one more. -/
def init (stream : InStream) (envp : List Bytes) : Request × Bool :=
  let q := takeEnvs {} envp
  let q :=
    if q.method_ = .HV_POST then
      q.takeBody (readBody 2048 (stream.text.length / 2048 + 1) stream).1
    else q
  (q, !(q.url_.isEmpty || q.host_.isEmpty || q.header_.isEmpty))

/-- What an upload handler uses of a request. -/
def upload (q : Request) : BundleStore.Request where
  method := q.method_
  files := q.file_array_.map fun fd => ⟨fd.data⟩

end Request

end Cwf

end BundleStore
