import BundleStore.Lib.Carried
import BundleStore.Lib.Search
import BundleStore.Model.Allocate
import BundleStore.Model.HttpRequest
import BundleStore.Model.ReaderCalls

set_option autoImplicit false

/-!
# The web server

SOURCE: src/cwf/frame.cc:39-137, src/cwf/stream.h:126-210, src/cwf/stream.cc:452-478,
src/bundle/bundleaction.cc:13-173

A request is routed to the first action that matches its url, and the action and the
framework write to the output stream. The upload actions are those of
`BundleStore.Model.UploadAction`, their calls carried out by the bundle code. What a
request does not come to the end of is told by why.
-/

namespace BundleStore

namespace Cwf

open Machine Search Text

/-! ## Responses -/

inductive HttpStatusCode
  | HC_OK
  | HC_FOUND
  | HC_BAD_REQUEST
  | HC_UNAUTHORIZED
  | HC_NOT_FOUND
  | HC_METHOD_NOT_ALLOWED
  | HC_NOT_ACCEPTABLE
  | HC_PROXY_AUTHENTICATION_REQUIRED
  deriving DecidableEq

def HttpStatusCode.value : HttpStatusCode → ℕ
  | HC_OK => 200
  | HC_FOUND => 302
  | HC_BAD_REQUEST => 400
  | HC_UNAUTHORIZED => 401
  | HC_NOT_FOUND => 404
  | HC_METHOD_NOT_ALLOWED => 405
  | HC_NOT_ACCEPTABLE => 406
  | HC_PROXY_AUTHENTICATION_REQUIRED => 407

/-- The codes of the upload actions. -/
def statusCode : BundleStore.HttpStatusCode → HttpStatusCode
  | .HC_OK => .HC_OK
  | .HC_FOUND => .HC_FOUND
  | .HC_METHOD_NOT_ALLOWED => .HC_METHOD_NOT_ALLOWED

/-- `ToString(header)` -/
def headerName : HttpHeader → Bytes
  | .HH_CONTENT_LENGTH => ascii "Content-Length"
  | .HH_CONTENT_TYPE => ascii "Content-Type"
  | .HH_LOCATION => ascii "Location"

/-- `Header`, whose code is not set at first. -/
structure Header where
  list_ : List (HttpHeader × Bytes) := []
  hc_ : HttpStatusCode := .HC_OK
  message_ : Bytes := []

namespace Header

def add (header : Header) (hh : HttpHeader) (value : Bytes) : Header :=
  { header with list_ := header.list_ ++ [(hh, value)] }

def setStatusCode (header : Header) (hc : HttpStatusCode) (message : Bytes) : Header :=
  { header with hc_ := hc, message_ := message }

/-- `Header::Write` -/
def write (header : Header) : Bytes :=
  ascii "HTTP/1.x " ++ decimal header.hc_.value ++ ascii " " ++ header.message_ ++ crlf ++
    (header.list_.flatMap fun i => headerName i.1 ++ ascii ": " ++ i.2 ++ crlf) ++ crlf

end Header

/-- `Response`, with what has been put into its output stream. -/
structure Response where
  header_ : Header := {}
  out_ : Bytes := []

namespace Response

def writeRaw (response : Response) (text : Bytes) : Response :=
  { response with out_ := response.out_ ++ text }

def outputHeader (response : Response) : Response :=
  response.writeRaw response.header_.write

def writeRawWithHeader (response : Response) (buf : Bytes) : Response :=
  response.writeRaw (response.header_.write ++ buf)

def setStatusCode (response : Response) (hc : HttpStatusCode) (message : Bytes) : Response :=
  { response with header_ := response.header_.setStatusCode hc message }

def add (response : Response) (hh : HttpHeader) (value : Bytes) : Response :=
  { response with header_ := response.header_.add hh value }

end Response

/-! ## What the actions call -/

/-- The calls of the writer's code and those of the reader's code. -/
inductive ServerCall
  | sys (o : SysCall)
  | reading (o : ReadCall)

@[reducible] def ServerCall.Answer : ServerCall → Type
  | sys o => o.Answer
  | reading o => o.Answer

abbrev Serving : Type → Type := Prog ServerCall ServerCall.Answer

namespace Serving

def sys {α : Type} (p : Sys α) : Serving α :=
  p.embed ServerCall.sys fun _ => Equiv.refl _

def reading {α : Type} (p : Reading α) : Serving α :=
  p.embed ServerCall.reading fun _ => Equiv.refl _

end Serving

/-- A local time within the four digits of its year. -/
structure Calendar where
  tm : Tm
  year_lt : tm.tm_year + 1900 < 10000
  mon_lt : tm.tm_mon < 12
  mday_lt : tm.tm_mday < 32

/-- An upload while it is served: how often the clock has been read, how many writers
`Allocate` has returned, those that have not been deleted, and the response. `refused`,
`returns` and `deleted` record history, nothing reads them: how often `Allocate` has returned
NULL, what each `Write` has returned, and the writers in the order in which they were
deleted. -/
structure Handling where
  clocked : ℕ := 0
  allocated : ℕ := 0
  live : List (ℕ × Writer) := []
  response : Response := {}
  refused : ℕ := 0
  returns : List ℤ := []
  deleted : List ℕ := []

/-- Why an action does not come to its end: an exception, with what had been done; a call
that is not defined; or an `Allocate` that has not returned. -/
inductive Stop
  | threw (handling : Handling)
  | undefined
  | allocating

/-- How the calls of an upload action are carried out. An `Allocate` makes at most `rounds`
passes of its loop. -/
def carryOut (setting : Setting) (clock : ℕ → Calendar) (rounds : ℕ) :
    (o : UploadCall) → Handling → Serving (Except Stop (o.Answer × Handling))
  | .localtime, x => pure (.ok ((clock x.clocked).tm, { x with clocked := x.clocked + 1 }))
  | .allocate prefix_ postfix_ size storage, x => do
      match ← Serving.sys (allocate setting { prefix_, postfix_, size, storage } rounds) with
      | none => pure (.error .allocating)
      | some none => pure (.ok (none, { x with refused := x.refused + 1 }))
      | some (some writer) =>
          pure (.ok (some ⟨x.allocated, writer⟩,
            { x with allocated := x.allocated + 1, live := x.live ++ [(x.allocated, writer)] }))
  | .write aw content, x => do
      match ← Serving.sys (aw.writer.write content none) with
      | .returned ret _ => pure (.ok (ret, { x with returns := x.returns ++ [ret] }))
      | .threw => pure (.error (.threw x))
      | .overran => pure (.error .undefined)
  | .delete aw, x => do
      let _ ← Serving.sys aw.writer.release
      pure (.ok ((), { x with
        live := x.live.filter fun e => e.1 ≠ aw.ptr
        deleted := x.deleted ++ [aw.ptr] }))
  | .set_status_code code message, x =>
      pure (.ok ((), { x with response := x.response.setStatusCode (statusCode code) message }))
  | .addHeader header value, x =>
      pure (.ok ((), { x with response := x.response.add header value }))
  | .outputHeader, x => pure (.ok ((), { x with response := x.response.outputHeader }))
  | .writeRaw text, x => pure (.ok ((), { x with response := x.response.writeRaw text }))

/-! ## The actions -/

inductive Action
  | write
  | read
  | writeRedirect
  deriving DecidableEq

/-- `Match` -/
def Action.matches (a : Action) (url : Bytes) : Bool :=
  match a with
  | write => (find url (ascii "bundle") 0).isSome
  | read => find url (ascii "/p/") 0 == some 0
  | writeRedirect => (find url (ascii "/upload") 0).isSome

/-- What an action returns, with the response and the writers that are left. -/
abbrev Outcome : Type := Except Stop (HttpStatusCode × Handling)

/-- An upload action with its calls carried out. -/
def uploadAction (setting : Setting) (clock : ℕ → Calendar) (rounds : ℕ)
    (action : Upload ProcessResult) : Serving Outcome := do
  match ← action.carry (carryOut setting clock rounds) {} with
  | .error stop => pure (.error stop)
  | .ok (.calledOnNull, _) => pure (.error .undefined)
  | .ok (.returned code, x) => pure (.ok (statusCode code, x))

def kImageType : Bytes := ascii "image/jpeg"

/-- The response of `ReadAction::Process` when `Read` has returned `ret` and `buf`.
SOURCE: bundleaction.cc:146-159 -/
def readReply (ret : ℤ) (buf : Bytes) : HttpStatusCode × Response :=
  if ret = 0 then
    let sz := UploadAction.snprintf 16 (decimalInt (int32 buf.length))
    (.HC_OK, ((({} : Response).setStatusCode .HC_OK (ascii "OK")).add .HH_CONTENT_TYPE
      kImageType).add .HH_CONTENT_LENGTH sz |>.writeRawWithHeader buf)
  else
    (.HC_NOT_FOUND, (({} : Response).setStatusCode .HC_NOT_FOUND (ascii "Not Found")).outputHeader)

/-- `ReadAction::Process`. -/
def readAction (setting : Setting) (url : Bytes) : Serving Outcome := do
  match ← Serving.reading
      (Reader.readUrl setting (url.drop 1) UploadAction.the_storage_ none) with
  | .threw => pure (.error (.threw {}))
  | .returned ret buf _ =>
      let reply := readReply ret (buf.getD [])
      pure (.ok (reply.1, { response := reply.2 }))

/-- `Process` of an action. -/
def Action.process (setting : Setting) (clock : ℕ → Calendar) (rounds : ℕ) (request : Request) :
    Action → Serving Outcome
  | write => uploadAction setting clock rounds (UploadAction.writeAction request.upload)
  | read => readAction setting request.url_
  | writeRedirect =>
      uploadAction setting clock rounds (UploadAction.writeRedirectAction request.upload)

/-! ## The framework -/

/-- The actions in the order in which they are registered.
SOURCE: bundleaction.cc:163-167 -/
def host_action_ : List Action := [.write, .read, .writeRedirect]

/-- `Find` -/
def find_ (url : Bytes) : Option Action :=
  host_action_.find? fun a => a.matches url

def kDefaultMessage : List (HttpStatusCode × Bytes) :=
  [(.HC_BAD_REQUEST, ascii "Bad Request"), (.HC_UNAUTHORIZED, ascii "Unauthorized"),
    (.HC_METHOD_NOT_ALLOWED, ascii "Method Not Allowed"),
    (.HC_NOT_ACCEPTABLE, ascii "Not Acceptable"),
    (.HC_PROXY_AUTHENTICATION_REQUIRED, ascii "Proxy Authentication Required"),
    (.HC_OK, ascii "OK")]

/-- `ResponseError`, without a message of its own. -/
def responseError (response : Response) (code : HttpStatusCode) : Response :=
  let message := (kDefaultMessage.lookup code).getD (ascii "TODO:")
  (response.setStatusCode code message).outputHeader

/-- What is done with the code that an action returns. -/
def finish (rc : HttpStatusCode) (x : Handling) : Handling :=
  if rc ≠ .HC_OK then { x with response := responseError x.response rc } else x

/-- What `FrameWork::Process` does behind an action. -/
def settle : Outcome → Serving Outcome
  | .error stop => pure (.error stop)
  | .ok (rc, x) => pure (.ok (rc, finish rc x))

/-- `FrameWork::Process`. -/
def process (setting : Setting) (clock : ℕ → Calendar) (rounds : ℕ) (request : Request) :
    Serving Outcome :=
  match find_ request.url_ with
  | none => pure (.ok (.HC_NOT_FOUND, finish .HC_NOT_FOUND {}))
  | some a => a.process setting clock rounds request >>= settle

/-- What a call leaves in the end: its whole output with the writers that are left. An
exception ends it early. -/
inductive Served
  | output (out : Bytes) (live : List (ℕ × Writer))
  | stopped

/-- A round of `FastcgiProc` behind `FCGX_Accept_r`. The result of `Init` is only logged. -/
def fastcgiRound (setting : Setting) (clock : ℕ → Calendar) (rounds : ℕ) (stream : InStream)
    (envp : List Bytes) : Serving Served := do
  let q := (Request.init stream envp).1
  match ← process setting clock rounds q with
  | .error (.threw x) => pure (.output x.response.out_ x.live)
  | .error .undefined | .error .allocating => pure .stopped
  | .ok (_, x) => pure (.output x.response.out_ x.live)

end Cwf

end BundleStore
