import BundleStore.Model.Record

set_option autoImplicit false

/-!
# The upload handlers

SOURCE: src/bundle/bundleaction.cc:13-124

The two handlers of uploads are programs over what they call: the clock,
`Allocate`, `Write` and `delete` on the writers they get, and the response. Every
writer on the heap has its place in the order of the `Allocate`s as its pointer.
-/

namespace BundleStore

open Text

inductive HttpVerb
  | HV_GET
  | HV_POST
  | HV_PUT
  | HV_DELETE
  | HV_CONNECT
  | HV_HEAD
  deriving DecidableEq

inductive HttpStatusCode
  | HC_OK
  | HC_FOUND
  | HC_METHOD_NOT_ALLOWED
  deriving DecidableEq

inductive HttpHeader
  | HH_CONTENT_LENGTH
  | HH_CONTENT_TYPE
  | HH_LOCATION
  deriving DecidableEq

/-- One uploaded file; its name and type are not used. -/
structure FormDisposition where
  data : Bytes

structure Request where
  method : HttpVerb
  files : List FormDisposition

/-- The fields of the local time that a prefix is made of. -/
structure Tm where
  tm_year : ℕ
  tm_mon : ℕ
  tm_mday : ℕ

/-- A writer that `Allocate` returned. -/
structure WriterPtr where
  ptr : ℕ
  writer : Writer

inductive UploadCall
  | localtime
  | allocate (prefix_ postfix_ : Bytes) (size : ℕ) (storage : Bytes)
  | write (aw : WriterPtr) (content : Bytes)
  | delete (aw : WriterPtr)
  | set_status_code (code : HttpStatusCode) (message : Bytes)
  | addHeader (header : HttpHeader) (value : Bytes)
  | outputHeader
  | writeRaw (text : Bytes)

@[reducible] def UploadCall.Answer : UploadCall → Type
  | localtime => Tm
  | allocate _ _ _ _ => Option WriterPtr
  | write _ _ => ℤ
  | delete _ | set_status_code _ _ | addHeader _ _ | outputHeader | writeRaw _ => Unit

abbrev Upload : Type → Type := Prog UploadCall UploadCall.Answer

namespace Upload

abbrev call (o : UploadCall) : Upload o.Answer := Prog.op o
abbrev localtime : Upload Tm := call .localtime
abbrev allocate (prefix_ postfix_ : Bytes) (size : ℕ) (storage : Bytes) :
    Upload (Option WriterPtr) :=
  call (.allocate prefix_ postfix_ size storage)
abbrev write (aw : WriterPtr) (content : Bytes) : Upload ℤ := call (.write aw content)
abbrev delete (aw : WriterPtr) : Upload Unit := call (.delete aw)
abbrev set_status_code (code : HttpStatusCode) (message : Bytes) : Upload Unit :=
  call (.set_status_code code message)
abbrev addHeader (header : HttpHeader) (value : Bytes) : Upload Unit :=
  call (.addHeader header value)
abbrev outputHeader : Upload Unit := call .outputHeader
abbrev writeRaw (text : Bytes) : Upload Unit := call (.writeRaw text)

end Upload

/-- How `Process` ends: with a status code, or in a call of a method on NULL,
after which nothing is defined. -/
inductive ProcessResult
  | returned (code : HttpStatusCode)
  | calledOnNull
  deriving DecidableEq

namespace UploadAction

/-- A number with at least `width` digits, as `%04d` and `%02d` print it. -/
def padded (width n : ℕ) : Bytes :=
  List.replicate (width - (decimal n).length) 48 ++ decimal n

/-- What `snprintf` leaves in an array of `size` characters. -/
def snprintf (size : ℕ) (text : Bytes) : Bytes :=
  text.take (size - 1)

/-- The prefix of the day, like `p/20120512`. -/
def dayPrefix (ts : Tm) : Bytes :=
  snprintf 32 (ascii "p/" ++ padded 4 (ts.tm_year + 1900) ++ padded 2 (ts.tm_mon + 1) ++
    padded 2 ts.tm_mday)

def kDefaultContentType : Bytes := ascii "text/plain; charset=utf-8"

def the_storage_ : Bytes := ascii "test"

/-- The loop of `WriteAction::Process` over the files. -/
def writeFiles : List FormDisposition → Upload ProcessResult
  | [] => pure (.returned .HC_OK)
  | fd :: files => do
      let ts ← Upload.localtime
      match ← Upload.allocate (dayPrefix ts) (ascii ".jpg") fd.data.length the_storage_ with
      | none => pure .calledOnNull
      | some aw =>
          let ret ← Upload.write aw fd.data
          if ret = 0 then
            let url := aw.writer.ensureUrl
            Upload.writeRaw (url ++ [10])
          else
            Upload.writeRaw (ascii "failed " ++ decimalInt ret)
          Upload.delete aw
          writeFiles files

/-- `WriteAction::Process`. -/
def writeAction (request : Request) : Upload ProcessResult :=
  if request.method ≠ .HV_POST then pure (.returned .HC_METHOD_NOT_ALLOWED)
  else do
    Upload.set_status_code .HC_OK (ascii "OK")
    Upload.addHeader .HH_CONTENT_TYPE kDefaultContentType
    Upload.outputHeader
    writeFiles request.files

/-- The loop of `WriteRedirectAction::Process`, which the first file that was
written ends. -/
def writeFirstFile : List FormDisposition → Upload ProcessResult
  | [] => pure (.returned .HC_OK)
  | fd :: files => do
      let ts ← Upload.localtime
      match ← Upload.allocate (dayPrefix ts) (ascii ".jpg") fd.data.length the_storage_ with
      | none => pure .calledOnNull
      | some aw =>
          let ret ← Upload.write aw fd.data
          if ret = 0 then
            Upload.set_status_code .HC_FOUND (ascii "Found")
            Upload.addHeader .HH_CONTENT_TYPE kDefaultContentType
            Upload.addHeader .HH_CONTENT_LENGTH (ascii "0")
            let sz := snprintf 256 (ascii "/" ++ cstr aw.writer.ensureUrl)
            Upload.addHeader .HH_LOCATION sz
            Upload.outputHeader
            pure (.returned .HC_OK)
          else
            Upload.writeRaw (ascii "failed " ++ decimalInt ret)
            Upload.delete aw
            writeFirstFile files

/-- A file, as both loops begin with it. -/
def uploadFile (fd : FormDisposition) (rest : WriterPtr → ℤ → Upload ProcessResult) :
    Upload ProcessResult := do
  let ts ← Upload.localtime
  match ← Upload.allocate (dayPrefix ts) (ascii ".jpg") fd.data.length the_storage_ with
  | none => pure .calledOnNull
  | some aw =>
      let ret ← Upload.write aw fd.data
      rest aw ret

/-- `WriteRedirectAction::Process`. -/
def writeRedirectAction (request : Request) : Upload ProcessResult :=
  if request.method ≠ .HV_POST then pure (.returned .HC_METHOD_NOT_ALLOWED)
  else writeFirstFile request.files

end UploadAction

end BundleStore
