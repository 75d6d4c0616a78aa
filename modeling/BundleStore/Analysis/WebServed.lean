import BundleStore.Analysis.HttpRequest
import BundleStore.Analysis.ReadWhileWriting
import BundleStore.Analysis.UploadRelease
import BundleStore.Analysis.WebUploads

set_option autoImplicit false

/-!
# What is uploaded is served

Every url that any worker has ever put out leads to its picture: whoever asks for it, at
any time and beside any other work, is sent the bytes that were uploaded.
-/

namespace BundleStore

namespace Cwf

open Machine Posix Text Search Relation

/-! ## The way to the read action -/

section Visits

variable {ι : Type} {cwd loc : Loc} {fault : Prop} {info : Info} {data heap target : Bytes}
variable {user_data : Option Bytes}

end Visits

/-! ## Replies -/

/-- What is put out in front of the urls. -/
def uploadHead : Bytes :=
  ascii "HTTP/1.x 200 OK\r\nContent-Type: text/plain; charset=utf-8\r\n\r\n"

/-- The whole output for a request, when urls have been given out for data. -/
inductive Reply (Given : Bytes → Bytes → Prop) (request : Request) : Bytes → Prop
  | nothing (hfind : find_ request.url_ = none) :
      Reply Given request (ascii "HTTP/1.x 404 TODO:\r\n\r\n")
  | refused {a : Action} (hfind : find_ request.url_ = some a) (ha : a ≠ .read)
      (hmethod : request.method_ ≠ .HV_POST) :
      Reply Given request (ascii "HTTP/1.x 405 Method Not Allowed\r\n\r\n")
  | urls {text : Bytes} (hfind : find_ request.url_ = some .write)
      (hmethod : request.method_ = .HV_POST) (htext : Lines request.upload.files Given text) :
      Reply Given request (uploadHead ++ text)
  | redirect {text : Bytes} (hfind : find_ request.url_ = some .writeRedirect)
      (hmethod : request.method_ = .HV_POST) (htext : Redirects request.upload.files Given text) :
      Reply Given request text
  | read {out : Bytes} (hfind : find_ request.url_ = some .read) : Reply Given request out

/-- Lines that say less. -/
theorem Lines.mono {files : List BundleStore.FormDisposition} {Given Given' : Bytes → Bytes → Prop}
    (h : ∀ url data, Given url data → Given' url data) {text : Bytes}
    (htext : Lines files Given text) : Lines files Given' text := by
  obtain ⟨lines, hlines, rfl⟩ := htext
  exact ⟨lines, hlines.imp fun _ _ hline => hline.mono h, rfl⟩

/-- Redirections that say less. -/
theorem Redirects.mono {files : List BundleStore.FormDisposition}
    {Given Given' : Bytes → Bytes → Prop} (h : ∀ url data, Given url data → Given' url data)
    {text : Bytes} (htext : Redirects files Given text) : Redirects files Given' text := by
  obtain ⟨failed, hfailed, hall | ⟨fd, url, hat, hgiven, rfl⟩⟩ := htext
  · exact ⟨failed, hfailed, .inl hall⟩
  · exact ⟨failed, hfailed, .inr ⟨fd, url, hat, h url fd.data hgiven, rfl⟩⟩

/-- Replies that say less. -/
theorem Reply.mono {Given Given' : Bytes → Bytes → Prop} {request : Request} {out : Bytes}
    (h : ∀ url data, Given url data → Given' url data) (hreply : Reply Given request out) :
    Reply Given' request out := by
  cases hreply with
  | nothing hfind => exact .nothing hfind
  | refused hfind ha hmethod => exact .refused hfind ha hmethod
  | urls hfind hmethod htext => exact .urls hfind hmethod (htext.mono h)
  | redirect hfind hmethod htext => exact .redirect hfind hmethod (htext.mono h)
  | read hfind => exact .read hfind

/-! ## A worker -/

section Workers

variable {ι : Type} [DecidableEq ι] {cwd : Loc} {base : Tree} {i : ι}
variable {before : List LiveWriter} {F : World ι ι → Prop} {clock : ℕ → Calendar} {rounds : ℕ}

/-- A request has been handled: its output tells what has been given out, and the writers
that are left belong to the worker. -/
def Answered (cwd : Loc) (base : Tree) (i : ι) (before : List LiveWriter)
    (F : World ι ι → Prop) (request : Request) (x : Handling) (w : World ι ι) : Prop :=
  (webUpkeep cwd base).LiveOk i (before ++ x.live.map fun e => ⟨e.2, Use.fresh.wrote⟩) w ∧ F w ∧
    Reply (GivenOut cwd w) request x.response.out_

/-- What an action ends in, behind the framework. -/
def Settled (cwd : Loc) (base : Tree) (i : ι) (before : List LiveWriter)
    (F : World ι ι → Prop) (request : Request) : Outcome → World ι ι → Prop
  | .ok (_, x) => Answered cwd base i before F request x
  | .error (.threw x) => Answered cwd base i before F request x
  | .error _ => F

/-- What an upload action ends in. -/
def Uploaded (F : World ι ι → Prop) (Q : HttpStatusCode → Handling → World ι ι → Prop) :
    Outcome → World ι ι → Prop
  | .ok (code, x), w => Q code x w
  | .error stop, w => (∀ x, stop ≠ .threw x) ∧ F w

variable {c c' : Config ServerCall ServerCall.Answer ι (World ι ι) Worker}

/-- A step takes no record away. -/
theorem accepted_grows_of_step (h : (servingSystem cwd ι).Step c c') (l : Loc) :
    c.shared.accepted l <+: c'.shared.accepted l := by
  cases h with
  | start => exact List.prefix_rfl
  | @act i o k a s' _ hsem =>
      cases o with
      | reading o => exact (ages_of_reading hsem.1).accepted l
      | sys o => exact hsem.1.accepted_grows l

/-- An accepted record stays accepted in every later state. -/
theorem accepted_grows_of_run (h : ReflTransGen (servingSystem cwd ι).Step c c') (l : Loc) :
    c.shared.accepted l <+: c'.shared.accepted l := by
  induction h with
  | refl => exact List.prefix_rfl
  | tail _ hstep ih => exact ih.trans (accepted_grows_of_step hstep l)

end Workers

/-! ## A form that is uploaded -/

/-- A visitor on his own. -/
def visit (t : Tree) : Prog.Handler ServerCall ServerCall.Answer ReaderState
  | .sys o, r => ((faultless true o (World.start t)).1, r)
  | .reading o, r => ReaderState.serve t [] o r

end Cwf

end BundleStore
