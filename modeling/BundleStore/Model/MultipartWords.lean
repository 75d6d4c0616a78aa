import BundleStore.Lib.Logged
import BundleStore.Model.Multipart

set_option autoImplicit false

/-!
# Multipart forms in machine words

SOURCE: src/cwf/stream.cc:281-401

The functions of `BundleStore.Model.Multipart` once more, with the positions as `size_t`: `find`
returns `npos`, additions and subtractions wrap, `substr` throws behind the end of its string.
A loop is given a number of rounds. The log has what the loops visit and what `substr` is called
with.
-/

namespace BundleStore

namespace Cwf

namespace Words

open Text

/-- A string in memory; its `max_size()` is the largest `ptrdiff_t`. -/
structure StdString where
  bytes : Bytes
  length_lt : bytes.length < 2 ^ 63

def npos : UInt64 := -1

inductive Event
  /-- A round of a loop begins at the position. -/
  | visit (pos : UInt64)
  /-- `substr` begins at `start` in a string of `size` bytes. -/
  | cut (size : ℕ) (start : UInt64)
  /-- The length `stop - start` is computed. -/
  | length (start stop : UInt64)

inductive Halt
  | out_of_range
  /-- The rounds are used up. -/
  | unfinished

abbrev Parse : Type → Type :=
  Logged Event Halt

def visit (pos : UInt64) : Parse Unit :=
  Logged.emit (.visit pos)

/-- `text.find(needle, pos)` -/
def find (text needle : Bytes) (pos : UInt64) : UInt64 :=
  match Search.find text needle pos.toNat with
  | none => npos
  | some k => .ofNat k

/-- `text.substr(pos, count)` -/
def substr (text : Bytes) (pos count : UInt64) : Parse Bytes := do
  Logged.emit (.cut text.length pos)
  if text.length < pos.toNat then Logged.halt .out_of_range
  else pure (ByteSeq.slice text pos.toNat count.toNat)

/-- `text.substr(start, stop - start)` -/
def between (text : Bytes) (start stop : UInt64) : Parse Bytes := do
  Logged.emit (.length start stop)
  substr text start (stop - start)

def removeQuote (text : Bytes) : Parse Bytes :=
  if 2 ≤ text.length ∧ text.head? = some quote ∧ text.getLast? = some quote then
    substr text 1 (.ofNat text.length - 2)
  else pure text

/-- SOURCE: stream.cc:319-340 -/
def parameterLoop (text : Bytes) (cr : UInt64) :
    ℕ → UInt64 → FormDisposition → Parse FormDisposition
  | 0, _, _ => Logged.halt .unfinished
  | rounds + 1, par_pos, afd => do
      visit par_pos
      let par_start := find text (ascii "; ") par_pos
      if cr - 5 < par_start then pure afd
      else
        let par_end := find text (ascii "=") par_start
        if cr - 2 < par_end then pure afd
        else
          let value_end := find text (ascii "; ") par_end
          let value_end := if cr < value_end then cr else value_end
          let par_name ← between text (par_start + 2) par_end
          let par_value ← between text (par_end + 1) value_end
          let par_name ← removeQuote par_name
          let par_value ← removeQuote par_value
          let afd := afd.assign par_name par_value
          if value_end < cr then parameterLoop text cr rounds value_end afd else pure afd

/-- SOURCE: stream.cc:308-341 -/
def headerLine (text : Bytes) (p cr : UInt64) (rounds : ℕ) (afd : FormDisposition) :
    Parse FormDisposition :=
  let name_end := find text (ascii ": ") p
  if npos ≠ name_end ∧ name_end < cr then do
    let name ← between text p name_end
    if name = ascii "Content-Type" then do
      let content_type ← between text (name_end + 2) cr
      pure { afd with content_type := content_type }
    else if name = ascii "Content-Disposition" then parameterLoop text cr rounds name_end afd
    else pure afd
  else pure afd

/-- SOURCE: stream.cc:306-345 -/
def headerLoop (text : Bytes) (header_end : UInt64) :
    ℕ → UInt64 → FormDisposition → Parse FormDisposition
  | 0, _, _ => Logged.halt .unfinished
  | rounds + 1, p, afd => do
      visit p
      let cr := find text crlf p
      let afd ← headerLine text p cr rounds afd
      let p := cr + 2
      if p < header_end then headerLoop text header_end rounds p afd else pure afd

/-- SOURCE: stream.cc:288-353 -/
def parseDisposition (text : Bytes) (start stop : UInt64) (rounds : ℕ) :
    Parse FormDisposition :=
  let header_start := find text (ascii "Content-Disposition") start
  if header_start ≠ start then pure {}
  else
    let header_end := find text (crlf ++ crlf) start
    if npos = header_end ∨ stop < header_end then pure {}
    else do
      let afd ← headerLoop text header_end rounds header_start {}
      let data ← substr text (header_end + 4) (stop - (header_end + 4) - 2)
      pure { afd with data := data }

/-- SOURCE: stream.cc:373-398 -/
def formLoop (boundary text : Bytes) : ℕ → UInt64 → Parse (List FormDisposition)
  | 0, _ => Logged.halt .unfinished
  | rounds + 1, pos => do
      visit pos
      let boundary_start := find text boundary pos
      if npos = boundary_start then pure []
      else
        let boundary_start := boundary_start + .ofNat boundary.length
        if .ofNat text.length < boundary_start + 2 ∧
            (text.getD boundary_start.toNat 0 ≠ 13 ∨
              text.getD (boundary_start + 1).toNat 0 ≠ 10) then pure []
        else
          let boundary_start := boundary_start + 2
          let boundary_end := find text boundary boundary_start
          if npos = boundary_end then pure []
          else do
            let afd ← parseDisposition text boundary_start boundary_end rounds
            let result ← formLoop boundary text rounds boundary_end
            pure (afd :: result)

/-- What the content type adds to the boundary.
SOURCE: stream.cc:359-368 -/
def boundaryParameter (content_type : Bytes) : Parse Bytes :=
  let pos := find content_type (ascii "boundary=") 0
  if npos ≠ pos then
    if content_type.getD (pos + 1).toNat 0 = quote then pure []
    else substr content_type (pos + .ofNat (ascii "boundary=").length) npos
  else pure []

/-- `Request::ParseMultipartForm`. -/
def parseMultipartForm (content_type text : StdString) (rounds : ℕ) :
    Parse (List FormDisposition) := do
  let boundary ← boundaryParameter content_type.bytes
  formLoop (ascii "--" ++ boundary) text.bytes rounds 0

end Words

end Cwf

end BundleStore
