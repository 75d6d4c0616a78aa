import BundleStore.Lib.Search
import BundleStore.Lib.Text

set_option autoImplicit false

/-!
# Multipart forms

SOURCE: src/cwf/stream.h:89-95, src/cwf/stream.cc:281-401

A position that `find` returns is that of a byte of the text, so nothing that is added to one
or taken from one wraps, but for the count in front of the closing boundary, which may become
negative: then it is larger than every text.
-/

namespace BundleStore

namespace Cwf

open Search Text

structure FormDisposition where
  name : Bytes := []
  filename : Bytes := []
  content_type : Bytes := []
  data : Bytes := []
  deriving DecidableEq

def crlf : Bytes := [13, 10]
def quote : UInt8 := 34

/-- `text.substr(pos, count)` -/
def substr (text : Bytes) (pos : ℕ) (count : ℤ) : Bytes :=
  if count < 0 then text.drop pos else ByteSeq.slice text pos count.toNat

def removeQuote (text : Bytes) : Bytes :=
  if 2 ≤ text.length ∧ text.head? = some quote ∧ text.getLast? = some quote then
    ByteSeq.slice text 1 (text.length - 2)
  else text

/-- `if (value_end > cr) value_end = cr;` -/
def valueEnd (text : Bytes) (cr par_end : ℕ) : ℕ :=
  match find text (ascii "; ") par_end with
  | none => cr
  | some value_end => if cr < value_end then cr else value_end

/-- The parameter `par_name` of a `Content-Disposition`. -/
def FormDisposition.assign (afd : FormDisposition) (par_name par_value : Bytes) : FormDisposition :=
  if par_name = ascii "name" then { afd with name := par_value }
  else if par_name = ascii "filename" then { afd with filename := par_value }
  else afd

/-- A value ends behind its start. -/
theorem le_valueEnd {text : Bytes} {cr par_end : ℕ} (h : par_end ≤ cr) :
    par_end ≤ valueEnd text cr par_end := by
  unfold valueEnd
  split
  · exact h
  · rename_i value_end hfind
    have hle := (find_some hfind).1
    split
    · exact h
    · exact hle

/-- The loop over the parameters of a `Content-Disposition`.
SOURCE: stream.cc:319-340 -/
def parameterLoop (text : Bytes) (cr par_pos : ℕ) (afd : FormDisposition) : FormDisposition :=
  match _hstart : find text (ascii "; ") par_pos with
  | none => afd
  | some par_start =>
      if cr < par_start + 5 then afd
      else
        match hend : find text (ascii "=") par_start with
        | none => afd
        | some par_end =>
            if cr < par_end + 2 then afd
            else
              let value_end := valueEnd text cr par_end
              let par_name := substr text (par_start + 2) (par_end - (par_start + 2))
              let par_value := substr text (par_end + 1) (value_end - (par_end + 1))
              let afd := afd.assign (removeQuote par_name) (removeQuote par_value)
              if value_end < cr then parameterLoop text cr value_end afd else afd
termination_by cr - par_pos
decreasing_by
  have hpos := (find_some _hstart).1
  have hlt : par_start < par_end := lt_of_find (by decide) _hstart hend
  have hvalue : par_end ≤ valueEnd text cr par_end := le_valueEnd (by omega)
  omega

/-- A line of the headers, from `p` to `cr`.
SOURCE: stream.cc:308-341 -/
def headerLine (text : Bytes) (p cr : ℕ) (afd : FormDisposition) : FormDisposition :=
  match find text (ascii ": ") p with
  | none => afd
  | some name_end =>
      if cr ≤ name_end then afd
      else
        let name := substr text p (name_end - p)
        if name = ascii "Content-Type" then
          { afd with content_type := substr text (name_end + 2) (cr - (name_end + 2)) }
        else if name = ascii "Content-Disposition" then parameterLoop text cr name_end afd
        else afd

/-- The loop over the lines. A CRLF stands at `header_end`, so that each line has an end.
SOURCE: stream.cc:306-345 -/
def headerLoop (text : Bytes) (header_end p : ℕ) (afd : FormDisposition) : FormDisposition :=
  match hcr : find text crlf p with
  | none => afd
  | some cr =>
      let afd := headerLine text p cr afd
      if cr + 2 < header_end then headerLoop text header_end (cr + 2) afd else afd
termination_by header_end - p
decreasing_by
  have hpos := (find_some hcr).1
  omega

/-- SOURCE: stream.cc:288-353 -/
def parseDisposition (text : Bytes) (start stop : ℕ) : FormDisposition :=
  if find text (ascii "Content-Disposition") start ≠ some start then {}
  else
    match find text (crlf ++ crlf) start with
    | none => {}
    | some header_end =>
        if stop < header_end then {}
        else
          { headerLoop text header_end start {} with
            data := substr text (header_end + 4) (stop - (header_end + 4) - 2) }

/-- The loop over the elements. The byte behind the last one of a string is NUL.
SOURCE: stream.cc:373-398 -/
def formLoop (boundary text : Bytes) (pos : ℕ) : List FormDisposition :=
  match _hstart : find text boundary pos with
  | none => []
  | some found =>
      let boundary_start := found + boundary.length
      if text.length < boundary_start + 2 ∧
          (text.getD boundary_start 0 ≠ 13 ∨ text.getD (boundary_start + 1) 0 ≠ 10) then []
      else
        match hend : find text boundary (boundary_start + 2) with
        | none => []
        | some boundary_end =>
            parseDisposition text (boundary_start + 2) boundary_end ::
              formLoop boundary text boundary_end
termination_by text.length - pos
decreasing_by
  have hpos := (find_some _hstart).1
  obtain ⟨hle, hlen, -⟩ := find_some hend
  omega

/-- `Request::ParseMultipartForm`. -/
def parseMultipartForm (content_type text : Bytes) : List FormDisposition :=
  let boundary :=
    match find content_type (ascii "boundary=") 0 with
    | none => []
    | some pos =>
        if content_type.getD (pos + 1) 0 = quote then []
        else content_type.drop (pos + (ascii "boundary=").length)
  formLoop (ascii "--" ++ boundary) text 0

end Cwf

end BundleStore
