import BundleStore.Model.Multipart
import Mathlib.Data.List.Forall2

set_option autoImplicit false

/-!
# The data of a part and the boundary behind it

The data of a part ends two bytes in front of the next boundary, for the line end that belongs
to the boundary. When the headers leave no room for it, the count of the bytes is negative, and
the data goes on to the end of the text.
-/

namespace BundleStore

namespace Cwf

open Search Text

/-- The boundary that the content type announces. -/
def boundaryOf (content_type : Bytes) : Bytes :=
  ascii "--" ++
    match find content_type (ascii "boundary=") 0 with
    | none => []
    | some pos =>
        if content_type.getD (pos + 1) 0 = quote then []
        else content_type.drop (pos + (ascii "boundary=").length)

/-- Where the parts stand: each from behind a boundary and two more bytes to the next
boundary. -/
def elements (boundary text : Bytes) (pos : ℕ) : List (ℕ × ℕ) :=
  match _hstart : find text boundary pos with
  | none => []
  | some found =>
      match hend : find text boundary (found + boundary.length + 2) with
      | none => []
      | some stop => (found + boundary.length + 2, stop) :: elements boundary text stop
termination_by text.length - pos
decreasing_by
  have hpos := (find_some _hstart).1
  obtain ⟨hle, hlen, -⟩ := find_some hend
  omega

/-- The data is empty or stands between the headers of its part and the boundary. -/
def DataInside (text : Bytes) (element : ℕ × ℕ) (part : FormDisposition) : Prop :=
  part.data = [] ∨ ∃ header_end, find text (crlf ++ crlf) element.1 = some header_end ∧
    ∃ pos n, header_end + 4 ≤ pos ∧ pos + n ≤ element.2 ∧ part.data = ByteSeq.slice text pos n

/-- The headers of a part end at its boundary, or one byte in front of it. -/
def Abrupt (text : Bytes) (element : ℕ × ℕ) : Prop :=
  find text (ascii "Content-Disposition") element.1 = some element.1 ∧
    ∃ header_end, find text (crlf ++ crlf) element.1 = some header_end ∧
      (element.2 = header_end + 4 ∨ element.2 = header_end + 5)

variable {boundary text : Bytes} {pos : ℕ} {element : ℕ × ℕ}

/-- A boundary begins with two hyphens.
SOURCE: stream.cc:359 -/
theorem boundaryOf_head (content_type : Bytes) :
    ∃ rest, boundaryOf content_type = 45 :: 45 :: rest :=
  ⟨_, rfl⟩

/-- A form is the loop from its first position.
SOURCE: stream.cc:371-400 -/
theorem parseMultipartForm_eq_formLoop (content_type text : Bytes) :
    parseMultipartForm content_type text = formLoop (boundaryOf content_type) text 0 :=
  rfl

/-- Nothing is found behind the end of a text. -/
theorem find_behind {needle : Bytes} (h : text.length < pos) : find text needle pos = none :=
  if_neg (Nat.not_le.mpr h)

/-- The loop makes a part of every element. -/
theorem formLoop_eq (boundary text : Bytes) (pos : ℕ) :
    formLoop boundary text pos =
      (elements boundary text pos).map fun e => parseDisposition text e.1 e.2 := by
  fun_induction formLoop boundary text pos with
  | case1 pos hstart =>
      rw [elements]
      split
      · rfl
      · simp_all
  | case2 pos found hstart boundary_start hshort =>
      have hend : find text boundary (found + boundary.length + 2) = none :=
        find_behind hshort.1
      rw [elements]
      split
      · rfl
      · rename_i found' hstart'
        obtain rfl := Option.some.inj (hstart.symm.trans hstart')
        split
        · rfl
        · simp_all
  | case3 pos found hstart boundary_start hlong hend =>
      rw [elements]
      split
      · rfl
      · rename_i found' hstart'
        obtain rfl := Option.some.inj (hstart.symm.trans hstart')
        split
        · rfl
        · simp_all [boundary_start]
  | case4 pos found hstart boundary_start hlong boundary_end hend ih =>
      rw [elements]
      split
      · simp_all
      · rename_i found' hstart'
        obtain rfl := Option.some.inj (hstart.symm.trans hstart')
        split
        · simp_all [boundary_start]
        · rename_i stop hend'
          obtain rfl := Option.some.inj (hend.symm.trans hend')
          rw [List.map_cons, ih]

/-- An element ends where the next boundary is found. -/
theorem find_of_mem_elements (h : element ∈ elements boundary text pos) :
    find text boundary element.1 = some element.2 := by
  fun_induction elements boundary text pos with
  | case1 pos hstart => cases h
  | case2 pos found hstart hend => cases h
  | case3 pos found hstart stop hend ih =>
      obtain rfl | hrest := List.mem_cons.mp h
      · exact hend
      · exact ih hrest

/-- The byte behind the two line ends is no dash, nor is one of them. -/
theorem blank_before_boundary {rest : Bytes} {header_end stop : ℕ} (hle : header_end ≤ stop)
    (hblank : crlf ++ crlf <+: text.drop header_end) (hstop : 45 :: rest <+: text.drop stop) :
    header_end + 4 ≤ stop := by
  by_contra hshort
  obtain ⟨k, hk, rfl⟩ : ∃ k < 4, stop = header_end + k := ⟨stop - header_end, by omega, by omega⟩
  obtain ⟨after, hafter⟩ := hblank
  rw [← List.drop_drop, ← hafter] at hstop
  obtain ⟨tail, htail⟩ := hstop
  have hhead : ((crlf ++ crlf ++ after).drop k)[0]? = some 45 := by
    rw [← htail]
    rfl
  rw [List.getElem?_drop, Nat.add_zero] at hhead
  interval_cases k <;> simp [crlf] at hhead

/-- What a part has for its data. -/
theorem data_cases (text : Bytes) (start stop : ℕ) :
    (parseDisposition text start stop).data = [] ∨
      (find text (ascii "Content-Disposition") start = some start ∧
        ∃ header_end, find text (crlf ++ crlf) start = some header_end ∧ header_end ≤ stop ∧
          (parseDisposition text start stop).data =
            substr text (header_end + 4) (stop - (header_end + 4) - 2)) := by
  unfold parseDisposition
  split
  · exact .inl rfl
  · rename_i hdisposition
    split
    · exact .inl rfl
    · rename_i header_end hblank
      split
      · exact .inl rfl
      · rename_i hle
        exact .inr ⟨of_not_not hdisposition, header_end, hblank, Nat.not_lt.mp hle, rfl⟩

/-- The data of an element that is not abrupt lies inside it.
SOURCE: stream.cc:350 -/
theorem inside_of_not_abrupt {rest : Bytes} (hboundary : boundary = 45 :: rest)
    (hfind : find text boundary element.1 = some element.2) (h : ¬ Abrupt text element) :
    DataInside text element (parseDisposition text element.1 element.2) := by
  rcases data_cases text element.1 element.2 with hnil | ⟨hdisp, header_end, hblank, hle, hdata⟩
  · exact .inl hnil
  · have hstop := (find_some hfind).2.2.1
    rw [hboundary] at hstop
    have hfour := blank_before_boundary hle (find_some hblank).2.2.1 hstop
    have hroom : header_end + 6 ≤ element.2 := by
      by_contra hshort
      exact h ⟨hdisp, header_end, hblank, by omega⟩
    refine .inr ⟨header_end, hblank, header_end + 4, element.2 - (header_end + 4) - 2,
      Nat.le_refl _, by omega, ?_⟩
    have hcount : ((element.2 : ℤ) - ((header_end : ℤ) + 4) - 2).toNat =
        element.2 - (header_end + 4) - 2 := by
      omega
    rw [hdata, substr, if_neg (by omega), hcount]

/-- The data of an abrupt part has the boundary in it. -/
theorem data_of_abrupt (h : Abrupt text element) :
    ∃ header_end, find text (crlf ++ crlf) element.1 = some header_end ∧
      (parseDisposition text element.1 element.2).data = text.drop (header_end + 4) := by
  obtain ⟨hdisp, header_end, hblank, hshort⟩ := h
  refine ⟨header_end, hblank, ?_⟩
  unfold parseDisposition
  rw [if_neg (not_not.mpr hdisp)]
  simp only [hblank]
  rw [if_neg (by omega), substr, if_pos (by omega)]

/-- The data of an abrupt element does not.
SOURCE: stream.cc:350 -/
theorem outside_of_abrupt {rest : Bytes} (hboundary : boundary = 45 :: rest)
    (hfind : find text boundary element.1 = some element.2) (h : Abrupt text element) :
    ¬ DataInside text element (parseDisposition text element.1 element.2) := by
  obtain ⟨header_end, hblank, hdata⟩ := data_of_abrupt h
  obtain ⟨-, header_end', hblank', hshort⟩ := h
  obtain rfl := Option.some.inj (hblank.symm.trans hblank')
  have hlen := (find_some hfind).2.2.1.length_le
  rw [hboundary, List.length_cons, List.length_drop] at hlen
  have hlong : (parseDisposition text element.1 element.2).data.length =
      text.length - (header_end + 4) := by
    rw [hdata, List.length_drop]
  rintro (hnil | ⟨header_end', hblank', pos, n, hpos, hstop, hslice⟩)
  · rw [hnil, List.length_nil] at hlong
    omega
  · obtain rfl := Option.some.inj (hblank.symm.trans hblank')
    rw [hslice, ByteSeq.length_slice] at hlong
    omega

/-- **The data of every part stays inside the part exactly when no part is abrupt.**
SOURCE: stream.cc:348-350, 371-400 -/
theorem data_inside_iff (content_type text : Bytes) :
    List.Forall₂ (DataInside text) (elements (boundaryOf content_type) text 0)
        (parseMultipartForm content_type text) ↔
      ∀ element ∈ elements (boundaryOf content_type) text 0, ¬ Abrupt text element := by
  obtain ⟨rest, hboundary⟩ := boundaryOf_head content_type
  rw [parseMultipartForm_eq_formLoop, formLoop_eq, List.forall₂_map_right_iff,
    List.forall₂_same]
  constructor
  · intro hinside element helement habrupt
    exact outside_of_abrupt hboundary (find_of_mem_elements helement) habrupt
      (hinside element helement)
  · intro hnone element helement
    exact inside_of_not_abrupt hboundary (find_of_mem_elements helement) (hnone element helement)

/-- A form with one part, without a line between its headers and the boundary. -/
def abruptForm : Bytes :=
  ascii "--b" ++ crlf ++ ascii "Content-Disposition: x" ++ crlf ++ crlf ++ ascii "--b--"

/-- Its data is the boundary. -/
theorem not_data_inside :
    ¬ ∀ content_type text : Bytes,
      List.Forall₂ (DataInside text) (elements (boundaryOf content_type) text 0)
        (parseMultipartForm content_type text) := by
  intro hinside
  have hall := hinside (ascii "boundary=b") abruptForm
  have hboundary : boundaryOf (ascii "boundary=b") = ascii "--b" := by decide
  have hstart : find abruptForm (ascii "--b") 0 = some 0 := by decide
  have hend : find abruptForm (ascii "--b") 5 = some 31 := by decide +kernel
  have habrupt : Abrupt abruptForm (5, 31) := by
    refine ⟨by decide +kernel, 27, by decide +kernel, .inl rfl⟩
  rw [parseMultipartForm_eq_formLoop, formLoop_eq, List.forall₂_map_right_iff,
    List.forall₂_same, hboundary] at hall
  have hmem : (5, 31) ∈ elements (ascii "--b") abruptForm 0 := by
    rw [elements]
    split
    · simp_all
    · rename_i found hstart'
      obtain rfl := Option.some.inj (hstart.symm.trans hstart')
      split
      · rename_i hnone
        exact absurd (hend.symm.trans hnone) (by simp)
      · rename_i stop hend'
        obtain rfl := Option.some.inj (hend.symm.trans hend')
        exact List.mem_cons_self
  exact outside_of_abrupt rfl hend habrupt (hall _ hmem)

end Cwf

end BundleStore
