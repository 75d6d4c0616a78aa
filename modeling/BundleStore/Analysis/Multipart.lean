import BundleStore.Model.Multipart

set_option autoImplicit false

/-!
# Multipart forms decode to what was encoded

Each search starts behind the last delimiter that was found, and the stretch before the next
one holds no beginning of it: by its first byte, or because a byte follows that the delimiter
does not have. The exception is the end of a quoted value, which `"; "` inside of it hides.
-/

namespace BundleStore

namespace Cwf

open Search Text

/-! ## The form as a browser sends it -/

structure Part where
  name : Bytes
  filename : Option Bytes
  content_type : Option Bytes
  data : Bytes

namespace Part

/-- What is to be decoded. -/
def disposition (p : Part) : FormDisposition where
  name := p.name
  filename := p.filename.getD []
  content_type := p.content_type.getD []
  data := p.data

def quoted (s : Bytes) : Bytes :=
  quote :: s ++ [quote]

/-- `; key="value"` -/
def parameter (key value : Bytes) : Bytes :=
  ascii "; " ++ key ++ ascii "=" ++ quoted value

def dispositionLine (p : Part) : Bytes :=
  ascii "Content-Disposition: form-data" ++ parameter (ascii "name") p.name ++
    (p.filename.map (parameter (ascii "filename"))).getD []

def typeLine (content_type : Bytes) : Bytes :=
  ascii "Content-Type: " ++ content_type ++ crlf

def headers (p : Part) : Bytes :=
  p.dispositionLine ++ crlf ++ (p.content_type.map typeLine).getD []

def encode (p : Part) : Bytes :=
  p.headers ++ crlf ++ p.data ++ crlf

end Part

def delimiter (boundary : Bytes) : Bytes :=
  ascii "--" ++ boundary

def encodeForm (boundary : Bytes) (parts : List Part) : Bytes :=
  (parts.map fun p => delimiter boundary ++ crlf ++ p.encode).flatten ++ delimiter boundary ++
    ascii "--"

/-- What a quoted name may be. -/
def NameText (s : Bytes) : Prop :=
  quote ∉ s ∧ 13 ∉ s ∧ 10 ∉ s ∧ 92 ∉ s

/-- A part that may be sent with a boundary. -/
structure Sendable (boundary : Bytes) (p : Part) : Prop where
  name : NameText p.name
  filename : ∀ f ∈ p.filename, NameText f
  content_type : ∀ t ∈ p.content_type, 13 ∉ t ∧ 10 ∉ t
  headers_free : ¬ delimiter boundary <:+: p.headers
  data_free : ¬ delimiter boundary <:+: p.data

/-- No `"; "` in the quoted values. -/
def Part.Unbroken (p : Part) : Prop :=
  ¬ ascii "; " <:+: p.name ∧ ∀ f ∈ p.filename, ¬ ascii "; " <:+: f

/-! ## What is cut out -/

/-- `substr` with the place and the length of a part gives the part. -/
theorem substr_at {text front s rest : Bytes} {pos : ℕ} {count : ℤ}
    (htext : text = front ++ (s ++ rest)) (hpos : pos = front.length) (hcount : count = s.length) :
    substr text pos count = s := by
  rw [substr, if_neg (by omega), hcount, Int.toNat_natCast, htext, hpos, ByteSeq.slice,
    List.drop_left, List.take_left]

/-- Quotes that were put around a text are taken off.
SOURCE: stream.cc:281-286 -/
theorem removeQuote_quoted (s : Bytes) : removeQuote (Part.quoted s) = s := by
  have hlast : (quote :: (s ++ [quote])).getLast? = some quote := by
    rw [← List.cons_append]
    exact List.getLast?_concat
  unfold removeQuote Part.quoted
  rw [if_pos ⟨by simp, rfl, hlast⟩]
  simp [ByteSeq.slice]

/-- Without its quotes a text is a part of what it was. -/
theorem infix_removeQuote (text : Bytes) : removeQuote text <:+: text := by
  unfold removeQuote
  split
  · exact (List.take_prefix _ _).isInfix.trans (List.drop_suffix _ _).isInfix
  · exact List.infix_refl text

/-! ## The parameters -/

/-- Neither field has a `"; "`. -/
def FormDisposition.Unbroken (afd : FormDisposition) : Prop :=
  ¬ ascii "; " <:+: afd.name ∧ ¬ ascii "; " <:+: afd.filename

/-- A parameter whose value is unbroken leaves the part unbroken.
SOURCE: stream.cc:335-338 -/
theorem FormDisposition.Unbroken.assign {afd : FormDisposition} (h : afd.Unbroken)
    (par_name : Bytes) {par_value : Bytes} (hvalue : ¬ ascii "; " <:+: par_value) :
    (afd.assign par_name par_value).Unbroken := by
  unfold FormDisposition.assign
  split
  · exact ⟨hvalue, h.2⟩
  split
  · exact ⟨h.1, hvalue⟩
  · exact h

/-- A value ends before the next `"; "`. -/
theorem value_unbroken {text : Bytes} {cr par_start par_end : ℕ} (hcr : par_end < cr)
    (hend : find text (ascii "=") par_start = some par_end) :
    ¬ ascii "; " <:+:
      substr text (par_end + 1) (valueEnd text cr par_end - (par_end + 1) : ℤ) := by
  have hlt : par_end < valueEnd text cr par_end := by
    unfold valueEnd
    split
    · exact hcr
    · rename_i value_end hfind
      have hlater : par_end < value_end := lt_of_find (by decide) hend hfind
      split
      · exact hcr
      · exact hlater
  have hclear : ∀ j, par_end ≤ j → j < valueEnd text cr par_end →
      ¬ ascii "; " <+: text.drop j := by
    intro j hj hbefore
    refine not_prefix_drop (by decide) hj fun k hfind => ?_
    unfold valueEnd at hbefore
    rw [hfind] at hbefore
    simp only at hbefore
    split at hbefore
    · omega
    · exact hbefore
  rw [substr, if_neg (by omega)]
  refine not_infix_slice (fun j hj hbefore => hclear j (by omega) (by omega)) (by decide)

/-- The loop over the parameters keeps the fields so. -/
theorem parameterLoop_unbroken (text : Bytes) (cr par_pos : ℕ) {afd : FormDisposition}
    (h : afd.Unbroken) : (parameterLoop text cr par_pos afd).Unbroken := by
  fun_induction parameterLoop text cr par_pos afd with
  | case1 par_pos afd hstart => exact h
  | case2 par_pos afd par_start hstart hfar => exact h
  | case3 par_pos afd par_start hstart hnear hend => exact h
  | case4 par_pos afd par_start hstart hnear par_end hend hcr => exact h
  | case5 par_pos afd par_start hstart hnear par_end hend hcr value_end name value next hmore ih =>
      apply ih
      refine h.assign _ fun hin => ?_
      exact value_unbroken (by omega) hend (hin.trans (infix_removeQuote _))
  | case6 par_pos afd par_start hstart hnear par_end hend hcr value_end name value next hlast =>
      refine h.assign _ fun hin => ?_
      exact value_unbroken (by omega) hend (hin.trans (infix_removeQuote _))

/-- Whatever the headers are, the part that is read is unbroken, by induction on the lines.
SOURCE: stream.cc:307-346 -/
theorem headerLoop_unbroken (text : Bytes) (header_end p : ℕ) {afd : FormDisposition}
    (h : afd.Unbroken) : (headerLoop text header_end p afd).Unbroken := by
  have hline : ∀ (p cr : ℕ) (afd : FormDisposition), afd.Unbroken →
      (headerLine text p cr afd).Unbroken := by
    intro p cr afd h
    unfold headerLine
    split
    · exact h
    split
    · exact h
    simp only
    split
    · exact h
    split
    · exact parameterLoop_unbroken text cr _ h
    · exact h
  fun_induction headerLoop text header_end p afd with
  | case1 p afd hcr => exact h
  | case2 p afd cr hcr next hmore ih => exact ih (hline p cr afd h)
  | case3 p afd cr hcr next hlast => exact hline p cr afd h

/-- A part that has not been read is unbroken. -/
theorem unbroken_empty : ({} : FormDisposition).Unbroken := by
  have hne : ¬ ascii "; " <:+: [] := by
    rw [List.infix_nil]
    decide
  exact ⟨hne, hne⟩

/-- **No element that is decoded has a `"; "` in a quoted field.** -/
theorem parseMultipartForm_unbroken (content_type text : Bytes) :
    ∀ afd ∈ parseMultipartForm content_type text, afd.Unbroken := by
  have helement : ∀ start stop, (parseDisposition text start stop).Unbroken := by
    intro start stop
    unfold parseDisposition
    split
    · exact unbroken_empty
    split
    · exact unbroken_empty
    split
    · exact unbroken_empty
    · exact headerLoop_unbroken text _ start unbroken_empty
  have hloop : ∀ boundary pos, ∀ afd ∈ formLoop boundary text pos, afd.Unbroken := by
    intro boundary pos
    fun_induction formLoop boundary text pos with
    | case1 pos hstart => simp
    | case2 pos found hstart boundary_start hshort => simp
    | case3 pos found hstart boundary_start hlong hend => simp
    | case4 pos found hstart boundary_start hlong boundary_end hend ih =>
        intro afd hafd
        obtain rfl | hrest := List.mem_cons.mp hafd
        · exact helement _ _
        · exact ih afd hrest
  exact hloop _ 0

/-! ## One parameter -/

/-- A stretch that ends with a quote has no `"; "` at its end, whatever follows. -/
theorem clear_quoted {value after : Bytes} (h : ¬ ascii "; " <:+: value) :
    Clear (ascii "; ") (ascii "=" ++ Part.quoted value) after := by
  have hstart : ¬ ascii "; " <:+: 61 :: quote :: value := by
    rw [List.infix_cons_iff, List.infix_cons_iff]
    rintro (hpre | hpre | hin)
    · exact absurd (List.cons_prefix_cons.mp hpre).1 (by decide)
    · exact absurd (List.cons_prefix_cons.mp hpre).1 (by decide)
    · exact h hin
  have hclear : Clear (ascii "; ") ((61 :: quote :: value) ++ [quote]) after :=
    clear_of_stop (by decide) hstart (by decide)
  exact hclear

/-- The value ends where the next parameter begins or the line does. -/
theorem valueEnd_quoted {text front value after : Bytes} {cr par_end stop : ℕ}
    (htext : text = front ++ ((ascii "=" ++ Part.quoted value) ++ after))
    (hpos : par_end = front.length) (hvalue : ¬ ascii "; " <:+: value)
    (hstop : stop = par_end + (3 + value.length))
    (hafter : stop = cr ∨ stop < cr ∧ ascii "; " <+: after) : valueEnd text cr par_end = stop := by
  have hlen : (ascii "=" ++ Part.quoted value).length = 3 + value.length := by
    simp [Part.quoted, ascii]
    omega
  have hfind : find text (ascii "; ") par_end = (findIn (ascii "; ") after).map (stop + ·) := by
    rw [htext, hpos, find_front, findIn_clear (clear_quoted hvalue), Option.map_map, hlen, hstop,
      hpos]
    congr 1
    funext k
    simp only [Function.comp_apply]
    omega
  unfold valueEnd
  rw [hfind]
  obtain hlast | ⟨hlt, rest, hrest⟩ := hafter
  · cases findIn (ascii "; ") after with
    | none => exact hlast.symm
    | some k =>
        simp only [Option.map_some]
        split <;> omega
  · rw [← hrest, findIn_here]
    simp only [Option.map_some]
    split <;> omega

/-- A round of the loop takes one parameter, and ends where the next one begins or the line
does. -/
theorem parameterLoop_parameter {text front mid key value after : Bytes} {cr pos stop : ℕ}
    (afd : FormDisposition) (htext : text = front ++ (mid ++ (Part.parameter key value ++ after)))
    (hpos : pos = front.length) (hmid : 59 ∉ mid) (hkey : 61 ∉ key) (hquote : removeQuote key = key)
    (hvalue : ¬ ascii "; " <:+: value)
    (hstop : stop = pos + mid.length + (Part.parameter key value).length)
    (hafter : stop = cr ∨ stop < cr ∧ ascii "; " <+: after) :
    parameterLoop text cr pos afd =
      if stop < cr then parameterLoop text cr stop (afd.assign key value)
      else afd.assign key value := by
  have hlen : (Part.parameter key value).length = 2 + key.length + (3 + value.length) := by
    simp [Part.parameter, Part.quoted, ascii]
    omega
  have hsemicolon : (ascii "; ").length = 2 := rfl
  have hequals : (ascii "=").length = 1 := rfl
  have hname : text =
      (front ++ mid ++ ascii "; ") ++ (key ++ (ascii "=" ++ Part.quoted value ++ after)) := by
    rw [htext]
    simp only [Part.parameter, List.append_assoc]
  have hbehind : text = (front ++ mid ++ ascii "; " ++ key) ++
      ((ascii "=" ++ Part.quoted value) ++ after) := by
    rw [hname]
    simp only [List.append_assoc]
  have hcontent : text = (front ++ mid ++ ascii "; " ++ key ++ ascii "=") ++
      (Part.quoted value ++ after) := by
    rw [hname]
    simp only [List.append_assoc]
  have hstart : find text (ascii "; ") pos = some (pos + mid.length) := by
    have hsplit : text = front ++
        (mid ++ (ascii "; " ++ (key ++ (ascii "=" ++ Part.quoted value ++ after)))) := by
      rw [hname]
      simp only [List.append_assoc]
    exact find_clear hsplit hpos (clear_of_head hmid)
  have hend : find text (ascii "=") (pos + mid.length) =
      some (pos + mid.length + (ascii "; " ++ key).length) := by
    have hsplit : text = (front ++ mid) ++
        ((ascii "; " ++ key) ++ (ascii "=" ++ (Part.quoted value ++ after))) := by
      rw [hname]
      simp only [List.append_assoc]
    have hclear : 61 ∉ ascii "; " ++ key := by
      rw [List.mem_append]
      exact fun h => h.elim (by decide) hkey
    refine find_clear hsplit ?_ (clear_of_head hclear)
    rw [List.length_append, hpos]
  rw [List.length_append, hsemicolon] at hend
  have hvalueEnd : valueEnd text cr (pos + mid.length + (2 + key.length)) = stop := by
    refine valueEnd_quoted hbehind ?_ hvalue (by omega) hafter
    simp only [List.length_append, hpos, hsemicolon]
    omega
  have hkeyText : substr text (pos + mid.length + 2)
      ((pos + mid.length + (2 + key.length) : ℕ) - ((pos + mid.length : ℕ) + 2) : ℤ) = key := by
    refine substr_at hname ?_ (by omega)
    simp only [List.length_append, hpos, hsemicolon]
  have hvalueText : substr text (pos + mid.length + (2 + key.length) + 1)
      ((stop : ℕ) - ((pos + mid.length + (2 + key.length) : ℕ) + 1) : ℤ) = Part.quoted value := by
    refine substr_at hcontent ?_ ?_
    · simp only [List.length_append, hpos, hsemicolon, hequals]
      omega
    · simp only [Part.quoted, List.length_append, List.length_cons, List.length_nil]
      omega
  rw [parameterLoop]
  split
  · rename_i hnone
    rw [hstart] at hnone
    cases hnone
  rename_i par_start hsome
  obtain rfl := Option.some.inj (hstart.symm.trans hsome)
  rw [if_neg (by omega)]
  split
  · rename_i hnone
    rw [hend] at hnone
    cases hnone
  rename_i par_end hsome'
  obtain rfl := Option.some.inj (hend.symm.trans hsome')
  rw [if_neg (by omega)]
  simp only [hvalueEnd, hkeyText, hvalueText, removeQuote_quoted, hquote]

/-! ## The lines -/

section Lines

variable {text front after : Bytes} {cr pos : ℕ} {p : Part}

/-- The length of a parameter. -/
theorem length_parameter (key value : Bytes) :
    (Part.parameter key value).length = key.length + value.length + 5 := by
  simp [Part.parameter, Part.quoted, ascii]
  omega

/-- The length of the line of the disposition. -/
theorem length_dispositionLine (p : Part) :
    p.dispositionLine.length = 30 + (Part.parameter (ascii "name") p.name).length +
      ((p.filename.map (Part.parameter (ascii "filename"))).getD []).length := by
  rw [Part.dispositionLine, List.length_append, List.length_append]
  rfl

/-- The parameters of a part give its name and its filename. -/
theorem parameterLoop_line (htext : text = front ++ (p.dispositionLine ++ after))
    (hpos : pos = front.length) (hcr : cr = pos + p.dispositionLine.length) (hp : p.Unbroken) :
    parameterLoop text cr (pos + 19) {} = { name := p.name, filename := p.filename.getD [] } := by
  obtain ⟨hname, hfilename⟩ := hp
  have hlen := length_dispositionLine p
  have hhead : ascii "Content-Disposition: form-data" =
      ascii "Content-Disposition" ++ ascii ": form-data" := by
    decide
  have hsplit : text = (front ++ ascii "Content-Disposition") ++ (ascii ": form-data" ++
      (Part.parameter (ascii "name") p.name ++
        ((p.filename.map (Part.parameter (ascii "filename"))).getD [] ++ after))) := by
    rw [htext, Part.dispositionLine, hhead]
    simp only [List.append_assoc]
  have hfront : pos + 19 = (front ++ ascii "Content-Disposition").length := by
    rw [List.length_append, hpos]
    rfl
  have hmid : (ascii ": form-data").length = 11 := rfl
  cases hfile : p.filename with
  | none =>
      rw [hfile] at hlen hsplit
      have hend : pos + 19 + (ascii ": form-data").length +
          (Part.parameter (ascii "name") p.name).length = cr := by
        rw [hcr, hlen, hmid]
        simp
        omega
      rw [parameterLoop_parameter {} hsplit hfront (by decide) (by decide) (by decide) hname rfl
        (.inl hend), if_neg (by omega)]
      rfl
  | some f =>
      rw [hfile] at hlen hsplit
      have hlength := length_parameter (ascii "filename") f
      simp only [Option.map_some, Option.getD_some] at hlen hsplit
      have hmore : pos + 19 + (ascii ": form-data").length +
          (Part.parameter (ascii "name") p.name).length < cr := by
        omega
      have hafter : ascii "; " <+: Part.parameter (ascii "filename") f ++ after := by
        rw [Part.parameter, List.append_assoc, List.append_assoc, List.append_assoc]
        exact List.prefix_append _ _
      rw [parameterLoop_parameter {} hsplit hfront (by decide) (by decide) (by decide) hname rfl
        (.inr ⟨hmore, hafter⟩), if_pos hmore]
      have hrest : text = (front ++ ascii "Content-Disposition" ++ ascii ": form-data" ++
          Part.parameter (ascii "name") p.name) ++
            ([] ++ (Part.parameter (ascii "filename") f ++ after)) := by
        rw [hsplit]
        simp only [List.append_assoc, List.nil_append]
      have hfront' : pos + 19 + (ascii ": form-data").length +
          (Part.parameter (ascii "name") p.name).length = (front ++ ascii "Content-Disposition" ++
            ascii ": form-data" ++ Part.parameter (ascii "name") p.name).length := by
        simp only [List.length_append, hfront]
      have hend : pos + 19 + (ascii ": form-data").length +
          (Part.parameter (ascii "name") p.name).length + ([] : Bytes).length +
            (Part.parameter (ascii "filename") f).length = cr := by
        rw [hcr, hlen, hmid, List.length_nil]
        omega
      rw [parameterLoop_parameter _ hrest hfront' List.not_mem_nil (by decide) (by decide)
        (hfilename f hfile) rfl (.inl hend), if_neg (by omega)]
      rfl

/-- The first line. -/
theorem headerLine_disposition (htext : text = front ++ (p.dispositionLine ++ after))
    (hpos : pos = front.length) (hcr : cr = pos + p.dispositionLine.length) (hp : p.Unbroken) :
    headerLine text pos cr {} = { name := p.name, filename := p.filename.getD [] } := by
  have hhead : ascii "Content-Disposition: form-data" =
      ascii "Content-Disposition" ++ (ascii ": " ++ ascii "form-data") := by
    decide
  have hsplit : text = front ++ (ascii "Content-Disposition" ++ (ascii ": " ++
      (ascii "form-data" ++ Part.parameter (ascii "name") p.name ++
        (p.filename.map (Part.parameter (ascii "filename"))).getD [] ++ after))) := by
    rw [htext, Part.dispositionLine, hhead]
    simp only [List.append_assoc]
  have hfind : find text (ascii ": ") pos = some (pos + 19) :=
    find_clear hsplit hpos (clear_of_head (by decide))
  have hname : substr text pos ((pos + 19 : ℕ) - (pos : ℕ) : ℤ) = ascii "Content-Disposition" := by
    refine substr_at hsplit hpos ?_
    rw [show (ascii "Content-Disposition").length = 19 from rfl]
    omega
  have hlen := length_dispositionLine p
  unfold headerLine
  rw [hfind]
  simp only [hname]
  rw [if_neg (by omega), if_neg (by decide), if_pos trivial]
  exact parameterLoop_line htext hpos hcr hp

/-- The second one. -/
theorem headerLine_type {t : Bytes} (afd : FormDisposition)
    (htext : text = front ++ (ascii "Content-Type: " ++ t ++ after)) (hpos : pos = front.length)
    (hcr : cr = pos + (ascii "Content-Type: " ++ t).length) :
    headerLine text pos cr afd = { afd with content_type := t } := by
  have hhead : ascii "Content-Type: " = ascii "Content-Type" ++ ascii ": " := by
    decide
  have hfourteen : (ascii "Content-Type: ").length = 14 := rfl
  have hsplit : text = front ++ (ascii "Content-Type" ++ (ascii ": " ++ (t ++ after))) := by
    rw [htext, hhead]
    simp only [List.append_assoc]
  have hfind : find text (ascii ": ") pos = some (pos + 12) :=
    find_clear hsplit hpos (clear_of_head (by decide))
  have hname : substr text pos ((pos + 12 : ℕ) - (pos : ℕ) : ℤ) = ascii "Content-Type" := by
    refine substr_at hsplit hpos ?_
    rw [show (ascii "Content-Type").length = 12 from rfl]
    omega
  have hvalue : substr text (pos + 12 + 2) ((cr : ℕ) - ((pos + 12 : ℕ) + 2) : ℤ) = t := by
    have hbehind : text = (front ++ ascii "Content-Type: ") ++ (t ++ after) := by
      rw [htext]
      simp only [List.append_assoc]
    refine substr_at hbehind ?_ ?_
    · rw [List.length_append, hfourteen, hpos]
    · rw [hcr, List.length_append, hfourteen]
      omega
  rw [List.length_append, hfourteen] at hcr
  unfold headerLine
  rw [hfind]
  simp only [hname, hvalue]
  rw [if_neg (by omega), if_pos trivial]

end Lines

/-! ## One element -/

namespace Part

/-- What stands behind the first line and before the last CRLF of the headers. -/
def secondLine (p : Part) : Bytes :=
  (p.content_type.map fun t => crlf ++ (ascii "Content-Type: " ++ t)).getD []

/-- The headers are the line of the disposition, the line of the type and an empty line. -/
theorem headers_eq (p : Part) : p.headers = p.dispositionLine ++ p.secondLine ++ crlf := by
  unfold headers secondLine typeLine
  cases p.content_type with
  | none => simp
  | some t => simp only [Option.map_some, Option.getD_some, List.append_assoc]

end Part

section Element

variable {boundary text front after : Bytes} {pos : ℕ} {p : Part}

/-- There is no carriage return in a parameter. -/
theorem cr_not_mem_parameter {key value : Bytes} (hkey : 13 ∉ key) (hvalue : 13 ∉ value) :
    13 ∉ Part.parameter key value := by
  unfold Part.parameter Part.quoted
  simp only [List.mem_append, List.mem_cons, List.not_mem_nil, or_false, not_or]
  exact ⟨⟨⟨by decide, hkey⟩, by decide⟩, ⟨by decide, hvalue⟩, by decide⟩

/-- There is no carriage return in the line of the disposition. -/
theorem cr_not_mem_dispositionLine (hp : Sendable boundary p) : 13 ∉ p.dispositionLine := by
  unfold Part.dispositionLine
  simp only [List.mem_append, not_or]
  refine ⟨⟨by decide, cr_not_mem_parameter (by decide) hp.name.2.1⟩, ?_⟩
  cases hfile : p.filename with
  | none => exact List.not_mem_nil
  | some f => exact cr_not_mem_parameter (by decide) (hp.filename f hfile).2.1

/-- The headers have no empty line in them. -/
theorem clear_headers (hp : Sendable boundary p) (rest : Bytes) :
    Clear (crlf ++ crlf) (p.dispositionLine ++ p.secondLine) rest := by
  refine Clear.append (clear_of_head (cr_not_mem_dispositionLine hp)) ?_
  unfold Part.secondLine
  cases htype : p.content_type with
  | none => exact fun j hj => absurd hj (Nat.not_lt_zero j)
  | some t =>
      have ht := hp.content_type t htype
      have hline : 13 ∉ ascii "Content-Type: " ++ t := by
        rw [List.mem_append]
        exact fun h => h.elim (by decide) ht.1
      refine Clear.append (fun j hj hpre => ?_) (clear_of_head hline)
      -- a letter follows the line break
      have hone : j = 0 ∨ j = 1 := by
        simp only [crlf, List.length_cons, List.length_nil] at hj
        omega
      obtain rfl | rfl := hone
      · have hline := (List.cons_prefix_cons.mp (List.cons_prefix_cons.mp hpre).2).2
        exact absurd (List.cons_prefix_cons.mp hline).1 (by decide)
      · exact absurd (List.cons_prefix_cons.mp hpre).1 (by decide)

/-- The lines of the headers give the fields. -/
theorem headerLoop_headers {header_end : ℕ} (hp : Sendable boundary p) (hfree : p.Unbroken)
    (htext : text = front ++ (p.headers ++ (crlf ++ after))) (hpos : pos = front.length)
    (hend : header_end + 2 = pos + p.headers.length) :
    headerLoop text header_end pos {} = { p.disposition with data := [] } := by
  have hcrlf : crlf.length = 2 := rfl
  have hnotype : p.content_type = none → p.secondLine = [] := by
    intro hnone
    rw [Part.secondLine, hnone]
    rfl
  rw [Part.headers_eq] at htext hend
  have hfirst : text =
      front ++ (p.dispositionLine ++ (p.secondLine ++ crlf ++ (crlf ++ after))) := by
    rw [htext]
    simp only [List.append_assoc]
  have hcr : find text crlf pos = some (pos + p.dispositionLine.length) := by
    have hbreak : ∃ rest, p.secondLine ++ crlf ++ (crlf ++ after) = crlf ++ rest := by
      cases htype : p.content_type with
      | none => exact ⟨crlf ++ after, by rw [hnotype htype]; rfl⟩
      | some t => exact ⟨_, by rw [Part.secondLine, htype]; rfl⟩
    obtain ⟨rest, hrest⟩ := hbreak
    rw [hrest] at hfirst
    exact find_clear hfirst hpos (clear_of_head (cr_not_mem_dispositionLine hp))
  have hline := headerLine_disposition hfirst hpos rfl hfree
  simp only [List.length_append, hcrlf] at hend
  rw [headerLoop]
  split
  · rename_i hnone
    rw [hcr] at hnone
    cases hnone
  rename_i cr hsome
  obtain rfl := Option.some.inj (hcr.symm.trans hsome)
  simp only [hline]
  cases htype : p.content_type with
  | none =>
      have hshort : ¬ pos + p.dispositionLine.length + 2 < header_end := by
        rw [hnotype htype, List.length_nil] at hend
        omega
      rw [if_neg hshort, Part.disposition, htype]
      rfl
  | some t =>
      have hsecondLine : p.secondLine = crlf ++ (ascii "Content-Type: " ++ t) := by
        rw [Part.secondLine, htype]
        rfl
      have hfourteen : (ascii "Content-Type: ").length = 14 := rfl
      rw [hsecondLine, List.length_append, List.length_append, hcrlf, hfourteen] at hend
      rw [if_pos (by omega)]
      have hpos' : pos + p.dispositionLine.length + 2 =
          (front ++ p.dispositionLine ++ crlf).length := by
        simp only [List.length_append, hpos, hcrlf]
      have hsecond : text = (front ++ p.dispositionLine ++ crlf) ++
          (ascii "Content-Type: " ++ t ++ (crlf ++ (crlf ++ after))) := by
        rw [hfirst, hsecondLine]
        simp only [List.append_assoc]
      have ht := hp.content_type t htype
      have hfree13 : 13 ∉ ascii "Content-Type: " ++ t := by
        rw [List.mem_append]
        exact fun h => h.elim (by decide) ht.1
      have hcr' := find_clear hsecond hpos' (clear_of_head hfree13)
      have hline' := headerLine_type { name := p.name, filename := p.filename.getD [] } hsecond
        hpos' rfl
      rw [headerLoop]
      split
      · rename_i hnone
        have hlost : none = some _ := hnone.symm.trans hcr'
        cases hlost
      rename_i cr' hsome'
      obtain rfl := Option.some.inj (hcr'.symm.trans hsome')
      simp only [hline']
      rw [if_neg ?_, Part.disposition, htype]
      · rfl
      · rw [List.length_append, hfourteen]
        omega

/-- An element is decoded. -/
theorem parseDisposition_encode {stop : ℕ} (hp : Sendable boundary p) (hfree : p.Unbroken)
    (htext : text = front ++ (p.encode ++ after)) (hpos : pos = front.length)
    (hstop : stop = pos + p.encode.length) : parseDisposition text pos stop = p.disposition := by
  have hcrlf : crlf.length = 2 := rfl
  have hheaders : text = front ++ (p.headers ++ (crlf ++ (p.data ++ crlf ++ after))) := by
    rw [htext, Part.encode]
    simp only [List.append_assoc]
  have hlen : p.headers.length = (p.dispositionLine ++ p.secondLine).length + 2 := by
    rw [Part.headers_eq, List.length_append, hcrlf]
  have hstart : find text (ascii "Content-Disposition") pos = some pos := by
    have hhead : ascii "Content-Disposition: form-data" =
        ascii "Content-Disposition" ++ ascii ": form-data" := by
      decide
    have hsplit : text = front ++ ([] ++ (ascii "Content-Disposition" ++ (ascii ": form-data" ++
        Part.parameter (ascii "name") p.name ++
          (p.filename.map (Part.parameter (ascii "filename"))).getD [] ++ p.secondLine ++ crlf ++
            (crlf ++ (p.data ++ crlf ++ after))))) := by
      rw [hheaders, Part.headers_eq, Part.dispositionLine, hhead]
      simp only [List.append_assoc, List.nil_append]
    exact find_clear hsplit hpos (clear_of_head List.not_mem_nil)
  have hend : find text (crlf ++ crlf) pos =
      some (pos + (p.dispositionLine ++ p.secondLine).length) := by
    have hsplit : text = front ++ ((p.dispositionLine ++ p.secondLine) ++
        ((crlf ++ crlf) ++ (p.data ++ crlf ++ after))) := by
      rw [hheaders, Part.headers_eq]
      simp only [List.append_assoc]
    exact find_clear hsplit hpos (clear_headers hp _)
  have hstop' : stop = pos + p.headers.length + 2 + p.data.length + 2 := by
    rw [hstop, Part.encode]
    simp only [List.length_append, hcrlf]
    omega
  have hdata : text = (front ++ p.headers ++ crlf) ++ (p.data ++ (crlf ++ after)) := by
    rw [hheaders]
    simp only [List.append_assoc]
  have hfields : headerLoop text (pos + (p.dispositionLine ++ p.secondLine).length) pos {} =
      { p.disposition with data := [] } :=
    headerLoop_headers hp hfree hheaders hpos (by omega)
  have hcut : substr text (pos + (p.dispositionLine ++ p.secondLine).length + 4)
      ((stop : ℕ) - ((pos + (p.dispositionLine ++ p.secondLine).length : ℕ) + 4) - 2 : ℤ) =
        p.data := by
    refine substr_at hdata ?_ (by omega)
    simp only [List.length_append, hpos, hcrlf] at hlen ⊢
    omega
  unfold parseDisposition
  rw [if_neg (not_not.mpr hstart), hend]
  simp only [hfields, hcut]
  rw [if_neg (by omega)]
  rfl

/-- The delimiter does not begin in an element. -/
theorem clear_encode (hboundary : 13 ∉ boundary) (hp : Sendable boundary p) (rest : Bytes) :
    Clear (delimiter boundary) p.encode rest := by
  have hne : delimiter boundary ≠ [] := List.cons_ne_nil _ _
  have hstop : (13 : UInt8) ∉ delimiter boundary := by
    unfold delimiter
    rw [List.mem_append]
    exact fun h => h.elim (by decide) hboundary
  have hbreak : ∀ rest', Clear (delimiter boundary) ([10, 13, 10] : Bytes) rest' :=
    fun rest' => clear_of_head (by decide)
  have hline : ∀ rest', Clear (delimiter boundary) ([10] : Bytes) rest' :=
    fun rest' => clear_of_head (by decide)
  have hsplit : p.encode = (p.dispositionLine ++ p.secondLine ++ [13]) ++ ([10, 13, 10] ++
      ((p.data ++ [13]) ++ [10])) := by
    rw [Part.encode, Part.headers_eq]
    simp [crlf]
  have hheaders : ¬ delimiter boundary <:+: p.dispositionLine ++ p.secondLine := by
    intro hin
    apply hp.headers_free
    rw [Part.headers_eq]
    exact hin.trans (List.prefix_append _ _).isInfix
  rw [hsplit]
  exact (clear_of_stop hne hheaders hstop).append
    ((hbreak _).append ((clear_of_stop hne hp.data_free hstop).append (hline rest)))

end Element

/-! ## The form -/

/-- A form without parts is its last delimiter. -/
theorem encodeForm_nil (boundary : Bytes) :
    encodeForm boundary [] = delimiter boundary ++ ascii "--" :=
  rfl

/-- A form with a part is a delimiter, the part and the rest of the form. -/
theorem encodeForm_cons (boundary : Bytes) (p : Part) (parts : List Part) :
    encodeForm boundary (p :: parts) =
      delimiter boundary ++ (crlf ++ (p.encode ++ encodeForm boundary parts)) := by
  simp only [encodeForm, List.map_cons, List.flatten_cons, List.append_assoc]

/-- A form begins with a delimiter. -/
theorem encodeForm_head (boundary : Bytes) (parts : List Part) :
    ∃ rest, encodeForm boundary parts = delimiter boundary ++ rest := by
  cases parts with
  | nil => exact ⟨_, encodeForm_nil boundary⟩
  | cons p parts => exact ⟨_, encodeForm_cons boundary p parts⟩

/-- The elements behind a place are decoded, and nothing else. -/
theorem formLoop_encode {boundary : Bytes} (hboundary : 13 ∉ boundary) {tail : Bytes}
    (htail : ¬ delimiter boundary <:+: tail) {parts : List Part}
    (hparts : ∀ p ∈ parts, Sendable boundary p ∧ p.Unbroken) {text front : Bytes} {pos : ℕ}
    (htext : text = front ++ (encodeForm boundary parts ++ tail)) (hpos : pos = front.length) :
    formLoop (delimiter boundary) text pos = parts.map Part.disposition := by
  have hne : delimiter boundary ≠ [] := List.cons_ne_nil _ _
  induction parts generalizing front pos with
  | nil =>
      have hsplit : text = front ++ ([] ++ (delimiter boundary ++ (ascii "--" ++ tail))) := by
        rw [htext, encodeForm_nil]
        simp only [List.append_assoc, List.nil_append]
      have hstart : find text (delimiter boundary) pos = some pos :=
        find_clear hsplit hpos fun j hj => absurd hj (Nat.not_lt_zero j)
      have hbehind : text = (front ++ delimiter boundary ++ ascii "--") ++ tail := by
        rw [hsplit]
        simp only [List.append_assoc, List.nil_append]
      have hlen : pos + (delimiter boundary).length + 2 =
          (front ++ delimiter boundary ++ ascii "--").length := by
        simp only [List.length_append, hpos]
        rfl
      have hend :
          find text (delimiter boundary) (pos + (delimiter boundary).length + 2) = none := by
        rw [hlen, hbehind, find_front, findIn_eq_none htail]
        rfl
      have hlong : ¬ text.length < pos + (delimiter boundary).length + 2 := by
        rw [hlen, hbehind, List.length_append]
        omega
      rw [formLoop]
      split
      · rfl
      rename_i found hsome
      obtain rfl := Option.some.inj (hstart.symm.trans hsome)
      simp only
      rw [if_neg (fun h => hlong h.1)]
      split
      · rfl
      · rename_i boundary_end hsome'
        have hlost : none = some _ := hend.symm.trans hsome'
        cases hlost
  | cons p parts ih =>
      obtain ⟨hp, hfree⟩ := hparts p List.mem_cons_self
      have hcrlf : crlf.length = 2 := rfl
      obtain ⟨rest, hrest⟩ := encodeForm_head boundary parts
      have hsplit : text = front ++ ([] ++ (delimiter boundary ++ (crlf ++ (p.encode ++
          (encodeForm boundary parts ++ tail))))) := by
        rw [htext, encodeForm_cons]
        simp only [List.append_assoc, List.nil_append]
      have hstart : find text (delimiter boundary) pos = some pos :=
        find_clear hsplit hpos fun j hj => absurd hj (Nat.not_lt_zero j)
      have helement : text = (front ++ delimiter boundary ++ crlf) ++ (p.encode ++
          (encodeForm boundary parts ++ tail)) := by
        rw [hsplit]
        simp only [List.append_assoc, List.nil_append]
      have hpos' : pos + (delimiter boundary).length + 2 =
          (front ++ delimiter boundary ++ crlf).length := by
        simp only [List.length_append, hpos, hcrlf]
      have hend : find text (delimiter boundary) (pos + (delimiter boundary).length + 2) =
          some (pos + (delimiter boundary).length + 2 + p.encode.length) := by
        have hrest' : encodeForm boundary parts ++ tail = delimiter boundary ++ (rest ++ tail) := by
          rw [hrest, List.append_assoc]
        rw [hrest'] at helement
        exact find_clear helement hpos' (clear_encode hboundary hp _)
      have hlong : ¬ text.length < pos + (delimiter boundary).length + 2 := by
        rw [hpos', helement, List.length_append]
        omega
      have hafter : text = (front ++ delimiter boundary ++ crlf ++ p.encode) ++
          (encodeForm boundary parts ++ tail) := by
        rw [helement]
        simp only [List.append_assoc]
      have hpos'' : pos + (delimiter boundary).length + 2 + p.encode.length =
          (front ++ delimiter boundary ++ crlf ++ p.encode).length := by
        rw [List.length_append, hpos']
      have hrestParts := ih (fun q hq => hparts q (List.mem_cons_of_mem p hq)) hafter hpos''
      have hdecoded := parseDisposition_encode hp hfree helement hpos' rfl
      rw [formLoop]
      split
      · rename_i hnone
        rw [hstart] at hnone
        cases hnone
      rename_i found hsome
      obtain rfl := Option.some.inj (hstart.symm.trans hsome)
      simp only
      rw [if_neg (fun h => hlong h.1)]
      split
      · rename_i hnone
        have hlost : none = some _ := hnone.symm.trans hend
        cases hlost
      · rename_i boundary_end hsome'
        obtain rfl := Option.some.inj (hend.symm.trans hsome')
        rw [hdecoded, hrestParts, List.map_cons]

/-- The boundary is read from the content type. -/
theorem parseMultipartForm_eq (boundary text : Bytes) :
    parseMultipartForm (ascii "multipart/form-data; boundary=" ++ boundary) text =
      formLoop (delimiter boundary) text 0 := by
  have hsplit : ascii "multipart/form-data; boundary=" ++ boundary =
      [] ++ (ascii "multipart/form-data; " ++ (ascii "boundary=" ++ boundary)) := by
    have hhead : ascii "multipart/form-data; boundary=" =
        ascii "multipart/form-data; " ++ ascii "boundary=" := by
      decide
    rw [hhead]
    simp only [List.append_assoc, List.nil_append]
  have hfind : find (ascii "multipart/form-data; boundary=" ++ boundary) (ascii "boundary=") 0 =
      some 21 :=
    find_clear hsplit rfl (clear_of_head (by decide))
  have hletter : (ascii "multipart/form-data; boundary=" ++ boundary).getD (21 + 1) 0 ≠ quote := by
    have hget : (ascii "multipart/form-data; boundary=" ++ boundary).getD (21 + 1) 0 = 111 := rfl
    rw [hget]
    decide
  have hdrop : (ascii "multipart/form-data; boundary=" ++ boundary).drop
      (21 + (ascii "boundary=").length) = boundary := rfl
  unfold parseMultipartForm
  rw [hfind]
  simp only [hletter, if_false, hdrop]
  rfl

/-- **A form decodes to what was encoded exactly when no name and no filename has a `"; "`.**
SOURCE: stream.cc:281-401 -/
theorem multipart_decodes_iff {boundary : Bytes} (hboundary : 13 ∉ boundary ∧ 10 ∉ boundary)
    {parts : List Part} (hparts : ∀ p ∈ parts, Sendable boundary p) {tail : Bytes}
    (htail : ¬ delimiter boundary <:+: tail) :
    parseMultipartForm (ascii "multipart/form-data; boundary=" ++ boundary)
        (encodeForm boundary parts ++ tail) = parts.map Part.disposition ↔
      ∀ p ∈ parts, p.Unbroken := by
  constructor
  · intro hdecoded p hp
    have hall := parseMultipartForm_unbroken (ascii "multipart/form-data; boundary=" ++ boundary)
      (encodeForm boundary parts ++ tail)
    rw [hdecoded] at hall
    obtain ⟨hname, hfilename⟩ := hall p.disposition (List.mem_map_of_mem hp)
    refine ⟨hname, fun f hf => ?_⟩
    rw [Part.disposition, Option.mem_def.mp hf] at hfilename
    exact hfilename
  · intro hfree
    rw [parseMultipartForm_eq]
    exact formLoop_encode hboundary.1 htail (fun p hp => ⟨hparts p hp, hfree p hp⟩)
      (List.nil_append _).symm rfl

/-- A file as it is uploaded. -/
def filePart (filename : Bytes) : Part where
  name := ascii "name_of_files"
  filename := some filename
  content_type := some (ascii "application/octet-stream")
  data := ascii "Error: hello" ++ crlf ++ crlf ++ ascii "c=d; e"

instance (s : Bytes) : Decidable (NameText s) :=
  inferInstanceAs (Decidable (_ ∧ _))

/-- A file whose name may stand in quotes can be sent. -/
theorem filePart_sendable {filename : Bytes} (hname : NameText filename)
    (hheaders : ¬ delimiter (ascii "138505") <:+: (filePart filename).headers) :
    Sendable (ascii "138505") (filePart filename) where
  name := show NameText (ascii "name_of_files") by decide
  filename := by
    intro f hf
    obtain rfl := Option.some.inj hf
    exact hname
  content_type := by
    intro t ht
    obtain rfl := Option.some.inj ht
    decide
  headers_free := hheaders
  data_free := by
    show ¬ delimiter (ascii "138505") <:+:
      ascii "Error: hello" ++ crlf ++ crlf ++ ascii "c=d; e"
    decide +kernel

/-- A field of a form that is not a file. -/
def fieldPart : Part where
  name := ascii "comment"
  filename := none
  content_type := none
  data := ascii "hello"

/-- The example's field can be sent. -/
theorem fieldPart_sendable : Sendable (ascii "138505") fieldPart where
  name := show NameText (ascii "comment") by decide
  filename := fun _ hf => nomatch hf
  content_type := fun _ ht => nomatch ht
  headers_free := by decide +kernel
  data_free := show ¬ delimiter (ascii "138505") <:+: ascii "hello" by decide +kernel

/-- Two files and a field. -/
def threeParts : List Part :=
  [filePart (ascii "foo"), fieldPart, filePart (ascii "a;b.jpg")]

/-- The three parts of the example can be sent. -/
theorem threeParts_sendable : ∀ p ∈ threeParts, Sendable (ascii "138505") p := by
  simp only [threeParts, List.forall_mem_cons]
  exact ⟨filePart_sendable (by decide) (by decide +kernel), fieldPart_sendable,
    filePart_sendable (by decide) (by decide +kernel), fun _ h => absurd h List.not_mem_nil⟩

/-- A file without a separator in its name is unbroken. -/
theorem filePart_unbroken {filename : Bytes} (h : ¬ ascii "; " <:+: filename) :
    (filePart filename).Unbroken := by
  refine ⟨show ¬ ascii "; " <:+: ascii "name_of_files" by decide +kernel, fun f hf => ?_⟩
  obtain rfl := Option.some.inj hf
  exact h

/-- The example's field is unbroken. -/
theorem fieldPart_unbroken : fieldPart.Unbroken :=
  ⟨show ¬ ascii "; " <:+: ascii "comment" by decide +kernel, fun _ hf => nomatch hf⟩

/-- The three parts of the example are unbroken. -/
theorem threeParts_unbroken : ∀ p ∈ threeParts, p.Unbroken := by
  simp only [threeParts, List.forall_mem_cons]
  exact ⟨filePart_unbroken (by decide +kernel), fieldPart_unbroken,
    filePart_unbroken (by decide +kernel), fun _ h => absurd h List.not_mem_nil⟩

/-- A semicolon without a space behind it ends no value.
SOURCE: stream.cc:288-398 -/
theorem multipart_decodes_iff_threeParts :
    parseMultipartForm (ascii "multipart/form-data; boundary=" ++ ascii "138505")
        (encodeForm (ascii "138505") threeParts ++ crlf) = threeParts.map Part.disposition :=
  (multipart_decodes_iff (by decide) threeParts_sendable (by decide)).mpr threeParts_unbroken

/-- Every form decodes to what was encoded. -/
def MultipartDecodes : Prop :=
  ∀ (boundary : Bytes) (parts : List Part), 13 ∉ boundary ∧ 10 ∉ boundary →
    (∀ p ∈ parts, Sendable boundary p) →
    parseMultipartForm (ascii "multipart/form-data; boundary=" ++ boundary)
      (encodeForm boundary parts) = parts.map Part.disposition

/-- A file named `a; b.jpg` does not. -/
theorem not_multipartDecodes : ¬ MultipartDecodes := by
  intro hdecodes
  have hsendable : ∀ p ∈ [filePart (ascii "a; b.jpg")], Sendable (ascii "138505") p :=
    List.forall_mem_singleton.mpr (filePart_sendable (by decide) (by decide +kernel))
  have hdecoded := hdecodes (ascii "138505") [filePart (ascii "a; b.jpg")] (by decide) hsendable
  have hall := parseMultipartForm_unbroken
    (ascii "multipart/form-data; boundary=" ++ ascii "138505")
    (encodeForm (ascii "138505") [filePart (ascii "a; b.jpg")])
  rw [hdecoded] at hall
  exact (hall _ (List.mem_singleton.mpr rfl)).2 ⟨ascii "a", ascii "b.jpg", rfl⟩

end Cwf

end BundleStore
