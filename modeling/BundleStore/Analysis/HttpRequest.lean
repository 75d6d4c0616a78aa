import BundleStore.Analysis.CookiePairs
import BundleStore.Analysis.Multipart
import BundleStore.Model.HttpRequest

set_option autoImplicit false

/-!
# What a FastCGI call asks for

Every header has the last value that the environment gives it, under its own name or
behind `HTTP_`. The body is read whole, in whatever pieces it comes. So a form that is
sent gives its files in their order, and each field the data of the first part that is
named so.
-/

namespace BundleStore

namespace Cwf

open Text

/-! ## The body -/

namespace InStream

variable {stream : InStream} {n : ℕ}

/-- The loop reads what is in the buffer and in the fills, up to the length.
SOURCE: stream.h:27-122 -/
theorem text_getLoop (n : ℕ) (buffer : Bytes) (fills : List Bytes) :
    (getLoop n buffer fills).1 = (buffer ++ fills.flatten).take n ∧
      (getLoop n buffer fills).2.text = (buffer ++ fills.flatten).drop n := by
  induction fills generalizing n buffer with
  | nil =>
      rw [List.flatten_nil, List.append_nil]
      unfold getLoop
      by_cases h : n ≤ buffer.length ∧ buffer ≠ []
      · rw [if_pos h]
        exact ⟨rfl, List.append_nil _⟩
      · have hshort : buffer.length ≤ n := by
          by_contra hlt
          refine h ⟨by omega, ?_⟩
          rintro rfl
          exact hlt (Nat.zero_le n)
        rw [if_neg h, List.take_of_length_le hshort, List.drop_of_length_le hshort]
        exact ⟨rfl, rfl⟩
  | cons fill fills ih =>
      unfold getLoop
      by_cases h : n ≤ buffer.length ∧ buffer ≠ []
      · rw [if_pos h, List.take_append_of_le_length h.1, List.drop_append_of_le_length h.1]
        exact ⟨rfl, rfl⟩
      · have hshort : buffer.length ≤ n := by
          by_contra hlt
          refine h ⟨by omega, ?_⟩
          rintro rfl
          exact hlt (Nat.zero_le n)
        obtain ⟨hread, hrest⟩ := ih (n - buffer.length) fill
        rw [if_neg h, List.flatten_cons, List.take_append, List.drop_append,
          List.take_of_length_le hshort, List.drop_of_length_le hshort]
        exact ⟨congrArg (buffer ++ ·) hread, hrest⟩

/-- What `FCGX_GetStr` gives, and what it leaves. -/
theorem getStr_text (stream : InStream) (n : ℕ) :
    (stream.getStr n).1 = stream.text.take n ∧ (stream.getStr n).2.text = stream.text.drop n := by
  unfold getStr
  by_cases hnone : stream.isClosed = true ∨ n = 0
  · rw [if_pos hnone]
    rcases hnone with hclosed | rfl
    · simp [text, hclosed]
    · simp
  · rw [if_neg hnone]
    have hopen : stream.isClosed = false := by
      cases hclosed : stream.isClosed with
      | true => exact absurd (.inl hclosed) hnone
      | false => rfl
    have htext : stream.text = stream.buffer ++ stream.fills.flatten := by
      simp [text, hopen]
    by_cases hfast : n ≤ stream.buffer.length
    · rw [if_pos hfast, htext, List.take_append_of_le_length hfast,
        List.drop_append_of_le_length hfast]
      simp [text, hopen]
    · rw [if_neg hfast, htext]
      exact text_getLoop n stream.buffer stream.fills

end InStream

namespace Request

/-- **The body is read whole**, however the connection cuts it.
SOURCE: stream.cc:191-199 -/
theorem readBody_text {buf_size : ℕ} (rounds : ℕ) (stream : InStream)
    (hrounds : stream.text.length < rounds * buf_size) :
    (readBody buf_size rounds stream).1 = stream.text := by
  induction rounds generalizing stream with
  | zero => omega
  | succ rounds ih =>
      obtain ⟨hread, hrest⟩ := stream.getStr_text buf_size
      unfold readBody
      dsimp only
      rw [hread, List.length_take]
      by_cases hfull : min buf_size stream.text.length = buf_size
      · rw [if_pos hfull]
        dsimp only
        rw [ih _ ?_, hrest, List.take_append_drop]
        rw [hrest, List.length_drop]
        rw [Nat.succ_mul] at hrounds
        omega
      · rw [if_neg hfull]
        exact List.take_of_length_le (by omega)

/-- The request is made of the environment and of the whole body.
SOURCE: stream.cc:126-249 -/
theorem init_eq (stream : InStream) (envp : List Bytes) :
    (init stream envp).1 =
      if (takeEnvs {} envp).method_ = .HV_POST then (takeEnvs {} envp).takeBody stream.text
      else takeEnvs {} envp := by
  unfold init
  rw [readBody_text _ stream (by omega)]

/-! ## The environment -/

/-- The value that a string of the environment gives to a name. -/
def entry (str : Bytes) : Option (Bytes × Bytes) :=
  match splitEqual str with
  | none => none
  | some (name, value) => if value = [] then none else some (name, value)

/-- The names that are not those of headers. -/
def OwnName (name : Bytes) : Prop :=
  name = ascii "QUERY_STRING" ∨ name = ascii "REQUEST_METHOD" ∨ name = ascii "REQUEST_URI"

instance (name : Bytes) : Decidable (OwnName name) :=
  inferInstanceAs (Decidable (_ ∨ _))

/-- The header that a name of the environment stands for. -/
def headerName (name : Bytes) : Option Bytes :=
  if ascii "HTTP_" <+: name then some (name.drop (ascii "HTTP_").length)
  else if OwnName name then none
  else some name

/-- The headers that the environment gives, in its order. -/
def headerEntries (envp : List Bytes) : List (Bytes × Bytes) :=
  envp.filterMap fun str => (entry str).bind fun e => (headerName e.1).map fun name => (name, e.2)

/-- The values that the environment gives to a name, in its order. -/
def valuesOf (name : Bytes) (envp : List Bytes) : List Bytes :=
  envp.filterMap fun str => (entry str).bind fun e => if e.1 = name then some e.2 else none

/-- A name that is assigned is looked up with its new value. -/
theorem lookup_map_assign (m : StringMap) (key value name : Bytes) :
    (m.map fun e => if e.1 = key then (key, value) else e).lookup name =
      if key = name then (m.lookup name).map fun _ => value else m.lookup name := by
  induction m with
  | nil => simp
  | cons e m ih =>
      rw [List.map_cons, List.lookup_cons, List.lookup_cons, ih]
      by_cases he : e.1 = key
      · by_cases hkey : key = name
        · simp [he, hkey]
        · have hbeq : (name == key) = false := beq_eq_false_iff_ne.mpr (Ne.symm hkey)
          simp [he, hkey, hbeq]
      · by_cases hkey : key = name
        · subst hkey
          have hbeq : (key == e.1) = false := beq_eq_false_iff_ne.mpr (Ne.symm he)
          simp [he, hbeq]
        · simp [he, hkey]

/-- A name that is assigned is looked up with its value. -/
theorem lookup_assign (m : StringMap) (key value name : Bytes) :
    (m.assign key value).lookup name = if key = name then some value else m.lookup name := by
  unfold StringMap.assign
  cases hlookup : m.lookup key with
  | none =>
      dsimp only
      rw [List.lookup_append, List.lookup_singleton, beq_eq_decide]
      by_cases hkey : key = name
      · subst hkey
        simp [hlookup]
      · simp [hkey, Ne.symm hkey]
  | some old =>
      dsimp only
      rw [lookup_map_assign]
      by_cases hkey : key = name
      · subst hkey
        simp [hlookup]
      · simp [hkey]

/-- What one string of the environment does. -/
theorem takeEnv_eq (q : Request) (str : Bytes) :
    q.takeEnv str = match entry str with
      | none => q
      | some (name, value) =>
          match headerName name with
          | some key => { q with header_ := q.header_.assign key value }
          | none =>
              if name = ascii "QUERY_STRING" then { q with query_string_ := value }
              else if name = ascii "REQUEST_METHOD" then
                { q with method_ := verbFromString q.method_ value }
              else { q with url_ := value } := by
  unfold takeEnv entry
  cases splitEqual str with
  | none => rfl
  | some e =>
      obtain ⟨name, value⟩ := e
      by_cases hvalue : value = []
      · simp only [if_pos hvalue]
      simp only [if_neg hvalue, headerName]
      by_cases hhttp : ascii "HTTP_" <+: name
      · simp only [if_pos hhttp]
      simp only [if_neg hhttp]
      by_cases hown : OwnName name
      · simp only [if_pos hown]
        rcases hown with rfl | rfl | rfl
        · rfl
        · rfl
        · rfl
      · simp only [if_neg hown]
        unfold OwnName at hown
        rw [not_or, not_or] at hown
        rw [if_neg hown.1, if_neg hown.2.1, if_neg hown.2.2]

/-- The headers behind each other. -/
theorem lookup_takeEnvs (q : Request) (envp : List Bytes) (key : Bytes) :
    (envp.foldl takeEnv q).header_.lookup key =
      (lastNamed key (headerEntries envp)).or (q.header_.lookup key) := by
  induction envp generalizing q with
  | nil => rfl
  | cons str envp ih =>
      rw [List.foldl_cons, ih, takeEnv_eq]
      unfold headerEntries
      rw [List.filterMap_cons]
      cases entry str with
      | none => rfl
      | some e =>
          obtain ⟨name, value⟩ := e
          cases hname : headerName name with
          | none =>
              simp only [hname, Option.bind_some, Option.map_none]
              split_ifs <;> rfl
          | some header =>
              simp only [hname, Option.bind_some, Option.map_some]
              rw [lookup_assign, ← List.singleton_append, lastNamed_append, lastNamed_singleton,
                Option.or_assoc]
              congr 1
              by_cases hkey : header = key
              · simp [hkey]
              · simp [hkey]

/-- A name that is no header's is its own. -/
theorem own_of_headerName {name : Bytes} (h : headerName name = none) : OwnName name := by
  unfold headerName at h
  split_ifs at h with _ hown
  exact hown

/-- The values of a name in one entry and the rest. -/
theorem valuesOf_cons (name str : Bytes) (envp : List Bytes) :
    valuesOf name (str :: envp) = valuesOf name [str] ++ valuesOf name envp := by
  rw [← List.singleton_append]
  exact List.filterMap_append

/-- A text that is no entry has no value. -/
theorem valuesOf_of_none {str : Bytes} (h : entry str = none) (own : Bytes) :
    valuesOf own [str] = [] := by
  simp [valuesOf, h]

/-- An entry has the value of its name. -/
theorem valuesOf_of_some {str name value : Bytes} (h : entry str = some (name, value))
    (own : Bytes) : valuesOf own [str] = if name = own then [value] else [] := by
  by_cases hname : name = own
  · simp [valuesOf, h, hname]
  · simp [valuesOf, h, hname]

/-- A field that only the strings of one name set. -/
theorem field_takeEnvs {β : Type} (f : Request → β) (own : Bytes) (g : β → Bytes → β)
    (hstep : ∀ q str, f (takeEnv q str) = (valuesOf own [str]).foldl g (f q)) (q : Request)
    (envp : List Bytes) : f (envp.foldl takeEnv q) = (valuesOf own envp).foldl g (f q) := by
  induction envp generalizing q with
  | nil => rfl
  | cons str envp ih =>
      rw [List.foldl_cons, ih, valuesOf_cons, List.foldl_append, hstep]

/-- The words for the method are taken one after the other. -/
theorem method_takeEnvs (q : Request) (envp : List Bytes) :
    (envp.foldl takeEnv q).method_ =
      (valuesOf (ascii "REQUEST_METHOD") envp).foldl verbFromString q.method_ := by
  apply field_takeEnvs (fun q => q.method_)
  intro q str
  rw [takeEnv_eq]
  cases hentry : entry str with
  | none =>
      rw [valuesOf_of_none hentry]
      rfl
  | some e =>
      obtain ⟨name, value⟩ := e
      rw [valuesOf_of_some hentry]
      dsimp only
      by_cases hname : name = ascii "REQUEST_METHOD"
      · subst hname
        rfl
      · simp only [if_neg hname]
        cases headerName name with
        | some key => rfl
        | none =>
            dsimp only
            split_ifs <;> rfl

/-- The last `REQUEST_URI` counts. -/
theorem url_takeEnvs (q : Request) (envp : List Bytes) :
    (envp.foldl takeEnv q).url_ =
      (valuesOf (ascii "REQUEST_URI") envp).foldl (fun _ value => value) q.url_ := by
  apply field_takeEnvs (fun q => q.url_)
  intro q str
  rw [takeEnv_eq]
  cases hentry : entry str with
  | none =>
      rw [valuesOf_of_none hentry]
      rfl
  | some e =>
      obtain ⟨name, value⟩ := e
      rw [valuesOf_of_some hentry]
      dsimp only
      by_cases hname : name = ascii "REQUEST_URI"
      · subst hname
        rfl
      · simp only [if_neg hname]
        cases hheader : headerName name with
        | some key => rfl
        | none =>
            have hown := own_of_headerName hheader
            dsimp only
            rcases hown with rfl | rfl | rfl
            · rfl
            · rfl
            · exact absurd rfl hname

/-- The environment gives no form. -/
theorem form_takeEnvs (q : Request) (envp : List Bytes) :
    (envp.foldl takeEnv q).form_ = q.form_ ∧
      (envp.foldl takeEnv q).file_array_ = q.file_array_ := by
  induction envp generalizing q with
  | nil => exact ⟨rfl, rfl⟩
  | cons str envp ih =>
      have hstep : (takeEnv q str).form_ = q.form_ ∧
          (takeEnv q str).file_array_ = q.file_array_ := by
        unfold takeEnv
        split
        · exact ⟨rfl, rfl⟩
        · split_ifs <;> exact ⟨rfl, rfl⟩
      obtain ⟨hform, hfiles⟩ := ih (takeEnv q str)
      exact ⟨hform.trans hstep.1, hfiles.trans hstep.2⟩

/-- What a request has of its environment.
SOURCE: stream.cc:126-184 -/
theorem takeEnvs_eq (envp : List Bytes) :
    (∀ key, (takeEnvs {} envp).header key =
      (lastNamed key (headerEntries envp)).getD []) ∧
    (takeEnvs {} envp).method_ =
      (valuesOf (ascii "REQUEST_METHOD") envp).foldl verbFromString .HV_GET ∧
    (takeEnvs {} envp).url_ =
      (valuesOf (ascii "REQUEST_URI") envp).foldl (fun _ value => value) [] ∧
    (takeEnvs {} envp).form_ = [] ∧ (takeEnvs {} envp).file_array_ = [] := by
  have hsame : ∀ {β : Type} (f : Request → β),
      (∀ q : Request, ∀ host cookie query,
        f { q with host_ := host, cookie_ := cookie, query_ := query } = f q) →
      f (takeEnvs {} envp) = f (envp.foldl takeEnv {}) := by
    intro β f hf
    unfold takeEnvs
    dsimp only
    split_ifs
    · exact hf (envp.foldl takeEnv {}) _ _ _
    · exact hf (envp.foldl takeEnv {}) _ _ _
  refine ⟨fun key => ?_, ?_, ?_, ?_, ?_⟩
  · rw [hsame (fun q => q.header key) fun _ _ _ _ => rfl]
    unfold header
    rw [lookup_takeEnvs, List.lookup_nil, Option.or_none]
  · rw [hsame (fun q => q.method_) fun _ _ _ _ => rfl]
    exact method_takeEnvs {} envp
  · rw [hsame (fun q => q.url_) fun _ _ _ _ => rfl]
    exact url_takeEnvs {} envp
  · rw [hsame (fun q => q.form_) fun _ _ _ _ => rfl]
    exact (form_takeEnvs {} envp).1
  · rw [hsame (fun q => q.file_array_) fun _ _ _ _ => rfl]
    exact (form_takeEnvs {} envp).2

/-! ## Forms -/

/-- A name that is inserted keeps its first value. -/
theorem lookup_insert (m : StringMap) (key value name : Bytes) :
    (m.insert key value).lookup name =
      (m.lookup name).or (if key = name then some value else none) := by
  unfold StringMap.insert
  cases hlookup : m.lookup key with
  | none =>
      dsimp only
      rw [List.lookup_append, List.lookup_singleton, beq_eq_decide]
      simp [eq_comm]
  | some old =>
      dsimp only
      by_cases hkey : key = name
      · subst hkey
        simp [hlookup]
      · simp [hkey]

/-- The parts of a form: the files, and the first part of each name among the others. -/
theorem foldl_addPart (q : Request) (parts : List FormDisposition) :
    (parts.foldl addPart q).file_array_ =
        q.file_array_ ++ parts.filter (fun afd => afd.filename ≠ []) ∧
      ∀ key, (parts.foldl addPart q).form_.lookup key = (q.form_.lookup key).or
        ((parts.find? fun afd => afd.filename = [] ∧ afd.name = key).map fun afd => afd.data) := by
  induction parts generalizing q with
  | nil => simp
  | cons afd parts ih =>
      obtain ⟨hfiles, hform⟩ := ih (q.addPart afd)
      by_cases hname : afd.filename = []
      · have hadd : q.addPart afd = { q with form_ := q.form_.insert afd.name afd.data } :=
          if_pos hname
        refine ⟨?_, fun key => ?_⟩
        · rw [List.foldl_cons, hfiles, hadd]
          simp [hname]
        · rw [List.foldl_cons, hform, hadd, lookup_insert, Option.or_assoc]
          by_cases hkey : afd.name = key
          · simp [hname, hkey]
          · simp [hname, hkey]
      · have hadd : q.addPart afd = { q with file_array_ := q.file_array_ ++ [afd] } :=
          if_neg hname
        refine ⟨?_, fun key => ?_⟩
        · rw [List.foldl_cons, hfiles, hadd]
          simp [hname]
        · rw [List.foldl_cons, hform, hadd]
          simp [hname]

/-- Parts that are added leave the URL and the method. -/
theorem foldl_addPart_kept (q : Request) (parts : List FormDisposition) :
    (parts.foldl addPart q).url_ = q.url_ ∧ (parts.foldl addPart q).method_ = q.method_ := by
  induction parts generalizing q with
  | nil => exact ⟨rfl, rfl⟩
  | cons afd parts ih =>
      have hadd : (q.addPart afd).url_ = q.url_ ∧ (q.addPart afd).method_ = q.method_ := by
        unfold addPart
        split_ifs <;> exact ⟨rfl, rfl⟩
      obtain ⟨hurl, hmethod⟩ := ih (q.addPart afd)
      exact ⟨hurl.trans hadd.1, hmethod.trans hadd.2⟩

/-- The body of a form is taken apart. -/
theorem takeBody_form {q : Request} {boundary tail : Bytes} {parts : List Part}
    (htype : q.header (ascii "CONTENT_TYPE") = ascii "multipart/form-data; boundary=" ++ boundary)
    (hboundary : 13 ∉ boundary) (hparts : ∀ p ∈ parts, Sendable boundary p ∧ p.Unbroken)
    (htail : ¬ delimiter boundary <:+: tail) :
    q.takeBody (encodeForm boundary parts ++ tail) =
      (parts.map Part.disposition).foldl addPart q := by
  have hne : encodeForm boundary parts ++ tail ≠ [] := by
    obtain ⟨rest, hhead⟩ := encodeForm_head boundary parts
    rw [hhead]
    exact List.cons_ne_nil _ _
  have hpart : partType (ascii "multipart/form-data; boundary=" ++ boundary) =
      ascii "multipart/form-data" := rfl
  have hparsed : parseMultipartForm (ascii "multipart/form-data; boundary=" ++ boundary)
      (encodeForm boundary parts ++ tail) = parts.map Part.disposition := by
    rw [parseMultipartForm_eq]
    exact formLoop_encode hboundary htail hparts (List.nil_append _).symm rfl
  unfold takeBody
  rw [if_neg hne, htype]
  dsimp only
  rw [hpart, if_neg (by decide), if_pos rfl, hparsed]

/-- **A form that is sent arrives.** The last values that the environment gives to the
method and the content type count, and the body may come in any pieces.
SOURCE: stream.cc:126-249, 312-401 -/
theorem form_arrives {stream : InStream} {envp : List Bytes} {boundary tail : Bytes}
    {parts : List Part}
    (hmethod : (valuesOf (ascii "REQUEST_METHOD") envp).foldl verbFromString .HV_GET = .HV_POST)
    (htype : lastNamed (ascii "CONTENT_TYPE") (headerEntries envp) =
      some (ascii "multipart/form-data; boundary=" ++ boundary))
    (hboundary : 13 ∉ boundary) (hparts : ∀ p ∈ parts, Sendable boundary p ∧ p.Unbroken)
    (htail : ¬ delimiter boundary <:+: tail)
    (hbody : stream.text = encodeForm boundary parts ++ tail) :
    let q := (init stream envp).1
    q.file_array_ = (parts.map Part.disposition).filter (fun afd => afd.filename ≠ []) ∧
      (∀ key, q.form key = (((parts.map Part.disposition).find? fun afd =>
        afd.filename = [] ∧ afd.name = key).map fun afd => afd.data).getD []) ∧
      q.url_ = (valuesOf (ascii "REQUEST_URI") envp).foldl (fun _ value => value) [] ∧
      q.method_ = .HV_POST := by
  obtain ⟨hheader, hverb, hurl, hform, hfiles⟩ := takeEnvs_eq envp
  have hpost := hverb.trans hmethod
  have hcontent := hheader (ascii "CONTENT_TYPE")
  rw [htype, Option.getD_some] at hcontent
  obtain ⟨hfold, hfields⟩ := foldl_addPart (takeEnvs {} envp) (parts.map Part.disposition)
  obtain ⟨hsameUrl, hsameMethod⟩ :=
    foldl_addPart_kept (takeEnvs {} envp) (parts.map Part.disposition)
  dsimp only
  rw [init_eq, if_pos hpost, hbody, takeBody_form hcontent hboundary hparts htail]
  refine ⟨?_, fun key => ?_, hsameUrl.trans hurl, hsameMethod.trans hpost⟩
  · rw [hfold, hfiles, List.nil_append]
  · unfold form
    rw [hfields, hform, List.lookup_nil, Option.none_or]

/-- A form with two files and a field, in three pieces. -/
def sentStream : InStream :=
  let body := encodeForm (ascii "138505") threeParts ++ crlf
  ⟨body.take 7, [(body.drop 7).take 100, body.drop 107], false⟩

def sentEnv : List Bytes :=
  [ascii "REQUEST_METHOD=post", ascii "REQUEST_URI=/bundle", ascii "HTTP_HOST=localhost",
    ascii "CONTENT_TYPE=multipart/form-data; boundary=138505"]

/-- The files come in their order, and the field by its name.
SOURCE: stream.cc:126-249, 312-401 -/
theorem form_arrives_sent :
    let q := (init sentStream sentEnv).1
    q.file_array_ =
        [(filePart (ascii "foo")).disposition, (filePart (ascii "a;b.jpg")).disposition] ∧
      q.form (ascii "comment") = ascii "hello" ∧ q.url_ = ascii "/bundle" ∧
        q.method_ = .HV_POST := by
  obtain ⟨hfiles, hform, hurl, hmethod⟩ := @form_arrives sentStream sentEnv (ascii "138505") crlf
    threeParts (by decide +kernel) (by decide +kernel) (by decide +kernel)
    (fun p hp => ⟨threeParts_sendable p hp, threeParts_unbroken p hp⟩) (by decide +kernel)
    (by decide +kernel)
  exact ⟨hfiles, (hform _).trans (by decide +kernel), hurl, hmethod⟩

end Request

end Cwf

end BundleStore
