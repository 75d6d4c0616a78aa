import BundleStore.Analysis.MultipartBounds
import BundleStore.Model.MultipartWords

set_option autoImplicit false

/-!
# The multipart parser on any input

The parser ends on every text, gives what the description with unbounded positions gives, calls
`substr` inside its strings only, and never goes back.
-/

namespace BundleStore

namespace Cwf

namespace Words

open Text

def Event.place : Event → Option ℕ
  | .visit pos => some pos.toNat
  | _ => none

/-- `substr` does not throw, and no length is negative. -/
def Event.Safe : Event → Prop
  | .visit _ => True
  | .cut size start => start.toNat ≤ size
  | .length start stop => start.toNat ≤ stop.toNat

/-- The parser gives `a`, safely, and goes forward from `lo` to `hi`. -/
abbrev Runs {α : Type} (lo hi : ℕ) (m : Parse α) (a : α) : Prop :=
  Logged.Spans Event.place Event.Safe lo hi m a

variable {text needle : Bytes} {a b k n lo hi : ℕ} {rounds : ℕ}

/-! ## Words below the size of a string -/

/-- The value of a word. -/
theorem toNat_word (h : n < 2 ^ 64) : (UInt64.ofNat n).toNat = n :=
  UInt64.toNat_ofNat_of_lt' h

/-- Words are in the order of their values. -/
theorem word_lt (ha : a < 2 ^ 64) (hb : b < 2 ^ 64) :
    UInt64.ofNat a < UInt64.ofNat b ↔ a < b :=
  UInt64.ofNat_lt_iff_lt ha hb

/-- The sum of two words is the word of their sum. -/
theorem word_add (a b : ℕ) : UInt64.ofNat a + UInt64.ofNat b = .ofNat (a + b) :=
  (UInt64.ofNat_add a b).symm

/-- `npos` is the largest word. -/
theorem npos_eq : npos = UInt64.ofNat (2 ^ 64 - 1) :=
  rfl

/-- No position in a string is `npos`. -/
theorem word_ne_npos (h : n < 2 ^ 63) : npos ≠ UInt64.ofNat n := by
  intro heq
  have hnat := congrArg UInt64.toNat heq
  rw [toNat_word (by omega), npos_eq, toNat_word (by omega)] at hnat
  omega

/-- `find` answers the word of the position. -/
theorem find_word (hk : k < 2 ^ 64) (h : Search.find text needle k = some n) :
    find text needle (.ofNat k) = .ofNat n := by
  rw [find, toNat_word hk, h]

/-- `find` answers `npos` where nothing is found. -/
theorem find_npos (hk : k < 2 ^ 64) (h : Search.find text needle k = none) :
    find text needle (.ofNat k) = npos := by
  rw [find, toNat_word hk, h]

/-! ## The calls that cut -/

/-- A visit of a position. -/
theorem visit_runs (h : n < 2 ^ 63) : Runs n (n + 1) (visit (.ofNat n)) () :=
  Logged.Spans.visit (congrArg some (toNat_word (by omega))) trivial

/-- `substr` from a position inside the text does not throw. -/
theorem substr_runs (htext : text.length < 2 ^ 63) (h : n ≤ text.length) (count : UInt64)
    (hle : lo ≤ hi) :
    Runs lo hi (substr text (.ofNat n) count) (ByteSeq.slice text n count.toNat) := by
  have hn : (UInt64.ofNat n).toNat = n := toNat_word (by omega)
  have hsafe : Event.Safe (.cut text.length (.ofNat n)) := by
    show (UInt64.ofNat n).toNat ≤ text.length
    rwa [hn]
  refine Logged.Spans.bind (Logged.Spans.emit rfl hsafe (Nat.le_refl lo)) ?_
  rw [hn, if_neg (Nat.not_lt.mpr h)]
  exact Logged.Spans.pure hle _

/-- `substr` between two positions gives what stands between them. -/
theorem between_runs (htext : text.length < 2 ^ 63) (hab : a ≤ b) (hb : b ≤ text.length)
    {count : ℤ} (hcount : count = b - a) (hle : lo ≤ hi) :
    Runs lo hi (between text (.ofNat a) (.ofNat b)) (Cwf.substr text a count) := by
  have hsafe : Event.Safe (.length (.ofNat a) (.ofNat b)) := by
    show (UInt64.ofNat a).toNat ≤ (UInt64.ofNat b).toNat
    rwa [toNat_word (by omega), toNat_word (by omega)]
  refine Logged.Spans.bind (Logged.Spans.emit rfl hsafe (Nat.le_refl lo)) ?_
  have hsub : (UInt64.ofNat b - UInt64.ofNat a).toNat = count.toNat := by
    rw [← UInt64.ofNat_sub hab, toNat_word (by omega)]
    omega
  rw [Cwf.substr, if_neg (by omega), ← hsub]
  exact substr_runs htext (hab.trans hb) _ hle

/-- The quotes are taken off inside the text.
SOURCE: stream.cc:281-286 -/
theorem removeQuote_runs (htext : text.length < 2 ^ 63) (hle : lo ≤ hi) :
    Runs lo hi (removeQuote text) (Cwf.removeQuote text) := by
  unfold removeQuote Cwf.removeQuote
  split
  · rename_i hquoted
    have hcount : (UInt64.ofNat text.length - 2).toNat = text.length - 2 := by
      show (UInt64.ofNat text.length - UInt64.ofNat 2).toNat = _
      rw [← UInt64.ofNat_sub hquoted.1, toNat_word (by omega)]
    rw [← hcount]
    exact substr_runs htext (Nat.le_of_succ_le hquoted.1) _ hle
  · exact Logged.Spans.pure hle _

/-- What is cut out is no longer than the text. -/
theorem length_substr_le (text : Bytes) (n : ℕ) (count : ℤ) :
    (Cwf.substr text n count).length ≤ text.length := by
  unfold Cwf.substr
  split
  · rw [List.length_drop]
    exact Nat.sub_le _ _
  · rw [ByteSeq.length_slice]
    omega

/-! ## The loops -/

/-- The letters of a word where it has been found. -/
theorem getElem?_of_find {pos : ℕ} (h : Search.find text needle pos = some k) {i : ℕ}
    (hi : i < needle.length) : text[k + i]? = needle[i]? := by
  obtain ⟨rest, hrest⟩ := (Search.find_some h).2.2.1
  rw [← List.getElem?_drop, ← hrest, List.getElem?_append_left hi]

/-- Another letter is not at the place of either letter of a word of two. -/
theorem add_two_le_of_find {pos : ℕ} {x y z : UInt8} {zs : Bytes} (hxz : x ≠ z) (hyz : y ≠ z)
    (ha : Search.find text [x, y] pos = some a) (hab : a ≤ b)
    (hb : z :: zs <+: text.drop b) : a + 2 ≤ b := by
  have hz : text[b]? = some z := by
    obtain ⟨rest, hrest⟩ := hb
    rw [← Nat.add_zero b, ← List.getElem?_drop, ← hrest]
    rfl
  have hx : text[a]? = some x := getElem?_of_find ha (i := 0) (by simp)
  have hy : text[a + 1]? = some y := getElem?_of_find ha (i := 1) (by simp)
  by_contra hshort
  obtain rfl | rfl : b = a ∨ b = a + 1 := by omega
  · exact hxz (Option.some.inj (hx.symm.trans hz))
  · exact hyz (Option.some.inj (hy.symm.trans hz))

/-- The end of a value is at most that of the line.
SOURCE: stream.cc:326-328 -/
theorem valueEnd_word {cr par_end : ℕ} (hcr : cr < 2 ^ 63) (hpar : par_end < 2 ^ 63)
    (htext : text.length < 2 ^ 63) :
    (if UInt64.ofNat cr < find text (ascii "; ") (.ofNat par_end) then UInt64.ofNat cr
      else find text (ascii "; ") (.ofNat par_end)) = .ofNat (valueEnd text cr par_end) := by
  unfold valueEnd
  cases hfind : Search.find text (ascii "; ") par_end with
  | none =>
      rw [find_npos (by omega) hfind, npos_eq, if_pos]
      rw [word_lt (by omega) (by omega)]
      omega
  | some value_end =>
      have hle := (Search.find_some hfind).2.1
      rw [find_word (by omega) hfind]
      simp only [word_lt (show cr < 2 ^ 64 by omega) (show value_end < 2 ^ 64 by omega)]
      split
      · rfl
      · rfl

/-- A value ends behind the `=` in front of it. -/
theorem lt_valueEnd {cr par_start par_end : ℕ} (hcr : par_end < cr)
    (hend : Search.find text (ascii "=") par_start = some par_end) :
    par_end < valueEnd text cr par_end ∧ valueEnd text cr par_end ≤ cr := by
  unfold valueEnd
  cases hfind : Search.find text (ascii "; ") par_end with
  | none => exact ⟨hcr, Nat.le_refl cr⟩
  | some value_end =>
      have hlt : par_end < value_end := Search.lt_of_find (by decide) hend hfind
      show par_end < (if cr < value_end then cr else value_end) ∧
        (if cr < value_end then cr else value_end) ≤ cr
      split
      · exact ⟨hcr, by omega⟩
      · exact ⟨hlt, by omega⟩

/-- The loop over the parameters stays inside its line, by induction on the rounds.
SOURCE: stream.cc:319-341 -/
theorem parameterLoop_runs (htext : text.length < 2 ^ 63) {cr par_pos : ℕ} (hfive : 5 ≤ cr)
    (hcr : cr ≤ text.length) (hpos : par_pos < cr) (hrounds : text.length < rounds + par_pos)
    (afd : FormDisposition) :
    Runs par_pos cr (parameterLoop text (.ofNat cr) rounds (.ofNat par_pos) afd)
      (Cwf.parameterLoop text cr par_pos afd) := by
  have hsub (k : ℕ) (hk : k ≤ 5) : UInt64.ofNat cr - UInt64.ofNat k = .ofNat (cr - k) :=
    (UInt64.ofNat_sub (hk.trans hfive)).symm
  have hcr5 : UInt64.ofNat cr - 5 = .ofNat (cr - 5) := hsub 5 (Nat.le_refl 5)
  have hcr2 : UInt64.ofNat cr - 2 = .ofNat (cr - 2) := hsub 2 (by decide)
  induction rounds generalizing par_pos afd with
  | zero => omega
  | succ rounds ih =>
      generalize hresult : Cwf.parameterLoop text cr par_pos afd = result
      rw [parameterLoop]
      rw [Cwf.parameterLoop] at hresult
      refine Logged.Spans.bind (visit_runs (by omega)) ?_
      split at hresult
      · rename_i hstart
        rw [find_npos (by omega) hstart, npos_eq, hcr5, if_pos, ← hresult]
        · exact Logged.Spans.pure hpos _
        · rw [word_lt (by omega) (by omega)]
          omega
      · rename_i par_start hstart
        obtain ⟨hge, hle, -⟩ := Search.find_some hstart
        rw [find_word (by omega) hstart, hcr5]
        simp only [word_lt (show cr - 5 < 2 ^ 64 by omega) (show par_start < 2 ^ 64 by omega)]
        split at hresult
        · rw [if_pos (by omega), ← hresult]
          exact Logged.Spans.pure hpos _
        · rw [if_neg (by omega)]
          split at hresult
          · rename_i hend
            rw [find_npos (by omega) hend, npos_eq, hcr2, if_pos, ← hresult]
            · exact Logged.Spans.pure hpos _
            · rw [word_lt (by omega) (by omega)]
              omega
          · rename_i par_end hend
            obtain ⟨hge', hle', hat, -⟩ := Search.find_some hend
            rw [find_word (by omega) hend, hcr2, valueEnd_word (by omega) (by omega) htext]
            simp only [word_lt (show cr - 2 < 2 ^ 64 by omega)
              (show par_end < 2 ^ 64 by omega)]
            split at hresult
            · rw [if_pos (by omega), ← hresult]
              exact Logged.Spans.pure hpos _
            · rw [if_neg (by omega), ← hresult]
              have hname : par_start + 2 ≤ par_end :=
                add_two_le_of_find (by decide) (by decide) hstart hge' hat
              have hnames : UInt64.ofNat par_start + 2 = .ofNat (par_start + 2) :=
                word_add par_start 2
              have hvalues : UInt64.ofNat par_end + 1 = .ofNat (par_end + 1) :=
                word_add par_end 1
              rw [hnames, hvalues]
              obtain ⟨hvalue, hvalue'⟩ := lt_valueEnd (show par_end < cr by omega) hend
              refine Logged.Spans.bind (between_runs htext hname hle' rfl
                (Nat.le_refl (par_pos + 1))) ?_
              refine Logged.Spans.bind (between_runs htext hvalue (hvalue'.trans hcr) rfl
                (Nat.le_refl _)) ?_
              refine Logged.Spans.bind (removeQuote_runs
                (lt_of_le_of_lt (length_substr_le _ _ _) htext) (Nat.le_refl _)) ?_
              refine Logged.Spans.bind (removeQuote_runs
                (lt_of_le_of_lt (length_substr_le _ _ _) htext) (Nat.le_refl _)) ?_
              simp only [word_lt (show valueEnd text cr par_end < 2 ^ 64 by omega)
                (show cr < 2 ^ 64 by omega)]
              by_cases hmore : valueEnd text cr par_end < cr
              · rw [if_pos hmore, if_pos hmore]
                exact (ih hmore (by omega) _).mono (by omega) (Nat.le_refl cr)
              · rw [if_neg hmore, if_neg hmore]
                exact Logged.Spans.pure hpos _

/-- A line stays inside itself.
SOURCE: stream.cc:311-343 -/
theorem headerLine_runs (htext : text.length < 2 ^ 63) {p cr : ℕ}
    (hcr : Search.find text crlf p = some cr) (hrounds : text.length < rounds + 1 + p)
    (afd : FormDisposition) :
    Runs (p + 1) (cr + 1) (headerLine text (.ofNat p) (.ofNat cr) rounds afd)
      (Cwf.headerLine text p cr afd) := by
  obtain ⟨hp, hle, hat, -⟩ := Search.find_some hcr
  unfold headerLine Cwf.headerLine
  cases hfind : Search.find text (ascii ": ") p with
  | none =>
      rw [find_npos (by omega) hfind, if_neg fun h => h.1 rfl]
      exact Logged.Spans.pure (by omega) _
  | some name_end =>
      obtain ⟨hge, hle', -⟩ := Search.find_some hfind
      rw [find_word (by omega) hfind]
      simp only [word_lt (show name_end < 2 ^ 64 by omega) (show cr < 2 ^ 64 by omega)]
      by_cases hbehind : cr ≤ name_end
      · rw [if_pos hbehind, if_neg fun h => absurd h.2 (Nat.not_lt.mpr hbehind)]
        exact Logged.Spans.pure (by omega) _
      · rw [if_neg hbehind, if_pos ⟨word_ne_npos (by omega), Nat.not_le.mp hbehind⟩]
        refine Logged.Spans.bind (between_runs htext hge hle' rfl (Nat.le_refl _)) ?_
        have hvalue : name_end + 2 ≤ cr :=
          add_two_le_of_find (by decide) (by decide) hfind (by omega) hat
        split
        · have hvalues : UInt64.ofNat name_end + 2 = .ofNat (name_end + 2) :=
            word_add name_end 2
          rw [hvalues]
          refine Logged.Spans.bind (between_runs htext hvalue hle rfl (Nat.le_refl _)) ?_
          exact Logged.Spans.pure (by omega) _
        · split
          · rename_i hname
            have hlong := congrArg List.length hname
            have hcount : ((name_end : ℤ) - p).toNat = name_end - p := by omega
            rw [Cwf.substr, if_neg (by omega), ByteSeq.length_slice, hcount] at hlong
            have hnine : (ascii "Content-Disposition").length = 19 := rfl
            exact (parameterLoop_runs htext (by omega) hle (Nat.not_le.mp hbehind) (by omega)
              afd).mono (by omega) (by omega)
          · exact Logged.Spans.pure (by omega) _

/-- The loop over the lines stays inside the headers, by induction on the rounds.
SOURCE: stream.cc:307-346 -/
theorem headerLoop_runs (htext : text.length < 2 ^ 63) {header_end p : ℕ}
    (hend : crlf <+: text.drop header_end) (hle : header_end ≤ text.length)
    (hp : p < header_end) (hrounds : text.length < rounds + p) (afd : FormDisposition) :
    Runs p (header_end + 1) (headerLoop text (.ofNat header_end) rounds (.ofNat p) afd)
      (Cwf.headerLoop text header_end p afd) := by
  induction rounds generalizing p afd with
  | zero => omega
  | succ rounds ih =>
      generalize hresult : Cwf.headerLoop text header_end p afd = result
      rw [headerLoop]
      rw [Cwf.headerLoop] at hresult
      refine Logged.Spans.bind (visit_runs (by omega)) ?_
      split at hresult
      · rename_i hcr
        have hnone (k : ℕ) (hk : Search.find text crlf p = some k) : header_end < k := by
          cases hcr.symm.trans hk
        exact absurd hend (Search.not_prefix_drop (List.cons_ne_nil _ _) hp.le hnone)
      · rename_i cr hcr
        have hcr_le : cr ≤ header_end := by
          by_contra hfar
          exact (Search.find_some hcr).2.2.2 header_end hp.le (Nat.not_le.mp hfar) hend
        rw [find_word (by omega) hcr, ← hresult]
        refine Logged.Spans.bind (headerLine_runs htext hcr (by omega) afd) ?_
        have hnext : UInt64.ofNat cr + 2 = .ofNat (cr + 2) := word_add cr 2
        have hge := (Search.find_some hcr).1
        rw [hnext]
        simp only [word_lt (show cr + 2 < 2 ^ 64 by omega) (show header_end < 2 ^ 64 by omega)]
        by_cases hmore : cr + 2 < header_end
        · rw [if_pos hmore, if_pos hmore]
          exact (ih hmore (by omega) _).mono (by omega) (Nat.le_refl _)
        · rw [if_neg hmore, if_neg hmore]
          exact Logged.Spans.pure (by omega) _

/-- The bytes from the headers to the boundary, with a count that may be negative. -/
theorem data_runs (htext : text.length < 2 ^ 63) {header_end stop : ℕ}
    (hblank : header_end + 4 ≤ text.length) (hstop : stop < 2 ^ 64) (hle : header_end ≤ stop)
    (h : lo ≤ hi) :
    Runs lo hi
      (substr text (.ofNat header_end + 4) (.ofNat stop - (.ofNat header_end + 4) - 2))
      (Cwf.substr text (header_end + 4) (stop - (header_end + 4) - 2)) := by
  have hstart : UInt64.ofNat header_end + 4 = .ofNat (header_end + 4) :=
    word_add header_end 4
  rw [hstart]
  have hcut := substr_runs htext hblank (.ofNat stop - .ofNat (header_end + 4) - 2) h
  have hcount : (UInt64.ofNat stop - UInt64.ofNat (header_end + 4) - 2).toNat =
      (2 ^ 64 + stop - (header_end + 6)) % 2 ^ 64 := by
    rw [UInt64.toNat_sub, UInt64.toNat_sub, toNat_word hstop, toNat_word (by omega)]
    show (2 ^ 64 - 2 + (2 ^ 64 - (header_end + 4) + stop) % 2 ^ 64) % 2 ^ 64 = _
    omega
  have hdata : Cwf.substr text (header_end + 4) (stop - (header_end + 4) - 2) =
      ByteSeq.slice text (header_end + 4)
        ((2 ^ 64 + stop - (header_end + 6)) % 2 ^ 64) := by
    unfold Cwf.substr
    split
    · rw [ByteSeq.slice, List.take_of_length_le]
      rw [List.length_drop]
      omega
    · congr 1
      omega
  rw [hdata, ← hcount]
  exact hcut

/-- A part runs up to `hi`, when its headers end in front of `hi`. -/
theorem parseDisposition_runs (htext : text.length < 2 ^ 63) {start stop : ℕ}
    (hstart : start < 2 ^ 64) (hstop : stop < 2 ^ 64) (hhi : start ≤ hi)
    (hheaders : ∀ header_end, Search.find text (crlf ++ crlf) start = some header_end →
      header_end ≤ stop → header_end < hi)
    (hrounds : text.length < rounds + start) :
    Runs start hi (parseDisposition text (.ofNat start) (.ofNat stop) rounds)
      (Cwf.parseDisposition text start stop) := by
  unfold parseDisposition Cwf.parseDisposition
  cases hfind : Search.find text (ascii "Content-Disposition") start with
  | none =>
      have hnone : none ≠ some start := Option.some_ne_none start |>.symm
      rw [find_npos hstart hfind, if_pos hnone]
      by_cases hnpos : npos = .ofNat start
      · -- `start` is `npos` itself, behind every text
        have hnat := congrArg UInt64.toNat hnpos
        rw [npos_eq, toNat_word (by omega), toNat_word hstart] at hnat
        rw [if_neg (not_not.mpr hnpos), find_npos hstart (find_behind (by omega)),
          if_pos (.inl rfl)]
        exact Logged.Spans.pure hhi _
      · rw [if_pos hnpos]
        exact Logged.Spans.pure hhi _
  | some header_start =>
      obtain ⟨hge, hle, hat, -⟩ := Search.find_some hfind
      rw [find_word hstart hfind]
      by_cases hsame : header_start = start
      · subst hsame
        rw [if_neg (not_not.mpr rfl), if_neg (not_not.mpr rfl)]
        cases hblank : Search.find text (crlf ++ crlf) header_start with
        | none =>
            rw [find_npos hstart hblank, if_pos (.inl rfl)]
            exact Logged.Spans.pure hhi _
        | some header_end =>
            obtain ⟨hge', hle', hat', -⟩ := Search.find_some hblank
            rw [find_word hstart hblank]
            simp only [word_lt hstop (show header_end < 2 ^ 64 by omega)]
            by_cases hbehind : stop < header_end
            · rw [if_pos hbehind, if_pos (.inr hbehind)]
              exact Logged.Spans.pure hhi _
            · rw [if_neg hbehind, if_neg (not_or.mpr ⟨word_ne_npos (by omega), hbehind⟩)]
              have hhi' := hheaders header_end hblank (Nat.not_lt.mp hbehind)
              have hne : header_start ≠ header_end := by
                rintro rfl
                obtain ⟨rest, hrest⟩ := hat
                obtain ⟨rest', hrest'⟩ := hat'
                have hhead := congrArg List.head? (hrest.trans hrest'.symm)
                cases hhead
              have hcrlf : crlf <+: text.drop header_end :=
                (List.prefix_append crlf crlf).trans hat'
              have hroom := hat'.length_le
              rw [List.length_drop] at hroom
              have hfour : (crlf ++ crlf).length = 4 := rfl
              refine Logged.Spans.bind (headerLoop_runs htext hcrlf hle'
                (Nat.lt_of_le_of_ne hge' hne) hrounds {}) ?_
              refine Logged.Spans.bind (data_runs htext (by omega) hstop
                (Nat.not_lt.mp hbehind) (Nat.le_refl _)) ?_
              exact Logged.Spans.pure hhi' _
      · have hother : UInt64.ofNat header_start ≠ .ofNat start := by
          intro heq
          have hnat := congrArg UInt64.toNat heq
          rw [toNat_word (by omega), toNat_word hstart] at hnat
          exact hsame hnat
        rw [if_pos hother, if_pos fun h => hsame (Option.some.inj h)]
        exact Logged.Spans.pure hhi _

/-- The loop over the parts stays inside the text, by induction on the rounds.
SOURCE: stream.cc:375-398 -/
theorem formLoop_runs (htext : text.length < 2 ^ 63) {boundary rest : Bytes}
    (hboundary : boundary = 45 :: rest) {pos : ℕ} (hpos : pos ≤ text.length)
    (hrounds : text.length < rounds + pos) :
    Runs pos (text.length + 1) (formLoop boundary text rounds (.ofNat pos))
      (Cwf.formLoop boundary text pos) := by
  induction rounds generalizing pos with
  | zero => omega
  | succ rounds ih =>
      generalize hresult : Cwf.formLoop boundary text pos = result
      rw [formLoop]
      rw [Cwf.formLoop] at hresult
      refine Logged.Spans.bind (visit_runs (by omega)) ?_
      have hend : pos + 1 ≤ text.length + 1 := Nat.succ_le_succ hpos
      split at hresult
      · rename_i hstart
        rw [find_npos (by omega) hstart, if_pos rfl, ← hresult]
        exact Logged.Spans.pure hend _
      · rename_i found hstart
        obtain ⟨hge, hle, hat, -⟩ := Search.find_some hstart
        have hroom := hat.length_le
        rw [List.length_drop] at hroom
        have hdashes : 1 ≤ boundary.length := by
          rw [hboundary]
          exact Nat.succ_pos _
        have hbehind : UInt64.ofNat (found + boundary.length) + 1 =
            .ofNat (found + boundary.length + 1) := word_add _ 1
        have hskip : UInt64.ofNat (found + boundary.length) + 2 =
            .ofNat (found + boundary.length + 2) := word_add _ 2
        rw [find_word (by omega) hstart, if_neg (word_ne_npos (by omega)), word_add]
        dsimp only at hresult ⊢
        rw [hbehind, hskip, toNat_word (by omega), toNat_word (by omega)]
        simp only [word_lt (show text.length < 2 ^ 64 by omega)
          (show found + boundary.length + 2 < 2 ^ 64 by omega)]
        split at hresult
        · rename_i hshort
          rw [if_pos hshort, ← hresult]
          exact Logged.Spans.pure hend _
        · rename_i hlong
          rw [if_neg hlong]
          split at hresult
          · rename_i hnone
            rw [find_npos (by omega) hnone, if_pos rfl, ← hresult]
            exact Logged.Spans.pure hend _
          · rename_i boundary_end hsome
            obtain ⟨hge', hle', hat', -⟩ := Search.find_some hsome
            rw [find_word (by omega) hsome, if_neg (word_ne_npos (by omega)), ← hresult]
            rw [hboundary] at hat'
            refine Logged.Spans.bind ((parseDisposition_runs htext (by omega) (by omega) hge' ?_
              (by omega)).mono (by omega) (Nat.le_refl boundary_end)) ?_
            · intro header_end hblank hheader
              have hfour := blank_before_boundary hheader (Search.find_some hblank).2.2.1 hat'
              omega
            · refine Logged.Spans.bind (ih hle' (by omega)) ?_
              exact Logged.Spans.pure (Nat.le_refl _) _

/-- The boundary is cut out of the content type.
SOURCE: stream.cc:359-369 -/
theorem boundaryParameter_runs {content_type : Bytes} (hlen : content_type.length < 2 ^ 63) :
    ∃ boundary, boundaryOf content_type = ascii "--" ++ boundary ∧
      Runs 0 0 (boundaryParameter content_type) boundary := by
  have hnine : (ascii "boundary=").length = 9 := rfl
  refine ⟨_, rfl, ?_⟩
  have hzero : (0 : UInt64) = .ofNat 0 := rfl
  unfold boundaryParameter
  rw [hzero]
  cases hfind : Search.find content_type (ascii "boundary=") 0 with
  | none =>
      rw [find_npos (by omega) hfind, if_neg (not_not.mpr rfl)]
      exact Logged.Spans.pure (Nat.le_refl 0) _
  | some pos =>
      obtain ⟨-, hle, hat, -⟩ := Search.find_some hfind
      have hroom := hat.length_le
      rw [hnine, List.length_drop] at hroom
      have hone : UInt64.ofNat pos + 1 = .ofNat (pos + 1) := word_add pos 1
      rw [find_word (by omega) hfind, if_pos (word_ne_npos (by omega)), hone,
        toNat_word (by omega), word_add]
      dsimp only
      by_cases hquote : content_type.getD (pos + 1) 0 = quote
      · rw [if_pos hquote, if_pos hquote]
        exact Logged.Spans.pure (Nat.le_refl 0) _
      · rw [if_neg hquote, if_neg hquote]
        have hrest : ByteSeq.slice content_type (pos + (ascii "boundary=").length) npos.toNat =
            content_type.drop (pos + (ascii "boundary=").length) := by
          rw [ByteSeq.slice, List.take_of_length_le]
          rw [List.length_drop, npos_eq, toNat_word (by omega)]
          omega
        rw [← hrest]
        exact substr_runs hlen (by omega) npos (Nat.le_refl 0)

/-- **On every content type and every text the parser ends, throws nothing, computes no negative
length, and goes strictly forward**; so does `ParseDisposition` from any start to any end.
SOURCE: stream.cc:281-401 -/
theorem multipart_safe (content_type text : StdString) :
    (∃ enough, ∀ rounds ≥ enough,
      (parseMultipartForm content_type text rounds).result =
        .ok (Cwf.parseMultipartForm content_type.bytes text.bytes) ∧
      (∀ e ∈ (parseMultipartForm content_type text rounds).log, e.Safe) ∧
      ((parseMultipartForm content_type text rounds).log.filterMap Event.place).Pairwise
        (· < ·)) ∧
    ∀ start stop : UInt64, ∃ enough, ∀ rounds ≥ enough,
      (parseDisposition text.bytes start stop rounds).result =
        .ok (Cwf.parseDisposition text.bytes start.toNat stop.toNat) ∧
      (∀ e ∈ (parseDisposition text.bytes start stop rounds).log, e.Safe) ∧
      ((parseDisposition text.bytes start stop rounds).log.filterMap Event.place).Pairwise
        (· < ·) := by
  constructor
  · refine ⟨text.bytes.length + 1, fun rounds hrounds => ?_⟩
    obtain ⟨boundary, hboundary, hparameter⟩ := boundaryParameter_runs content_type.length_lt
    obtain ⟨rest, hrest⟩ := boundaryOf_head content_type.bytes
    have hforms := formLoop_runs text.length_lt hrest (Nat.zero_le _)
      (show text.bytes.length < rounds + 0 by omega)
    rw [hboundary] at hforms
    have hruns : Runs 0 (text.bytes.length + 1) (parseMultipartForm content_type text rounds)
        (Cwf.formLoop (ascii "--" ++ boundary) text.bytes 0) :=
      Logged.Spans.bind hparameter hforms
    rw [parseMultipartForm_eq_formLoop, hboundary]
    exact ⟨hruns.result, hruns.admissible, hruns.increasing⟩
  · intro start stop
    refine ⟨text.bytes.length + 1, fun rounds hrounds => ?_⟩
    have hruns := parseDisposition_runs text.length_lt start.toNat_lt stop.toNat_lt
      (show start.toNat ≤ start.toNat + text.bytes.length + 1 by omega)
      (fun header_end hblank _ => by
        have hle := (Search.find_some hblank).2.1
        omega)
      (show text.bytes.length < rounds + start.toNat by omega)
    rw [UInt64.ofNat_toNat, UInt64.ofNat_toNat] at hruns
    exact ⟨hruns.result, hruns.admissible, hruns.increasing⟩

end Words

end Cwf

end BundleStore
