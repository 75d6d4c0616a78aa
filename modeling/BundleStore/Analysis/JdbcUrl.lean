import BundleStore.Model.JdbcUrl
import BundleStore.Analysis.CookiePairs

set_option autoImplicit false

/-!
# JDBC URLs decode to what was encoded

`Parse` looks for the comma and for the colon in the whole text. A URL that leaves out its port or
its failover host is read wrongly when a colon or a comma stands behind the authority.
-/

namespace BundleStore

namespace Jdbc

open Machine Text

/-! ## The cast of the port -/

/-- What is documented of `boost::lexical_cast<int>`: the decimal text of an `int` gives the
`int`. Only positive ones are asked for here. -/
def LexicalCasts (lexical_cast : Bytes → Option ℤ) : Prop :=
  ∀ p : ℕ, p < 2 ^ 31 → lexical_cast (decimal p) = some (p : ℤ)

/-- A cast that takes a sign, and digits to the end. -/
def castSigned (s : Bytes) : Option ℤ :=
  let digits := if s.head? = some 45 ∨ s.head? = some 43 then s.tail else s
  let x : ℤ := if s.head? = some 45 then -(decimalValue digits : ℤ) else decimalValue digits
  if digits ≠ [] ∧ digits.all (fun b => decide (IsDigit b)) = true ∧ -2 ^ 31 ≤ x ∧ x < 2 ^ 31 then
    some x
  else none

/-- The cast that reads an optional sign and digits is a `lexical_cast`. -/
theorem lexicalCasts_castSigned : LexicalCasts castSigned := by
  intro p h
  obtain ⟨b, rest, hcons⟩ := List.exists_cons_of_ne_nil (decimal_ne_nil p)
  have hdigit : IsDigit b := isDigit_of_mem_decimal (n := p) (hcons ▸ List.mem_cons_self)
  have hsign : ∀ c : UInt8, ¬ IsDigit c → (decimal p).head? ≠ some c := by
    rw [hcons]
    rintro c hc heq
    obtain rfl := Option.some.inj heq
    exact hc hdigit
  have hminus := hsign 45 (by decide)
  have hplus := hsign 43 (by decide)
  have hunsigned : ¬ ((decimal p).head? = some 45 ∨ (decimal p).head? = some 43) :=
    not_or.mpr ⟨hminus, hplus⟩
  unfold castSigned
  dsimp only
  rw [if_neg hunsigned, if_neg hminus, decimalValue_decimal]
  have hdigits : (decimal p).all (fun c => decide (IsDigit c)) = true :=
    List.all_eq_true.mpr fun c hc => decide_eq_true (isDigit_of_mem_decimal hc)
  exact if_pos ⟨decimal_ne_nil p, hdigits, by omega, by omega⟩

/-! ## Positions -/

section Positions

variable {text : Bytes} (front mid back : Bytes) {c : UInt8} {pos : ℕ}

/-- `find_first_of` of a byte finds its first occurrence. -/
theorem findFirstOf_eq (htext : text = front ++ (mid ++ c :: back)) (hpos : pos = front.length)
    (hfree : c ∉ mid) : findFirstOf text c pos = front.length + mid.length := by
  have hfind : (text.drop pos).findIdx? (· == c) = some mid.length := by
    rw [htext, hpos, List.drop_left, List.findIdx?_append, findIdx?_eq_none_of_not_mem hfree]
    simp [List.findIdx?_cons]
  rw [findFirstOf, hfind, hpos]

/-- `find_first_of` of a byte that does not occur answers `npos`. -/
theorem findFirstOf_npos (htext : text = front ++ mid) (hpos : pos = front.length)
    (hfree : c ∉ mid) : findFirstOf text c pos = npos := by
  rw [findFirstOf, htext, hpos, List.drop_left, findIdx?_eq_none_of_not_mem hfree]

/-- `substr` with the place and the length of a part gives the part. -/
theorem substr_eq {count : ℤ} (hsize : text.length < npos) (htext : text = front ++ (mid ++ back))
    (hpos : pos = front.length) (hcount : count = mid.length) : substr text pos count = mid := by
  have hlength := congrArg List.length htext
  simp only [List.length_append] at hlength
  have hcount' : uint64 count = mid.length := by
    rw [hcount]
    refine uint64_natCast ?_
    unfold npos at hsize
    omega
  rw [substr, hcount', htext, hpos, List.drop_left, List.take_left]

/-- Without a bound `substr` takes everything. -/
theorem substr_npos (hsize : text.length < npos) (htext : text = front ++ mid)
    (hpos : pos = front.length) : substr text pos npos = mid := by
  have hlength := congrArg List.length htext
  simp only [List.length_append] at hlength
  have hcount : uint64 npos = npos := uint64_natCast (by unfold npos; omega)
  rw [substr, hcount, htext, hpos, List.drop_left, List.take_of_length_le (by omega)]

/-- A part of the text that goes beyond a byte contains it. -/
theorem mem_substr {front back : Bytes} {stop : ℕ} (htext : text = front ++ c :: back)
    (hpos : pos ≤ front.length) (hlt : front.length < stop) (hstop : stop < npos) {count : ℤ}
    (hcount : count = (stop : ℤ) - pos) : c ∈ substr text pos count := by
  have hcount' : uint64 count = stop - pos := by
    rw [hcount]
    unfold npos at hstop
    unfold uint64
    omega
  refine List.mem_of_getElem? (i := front.length - pos) ?_
  rw [substr, hcount', List.getElem?_take_of_lt (by omega), List.getElem?_drop, htext,
    List.getElem?_append_right (by omega)]
  simp [show pos + (front.length - pos) - front.length = 0 by omega]

end Positions

/-! ## What is encoded -/

/-- A host, with none of the bytes that end one. -/
def IsHost (s : Bytes) : Prop :=
  comma ∉ s ∧ colon ∉ s ∧ slash ∉ s ∧ question ∉ s

instance (s : Bytes) : Decidable (IsHost s) :=
  inferInstanceAs (Decidable (_ ∧ _))

/-- The names of the two entries that are no properties. -/
def reserved : List Bytes :=
  [ascii "user", ascii "password"]

/-- The parts of a URL. The entries behind the question mark hold the user and the password among
the properties, in any order. -/
structure JdbcUrl where
  host : Bytes
  failover : Option Bytes
  port : Option ℕ
  database : Bytes
  entries? : Option (List (Bytes × Bytes))
  isHost_host : IsHost host
  isHost_failover : ∀ f ∈ failover, IsHost f
  port_range : ∀ p ∈ port, 1 ≤ p ∧ p ≤ 65535
  database_free : question ∉ database ∧ slash ∉ database
  keys_free : ∀ e ∈ entries?.getD [], Cwf.ampersand ∉ e.1 ∧ Cwf.equalSign ∉ e.1
  values_free : ∀ e ∈ entries?.getD [], e.1 ∉ reserved → Cwf.ampersand ∉ e.2
  reserved_once : ∀ k ∈ reserved, (entries?.getD []).countP (fun e => e.1 = k) ≤ 1

namespace JdbcUrl

variable (u : JdbcUrl)

def entries : List (Bytes × Bytes) :=
  u.entries?.getD []

def failoverText : Bytes :=
  match u.failover with
  | none => []
  | some f => comma :: f

def portText : Bytes :=
  match u.port with
  | none => []
  | some p => colon :: decimal p

def entryText (e : Bytes × Bytes) : Bytes :=
  e.1 ++ Cwf.equalSign :: e.2

def queryText : Bytes :=
  match u.entries? with
  | none => []
  | some entries => question :: [Cwf.ampersand].intercalate (entries.map entryText)

def authority : Bytes :=
  scheme ++ (u.host ++ (u.failoverText ++ u.portText))

/-- What stands behind the slash. -/
def behind : Bytes :=
  u.database ++ u.queryText

def text : Bytes :=
  u.authority ++ slash :: u.behind

/-- The driver that the URL describes. -/
def driver : JdbcDriver where
  host := u.host
  failoverhost := u.failover.getD []
  port := u.port.getD 3301
  database := u.database
  user := (u.entries.lookup (ascii "user")).getD []
  passwd := (u.entries.lookup (ascii "password")).getD []
  properties := u.entries.filter fun e => e.1 ∉ reserved

/-! ## Where the parts are found -/

variable {u} {lexical_cast : Bytes → Option ℤ}

/-- No byte of a decimal numeral is anything but a digit. -/
theorem not_mem_decimal {c : UInt8} (hc : ¬ IsDigit c) (n : ℕ) : c ∉ decimal n :=
  fun h => hc (isDigit_of_mem_decimal h)

/-- There is no slash before the slash of the database. -/
theorem slash_not_mem_authority : slash ∉ u.host ++ (u.failoverText ++ u.portText) := by
  intro h
  rcases List.mem_append.mp h with h | h
  · exact u.isHost_host.2.2.1 h
  rcases List.mem_append.mp h with h | h
  · unfold failoverText at h
    split at h
    · cases h
    · rename_i f hf
      rcases List.mem_cons.mp h with h | h
      · exact absurd h (by decide)
      · exact (u.isHost_failover f hf).2.2.1 h
  · unfold portText at h
    split at h
    · cases h
    · rcases List.mem_cons.mp h with h | h
      · exact absurd h (by decide)
      · exact not_mem_decimal (by decide) _ h

/-- The slash is found where the authority ends.
SOURCE: jdbcurl.cc:23 -/
theorem find_slash : findFirstOf u.text slash scheme.length = u.authority.length := by
  have hlength : scheme.length + (u.host ++ (u.failoverText ++ u.portText)).length =
      u.authority.length := (List.length_append ..).symm
  refine (findFirstOf_eq scheme _ u.behind ?_ rfl slash_not_mem_authority).trans hlength
  rw [text, authority, List.append_assoc]

/-- Where the hosts end. -/
def hostsEnd (u : JdbcUrl) : ℕ :=
  (scheme ++ (u.host ++ u.failoverText)).length

/-- The authority is the hosts and behind them the port. -/
theorem authority_eq : u.authority = scheme ++ (u.host ++ u.failoverText) ++ u.portText := by
  simp [authority]

/-- There is no colon in the hosts. -/
theorem colon_not_mem_hosts : colon ∉ u.host ++ u.failoverText := by
  intro h
  rcases List.mem_append.mp h with h | h
  · exact u.isHost_host.2.1 h
  · unfold failoverText at h
    split at h
    · cases h
    · rename_i f hf
      rcases List.mem_cons.mp h with h | h
      · exact absurd h (by decide)
      · exact (u.isHost_failover f hf).2.1 h

/-- With a port the colon is found where the hosts end.
SOURCE: jdbcurl.cc:22 -/
theorem find_colon_of_port {p : ℕ} (hport : u.port = some p) :
    findFirstOf u.text colon scheme.length = u.hostsEnd := by
  refine (findFirstOf_eq scheme (u.host ++ u.failoverText)
    (decimal p ++ slash :: u.behind) ?_ rfl colon_not_mem_hosts).trans
      (List.length_append ..).symm
  simp [text, authority, portText, hport]

/-- Without a port, and without a colon behind the slash, no colon is found.
SOURCE: jdbcurl.cc:22 -/
theorem find_colon_none (hport : u.port = none) (hfree : colon ∉ u.behind) :
    findFirstOf u.text colon scheme.length = npos := by
  refine findFirstOf_npos scheme (u.host ++ u.failoverText ++ slash :: u.behind) ?_ rfl ?_
  · simp [text, authority, portText, hport]
  · intro h
    rcases List.mem_append.mp h with h | h
    · exact colon_not_mem_hosts h
    · rcases List.mem_cons.mp h with h | h
      · exact absurd h (by decide)
      · exact hfree h

/-- A byte that the authority does not contain is found behind it. -/
theorem find_behind {c : UInt8} (hc : c ∉ u.host ++ (u.failoverText ++ u.portText))
    (hslash : c ≠ slash) (hmem : c ∈ u.behind) :
    u.authority.length < findFirstOf u.text c scheme.length ∧
      findFirstOf u.text c scheme.length < u.text.length := by
  obtain ⟨before, after, hbehind, hfree⟩ := List.eq_append_cons_of_mem hmem
  have hfind : findFirstOf u.text c scheme.length = scheme.length +
      (u.host ++ (u.failoverText ++ u.portText) ++ slash :: before).length := by
    refine findFirstOf_eq scheme _ after ?_ rfl ?_
    · simp [text, authority, hbehind]
    · intro h
      rcases List.mem_append.mp h with h | h
      · exact hc h
      · rcases List.mem_cons.mp h with h | h
        · exact hslash h
        · exact hfree h
  rw [hfind]
  constructor
  · simp [authority]
  · simp [text, authority, hbehind]

/-- There is no comma in the port. -/
theorem comma_not_mem_port : comma ∉ u.portText := by
  intro h
  unfold portText at h
  split at h
  · cases h
  · rcases List.mem_cons.mp h with h | h
    · exact absurd h (by decide)
    · exact not_mem_decimal (by decide) _ h

/-- With a failover host the comma is found where the host ends.
SOURCE: jdbcurl.cc:21 -/
theorem find_comma_of_failover {f : Bytes} (hfailover : u.failover = some f) :
    findFirstOf u.text comma scheme.length = scheme.length + u.host.length := by
  refine findFirstOf_eq scheme _ (f ++ (u.portText ++ slash :: u.behind)) ?_ rfl u.isHost_host.1
  simp [text, authority, failoverText, hfailover]

/-- Without a failover host, and without a comma behind the slash, no comma is found.
SOURCE: jdbcurl.cc:21 -/
theorem find_comma_none (hfailover : u.failover = none) (hfree : comma ∉ u.behind) :
    findFirstOf u.text comma scheme.length = npos := by
  refine findFirstOf_npos scheme (u.host ++ (u.portText ++ slash :: u.behind)) ?_ rfl ?_
  · simp [text, authority, failoverText, hfailover]
  · intro h
    rcases List.mem_append.mp h with h | h
    · exact u.isHost_host.1 h
    rcases List.mem_append.mp h with h | h
    · exact comma_not_mem_port h
    · rcases List.mem_cons.mp h with h | h
      · exact absurd h (by decide)
      · exact hfree h

/-- Without a failover host a comma behind the slash is found there. -/
theorem find_comma_behind (hfailover : u.failover = none) (hmem : comma ∈ u.behind) :
    u.authority.length < findFirstOf u.text comma scheme.length ∧
      findFirstOf u.text comma scheme.length < u.text.length := by
  refine find_behind ?_ (by decide) hmem
  intro h
  rcases List.mem_append.mp h with h | h
  · exact u.isHost_host.1 h
  · rw [failoverText, hfailover] at h
    exact comma_not_mem_port h

/-- Without a port a colon behind the slash is found there. -/
theorem find_colon_behind (hport : u.port = none) (hmem : colon ∈ u.behind) :
    u.authority.length < findFirstOf u.text colon scheme.length ∧
      findFirstOf u.text colon scheme.length < u.text.length := by
  refine find_behind ?_ (by decide) hmem
  intro h
  rw [portText, hport, List.append_nil] at h
  exact colon_not_mem_hosts h

/-! ## The authority -/

/-- The URL leaves out no port while a colon stands behind the authority, and no failover host
while a comma does. -/
structure Delimited (u : JdbcUrl) : Prop where
  colon : u.port = none → colon ∉ u.behind
  comma : u.failover = none → comma ∉ u.behind

/-- `Parse` never stops at the port. -/
theorem parsePort_eq (hcast : LexicalCasts lexical_cast) (hsize : u.text.length < npos)
    (dr : JdbcDriver) :
    ∃ x, parsePort lexical_cast u.text (findFirstOf u.text Jdbc.colon scheme.length)
        u.authority.length dr = (true, { dr with port := x }) ∧
      ((u.port = none → Jdbc.colon ∉ u.behind) → x = u.port.getD 3301) := by
  unfold parsePort
  cases hport : u.port with
  | none =>
      by_cases hmem : Jdbc.colon ∈ u.behind
      · obtain ⟨hlo, hhi⟩ := find_colon_behind hport hmem
        rw [if_neg (by omega), if_neg (by omega)]
        exact ⟨dr.port, rfl, fun h => absurd hmem (h rfl)⟩
      · rw [find_colon_none hport hmem]
        exact ⟨3301, rfl, fun _ => rfl⟩
  | some p =>
      have hlength : u.authority.length = u.hostsEnd + (decimal p).length + 1 := by
        rw [authority_eq, List.length_append, portText, hport]
        rfl
      have hbelow : u.authority.length < u.text.length := by
        rw [text, List.length_append, List.length_cons]
        omega
      have hsub : substr u.text (u.hostsEnd + 1)
          ((u.authority.length : ℤ) - u.hostsEnd - 1) = decimal p := by
        refine substr_eq (scheme ++ (u.host ++ u.failoverText) ++ [Jdbc.colon]) _
          (slash :: u.behind) hsize ?_ ?_ ?_
        · simp [text, authority, portText, hport]
        · rw [List.length_append, hostsEnd, List.length_singleton]
        · omega
      obtain ⟨hpos, hle⟩ := u.port_range p hport
      have hne_npos : u.hostsEnd ≠ npos := by omega
      dsimp only
      rw [find_colon_of_port hport, if_neg hne_npos, if_pos ⟨hne_npos, by omega⟩, hsub,
        if_neg (decimal_ne_nil p), hcast p (by omega)]
      refine ⟨p, ?_, fun _ => rfl⟩
      have hne : (p : ℤ) ≠ 0 := by omega
      dsimp only
      rw [decide_eq_true hne]

/-- A text of the grammar is accepted, with the port that the cast reads.
SOURCE: jdbcurl.cc:25-53 -/
theorem parse_text (hcast : LexicalCasts lexical_cast) (hsize : u.text.length < npos)
    (dr : JdbcDriver) :
    ∃ x, parse lexical_cast u.text dr = (true, parseDatabase u.text u.authority.length
        (parseHosts u.text scheme.length (findFirstOf u.text Jdbc.comma scheme.length)
          (findFirstOf u.text Jdbc.colon scheme.length) u.authority.length
          { dr with port := x })) ∧
      ((u.port = none → Jdbc.colon ∉ u.behind) → x = u.port.getD 3301) := by
  obtain ⟨x, hport, hx⟩ := parsePort_eq hcast hsize dr
  refine ⟨x, ?_, hx⟩
  have hscheme : scheme <+: u.text := by
    rw [text, authority, List.append_assoc]
    exact List.prefix_append _ _
  unfold parse
  rw [if_neg (not_not_intro hscheme)]
  dsimp only
  rw [find_slash, hport]

/-- The hosts of a delimited URL are read as they are. -/
theorem parseHosts_eq (hsize : u.text.length < npos) (h : u.Delimited) {dr : JdbcDriver}
    (hempty : dr.failoverhost = []) :
    parseHosts u.text scheme.length (findFirstOf u.text Jdbc.comma scheme.length)
        (findFirstOf u.text Jdbc.colon scheme.length) u.authority.length dr =
      { dr with host := u.host, failoverhost := u.failover.getD [] } := by
  have hbelow : u.hostsEnd ≤ u.authority.length := by
    rw [authority_eq, List.length_append]
    exact Nat.le_add_right ..
  have habove : u.authority.length < u.text.length := by
    rw [text, List.length_append, List.length_cons]
    omega
  have hend : (if findFirstOf u.text Jdbc.colon scheme.length = npos then u.authority.length
      else findFirstOf u.text Jdbc.colon scheme.length) = u.hostsEnd := by
    cases hport : u.port with
    | none =>
        rw [if_pos (find_colon_none hport (h.colon hport)), authority_eq, portText, hport,
          List.append_nil, hostsEnd]
    | some p =>
        rw [find_colon_of_port hport]
        exact if_neg (by omega)
  unfold parseHosts
  rw [hend]
  dsimp only
  cases hfailover : u.failover with
  | none =>
      rw [find_comma_none hfailover (h.comma hfailover), if_neg (not_not_intro rfl)]
      have hhost : substr u.text scheme.length ((u.hostsEnd : ℤ) - scheme.length) = u.host := by
        refine substr_eq scheme _ (u.portText ++ slash :: u.behind) hsize ?_ rfl ?_
        · simp [text, authority, failoverText, hfailover]
        · simp [hostsEnd, failoverText, hfailover]
      rw [hhost, ← hempty]
      rfl
  | some f =>
      have hlength : u.hostsEnd = scheme.length + u.host.length + (f.length + 1) := by
        simp [hostsEnd, failoverText, hfailover, Nat.add_assoc]
      have hne : scheme.length + u.host.length ≠ npos := by omega
      have hhost : substr u.text scheme.length
          (((scheme.length + u.host.length : ℕ) : ℤ) - scheme.length) = u.host := by
        refine substr_eq scheme _ (Jdbc.comma :: f ++ (u.portText ++ slash :: u.behind)) hsize
          ?_ rfl ?_
        · simp [text, authority, failoverText, hfailover]
        · omega
      have hfailover' : substr u.text (scheme.length + u.host.length + 1)
          ((u.hostsEnd : ℤ) - (scheme.length + u.host.length : ℕ) - 1) = f := by
        refine substr_eq (scheme ++ u.host ++ [Jdbc.comma]) _
          (u.portText ++ slash :: u.behind) hsize ?_ ?_ ?_
        · simp [text, authority, failoverText, hfailover]
        · rw [List.length_append, List.length_append, List.length_singleton]
        · omega
      rw [find_comma_of_failover hfailover, if_pos hne, hhost, hfailover']
      rfl

/-- A URL is its authority, a slash and the rest. -/
theorem getElem_slash : u.text = u.authority ++ slash :: u.behind := rfl

/-- The hosts of other URLs go on behind the slash. -/
theorem slash_mem_hosts (hsize : u.text.length < npos) (h : ¬ u.Delimited) (dr : JdbcDriver) :
    let read := parseHosts u.text scheme.length (findFirstOf u.text Jdbc.comma scheme.length)
      (findFirstOf u.text Jdbc.colon scheme.length) u.authority.length dr
    slash ∈ read.host ∨ slash ∈ read.failoverhost := by
  have hscheme : scheme.length ≤ u.authority.length := by
    rw [authority, List.length_append]
    exact Nat.le_add_right ..
  intro read
  by_cases hcomma : u.failover = none → Jdbc.comma ∉ u.behind
  · -- the port is left out, and a colon ends the last host
    have hcolon : u.port = none ∧ Jdbc.colon ∈ u.behind := by
      by_contra hnot
      refine h ⟨fun hport hmem => hnot ⟨hport, hmem⟩, hcomma⟩
    obtain ⟨hlo, hhi⟩ := find_colon_behind hcolon.1 hcolon.2
    have hend : ¬ findFirstOf u.text Jdbc.colon scheme.length = npos := by omega
    cases hfailover : u.failover with
    | none =>
        left
        change slash ∈ (parseHosts ..).host
        rw [parseHosts, find_comma_none hfailover (hcomma hfailover), if_neg (not_not_intro rfl)]
        refine mem_substr getElem_slash hscheme hlo (hhi.trans hsize) ?_
        rw [if_neg hend]
    | some f =>
        right
        change slash ∈ (parseHosts ..).failoverhost
        have hstart : scheme.length + u.host.length + 1 ≤ u.authority.length := by
          simp only [authority, failoverText, hfailover, List.length_append, List.length_cons]
          omega
        rw [parseHosts, find_comma_of_failover hfailover, if_pos (by omega)]
        refine mem_substr getElem_slash hstart hlo (hhi.trans hsize) ?_
        rw [if_neg hend]
        omega
  · -- the failover host is left out, and a comma ends the host
    left
    have hmem : u.failover = none ∧ Jdbc.comma ∈ u.behind := by
      by_contra hnot
      exact hcomma fun hfailover hmem => hnot ⟨hfailover, hmem⟩
    obtain ⟨hlo, hhi⟩ := find_comma_behind hmem.1 hmem.2
    change slash ∈ (parseHosts ..).host
    rw [parseHosts, if_pos (by omega)]
    exact mem_substr getElem_slash hscheme hlo (hhi.trans hsize) rfl

/-! ## What stands behind the slash -/

/-- The entries as the text is split. -/
def pieces (u : JdbcUrl) : List Bytes :=
  if u.entries = [] then []
  else ([Cwf.ampersand].intercalate (u.entries.map entryText)).splitOnP (· == Cwf.ampersand)

/-- Parameters that are there have a text. -/
theorem intercalate_entries_ne_nil {entries : List (Bytes × Bytes)} (h : entries ≠ []) :
    [Cwf.ampersand].intercalate (entries.map entryText) ≠ [] := by
  obtain ⟨e, rest, rfl⟩ := List.exists_cons_of_ne_nil h
  cases rest with
  | nil => simp [entryText]
  | cons e' rest => simp [entryText, List.intercalate_cons_cons]

/-- The database is what stands before the question mark, and each piece behind it sets a property.
SOURCE: jdbcurl.cc:57-98 -/
theorem parseDatabase_eq (hsize : u.text.length < npos) (dr : JdbcDriver) :
    parseDatabase u.text u.authority.length dr =
      u.pieces.foldl setProperty { dr with database := u.database } := by
  have habove : u.authority.length < u.text.length := by
    rw [text, List.length_append, List.length_cons]
    omega
  have hstart : uint64 ((u.authority.length : ℤ) + 1) = u.authority.length + 1 := by
    unfold npos at hsize
    unfold uint64
    omega
  have hfree : question ∉ slash :: u.database := by
    rintro (h | h)
    exact u.database_free.1 (by assumption)
  unfold parseDatabase pieces entries
  dsimp only
  rw [hstart]
  cases hentries : u.entries? with
  | none =>
      have htext : u.text = u.authority ++ [slash] ++ u.database := by
        simp [text, behind, queryText, hentries]
      rw [findFirstOf_npos u.authority (slash :: u.database) (by rw [htext]; simp)
        rfl hfree, if_pos rfl, substr_npos _ _ hsize htext (by simp)]
      rfl
  | some es =>
      have htext : u.text = u.authority ++ [slash] ++ (u.database ++ question ::
          [Cwf.ampersand].intercalate (es.map entryText)) := by
        simp [text, behind, queryText, hentries]
      have hlength : u.text.length = u.authority.length + u.database.length + 2 +
          ([Cwf.ampersand].intercalate (es.map entryText)).length := by
        rw [htext]
        simp
        omega
      have hfind : findFirstOf u.text question u.authority.length =
          u.authority.length + (u.database.length + 1) :=
        findFirstOf_eq u.authority (slash :: u.database)
          ([Cwf.ampersand].intercalate (es.map entryText)) (by rw [htext]; simp) rfl hfree
      have hne : u.authority.length + (u.database.length + 1) ≠ npos := by omega
      have hdatabase : substr u.text (u.authority.length + 1)
          (((u.authority.length + (u.database.length + 1) : ℕ) : ℤ) - u.authority.length - 1) =
            u.database :=
        substr_eq _ _ _ hsize htext (by simp) (by omega)
      have hquery : substr u.text (u.authority.length + (u.database.length + 1) + 1) npos =
          [Cwf.ampersand].intercalate (es.map entryText) := by
        refine substr_npos (u.authority ++ slash :: u.database ++ [question]) _ hsize ?_ ?_
        · rw [htext]
          simp
        · rw [List.length_append, List.length_append, List.length_cons, List.length_singleton]
      rw [hfind, if_neg hne, hdatabase, hquery, Option.getD_some]
      by_cases hes : es = []
      · rw [if_pos hes, if_pos (by rw [hes]; rfl)]
        rfl
      · rw [if_neg hes, if_neg (intercalate_entries_ne_nil hes)]

/-- Pieces without an ampersand in them are the pieces that `split` gives. -/
theorem pieces_eq (h : ∀ e ∈ u.entries, Cwf.ampersand ∉ e.2) :
    u.pieces = u.entries.map entryText := by
  unfold pieces
  split
  · rename_i hnil
    rw [hnil]
    rfl
  · rename_i hne
    refine splitOnP_intercalate (by decide) (by simpa using hne) fun f hf x hx => ?_
    obtain ⟨e, he, rfl⟩ := List.mem_map.mp hf
    rw [beq_eq_false_iff_ne]
    rintro rfl
    rcases List.mem_append.mp hx with hx | hx
    · exact (u.keys_free e he).1 hx
    · rcases List.mem_cons.mp hx with hx | hx
      · exact absurd hx (by decide)
      · exact h e he hx

end JdbcUrl

/-- A property changes neither host. -/
theorem setProperty_hosts (dr : JdbcDriver) (i : Bytes) :
    (setProperty dr i).host = dr.host ∧ (setProperty dr i).failoverhost = dr.failoverhost := by
  unfold setProperty
  dsimp only
  split
  · exact ⟨rfl, rfl⟩
  · split
    · exact ⟨rfl, rfl⟩
    · exact ⟨rfl, rfl⟩

/-- Properties change neither host. -/
theorem foldl_setProperty_hosts (dr : JdbcDriver) (is : List Bytes) :
    (is.foldl setProperty dr).host = dr.host ∧
      (is.foldl setProperty dr).failoverhost = dr.failoverhost := by
  induction is generalizing dr with
  | nil => exact ⟨rfl, rfl⟩
  | cons i is ih =>
      obtain ⟨hhost, hfailover⟩ := setProperty_hosts dr i
      rw [List.foldl_cons, (ih _).1, (ih _).2]
      exact ⟨hhost, hfailover⟩

/-- The user and the password come out of one piece each. -/
theorem setProperty_free {dr : JdbcDriver} {i : Bytes} {c : UInt8} (hi : c ∉ i)
    (h : c ∉ dr.user ∧ c ∉ dr.passwd) :
    c ∉ (setProperty dr i).user ∧ c ∉ (setProperty dr i).passwd := by
  have hvalue : c ∉ ((Cwf.splitEqual i).getD (i, [])).2 := by
    cases hsplit : Cwf.splitEqual i with
    | none => exact List.not_mem_nil
    | some e => exact fun hmem => hi ((Cwf.splitEqual_some hsplit).subset hmem)
  unfold setProperty
  dsimp only
  split
  · exact ⟨hvalue, h.2⟩
  · split
    · exact ⟨h.1, hvalue⟩
    · exact h

/-- A byte that is in no property comes into neither the user nor the password. -/
theorem foldl_setProperty_free {dr : JdbcDriver} {is : List Bytes} {c : UInt8}
    (hi : ∀ i ∈ is, c ∉ i) (h : c ∉ dr.user ∧ c ∉ dr.passwd) :
    c ∉ (is.foldl setProperty dr).user ∧ c ∉ (is.foldl setProperty dr).passwd := by
  induction is generalizing dr with
  | nil => exact h
  | cons i is ih =>
      obtain ⟨hhead, htail⟩ := List.forall_mem_cons.mp hi
      exact ih htail (setProperty_free hhead h)

/-- A parameter sets the property of its name.
SOURCE: jdbcurl.cc:79-97 -/
theorem setProperty_entry (dr : JdbcDriver) {e : Bytes × Bytes} (h : Cwf.equalSign ∉ e.1) :
    setProperty dr (JdbcUrl.entryText e) =
      if e.1 = ascii "user" then { dr with user := e.2 }
      else if e.1 = ascii "password" then { dr with passwd := e.2 }
      else { dr with properties := dr.properties ++ [e] } := by
  unfold setProperty JdbcUrl.entryText
  rw [Cwf.splitEqual_pair h]
  rfl

section Lookup

variable {entries : List (Bytes × Bytes)} {k : Bytes}

/-- A name that no parameter has is not looked up. -/
theorem lookup_of_countP_eq_zero (h : entries.countP (fun e => e.1 = k) = 0) :
    entries.lookup k = none := by
  rw [List.lookup_eq_none_iff]
  intro e he
  have hne : ¬ e.1 = k := by simpa using List.countP_eq_zero.mp h e he
  exact bne_iff_ne.mpr (Ne.symm hne)

/-- A name that one parameter has is looked up at it. -/
theorem lookup_of_mem {e : Bytes × Bytes} (h : entries.countP (fun e' => e'.1 = e.1) ≤ 1)
    (he : e ∈ entries) : entries.lookup e.1 = some e.2 := by
  induction entries with
  | nil => cases he
  | cons e' entries ih =>
      by_cases hkey : e'.1 = e.1
      · rw [List.countP_cons_of_pos (by simpa using hkey)] at h
        rcases List.mem_cons.mp he with rfl | he
        · exact List.lookup_cons_self
        · have hpos : 0 < entries.countP (fun e' => e'.1 = e.1) :=
            List.countP_pos_iff.mpr ⟨e, he, by simp⟩
          omega
      · rw [List.countP_cons_of_neg (by simpa using hkey)] at h
        rcases List.mem_cons.mp he with rfl | he
        · exact absurd rfl hkey
        · have hne : (e.1 == e'.1) = false := beq_eq_false_iff_ne.mpr (Ne.symm hkey)
          rw [List.lookup_cons, hne]
          exact ih h he

end Lookup

/-- The loop puts every entry where it belongs. -/
theorem foldl_setProperty (entries : List (Bytes × Bytes))
    (hkeys : ∀ e ∈ entries, Cwf.equalSign ∉ e.1)
    (honce : ∀ k ∈ reserved, entries.countP (fun e => e.1 = k) ≤ 1) (dr : JdbcDriver) :
    (entries.map JdbcUrl.entryText).foldl setProperty dr =
      { dr with
        user := (entries.lookup (ascii "user")).getD dr.user
        passwd := (entries.lookup (ascii "password")).getD dr.passwd
        properties := dr.properties ++ entries.filter fun e => e.1 ∉ reserved } := by
  induction entries generalizing dr with
  | nil => simp
  | cons e entries ih =>
      obtain ⟨hhead, htail⟩ := List.forall_mem_cons.mp hkeys
      have hrest : ∀ k ∈ reserved, entries.countP (fun e => e.1 = k) ≤ 1 := by
        intro k hk
        refine le_trans ?_ (honce k hk)
        exact List.Sublist.countP_le (List.sublist_cons_self e entries)
      have hlast : e.1 ∈ reserved → entries.lookup e.1 = none := by
        intro hk
        have hle := honce e.1 hk
        rw [List.countP_cons_of_pos (by simp)] at hle
        exact lookup_of_countP_eq_zero (by omega)
      have hother : ∀ k, e.1 ≠ k → (e :: entries).lookup k = entries.lookup k := by
        intro k hk
        have hne : (k == e.1) = false := beq_eq_false_iff_ne.mpr (Ne.symm hk)
        rw [List.lookup_cons, hne]
      rw [List.map_cons, List.foldl_cons, ih htail hrest, setProperty_entry dr hhead]
      by_cases huser : e.1 = ascii "user"
      · have hmem : e.1 ∈ reserved := by
          rw [huser]
          decide
        have hnone := hlast hmem
        rw [huser] at hnone
        have hself : (e :: entries).lookup (ascii "user") = some e.2 := by
          rw [← huser]
          exact List.lookup_cons_self
        rw [if_pos huser, hself, hnone, hother (ascii "password") (by rw [huser]; decide),
          List.filter_cons_of_neg (by simpa using hmem)]
        rfl
      by_cases hpassword : e.1 = ascii "password"
      · have hmem : e.1 ∈ reserved := by
          rw [hpassword]
          decide
        have hnone := hlast hmem
        rw [hpassword] at hnone
        have hself : (e :: entries).lookup (ascii "password") = some e.2 := by
          rw [← hpassword]
          exact List.lookup_cons_self
        rw [if_neg huser, if_pos hpassword, hself, hnone, hother (ascii "user") huser,
          List.filter_cons_of_neg (by simpa using hmem)]
        rfl
      · have hmem : e.1 ∉ reserved := by
          intro hmem
          rcases List.mem_cons.mp hmem with h | h
          · exact huser h
          · exact hpassword (List.mem_singleton.mp h)
        rw [if_neg huser, if_neg hpassword, hother (ascii "user") huser,
          hother (ascii "password") hpassword, List.filter_cons_of_pos (by simpa using hmem)]
        simp

namespace JdbcUrl

variable {u : JdbcUrl}

/-- The names that are read are the user and the password. -/
theorem mem_reserved_iff {k : Bytes} :
    k ∈ reserved ↔ k = ascii "user" ∨ k = ascii "password" := by
  rw [reserved, List.mem_cons, List.mem_singleton]

/-- All values are free of ampersands when the user and the password are. -/
theorem entries_free (huser : Cwf.ampersand ∉ u.driver.user)
    (hpasswd : Cwf.ampersand ∉ u.driver.passwd) : ∀ e ∈ u.entries, Cwf.ampersand ∉ e.2 := by
  intro e he
  by_cases hmem : e.1 ∈ reserved
  · have hlookup := lookup_of_mem (u.reserved_once e.1 hmem) he
    rcases mem_reserved_iff.mp hmem with hkey | hkey
    · rw [driver, ← hkey, entries, hlookup] at huser
      exact huser
    · rw [driver, ← hkey, entries, hlookup] at hpasswd
      exact hpasswd
  · exact u.values_free e he hmem

/-- A byte of neither host is in neither of them after the parse. -/
theorem parseHosts_free (text : Bytes) (pos_start pos_comma pos_port pos_slash : ℕ) (port : ℤ)
    (database : Bytes) {c : UInt8} :
    c ∉ ({ parseHosts text pos_start pos_comma pos_port pos_slash { port := port } with
        database := database } : JdbcDriver).user ∧
      c ∉ ({ parseHosts text pos_start pos_comma pos_port pos_slash { port := port } with
        database := database } : JdbcDriver).passwd := by
  unfold parseHosts
  dsimp only
  split
  · exact ⟨List.not_mem_nil, List.not_mem_nil⟩
  · exact ⟨List.not_mem_nil, List.not_mem_nil⟩

/-- There is no slash in the failover host that is read. -/
theorem slash_not_mem_failover : slash ∉ u.driver.failoverhost := by
  change slash ∉ u.failover.getD []
  cases hfailover : u.failover with
  | none => exact List.not_mem_nil
  | some f => exact (u.isHost_failover f hfailover).2.2.1

/-- There is no ampersand in a piece. -/
theorem ampersand_not_mem_pieces : ∀ i ∈ u.pieces, Cwf.ampersand ∉ i := by
  intro i hi hmem
  unfold pieces at hi
  split at hi
  · cases hi
  · exact absurd (free_of_mem_splitOnP hi _ hmem) (by decide)

/-- **A URL decodes to what was encoded exactly when a port is given or no colon stands behind the
slash, a failover host is given or no comma stands there, and the user and the password are free of
ampersands.**
SOURCE: jdbcurl.cc:14-100 -/
theorem parse_decodes_iff {lexical_cast : Bytes → Option ℤ} (hcast : LexicalCasts lexical_cast)
    (u : JdbcUrl) (hsize : u.text.length < npos) (port : ℤ) :
    parse lexical_cast u.text { port := port } = (true, u.driver) ↔
      (u.port = none → colon ∉ u.behind) ∧ (u.failover = none → comma ∉ u.behind) ∧
        Cwf.ampersand ∉ u.driver.user ∧ Cwf.ampersand ∉ u.driver.passwd := by
  obtain ⟨x, hparse, hx⟩ := parse_text hcast hsize { port := port }
  rw [hparse, parseDatabase_eq hsize]
  constructor
  · intro heq
    have hdriver := (Prod.mk.inj heq).2
    have hfree := foldl_setProperty_free (ampersand_not_mem_pieces (u := u))
      (parseHosts_free u.text scheme.length (findFirstOf u.text Jdbc.comma scheme.length)
        (findFirstOf u.text Jdbc.colon scheme.length) u.authority.length x u.database)
    rw [hdriver] at hfree
    have hdelimited : u.Delimited := by
      by_contra hnot
      obtain ⟨hhost, hfailover⟩ := foldl_setProperty_hosts
        { parseHosts u.text scheme.length (findFirstOf u.text Jdbc.comma scheme.length)
            (findFirstOf u.text Jdbc.colon scheme.length) u.authority.length { port := x } with
          database := u.database } u.pieces
      rw [hdriver] at hhost hfailover
      rcases slash_mem_hosts hsize hnot { port := x } with hmem | hmem
      · refine u.isHost_host.2.2.1 (show slash ∈ u.driver.host from ?_)
        rw [hhost]
        exact hmem
      · refine slash_not_mem_failover (u := u) ?_
        rw [hfailover]
        exact hmem
    exact ⟨hdelimited.colon, hdelimited.comma, hfree⟩
  · rintro ⟨hcolon, hcomma, huser, hpasswd⟩
    rw [hx hcolon, parseHosts_eq hsize ⟨hcolon, hcomma⟩ rfl,
      pieces_eq (entries_free huser hpasswd),
      foldl_setProperty u.entries (fun e he => (u.keys_free e he).2) u.reserved_once]
    rfl

/-- A failover host, a port, and entries with commas and colons in them. -/
def replicated : JdbcUrl where
  host := ascii "db1"
  failover := some (ascii "db2")
  port := some 3306
  database := ascii "feed"
  entries? := some [(ascii "zone", ascii "a,b"), (ascii "user", ascii "u"),
    (ascii "password", ascii "s:,x")]
  isHost_host := by decide
  isHost_failover := by simp [IsHost]; decide
  port_range := by simp
  database_free := by decide
  keys_free := by decide
  values_free := by decide
  reserved_once := by decide

/-- A URL with a failover host, a port and both parameters is read back. -/
theorem parse_decodes_iff_replicated :
    parse castSigned replicated.text { port := 0 } = (true, replicated.driver) :=
  (parse_decodes_iff lexicalCasts_castSigned replicated (by decide) 0).mpr
    ⟨fun h => (Option.some_ne_none _ h).elim, fun h => (Option.some_ne_none _ h).elim, by decide,
      by decide⟩

/-- The password has a colon, and the URL leaves out its port. -/
def colonPassword : JdbcUrl where
  host := ascii "h"
  failover := none
  port := none
  database := ascii "db"
  entries? := some [(ascii "password", ascii "a:b")]
  isHost_host := by decide
  isHost_failover := by simp
  port_range := by simp
  database_free := by decide
  keys_free := by decide
  values_free := by decide
  reserved_once := by decide

/-- `jdbc:mysql://h/a:b` has no port, and the colon of the database is taken for that of one. -/
theorem not_parse_decodes :
    ¬ ∀ (u : JdbcUrl) (port : ℤ), u.text.length < npos →
      parse castSigned u.text { port := port } = (true, u.driver) := by
  intro h
  have hparse := h colonPassword 0 (by decide)
  exact absurd hparse (by decide)

end JdbcUrl

end Jdbc

end BundleStore
