import BundleStore.Analysis.QueryFields
import Mathlib.Data.List.DropRight

set_option autoImplicit false

/-!
# Cookies decode to what was sent

The cookie is split at every semicolon, blank and asterisk, and an asterisk may stand in a value.
The rest of such a value is lost, or taken for pairs of its own.
-/

namespace BundleStore

namespace Cwf

open Text

def asterisk : UInt8 := 42

/-- The letters of a token: no control, no blank, no separator. -/
def IsTokenChar (b : UInt8) : Prop :=
  33 ≤ b.toNat ∧ b.toNat ≤ 126 ∧ b ∉ ascii "()<>@,;:\\\"/[]?={}"

/-- The letters of a value: no control, blank, double quote, comma, semicolon, backslash. -/
def IsCookieOctet (b : UInt8) : Prop :=
  33 ≤ b.toNat ∧ b.toNat ≤ 126 ∧ b ∉ ascii "\",;\\"

instance (b : UInt8) : Decidable (IsTokenChar b) :=
  inferInstanceAs (Decidable (_ ∧ _))

instance (b : UInt8) : Decidable (IsCookieOctet b) :=
  inferInstanceAs (Decidable (_ ∧ _))

structure CookiePairs where
  pairs : List (Bytes × Bytes)
  names : ∀ p ∈ pairs, p.1 ≠ [] ∧ ∀ b ∈ p.1, IsTokenChar b ∧ b ≠ asterisk
  values : ∀ p ∈ pairs, ∀ b ∈ p.2, IsCookieOctet b

def encodePair (p : Bytes × Bytes) : Bytes :=
  p.1 ++ equalSign :: p.2

/-- `n_1=v_1; n_2=v_2; ...`, with or without the name of the header in front. -/
def CookiePairs.text (m : CookiePairs) (header : Bool) : Bytes :=
  (if header then ascii "Cookie: " else []) ++
    (ascii "; ").intercalate (m.pairs.map encodePair)

/-- The value of the last pair with the name. -/
def lastNamed (name : Bytes) (pairs : List (Bytes × Bytes)) : Option Bytes :=
  pairs.reverse.lookup name

/-- The pairs behind the last one with the name. -/
def behind (name : Bytes) (pairs : List (Bytes × Bytes)) : List (Bytes × Bytes) :=
  pairs.rtakeWhile fun p => p.1 ≠ name

/-- What the value is up to its first asterisk. -/
def front (value : Bytes) : Bytes :=
  (value.splitOnP (· == asterisk)).headI

/-- The pairs that the parser sees behind the asterisks of a value. -/
def strays (value : Bytes) : List (Bytes × Bytes) :=
  (value.splitOnP (· == asterisk)).tail.filterMap splitEqual

/-- Nothing is lost at an asterisk: it stands in no last value of a name, and what is taken for a
pair behind one is followed by a pair with its name, or agrees with the one in front of it. -/
structure Untorn (pairs : List (Bytes × Bytes)) : Prop where
  last_free : ∀ name value, lastNamed name pairs = some value → asterisk ∉ value
  strays_agree : ∀ name value,
    lastNamed name ((behind name pairs).flatMap fun p => strays p.2) = some value →
      value = (lastNamed name pairs).getD []

/-! ## The last pair of a name -/

variable {name value : Bytes} {pairs : List (Bytes × Bytes)} {p : Bytes × Bytes}

/-- No pair has a name. -/
@[simp] theorem lastNamed_nil (name : Bytes) : lastNamed name [] = none :=
  rfl

/-- The last pair of a name in two lists. -/
theorem lastNamed_append (name : Bytes) (front back : List (Bytes × Bytes)) :
    lastNamed name (front ++ back) = (lastNamed name back).or (lastNamed name front) := by
  rw [lastNamed, List.reverse_append, List.lookup_append]
  rfl

/-- The last pair of a name in one pair. -/
theorem lastNamed_singleton (name : Bytes) (p : Bytes × Bytes) :
    lastNamed name [p] = if p.1 = name then some p.2 else none := by
  obtain ⟨n, v⟩ := p
  show List.lookup name [(n, v)] = _
  rw [List.lookup_singleton, beq_eq_decide]
  by_cases h : n = name
  · simp [h]
  · simp [h, Ne.symm h]

/-- The last pair of a name is a pair. -/
theorem mem_of_lastNamed (h : lastNamed name pairs = some value) : (name, value) ∈ pairs := by
  obtain ⟨before, after, hpairs, -⟩ := List.lookup_eq_some_iff.mp h
  have hmem : (name, value) ∈ pairs.reverse := by
    rw [hpairs]
    exact List.mem_append_right before List.mem_cons_self
  exact List.mem_reverse.mp hmem

/-- What stands behind the last pair of a name. -/
theorem behind_concat (name : Bytes) (pairs : List (Bytes × Bytes)) (p : Bytes × Bytes) :
    behind name (pairs ++ [p]) = if p.1 = name then [] else behind name pairs ++ [p] := by
  unfold behind
  rw [List.rtakeWhile_concat]
  by_cases h : p.1 = name
  · simp [h]
  · simp [h]

/-! ## What the parser adds -/

/-- What `Parse` adds for a pair. -/
def added (p : Bytes × Bytes) : List (Bytes × Bytes) :=
  (p.1, front p.2) :: strays p.2

/-- A value that is set is looked up. -/
theorem lookup_set (l : List (Bytes × Item)) (name key : Bytes) (item : Item) :
    (l.map fun e => if e.1 = name then (name, item) else e).lookup key =
      if name = key then (l.lookup key).map fun _ => item else l.lookup key := by
  induction l with
  | nil => simp
  | cons e l ih =>
      rw [List.map_cons, List.lookup_cons, List.lookup_cons, ih]
      by_cases he : e.1 = name
      · by_cases hkey : name = key
        · simp [he, hkey]
        · have hbeq : (key == name) = false := beq_eq_false_iff_ne.mpr (Ne.symm hkey)
          simp [he, hkey, hbeq]
      · by_cases hkey : name = key
        · subst hkey
          have hbeq : (name == e.1) = false := beq_eq_false_iff_ne.mpr (Ne.symm he)
          simp [he, hbeq]
        · simp [he, hkey]

/-- A pair that is added is the value of its name.
SOURCE: cookie.h:94-98 -/
theorem get_add (c : Cookie) (name val key : Bytes) :
    (c.add name val).get key = if name = key then val else c.get key := by
  unfold Cookie.add Cookie.get
  cases hlookup : c.cookie_.lookup name with
  | none =>
      dsimp only
      rw [List.lookup_append, List.lookup_cons, List.lookup_nil]
      by_cases hkey : name = key
      · subst hkey
        rw [hlookup]
        simp
      · have hbeq : (key == name) = false := beq_eq_false_iff_ne.mpr (Ne.symm hkey)
        rw [hbeq, Option.or_none, if_neg hkey]
  | some item =>
      dsimp only
      rw [lookup_set]
      by_cases hkey : name = key
      · subst hkey
        rw [hlookup]
        simp
      · simp [hkey]

/-- Pairs that are added one after the other: the last one of a name stays. -/
theorem get_foldl_add (c : Cookie) (l : List (Bytes × Bytes)) (key : Bytes) :
    (l.foldl (fun c e => c.add e.1 e.2) c).get key = (lastNamed key l).getD (c.get key) := by
  induction l generalizing c with
  | nil => rfl
  | cons e l ih =>
      rw [List.foldl_cons, ih, get_add, ← List.singleton_append, lastNamed_append,
        lastNamed_singleton]
      cases lastNamed key l with
      | some value => rfl
      | none =>
          by_cases h : e.1 = key
          · simp [h]
          · simp [h]

/-- The value of a piece ends it.
SOURCE: cookie.h:78-81 -/
theorem splitEqual_some {text name value : Bytes} (h : splitEqual text = some (name, value)) :
    value <:+ text := by
  unfold splitEqual at h
  split at h
  · cases h
  · obtain ⟨-, rfl⟩ := Prod.mk.inj (Option.some.inj h)
    exact List.drop_suffix _ text

/-- All values that the parser adds end at an asterisk. -/
theorem asterisk_not_mem_added {e : Bytes × Bytes} (h : e ∈ added p) : asterisk ∉ e.2 := by
  have hpiece {f : Bytes} (hf : f ∈ p.2.splitOnP (· == asterisk)) : asterisk ∉ f := by
    intro hmem
    exact absurd (free_of_mem_splitOnP hf asterisk hmem) (by decide)
  obtain ⟨f, fields, hsplit⟩ := List.exists_cons_of_ne_nil
    (List.splitOnP_ne_nil (· == asterisk) p.2)
  rcases List.mem_cons.mp h with rfl | hstray
  · refine hpiece ?_
    rw [front, hsplit]
    exact List.mem_cons_self
  · obtain ⟨g, hg, heq⟩ := List.mem_filterMap.mp hstray
    intro hmem
    exact hpiece (List.mem_of_mem_tail hg) ((splitEqual_some heq).subset hmem)

/-- What is left of the pairs: a stray behind the last pair with the name, or the last pair. -/
theorem lastNamed_added (name : Bytes) (pairs : List (Bytes × Bytes)) :
    lastNamed name (pairs.flatMap added) =
      (lastNamed name ((behind name pairs).flatMap fun p => strays p.2)).or
        ((lastNamed name pairs).bind fun value =>
          (lastNamed name (strays value)).or (some (front value))) := by
  induction pairs using List.reverseRecOn with
  | nil => rfl
  | append_singleton pairs p ih =>
      have hadded : added p = [(p.1, front p.2)] ++ strays p.2 := rfl
      rw [List.flatMap_append, List.flatMap_singleton, lastNamed_append, hadded, lastNamed_append,
        lastNamed_singleton, ih, behind_concat, lastNamed_append name pairs, lastNamed_singleton]
      by_cases h : p.1 = name
      · simp only [h, if_true, List.flatMap_nil, lastNamed_nil, Option.none_or, Option.some_or,
          Option.bind_some]
        cases lastNamed name (strays p.2) with
        | none => rfl
        | some value => rfl
      · simp only [h, if_false, List.flatMap_append, List.flatMap_singleton, lastNamed_append]
        cases lastNamed name (strays p.2) with
        | none => rfl
        | some value => rfl

/-! ## The pieces of the text -/

/-- The one octet of a value that splits is the asterisk.
SOURCE: cookie.h:70 -/
theorem isAnyOf_octet {b : UInt8} (h : IsCookieOctet b) : isAnyOf b = (b == asterisk) := by
  obtain ⟨hlow, -, hnone⟩ := h
  have hblank : b ≠ 32 := by
    rintro rfl
    exact absurd hlow (by decide)
  have hsemicolon : b ≠ 59 := by
    rintro rfl
    exact hnone (by decide)
  show [(59 : UInt8), 32, 42].contains b = (b == 42)
  simp [hblank, hsemicolon, beq_eq_decide]

/-- No octet of a name but the asterisk splits.
SOURCE: cookie.h:70 -/
theorem isAnyOf_token {b : UInt8} (h : IsTokenChar b) (hne : b ≠ asterisk) :
    isAnyOf b = false := by
  obtain ⟨hlow, -, hnone⟩ := h
  have hblank : b ≠ 32 := by
    rintro rfl
    exact absurd hlow (by decide)
  have hsemicolon : b ≠ 59 := by
    rintro rfl
    exact hnone (by decide)
  have hstar : b ≠ 42 := hne
  show [(59 : UInt8), 32, 42].contains b = false
  simp [hblank, hsemicolon, hstar]

/-- The equal sign is in no name. -/
theorem equalSign_not_token : ¬ IsTokenChar equalSign := by decide

/-- The pieces of one pair are what is added for it. -/
theorem pieces_pair (hname : ∀ b ∈ p.1, IsTokenChar b ∧ b ≠ asterisk)
    (hvalue : ∀ b ∈ p.2, IsCookieOctet b) :
    ((encodePair p).splitOnP isAnyOf).filterMap splitEqual = added p := by
  have hfree : ∀ b ∈ p.1 ++ [equalSign], isAnyOf b = false := by
    intro b hb
    rcases List.mem_append.mp hb with hb | hb
    · exact isAnyOf_token (hname b hb).1 (hname b hb).2
    · obtain rfl := List.mem_singleton.mp hb
      rfl
  have hequal : equalSign ∉ p.1 := fun h => equalSign_not_token (hname _ h).1
  have hpair : encodePair p = (p.1 ++ [equalSign]) ++ p.2 := by
    rw [List.append_assoc]
    rfl
  rw [hpair, splitOnP_append_free hfree, splitOnP_congr fun b hb => isAnyOf_octet (hvalue b hb),
    added, front, strays]
  obtain ⟨f, fields, hsplit⟩ := List.exists_cons_of_ne_nil
    (List.splitOnP_ne_nil (· == asterisk) p.2)
  have hfirst : splitEqual (p.1 ++ [equalSign] ++ f) = some (p.1, f) := by
    rw [List.append_assoc]
    exact splitEqual_pair hequal
  rw [hsplit, List.modifyHead_cons, List.filterMap_cons_some hfirst]
  rfl

/-- The pieces of a cookie are its pairs, cut at their asterisks.
SOURCE: cookie.h:65-70 -/
theorem pieces_text {pairs : List (Bytes × Bytes)}
    (hnames : ∀ p ∈ pairs, ∀ b ∈ p.1, IsTokenChar b ∧ b ≠ asterisk)
    (hvalues : ∀ p ∈ pairs, ∀ b ∈ p.2, IsCookieOctet b) :
    (((ascii "; ").intercalate (pairs.map encodePair)).splitOnP isAnyOf).filterMap splitEqual =
      pairs.flatMap added := by
  induction pairs with
  | nil => rfl
  | cons p pairs ih =>
      have hpair := pieces_pair (hnames p List.mem_cons_self) (hvalues p List.mem_cons_self)
      have hrest := ih (fun q hq => hnames q (List.mem_cons_of_mem p hq))
        (fun q hq => hvalues q (List.mem_cons_of_mem p hq))
      cases pairs with
      | nil => simpa using hpair
      | cons q pairs =>
          have htext : (ascii "; ").intercalate ((p :: q :: pairs).map encodePair) =
              encodePair p ++ 59 :: ([] ++ 32 ::
                (ascii "; ").intercalate ((q :: pairs).map encodePair)) := by
            rw [List.map_cons, List.map_cons, List.intercalate_cons_cons, List.append_assoc]
            rfl
          rw [htext, List.splitOnP_append_cons _ _ (by decide),
            List.splitOnP_append_cons _ _ (by decide), List.filterMap_append,
            List.filterMap_append, hpair, hrest, List.flatMap_cons]
          rfl

/-- The name of the header is no beginning of the pairs. -/
theorem not_header_pairs (m : CookiePairs) :
    ¬ ascii "Cookie: " <+: (ascii "; ").intercalate (m.pairs.map encodePair) := by
  cases hpairs : m.pairs with
  | nil => decide
  | cons p pairs =>
      have hp := (m.names p (hpairs ▸ List.mem_cons_self)).2
      obtain ⟨rest, hrest⟩ : ∃ rest,
          (ascii "; ").intercalate ((p :: pairs).map encodePair) =
            p.1 ++ equalSign :: rest := by
        cases pairs with
        | nil => exact ⟨p.2, by simp [encodePair]⟩
        | cons q pairs =>
            refine ⟨p.2 ++ ascii "; " ++ (ascii "; ").intercalate ((q :: pairs).map encodePair),
              ?_⟩
            rw [List.map_cons, List.map_cons, List.intercalate_cons_cons]
            simp [encodePair]
      rw [hrest]
      rintro ⟨tail, htail⟩
      have hcolon : (58 : UInt8) ∉ p.1 := fun h => absurd (hp 58 h).1 (by decide)
      rcases List.append_eq_append_iff.mp htail with ⟨mid, hname, -⟩ | ⟨mid, hheader, hmid⟩
      · apply hcolon
        rw [hname]
        exact List.mem_append_left mid (by decide)
      · cases mid with
        | nil =>
            apply hcolon
            rw [List.append_nil] at hheader
            rw [← hheader]
            decide
        | cons b mid =>
            obtain rfl := (List.cons.inj hmid).1
            have hequal : equalSign ∈ ascii "Cookie: " := by
              rw [hheader]
              exact List.mem_append_right p.1 List.mem_cons_self
            exact absurd hequal (by decide)

/-- A loop that adds the pieces that are pairs. -/
theorem foldl_pieces {f : Cookie → Bytes → Cookie}
    (hnone : ∀ c i, splitEqual i = none → f c i = c)
    (hsome : ∀ c i e, splitEqual i = some e → f c i = c.add e.1 e.2) (l : List Bytes) (c : Cookie) :
    l.foldl f c = (l.filterMap splitEqual).foldl (fun c e => c.add e.1 e.2) c := by
  induction l generalizing c with
  | nil => rfl
  | cons i l ih =>
      rw [List.foldl_cons, ih]
      cases hi : splitEqual i with
      | none => rw [hnone c i hi, List.filterMap_cons_none hi]
      | some e => rw [hsome c i e hi, List.filterMap_cons_some hi, List.foldl_cons]

/-- A parsed cookie has what was added last. -/
theorem get_parse (m : CookiePairs) (header : Bool) (name : Bytes) :
    (({} : Cookie).parse (m.text header)).get name =
      (lastNamed name (m.pairs.flatMap added)).getD [] := by
  have hpieces := pieces_text (fun p hp => (m.names p hp).2) m.values
  have htext : (if ascii "Cookie: " <+: m.text header
      then (m.text header).drop (ascii "Cookie: ").length else m.text header) =
      (ascii "; ").intercalate (m.pairs.map encodePair) := by
    unfold CookiePairs.text
    cases header with
    | false =>
        rw [if_neg Bool.false_ne_true, List.nil_append, if_neg (not_header_pairs m)]
    | true =>
        rw [if_pos rfl, if_pos (List.prefix_append _ _), List.drop_left]
  unfold Cookie.parse
  dsimp only
  rw [htext, foldl_pieces, hpieces, get_foldl_add]
  · rfl
  · intro c i h
    rw [h]
  · intro c i e h
    rw [h]

/-- **Every name has the value of its last pair exactly when nothing is lost at an asterisk.**
SOURCE: cookie.h:55-98 -/
theorem cookie_decodes_iff (m : CookiePairs) (header : Bool) :
    (∀ name, (({} : Cookie).parse (m.text header)).get name =
      (lastNamed name m.pairs).getD []) ↔ Untorn m.pairs := by
  constructor
  · intro hdecoded
    have hadded (name : Bytes) : (lastNamed name (m.pairs.flatMap added)).getD [] =
        (lastNamed name m.pairs).getD [] := by
      rw [← get_parse m header, hdecoded]
    constructor
    · intro name value hvalue hstar
      have hget := hadded name
      rw [hvalue, Option.getD_some] at hget
      cases hlast : lastNamed name (m.pairs.flatMap added) with
      | none =>
          rw [hlast, Option.getD_none] at hget
          rw [← hget] at hstar
          exact absurd hstar List.not_mem_nil
      | some value' =>
          rw [hlast, Option.getD_some] at hget
          obtain ⟨p, -, hmem⟩ := List.mem_flatMap.mp (mem_of_lastNamed hlast)
          rw [← hget] at hstar
          exact asterisk_not_mem_added hmem hstar
    · intro name value hstray
      have hget := hadded name
      rw [lastNamed_added, hstray, Option.some_or, Option.getD_some] at hget
      exact hget
  · intro huntorn name
    rw [get_parse, lastNamed_added]
    cases hstray : lastNamed name ((behind name m.pairs).flatMap fun p => strays p.2) with
    | some value =>
        rw [Option.some_or, Option.getD_some]
        exact huntorn.strays_agree name value hstray
    | none =>
        rw [Option.none_or]
        cases hlast : lastNamed name m.pairs with
        | none => rfl
        | some value =>
            have hsplit : value.splitOnP (· == asterisk) = [value] := by
              refine List.splitOnP_eq_singleton fun b hb => beq_eq_false_iff_ne.mpr ?_
              rintro rfl
              exact huntorn.last_free name value hlast hb
            rw [Option.bind_some, strays, front, hsplit]
            rfl

/-- A value with an asterisk comes back without its end. -/
theorem not_cookie_decodes :
    ¬ ∀ (m : CookiePairs) (header : Bool) (name : Bytes),
      (({} : Cookie).parse (m.text header)).get name = (lastNamed name m.pairs).getD [] := by
  intro hdecodes
  have hget := hdecodes
    { pairs := [(ascii "a", ascii "1*2")]
      names := by decide +kernel
      values := by decide +kernel } true (ascii "a")
  rw [get_parse] at hget
  exact absurd hget (by decide)

end Cwf

end BundleStore
