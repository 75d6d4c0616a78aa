import BundleStore.Lib.Text

set_option autoImplicit false

/-!
# Query strings and cookies

SOURCE: src/base3/stringencode.cc:58-62, 202-228, src/cwf/stream.cc:251-279,
src/cwf/cookie.h:55-98

A `std::map` is the list of its entries, no key twice.
-/

namespace BundleStore

namespace Cwf

open Text

def ampersand : UInt8 := 38
def equalSign : UInt8 := 61
def plusSign : UInt8 := 43
def percentSign : UInt8 := 37

/-- `text.find_first_of('=')`, and what is in front of it and behind it. -/
def splitEqual (text : Bytes) : Option (Bytes × Bytes) :=
  match text.findIdx? (· == equalSign) with
  | none => none
  | some pos_equal => some (text.take pos_equal, text.drop (pos_equal + 1))

/-! ## Query strings -/

/-- `std::map<std::string, std::string>` -/
abbrev StringMap : Type :=
  List (Bytes × Bytes)

/-- `ret.insert(std::make_pair(key, value))`: an entry with the key stays. -/
def StringMap.insert (ret : StringMap) (key value : Bytes) : StringMap :=
  match ret.lookup key with
  | some _ => ret
  | none => ret ++ [(key, value)]

/-- `tolower` of a `char`. -/
def tolower (ch : UInt8) : UInt8 :=
  if 65 ≤ ch.toNat ∧ ch.toNat ≤ 90 then ch + 32 else ch

/-- `base::hex_decode` of one letter. A `char` from 128 on is negative. The assertion on the
letter is left out. -/
def hexDecode (ch : UInt8) : UInt8 :=
  if ch.toNat ≤ 57 ∨ 128 ≤ ch.toNat then ch - 48 else tolower ch - 97 + 10

/-- The loop of `base::url_decode`: `buffer` is what it has stored so far. -/
def urlDecodeLoop (buflen : ℕ) (source : Bytes) (srcpos : ℕ) (buffer : Bytes) : Bytes :=
  if srcpos < source.length ∧ buffer.length + 1 < buflen then
    let ch := source.getD srcpos 0
    let srcpos' := srcpos + 1
    if ch = plusSign then urlDecodeLoop buflen source srcpos' (buffer ++ [32])
    else if ch = percentSign ∧ srcpos' + 1 < source.length then
      let decoded := hexDecode (source.getD srcpos' 0) <<< 4 |||
        hexDecode (source.getD (srcpos' + 1) 0)
      urlDecodeLoop buflen source (srcpos' + 2) (buffer ++ [decoded])
    else urlDecodeLoop buflen source srcpos' (buffer ++ [ch])
  else buffer
termination_by source.length - srcpos

/-- `base::url_decode` into a buffer of `buflen` bytes: what the buffer begins with
afterwards, and the result. -/
def baseUrlDecode (buflen : ℕ) (source : Bytes) : Bytes × ℕ :=
  if buflen = 0 then ([], 0)
  else
    let buffer := urlDecodeLoop buflen source 0 []
    (buffer ++ [0], buffer.length)

/-- `cwf::url_decode`: the text, which ends at the first NUL of the buffer, and the result. -/
def urlDecode (source : Bytes) : Bytes × ℕ :=
  let buf := baseUrlDecode (source.length + 1) source
  (buf.1.takeWhile (· != 0), buf.2)

/-- `Request::ParseQuery`. -/
def parseQuery (text : Bytes) : StringMap :=
  let equal_array := text.splitOnP (· == ampersand)
  equal_array.foldl
    (fun ret i =>
      match splitEqual i with
      | none => ret
      | some (key, value) => ret.insert key (urlDecode value).1)
    []

/-! ## Cookies -/

/-- An item of a cookie; its age and its flag are never set here. -/
structure Item where
  name : Bytes := []
  value : Bytes := []
  domain : Bytes := []
  path : Bytes := []
  expires : Bytes := []
  version : Bytes := []
  deriving DecidableEq

structure Cookie where
  cookie_ : List (Bytes × Item) := []

/-- `Cookie::Add(name, val)`: an item under the name gets the value. -/
def Cookie.add (c : Cookie) (name val : Bytes) : Cookie :=
  match c.cookie_.lookup name with
  | some item =>
      { cookie_ := c.cookie_.map fun e =>
          if e.1 = name then (name, { item with value := val }) else e }
  | none => { cookie_ := c.cookie_ ++ [(name, { value := val })] }

def Cookie.get (c : Cookie) (name : Bytes) : Bytes :=
  match c.cookie_.lookup name with
  | some item => item.value
  | none => []

/-- `boost::is_any_of("; *")` -/
def isAnyOf (c : UInt8) : Bool :=
  (ascii "; *").contains c

/-- `Cookie::Parse`; `Cookie(text)` parses into an empty one. -/
def Cookie.parse (c : Cookie) (text : Bytes) : Cookie :=
  let pre := ascii "Cookie: "
  let t := if pre <+: text then text.drop pre.length else text
  (t.splitOnP isAnyOf).foldl
    (fun c i =>
      match splitEqual i with
      | none => c
      | some (name, val) => c.add name val)
    c

end Cwf

end BundleStore
