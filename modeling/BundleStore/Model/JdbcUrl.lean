import BundleStore.Lib.Machine
import BundleStore.Model.HttpFields

set_option autoImplicit false

/-!
# JDBC URLs

SOURCE: src/base3/jdbcurl.cc, src/base3/jdbcurl.h

Positions in a string are of type `size_t`, and `npos` is the last of them.
-/

namespace BundleStore

namespace Jdbc

open Machine Text

def npos : ℕ := 2 ^ 64 - 1

/-- `text.find_first_of(c, pos)` -/
def findFirstOf (text : Bytes) (c : UInt8) (pos : ℕ) : ℕ :=
  match (text.drop pos).findIdx? (· == c) with
  | some k => pos + k
  | none => npos

/-- `text.substr(pos, count)`; a position behind the end does not occur. -/
def substr (text : Bytes) (pos : ℕ) (count : ℤ) : Bytes :=
  (text.drop pos).take (uint64 count)

structure JdbcDriver where
  host : Bytes := []
  failoverhost : Bytes := []
  port : ℤ
  database : Bytes := []
  user : Bytes := []
  passwd : Bytes := []
  properties : List (Bytes × Bytes) := []
  deriving DecidableEq

def comma : UInt8 := 44
def colon : UInt8 := 58
def slash : UInt8 := 47
def question : UInt8 := 63

def scheme : Bytes := ascii "jdbc:mysql://"

/-- The port, and whether `Parse` goes on. The `boost::lexical_cast<int>` gives nothing where it
throws. -/
def parsePort (lexical_cast : Bytes → Option ℤ) (text : Bytes) (pos_port pos_slash : ℕ)
    (dr : JdbcDriver) : Bool × JdbcDriver :=
  let dr := if pos_port = npos then { dr with port := 3301 } else dr
  if pos_port ≠ npos ∧ pos_slash > pos_port then
    let port := substr text (pos_port + 1) ((pos_slash : ℤ) - pos_port - 1)
    if port = [] then (false, dr)
    else
      match lexical_cast port with
      | none => (false, dr)
      | some p => (decide (p ≠ 0), { dr with port := p })
  else (true, dr)

def parseHosts (text : Bytes) (pos_start pos_comma pos_port pos_slash : ℕ) (dr : JdbcDriver) :
    JdbcDriver :=
  let end_ := if pos_port = npos then pos_slash else pos_port
  if pos_comma ≠ npos then
    { dr with
      host := substr text pos_start ((pos_comma : ℤ) - pos_start)
      failoverhost := substr text (pos_comma + 1) ((end_ : ℤ) - pos_comma - 1) }
  else { dr with host := substr text pos_start ((end_ : ℤ) - pos_start) }

/-- The body of the loop over the properties. -/
def setProperty (dr : JdbcDriver) (i : Bytes) : JdbcDriver :=
  let (k, v) := (Cwf.splitEqual i).getD (i, [])
  if k = ascii "user" then { dr with user := v }
  else if k = ascii "password" then { dr with passwd := v }
  else { dr with properties := dr.properties ++ [(k, v)] }

def parseDatabase (text : Bytes) (pos_slash : ℕ) (dr : JdbcDriver) : JdbcDriver :=
  let pos_question := findFirstOf text question pos_slash
  let pos_database := uint64 (pos_slash + 1)
  if pos_question = npos then { dr with database := substr text pos_database npos }
  else
    let dr := { dr with
      database := substr text pos_database ((pos_question : ℤ) - pos_slash - 1) }
    let p := substr text (pos_question + 1) npos
    if p = [] then dr else (p.splitOnP (· == Cwf.ampersand)).foldl setProperty dr

def parse (lexical_cast : Bytes → Option ℤ) (text : Bytes) (dr : JdbcDriver) :
    Bool × JdbcDriver :=
  if ¬ scheme <+: text then (false, dr)
  else
    let pos_start := scheme.length
    let pos_comma := findFirstOf text comma pos_start
    let pos_port := findFirstOf text colon pos_start
    let pos_slash := findFirstOf text slash pos_start
    match parsePort lexical_cast text pos_port pos_slash dr with
    | (false, dr) => (false, dr)
    | (true, dr) =>
        (true, parseDatabase text pos_slash
          (parseHosts text pos_start pos_comma pos_port pos_slash dr))

end Jdbc

end BundleStore
