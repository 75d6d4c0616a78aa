import BundleStore.Model.Url

set_option autoImplicit false

/-!
# Where bundles live

SOURCE: src/bundle/bundle.cc:182-215, src/bundle/bundle.h:28-80,
src/base3/pathops.cc:75-117

A bundle's file lies two directories below its storage and prefix: the names are
the hexadecimal quotient and remainder of its id.
-/

namespace BundleStore

open Machine Text

/-- `base::PathJoin`. -/
def pathJoin (a b : Bytes) : Bytes :=
  if b = [] then a
  else if a = [] then b
  else if b.head? = some 47 then b
  else if a.getLast? = some 47 then a ++ b
  else a ++ [47] ++ b

/-- `base::Dirname`: what is before the last slash. -/
def dirname (path : Bytes) : Bytes :=
  match rfind 47 path with
  | some p => path.take p
  | none => []

def kFileHeaderSize : ℕ := 512
def kUrlSize : ℕ := 256
def kUserDataSize : ℕ := kFileHeaderSize - kUrlSize - 4 * 4
def kBundleHeaderSize : ℕ := 1024
def kBundleCountPerDay : ℤ := 50 * 400
def kMaxBundleSize : ℕ := 2 * 1024 * 1024 * 1024

structure Setting where
  max_bundle_size : ℕ
  bundle_count_per_day : ℤ
  file_count_level_1 : ℤ
  file_count_level_2 : ℤ
  extract : ExtractUrl
  build : BuildUrl

/-- `g_default_setting`. -/
def defaultSetting : Setting where
  max_bundle_size := kMaxBundleSize
  bundle_count_per_day := kBundleCountPerDay
  file_count_level_1 := 50
  file_count_level_2 := 400
  extract := extractWithEncode
  build := buildWithEncode

/-- `Align1K` at `size_t`.
SOURCE: bundle.h:174-178 -/
def align1K (v : ℕ) : ℕ :=
  let a := v % 1024
  if a ≠ 0 then uint64 (v + 1024 - a) else v

/-- `Bid2Filename`: the id is converted to `uint32_t`, and so are the counts it
is divided by.
SOURCE: bundle.cc:203-215 -/
def bid2Filename (setting : Setting) (bid : ℤ) : Bytes :=
  hex8 (uint32 bid / uint32 setting.file_count_level_1) ++ ascii "/" ++
    hex8 (uint32 bid % uint32 setting.file_count_level_2)

/-- The bundle file of an id under a storage and a prefix.
SOURCE: bundle.cc:231-232,505-506 -/
def bundleFile (setting : Setting) (storage prefix_ : Bytes) (id : ℤ) : Bytes :=
  pathJoin (pathJoin storage prefix_) (bid2Filename setting id)

end BundleStore
