import BundleStore.Analysis.BatchReadBack
import BundleStore.Analysis.Durable
import BundleStore.Model.ReaderCalls

set_option autoImplicit false

/-!
# Reading while others write

A reader opens a bundle, seeks, and reads twice, and other processes write to the same
bundle all the time. A record that was accepted whole before is read as it was written,
however the calls interleave and however the stream reads ahead.
-/

namespace BundleStore

open Machine Posix Relation

/-! ## A reader on its own -/

section Serve

open ReaderState

variable {t : Tree} {cwd : Loc} {r : ReaderState}

/-- A run whose first call has its answer. -/
theorem run_call_of {α : Type} {o : ReadCall} {k : o.Answer → Reading α} {x : o.Answer}
    {r' : ReaderState} (h : serve t cwd o r = (x, r')) :
    (Prog.call o k).run (serve t cwd) r = (k x).run (serve t cwd) r' := by
  rw [Prog.run_call, h]

/-- What `fopen` answers for a file that is there. -/
theorem serve_fopen {filename : Bytes} {fd : Fd} (h : t.openRdwr cwd filename = .ok fd) :
    serve t cwd (.fopen filename) r =
      (true, ⟨some ⟨fd.loc, 0, [(t.content fd.loc).getD []]⟩, r.errno⟩) := by
  simp only [serve, h]

/-- What `fopen` answers for a file that is not there. -/
theorem serve_fopen_error {filename : Bytes} {e : ℕ} (h : t.openRdwr cwd filename = .error e) :
    serve t cwd (.fopen filename) r = (false, r.setErrno e) := by
  simp only [serve, h]

/-- What `fseek` answers. -/
theorem serve_fseek {offset : ℕ} (h : offset < 2 ^ 63) (st : Stream) (e : ℕ) :
    serve t cwd (.fseek offset) ⟨some st, e⟩ = (true, ⟨some { st with pos := offset }, e⟩) :=
  if_pos h

/-- What `fseek` answers for an offset that is negative. -/
theorem serve_fseek_negative {offset : ℕ} (h : ¬ offset < 2 ^ 63) :
    serve t cwd (.fseek offset) r = (false, r.setErrno EINVAL) :=
  if_neg h

/-- What `fread` answers. -/
theorem serve_fread (n : ℕ) (loc : Loc) (pos : ℕ) (c : Bytes) (seen : List Bytes) (e : ℕ) :
    serve t cwd (.fread n) ⟨some ⟨loc, pos, c :: seen⟩, e⟩ =
      (ByteSeq.slice c pos n,
        ⟨some ⟨loc, pos + (ByteSeq.slice c pos n).length, c :: seen⟩, e⟩) :=
  rfl

/-- A reader on its own is one beside others. -/
theorem serve_sem {fault : Prop} {o : ReadCall} (hok : serveOk t cwd o r = true) :
    ReaderState.Sem cwd fault t o r (serve t cwd o r).1 (serve t cwd o r).2 := by
  cases o with
  | fopen filename =>
      simp only [serveOk] at hok
      cases hopen : t.openRdwr cwd filename with
      | error e =>
          rw [serve_fopen_error hopen]
          exact ⟨e, .inl hopen, rfl⟩
      | ok fd =>
          simp only [hopen] at hok
          obtain ⟨c, hc⟩ := Option.isSome_iff_exists.mp hok
          rw [serve_fopen hopen, hc]
          exact ⟨fd, c, hopen, hc, rfl⟩
  | fseek offset =>
      by_cases hrange : offset < 2 ^ 63
      · simp only [serve, if_pos hrange]
        exact ⟨hrange, rfl⟩
      · rw [serve_fseek_negative hrange]
        exact ⟨EINVAL, .inl ⟨not_lt.mp hrange, rfl⟩, rfl⟩
  | fread n =>
      simp only [serveOk, Option.any_eq_true] at hok
      obtain ⟨⟨loc, pos, seen⟩, hstream, hseen⟩ := hok
      obtain ⟨c, seen, rfl⟩ : ∃ c rest, seen = c :: rest := by
        cases seen with
        | nil => cases hseen
        | cons c rest => exact ⟨c, rest, rfl⟩
      have hr : r = ⟨some ⟨loc, pos, c :: seen⟩, r.errno⟩ := by
        rw [← hstream]
      rw [hr, serve_fread]
      refine ⟨_, r.errno, rfl, ?_, rfl⟩
      constructor
      · rw [ByteSeq.length_slice]
        exact min_le_left _ _
      · intro k b hb
        refine ⟨c, List.mem_cons_self, ?_⟩
        have hk : k < n := (List.getElem?_eq_some_iff.mp hb).1.trans_le (by
          rw [ByteSeq.length_slice]
          exact min_le_left _ _)
        rwa [ByteSeq.slice, List.getElem?_take_of_lt hk, List.getElem?_drop] at hb
      · intro hshort
        refine .inl ⟨rfl, c, List.mem_cons_self, ?_⟩
        dsimp only at hshort ⊢
        rw [ByteSeq.length_slice] at hshort ⊢
        omega
  | errno => exact ⟨rfl, rfl⟩

/-- The second `fread`, and what is returned after it. -/
theorem run_body (t : Tree) (cwd loc : Loc) (pos : ℕ) (c : Bytes) (errno : ℕ) (rsize : ℤ)
    (user_data : Option Bytes) :
    ((do
      let buf ← Reading.fread (uint64 rsize)
      if int32 buf.length < rsize then
        let e ← Reading.errno
        pure { ret := e, readed := some (uint64 (int32 buf.length)), buf }
      else
        pure { ret := 0, readed := some (uint64 (int32 buf.length)), buf, user_data } :
          Reading ReadOut).run (serve t cwd) ⟨some ⟨loc, pos, [c]⟩, errno⟩).1 =
      (let buf := ByteSeq.slice c pos (uint64 rsize)
      if int32 buf.length < rsize then
        { ret := errno, readed := some (uint64 (int32 buf.length)), buf }
      else { ret := 0, readed := some (uint64 (int32 buf.length)), buf, user_data }) := by
  rw [Prog.op_bind, run_call_of (serve_fread _ _ _ _ _ _)]
  dsimp only
  by_cases hshort : int32 (ByteSeq.slice c pos (uint64 rsize)).length < rsize
  · rw [if_pos hshort, if_pos hshort]
    rfl
  · rw [if_neg hshort, if_neg hshort]
    rfl

end Serve

/-- With nobody else, the calls make the read of one moment.
SOURCE: bundle.cc:262-307 -/
theorem Reader.run_readFile (t : Tree) (cwd : Loc) (r : ReaderState) (filename : Bytes)
    {offset : ℕ} (hoffset : offset < 2 ^ 64) (length buf_size : ℕ) (user_data_size : Option ℕ) :
    ((Reader.readFile filename offset length buf_size user_data_size).run
      (ReaderState.serve t cwd) r).1 =
        BundleStore.readFile (treeView t cwd) r.errno filename offset length buf_size
          user_data_size := by
  have hopens : (∃ fd, t.openRdwr cwd filename = .ok fd) ∨
      ∃ e, t.openRdwr cwd filename = .error e := by
    cases t.openRdwr cwd filename with
    | ok fd => exact .inl ⟨fd, rfl⟩
    | error e => exact .inr ⟨e, rfl⟩
  unfold Reader.readFile BundleStore.readFile
  by_cases huser : user_data_size.any (· < kUserDataSize) = true
  · rw [if_pos huser, if_pos huser]
    rfl
  rw [if_neg huser, if_neg huser, Prog.op_bind]
  rcases hopens with ⟨fd, hopen⟩ | ⟨e, hopen⟩
  swap
  · have hview : (treeView t cwd).fopen filename = .error e := by simp only [treeView, hopen]
    rw [run_call_of (serve_fopen_error hopen), hview]
    rfl
  have hview : (treeView t cwd).fopen filename = .ok ((t.content fd.loc).getD []) := by
    simp only [treeView, hopen]
  rw [run_call_of (serve_fopen hopen), hview, if_neg Bool.noConfusion, Prog.op_bind]
  generalize (t.content fd.loc).getD [] = content
  have hneg := int64_neg offset hoffset
  by_cases hrange : offset < 2 ^ 63
  swap
  · rw [run_call_of (serve_fseek_negative hrange)]
    exact (if_pos (hneg.mpr hrange)).symm
  rw [run_call_of (serve_fseek hrange _ _), if_neg Bool.noConfusion, Prog.op_bind,
    run_call_of (serve_fread _ _ _ _ _ _)]
  refine Eq.trans ?_ (if_neg fun h => hneg.mp h hrange).symm
  dsimp only
  by_cases hhead : (ByteSeq.slice content offset kFileHeaderSize).length < kFileHeaderSize
  · rw [if_pos hhead, if_pos hhead]
    rfl
  have hfull : (ByteSeq.slice content offset kFileHeaderSize).length = kFileHeaderSize := by
    rw [ByteSeq.length_slice] at hhead ⊢
    omega
  rw [if_neg hhead, if_neg hhead, hfull]
  split
  · rfl
  split
  · rfl
  split
  · rfl
  split
  · rfl
  exact run_body t cwd fd.loc (offset + kFileHeaderSize) content r.errno
    (int32 (if length > buf_size then buf_size else length : ℕ)) _

/-- So does the call with a url.
SOURCE: bundle.cc:217-250 -/
theorem Reader.run_readUrl (t : Tree) (cwd : Loc) (r : ReaderState) (setting : Setting)
    (url storage : Bytes) (extract : Option ExtractUrl)
    (hoffset : ∀ info, (extract.getD setting.extract) (cstr url) {} = some info →
      info.offset < 2 ^ 64) :
    ((Reader.readUrl setting url storage extract).run (ReaderState.serve t cwd) r).1 =
      BundleStore.readUrl setting (treeView t cwd) r.errno url storage extract := by
  unfold Reader.readUrl BundleStore.readUrl
  by_cases hurl : url = []
  · rw [if_pos hurl, if_pos hurl]
    rfl
  rw [if_neg hurl, if_neg hurl]
  cases hextract : (extract.getD setting.extract) (cstr url) {} with
  | none => rfl
  | some info =>
      by_cases hsize : 2 ^ 63 ≤ info.size
      · simp only [if_pos hsize]
        rfl
      · simp only [if_neg hsize]
        rw [Prog.run_bind, ← Reader.run_readFile t cwd r _ (hoffset info hextract)]
        rfl

/-! ## What a stream delivers -/

/-- Bytes that all the contents have alike are delivered, or some of them when a `read`
failed. -/
theorem ReaderState.Delivers.eq_take {fault : Prop} {st : Stream} {n errno errno' : ℕ}
    {bytes target : Bytes} (h : Delivers fault st n errno bytes errno') (hlen : target.length = n)
    (hseen : ∀ c ∈ st.seen, ByteSeq.slice c st.pos n = target) :
    bytes = target.take bytes.length ∧ (bytes.length < n → fault ∧ errno' ≠ 0) := by
  have hat : ∀ file ∈ st.seen, ∀ k, k < n → file[st.pos + k]? = target[k]? := by
    intro file hfile k hk
    rw [← hseen file hfile, ByteSeq.slice, List.getElem?_take_of_lt hk, List.getElem?_drop]
  constructor
  · apply List.ext_getElem?
    intro k
    by_cases hk : k < bytes.length
    · have hle := h.length_le
      obtain ⟨c, hc, hbyte⟩ := h.had k bytes[k] (List.getElem?_eq_getElem hk)
      rw [hat c hc k (by omega)] at hbyte
      rw [List.getElem?_take_of_lt hk, hbyte, List.getElem?_eq_getElem hk]
    · have hge : bytes.length ≤ k := by omega
      rw [List.getElem?_eq_none hge, List.getElem?_eq_none]
      rw [List.length_take]
      omega
  · intro hshort
    rcases h.short hshort with ⟨-, c, hc, hend⟩ | hfault
    · -- no content ends inside the bytes
      have hwhole := congrArg List.length (hseen c hc)
      rw [ByteSeq.length_slice, hlen] at hwhole
      omega
    · exact hfault

/-! ## The record is there all the time -/

section Beside

variable {ι κ : Type} {cwd : Loc} {fault : Prop} {filename : Bytes} {loc : Loc} {offset : ℕ}
variable {heap url buf : Bytes} {user_data : Option Bytes}

/-- The path leads to a bundle in which the record stands. -/
def RecordThere (cwd : Loc) (filename : Bytes) (loc : Loc) (offset : ℕ) (heap url buf : Bytes)
    (user_data : Option Bytes) (w : World ι κ) : Prop :=
  w.tree.openRdwr cwd filename = .ok ⟨loc, 0⟩ ∧
    ∃ c, w.tree.content loc = some c ∧ RecordAt c offset heap url buf user_data

/-- The stream is at a position, and every content that it has seen has the record. -/
def StreamAt (loc : Loc) (offset : ℕ) (heap url buf : Bytes) (user_data : Option Bytes)
    (pos : ℕ) (r : ReaderState) : Prop :=
  ∃ seen, r.stream = some ⟨loc, pos, seen⟩ ∧
    ∀ c ∈ seen, RecordAt c offset heap url buf user_data

/-- A call has failed, and `errno` says so. -/
def Faulty (fault : Prop) (r : ReaderState) : Prop :=
  fault ∧ r.errno ≠ 0

/-- That a stream stands at a place is stable. -/
theorem stable_streamAt (pos : ℕ) :
    (reader (ι := ι) (κ := κ) cwd fault).Stable
      (RecordThere cwd filename loc offset heap url buf user_data)
      (StreamAt loc offset heap url buf user_data pos) := by
  rintro w r ⟨-, c, hc, hrecord⟩ ⟨seen, hstream, hseen⟩
  refine ⟨c :: seen, ?_, ?_⟩
  · simp only [reader, ReaderState.watch, hstream, hc]
  · intro d hd
    rcases List.mem_cons.mp hd with rfl | hd
    · exact hrecord
    · exact hseen d hd

/-- A fact about the world is stable for a reader that only reads. -/
theorem stable_faulty (G : World ι κ → Prop) :
    (reader (ι := ι) (κ := κ) cwd fault).Stable G (Faulty fault) := by
  rintro w r - ⟨hfault, herrno⟩
  refine ⟨hfault, ?_⟩
  simp only [reader, ReaderState.watch]
  split
  · exact herrno
  · split <;> exact herrno

/-- The result of a read that was not disturbed, or an error. -/
def ReadOr (fault : Prop) (expected out : ReadOut) : Prop :=
  out = expected ∨ (fault ∧ out.ret ≠ 0)

/-- A failed call is reported by its `errno`. -/
theorem faulty_reported (cwd : Loc) (fault : Prop) (G : World ι κ → Prop) (expected : ReadOut)
    (f : ℕ → ReadOut) (hf : ∀ e, (f e).ret = e) :
    (reader (ι := ι) (κ := κ) cwd fault).Triple G (Faulty fault)
      (Reading.errno >>= fun e => pure (f e)) (ReadOr fault expected) := by
  apply Observer.Triple.call (R := fun e r => Faulty fault r ∧ e = r.errno) (stable_faulty G)
  · rintro w r e r' - hfaulty ⟨rfl, rfl⟩
    exact ⟨hfaulty, rfl⟩
  · intro e
    apply Observer.Triple.ret
    rintro r ⟨⟨hfault, herrno⟩, rfl⟩
    refine .inr ⟨hfault, ?_⟩
    rw [hf]
    exact_mod_cast herrno

/-- What a read of the record returns. -/
def recordRead (heap url buf : Bytes) (user_data : Option Bytes) : ReadOut :=
  { ret := 0, readed := some buf.length, buf,
    user_data := some (recordHeader heap url buf user_data).user_data_ }

/-- What `fread` delivers of the record. -/
theorem delivered {pos n : ℕ} {target : Bytes} (hlen : target.length = n)
    (htarget : ∀ c, RecordAt c offset heap url buf user_data → ByteSeq.slice c pos n = target)
    {t : Tree} {r r' : ReaderState} {bytes : Bytes}
    (hat : StreamAt loc offset heap url buf user_data pos r)
    (hsem : ReaderState.Sem cwd fault t (.fread n) r bytes r') :
    (bytes = target ∧ StreamAt loc offset heap url buf user_data (pos + n) r') ∨
      (bytes.length < n ∧ Faulty fault r') := by
  obtain ⟨seen, hstream, hseen⟩ := hat
  obtain ⟨st, errno', hst, hdelivers, rfl⟩ := hsem
  rw [hstream, Option.some.injEq] at hst
  subst hst
  obtain ⟨hbytes, hshort⟩ := hdelivers.eq_take hlen fun c hc => htarget c (hseen c hc)
  by_cases hfull : bytes.length < n
  · exact .inr ⟨hfull, hshort hfull⟩
  · have hn : bytes.length = n := le_antisymm hdelivers.length_le (not_lt.mp hfull)
    left
    constructor
    · rw [hbytes, hn, ← hlen, List.take_length]
    · exact ⟨seen, by rw [hn], hseen⟩

/-- Behind the header, when it has been read and accepted.
SOURCE: bundle.cc:290-306 -/
theorem body_beside (hlength : buf.length < 2 ^ 31) {rsize : ℤ} (hrsize : rsize = buf.length) :
    (reader (ι := ι) (κ := κ) cwd fault).Triple
      (RecordThere cwd filename loc offset heap url buf user_data)
      (StreamAt loc offset heap url buf user_data (offset + kFileHeaderSize))
      (do
        let got ← Reading.fread (uint64 rsize)
        if int32 got.length < rsize then
          let e ← Reading.errno
          pure { ret := e, readed := some (uint64 (int32 got.length)), buf := got }
        else
          pure { ret := 0, readed := some (uint64 (int32 got.length)), buf := got,
                 user_data := some (recordHeader heap url buf user_data).user_data_ })
      (ReadOr fault (recordRead heap url buf user_data)) := by
  have hcount : uint64 (buf.length : ℤ) = buf.length := uint64_natCast (by omega)
  have hret : int32 buf.length = buf.length := int32_natCast hlength
  rw [hrsize, hcount, Prog.op_bind]
  refine Observer.Triple.call (o := .fread buf.length) (R := fun (got : Bytes) r => got = buf ∨
    (got.length < buf.length ∧ Faulty fault r)) (stable_streamAt _) ?_ ?_
  · intro w r got r' _ hat hsem
    replace hsem : ReaderState.Sem cwd fault w.tree (.fread buf.length) r got r' := hsem
    rcases delivered (Eq.refl buf.length) (fun c hc => RecordAt.slice_body hc) hat hsem with
      ⟨hgot, -⟩ | hshort
    · exact .inl hgot
    · exact .inr hshort
  · intro got
    refine Observer.Triple.ite ?_ ?_
    · intro hless r hgot
      rcases hgot with heq | ⟨-, hfaulty⟩
      · rw [heq, hret] at hless
        exact absurd hless (lt_irrefl _)
      · exact faulty_reported cwd fault _ _
          (fun e => { ret := e, readed := some (uint64 (int32 got.length)), buf := got })
          (fun _ => rfl) r hfaulty
    · intro hall r hgot
      rcases hgot with heq | ⟨hshort, -⟩
      · rw [heq, hret, hcount]
        exact .inl rfl
      · rw [int32_natCast (hshort.trans hlength)] at hall
        exact absurd (by exact_mod_cast hshort) hall

/-- **A record is read as it was written**, beside processes that leave it where it is.
SOURCE: bundle.cc:262-307 -/
theorem read_beside (hoffset : offset < 2 ^ 63) (hlength : buf.length < 2 ^ 31)
    (hfits : kFileHeaderSize + buf.length ≤ heap.length) :
    (reader (ι := ι) (κ := κ) cwd fault).Triple
      (RecordThere cwd filename loc offset heap url buf user_data) (fun _ => True)
      (Reader.readFile filename offset buf.length buf.length (some kUserDataSize))
      (ReadOr fault (recordRead heap url buf user_data)) := by
  have hformed := recordHeader_wellFormed heap url buf user_data (by omega)
  have hfails : ∀ f : ℕ → ReadOut, (∀ e, (f e).ret = e) →
      (reader (ι := ι) (κ := κ) cwd fault).Triple
        (RecordThere cwd filename loc offset heap url buf user_data) (Faulty fault)
        (Reading.errno >>= fun e => pure (f e))
        (ReadOr fault (recordRead heap url buf user_data)) :=
    faulty_reported cwd fault _ _
  unfold Reader.readFile
  rw [if_neg (by simp), Prog.op_bind]
  apply Observer.Triple.call (R := fun fp r => if fp = false then Faulty fault r else
    StreamAt loc offset heap url buf user_data 0 r) (fun _ _ _ _ => trivial)
  · rintro w r fp r' ⟨hopen, c, hc, hrecord⟩ - hsem
    cases fp with
    | true =>
        obtain ⟨fd, d, hfd, hd, rfl⟩ := hsem
        rw [hopen, Except.ok.injEq] at hfd
        subst hfd
        rw [hc, Option.some.injEq] at hd
        subst hd
        exact ⟨[c], rfl, by simpa using hrecord⟩
    | false =>
        obtain ⟨e, herror | hfault, rfl⟩ := hsem
        · rw [hopen] at herror
          cases herror
        · exact hfault
  intro fp
  cases fp with
  | false => exact hfails _ fun _ => rfl
  | true =>
  rw [if_neg Bool.noConfusion, Prog.op_bind]
  apply Observer.Triple.call (R := fun ret r => if ret = false then Faulty fault r else
    StreamAt loc offset heap url buf user_data offset r) (stable_streamAt _)
  · rintro w r ret r' - ⟨seen, hstream, hseen⟩ hsem
    cases ret with
    | true =>
        obtain ⟨-, rfl⟩ := hsem
        exact ⟨seen, by rw [hstream]; rfl, hseen⟩
    | false =>
        obtain ⟨e, ⟨hlarge, -⟩ | hfault, rfl⟩ := hsem
        · omega
        · exact hfault
  intro ret
  cases ret with
  | false => exact hfails _ fun _ => rfl
  | true =>
  rw [if_neg Bool.noConfusion, Prog.op_bind]
  apply Observer.Triple.call (R := fun (head : Bytes) r =>
    (head = (recordHeader heap url buf user_data).bytes ∧
      StreamAt loc offset heap url buf user_data (offset + kFileHeaderSize) r) ∨
    (head.length < kFileHeaderSize ∧ Faulty fault r)) (stable_streamAt _)
  · intro w r head r' _ hat hsem
    replace hsem : ReaderState.Sem cwd fault w.tree (.fread kFileHeaderSize) r head r' := hsem
    exact delivered hformed.length_bytes (fun c hc => hc.slice_head) hat hsem
  rintro head r (⟨rfl, hat⟩ | ⟨hshort, hfault, -⟩)
  · have hhead : ¬ (recordHeader heap url buf user_data).bytes.length < kFileHeaderSize :=
      not_lt.mpr hformed.length_bytes.ge
    have hcount : ¬ (recordHeader heap url buf user_data).length_ < buf.length := by
      show ¬ uint32 buf.length < buf.length
      rw [uint32_natCast (by omega)]
      exact lt_irrefl _
    have hrsize : int32 (if buf.length > buf.length then buf.length else buf.length : ℕ) =
        buf.length := by
      rw [int32_rsize hlength hlength, Nat.min_self]
    have hmagic : (recordHeader heap url buf user_data).magic_ = FileHeader.kMAGIC_CODE := rfl
    have hversion : (recordHeader heap url buf user_data).version_ = FileHeader.kVERSION := rfl
    have hflag : (recordHeader heap url buf user_data).flag_ = FileHeader.kFILE_NORMAL := rfl
    rw [hformed.ofBytes_bytes, if_neg hhead, hmagic, if_neg (not_not.mpr rfl), hversion,
      if_neg (not_not.mpr rfl), if_neg hcount, hflag, if_neg (not_not.mpr rfl)]
    generalize int32 (if buf.length > buf.length then buf.length else buf.length : ℕ) = rsize
      at hrsize ⊢
    exact body_beside hlength hrsize r hat
  · rw [if_pos hshort]
    exact .inr ⟨hfault, by decide⟩

end Beside

/-! ## Accepted records -/

/-- A joined path ends as its second part does. -/
theorem components_pathJoin (a : Bytes) {b : Bytes} (hb : b ≠ []) :
    ∃ front, components (pathJoin a b) = front ++ components b := by
  unfold pathJoin
  rw [if_neg hb]
  split
  · exact ⟨[], rfl⟩
  split
  · exact ⟨[], rfl⟩
  split
  · rename_i hslash
    obtain ⟨front, rfl⟩ := List.getLast?_eq_some_iff.mp hslash
    refine ⟨components front, ?_⟩
    rw [List.append_assoc]
    exact components_append_slash front b
  · refine ⟨components a, ?_⟩
    rw [List.append_assoc]
    exact components_append_slash a b

/-- A bundle that is there is opened. -/
theorem openRdwr_bundleFile {t : Tree} {cwd : Loc} (setting : Setting) {storage prefix_ : Bytes}
    (hstorage : t.Direct cwd storage) ( hprefix : ∀ c ∈ components prefix_, c ≠ dotdot) (id : ℤ)
    {c : Bytes} (hc : t.content (canon cwd (bundleFile setting storage prefix_ id)) = some c) :
    t.openRdwr cwd (bundleFile setting storage prefix_ id) =
      .ok ⟨canon cwd (bundleFile setting storage prefix_ id), 0⟩ := by
  obtain ⟨front, hfront⟩ := components_pathJoin (pathJoin storage prefix_)
    (bid2Filename_ne_nil setting id)
  rw [components_bid2Filename, List.append_cons] at hfront
  exact (direct_bundleFile setting hstorage hprefix id).openRdwr_of_content hfront
    (isName_hex8 _) hc

section Accepted

variable {ι : Type} [DecidableEq ι] {L : Layout} {allowed : Bytes → Bool} {base : Tree}
variable {c c' : Config SysCall SysCall.Answer ι (World ι ι) Caller}

/-- No record of a bundle is lost. -/
theorem accepted_grows_of_run (outside : ∀ p, allowed p = true → L.Outside p)
    (plain : ∀ p, allowed p = true → ∀ c ∈ components p, c ≠ dotdot)
    (storage : base.Direct L.cwd L.storage)
    (hc : (durableSystem L ι allowed).Reachable (StartsFrom base) c)
    (hrun : ReflTransGen (durableSystem L ι allowed).Step c c')
    {p : Bytes} (hp : allowed p = true) {id : ℤ} (hid : IsId id) :
    c.shared.accepted (L.bundleLoc p id) <+: c'.shared.accepted (L.bundleLoc p id) :=
  Shelf.Adds.isPrefix (shelf_of_run outside plain storage hc hrun)
    ⟨L.bundleLoc p id, p, id, hp, hid, rfl⟩

/-- Every record ends where an `off_t` reaches. -/
theorem accepted_end_lt (hc : (durableSystem L ι allowed).Reachable (StartsFrom base) c)
    (l : Loc) : ∀ entry ∈ c.shared.accepted l, entry.offset + entry.record.length < 2 ^ 63 := by
  obtain ⟨c₀, h₀, hrun⟩ := hc
  induction hrun with
  | refl =>
      rw [h₀.shared]
      exact fun entry hentry => absurd hentry List.not_mem_nil
  | tail _ hstep ih =>
      rcases accepted_of_step hstep with heq | ⟨loc, added, hlt, heq⟩
      · rwa [heq]
      · rw [heq]
        by_cases hl : l = loc
        · rw [hl, Function.update_self, ← hl]
          intro entry hentry
          rcases List.mem_append.mp hentry with hentry | hentry
          · exact ih entry hentry
          · rw [List.mem_singleton.mp hentry]
            exact hlt
        · rwa [Function.update_of_ne hl]

omit [DecidableEq ι] in
/-- A record that was accepted is there. -/
theorem recordThere_of_kept (storage : base.Direct L.cwd L.storage) {w : World ι ι} {p : Bytes}
    (plain : ∀ c ∈ components p, c ≠ dotdot) {id : ℤ} (hgrows : base.Grows w.tree)
    (hkept : KeptBundle (w.tree.content (L.bundleLoc p id)) (w.accepted (L.bundleLoc p id)))
    {entry : LogEntry} (hentry : entry ∈ w.accepted (L.bundleLoc p id)) {heap : Bytes}
    (hheap : heap.length = fullSize entry.call.buf)
    (hrecord : entry.record = recordBytes heap entry.call.url entry.call.buf entry.call.user_data) :
    RecordThere L.cwd (bundleFile L.setting L.storage p id) (L.bundleLoc p id) entry.offset heap
      entry.call.url entry.call.buf entry.call.user_data w := by
  obtain ⟨hnone, hsome⟩ := hkept
  cases hcontent : w.tree.content (L.bundleLoc p id) with
  | none =>
      rw [hnone hcontent] at hentry
      exact absurd hentry List.not_mem_nil
  | some content =>
      have hlaid := hsome content hcontent
      obtain ⟨hin, hslice⟩ := hlaid.stand _ hentry
      obtain ⟨hsize, -⟩ := hlaid.records _ hentry
      have hfits : kFileHeaderSize + entry.call.buf.length ≤ heap.length := by
        rw [hheap]
        exact fits_fullSize _
      have hlength : entry.record.length = heap.length := by
        rw [hrecord]
        exact length_recordBytes heap entry.call.url _ entry.call.user_data hfits
      refine ⟨openRdwr_bundleFile L.setting (storage.grows hgrows) plain id hcontent,
        content, hcontent, ?_⟩
      constructor
      · exact hfits
      · omega
      · rw [← hlength]
        exact hin
      · rw [← hlength, hslice, hrecord]

/-- A record that was accepted is there in every state that comes. -/
theorem recordThere_of_run (outside : ∀ p, allowed p = true → L.Outside p)
    (plain : ∀ p, allowed p = true → ∀ c ∈ components p, c ≠ dotdot)
    (storage : base.Direct L.cwd L.storage)
    (hc : (durableSystem L ι allowed).Reachable (StartsFrom base) c)
    {p : Bytes} (hp : allowed p = true) {id : ℤ} (hid : IsId id)
    {entry : LogEntry} (hentry : entry ∈ c.shared.accepted (L.bundleLoc p id)) {heap : Bytes}
    (hheap : heap.length = fullSize entry.call.buf)
    (hrecord : entry.record = recordBytes heap entry.call.url entry.call.buf entry.call.user_data)
    (hrun : ReflTransGen (durableSystem L ι allowed).Step c c') :
    RecordThere L.cwd (bundleFile L.setting L.storage p id) (L.bundleLoc p id) entry.offset heap
      entry.call.url entry.call.buf entry.call.user_data c'.shared := by
  have hlater := (accepted_grows_of_run outside plain storage hc hrun hp hid).subset hentry
  obtain ⟨c₀, h₀, hbefore⟩ := hc
  obtain ⟨hgrows, hkept⟩ := keptBundle_of_reachable outside plain storage
    ⟨c₀, h₀, hbefore.trans hrun⟩
  exact recordThere_of_kept storage (plain p hp) hgrows (hkept p id hp hid) hlater hheap hrecord

/-- The result of `Read(url, ...)` that was not disturbed, or an error. -/
def UrlReadOr (fault : Prop) (buf user_data : Bytes) : UrlRead → Prop
  | .returned ret got data =>
      (ret = 0 ∧ got = some buf ∧ data = some user_data) ∨ (fault ∧ ret ≠ 0)
  | .threw => False

omit [DecidableEq ι] in
/-- The url of a record that is there all the time is read.
SOURCE: bundle.cc:217-250 -/
theorem readUrl_beside {fault : Prop} {cwd loc : Loc} {setting : Setting}
    {heap target buf url storage : Bytes} {user_data : Option Bytes}
    {extract : Option ExtractUrl} (hurl : url ≠ []) {info : Info}
    (hextract : (extract.getD setting.extract) (cstr url) {} = some info)
    (hsize : info.size = buf.length) (hstorage : 0 ∉ storage) (hnul : 0 ∉ info.prefix_)
    (hoffset : info.offset < 2 ^ 63) (hlength : buf.length < 2 ^ 31)
    (hfits : kFileHeaderSize + buf.length ≤ heap.length) :
    (reader cwd fault).Triple
      (RecordThere (ι := ι) (κ := ι) cwd (bundleFile setting storage info.prefix_ info.id) loc
        info.offset heap target buf user_data)
      (fun _ => True) (Reader.readUrl setting url storage extract)
      (UrlReadOr fault buf (recordHeader heap target buf user_data).user_data_) := by
  unfold Reader.readUrl
  rw [if_neg hurl, hextract]
  dsimp only
  rw [if_neg (by omega), hsize, cstr_bundleFile _ _ hstorage hnul]
  refine Observer.Triple.bind (read_beside hoffset hlength hfits) fun out hout => ?_
  refine Observer.Triple.ret fun _ _ => ?_
  rcases hout with rfl | ⟨hfault, hret⟩
  · left
    refine ⟨rfl, ?_, rfl⟩
    show some (buf.take buf.length) = some buf
    rw [List.take_length]
  · exact .inr ⟨hfault, hret⟩

/-- **What was accepted is read as it was written.** While any processes go on
allocating and writing, whatever fails for them, a read of the url of a record that was
accepted whole gives the content and the user data that its `Write` was called with; only a
failing call of the reader itself makes it return an error. A read that nobody disturbs gives
them.
SOURCE: bundle.cc:217-307 -/
theorem accepted_read_beside (outside : ∀ p, allowed p = true → L.Outside p)
    (plain : ∀ p, allowed p = true → ∀ c ∈ components p, c ≠ dotdot)
    (storage : base.Direct L.cwd L.storage) (hstorage : 0 ∉ L.storage)
    (hc : (durableSystem L ι allowed).Reachable (StartsFrom base) c)
    {extract : Option ExtractUrl} {url : Bytes} (hurl : url ≠ []) {info : Info}
    (hextract : (extract.getD L.setting.extract) (cstr url) {} = some info)
    (hp : allowed info.prefix_ = true) (hnul : 0 ∉ info.prefix_) (hid : IsId info.id)
    {entry : LogEntry} (hentry : entry ∈ c.shared.accepted (L.bundleLoc info.prefix_ info.id))
    (hoffset : info.offset = entry.offset) (hsize : info.size = entry.call.buf.length) :
    ∃ heap, heap.length = fullSize entry.call.buf ∧
      entry.record = recordBytes heap entry.call.url entry.call.buf entry.call.user_data ∧
      let user_data := (recordHeader heap entry.call.url entry.call.buf
        entry.call.user_data).user_data_
      (∀ fault r out, Observer.Alongside (durableSystem L ι allowed) (reader L.cwd fault) c
        (Reader.readUrl L.setting url L.storage extract) r out →
          UrlReadOr fault entry.call.buf user_data out) ∧
      ∀ r, ((Reader.readUrl L.setting url L.storage extract).run
        (ReaderState.serve c.shared.tree L.cwd) r).1 =
          .returned 0 (some entry.call.buf) (some user_data) := by
  have hlaid : fullSize entry.call.buf < 2 ^ 31 ∧ IsRecord entry.call entry.record := by
    obtain ⟨-, hkept⟩ := keptBundle_of_reachable outside plain storage hc
    obtain ⟨hnone, hsome⟩ := hkept info.prefix_ info.id hp hid
    cases hcontent : c.shared.tree.content (L.bundleLoc info.prefix_ info.id) with
    | none =>
        rw [hnone hcontent] at hentry
        exact absurd hentry List.not_mem_nil
    | some content => exact (hsome content hcontent).records entry hentry
  obtain ⟨-, heap, hheap, hrecord⟩ := hlaid
  have hthere : ∀ c', ReflTransGen (durableSystem L ι allowed).Step c c' →
      RecordThere L.cwd (bundleFile L.setting L.storage info.prefix_ info.id)
        (L.bundleLoc info.prefix_ info.id) info.offset heap entry.call.url entry.call.buf
        entry.call.user_data c'.shared := by
    intro c' hrun
    rw [hoffset]
    exact recordThere_of_run outside plain storage hc hp hid hentry hheap hrecord hrun
  obtain ⟨hopen, content, hcontent, hat⟩ := hthere c .refl
  have hrange : info.offset < 2 ^ 63 := by
    have hlt := accepted_end_lt hc _ _ hentry
    omega
  refine ⟨heap, hheap, hrecord, ?_, ?_⟩
  · intro fault r out hread
    exact Observer.Safe.sound hread hthere (readUrl_beside hurl hextract hsize hstorage hnul hrange
      hat.length_lt hat.fits r trivial)
  · intro r
    have hview : (treeView c.shared.tree L.cwd).fopen
        (bundleFile L.setting L.storage info.prefix_ info.id) = .ok content := by
      simp only [treeView, hopen, hcontent, Option.getD_some]
    have hthrow : ¬ 2 ^ 63 ≤ entry.call.buf.length := by
      have hlt := hat.length_lt
      omega
    rw [Reader.run_readUrl]
    · unfold readUrl
      simp only [hurl, if_false, hextract, hsize, hthrow, cstr_bundleFile _ _ hstorage hnul,
        readFile_recordAt hview hat hrange, Option.getD_some, List.take_length]
    · intro got hgot
      rw [hextract, Option.some.injEq] at hgot
      rw [← hgot]
      omega

deriving instance DecidableEq for Info

/-- The url of the record that `upload` writes, and what it says. -/
def uploadedUrl : Bytes := Text.ascii "p/A_SE_D_C3KBmZ.jpg"

def uploadedInfo : Info where
  id := 0
  offset := 1024
  size := 3
  prefix_ := Text.ascii "p"
  postfix_ := Text.ascii ".jpg"

/-- The record of the upload. -/
def uploadedEntry : LogEntry where
  offset := 1024
  call := ⟨uploadedUrl, [1, 2, 3], none⟩
  record := recordBytes (List.replicate 1024 0) uploadedUrl [1, 2, 3] none

/-- It is read beside the process that has written it, and beside another one. -/
theorem accepted_read_beside_upload :
    let c := (durableSystem storageLayout Bool onlyP).play (emptyDisk Bool)
      (upload false [1, 2, 3])
    let Reads := Observer.Alongside (durableSystem storageLayout Bool onlyP)
      (reader storageLayout.cwd False) c
      (Reader.readUrl storageLayout.setting uploadedUrl storageLayout.storage none) {}
    (∃ out, Reads out) ∧ ∃ user_data, ∀ out, Reads out →
      UrlReadOr False [1, 2, 3] user_data out := by
  have storage : Tree.bare.Direct storageLayout.cwd storageLayout.storage := by
    apply Tree.direct_of_plain
    decide +kernel
  have hreach : (durableSystem storageLayout Bool onlyP).Reachable (StartsFrom Tree.bare)
      ((durableSystem storageLayout Bool onlyP).play (emptyDisk Bool) (upload false [1, 2, 3])) :=
    System.play_reachable_restrict (emptyDisk_starts Bool) (upload false [1, 2, 3])
      (upload_fair false [1, 2, 3])
      (fun _ _ _ _ _ => true) (fun _ _ _ _ _ _ => trivial) (System.passes_true _ _)
  have hextract : (Option.getD none storageLayout.setting.extract) (cstr uploadedUrl) {} =
      some uploadedInfo := by decide +kernel
  have hid : IsId uploadedInfo.id := by
    unfold IsId uploadedInfo
    norm_num
  have hentry : uploadedEntry ∈ ((durableSystem storageLayout Bool onlyP).play (emptyDisk Bool)
      (upload false [1, 2, 3])).shared.accepted
        (storageLayout.bundleLoc uploadedInfo.prefix_ uploadedInfo.id) := by decide +kernel
  constructor
  · refine ⟨_, Observer.Alongside.of_executes (Prog.executes_run (fun o r => serve_sem) ?_)⟩
    decide +kernel
  · obtain ⟨heap, -, -, hread, -⟩ := accepted_read_beside onlyP_outside onlyP_plain storage
      (by decide +kernel) hreach (by decide +kernel) hextract (by decide +kernel)
      (by decide +kernel) hid hentry rfl rfl
    exact ⟨_, fun out => hread False {} out⟩

end Accepted

end BundleStore
