import Appstack.Couchstore.NodeTypes
import Appstack.Lib.BlockLayout

-- `couch_file_write.c` and `couch_file_read.c`. The calls below `couch_file_ops` are the operating
-- system's. Memory allocation is taken to succeed.

namespace Appstack.Couchstore
open BigEndian BlockLayout List

def couchBlockSize : ℕ := 4096

def maxHeaderSize : ℕ := 1024

inductive Errcode where
  | success
  | read
  | write
  | corrupt
  | checksumFail
  | noHeader
  | headerVersion
  /-- A code that a compaction hook returned. -/
  | hook
  /-- The recursion bound of a model function, no code of the source. -/
  | depth
  deriving DecidableEq

/-- The operating system: what becomes of the `n`-th call (`none` is an error, `some c`
a transfer of at most `c + 1` bytes), and how long a file can get. -/
structure Os where
  outcome : ℕ → Option ℕ
  maxSize : ℕ
  maxSize_le : maxSize ≤ 2 ^ 47

/-- The snappy library. A compressed buffer is at most `snappy_max_compressed_length`
bytes long. -/
structure Snappy where
  compress : Bytes → Bytes
  uncompress : Bytes → Option Bytes
  uncompress_compress : ∀ b, uncompress (compress b) = some b
  length_compress_le : ∀ b, (compress b).length ≤ 32 + b.length + b.length / 6

/-- A compression that does nothing. -/
def Snappy.identity : Snappy where
  compress := id
  uncompress := some
  uncompress_compress := fun _ => rfl
  length_compress_le := fun b => by simp only [id]; omega

/-- What a file is used with. The checksum may be any function of the data. -/
structure Platform where
  os : Os
  snappy : Snappy
  hashCrc32 : Bytes → UInt32

structure Disk where
  byte : ℕ → UInt8
  size : ℕ
  /-- The number of system calls so far. -/
  calls : ℕ

structure TreeFile where
  pos : ℕ
  disk : Disk

def Disk.store (d : Disk) (pos : ℕ) (buf : Bytes) : Disk where
  byte i := if pos ≤ i ∧ i < pos + buf.length then buf.getD (i - pos) 0 else d.byte i
  size := max d.size (pos + buf.length)
  calls := d.calls

def Disk.tick (d : Disk) : Disk := { d with calls := d.calls + 1 }

def pwrite (os : Os) (buf : Bytes) (pos : ℕ) (d : Disk) : Except Errcode ℕ × Disk :=
  match os.outcome d.calls with
  | none => (.error .write, d.tick)
  | some c =>
    let n := min buf.length (c + 1)
    if os.maxSize < pos + n then (.error .write, d.tick)
    else (.ok n, d.tick.store pos (buf.take n))

def pread (os : Os) (len pos : ℕ) (d : Disk) : Except Errcode Bytes × Disk :=
  match os.outcome d.calls with
  | none => (.error .read, d.tick)
  | some c =>
    (.ok ((List.range (min (min len (c + 1)) (d.size - pos))).map fun i => d.byte (pos + i)),
      d.tick)

/-- The loop of `raw_write`. The result is the position behind the data. -/
def rawWriteLoop (os : Os) : ℕ → Bytes → ℕ → Disk → Except Errcode ℕ × Disk
  | 0, _, writePos, d => (.ok writePos, d)
  | fuel + 1, buf, writePos, d =>
    if buf = [] then (.ok writePos, d)
    else if writePos % couchBlockSize = 0 then
      match pwrite os [0] writePos d with
      | (.error e, d) => (.error e, d)
      | (.ok _, d) => rawWriteLoop os fuel buf (writePos + 1) d
    else
      let blockRemain := min (couchBlockSize - writePos % couchBlockSize) buf.length
      match pwrite os (buf.take blockRemain) writePos d with
      | (.error e, d) => (.error e, d)
      | (.ok written, d) => rawWriteLoop os fuel (buf.drop written) (writePos + written) d

/-- Every byte takes at most one round for itself and one for a block boundary. -/
def rawWrite (os : Os) (buf : Bytes) (pos : ℕ) (d : Disk) : Except Errcode ℕ × Disk :=
  rawWriteLoop os (2 * buf.length) buf pos d

def chunkHeader (plat : Platform) (buf : Bytes) : Bytes :=
  encode 4 (buf.length ||| 0x80000000) ++ encode 4 (plat.hashCrc32 buf).toNat

/-- Append a chunk; gives its position and the bytes it takes on disk. -/
def dbWriteBuf (plat : Platform) (buf : Bytes) (file : TreeFile) :
    Except Errcode (ℕ × ℕ) × TreeFile :=
  match rawWrite plat.os (chunkHeader plat buf) file.pos file.disk with
  | (.error e, d) => (.error e, { file with disk := d })
  | (.ok endPos, d) =>
    match rawWrite plat.os buf endPos d with
    | (.error e, d) => (.error e, { file with disk := d })
    | (.ok endPos, d) => (.ok (file.pos, endPos - file.pos), { pos := endPos, disk := d })

def dbWriteBufCompressed (plat : Platform) (buf : Bytes) (file : TreeFile) :
    Except Errcode (ℕ × ℕ) × TreeFile :=
  dbWriteBuf plat (plat.snappy.compress buf) file

def readLoop (os : Os) : ℕ → ℕ → ℕ → Disk → Except Errcode (Bytes × ℕ) × Disk
  | 0, _, pos, d => (.ok ([], pos), d)
  | fuel + 1, len, pos, d =>
    if len = 0 then (.ok ([], pos), d)
    else
      let readSize := min (couchBlockSize - pos % couchBlockSize) len
      match pread os readSize pos d with
      | (.error e, d) => (.error e, d)
      | (.ok got, d) =>
        if got = [] then (.error .read, d)
        else
          match readLoop os fuel (len - got.length) (skip couchBlockSize (pos + got.length)) d with
          | (.error e, d) => (.error e, d)
          | (.ok (rest, pos), d) => (.ok (got ++ rest, pos), d)

def readSkippingPrefixes (os : Os) (pos len : ℕ) (d : Disk) : Except Errcode (Bytes × ℕ) × Disk :=
  readLoop os len len (skip couchBlockSize pos) d

def badHeaderLength (header : Bool) (len : ℕ) : Prop :=
  header = true ∧ (len < 4 ∨ maxHeaderSize < len)

instance (header : Bool) (len : ℕ) : Decidable (badHeaderLength header len) :=
  inferInstanceAs (Decidable (_ ∧ _))

def preadBinInternal (plat : Platform) (pos : ℕ) (header : Bool) (d : Disk) :
    Except Errcode Bytes × Disk :=
  match readSkippingPrefixes plat.os pos 8 d with
  | (.error e, d) => (.error e, d)
  | (.ok (info, pos), d) =>
    let chunkLen := decode (info.take 4) % 2 ^ 31
    let crc32 := decode (info.drop 4)
    if badHeaderLength header chunkLen then (.error .corrupt, d)
    else
      -- the length in front of a header includes the checksum's
      match readSkippingPrefixes plat.os pos (if header then chunkLen - 4 else chunkLen) d with
      | (.error e, d) => (.error e, d)
      | (.ok (buf, _), d) =>
        if crc32 ≠ 0 ∧ crc32 ≠ (plat.hashCrc32 buf).toNat then (.error .checksumFail, d)
        else (.ok buf, d)

/-- A chunk's data. The length that the function returns is an `int`: from `2 ^ 31` bytes
on it reads as an error, from `2 ^ 32` on it starts over. -/
def preadCompressed (plat : Platform) (pos : ℕ) (file : TreeFile) :
    Except Errcode Bytes × TreeFile :=
  match preadBinInternal plat pos false file.disk with
  | (.error e, d) => (.error e, { file with disk := d })
  | (.ok compressedBuf, d) =>
    match plat.snappy.uncompress compressedBuf with
    | none => (.error .corrupt, { file with disk := d })
    | some newBuf =>
      let uncompressedLen := newBuf.length % 2 ^ 32
      if 2 ^ 31 ≤ uncompressedLen then (.error .read, { file with disk := d })
      else (.ok (newBuf.take uncompressedLen), { file with disk := d })

variable {pos fuel : ℕ} {buf : Bytes} {d d' d'' : Disk} {f f' f'' : TreeFile} {e : Errcode}
  {r : Except Errcode Bytes} {header : Bool}

theorem Disk.store_byte_of_lt (d : Disk) {i : ℕ} (buf : Bytes) (h : i < pos) :
    (d.store pos buf).byte i = d.byte i := by
  simp only [Disk.store]
  rw [if_neg (by omega)]

theorem Disk.store_byte_add (d : Disk) (pos : ℕ) {i : ℕ} (h : i < buf.length) :
    buf[i]? = some ((d.store pos buf).byte (pos + i)) := by
  simp only [Disk.store]
  rw [if_pos (by omega), Nat.add_sub_cancel_left, List.getElem?_eq_getElem h, getD_eq_getElem _ _ h]

/-- `d'` has the bytes of `d` below `pos`, and is no shorter. -/
structure Disk.Keeps (d d' : Disk) (pos : ℕ) : Prop where
  byte : ∀ i < pos, d'.byte i = d.byte i
  size : d.size ≤ d'.size

theorem Disk.Keeps.trans {pos' : ℕ} (h : d.Keeps d' pos)
    (h' : d'.Keeps d'' pos') (hle : pos ≤ pos') : d.Keeps d'' pos where
  byte i hi := (h'.byte i (by omega)).trans (h.byte i hi)
  size := h.size.trans h'.size

theorem Disk.keeps_store (d : Disk) (pos : ℕ) (buf : Bytes) : d.Keeps (d.tick.store pos buf) pos :=
  ⟨fun _ hi => d.tick.store_byte_of_lt buf hi, le_max_left _ _⟩

theorem pwrite_cases {os : Os} {r : Except Errcode ℕ}
    (hbuf : buf ≠ []) (h : pwrite os buf pos d = (r, d')) :
    (∃ e, r = .error e ∧ d' = d.tick) ∨
      ∃ n, 0 < n ∧ n ≤ buf.length ∧ pos + n ≤ os.maxSize ∧ r = .ok n ∧
        d' = d.tick.store pos (buf.take n) := by
  have hlen : 0 < buf.length := length_pos_of_ne_nil hbuf
  unfold pwrite at h
  split at h
  · exact .inl ⟨_, (Prod.mk.inj h).1.symm, (Prod.mk.inj h).2.symm⟩
  · dsimp only at h
    split_ifs at h
    · exact .inl ⟨_, (Prod.mk.inj h).1.symm, (Prod.mk.inj h).2.symm⟩
    · exact .inr ⟨_, by omega, by omega, by omega, (Prod.mk.inj h).1.symm, (Prod.mk.inj h).2.symm⟩

/-- A read changes nothing but the count of calls. -/
def Disk.Same (d d' : Disk) : Prop := d'.byte = d.byte ∧ d'.size = d.size

theorem Disk.Same.trans (h : d.Same d') (h' : d'.Same d'') : d.Same d'' :=
  ⟨h'.1.trans h.1, h'.2.trans h.2⟩

theorem Disk.Same.keeps (h : d.Same d') (pos : ℕ) : d.Keeps d' pos :=
  ⟨fun i _ => congrFun h.1 i, h.2.ge⟩

/-- From `d` to `d'` data has been written behind `pos`: it keeps what is before, leaves a zero
at the boundaries it meets, and what lies behind the file is as it was. -/
structure Disk.DataOnly (d d' : Disk) (pos : ℕ) : Prop where
  keeps : d.Keeps d' pos
  mark : ∀ m, m % couchBlockSize = 0 → d'.byte m = d.byte m ∨ pos ≤ m ∧ d'.byte m = 0
  beyond : ∀ i, d'.size ≤ i → d'.byte i = d.byte i

theorem Disk.DataOnly.trans {pos' : ℕ} (h : d.DataOnly d' pos)
    (h' : d'.DataOnly d'' pos') (hle : pos ≤ pos') : d.DataOnly d'' pos where
  keeps := h.keeps.trans h'.keeps hle
  mark m hm := by
    rcases h'.mark m hm with hsame | ⟨hge, hzero⟩
    · rcases h.mark m hm with hsame' | ⟨hge', hzero'⟩
      · exact .inl (hsame.trans hsame')
      · exact .inr ⟨hge', hsame.trans hzero'⟩
    · exact .inr ⟨by omega, hzero⟩
  beyond i hi := (h'.beyond i hi).trans (h.beyond i (by have := h'.keeps.size; omega))

theorem Disk.Same.dataOnly (h : d.Same d') (pos : ℕ) : d.DataOnly d' pos where
  keeps := h.keeps pos
  mark m _ := .inl (congrFun h.1 m)
  beyond i _ := congrFun h.1 i

theorem Disk.dataOnly_tick (d : Disk) (pos : ℕ) : d.DataOnly d.tick pos :=
  (show d.Same d.tick from ⟨rfl, rfl⟩).dataOnly pos

theorem Disk.dataOnly_store (d : Disk) (pos : ℕ) (buf : Bytes)
    (h : ∀ m, m % couchBlockSize = 0 → pos ≤ m → m < pos + buf.length → buf.getD (m - pos) 0 = 0) :
    d.DataOnly (d.tick.store pos buf) pos where
  keeps := d.keeps_store pos buf
  mark m hm := by
    by_cases hin : pos ≤ m ∧ m < pos + buf.length
    · refine .inr ⟨hin.1, ?_⟩
      simp only [Disk.store, if_pos hin]
      exact h m hm hin.1 hin.2
    · left
      simp only [Disk.store, if_neg hin]
      rfl
  beyond i hi := by
    simp only [Disk.store, Disk.tick] at hi ⊢
    rw [if_neg (by omega)]

section
variable {os : Os} {writePos : ℕ} {r : Except Errcode ℕ}
  (h : rawWriteLoop os fuel buf writePos d = (r, d'))
include h

theorem rawWriteLoop_dataOnly : d.DataOnly d' writePos := by
  induction fuel generalizing buf writePos d with
  | zero =>
    rw [rawWriteLoop, Prod.mk.injEq] at h
    exact h.2 ▸ Disk.Same.dataOnly ⟨rfl, rfl⟩ _
  | succ fuel ih =>
    rw [rawWriteLoop] at h
    split_ifs at h with hnil hb
    · exact (Prod.mk.inj h).2 ▸ Disk.Same.dataOnly ⟨rfl, rfl⟩ _
    · rcases hw : pwrite os [0] writePos d with ⟨r1, d1⟩
      rw [hw] at h
      obtain ⟨e, rfl, rfl⟩ | ⟨n, hn, hle, -, rfl, rfl⟩ := pwrite_cases (by simp) hw
      · exact (Prod.mk.inj h).2 ▸ d.dataOnly_tick _
      · refine (d.dataOnly_store writePos _ ?_).trans (ih h) (by omega)
        intro m _ hge hlt
        simp only [length_take, length_singleton] at hlt hle
        have hm : m - writePos = 0 := by omega
        have hn1 : n = 1 := by omega
        rw [hm, hn1]
        rfl
    · dsimp only at h
      generalize hr : min (couchBlockSize - writePos % couchBlockSize) buf.length = rem at h
      have hmod : writePos % couchBlockSize < couchBlockSize := Nat.mod_lt _ (by decide)
      have hne : buf.take rem ≠ [] := by
        have := length_pos_of_ne_nil hnil
        rw [Ne, take_eq_nil_iff]
        rintro (h | h) <;> [omega; exact hnil h]
      rcases hw : pwrite os (buf.take rem) writePos d with ⟨r1, d1⟩
      rw [hw] at h
      obtain ⟨e, rfl, rfl⟩ | ⟨n, hn, hle, -, rfl, rfl⟩ := pwrite_cases hne hw
      · exact (Prod.mk.inj h).2 ▸ d.dataOnly_tick _
      · refine (d.dataOnly_store writePos _ ?_).trans (ih h) (by omega)
        -- the transfer starts behind a boundary and ends at the next one at most
        intro m hm hge hlt
        rw [length_take, length_take] at hlt
        rw [length_take] at hle
        exfalso
        unfold couchBlockSize at *
        omega

theorem rawWriteLoop_keeps : d.Keeps d' writePos :=
  (rawWriteLoop_dataOnly h).keeps

end

theorem laid_store {n : ℕ} (hpos : pos % couchBlockSize ≠ 0)
    (hlen : buf.length = n) (hn : pos % couchBlockSize + n ≤ couchBlockSize)
    (h : (d.store pos buf).Keeps d' (pos + n)) : Laid couchBlockSize d'.byte pos buf := by
  refine (laid_of_le hpos (by omega)).mpr fun i hi => ?_
  rw [h.byte _ (by omega)]
  exact d.store_byte_add pos hi

section
variable {os : Os}

theorem rawWriteLoop_ok {writePos endPos : ℕ}
    (hfuel : 2 * buf.length ≤ fuel + if writePos % couchBlockSize = 0 then 0 else 1)
    (h : rawWriteLoop os fuel buf writePos d = (.ok endPos, d')) :
    endPos = finish couchBlockSize writePos buf.length ∧ Laid couchBlockSize d'.byte writePos buf ∧
      (buf ≠ [] → endPos ≤ d'.size ∧ endPos ≤ os.maxSize) := by
  induction fuel generalizing buf writePos d with
  | zero =>
    have hnil : buf = [] := length_eq_zero_iff.mp (by split_ifs at hfuel <;> omega)
    subst hnil
    rw [rawWriteLoop, Prod.mk.injEq, Except.ok.injEq] at h
    exact ⟨h.1.symm, trivial, fun hne => absurd rfl hne⟩
  | succ fuel ih =>
    rw [rawWriteLoop] at h
    split_ifs at h with hnil hb
    · subst hnil
      rw [Prod.mk.injEq, Except.ok.injEq] at h
      exact ⟨h.1.symm, trivial, fun hne => absurd rfl hne⟩
    · -- a block boundary: one prefix byte, then the same data one position on
      have hpos : 0 < buf.length := length_pos_of_ne_nil hnil
      have hskip : skip couchBlockSize writePos = writePos + 1 := if_pos hb
      have hne : (writePos + 1) % couchBlockSize ≠ 0 := hskip ▸ skip_mod_ne (by decide) _
      rcases hw : pwrite os [0] writePos d with ⟨r1, d1⟩
      rw [hw] at h
      obtain ⟨e, rfl, rfl⟩ | ⟨n, -, -, -, rfl, rfl⟩ := pwrite_cases (by simp) hw
      · simp at h
      · rw [if_pos hb] at hfuel
        obtain ⟨hend, hlaid, hsize⟩ := ih (by rw [if_neg hne]; omega) h
        rw [← hskip, finish_skip_of_pos (by decide) _ hpos] at hend
        rw [← hskip, laid_skip (by decide)] at hlaid
        exact ⟨hend, hlaid, hsize⟩
    · dsimp only at h
      generalize hr : min (couchBlockSize - writePos % couchBlockSize) buf.length = rem at h
      have hmod : writePos % couchBlockSize < couchBlockSize := Nat.mod_lt _ (by decide)
      have hlen := length_pos_of_ne_nil hnil
      have htake : (buf.take rem).length = rem := by rw [length_take]; omega
      have hne : buf.take rem ≠ [] := ne_nil_of_length_pos (by omega)
      rcases hw : pwrite os (buf.take rem) writePos d with ⟨r1, d1⟩
      rw [hw] at h
      obtain ⟨e, rfl, rfl⟩ | ⟨n, hn, hle, hmax, rfl, rfl⟩ := pwrite_cases hne hw
      · simp at h
      · rw [if_neg hb] at hfuel
        rw [htake] at hle
        have hkeeps := rawWriteLoop_keeps h
        rw [take_take, Nat.min_eq_left hle] at hkeeps
        have hlen' : (buf.take n).length = n := by rw [length_take]; omega
        obtain ⟨hend, hlaid, hsize⟩ := ih (by rw [length_drop]; split_ifs <;> omega) h
        have hfin : finish couchBlockSize writePos n = writePos + n := finish_of_le hb (by omega)
        have hsum : buf.length = n + (buf.drop n).length := by rw [length_drop]; omega
        refine ⟨by rw [hend, hsum, finish_add, hfin, length_drop], ?_, fun _ => ?_⟩
        · rw [← take_append_drop n buf, laid_append, hlen', hfin]
          exact ⟨laid_store hb hlen' (by omega) hkeeps, hlaid⟩
        · by_cases hd : buf.drop n = []
          · rw [hd] at hend
            have hs := hkeeps.size
            simp only [Disk.store, hlen'] at hs
            exact ⟨by rw [hend]; exact (le_max_right _ _).trans hs, by rw [hend]; exact hmax⟩
          · exact hsize hd

variable {len : ℕ}

theorem pread_cases (h : pread os len pos d = (r, d')) : d.Same d' ∧ ((∃ e, r = .error e) ∨
      ∃ n, n ≤ len ∧ n ≤ d.size - pos ∧ r = .ok ((List.range n).map fun i => d.byte (pos + i))) := by
  unfold pread at h
  split at h
  · exact ⟨(Prod.mk.inj h).2 ▸ ⟨rfl, rfl⟩, .inl ⟨_, (Prod.mk.inj h).1.symm⟩⟩
  · exact ⟨(Prod.mk.inj h).2 ▸ ⟨rfl, rfl⟩, .inr ⟨_, by omega, by omega, (Prod.mk.inj h).1.symm⟩⟩

theorem readLoop_same {r : Except Errcode (Bytes × ℕ)}
    (h : readLoop os fuel len pos d = (r, d')) : d.Same d' := by
  induction fuel generalizing len pos d d' r with
  | zero => exact (Prod.mk.inj h).2 ▸ ⟨rfl, rfl⟩
  | succ fuel ih =>
    rw [readLoop] at h
    split_ifs at h
    · exact (Prod.mk.inj h).2 ▸ ⟨rfl, rfl⟩
    dsimp only at h
    split at h
    next e d1 hr => exact (Prod.mk.inj h).2 ▸ (pread_cases hr).1
    next got d1 hr =>
      have hsame := (pread_cases hr).1
      split_ifs at h
      · exact (Prod.mk.inj h).2 ▸ hsame
      split at h
      all_goals
        next hl => exact (Prod.mk.inj h).2 ▸ hsame.trans (ih hl)

theorem readLoop_ok {pos' : ℕ} {bs got : Bytes}
    (hfuel : bs.length ≤ fuel) (hpos : pos % couchBlockSize ≠ 0)
    (hlaid : Laid couchBlockSize d.byte pos bs)
    (hsize : bs ≠ [] → finish couchBlockSize pos bs.length ≤ d.size)
    (h : readLoop os fuel bs.length pos d = (.ok (got, pos'), d')) :
    got = bs ∧ skip couchBlockSize pos' =
      skip couchBlockSize (finish couchBlockSize pos bs.length) := by
  induction fuel generalizing bs pos pos' d d' got with
  | zero =>
    have hnil : bs = [] := length_eq_zero_iff.mp (by omega)
    subst hnil
    simp only [readLoop, Prod.mk.injEq, Except.ok.injEq] at h
    exact ⟨h.1.1.symm, by rw [← h.1.2]; rfl⟩
  | succ fuel ih =>
    rw [readLoop] at h
    split_ifs at h with hlen
    · have hnil : bs = [] := length_eq_zero_iff.mp hlen
      subst hnil
      simp only [Prod.mk.injEq, Except.ok.injEq] at h
      exact ⟨h.1.1.symm, by rw [← h.1.2]; rfl⟩
    dsimp only at h
    generalize hrem : min (couchBlockSize - pos % couchBlockSize) bs.length = rem at h
    have hmod : pos % couchBlockSize < couchBlockSize := Nat.mod_lt _ (by decide)
    rcases hr : pread os rem pos d with ⟨r1, d1⟩
    rw [hr] at h
    obtain ⟨hsame, ⟨e, rfl⟩ | ⟨n, hn, -, rfl⟩⟩ := pread_cases hr
    · simp at h
    have htake : (bs.take n).length = n := by rw [length_take]; omega
    have hfin : finish couchBlockSize pos n = pos + n := finish_of_le hpos (by omega)
    rw [← take_append_drop n bs, laid_append, htake, hfin] at hlaid
    -- what the call returned is the part of the data up to the end of the block
    have hgot : (List.range n).map (fun i => d.byte (pos + i)) = bs.take n := by
      refine ext_getElem? fun i => ?_
      by_cases hi : i < n
      · rw [(laid_of_le hpos (by omega)).mp hlaid.1 i (by omega)]
        simp [hi]
      · rw [List.getElem?_eq_none (by simp; omega), List.getElem?_eq_none (by omega)]
    rw [hgot] at h
    dsimp only at h
    split_ifs at h with hnil
    · simp at h
    split at h
    · simp at h
    next rest pos1 d2 hl =>
      have hn0 : 0 < n := by
        have := length_pos_of_ne_nil hnil
        omega
      have hsum : bs.length = n + (bs.drop n).length := by rw [length_drop]; omega
      rw [htake, show bs.length - n = (bs.drop n).length by omega] at hl
      have hend : finish couchBlockSize pos bs.length =
          finish couchBlockSize (pos + n) (bs.drop n).length := by
        rw [← hfin, ← finish_add, ← hsum]
      have hlaid' : Laid couchBlockSize d1.byte (skip couchBlockSize (pos + n)) (bs.drop n) := by
        rw [laid_skip (by decide), hsame.1]
        exact hlaid.2
      have hsize' (hd : bs.drop n ≠ []) :
          finish couchBlockSize (skip couchBlockSize (pos + n)) (bs.drop n).length ≤ d1.size := by
        rw [finish_skip_of_pos (by decide) _ (length_pos_of_ne_nil hd), ← hend, hsame.2]
        exact hsize fun hbs => hd (by rw [hbs, drop_nil])
      obtain ⟨rfl, hpos1⟩ := ih (by omega) (skip_mod_ne (by decide) _) hlaid' hsize' hl
      simp only [Prod.mk.injEq, Except.ok.injEq] at h
      refine ⟨by rw [← h.1.1, take_append_drop], ?_⟩
      rw [← h.1.2, hpos1, finish_skip (by decide), hend]

theorem readSkippingPrefixes_ok {pos' : ℕ} {bs got : Bytes}
    (hlaid : Laid couchBlockSize d.byte pos bs)
    (hsize : finish couchBlockSize pos bs.length ≤ d.size)
    (h : readSkippingPrefixes os pos bs.length d = (.ok (got, pos'), d')) :
    got = bs ∧ skip couchBlockSize pos' =
      skip couchBlockSize (finish couchBlockSize pos bs.length) := by
  rw [← finish_skip (by decide)]
  refine readLoop_ok le_rfl (skip_mod_ne (by decide) _) ((laid_skip (by decide) _ _).mpr hlaid)
    (fun hbs => ?_) h
  rwa [finish_skip_of_pos (by decide) _ (length_pos_of_ne_nil hbs)]

theorem readSkippingPrefixes_same
    {r : Except Errcode (Bytes × ℕ)} (h : readSkippingPrefixes os pos len d = (r, d')) :
    d.Same d' :=
  readLoop_same h

theorem readLoop_error (h : readLoop os fuel len pos d = (.error e, d')) : e = .read := by
  induction fuel generalizing len pos d with
  | zero => cases h
  | succ fuel ih =>
    rw [readLoop] at h
    split_ifs at h
    · cases h
    dsimp only at h
    split at h
    next e1 d1 hr =>
      unfold pread at hr
      split at hr
      · cases hr
        cases h
        rfl
      · cases hr
    next got d1 hr =>
      split_ifs at h
      · cases h
        rfl
      split at h
      next hl =>
        cases h
        exact ih hl
      · cases h

end

@[simp] theorem length_chunkHeader (plat : Platform) (buf : Bytes) :
    (chunkHeader plat buf).length = 8 := by
  simp [chunkHeader]

theorem chunkHeader_length_mod (plat : Platform) (buf : Bytes) :
    decode ((chunkHeader plat buf).take 4) % 2 ^ 31 = buf.length % 2 ^ 31 := by
  rw [chunkHeader, take_encode_append, decode_encode, show (256 : ℕ) ^ 4 = 2 ^ 31 * 2 by norm_num,
    Nat.mod_mul_right_mod, Nat.or_mod_two_pow, show 0x80000000 % 2 ^ 31 = 0 by norm_num, Nat.or_zero]

theorem chunkHeader_length {plat : Platform} (h : buf.length < 2 ^ 31) :
    decode ((chunkHeader plat buf).take 4) % 2 ^ 31 = buf.length := by
  rw [chunkHeader_length_mod, Nat.mod_eq_of_lt h]

theorem chunkHeader_crc (plat : Platform) (buf : Bytes) :
    decode ((chunkHeader plat buf).drop 4) = (plat.hashCrc32 buf).toNat := by
  have hlt := (plat.hashCrc32 buf).toNat_lt
  rw [chunkHeader, drop_left' (length_encode 4 _), decode_encode_of_lt (by omega)]

theorem preadBinInternal_same {plat : Platform} (h : preadBinInternal plat pos header d = (r, d')) :
    d.Same d' := by
  unfold preadBinInternal at h
  split at h
  next e d1 hr => exact (Prod.mk.inj h).2 ▸ readSkippingPrefixes_same hr
  next info pos1 d1 hr =>
    have hsame := readSkippingPrefixes_same hr
    dsimp only at h
    split_ifs at h
    · exact (Prod.mk.inj h).2 ▸ hsame
    all_goals
      split at h
      next e d2 hr' => exact (Prod.mk.inj h).2 ▸ hsame.trans (readSkippingPrefixes_same hr')
      next buf pos2 d2 hr' =>
        have hsame' := hsame.trans (readSkippingPrefixes_same hr')
        split_ifs at h <;> exact (Prod.mk.inj h).2 ▸ hsame'

theorem preadBinInternal_error {plat : Platform}
    (h : preadBinInternal plat pos header d = (.error e, d')) : e ≠ .success := by
  unfold preadBinInternal at h
  split at h
  next hr =>
    cases h
    exact readLoop_error hr ▸ nofun
  next =>
    dsimp only at h
    split_ifs at h
    · cases h
      exact nofun
    all_goals
      split at h
      next hr =>
        cases h
        exact readLoop_error hr ▸ nofun
      next =>
        split_ifs at h
        · cases h
          exact nofun
        · cases h

theorem preadBinInternal_ok {plat : Platform} {got : Bytes} (hbuf : buf.length < 2 ^ 31)
    (hlaid : Laid couchBlockSize d.byte pos (chunkHeader plat buf ++ buf))
    (hsize : finish couchBlockSize pos (8 + buf.length) ≤ d.size)
    (h : preadBinInternal plat pos false d = (.ok got, d')) : got = buf := by
  rw [laid_append, length_chunkHeader] at hlaid
  rw [finish_add] at hsize
  have hle := add_le_finish (B := couchBlockSize) (finish couchBlockSize pos 8) buf.length
  unfold preadBinInternal at h
  split at h
  · simp at h
  next info pos1 d1 hr =>
    have hsame := readSkippingPrefixes_same hr
    rw [← length_chunkHeader plat buf] at hr
    obtain ⟨rfl, hpos1⟩ := readSkippingPrefixes_ok hlaid.1 (by rw [length_chunkHeader]; omega) hr
    rw [length_chunkHeader] at hpos1
    simp only [chunkHeader_length hbuf, chunkHeader_crc, badHeaderLength, Bool.false_eq_true,
      false_and, if_false] at h
    split at h
    · simp at h
    next got' pos2 d2 hr' =>
      -- the reader has stepped over a boundary that the writer has not reached yet
      rw [readSkippingPrefixes, hpos1, ← readSkippingPrefixes] at hr'
      obtain ⟨rfl, -⟩ := readSkippingPrefixes_ok (by rw [hsame.1]; exact hlaid.2)
        (by rw [hsame.2]; exact hsize) hr'
      split_ifs at h
      · simp at h
      · simpa using (Prod.mk.inj h).1.symm

/-- The file holds `buf` as a compressed chunk at `pos`, whole and below its end. Both
lengths fit the length field and the `int` that the reader returns. -/
structure Stored (plat : Platform) (file : TreeFile) (pos : ℕ) (buf : Bytes) : Prop where
  length_lt : buf.length < 2 ^ 31
  compress_lt : (plat.snappy.compress buf).length < 2 ^ 31
  laid : Laid couchBlockSize file.disk.byte pos
    (chunkHeader plat (plat.snappy.compress buf) ++ plat.snappy.compress buf)
  le_pos : finish couchBlockSize pos (8 + (plat.snappy.compress buf).length) ≤ file.pos
  le_size : finish couchBlockSize pos (8 + (plat.snappy.compress buf).length) ≤ file.disk.size

structure TreeFile.Grows (file file' : TreeFile) : Prop where
  keeps : file.disk.Keeps file'.disk file.pos
  pos_le : file.pos ≤ file'.pos

structure TreeFile.Appends (file file' : TreeFile) : Prop where
  data : file.disk.DataOnly file'.disk file.pos
  pos_le : file.pos ≤ file'.pos

theorem TreeFile.Appends.grows {file file' : TreeFile} (h : file.Appends file') : file.Grows file' :=
  ⟨h.data.keeps, h.pos_le⟩

theorem TreeFile.Appends.refl (file : TreeFile) : file.Appends file :=
  ⟨Disk.Same.dataOnly ⟨rfl, rfl⟩ _, le_rfl⟩

theorem TreeFile.Appends.trans (h : f.Appends f') (h' : f'.Appends f'') : f.Appends f'' :=
  ⟨h.data.trans h'.data h.pos_le, h.pos_le.trans h'.pos_le⟩

theorem TreeFile.Grows.refl (file : TreeFile) : file.Grows file := ⟨⟨fun _ _ => rfl, le_rfl⟩, le_rfl⟩

theorem TreeFile.Grows.trans (h : f.Grows f') (h' : f'.Grows f'') : f.Grows f'' :=
  ⟨h.keeps.trans h'.keeps h.pos_le, h.pos_le.trans h'.pos_le⟩

theorem Stored.mono {plat : Platform}
    (h : Stored plat f pos buf) (hg : f.Grows f') : Stored plat f' pos buf where
  length_lt := h.length_lt
  compress_lt := h.compress_lt
  laid := h.laid.congr fun i _ hi => hg.keeps.byte i (by
    have := h.le_pos
    simp only [length_append, length_chunkHeader] at hi
    omega)
  le_pos := h.le_pos.trans hg.pos_le
  le_size := h.le_size.trans hg.keeps.size

theorem preadCompressed_stored {plat : Platform} {got : Bytes}
    (hs : Stored plat f pos buf) (h : preadCompressed plat pos f = (.ok got, f')) : got = buf := by
  unfold preadCompressed at h
  split at h
  · simp at h
  next c d hr =>
    obtain rfl := preadBinInternal_ok hs.compress_lt hs.laid hs.le_size hr
    have hlt := hs.length_lt
    rw [plat.snappy.uncompress_compress] at h
    dsimp only at h
    rw [Nat.mod_eq_of_lt (by omega), if_neg (by omega), take_length] at h
    simpa using (Prod.mk.inj h).1.symm

theorem pwrite_error {os : Os} (h : pwrite os buf pos d = (.error e, d')) : e = .write := by
  unfold pwrite at h
  split at h
  · cases h
    rfl
  · dsimp only at h
    split_ifs at h
    · cases h
      rfl
    · cases h

theorem rawWriteLoop_error {os : Os}
    (h : rawWriteLoop os fuel buf pos d = (.error e, d')) : e = .write := by
  induction fuel generalizing buf pos d with
  | zero => cases h
  | succ fuel ih =>
    rw [rawWriteLoop] at h
    split_ifs at h
    · cases h
    · split at h
      next hw =>
        cases h
        exact pwrite_error hw
      next => exact ih h
    · dsimp only at h
      split at h
      next hw =>
        cases h
        exact pwrite_error hw
      next => exact ih h

section
variable {plat : Platform}

theorem dbWriteBuf_error (h : dbWriteBuf plat buf f = (.error e, f')) : e = .write := by
  unfold dbWriteBuf at h
  split at h
  next hw =>
    cases h
    exact rawWriteLoop_error hw
  next =>
    split at h
    next hw =>
      cases h
      exact rawWriteLoop_error hw
    next => cases h

theorem preadCompressed_error (h : preadCompressed plat pos f = (.error e, f')) : e ≠ .success := by
  unfold preadCompressed at h
  split at h
  next hr =>
    cases h
    exact preadBinInternal_error hr
  next =>
    split at h
    · cases h
      exact nofun
    · dsimp only at h
      split_ifs at h
      · cases h
        exact nofun
      · cases h

theorem preadCompressed_appends (h : preadCompressed plat pos f = (r, f')) : f.Appends f' := by
  have hread {d : Disk} (hd : f.disk.Same d) : f.Appends { f with disk := d } :=
    ⟨hd.dataOnly _, le_rfl⟩
  unfold preadCompressed at h
  split at h
  next e d hr => exact (Prod.mk.inj h).2 ▸ hread (preadBinInternal_same hr)
  next c d hr =>
    have hsame := preadBinInternal_same hr
    split at h
    · exact (Prod.mk.inj h).2 ▸ hread hsame
    · dsimp only at h
      split_ifs at h <;> exact (Prod.mk.inj h).2 ▸ hread hsame

theorem preadCompressed_pos (h : preadCompressed plat pos f = (r, f')) : f'.pos = f.pos := by
  unfold preadCompressed at h
  split at h
  · exact (Prod.mk.inj h).2 ▸ rfl
  · split at h
    · exact (Prod.mk.inj h).2 ▸ rfl
    · dsimp only at h
      split_ifs at h <;> exact (Prod.mk.inj h).2 ▸ rfl

theorem dbWriteBuf_appends
    {r : Except Errcode (ℕ × ℕ)} (h : dbWriteBuf plat buf f = (r, f')) : f.Appends f' := by
  unfold dbWriteBuf at h
  split at h
  next e d hw => exact (Prod.mk.inj h).2 ▸ ⟨rawWriteLoop_dataOnly hw, le_rfl⟩
  next pos1 d hw =>
    have hd := rawWriteLoop_dataOnly hw
    have hpos1 := (rawWriteLoop_ok (by omega) hw).1
    have hle := add_le_finish (B := couchBlockSize) f.pos (chunkHeader plat buf).length
    split at h
    next e d' hw' =>
      exact (Prod.mk.inj h).2 ▸ ⟨hd.trans (rawWriteLoop_dataOnly hw') (by omega), le_rfl⟩
    next pos2 d' hw' =>
      have hpos2 := (rawWriteLoop_ok (by omega) hw').1
      have hle' := add_le_finish (B := couchBlockSize) pos1 buf.length
      exact (Prod.mk.inj h).2 ▸
        ⟨hd.trans (rawWriteLoop_dataOnly hw') (by omega), by dsimp only; omega⟩

theorem dbWriteBuf_ok {size : ℕ} (h : dbWriteBuf plat buf f = (.ok (pos, size), f')) :
    pos = f.pos ∧ size = f'.pos - f.pos ∧ f'.pos = finish couchBlockSize pos (8 + buf.length) ∧
      f'.pos ≤ f'.disk.size ∧ f'.pos ≤ plat.os.maxSize ∧
      Laid couchBlockSize f'.disk.byte pos (chunkHeader plat buf ++ buf) := by
  unfold dbWriteBuf at h
  split at h
  · simp at h
  next pos1 d hw =>
    obtain ⟨hpos1, hlaid, hsize⟩ := rawWriteLoop_ok (by omega) hw
    have hsize := hsize (ne_nil_of_length_pos (by simp))
    rw [length_chunkHeader] at hpos1
    split at h
    · simp at h
    next pos2 d' hw' =>
      obtain ⟨hpos2, hlaid', hsize'⟩ := rawWriteLoop_ok (by omega) hw'
      have hk := rawWriteLoop_keeps hw'
      simp only [Prod.mk.injEq, Except.ok.injEq] at h
      obtain ⟨⟨rfl, rfl⟩, rfl⟩ := h
      have hend : pos2 ≤ d'.size ∧ pos2 ≤ plat.os.maxSize := by
        by_cases hb : buf = []
        · rw [hb, length_nil, finish] at hpos2
          exact ⟨by rw [hpos2]; exact hsize.1.trans hk.size, by rw [hpos2]; exact hsize.2⟩
        · exact hsize' hb
      refine ⟨rfl, rfl, by rw [finish_add, ← hpos1]; exact hpos2, hend.1, hend.2, ?_⟩
      rw [laid_append, length_chunkHeader, ← hpos1]
      refine ⟨hlaid.congr fun i _ hi => hk.byte i ?_, hlaid'⟩
      rwa [length_chunkHeader, ← hpos1] at hi

end

/-- The length of a buffer that is sure to fit the format when compressed. -/
def chunkLimit : ℕ := 2 ^ 30

theorem dbWriteBufCompressed_stored {plat : Platform} {size : ℕ} (hlen : buf.length ≤ chunkLimit)
    (h : dbWriteBufCompressed plat buf f = (.ok (pos, size), f')) :
    Stored plat f' pos buf ∧ pos < 2 ^ 47 := by
  obtain ⟨-, -, hend, hsize, hmax, hlaid⟩ := dbWriteBuf_ok h
  have hc := plat.snappy.length_compress_le buf
  have hm := plat.os.maxSize_le
  have hle := add_le_finish (B := couchBlockSize) pos (8 + (plat.snappy.compress buf).length)
  unfold chunkLimit at hlen
  exact ⟨⟨by omega, by omega, hlaid, by omega, by omega⟩, by omega⟩

def Os.Reliable (os : Os) : Prop := ∀ n, os.outcome n ≠ none

section Reliable
variable {os : Os} {plat : Platform}

theorem pwrite_reliable (hos : os.Reliable) (buf : Bytes) (pos : ℕ) (d : Disk) (hbuf : buf ≠ [])
    (hmax : pos + buf.length ≤ os.maxSize) :
    ∃ n d', 0 < n ∧ n ≤ buf.length ∧ pwrite os buf pos d = (.ok n, d') := by
  obtain ⟨c, hc⟩ := Option.ne_none_iff_exists'.mp (hos d.calls)
  have hlen := length_pos_of_ne_nil hbuf
  refine ⟨min buf.length (c + 1), d.tick.store pos (buf.take (min buf.length (c + 1))),
    by omega, by omega, ?_⟩
  simp only [pwrite, hc]
  rw [if_neg (by omega)]

theorem rawWriteLoop_reliable (hos : os.Reliable) (fuel : ℕ) (buf : Bytes) (writePos : ℕ) (d : Disk)
    (hmax : finish couchBlockSize writePos buf.length ≤ os.maxSize) :
    ∃ endPos d', rawWriteLoop os fuel buf writePos d = (.ok endPos, d') := by
  induction fuel generalizing buf writePos d with
  | zero => exact ⟨_, _, rfl⟩
  | succ fuel ih =>
    rw [rawWriteLoop]
    split_ifs with hnil hb
    · exact ⟨_, _, rfl⟩
    · have hlen := length_pos_of_ne_nil hnil
      have hskip : skip couchBlockSize writePos = writePos + 1 := if_pos hb
      have hle := add_le_finish (B := couchBlockSize) writePos buf.length
      obtain ⟨n, d', -, -, hw⟩ := pwrite_reliable hos [0] writePos d (by simp)
        (by rw [length_singleton]; omega)
      rw [hw]
      exact ih buf _ d' (by rwa [← hskip, finish_skip_of_pos (by decide) _ hlen])
    · dsimp only
      generalize hr : min (couchBlockSize - writePos % couchBlockSize) buf.length = rem
      have hlen := length_pos_of_ne_nil hnil
      have hmod : writePos % couchBlockSize < couchBlockSize := Nat.mod_lt _ (by decide)
      have htake : (buf.take rem).length = rem := by rw [length_take]; omega
      have hle := add_le_finish (B := couchBlockSize) writePos buf.length
      obtain ⟨n, d', hn, hnle, hw⟩ := pwrite_reliable hos (buf.take rem) writePos d
        (ne_nil_of_length_pos (by omega)) (by omega)
      rw [hw]
      have hfin : finish couchBlockSize writePos n = writePos + n := finish_of_le hb (by omega)
      exact ih _ _ d' (by rwa [← hfin, ← finish_add, length_drop, Nat.add_sub_cancel' (by omega)])

theorem dbWriteBuf_reliable (hos : plat.os.Reliable) (buf : Bytes) (file : TreeFile)
    (hmax : finish couchBlockSize file.pos (8 + buf.length) ≤ plat.os.maxSize) :
    ∃ pos size file', dbWriteBuf plat buf file = (.ok (pos, size), file') := by
  rw [finish_add] at hmax
  have hle := add_le_finish (B := couchBlockSize) (finish couchBlockSize file.pos 8) buf.length
  obtain ⟨pos1, d1, h1⟩ := rawWriteLoop_reliable hos (2 * (chunkHeader plat buf).length)
    (chunkHeader plat buf) file.pos file.disk (by rw [length_chunkHeader]; omega)
  have hpos := (rawWriteLoop_ok (by omega) h1).1
  rw [length_chunkHeader] at hpos
  obtain ⟨pos2, d2, h2⟩ := rawWriteLoop_reliable hos (2 * buf.length) buf pos1 d1 (by rwa [hpos])
  refine ⟨file.pos, pos2 - file.pos, { pos := pos2, disk := d2 }, ?_⟩
  simp only [dbWriteBuf, rawWrite, h1, h2]

theorem readLoop_reliable (hos : os.Reliable) (fuel len pos : ℕ) (d : Disk)
    (hpos : pos % couchBlockSize ≠ 0)
    (hsize : 0 < len → finish couchBlockSize pos len ≤ d.size) :
    ∃ got pos' d', readLoop os fuel len pos d = (.ok (got, pos'), d') := by
  induction fuel generalizing len pos d with
  | zero => exact ⟨_, _, _, rfl⟩
  | succ fuel ih =>
    rw [readLoop]
    split_ifs with hlen
    · exact ⟨_, _, _, rfl⟩
    dsimp only
    generalize hrem : min (couchBlockSize - pos % couchBlockSize) len = rem
    have hsize := hsize (by omega)
    have hmod : pos % couchBlockSize < couchBlockSize := Nat.mod_lt _ (by decide)
    have hle := add_le_finish (B := couchBlockSize) pos len
    obtain ⟨c, hc⟩ := Option.ne_none_iff_exists'.mp (hos d.calls)
    obtain ⟨n, hn⟩ : ∃ n, n = min (min rem (c + 1)) (d.size - pos) := ⟨_, rfl⟩
    have hread : pread os rem pos d =
        (.ok ((List.range n).map fun i => d.byte (pos + i)), d.tick) := by
      simp only [pread, hc, hn]
    have hfin : finish couchBlockSize pos n = pos + n := finish_of_le hpos (by omega)
    rw [hread]
    dsimp only
    rw [if_neg (by simp; omega), length_map, length_range]
    obtain ⟨got, pos', d', hl⟩ := ih (len - n) (skip couchBlockSize (pos + n)) d.tick
      (skip_mod_ne (by decide) _) (fun hrest => by
        rwa [finish_skip_of_pos (by decide) _ hrest, ← hfin, ← finish_add,
          Nat.add_sub_cancel' (by omega)])
    rw [hl]
    exact ⟨_, _, _, rfl⟩

/-- Without failures a chunk can be read that lies below the end of the file, and whose eight
bytes in front give its length and its checksum. -/
theorem preadBinInternal_laid (hos : plat.os.Reliable) (header : Bool) {pos : ℕ} {info buf : Bytes}
    {d : Disk} (hinfo : info.length = 8)
    (hlen : (if header then decode (info.take 4) % 2 ^ 31 - 4 else decode (info.take 4) % 2 ^ 31) =
      buf.length)
    (hgood : ¬badHeaderLength header (decode (info.take 4) % 2 ^ 31))
    (hcrc : decode (info.drop 4) = (plat.hashCrc32 buf).toNat)
    (hlaid : Laid couchBlockSize d.byte pos (info ++ buf))
    (hsize : finish couchBlockSize pos (8 + buf.length) ≤ d.size) :
    ∃ d', preadBinInternal plat pos header d = (.ok buf, d') := by
  rw [laid_append, hinfo] at hlaid
  rw [finish_add] at hsize
  have hle := add_le_finish (B := couchBlockSize) (finish couchBlockSize pos 8) buf.length
  obtain ⟨got, pos1, d1, h1⟩ := readLoop_reliable hos 8 8 (skip couchBlockSize pos) d
    (skip_mod_ne (by decide) _) (fun _ => by rw [finish_skip_of_pos (by decide) _ (by omega)]; omega)
  have hsame := readLoop_same h1
  have h1' : readSkippingPrefixes plat.os pos info.length d = (.ok (got, pos1), d1) := by
    rw [hinfo]
    exact h1
  obtain ⟨rfl, hpos1⟩ := readSkippingPrefixes_ok hlaid.1 (by rw [hinfo]; omega) h1'
  rw [hinfo] at h1' hpos1
  obtain ⟨got', pos2, d2, h2⟩ := readLoop_reliable hos buf.length buf.length
    (skip couchBlockSize pos1) d1 (skip_mod_ne (by decide) _) (fun hc => by
      rw [hpos1, finish_skip_of_pos (by decide) _ hc, hsame.2]
      exact hsize)
  have h2' : readSkippingPrefixes plat.os pos1 buf.length d1 = (.ok (got', pos2), d2) := h2
  have hgot : got' = buf := by
    rw [readSkippingPrefixes, hpos1, ← readSkippingPrefixes] at h2'
    exact (readSkippingPrefixes_ok (by rw [hsame.1]; exact hlaid.2)
      (by rw [hsame.2]; exact hsize) h2').1
  subst hgot
  refine ⟨d2, ?_⟩
  simp only [preadBinInternal, h1', if_neg hgood, hlen, h2', hcrc]
  simp

theorem preadBinInternal_reliable (hos : plat.os.Reliable) {pos : ℕ} {buf : Bytes} {d : Disk}
    (hbuf : buf.length < 2 ^ 31)
    (hlaid : Laid couchBlockSize d.byte pos (chunkHeader plat buf ++ buf))
    (hsize : finish couchBlockSize pos (8 + buf.length) ≤ d.size) :
    ∃ d', preadBinInternal plat pos false d = (.ok buf, d') := by
  apply preadBinInternal_laid hos false (length_chunkHeader plat buf) _ _ (chunkHeader_crc plat buf)
    hlaid hsize
  · simpa using chunkHeader_length hbuf
  · simp [badHeaderLength]

theorem preadCompressed_reliable (hos : plat.os.Reliable) {file : TreeFile} {pos : ℕ} {buf : Bytes}
    (hs : Stored plat file pos buf) : ∃ file', preadCompressed plat pos file = (.ok buf, file') := by
  obtain ⟨d', hd'⟩ := preadBinInternal_reliable hos hs.compress_lt hs.laid hs.le_size
  have hlt := hs.length_lt
  refine ⟨{ file with disk := d' }, ?_⟩
  simp only [preadCompressed, hd', plat.snappy.uncompress_compress]
  rw [Nat.mod_eq_of_lt (by omega), if_neg (by omega), take_length]

end Reliable

end Appstack.Couchstore
