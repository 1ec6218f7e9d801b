import Appstack.Couchstore.TreeFile
import Appstack.Lib.Machine

namespace Appstack.Couchstore
open BigEndian BlockLayout Lib List Machine Set

/-- The block prefix of a header, and the length and the checksum of its body. The length
includes the checksum's. -/
def headerInfo (plat : Platform) (buf : Bytes) : Bytes :=
  encode 4 (buf.length + 4) ++ encode 4 (plat.hashCrc32 buf).toNat

def blockStart (pos : ℕ) : ℕ :=
  if pos % couchBlockSize ≠ 0 then pos + (couchBlockSize - pos % couchBlockSize) else pos

def dbWriteHeader (plat : Platform) (buf : Bytes) (file : TreeFile) :
    Except Errcode ℕ × TreeFile :=
  match pwrite plat.os (1 :: headerInfo plat buf) (blockStart file.pos) file.disk with
  | (.error e, d) => (.error e, { file with disk := d })
  | (.ok written, d) =>
    match rawWrite plat.os buf (blockStart file.pos + written) d with
    | (.error e, d) => (.error e, { file with disk := d })
    | (.ok endPos, d) => (.ok (blockStart file.pos), { pos := endPos, disk := d })

def preadBin (plat : Platform) (pos : ℕ) (file : TreeFile) : Except Errcode Bytes × TreeFile :=
  let r := preadBinInternal plat pos false file.disk
  (r.1, { file with disk := r.2 })

def preadHeader (plat : Platform) (pos : ℕ) (file : TreeFile) : Except Errcode Bytes × TreeFile :=
  let r := preadBinInternal plat (pos + 1) true file.disk
  (r.1, { file with disk := r.2 })

/-- A tree file works on the buffered file layer. That one takes a write into its buffer, after
it has emptied it, and only what is longer than the buffer can be written in part; so the nine
bytes in front of a header are written or the call fails. -/
def Os.Buffered (os : Os) : Prop := ∀ n c, os.outcome n = some c → 9 ≤ c + 1

theorem blockStart_mod (pos : ℕ) : blockStart pos % couchBlockSize = 0 := by
  unfold blockStart couchBlockSize
  split_ifs <;> omega

theorem le_blockStart (pos : ℕ) : pos ≤ blockStart pos := by
  unfold blockStart
  split_ifs <;> omega

@[simp] theorem length_headerInfo (plat : Platform) (buf : Bytes) :
    (headerInfo plat buf).length = 8 := by
  simp [headerInfo]

def maxHeaderBody : ℕ := maxHeaderSize - 4

variable {plat : Platform} {f : TreeFile} {a : AppendOp} {f' : TreeFile} {pos : ℕ} {hs : Set ℕ}

theorem dbWriteHeader_ok (hos : plat.os.Buffered) {buf : Bytes} (hlen : buf.length ≤ maxHeaderBody)
    (h : dbWriteHeader plat buf f = (.ok pos, f')) :
    pos = blockStart f.pos ∧ f'.pos = pos + 9 + buf.length ∧ f'.pos ≤ f'.disk.size ∧
      f'.pos ≤ plat.os.maxSize ∧
      f'.disk.byte pos = 1 ∧
      Laid couchBlockSize f'.disk.byte (pos + 1) (headerInfo plat buf ++ buf) ∧
      f.disk.Keeps f'.disk pos ∧
      (∀ m, m % couchBlockSize = 0 → m ≠ pos →
        f'.disk.byte m = f.disk.byte m ∨ pos ≤ m ∧ f'.disk.byte m = 0) ∧
      ∀ i, f'.disk.size ≤ i → f'.disk.byte i = f.disk.byte i := by
  have hstart := blockStart_mod f.pos
  unfold maxHeaderBody maxHeaderSize at hlen
  unfold dbWriteHeader at h
  split at h
  · simp at h
  next written d hw =>
    obtain ⟨e, he, -⟩ | ⟨n, hn, hle, hmax, heq, rfl⟩ := pwrite_cases (by simp) hw
    · cases he
    cases heq
    -- the layer below takes all nine bytes
    have hnine : written = 9 := by
      unfold pwrite at hw
      split at hw
      · simp at hw
      next c hc =>
        have hc9 := hos _ c hc
        dsimp only at hw
        split_ifs at hw
        · simp at hw
        · have := Except.ok.inj (Prod.mk.inj hw).1
          rw [length_cons, length_headerInfo] at this
          omega
    subst hnine
    have htake : (1 :: headerInfo plat buf).take 9 = 1 :: headerInfo plat buf :=
      take_of_length_le (by simp)
    rw [htake] at h
    split at h
    · simp at h
    next endPos d' hw' =>
      obtain ⟨hend, hlaid, hsize⟩ := rawWriteLoop_ok (by omega) hw'
      have hdata := rawWriteLoop_dataOnly hw'
      have hmod : (blockStart f.pos + 9) % couchBlockSize = 9 := by
        unfold couchBlockSize at *
        omega
      have hfin : endPos = blockStart f.pos + 9 + buf.length := by
        rw [hend]
        exact finish_of_le (by omega) (by unfold couchBlockSize at *; omega)
      cases h
      -- the bytes in front of the body, after the body has been written
      have hinfo : ∀ i < 9, (1 :: headerInfo plat buf)[i]? =
          some (d'.byte (blockStart f.pos + i)) := by
        intro i hi
        rw [hdata.keeps.byte _ (by omega)]
        exact Disk.store_byte_add _ _ (by simpa using hi)
      refine ⟨rfl, hfin, ?_, ?_, ?_, ?_, ?_, ?_, ?_⟩
      · by_cases hb : buf = []
        · have hs := hdata.keeps.size
          simp only [Disk.store, length_cons, length_headerInfo] at hs
          rw [hfin, hb, length_nil]
          dsimp only
          omega
        · exact (hsize hb).1
      · by_cases hb : buf = []
        · rw [hfin, hb, length_nil]
          exact hmax
        · exact (hsize hb).2
      · simpa using (hinfo 0 (by omega)).symm
      · have hmod1 : (blockStart f.pos + 1) % couchBlockSize = 1 := by
          unfold couchBlockSize at *
          omega
        have hfin1 : finish couchBlockSize (blockStart f.pos + 1) 8 = blockStart f.pos + 1 + 8 :=
          finish_of_le (by omega) (by rw [hmod1]; decide)
        rw [laid_append, length_headerInfo, hfin1]
        refine ⟨(laid_of_le (by omega) (by rw [length_headerInfo, hmod1]; decide)).mpr ?_, hlaid⟩
        intro i hi
        rw [length_headerInfo] at hi
        have hnext := hinfo (i + 1) (by omega)
        rw [List.getElem?_cons_succ] at hnext
        rw [hnext, show blockStart f.pos + 1 + i = blockStart f.pos + (i + 1) by omega]
      · exact (f.disk.keeps_store _ _).trans hdata.keeps (by omega)
      · intro m hm hne
        have hstore : ((f.disk.tick.store (blockStart f.pos) (1 :: headerInfo plat buf)).byte m) =
            f.disk.byte m := by
          simp only [Disk.store, length_cons, length_headerInfo]
          rw [if_neg (by unfold couchBlockSize at *; omega)]
          rfl
        rcases hdata.mark m hm with hsame | ⟨hge, hzero⟩
        · exact .inl (hsame.trans hstore)
        · exact .inr ⟨by omega, hzero⟩
      · intro i hi
        have hsz := hdata.keeps.size
        rw [hdata.beyond i hi]
        simp only [Disk.store, Disk.tick, length_cons, length_headerInfo] at hsz ⊢
        dsimp only at hi
        rw [if_neg (by omega)]

theorem headerInfo_length (plat : Platform) {buf : Bytes} (h : buf.length ≤ maxHeaderBody) :
    decode ((headerInfo plat buf).take 4) % 2 ^ 31 = buf.length + 4 := by
  unfold maxHeaderBody maxHeaderSize at h
  rw [headerInfo, take_encode_append, decode_encode_of_lt (by omega), Nat.mod_eq_of_lt (by omega)]

theorem headerInfo_crc (plat : Platform) (buf : Bytes) :
    decode ((headerInfo plat buf).drop 4) = (plat.hashCrc32 buf).toNat := by
  have hlt := (plat.hashCrc32 buf).toNat_lt
  rw [headerInfo, drop_left' (length_encode 4 _), decode_encode_of_lt (by omega)]

inductive AppendOp where
  | data (buf : Bytes)
  | header (buf : Bytes)

namespace AppendOp

def buf : AppendOp → Bytes
  | .data b => b
  | .header b => b

def Fits : AppendOp → Prop
  | .data b => b.length < 2 ^ 31
  | .header b => b.length ≤ maxHeaderBody

def run (plat : Platform) (file : TreeFile) : AppendOp → Except Errcode (TreeFile × ℕ)
  | .data b =>
    match dbWriteBuf plat b file with
    | (.error e, _) => .error e
    | (.ok (pos, _), file) => .ok (file, pos)
  | .header b =>
    match dbWriteHeader plat b file with
    | (.error e, _) => .error e
    | (.ok pos, file) => .ok (file, pos)

def read (plat : Platform) (file : TreeFile) (pos : ℕ) : AppendOp → Except Errcode Bytes
  | .data _ => (preadBin plat pos file).1
  | .header _ => (preadHeader plat pos file).1

def info (plat : Platform) : AppendOp → Bytes
  | .data b => chunkHeader plat b
  | .header b => headerInfo plat b

def start (pos : ℕ) : AppendOp → ℕ
  | .data _ => pos
  | .header _ => pos + 1

theorem length_info (plat : Platform) (a : AppendOp) : (a.info plat).length = 8 := by
  cases a <;> simp [info]

end AppendOp

structure Framed (plat : Platform) (file : TreeFile) (a : AppendOp) (pos : ℕ) : Prop where
  laid : Laid couchBlockSize file.disk.byte (a.start pos) (a.info plat ++ a.buf)
  le_pos : finish couchBlockSize (a.start pos) (8 + a.buf.length) ≤ file.pos
  le_size : finish couchBlockSize (a.start pos) (8 + a.buf.length) ≤ file.disk.size

theorem Framed.mono (h : Framed plat f a pos) (hg : f.Grows f') : Framed plat f' a pos where
  laid := h.laid.congr fun i _ hi => hg.keeps.byte i (by
    have := h.le_pos
    rw [length_append, a.length_info] at hi
    omega)
  le_pos := h.le_pos.trans hg.pos_le
  le_size := h.le_size.trans hg.keeps.size

theorem Framed.read (hos : plat.os.Reliable)
    (h : Framed plat f a pos) (hfit : a.Fits) : a.read plat f pos = .ok a.buf := by
  cases a with
  | data b =>
    obtain ⟨d', hd'⟩ := preadBinInternal_reliable hos hfit h.laid h.le_size
    simp only [AppendOp.start] at hd'
    simp only [AppendOp.read, preadBin, hd', AppendOp.buf]
  | header b =>
    have hlen := headerInfo_length plat hfit
    have hle : b.length ≤ 1020 := hfit
    obtain ⟨d', hd'⟩ := preadBinInternal_laid hos true (length_headerInfo plat b)
      (by rw [if_pos rfl, hlen, Nat.add_sub_cancel])
      (by rw [hlen]; simp only [badHeaderLength, maxHeaderSize]; omega)
      (headerInfo_crc plat b) h.laid h.le_size
    simp only [AppendOp.start] at hd'
    simp only [AppendOp.read, preadHeader, hd', AppendOp.buf]

/-- The boundaries below the end of the file tell where the headers `hs` are, and what lies behind
it reads as zeros. -/
structure Marked (file : TreeFile) (hs : Set ℕ) : Prop where
  header : ∀ m ∈ hs, m < file.pos ∧ m < file.disk.size ∧ file.disk.byte m = 1
  other : ∀ m, m % couchBlockSize = 0 → m ∉ hs → file.disk.byte m = 0
  beyond : ∀ i, file.disk.size ≤ i → file.disk.byte i = 0

theorem Marked.dataOnly (h : Marked f hs)
    (hd : f.disk.DataOnly f'.disk f.pos) (hpos : f.pos ≤ f'.pos) : Marked f' hs where
  header m hm := by
    obtain ⟨h1, h2, h3⟩ := h.header m hm
    exact ⟨by omega, h2.trans_le hd.keeps.size, (hd.keeps.byte m h1).trans h3⟩
  other m hm hnot := by
    rcases hd.mark m hm with hsame | ⟨-, hzero⟩
    · rw [hsame, h.other m hm hnot]
    · exact hzero
  beyond i hi := by
    have := hd.keeps.size
    rw [hd.beyond i hi, h.beyond i (by omega)]

def headerPositions (as : List AppendOp) (ps : List ℕ) : Set ℕ :=
  {m | ∃ (i : ℕ) (b : Bytes), as[i]? = some (AppendOp.header b) ∧ ps[i]? = some m}

theorem append_step (hos : plat.os.Buffered) (hfit : a.Fits) (hm : Marked f hs)
    (h : a.run plat f = .ok (f', pos)) :
    f.Grows f' ∧ Framed plat f' a pos ∧ Marked f' (hs ∪ headerPositions [a] [pos]) := by
  cases a with
  | data b =>
    have hnone : headerPositions [.data b] [pos] = ∅ := by
      apply eq_empty_of_forall_notMem
      rintro m ⟨i, b', hi, -⟩
      cases i <;> simp at hi
    rw [hnone, union_empty]
    unfold AppendOp.run at h
    dsimp only at h
    split at h
    · cases h
    next p size f1 hw =>
      cases h
      obtain ⟨hpos, -, hend, hsize, -, hlaid⟩ := dbWriteBuf_ok hw
      have hgrows := (dbWriteBuf_appends hw).grows
      exact ⟨hgrows, ⟨hlaid, hend.ge, hend.ge.trans hsize⟩,
        hm.dataOnly ((dbWriteBuf_appends hw).data) hgrows.pos_le⟩
  | header b =>
    have hone : headerPositions [.header b] [pos] = {pos} := by
      ext m
      constructor
      · rintro ⟨i, b', hi, hp⟩
        cases i with
        | zero => simpa [eq_comm] using hp
        | succ i => simp at hi
      · rintro rfl
        exact ⟨0, b, rfl, rfl⟩
    rw [hone]
    unfold AppendOp.run at h
    dsimp only at h
    split at h
    · cases h
    next p f1 hw =>
      obtain ⟨rfl, rfl⟩ := Prod.mk.inj (Except.ok.inj h)
      obtain ⟨hpos, hend, hsize, -, hbyte, hlaid, hkeeps, hmark, hbeyond⟩ :=
        dbWriteHeader_ok hos hfit hw
      have hstart := blockStart_mod f.pos
      rw [← hpos] at hstart
      have hle : f.pos ≤ p := hpos ▸ le_blockStart f.pos
      have hlen : b.length ≤ 1020 := hfit
      have hfin : finish couchBlockSize (p + 1) (8 + b.length) = p + 1 + (8 + b.length) := by
        apply finish_of_le <;> · unfold couchBlockSize at *; omega
      refine ⟨⟨⟨fun i hi => hkeeps.byte i (by omega), hkeeps.size⟩, by omega⟩,
        ⟨hlaid, ?_, ?_⟩, ?_, ?_, ?_⟩
      · exact hfin.le.trans (by omega)
      · exact hfin.le.trans (by omega)
      · rintro m (hmem | rfl)
        · obtain ⟨h1, h2, h3⟩ := hm.header m hmem
          exact ⟨by omega, h2.trans_le hkeeps.size, (hkeeps.byte m (by omega)).trans h3⟩
        · exact ⟨by omega, by omega, hbyte⟩
      · intro m hmod hnot
        rw [union_singleton, mem_insert_iff, not_or] at hnot
        rcases hmark m hmod hnot.1 with hsame | ⟨-, hzero⟩
        · rw [hsame, hm.other m hmod hnot.2]
        · exact hzero
      · intro i hi
        have := hkeeps.size
        rw [hbeyond i hi, hm.beyond i (by omega)]

/-- Room that is enough for an append, wherever it starts in a block. -/
def AppendOp.room (a : AppendOp) : ℕ := couchBlockSize + 2 * (9 + a.buf.length)

theorem append_total (hos : plat.os.Reliable) (hbuf : plat.os.Buffered) (hfit : a.Fits)
    (hroom : f.pos + a.room ≤ plat.os.maxSize) :
    ∃ f' pos, a.run plat f = .ok (f', pos) ∧ f'.pos ≤ f.pos + a.room := by
  have hstart : blockStart f.pos ≤ f.pos + couchBlockSize := by
    unfold blockStart
    split_ifs <;> omega
  unfold AppendOp.room at *
  cases a with
  | data b =>
    have hfin := finish_le (B := couchBlockSize) f.pos (8 + b.length)
    simp only [AppendOp.buf] at hroom ⊢
    obtain ⟨pos, size, f', hw⟩ := dbWriteBuf_reliable hos b f (by omega)
    obtain ⟨rfl, -, hend, -⟩ := dbWriteBuf_ok hw
    exact ⟨f', f.pos, by simp only [AppendOp.run, hw], by omega⟩
  | header b =>
    simp only [AppendOp.buf] at hroom ⊢
    have hlen : (1 :: headerInfo plat b).length = 9 := by simp
    obtain ⟨n, d, -, hn, hw⟩ := pwrite_reliable hos (1 :: headerInfo plat b) (blockStart f.pos)
      f.disk (by simp) (by rw [hlen]; omega)
    rw [hlen] at hn
    have hfin := finish_le (B := couchBlockSize) (blockStart f.pos + n) b.length
    obtain ⟨endPos, d', hw'⟩ := rawWriteLoop_reliable hos (2 * b.length) b (blockStart f.pos + n) d
      (by omega)
    have hwrite : dbWriteHeader plat b f = (.ok (blockStart f.pos), ⟨endPos, d'⟩) := by
      simp only [dbWriteHeader, hw, rawWrite, hw']
    obtain ⟨-, hend, -⟩ := dbWriteHeader_ok hbuf hfit hwrite
    exact ⟨⟨endPos, d'⟩, blockStart f.pos, by simp only [AppendOp.run, hwrite], by omega⟩

theorem appends_total (hos : plat.os.Reliable) (hbuf : plat.os.Buffered)
    {as : List AppendOp} (hfit : ∀ a ∈ as, a.Fits)
    (hroom : f.pos + (as.map AppendOp.room).sum ≤ plat.os.maxSize) :
    ∃ f' ps, run (fun file a => AppendOp.run plat file a) f as = .ok (f', ps) := by
  induction as generalizing f with
  | nil => exact ⟨f, [], rfl⟩
  | cons a as ih =>
    rw [map_cons, sum_cons] at hroom
    obtain ⟨f1, pos, hstep, hle⟩ := append_total hos hbuf (hfit a (.head _))
      (show f.pos + a.room ≤ plat.os.maxSize by omega)
    obtain ⟨f', ps, hrest⟩ := ih (fun b hb => hfit b (.tail _ hb))
      (show f1.pos + _ ≤ _ by omega)
    exact ⟨f', pos :: ps, run_cons_ok.mpr ⟨f1, pos, ps, hstep, hrest, rfl⟩⟩

/-- Whatever is appended, data chunks and headers in any order and from any position, can be read
back at the positions that were returned, and the boundaries tell where the headers are. All of it
is appended as long as there is room. -/
theorem appends_read_back {plat : Platform} (hos : plat.os.Reliable) (hbuf : plat.os.Buffered)
    {as : List AppendOp} (hfit : ∀ a ∈ as, a.Fits) {f : TreeFile} {hs : Set ℕ} (hm : Marked f hs) :
    (f.pos + (as.map AppendOp.room).sum ≤ plat.os.maxSize →
      ∃ f' ps, run (fun file a => AppendOp.run plat file a) f as = .ok (f', ps)) ∧
    ∀ f' ps, run (fun file a => AppendOp.run plat file a) f as = .ok (f', ps) →
      (∀ (i : ℕ) a pos, as[i]? = some a → ps[i]? = some pos → a.read plat f' pos = .ok a.buf) ∧
      ∀ m, m % couchBlockSize = 0 → m < f'.disk.size →
        (m ∈ hs ∪ headerPositions as ps → f'.disk.byte m = 1) ∧
        (m ∉ hs ∪ headerPositions as ps → f'.disk.byte m = 0) := by
  refine ⟨appends_total hos hbuf hfit, ?_⟩
  intro f' ps hrun
  have hall : f.Grows f' ∧ Marked f' (hs ∪ headerPositions as ps) ∧
      ∀ (i : ℕ) a pos, as[i]? = some a → ps[i]? = some pos → Framed plat f' a pos := by
    induction as generalizing f hs ps with
    | nil =>
      obtain ⟨rfl, rfl⟩ := Prod.mk.inj (Except.ok.inj hrun)
      refine ⟨TreeFile.Grows.refl f, ?_, ?_⟩
      · have hnone : headerPositions [] [] = ∅ := by
          apply eq_empty_of_forall_notMem
          rintro m ⟨i, b, hi, -⟩
          simp at hi
        rwa [hnone, union_empty]
      · intro i a pos hi
        simp at hi
    | cons a as ih =>
      obtain ⟨f₁, pos, ps₁, hstep, hrest, rfl⟩ := run_cons_ok.mp hrun
      obtain ⟨hg, hframed, hm₁⟩ := append_step hbuf (hfit a (.head _)) hm hstep
      obtain ⟨hg', hm', hframed'⟩ := ih (fun b hb => hfit b (.tail _ hb)) hm₁ _ hrest
      refine ⟨hg.trans hg', ?_, ?_⟩
      · have hunion : hs ∪ headerPositions (a :: as) (pos :: ps₁) =
            hs ∪ headerPositions [a] [pos] ∪ headerPositions as ps₁ := by
          rw [union_assoc]
          congr 1
          ext m
          constructor
          · rintro ⟨i, b, hi, hp⟩
            cases i with
            | zero => exact .inl ⟨0, b, hi, hp⟩
            | succ i => exact .inr ⟨i, b, hi, hp⟩
          · rintro (⟨i, b, hi, hp⟩ | ⟨i, b, hi, hp⟩)
            · cases i with
              | zero => exact ⟨0, b, hi, hp⟩
              | succ i => simp at hi
            · exact ⟨i + 1, b, hi, hp⟩
        rw [hunion]
        exact hm'
      · intro i b q hi hq
        cases i with
        | zero =>
          obtain rfl : a = b := by simpa using hi
          obtain rfl : pos = q := by simpa using hq
          exact hframed.mono hg'
        | succ i => exact hframed' i b q hi hq
  obtain ⟨-, hmarked, hframed⟩ := hall
  refine ⟨?_, ?_⟩
  · intro i a pos hi hp
    exact (hframed i a pos hi hp).read hos (hfit a (mem_of_getElem? hi))
  · intro m hmod _
    exact ⟨fun hmem => (hmarked.header m hmem).2.2, hmarked.other m hmod⟩

def bufferedPlatform : Platform where
  os := ⟨fun _ => some 4095, 2 ^ 40, by norm_num⟩
  snappy := .identity
  hashCrc32 := fun b => b.length.toUInt32

def emptyFile : TreeFile := ⟨0, ⟨fun _ => 0, 0, 0⟩⟩

theorem appends_read_back_three :
    ∃ f' ps, run (fun file a => AppendOp.run bufferedPlatform file a) emptyFile
        [.header [10, 0], .data [7, 8, 9], .header []] = .ok (f', ps) ∧ ps = [0, 11, 4096] ∧
      (preadHeader bufferedPlatform 0 f').1 = .ok [10, 0] ∧
      (preadBin bufferedPlatform 11 f').1 = .ok [7, 8, 9] ∧ f'.disk.byte 4096 = 1 := by
  have hos : bufferedPlatform.os.Reliable := fun n h => by cases h
  have hbuf : bufferedPlatform.os.Buffered := by
    intro n c hc
    obtain rfl : 4095 = c := Option.some.inj hc
    norm_num
  have hmarked : Marked emptyFile ∅ := ⟨fun _ hm => hm.elim, fun _ _ _ => rfl, fun _ _ => rfl⟩
  have hfits : ∀ a ∈ [AppendOp.header [10, 0], .data [7, 8, 9], .header []], a.Fits := by
    simp [AppendOp.Fits, maxHeaderBody, maxHeaderSize]
  have hview : ((run (fun file a => AppendOp.run bufferedPlatform file a) emptyFile
      [.header [10, 0], .data [7, 8, 9], .header []]).toOption.map fun r => (r.2, r.1.disk.size)) =
      some ([0, 11, 4096], 4105) := by
    decide
  obtain ⟨htotal, hruns⟩ := appends_read_back hos hbuf hfits hmarked
  obtain ⟨f', ps, hrun⟩ := htotal (by decide)
  rw [hrun, Except.toOption, Option.map_some, Option.some.injEq, Prod.mk.injEq] at hview
  obtain ⟨rfl, hsize⟩ := hview
  obtain ⟨hread, hmark⟩ := hruns f' _ hrun
  refine ⟨f', _, hrun, rfl, hread 0 _ 0 rfl rfl, hread 1 _ 11 rfl rfl, ?_⟩
  exact (hmark 4096 (by decide) (by rw [hsize]; decide)).1 (.inr ⟨2, [], rfl, rfl⟩)

end Appstack.Couchstore
