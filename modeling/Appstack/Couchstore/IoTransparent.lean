import Appstack.Couchstore.IoBuffer

namespace Appstack.Couchstore.IoBuffer
open Lib List Option Machine FileImage

variable {ops : RawOps} {f f' : RawFile} {buf buf' : FileBuffer} {h h' : Handle}
  {m m' : FileImage UInt8} {bytes : Bytes} {nbyte offset n : ℕ}

structure RawOps.Reliable (ops : RawOps) : Prop where
  pread : ∀ n, ops.pread n ≠ none
  pwrite : ∀ n, ops.pwrite n ≠ none

/-- A read gets from the start of a block to each byte of it that is wanted and there. -/
def RawOps.Reaches (ops : RawOps) (m : FileImage UInt8) (nbyte offset : ℕ) : Prop :=
  ∀ n c, ops.pread n = some c → ∀ o, offset ≤ o → o < offset + nbyte → o < m.size →
    o % readBufferCapacity ≤ c

/-- What the file is with the content of a buffer laid over it. -/
def FileBuffer.over (buf : FileBuffer) (m : FileImage UInt8) : FileImage UInt8 :=
  m.write buf.offset buf.bytes

/-- What a file shows through the layer. -/
def Handle.view (h : Handle) : FileImage UInt8 := h.writeBuffer.over h.raw.image

structure FileBuffer.Pending (buf : FileBuffer) : Prop where
  capacity : buf.capacity = writeBufferCapacity
  le : buf.bytes.length ≤ buf.capacity
  dirty : buf.bytes ≠ [] → buf.dirty = true

def FileBuffer.flushed (buf : FileBuffer) : FileBuffer :=
  { buf with bytes := [], offset := buf.offset + buf.bytes.length, dirty := false }

theorem FileBuffer.Pending.flushed (hb : buf.Pending) : buf.flushed.Pending :=
  ⟨hb.capacity, Nat.zero_le _, fun hne => absurd rfl hne⟩

theorem FileBuffer.over_flushed : buf.flushed.over m = m := write_nil

theorem rawPwrite_ok (hops : ops.Reliable) (hne : bytes ≠ []) (pos : ℕ) (f : RawFile) :
    ∃ n f', rawPwrite ops bytes pos f = (.ok n, f') ∧ 0 < n ∧ n ≤ bytes.length ∧
      f'.image = f.image.write pos (bytes.take n) := by
  obtain ⟨c, hc⟩ := ne_none_iff_exists'.mp (hops.pwrite f.calls)
  have hpos := length_pos_iff.mpr hne
  rw [rawPwrite, hc]
  exact ⟨_, _, rfl, by omega, min_le_left _ _, rfl⟩

theorem flushLoop_ok (hops : ops.Reliable) {fuel : ℕ} (hfuel : buf.bytes.length < fuel)
    (hd : buf.bytes ≠ [] → buf.dirty = true) (f : RawFile) :
    ∃ f', flushLoop ops fuel buf f = (.ok (), buf.flushed, f') ∧ f'.image = buf.over f.image := by
  induction fuel generalizing buf f with
  | zero => omega
  | succ fuel ih =>
    rw [flushLoop]
    by_cases hne : buf.bytes = []
    · rw [if_pos (.inl hne)]
      refine ⟨f, ?_, ?_⟩
      · simp [FileBuffer.flushed, hne]
      · rw [FileBuffer.over, hne, write_nil]
    · obtain ⟨n, f1, hw, hn, hle, himg⟩ := rawPwrite_ok hops hne buf.offset f
      rw [if_neg (by simp [hne, hd hne]), hw]
      dsimp only
      rw [if_neg (by omega)]
      -- what is left of the buffer lies behind what was written
      have hshort : (buf.bytes.drop n).length < fuel := by
        rw [length_drop]
        omega
      obtain ⟨f2, hf, himg2⟩ := @ih { buf with bytes := buf.bytes.drop n, offset := buf.offset + n }
        hshort (fun _ => hd hne) f1
      refine ⟨f2, ?_, ?_⟩
      · rw [hf]
        simp only [FileBuffer.flushed, length_drop]
        rw [show buf.offset + n + (buf.bytes.length - n) = buf.offset + buf.bytes.length by omega]
      · rw [himg2, FileBuffer.over, himg, FileBuffer.over]
        dsimp only
        rw [← take_length (l := buf.bytes.drop n), write_take_write hle,
          take_of_length_le (by rw [length_drop]; omega)]

theorem flushBuffer_ok (hops : ops.Reliable) (hb : buf.Pending) (f : RawFile) :
    ∃ f', flushBuffer ops buf f = (.ok (), buf.flushed, f') ∧ f'.image = buf.over f.image :=
  flushLoop_ok hops (Nat.lt_succ_self _) hb.dirty f

theorem writeToBuffer_ok (hb : buf.Pending) (hw : writeToBuffer buf bytes offset = (n, buf'))
    (m : FileImage UInt8) :
    buf'.Pending ∧ n ≤ bytes.length ∧ buf'.over m = (buf.over m).write offset (bytes.take n) ∧
      (n = bytes.length ∨ n = 0 ∨ buf'.bytes.length = buf'.capacity) ∧
      (buf.bytes = [] → n = min writeBufferCapacity bytes.length) := by
  have hle := hb.le
  rw [writeToBuffer] at hw
  split_ifs at hw with hout hnil
  · cases hw
    refine ⟨hb, Nat.zero_le _, ?_, .inr (.inl rfl), fun hnil => absurd hnil hout.1⟩
    rw [take_zero, write_nil]
  · cases hw
    have hcap := hb.capacity
    simp only [hnil, Nat.sub_self, Nat.sub_zero, take_nil, drop_nil, nil_append, append_nil]
    refine ⟨⟨hcap, ?_, fun _ => rfl⟩, min_le_right _ _, ?_, ?_, fun _ => by rw [hcap]⟩
    · simp only [length_take]
      omega
    · simp only [FileBuffer.over, hnil, write_nil]
    · rw [length_take]
      omega
  · cases hw
    have hin : buf.offset ≤ offset ∧ offset ≤ buf.offset + buf.bytes.length := by
      simpa [hnil] using hout
    obtain ⟨k, rfl⟩ := Nat.exists_eq_add_of_le hin.1
    have hk : k ≤ buf.bytes.length := by omega
    simp only [Nat.add_sub_cancel_left]
    have hlen : (bytes.take (min (buf.capacity - k) bytes.length)).length =
        min (buf.capacity - k) bytes.length := by
      rw [length_take]
      omega
    refine ⟨⟨hb.capacity, ?_, fun _ => rfl⟩, min_le_right _ _, ?_, ?_, fun h => absurd h hnil⟩
    · simp only [length_append, length_take, length_drop]
      omega
    · simp only [FileBuffer.over]
      rw [write_write hk, hlen]
    · simp only [length_append, length_take, length_drop]
      omega

theorem bufferedPwrite_ok (hops : ops.Reliable) (hb : h.writeBuffer.Pending) (bytes : Bytes)
    (offset : ℕ) :
    ∃ n h', bufferedPwrite ops bytes offset h = (.ok n, h') ∧ n ≤ bytes.length ∧
      (bytes ≠ [] → 0 < n) ∧ (bytes.length ≤ writeBufferCapacity → n = bytes.length) ∧
      h'.view = h.view.write offset (bytes.take n) ∧ h'.writeBuffer.Pending ∧
      h'.buffers = h.buffers := by
  rw [bufferedPwrite]
  by_cases hne : bytes = []
  · rw [if_pos hne]
    refine ⟨0, h, rfl, Nat.zero_le _, fun hn => absurd hne hn, fun _ => by simp [hne], ?_, hb, rfl⟩
    rw [take_zero, write_nil]
  rw [if_neg hne]
  obtain ⟨n1, buf1, hw1⟩ : ∃ n1 buf1, writeToBuffer h.writeBuffer bytes offset = (n1, buf1) :=
    ⟨_, _, rfl⟩
  obtain ⟨hb1, hn1, hover1, hfull, -⟩ := writeToBuffer_ok hb hw1 h.raw.image
  rw [hw1]
  dsimp only
  have hpos := length_pos_iff.mpr hne
  by_cases hflush : buf1.bytes.length = buf1.capacity ∨ n1 = 0
  · obtain ⟨f2, hf, himg⟩ := flushBuffer_ok hops hb1 h.raw
    rw [if_pos hflush, hf]
    dsimp only
    have himg : f2.image = h.view.write offset (bytes.take n1) := himg.trans hover1
    have hb2 := hb1.flushed
    split_ifs with hrest hfit
    · have hall : n1 = bytes.length := by
        have := drop_eq_nil_iff.mp hrest
        omega
      refine ⟨n1, _, rfl, hn1, fun _ => by omega, fun _ => hall, ?_, hb2, rfl⟩
      rw [Handle.view, FileBuffer.over_flushed, himg]
    · -- the rest goes into the empty buffer
      obtain ⟨n2, buf3, hw2⟩ : ∃ n2 buf3, writeToBuffer buf1.flushed (bytes.drop n1) (offset + n1) =
        (n2, buf3) := ⟨_, _, rfl⟩
      obtain ⟨hb3, hn2, hover2, -, hempty⟩ := writeToBuffer_ok hb2 hw2 f2.image
      rw [hw2]
      have hcap : buf1.flushed.capacity - buf1.flushed.bytes.length = writeBufferCapacity := hb2.capacity
      rw [hcap] at hfit
      have hall : n2 = (bytes.drop n1).length := (hempty rfl).trans (min_eq_right hfit)
      rw [length_drop] at hall
      refine ⟨n1 + n2, _, rfl, by omega, fun _ => by omega, fun _ => by omega, ?_, hb3, rfl⟩
      rw [Handle.view, hover2, FileBuffer.over_flushed, himg, write_take_write hn1]
    · obtain ⟨n2, f3, hw2, hpos2, hle2, himg2⟩ := rawPwrite_ok hops hrest (offset + n1) f2
      rw [hw2]
      have hcap : buf1.flushed.capacity - buf1.flushed.bytes.length = writeBufferCapacity := hb2.capacity
      rw [hcap, length_drop] at hfit
      rw [length_drop] at hle2
      refine ⟨n1 + n2, _, rfl, by omega, fun _ => by omega, fun _ => by omega, ?_, hb2, rfl⟩
      rw [Handle.view, FileBuffer.over_flushed, himg2, himg, write_take_write hn1]
  · -- everything went into the buffer
    have hall : n1 = bytes.length := by
      rw [not_or] at hflush
      exact hfull.resolve_right (not_or.mpr hflush.symm)
    have hrest : bytes.drop n1 = [] := drop_eq_nil_of_le hall.ge
    rw [if_neg hflush, if_pos hrest]
    exact ⟨n1, _, rfl, hn1, fun _ => by omega, fun _ => hall, hover1, hb1, rfl⟩

/-- A buffer for reading, on a block of the file `m` and not beyond `eof`. -/
structure FileBuffer.Cached (buf : FileBuffer) (m : FileImage UInt8) (eof : ℕ) : Prop where
  capacity : buf.capacity = readBufferCapacity
  aligned : buf.offset % readBufferCapacity = 0
  clean : buf.dirty = false
  le : buf.bytes.length ≤ readBufferCapacity
  bytes : buf.bytes = m.read buf.bytes.length buf.offset
  below : buf.bytes ≠ [] → buf.offset + buf.bytes.length ≤ eof

theorem cached_new (m : FileImage UInt8) (eof : ℕ) :
    (FileBuffer.new readBufferCapacity).Cached m eof where
  capacity := rfl
  aligned := rfl
  clean := rfl
  le := Nat.zero_le _
  bytes := by simp [FileBuffer.new, FileImage.read]
  below hne := absurd rfl hne

variable {eof : ℕ} {bs : BufferList}

theorem FileBuffer.Cached.write {pos : ℕ} (hc : buf.Cached m eof) (heof : eof ≤ m.size)
    (hpos : bytes = [] ∨ eof ≤ pos) : buf.Cached (m.write pos bytes) eof := by
  refine { hc with bytes := ?_ }
  obtain rfl | hpos := hpos
  · rw [write_nil]
    exact hc.bytes
  by_cases hne : buf.bytes = []
  · simp [hne, FileImage.read]
  · have hend := hc.below hne
    rw [read_write_of_le (by omega) (by omega)]
    exact hc.bytes

theorem FileBuffer.Cached.mono {eof' : ℕ} (hc : buf.Cached m eof) (h : eof ≤ eof') :
    buf.Cached m eof' :=
  { hc with below := fun hne => (hc.below hne).trans h }

theorem FileBuffer.Cached.readFromBuffer (hc : buf.Cached m eof) (hin : buf.offset ≤ offset) :
    readFromBuffer buf nbyte offset =
      m.read (min nbyte (buf.offset + buf.bytes.length - offset)) offset := by
  rw [IoBuffer.readFromBuffer]
  by_cases hlt : offset < buf.offset + buf.bytes.length
  · rw [if_neg (by omega), hc.bytes, drop_read (by omega), take_read, length_read]
    have hlen := congrArg List.length hc.bytes
    rw [length_read] at hlen
    rw [← hlen, show buf.offset + (offset - buf.offset) = offset by omega,
      show buf.bytes.length - (offset - buf.offset) =
        buf.offset + buf.bytes.length - offset by omega]
  · rw [if_pos (by omega), Nat.sub_eq_zero_of_le (by omega), Nat.min_zero]
    simp [FileImage.read]

theorem blockStart_le (offset : ℕ) : blockStart offset ≤ offset := Nat.sub_le _ _

theorem blockStart_mod (offset : ℕ) : blockStart offset % readBufferCapacity = 0 := by
  simp only [blockStart, readBufferCapacity]
  omega

theorem lt_blockStart_add (offset : ℕ) : offset < blockStart offset + readBufferCapacity := by
  simp only [blockStart, readBufferCapacity]
  omega

theorem mem_findBuffer {b : FileBuffer} (hb : b ∈ (findBuffer bs offset).all) :
    b ∈ bs.all ∨ b = .new readBufferCapacity := by
  have hspan := span_eq_takeWhile_dropWhile
    (p := fun b : FileBuffer => decide (b.offset ≠ blockStart offset)) (l := bs.all)
  have happ := takeWhile_append_dropWhile
    (p := fun b : FileBuffer => decide (b.offset ≠ blockStart offset)) (l := bs.all)
  rw [findBuffer] at hb
  split at hb
  next before buffer behind hs =>
    rw [hspan] at hs
    obtain ⟨hbefore, hbehind⟩ := Prod.mk.inj hs
    rw [hbefore, hbehind] at happ
    rw [← happ]
    simp only [BufferList.all, mem_cons, mem_append] at hb ⊢
    tauto
  next before hs =>
    rw [hspan] at hs
    obtain ⟨hbefore, hbehind⟩ := Prod.mk.inj hs
    rw [hbefore, hbehind, append_nil] at happ
    rw [← happ]
    split_ifs at hb
    · simpa [BufferList.all, or_comm] using hb
    · left
      have hne : before ≠ [] := by
        rw [happ]
        exact cons_ne_nil _ _
      obtain ⟨init, last, rfl⟩ := (eq_nil_or_concat' before).resolve_left hne
      simpa [BufferList.all, getLastD_concat, or_comm] using hb

theorem loadBufferFrom_ok (hops : ops.Reliable) (hread : ops.Reaches f.image nbyte offset)
    (hc : buf.Cached f.image eof) (hpos : 0 < nbyte) :
    ∃ buf' f', loadBufferFrom ops buf (blockStart offset) (offset + nbyte - blockStart offset) f =
        (.ok (), buf', f') ∧ f'.image = f.image ∧
      buf'.Cached f.image (max eof f.image.size) ∧ buf'.offset = blockStart offset ∧
      (offset < f.image.size → offset < blockStart offset + buf'.bytes.length) := by
  obtain ⟨c, hcap⟩ := ne_none_iff_exists'.mp (hops.pread f.calls)
  have hwanted := hread _ _ hcap offset le_rfl (by omega)
  have hlt := lt_blockStart_add offset
  have hle := blockStart_le offset
  have hmod := blockStart_mod offset
  -- the buffer that is filled up starts at the block, with bytes of the block
  have hfill (b : FileBuffer) (hb : b.capacity = readBufferCapacity)
      (hlen : b.bytes.length ≤ readBufferCapacity) (hoff : b.offset = blockStart offset)
      (hbytes : b.bytes = f.image.read b.bytes.length b.offset) :
      ∃ got f' k, rawPread ops (b.capacity - b.bytes.length) (b.offset + b.bytes.length) f =
          (.ok got, f') ∧ f'.image = f.image ∧ k ≤ readBufferCapacity ∧
        (offset < f.image.size → offset < blockStart offset + k) ∧
        b.bytes ++ got = f.image.read k (blockStart offset) := by
    rw [rawPread, hcap]
    refine ⟨_, _, b.bytes.length + min (b.capacity - b.bytes.length) (c + 1), rfl, rfl, by omega,
      fun hsize => ?_, ?_⟩
    · have hin := hwanted hsize
      have hmod' : offset - blockStart offset = offset % readBufferCapacity :=
        Nat.sub_sub_self (Nat.mod_le _ _)
      omega
    · rw [read_add, ← hoff, ← hbytes]
  have hdone (b : FileBuffer) {k : ℕ} (hb : b.capacity = readBufferCapacity) (hd : b.dirty = false)
      (hoff : b.offset = blockStart offset) (hk : k ≤ readBufferCapacity)
      (hthere : offset < f.image.size → offset < blockStart offset + k)
      (hbytes : b.bytes = f.image.read k (blockStart offset)) :
      b.Cached f.image (max eof f.image.size) ∧ b.offset = blockStart offset ∧
        (offset < f.image.size → offset < blockStart offset + b.bytes.length) := by
    have hlen : b.bytes.length = min k (f.image.size - blockStart offset) := by
      rw [hbytes, length_read]
    refine ⟨⟨hb, hoff ▸ hmod, hd, by omega, ?_, fun hne => ?_⟩, hoff, fun hsize => ?_⟩
    · rw [hoff, hbytes, read_length_read]
    · have := length_pos_iff.mpr hne
      omega
    · have := hthere hsize
      omega
  rw [loadBufferFrom, hc.clean]
  dsimp only
  rw [if_neg Bool.false_ne_true]
  split_ifs with hmove
  · obtain ⟨got, f', k, hr, himg, hk, hthere, hgot⟩ :=
      hfill { buf with offset := blockStart offset, bytes := [] } hc.capacity (Nat.zero_le _) rfl
        (by simp [FileImage.read])
    rw [hr]
    exact ⟨_, f', rfl, himg, hdone _ hc.capacity hc.clean rfl hk hthere hgot⟩
  · have haligned := hc.aligned
    have hcapb := hc.capacity
    have hoff : buf.offset = blockStart offset := by
      simp only [readBufferCapacity] at hmod haligned hcapb
      omega
    obtain ⟨got, f', k, hr, himg, hk, hthere, hgot⟩ := hfill buf hc.capacity hc.le hoff hc.bytes
    rw [hr]
    exact ⟨_, f', rfl, himg, hdone _ hc.capacity hc.clean hoff hk hthere hgot⟩

theorem preadLoop_ok (hops : ops.Reliable) {fuel : ℕ} (hfuel : nbyte < fuel)
    (hread : ops.Reaches f.image nbyte offset) (hbs : ∀ b ∈ bs.all, b.Cached f.image f.image.size) :
    ∃ bs' f', preadLoop ops fuel nbyte offset bs f = (.ok (f.image.read nbyte offset), bs', f') ∧
      f'.image = f.image ∧ ∀ b ∈ bs'.all, b.Cached f.image f.image.size := by
  induction fuel generalizing nbyte offset bs f with
  | zero => omega
  | succ fuel ih =>
    rw [preadLoop]
    by_cases hn : nbyte = 0
    · rw [if_pos hn, hn]
      exact ⟨bs, f, by simp [FileImage.read], rfl, hbs⟩
    rw [if_neg hn]
    dsimp only
    have hfound : ∀ b ∈ (findBuffer bs offset).all, b.Cached f.image f.image.size := by
      intro b hb
      obtain hb | rfl := mem_findBuffer hb
      · exact hbs b hb
      · exact cached_new _ _
    -- a piece of at least one byte, and the rest by the induction
    have hnext {got : Bytes} {k : ℕ} {bs : BufferList} {f1 : RawFile} (himg : f1.image = f.image)
        (hgot : got = f.image.read k offset) (hk : k ≤ nbyte) (hne : got ≠ [])
        (hbs : ∀ b ∈ bs.all, b.Cached f.image f.image.size) :
        ∃ rest bs' f', preadLoop ops fuel (nbyte - got.length) (offset + got.length) bs f1 =
            (.ok rest, bs', f') ∧ got ++ rest = f.image.read nbyte offset ∧
          f'.image = f.image ∧ ∀ b ∈ bs'.all, b.Cached f.image f.image.size := by
      have hlen : got.length = min k (f.image.size - offset) := by rw [hgot, length_read]
      have hpos := length_pos_iff.mpr hne
      have hrest : ops.Reaches f1.image (nbyte - got.length) (offset + got.length) :=
        fun n c hc o ho ho' hsize => hread n c hc o (by omega) (by omega) (himg ▸ hsize)
      obtain ⟨bs', f', hr, himg', hbs'⟩ := @ih f1 (nbyte - got.length) (offset + got.length) bs
        (by omega) hrest (by rw [himg]; exact hbs)
      refine ⟨_, bs', f', hr, ?_, himg'.trans himg, by rwa [himg] at hbs'⟩
      have hsplit : f.image.read nbyte offset =
          f.image.read got.length offset ++ f.image.read (nbyte - got.length) (offset + got.length) := by
        rw [← read_add]
        congr 1
        omega
      have hgot' : f.image.read got.length offset = got := by
        rw [hgot, read_length_read]
      rw [hsplit, himg, hgot']
    have hfirst := hfound _ (mem_cons_self ..)
    split_ifs with hmiss
    · obtain ⟨buf', f1, hl, himg, hc, hoff, hthere⟩ := loadBufferFrom_ok hops hread hfirst
        (Nat.pos_of_ne_zero hn)
      rw [hl]
      rw [max_self] at hc
      have hin : buf'.offset ≤ offset := hoff ▸ blockStart_le offset
      have hbs' : ∀ b ∈ BufferList.all ⟨buf', (findBuffer bs offset).others⟩,
          b.Cached f.image f.image.size := by
        intro b hb
        obtain rfl | hb := mem_cons.mp hb
        · exact hc
        · exact hfound b (.tail _ hb)
      dsimp only
      split_ifs with hend
      · -- a buffer without the byte means that the file ends before it
        rw [hc.readFromBuffer hin, ← length_eq_zero_iff, length_read, hoff] at hend
        refine ⟨_, f1, ?_, himg, hbs'⟩
        rw [read_eq_nil (by omega)]
      · obtain ⟨rest, bs', f', hr, happ, himg', hbs'⟩ :=
          hnext himg (hc.readFromBuffer hin) (min_le_left _ _) hend hbs'
        rw [hr, ← happ]
        exact ⟨bs', f', rfl, himg', hbs'⟩
    · have hin : (findBuffer bs offset).first.offset ≤ offset := by
        by_contra hlt
        exact hmiss (if_pos (.inl (by omega)))
      obtain ⟨rest, bs', f', hr, happ, himg', hbs'⟩ :=
        hnext rfl (hfirst.readFromBuffer hin) (min_le_left _ _) hmiss hfound
      rw [hr, ← happ]
      exact ⟨bs', f', rfl, himg', hbs'⟩

inductive FileOp where
  | pwrite (buf : Bytes) (offset : ℕ)
  | pread (nbyte offset : ℕ)
  | sync

/-- The layer beside an unbuffered file that takes the same calls. `eof` is the end of that
file at the last `pread`. -/
structure Pair where
  handle : Handle
  plain : FileImage UInt8
  eof : ℕ

def Pair.start (f : RawFile) : Pair := ⟨openHandle f, f.image, 0⟩

/-- A call to both. The unbuffered file takes as many bytes of a `pwrite` as the layer has
reported. The output is what the two give to a `pread`. -/
def Pair.step (ops : RawOps) (s : Pair) : FileOp → Except Errcode (Pair × Option (Bytes × Bytes))
  | .pwrite buf offset =>
    match bufferedPwrite ops buf offset s.handle with
    | (.error e, _) => .error e
    | (.ok n, h) => .ok (⟨h, s.plain.write offset (buf.take n), s.eof⟩, none)
  | .pread nbyte offset =>
    match bufferedPread ops nbyte offset s.handle with
    | (.error e, _) => .error e
    | (.ok got, h) => .ok (⟨h, s.plain, s.plain.size⟩, some (got, s.plain.read nbyte offset))
  | .sync =>
    match bufferedSync ops s.handle with
    | (.error e, _) => .error e
    | (.ok (), h) => .ok ({ s with handle := h }, none)

/-- No write touches a byte below the end that the file had at the last read. -/
def AppendOnly (s : Pair) : FileOp → Prop
  | .pwrite buf offset => buf = [] ∨ s.eof ≤ offset
  | _ => True

instance decidableAppendOnly (s : Pair) : (op : FileOp) → Decidable (AppendOnly s op)
  | .pwrite buf offset => inferInstanceAs (Decidable (buf = [] ∨ s.eof ≤ offset))
  | .pread _ _ => .isTrue trivial
  | .sync => .isTrue trivial

def Reaches (ops : RawOps) (s : Pair) : FileOp → Prop
  | .pread nbyte offset => ops.Reaches s.plain nbyte offset
  | _ => True

structure Pair.Coherent (s : Pair) : Prop where
  view : s.handle.view = s.plain
  pending : s.handle.writeBuffer.Pending
  cached : ∀ b ∈ s.handle.buffers.all, b.Cached s.plain s.eof
  eof_le : s.eof ≤ s.plain.size

theorem coherent_start (f : RawFile) : (Pair.start f).Coherent where
  view := write_nil
  pending := ⟨rfl, Nat.zero_le _, fun hne => absurd rfl hne⟩
  cached b hb := by
    obtain rfl := mem_singleton.mp hb
    exact cached_new _ _
  eof_le := Nat.zero_le _

theorem Pair.Coherent.step (hops : ops.Reliable) {s : Pair} (hs : s.Coherent) {op : FileOp}
    (hop : AppendOnly s op) (hread : Reaches ops s op) :
    ∃ s' out, s.step ops op = .ok (s', out) ∧ s'.Coherent ∧ ∀ p ∈ out, p.1 = p.2 := by
  cases op with
  | pwrite buf offset =>
    obtain ⟨n, h', hw, -, -, -, hview, hpend, hbs⟩ := bufferedPwrite_ok hops hs.pending buf offset
    simp only [Pair.step, hw]
    refine ⟨_, _, rfl, ⟨hview.trans (by rw [hs.view]), hpend, ?_, ?_⟩, by simp⟩
    · intro b hb
      have hc := hs.cached b (hbs ▸ hb)
      refine hc.write hs.eof_le (hop.imp (fun hnil => ?_) id)
      rw [hnil, take_nil]
    · exact hs.eof_le.trans size_le_write
  | pread nbyte offset =>
    obtain ⟨f, hf, himg⟩ := flushBuffer_ok hops hs.pending s.handle.raw
    have himg : f.image = s.plain := himg.trans hs.view
    have hread : ops.Reaches f.image nbyte offset := himg ▸ hread
    obtain ⟨bs', f', hr, himg', hbs'⟩ := preadLoop_ok (f := f) hops (Nat.lt_succ_self nbyte)
      hread (fun b hb => himg ▸ (hs.cached b hb).mono hs.eof_le)
    rw [himg] at hr himg' hbs'
    simp only [Pair.step, bufferedPread, hf, hr]
    refine ⟨_, _, rfl, ⟨?_, hs.pending.flushed, hbs', le_rfl⟩, by simp⟩
    rw [Handle.view, FileBuffer.over_flushed]
    exact himg'
  | sync =>
    obtain ⟨f, hf, himg⟩ := flushBuffer_ok hops hs.pending s.handle.raw
    simp only [Pair.step, bufferedSync, hf]
    refine ⟨_, _, rfl, ⟨?_, hs.pending.flushed, hs.cached, hs.eof_le⟩, by simp⟩
    rw [Handle.view, FileBuffer.over_flushed]
    exact himg.trans hs.view

/-- Every call goes through, and every read gives what the unbuffered file gives. -/
theorem Pair.Coherent.run (hops : ops.Reliable) {s : Pair} (hs : s.Coherent)
    {calls : List FileOp} (happend : Along (Pair.step ops) AppendOnly s calls)
    (hread : Along (Pair.step ops) (Reaches ops) s calls) :
    ∃ s' outs, run (Pair.step ops) s calls = .ok (s', outs) ∧ s'.Coherent ∧
      ∀ got want, some (got, want) ∈ outs → got = want := by
  induction calls generalizing s with
  | nil => exact ⟨s, [], rfl, hs, by simp⟩
  | cons op calls ih =>
    obtain ⟨s1, out, hstep, hs1, hout⟩ := hs.step hops happend.1 hread.1
    obtain ⟨s', outs, hr, hs', houts⟩ :=
      ih hs1 (happend.2 s1 out hstep) (hread.2 s1 out hstep)
    refine ⟨s', out :: outs, run_cons_ok.mpr ⟨s1, out, outs, hstep, hr, rfl⟩, hs', ?_⟩
    intro got want hmem
    obtain rfl | hmem := mem_cons.mp hmem
    · exact hout _ rfl
    · exact houts got want hmem

/-- The buffered layer is transparent: while each read below it gets to the wanted bytes, a read
through it gives the bytes that the unbuffered file gives, writes may be cut at will, and
what the layer shows in the end is that file. -/
theorem buffered_transparent (hops : ops.Reliable) (f : RawFile) (calls : List FileOp)
    (happend : Along (Pair.step ops) AppendOnly (Pair.start f) calls)
    (hread : Along (Pair.step ops) (Reaches ops) (Pair.start f) calls) :
    ∃ s outs, run (Pair.step ops) (Pair.start f) calls = .ok (s, outs) ∧
      s.handle.view = s.plain ∧ ∀ got want, some (got, want) ∈ outs → got = want := by
  obtain ⟨s, outs, hrun, hs, houts⟩ := (coherent_start f).run hops happend hread
  exact ⟨s, outs, hrun, hs.view, houts⟩

def slowOps : RawOps := ⟨fun _ => some 211, fun _ => some 2⟩

def smallFile : RawFile := ⟨⟨fun i => i.toUInt8, 200⟩, 0⟩

def appendAndRead : List FileOp :=
  [.pwrite [1, 2, 3, 4] 200, .pread 3 199, .pwrite [5] 204, .sync, .pread 9 203]

theorem buffered_transparent_append :
    slowOps.Reliable ∧ Along (Pair.step slowOps) AppendOnly (Pair.start smallFile) appendAndRead ∧
      Along (Pair.step slowOps) (Reaches slowOps) (Pair.start smallFile) appendAndRead ∧
      ∃ s outs, run (Pair.step slowOps) (Pair.start smallFile) appendAndRead =
          .ok (s, outs) ∧ s.handle.view = s.plain ∧
        outs = [none, some ([199, 1, 2], [199, 1, 2]), none, none, some ([4, 5], [4, 5])] := by
  have hops : slowOps.Reliable := ⟨fun _ => some_ne_none _, fun _ => some_ne_none _⟩
  have hread : Along (Pair.step slowOps) (Reaches slowOps) (Pair.start smallFile)
      appendAndRead := by
    refine along_of_forall fun s op hop => ?_
    cases op with
    | pread nbyte offset =>
      intro n c hc o ho ho' _
      obtain rfl : 211 = c := Option.some.inj hc
      have hend : nbyte = 3 ∧ offset = 199 ∨ nbyte = 9 ∧ offset = 203 := by
        simpa [appendAndRead] using hop
      exact (Nat.mod_le _ _).trans (by omega)
    | pwrite | sync => trivial
  have happend : Along (Pair.step slowOps) AppendOnly (Pair.start smallFile)
      appendAndRead := by
    decide +kernel
  obtain ⟨s, outs, hrun, hview, -⟩ := buffered_transparent hops smallFile appendAndRead happend hread
  have houts : ((run (Pair.step slowOps) (Pair.start smallFile)
      appendAndRead).toOption.map Prod.snd) =
        some [none, some ([199, 1, 2], [199, 1, 2]), none, none, some ([4, 5], [4, 5])] := by
    decide +kernel
  rw [hrun] at houts
  exact ⟨hops, happend, hread, s, outs, hrun, hview, Option.some.inj houts⟩

def shortReads : RawOps := ⟨fun _ => some 49, fun _ => some 2⟩

/-- A read below that stops short of the wanted byte is taken for the end of the file. -/
theorem short_read_lost : shortReads.Reliable ∧
      Along (Pair.step shortReads) AppendOnly (Pair.start smallFile) [.pread 3 100] ∧
      ∃ s, run (Pair.step shortReads) (Pair.start smallFile) [.pread 3 100] =
        .ok (s, [some ([], [100, 101, 102])]) := by
  exact ⟨⟨fun _ => some_ne_none _, fun _ => some_ne_none _⟩,
    ⟨trivial, fun _ _ _ => trivial⟩, _, rfl⟩

end Appstack.Couchstore.IoBuffer
