import Appstack.Couchstore.BtreeModify

-- The index values of `couch_save.c` and `couch_db.c`, and the reduce functions of `reduces.c`.

namespace Appstack.Couchstore
open BigEndian List

/-- Sizes and positions are the values of the C fields; `deleted` is a flag. -/
structure DocInfo where
  id : Bytes
  dbSeq : ℕ
  revSeq : ℕ
  revMeta : Bytes
  deleted : Bool
  contentMeta : UInt8
  bp : ℕ
  size : ℕ
  deriving DecidableEq

abbrev encodeRaw32 (n : ℕ) : Bytes := encode 4 n

abbrev decodeRaw32 (b : Bytes) : ℕ := decode b

abbrev encodeRaw40 (n : ℕ) : Bytes := encode 5 n

abbrev decodeRaw40 (b : Bytes) : ℕ := decode b

def bpDeletedFlag : ℕ := 1 <<< 47

def DocInfo.rawBp (info : DocInfo) : ℕ := info.bp ||| if info.deleted then bpDeletedFlag else 0

/-- `raw_seq_index_value`: 18 bytes, then the id and the revision metadata. -/
def assembleSeqIndexValue (info : DocInfo) : Bytes :=
  encodeKvLength info.id.length info.size ++ encodeRaw48 info.rawBp ++ encodeRaw48 info.revSeq ++
    [info.contentMeta] ++ info.id ++ info.revMeta

/-- `raw_id_index_value`: 23 bytes, then the revision metadata. -/
def assembleIdIndexValue (info : DocInfo) : Bytes :=
  encodeRaw48 info.dbSeq ++ encodeRaw32 info.size ++ encodeRaw48 info.rawBp ++
    encodeRaw48 info.revSeq ++ [info.contentMeta] ++ info.revMeta

def decodeSequenceKey (k : Bytes) : ℕ := decodeRaw48 (k.take 6)

/-- A value shorter than its id says is not looked at further than its end. -/
def bySeqReadDocinfo (k v : Bytes) : Except Errcode DocInfo :=
  if v.length < 18 then .error .corrupt
  else
    let (idsize, datasize) := decodeKvLength v
    let bp := decodeRaw48 ((v.drop 5).take 6)
    .ok {
      id := (v.drop 18).take idsize
      dbSeq := decodeSequenceKey k
      revSeq := decodeRaw48 ((v.drop 11).take 6)
      revMeta := v.drop (18 + idsize)
      deleted := bp &&& bpDeletedFlag ≠ 0
      contentMeta := v.getD 17 0
      bp := bp &&& (2 ^ 64 - 1 - bpDeletedFlag)
      size := datasize }

def byIdReadDocinfo (k v : Bytes) : Except Errcode DocInfo :=
  if v.length < 23 then .error .corrupt
  else
    let bp := decodeRaw48 ((v.drop 10).take 6)
    .ok {
      id := k
      dbSeq := decodeRaw48 (v.take 6)
      revSeq := decodeRaw48 ((v.drop 16).take 6)
      revMeta := v.drop 23
      deleted := bp &&& bpDeletedFlag ≠ 0
      contentMeta := v.getD 22 0
      bp := bp &&& (2 ^ 64 - 1 - bpDeletedFlag)
      size := decodeRaw32 ((v.drop 6).take 4) }

-- The sums are `uint64_t` values of which only the low 40 or 48 bits are kept, so they are
-- natural numbers here.

def reduceValue (i : Item) : Bytes := (i.pointer.map NodePointer.reduceValue).getD []

def bySeqReduce : ReduceFn where
  run leaflist := encodeRaw40 leaflist.length
  size_le _ := by simp

def bySeqRereduce : ReduceFn where
  run ptrlist := encodeRaw40 (ptrlist.map fun i => decodeRaw40 ((reduceValue i).take 5)).sum
  size_le _ := by simp

def encodeByIdReduce (notdeleted deleted size : ℕ) : Bytes :=
  encodeRaw40 notdeleted ++ encodeRaw40 deleted ++ encodeRaw48 size

def byIdReduce : ReduceFn where
  run leaflist :=
    let isDeleted (i : Item) : Bool := decodeRaw48 ((i.data.drop 10).take 6) &&& bpDeletedFlag ≠ 0
    encodeByIdReduce (leaflist.countP fun i => !isDeleted i) (leaflist.countP isDeleted)
      (leaflist.map fun i => decodeRaw32 ((i.data.drop 6).take 4)).sum
  size_le _ := by simp [encodeByIdReduce]

def byIdRereduce : ReduceFn where
  run ptrlist :=
    encodeByIdReduce (ptrlist.map fun i => decodeRaw40 ((reduceValue i).take 5)).sum
      (ptrlist.map fun i => decodeRaw40 (((reduceValue i).drop 5).take 5)).sum
      (ptrlist.map fun i => decodeRaw48 (((reduceValue i).drop 10).take 6)).sum
  size_le _ := by simp [encodeByIdReduce]

/-- The sizes and positions that the stored fields can hold. -/
structure DocInfo.Storable (info : DocInfo) : Prop where
  id_lt : info.id.length < 2 ^ 12
  dbSeq_lt : info.dbSeq < 2 ^ 48
  bp_lt : info.bp < 2 ^ 47
  size_lt : info.size < 2 ^ 28

def DocInfo.stored (info : DocInfo) : DocInfo := { info with revSeq := info.revSeq % 2 ^ 48 }

section RawBp
variable {info : DocInfo}

section
variable (h : info.bp < 2 ^ 47)
include h

theorem rawBp_eq : info.rawBp = (if info.deleted then 1 else 0) * 2 ^ 47 + info.bp := by
  unfold DocInfo.rawBp bpDeletedFlag
  split
  · rw [Nat.or_comm, ← Nat.shiftLeft_add_eq_or_of_lt h, Nat.shiftLeft_eq]
  · simp

theorem rawBp_lt : info.rawBp < 2 ^ 48 := by
  rw [rawBp_eq h]
  split <;> omega

theorem rawBp_deleted : decide (info.rawBp &&& bpDeletedFlag ≠ 0) = info.deleted := by
  have hbit : info.rawBp.testBit 47 = info.deleted := by
    unfold DocInfo.rawBp bpDeletedFlag
    rw [Nat.testBit_or, Nat.testBit_lt_two_pow h, Bool.false_or]
    cases info.deleted <;> decide
  rw [bpDeletedFlag, Nat.one_shiftLeft, Nat.and_two_pow, hbit]
  cases info.deleted <;> decide

theorem rawBp_position : info.rawBp &&& (2 ^ 64 - 1 - bpDeletedFlag) = info.bp := by
  -- The position lies below the flag, where the mask is all ones.
  have hbp : info.bp &&& (2 ^ 47 - 1) = info.bp := by
    rw [Nat.and_two_pow_sub_one_eq_mod, Nat.mod_eq_of_lt h]
  have hmask : (2 ^ 47 - 1) &&& (2 ^ 64 - 1 - bpDeletedFlag) = 2 ^ 47 - 1 := by decide
  have hflag : (if info.deleted then bpDeletedFlag else 0) &&& (2 ^ 64 - 1 - bpDeletedFlag) = 0 := by
    cases info.deleted <;> decide
  rw [DocInfo.rawBp, Nat.and_or_distrib_right, hflag, Nat.or_zero, ← hbp, Nat.and_assoc, hmask]

end

end RawBp

theorem length_assembleSeqIndexValue (info : DocInfo) :
    (assembleSeqIndexValue info).length = 18 + info.id.length + info.revMeta.length := by
  simp only [assembleSeqIndexValue, length_append, length_encodeKvLength, length_encode,
    length_singleton]

theorem length_assembleIdIndexValue (info : DocInfo) :
    (assembleIdIndexValue info).length = 23 + info.revMeta.length := by
  simp only [assembleIdIndexValue, length_append, length_encode, length_singleton]

theorem decodeRaw48_rawBp {info : DocInfo} (h : info.bp < 2 ^ 47) :
    decode (encode 6 info.rawBp) = info.rawBp :=
  decode_encode_of_lt (rawBp_lt h)

theorem bySeqReadDocinfo_assemble {info : DocInfo} (h : info.Storable) :
    bySeqReadDocinfo (encodeRaw48 info.dbSeq) (assembleSeqIndexValue info) = .ok info.stored := by
  have hlen := length_assembleSeqIndexValue info
  have hkv : decodeKvLength (assembleSeqIndexValue info) = (info.id.length, info.size) := by
    simp only [assembleSeqIndexValue, append_assoc]
    exact decodeKvLength_encodeKvLength h.id_lt h.size_lt _
  have hseq : decodeSequenceKey (encodeRaw48 info.dbSeq) = info.dbSeq := by
    rw [decodeSequenceKey, take_of_length_le (by simp)]
    exact decode_encode_of_lt h.dbSeq_lt
  have h5 : (assembleSeqIndexValue info).drop 5 = encode 6 info.rawBp ++ (encode 6 info.revSeq ++
      (info.contentMeta :: (info.id ++ info.revMeta))) := by
    simp only [assembleSeqIndexValue, append_assoc]
    exact drop_left' (length_encodeKvLength _ _)
  have h11 : (assembleSeqIndexValue info).drop 11 = encode 6 info.revSeq ++
      (info.contentMeta :: (info.id ++ info.revMeta)) := by
    rw [show 11 = 5 + 6 by norm_num, ← drop_drop, h5, drop_encode_append]
  have h17 : (assembleSeqIndexValue info).drop 17 =
      info.contentMeta :: (info.id ++ info.revMeta) := by
    rw [show 17 = 11 + 6 by norm_num, ← drop_drop, h11, drop_encode_append]
  have hmeta : (assembleSeqIndexValue info).getD 17 0 = info.contentMeta := by
    rw [getD_eq_getElem?_getD, ← List.head?_drop, h17]
    rfl
  have h18 : (assembleSeqIndexValue info).drop 18 = info.id ++ info.revMeta := by
    rw [show 18 = 17 + 1 by norm_num, ← drop_drop, h17, drop_one, tail_cons]
  rw [bySeqReadDocinfo, if_neg (by omega), hkv]
  simp only [h5, h11, h18, hmeta, hseq, ← drop_drop, take_encode_append, take_left,
    drop_left, decodeRaw48, decodeRaw48_rawBp h.bp_lt, rawBp_deleted h.bp_lt,
    rawBp_position h.bp_lt, decode_encode]
  rfl

theorem byIdReadDocinfo_assemble {info : DocInfo} (h : info.Storable) :
    byIdReadDocinfo info.id (assembleIdIndexValue info) = .ok info.stored := by
  have hlen := length_assembleIdIndexValue info
  have hassoc : assembleIdIndexValue info = encode 6 info.dbSeq ++ (encode 4 info.size ++
      (encode 6 info.rawBp ++ (encode 6 info.revSeq ++ (info.contentMeta :: info.revMeta)))) := by
    simp only [assembleIdIndexValue, append_assoc, singleton_append]
  have h6 : (assembleIdIndexValue info).take 6 = encode 6 info.dbSeq := by
    rw [hassoc, take_encode_append]
  have h6' : (assembleIdIndexValue info).drop 6 = encode 4 info.size ++ (encode 6 info.rawBp ++
      (encode 6 info.revSeq ++ (info.contentMeta :: info.revMeta))) := by
    rw [hassoc, drop_encode_append]
  have h10 : (assembleIdIndexValue info).drop 10 = encode 6 info.rawBp ++
      (encode 6 info.revSeq ++ (info.contentMeta :: info.revMeta)) := by
    rw [show 10 = 6 + 4 by norm_num, ← drop_drop, h6', drop_encode_append]
  have h16 : (assembleIdIndexValue info).drop 16 = encode 6 info.revSeq ++
      (info.contentMeta :: info.revMeta) := by
    rw [show 16 = 10 + 6 by norm_num, ← drop_drop, h10, drop_encode_append]
  have h22 : (assembleIdIndexValue info).drop 22 = info.contentMeta :: info.revMeta := by
    rw [show 22 = 16 + 6 by norm_num, ← drop_drop, h16, drop_encode_append]
  have hmeta : (assembleIdIndexValue info).getD 22 0 = info.contentMeta := by
    rw [getD_eq_getElem?_getD, ← List.head?_drop, h22]
    rfl
  have h23 : (assembleIdIndexValue info).drop 23 = info.revMeta := by
    rw [show 23 = 22 + 1 by norm_num, ← drop_drop, h22, drop_one, tail_cons]
  have hseq : decode (encode 6 info.dbSeq) = info.dbSeq := decode_encode_of_lt h.dbSeq_lt
  have hsize : decode (encode 4 info.size) = info.size :=
    decode_encode_of_lt (h.size_lt.trans (by norm_num))
  rw [byIdReadDocinfo, if_neg (by omega)]
  simp only [h6, h6', h10, h16, h23, hmeta, take_encode_append, decodeRaw48, decodeRaw32, hseq,
    hsize, decodeRaw48_rawBp h.bp_lt, rawBp_deleted h.bp_lt, rawBp_position h.bp_lt, decode_encode]
  rfl

end Appstack.Couchstore
