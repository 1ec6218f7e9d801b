import Appstack.Lib.BigEndian

-- `node_types.h` and `bitfield.h`: the packed records as the bytes they are on disk.

namespace Appstack.Couchstore
open BigEndian List

abbrev Bytes := List UInt8

abbrev encodeRaw16 (n : ℕ) : Bytes := encode 2 n

abbrev decodeRaw16 (b : Bytes) : ℕ := decode b

abbrev encodeRaw48 (n : ℕ) : Bytes := encode 6 n

abbrev decodeRaw48 (b : Bytes) : ℕ := decode b

/-- A 12 bit key length and a 28 bit value length in five bytes. The value length
is written as 32 bits first, and the low half of the key length is or-ed on top. -/
def encodeKvLength (klen vlen : ℕ) : Bytes :=
  UInt8.ofNat (klen >>> 4) ::
    match encode 4 vlen with
    | v :: vs => (v ||| UInt8.ofNat ((klen &&& 0xF) <<< 4)) :: vs
    | [] => []

def decodeKvLength (kv : Bytes) : ℕ × ℕ :=
  (((kv.getD 0 0).toNat <<< 4) ||| (((kv.getD 1 0).toNat &&& 0xf0) >>> 4),
    decode ((kv.drop 1).take 4) &&& 0x0FFFFFFF)

def readKv (buf : Bytes) : (Bytes × Bytes) × ℕ :=
  let (klen, vlen) := decodeKvLength buf
  (((buf.drop 5).take klen, (buf.drop (5 + klen)).take vlen), 5 + klen + vlen)

def writeKv (key value : Bytes) : Bytes :=
  encodeKvLength key.length value.length ++ key ++ value

def readItems (buf : Bytes) : List (Bytes × Bytes) :=
  if buf = [] then [] else (readKv buf).1 :: readItems (buf.drop (readKv buf).2)
termination_by buf.length
decreasing_by
  have hp : 0 < (readKv buf).2 := by simp only [readKv]; omega
  have hl : 0 < buf.length := length_pos_of_ne_nil ‹_›
  rw [length_drop]
  omega

/-- `reduce_value` is what the reduce functions left for the subtree. -/
structure NodePointer where
  key : Bytes
  pointer : ℕ
  subtreesize : ℕ
  reduceValue : Bytes

def encodeRawPointer (p : NodePointer) : Bytes :=
  encodeRaw48 p.pointer ++ encodeRaw48 p.subtreesize ++ encodeRaw16 p.reduceValue.length ++
    p.reduceValue

def readPointer (key buf : Bytes) : NodePointer where
  key := key
  pointer := decodeRaw48 (buf.take 6)
  subtreesize := decodeRaw48 ((buf.drop 6).take 6)
  reduceValue := (buf.drop 14).take (decodeRaw16 ((buf.drop 12).take 2))

@[simp] theorem length_encodeKvLength (klen vlen : ℕ) : (encodeKvLength klen vlen).length = 5 := by
  simp [encodeKvLength, encode]

theorem high_nibble {b : ℕ} (hb : b < 256) : (b &&& 0xf0) >>> 4 = b / 16 := by
  rw [Nat.shiftRight_and_distrib, show (0xf0 : ℕ) >>> 4 = 2 ^ 4 - 1 by decide,
    Nat.and_two_pow_sub_one_eq_mod, Nat.shiftRight_eq_div_pow]
  omega

theorem shared_byte {k v : ℕ} (hv : v < 16) :
    (UInt8.ofNat v ||| UInt8.ofNat ((k &&& 0xF) <<< 4)).toNat = k % 16 * 16 + v := by
  have hk : (k &&& 0xF) <<< 4 = k % 16 * 16 := by
    rw [Nat.shiftLeft_eq, show (0xF : ℕ) = 2 ^ 4 - 1 by norm_num, Nat.and_two_pow_sub_one_eq_mod]
  have hor : v ||| k % 16 * 16 = k % 16 * 16 + v := by
    have h := Nat.shiftLeft_add_eq_or_of_lt (show v < 2 ^ 4 by omega) (k % 16)
    rw [Nat.shiftLeft_eq] at h
    rw [Nat.or_comm, ← h]
  rw [UInt8.toNat_or, UInt8.toNat_ofNat', UInt8.toNat_ofNat', hk]
  rw [Nat.mod_eq_of_lt (show v < 2 ^ 8 by omega),
    Nat.mod_eq_of_lt (show k % 16 * 16 < 2 ^ 8 by omega), hor]

theorem decodeKvLength_encodeKvLength {klen vlen : ℕ} (hk : klen < 2 ^ 12) (hv : vlen < 2 ^ 28)
    (rest : Bytes) : decodeKvLength (encodeKvLength klen vlen ++ rest) = (klen, vlen) := by
  have hs : UInt8.ofNat (vlen / 256 / 256 / 256) ||| UInt8.ofNat ((klen &&& 0xF) <<< 4) =
      UInt8.ofNat (klen % 16 * 16 + vlen / 2 ^ 24) := by
    apply UInt8.toNat_inj.mp
    rw [shared_byte (by omega), UInt8.toNat_ofNat']
    omega
  simp only [decodeKvLength, encodeKvLength, encode, nil_append, cons_append, hs,
    getD_cons_zero, getD_cons_succ, drop_succ_cons, drop_zero,
    take_succ_cons, take_zero]
  have hb := high_nibble (show klen % 16 * 16 + vlen / 2 ^ 24 < 256 by omega)
  refine Prod.ext ?_ ?_
  · have hor := Nat.shiftLeft_add_eq_or_of_lt (show klen % 16 < 2 ^ 4 by omega) (klen / 16)
    simp only [UInt8.toNat_ofNat', Nat.shiftRight_eq_div_pow klen]
    rw [Nat.mod_eq_of_lt (show klen % 16 * 16 + vlen / 2 ^ 24 < 2 ^ 8 by omega), hb,
      Nat.mod_eq_of_lt (show klen / 2 ^ 4 < 2 ^ 8 by omega),
      show (klen % 16 * 16 + vlen / 2 ^ 24) / 16 = klen % 16 by omega,
      show klen / 2 ^ 4 = klen / 16 by norm_num, ← hor, Nat.shiftLeft_eq]
    omega
  · simp only [decode, foldl_cons, foldl_nil, UInt8.toNat_ofNat']
    rw [show (0x0FFFFFFF : ℕ) = 2 ^ 28 - 1 by norm_num, Nat.and_two_pow_sub_one_eq_mod]
    omega

theorem length_writeKv (key value : Bytes) :
    (writeKv key value).length = key.length + value.length + 5 := by
  simp [writeKv]
  omega

def Fits (e : Bytes × Bytes) : Prop := e.1.length < 2 ^ 12 ∧ e.2.length < 2 ^ 28

theorem readKv_writeKv {key value : Bytes} (h : Fits (key, value)) (rest : Bytes) :
    readKv (writeKv key value ++ rest) = ((key, value), (writeKv key value).length) := by
  have hlen := decodeKvLength_encodeKvLength h.1 h.2 (key ++ (value ++ rest))
  have hd : (encodeKvLength key.length value.length ++ (key ++ (value ++ rest))).drop 5 =
      key ++ (value ++ rest) := by
    rw [← length_encodeKvLength key.length value.length, drop_left]
  simp only [readKv, writeKv, append_assoc]
  rw [hlen]
  simp only [hd, ← drop_drop, take_left, drop_left]
  simp [Nat.add_assoc]

@[simp] theorem readItems_nil : readItems [] = [] := by
  rw [readItems]
  simp

theorem readItems_writeKv {key value : Bytes} (h : Fits (key, value)) (rest : Bytes) :
    readItems (writeKv key value ++ rest) = (key, value) :: readItems rest := by
  have hne : writeKv key value ++ rest ≠ [] := by
    intro he
    have := congrArg List.length he
    simp [length_writeKv] at this
  rw [readItems, if_neg hne, readKv_writeKv h, drop_left]

theorem readItems_flatMap {items : List (Bytes × Bytes)} (h : ∀ e ∈ items, Fits e) :
    readItems (items.flatMap fun e => writeKv e.1 e.2) = items := by
  induction items with
  | nil => simp
  | cons e items ih =>
    rw [flatMap_cons, readItems_writeKv (h e (by simp)), ih fun x hx => h x (by simp [hx])]

theorem length_encodeRawPointer (p : NodePointer) :
    (encodeRawPointer p).length = 14 + p.reduceValue.length := by
  simp [encodeRawPointer]
  omega

theorem readPointer_encodeRawPointer (key : Bytes) {p : NodePointer}
    (hr : p.reduceValue.length < 2 ^ 16) :
    readPointer key (encodeRawPointer p) =
      { key := key, pointer := p.pointer % 2 ^ 48, subtreesize := p.subtreesize % 2 ^ 48,
        reduceValue := p.reduceValue } := by
  simp only [readPointer, encodeRawPointer, decodeRaw48, decodeRaw16, encodeRaw48, encodeRaw16,
    append_assoc, show (12 : ℕ) = 6 + 6 by norm_num, show (14 : ℕ) = 6 + 6 + 2 by norm_num,
    ← drop_drop, take_encode_append, drop_encode_append, decode_encode]
  rw [Nat.mod_eq_of_lt (show p.reduceValue.length < 256 ^ 2 by omega), take_length]
  norm_num

end Appstack.Couchstore
