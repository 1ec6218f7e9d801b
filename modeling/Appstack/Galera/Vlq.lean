import Appstack.Lib.Leb128

-- `gu_vlq.hpp` for an unsigned type of `w` bits. A buffer is the list of its bytes, so its length is
-- `buflen`; a read at or past it would be an `overrun`.

namespace Appstack.Galera
open Lib List

abbrev Bytes := List UInt8

inductive VlqError where
  /-- `gu_throw_fatal` -/
  | fatal
  /-- the terminating byte is missing -/
  | einval
  /-- the value is not representable -/
  | erange
  /-- a read outside the buffer -/
  | overrun
  /-- `assert(avail_bits > 0)` -/
  | assertion

def VlqError.Thrown (e : VlqError) : Prop := e = fatal ∨ e = einval ∨ e = erange

section Codec
variable {w : ℕ}

theorem toNat_shiftRight_seven (value : BitVec w) : (value >>> 7).toNat = value.toNat / 128 := by
  rw [BitVec.toNat_ushiftRight, Nat.shiftRight_eq_div_pow]

variable {value : BitVec w} {shift offset : ℕ} {byte : UInt8} {buf : Bytes}

theorem shiftRight_lt (h : value ≠ 0) : (value >>> 7).toNat < value.toNat := by
  have hpos : value.toNat ≠ 0 := fun hz => h (BitVec.eq_of_toNat_eq hz)
  rw [toNat_shiftRight_seven]
  omega

def uleb128SizeLoop (value : BitVec w) (i : ℕ) : ℕ :=
  if value = 0 then i else uleb128SizeLoop (value >>> 7) (i + 1)
termination_by value.toNat
decreasing_by exact shiftRight_lt ‹_›

def uleb128Size (value : BitVec w) : ℕ := uleb128SizeLoop (value >>> 7) 1

def uleb128Encode (value : BitVec w) (buf : Bytes) (offset : ℕ) : Except VlqError (Bytes × ℕ) :=
  if buf.length ≤ offset then .error .fatal
  else
    let byte := UInt8.ofNat (value &&& 0x7f).toNat
    if value >>> 7 ≠ 0 then
      uleb128Encode (value >>> 7) (buf.set offset (byte ||| 0x80)) (offset + 1)
    else .ok (buf.set offset byte, offset + 1)
termination_by value.toNat
decreasing_by
  exact shiftRight_lt fun hz => ‹value >>> 7 ≠ 0› (by simp [hz])

def overflowMask (availBits : ℕ) : UInt8 := ~~~(UInt8.ofNat (1 <<< availBits) - 1)

def uleb128DecodeLoop (buf : Bytes) (offset : ℕ) (value : BitVec w) (shift : ℕ) :
    Except VlqError (BitVec w × ℕ) :=
  match buf[offset]? with
  | none => .error .overrun
  | some byte =>
    let value := value ||| (BitVec.ofNat w (byte &&& 0x7f).toNat <<< shift)
    if byte &&& 0x80 = 0 then .ok (value, offset + 1)
    else if buf.length ≤ offset + 1 then .error .einval
    else if w ≤ shift + 7 then .error .assertion
    else
      match buf[offset + 1]? with
      | none => .error .overrun
      | some next =>
        if w - (shift + 7) < 7 ∧ next &&& overflowMask (w - (shift + 7)) ≠ 0 then .error .erange
        else uleb128DecodeLoop buf (offset + 1) value (shift + 7)
termination_by buf.length - offset

def uleb128Decode (w : ℕ) (buf : Bytes) (offset : ℕ) : Except VlqError (BitVec w × ℕ) :=
  if buf.length ≤ offset then .error .fatal else uleb128DecodeLoop buf offset 0 0

theorem shiftRight_seven_eq_zero_iff : value >>> 7 = 0 ↔ value.toNat < 128 := by
  rw [← BitVec.toNat_inj, toNat_shiftRight_seven]
  simp only [BitVec.ofNat_eq_ofNat, BitVec.toNat_ofNat, Nat.zero_mod]
  omega

theorem uleb128SizeLoop_eq (value : BitVec w) (i : ℕ) :
    uleb128SizeLoop (value >>> 7) i + 1 = i + (Leb128.encode value.toNat).length := by
  induction hn : value.toNat using Nat.strongRecOn generalizing value i with
  | ind n ih =>
    subst hn
    rw [uleb128SizeLoop]
    split_ifs with hz
    · rw [Leb128.encode_of_lt (shiftRight_seven_eq_zero_iff.mp hz)]
      rfl
    · have hle : 128 ≤ value.toNat := by
        rw [shiftRight_seven_eq_zero_iff] at hz
        omega
      have hlt : (value >>> 7).toNat < value.toNat := by
        rw [toNat_shiftRight_seven]
        omega
      rw [ih _ hlt _ _ rfl, Leb128.encode_of_le hle, toNat_shiftRight_seven, length_cons]
      omega

theorem uleb128Size_eq (value : BitVec w) :
    uleb128Size value = (Leb128.encode value.toNat).length := by
  have := uleb128SizeLoop_eq value 1
  rw [uleb128Size]
  omega

theorem toNat_and_low (hw : 8 ≤ w) (value : BitVec w) : (value &&& 0x7f).toNat = value.toNat % 128 := by
  have hmask : (0x7f : BitVec w).toNat = 2 ^ 7 - 1 := by
    have hpow : 2 ^ 8 ≤ 2 ^ w := Nat.pow_le_pow_right (by norm_num) hw
    simp only [BitVec.ofNat_eq_ofNat, BitVec.toNat_ofNat]
    exact Nat.mod_eq_of_lt (by omega)
  rw [BitVec.toNat_and, hmask, Nat.and_two_pow_sub_one_eq_mod]

theorem ofNat_or_high {n : ℕ} (h : n < 128) : UInt8.ofNat n ||| 0x80 = UInt8.ofNat (n + 128) := by
  interval_cases n <;> rfl

def writeAt (buf : Bytes) (offset : ℕ) (l : Bytes) : Bytes :=
  buf.take offset ++ l ++ buf.drop (offset + l.length)

theorem length_writeAt {l : Bytes} (h : offset + l.length ≤ buf.length) :
    (writeAt buf offset l).length = buf.length := by
  simp only [writeAt, length_append, length_take, length_drop]
  omega

theorem writeAt_singleton (h : offset < buf.length) (b : UInt8) :
    writeAt buf offset [b] = buf.set offset b := by
  rw [set_eq_take_append_cons_drop, if_pos h, writeAt]
  simp

theorem writeAt_set {l : Bytes} (h : offset < buf.length) (b : UInt8) :
    writeAt (buf.set offset b) (offset + 1) l = writeAt buf offset (b :: l) := by
  have hlt : offset < (buf.set offset b).length := by rwa [length_set]
  rw [writeAt, writeAt, take_add_one, take_set_of_le (Nat.le_refl _),
    List.getElem?_set_self h, drop_set_of_lt (by omega), length_cons]
  simp only [Option.toList_some, append_assoc, cons_append, nil_append]
  congr 4
  omega

theorem uleb128Encode_eq (hw : 8 ≤ w) (value : BitVec w) (buf : Bytes)
    (hroom : offset + (Leb128.encode value.toNat).length ≤ buf.length) :
    uleb128Encode value buf offset = .ok (writeAt buf offset (Leb128.encode value.toNat),
        offset + (Leb128.encode value.toNat).length) := by
  induction hn : value.toNat using Nat.strongRecOn generalizing value buf offset with
  | ind n ih =>
    subst hn
    have hpos := Leb128.encode_pos value.toNat
    have hoff : offset < buf.length := by omega
    rw [uleb128Encode, if_neg (by omega)]
    simp only [toNat_and_low hw]
    by_cases hlt : value.toNat < 128
    · rw [if_neg (not_not.mpr (shiftRight_seven_eq_zero_iff.mpr hlt)), Leb128.encode_of_lt hlt,
        writeAt_singleton hoff, Nat.mod_eq_of_lt hlt]
      rfl
    · have hsmall : (value >>> 7).toNat < value.toNat := by
        rw [toNat_shiftRight_seven]
        omega
      rw [Leb128.encode_of_le (by omega), length_cons] at hroom
      rw [if_pos (mt shiftRight_seven_eq_zero_iff.mp hlt), ofNat_or_high (Nat.mod_lt _ (by norm_num)),
        ih _ hsmall _ _ _ rfl, toNat_shiftRight_seven, writeAt_set hoff,
        ← Leb128.encode_of_le (by omega)]
      · rw [Leb128.encode_of_le (n := value.toNat) (by omega), length_cons]
        congr 2
        omega
      · rw [toNat_shiftRight_seven, length_set]
        omega

theorem forall_byte {P : UInt8 → Prop} (h : ∀ n < 256, P (UInt8.ofNat n)) (b : UInt8) : P b := by
  have hb := h b.toNat b.toNat_lt
  rwa [UInt8.ofNat_toNat] at hb

theorem toNat_and_seven (b : UInt8) : (b &&& 0x7f).toNat = b.toNat % 128 := by
  have hmask : (0x7f : UInt8).toNat = 2 ^ 7 - 1 := rfl
  rw [UInt8.toNat_and, hmask, Nat.and_two_pow_sub_one_eq_mod]

theorem and_high_eq_zero_iff (b : UInt8) : b &&& 0x80 = 0 ↔ b.toNat < 128 :=
  forall_byte (P := fun b => b &&& 0x80 = 0 ↔ b.toNat < 128) (by decide +kernel) b

theorem and_overflowMask_eq_zero_iff (b : UInt8) {k : ℕ} (hk : k < 7) :
    b &&& overflowMask k = 0 ↔ b.toNat < 2 ^ k := by
  have hall : ∀ k < 7, ∀ n < 256, UInt8.ofNat n &&& overflowMask k = 0 ↔ (UInt8.ofNat n).toNat < 2 ^ k := by
    decide +kernel
  exact forall_byte (P := fun b => b &&& overflowMask k = 0 ↔ b.toNat < 2 ^ k) (hall k hk) b

theorem toNat_or_digit {d : ℕ} (hv : value.toNat < 2 ^ shift) (hd : d * 2 ^ shift < 2 ^ w) :
    (value ||| (BitVec.ofNat w d <<< shift)).toNat = value.toNat + d * 2 ^ shift := by
  have hle : d ≤ d * 2 ^ shift := Nat.le_mul_of_pos_right d (Nat.two_pow_pos shift)
  rw [BitVec.toNat_or, BitVec.toNat_shiftLeft, BitVec.toNat_ofNat, Nat.mod_eq_of_lt (hle.trans_lt hd),
    Nat.shiftLeft_eq, Nat.mod_eq_of_lt hd, Nat.or_comm, Nat.mul_comm d,
    ← Nat.two_pow_add_eq_or_of_lt hv, Nat.add_comm]

structure Fitting (w shift : ℕ) (value : BitVec w) (byte : UInt8) : Prop where
  shift_lt : shift < w
  value_lt : value.toNat < 2 ^ shift
  byte_lt : w - shift < 7 → byte.toNat < 2 ^ (w - shift)

theorem Fitting.digit_lt (h : Fitting w shift value byte) :
    byte.toNat % 128 * 2 ^ shift < 2 ^ w := by
  have hsplit : 2 ^ (w - shift) * 2 ^ shift = 2 ^ w := by
    rw [← pow_add, Nat.sub_add_cancel h.shift_lt.le]
  have hdigit : byte.toNat % 128 < 2 ^ (w - shift) := by
    by_cases hw : w - shift < 7
    · exact (Nat.mod_le _ _).trans_lt (h.byte_lt hw)
    · have hpow : 2 ^ 7 ≤ 2 ^ (w - shift) := Nat.pow_le_pow_right (by norm_num) (by omega)
      omega
  rw [← hsplit]
  exact Nat.mul_lt_mul_of_pos_right hdigit (Nat.two_pow_pos shift)

theorem Fitting.toNat_or (h : Fitting w shift value byte) :
    (value ||| (BitVec.ofNat w (byte &&& 0x7f).toNat <<< shift)).toNat =
      value.toNat + byte.toNat % 128 * 2 ^ shift := by
  rw [toNat_and_seven]
  exact toNat_or_digit h.value_lt h.digit_lt

theorem Fitting.shift_add_lt (hw : w % 7 ≠ 0)
    (h : Fitting w shift value byte) (hshift : shift % 7 = 0) (hbyte : 128 ≤ byte.toNat) :
    shift + 7 < w := by
  have hlt := h.shift_lt
  by_contra hge
  have hfew : w - shift < 7 := by omega
  have hpow : 2 ^ (w - shift) ≤ 2 ^ 7 := Nat.pow_le_pow_right (by norm_num) hfew.le
  have hbyte' := h.byte_lt hfew
  omega

theorem Fitting.next {next : UInt8} (h : Fitting w shift value byte) (hlt : shift + 7 < w)
    (hcheck : ¬(w - (shift + 7) < 7 ∧ next &&& overflowMask (w - (shift + 7)) ≠ 0)) :
    Fitting w (shift + 7) (value ||| (BitVec.ofNat w (byte &&& 0x7f).toNat <<< shift)) next where
  shift_lt := hlt
  value_lt := by
    have hdigit : byte.toNat % 128 * 2 ^ shift + 2 ^ shift ≤ 128 * 2 ^ shift := by
      have := Nat.mul_le_mul_right (2 ^ shift) (show byte.toNat % 128 + 1 ≤ 128 by omega)
      rwa [Nat.add_mul, Nat.one_mul] at this
    have hv := h.value_lt
    rw [h.toNat_or, pow_add]
    omega
  byte_lt hfew := by
    rw [← and_overflowMask_eq_zero_iff next hfew]
    by_contra hne
    exact hcheck ⟨hfew, hne⟩

theorem uleb128DecodeLoop_exact (hw : w % 7 ≠ 0) (hbyte : buf[offset]? = some byte)
    (hfit : Fitting w shift value byte)
    (hshift : shift % 7 = 0) :
    match uleb128DecodeLoop buf offset value shift with
    | .error e => e.Thrown
    | .ok (v, o) => ∃ ds, buf.drop offset = ds ++ buf.drop o ∧ o = offset + ds.length ∧
        Leb128.Complete ds ∧ v.toNat = value.toNat + Leb128.value ds * 2 ^ shift := by
  induction hn : buf.length - offset using Nat.strongRecOn generalizing offset shift value byte with
  | ind n ih =>
    subst hn
    obtain ⟨hoff, hget⟩ := List.getElem?_eq_some_iff.mp hbyte
    have hdrop : buf.drop offset = byte :: buf.drop (offset + 1) := by
      rw [drop_eq_getElem_cons hoff, hget]
    rw [uleb128DecodeLoop, hbyte]
    simp only [and_high_eq_zero_iff]
    by_cases hlast : byte.toNat < 128
    · rw [if_pos hlast]
      refine ⟨[byte], by simpa using hdrop, rfl, ?_, ?_⟩
      · simp [Leb128.Complete, hlast]
      · rw [hfit.toNat_or]
        simp [Leb128.value]
    · have hmore := hfit.shift_add_lt hw hshift (by omega)
      rw [if_neg hlast]
      split_ifs with hend
      · exact .inr (.inl rfl)
      · omega
      · obtain ⟨next, hnext⟩ : ∃ next, buf[offset + 1]? = some next :=
          ⟨_, List.getElem?_eq_getElem (by omega)⟩
        rw [hnext]
        dsimp only
        split_ifs with hcheck
        · exact .inr (.inr rfl)
        · have hrest := ih _ (by omega) hnext (hfit.next hmore hcheck) (by omega) rfl
          split at hrest
          · exact hrest
          · obtain ⟨ds, hds, ho, hcomplete, hv⟩ := hrest
            refine ⟨byte :: ds, ?_, ?_, ?_, ?_⟩
            · rw [hdrop, hds, cons_append]
            · rw [ho, length_cons]
              omega
            · rwa [Leb128.Complete, if_neg hlast]
            · rw [hv, hfit.toNat_or, Leb128.value, pow_add]
              ring

theorem uleb128DecodeLoop_encode {rest : Bytes} {n : ℕ}
    (hdrop : buf.drop offset = Leb128.encode n ++ rest) (hshift : shift < w)
    (hv : value.toNat < 2 ^ shift) (hn : n < 2 ^ (w - shift)) :
    ∃ v, uleb128DecodeLoop buf offset value shift = .ok (v, offset + (Leb128.encode n).length) ∧
      v.toNat = value.toNat + n * 2 ^ shift := by
  induction n using Nat.strongRecOn generalizing offset shift value with
  | ind n ih =>
    obtain ⟨bs, hhead⟩ := Leb128.head_encode n
    have hbyte : buf[offset]? = some (UInt8.ofNat (if n < 128 then n else n % 128 + 128)) := by
      have h := congrArg (fun l : Bytes => l[0]?) hdrop
      simpa [hhead] using h
    rw [uleb128DecodeLoop, hbyte]
    simp only [and_high_eq_zero_iff]
    by_cases hlast : n < 128
    · have htoNat : (UInt8.ofNat n).toNat = n := by
        rw [UInt8.toNat_ofNat', Nat.mod_eq_of_lt (by omega)]
      have hfit : Fitting w shift value (UInt8.ofNat n) := ⟨hshift, hv, fun _ => by rwa [htoNat]⟩
      rw [if_pos hlast, htoNat, if_pos hlast, Leb128.encode_of_lt hlast]
      refine ⟨_, rfl, ?_⟩
      have hor := hfit.toNat_or
      rwa [htoNat, Nat.mod_eq_of_lt hlast] at hor
    · have htoNat : (UInt8.ofNat (n % 128 + 128)).toNat = n % 128 + 128 := by
        rw [UInt8.toNat_ofNat', Nat.mod_eq_of_lt (by omega)]
      have hmore : shift + 7 < w := by
        by_contra hge
        have hpow : 2 ^ (w - shift) ≤ 2 ^ 7 := Nat.pow_le_pow_right (by norm_num) (by omega)
        omega
      have hquot : n / 128 < 2 ^ (w - (shift + 7)) := by
        have hpow : 2 ^ (w - shift) = 2 ^ (w - (shift + 7)) * 128 := by
          rw [show w - shift = w - (shift + 7) + 7 by omega, pow_add]
          norm_num
        rw [Nat.div_lt_iff_lt_mul (by norm_num), ← hpow]
        exact hn
      have hfit : Fitting w shift value (UInt8.ofNat (n % 128 + 128)) := ⟨hshift, hv, by omega⟩
      have hdrop' : buf.drop (offset + 1) = Leb128.encode (n / 128) ++ rest := by
        rw [Leb128.encode_of_le (by omega)] at hdrop
        rw [← tail_drop, hdrop]
        rfl
      obtain ⟨cs, hhead'⟩ := Leb128.head_encode (n / 128)
      have hnext : buf[offset + 1]? =
          some (UInt8.ofNat (if n / 128 < 128 then n / 128 else n / 128 % 128 + 128)) := by
        have h := congrArg (fun l : Bytes => l[0]?) hdrop'
        simpa [hhead'] using h
      have hlen : offset + 1 < buf.length := (List.getElem?_eq_some_iff.mp hnext).1
      have hcheck : ¬(w - (shift + 7) < 7 ∧
          UInt8.ofNat (if n / 128 < 128 then n / 128 else n / 128 % 128 + 128) &&&
            overflowMask (w - (shift + 7)) ≠ 0) := by
        rintro ⟨hfew, hne⟩
        have hpow : 2 ^ (w - (shift + 7)) ≤ 2 ^ 7 := Nat.pow_le_pow_right (by norm_num) hfew.le
        rw [if_pos (by omega)] at hne
        refine hne ((and_overflowMask_eq_zero_iff _ hfew).mpr ?_)
        rw [UInt8.toNat_ofNat', Nat.mod_eq_of_lt (by omega)]
        exact hquot
      rw [if_neg hlast]
      rw [if_neg (by omega : ¬(UInt8.ofNat (n % 128 + 128)).toNat < 128), if_neg hlen.not_ge,
        if_neg hmore.not_ge, hnext]
      dsimp only
      rw [if_neg hcheck]
      obtain ⟨v, hloop, hvalue⟩ := ih (n / 128) (by omega) hdrop' hmore
        (hfit.next hmore hcheck).value_lt hquot
      refine ⟨v, ?_, ?_⟩
      · rw [hloop, Leb128.encode_of_le (Nat.not_lt.mp hlast), length_cons, Nat.add_assoc,
          Nat.add_comm 1]
      · have hsplit := Nat.div_add_mod n 128
        rw [hvalue, hfit.toNat_or, htoNat, Nat.add_mod_right, Nat.mod_mod, pow_add]
        nth_rewrite 3 [← hsplit]
        ring

end Codec

/-- `uleb128_encode` writes `uleb128_size` bytes and nothing else, and `uleb128_decode` reads
them back. On arbitrary bytes it throws or gives the value of the digits, and it never reads
outside the buffer. -/
theorem uleb128_codec {w : ℕ} (hw : w ∈ [8, 16, 32, 64]) :
    (∀ (value : BitVec w) (buf : Bytes) (offset : ℕ), offset + uleb128Size value ≤ buf.length →
      ∃ bytes, bytes.length = uleb128Size value ∧ uleb128Encode value buf offset =
          .ok (writeAt buf offset bytes, offset + uleb128Size value) ∧
        uleb128Decode w (writeAt buf offset bytes) offset =
          .ok (value, offset + uleb128Size value)) ∧
    ∀ (buf : Bytes) (offset : ℕ), match uleb128Decode w buf offset with
      | .error e => e.Thrown
      | .ok (value, next) => ∃ ds, buf.drop offset = ds ++ buf.drop next ∧
          next = offset + ds.length ∧ Leb128.Complete ds ∧ value.toNat = Leb128.value ds := by
  obtain ⟨hw8, hw7⟩ : 8 ≤ w ∧ w % 7 ≠ 0 := by
    simp only [mem_cons, not_mem_nil, or_false] at hw
    omega
  constructor
  · intro value buf offset hroom
    rw [uleb128Size_eq] at hroom ⊢
    refine ⟨Leb128.encode value.toNat, rfl, uleb128Encode_eq hw8 value buf hroom, ?_⟩
    have hpos := Leb128.encode_pos value.toNat
    have hlen := length_writeAt hroom
    have hdrop : (writeAt buf offset (Leb128.encode value.toNat)).drop offset =
        Leb128.encode value.toNat ++ buf.drop (offset + (Leb128.encode value.toNat).length) := by
      rw [writeAt, append_assoc, drop_append_of_le_length (by simp; omega),
        drop_take_self, nil_append]
    obtain ⟨v, hloop, hv⟩ : ∃ v : BitVec w, uleb128DecodeLoop (writeAt buf offset
        (Leb128.encode value.toNat)) offset 0 0 = .ok (v, _) ∧
        v.toNat = (0 : BitVec w).toNat + value.toNat * 2 ^ 0 :=
      uleb128DecodeLoop_encode hdrop (by omega) (by simp) value.isLt
    rw [uleb128Decode, if_neg (by omega), hloop]
    congr 2
    apply BitVec.eq_of_toNat_eq
    simpa using hv
  · intro buf offset
    rw [uleb128Decode]
    split_ifs with hend
    · exact .inl rfl
    · have hbyte : buf[offset]? = some buf[offset] := List.getElem?_eq_getElem (by omega)
      have hfit : Fitting w 0 0 buf[offset] := ⟨by omega, by simp, by omega⟩
      simpa using uleb128DecodeLoop_exact hw7 hbyte hfit rfl

/-- The value 300 of a 16-bit type takes two bytes. -/
theorem uleb128_codec_two_bytes :
    ∃ bytes, uleb128Encode (300 : BitVec 16) [1, 0, 0, 7] 1 = .ok (writeAt [1, 0, 0, 7] 1 bytes, 3) ∧
      uleb128Decode 16 (writeAt [1, 0, 0, 7] 1 bytes) 1 = .ok (300, 3) := by
  have hsize : uleb128Size (300 : BitVec 16) = 2 := by
    simp [uleb128Size, uleb128SizeLoop]
  obtain ⟨bytes, -, henc, hdec⟩ := (uleb128_codec (by decide : 16 ∈ [8, 16, 32, 64])).1 300
    [1, 0, 0, 7] 1 (by rw [hsize]; decide)
  rw [hsize] at henc hdec
  exact ⟨bytes, henc, hdec⟩

end Appstack.Galera
