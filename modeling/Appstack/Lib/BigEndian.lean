import Mathlib

namespace Appstack.BigEndian

/-- The low `w` bytes of `n`, most significant first. -/
def encode : ℕ → ℕ → List UInt8
  | 0, _ => []
  | w + 1, n => encode w (n / 256) ++ [UInt8.ofNat n]

def decode (bs : List UInt8) : ℕ := bs.foldl (fun acc b => acc * 256 + b.toNat) 0

@[simp] theorem length_encode (w n : ℕ) : (encode w n).length = w := by
  induction w generalizing n with
  | zero => rfl
  | succ w ih => simp [encode, ih]

theorem take_encode_append (w n : ℕ) (l : List UInt8) : (encode w n ++ l).take w = encode w n :=
  List.take_left' (length_encode w n)

theorem drop_encode_append (w n : ℕ) (l : List UInt8) : (encode w n ++ l).drop w = l :=
  List.drop_left' (length_encode w n)

@[simp] theorem decode_append_singleton (bs : List UInt8) (b : UInt8) :
    decode (bs ++ [b]) = decode bs * 256 + b.toNat := by
  simp [decode]

theorem decode_lt (bs : List UInt8) : decode bs < 256 ^ bs.length := by
  induction bs using List.reverseRecOn with
  | nil => simp [decode]
  | append_singleton bs b ih =>
    have hb : b.toNat < 256 := b.toNat_lt
    rw [decode_append_singleton, List.length_append, List.length_singleton, pow_succ]
    omega

@[simp] theorem decode_encode (w n : ℕ) : decode (encode w n) = n % 256 ^ w := by
  induction w generalizing n with
  | zero => simp [encode, decode, Nat.mod_one]
  | succ w ih =>
    have hm : n % (256 * 256 ^ w) = n % 256 + 256 * (n / 256 % 256 ^ w) := Nat.mod_mul
    rw [encode, decode_append_singleton, ih, UInt8.toNat_ofNat', pow_succ' 256 w, hm]
    omega

theorem decode_encode_of_lt {w n : ℕ} (h : n < 256 ^ w) : decode (encode w n) = n := by
  rw [decode_encode, Nat.mod_eq_of_lt h]

theorem encode_mod (w n : ℕ) : encode w (n % 256 ^ w) = encode w n := by
  induction w generalizing n with
  | zero => rfl
  | succ w ih =>
    have hd : n % 256 ^ (w + 1) / 256 = n / 256 % 256 ^ w := by
      rw [pow_succ', Nat.mod_mul_right_div_self]
    have hm : UInt8.ofNat (n % 256 ^ (w + 1)) = UInt8.ofNat n := by
      apply UInt8.toNat_inj.mp
      simp only [UInt8.toNat_ofNat']
      rw [pow_succ']
      exact Nat.mod_mul_right_mod n 256 (256 ^ w)
    rw [encode, encode, hd, ih, hm]

end Appstack.BigEndian
