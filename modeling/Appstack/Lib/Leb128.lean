import Mathlib

namespace Appstack.Lib.Leb128

/-- The shortest representation of a number. -/
def encode (n : ℕ) : List UInt8 :=
  if n < 128 then [UInt8.ofNat n] else UInt8.ofNat (n % 128 + 128) :: encode (n / 128)
decreasing_by omega

/-- The number that the low seven bits of the bytes are the digits of. -/
def value : List UInt8 → ℕ
  | [] => 0
  | b :: bs => b.toNat % 128 + 128 * value bs

/-- The high bit is set on every byte but the last. -/
def Complete : List UInt8 → Prop
  | [] => False
  | b :: bs => if b.toNat < 128 then bs = [] else Complete bs

theorem encode_of_lt {n : ℕ} (h : n < 128) : encode n = [UInt8.ofNat n] := by
  rw [encode, if_pos h]

theorem encode_of_le {n : ℕ} (h : 128 ≤ n) :
    encode n = UInt8.ofNat (n % 128 + 128) :: encode (n / 128) := by
  rw [encode, if_neg (by omega)]

theorem encode_pos (n : ℕ) : 0 < (encode n).length := by
  rcases Nat.lt_or_ge n 128 with h | h
  · simp [encode_of_lt h]
  · simp [encode_of_le h]

theorem head_encode (n : ℕ) :
    ∃ bs, encode n = UInt8.ofNat (if n < 128 then n else n % 128 + 128) :: bs := by
  rcases Nat.lt_or_ge n 128 with h | h
  · exact ⟨[], by rw [encode_of_lt h, if_pos h]⟩
  · exact ⟨_, by rw [encode_of_le h, if_neg (by omega)]⟩

end Appstack.Lib.Leb128
