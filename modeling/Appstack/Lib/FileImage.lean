import Mathlib

namespace Appstack.Lib

open Function List

structure FileImage (α : Type*) where
  byte : ℕ → α
  size : ℕ

namespace FileImage
variable {α : Type*} {m : FileImage α} {pos n k : ℕ} {a b : List α}

/-- The file after a transfer. Writing nothing does not move the end of the file. -/
def write (m : FileImage α) (pos : ℕ) (buf : List α) : FileImage α where
  byte i := if pos ≤ i then buf[i - pos]?.getD (m.byte i) else m.byte i
  size := if buf.isEmpty then m.size else max m.size (pos + buf.length)

/-- The bytes of a transfer, as far as the file has them. -/
def read (m : FileImage α) (n pos : ℕ) : List α :=
  (List.range (min n (m.size - pos))).map fun i => m.byte (pos + i)

@[ext] theorem ext {m m' : FileImage α} (hb : ∀ i, m.byte i = m'.byte i) (hs : m.size = m'.size) :
    m = m' := by
  cases m
  cases m'
  obtain rfl := funext hb
  obtain rfl := hs
  rfl

@[simp] theorem write_nil : m.write pos [] = m := by
  ext i
  · simp [write]
  · rfl

theorem size_le_write : m.size ≤ (m.write pos a).size := by
  rw [write]
  dsimp only
  split_ifs
  · exact le_rfl
  · exact le_max_left _ _

theorem write_byte_of_lt {i : ℕ} (hi : i < pos) : (m.write pos a).byte i = m.byte i :=
  if_neg (by omega)

theorem write_write (hk : k ≤ a.length) :
    (m.write pos a).write (pos + k) b = m.write pos (a.take k ++ b ++ a.drop (k + b.length)) := by
  ext i
  · simp only [write]
    by_cases hi : pos ≤ i
    · rw [if_pos hi, if_pos hi, List.getElem?_append, List.getElem?_append, List.getElem?_take,
        List.getElem?_drop, List.length_append, List.length_take, min_eq_left hk]
      by_cases hki : pos + k ≤ i
      · rw [if_pos hki, if_neg (by omega : ¬ i - pos < k), show i - (pos + k) = i - pos - k by omega]
        by_cases hb : i - pos < k + b.length
        · rw [if_pos hb, List.getElem?_eq_getElem (by omega : i - pos - k < b.length)]
          rfl
        · rw [if_neg hb, List.getElem?_eq_none (by omega : b.length ≤ i - pos - k),
            show k + b.length + (i - pos - (k + b.length)) = i - pos by omega]
          rfl
      · rw [if_neg hki, if_pos (by omega : i - pos < k + b.length), if_pos (by omega : i - pos < k)]
        simp [show i - pos < k by omega]
    · rw [if_neg hi, if_neg hi, if_neg (by omega)]
  · simp only [write, List.isEmpty_iff, List.append_eq_nil_iff, List.length_append,
      List.length_take, List.length_drop, List.take_eq_nil_iff, List.drop_eq_nil_iff, min_eq_left hk]
    by_cases ha : a = [] <;> by_cases hb : b = [] <;> simp [ha, hb] <;> grind

theorem write_append : (m.write pos a).write (pos + a.length) b = m.write pos (a ++ b) := by
  rw [write_write le_rfl, take_length, drop_eq_nil_of_le (by omega), append_nil]

theorem write_take_write (hn : n ≤ a.length) :
    (m.write pos (a.take n)).write (pos + n) ((a.drop n).take k) = m.write pos (a.take (n + k)) := by
  have htake : (a.take n).length = n := by
    rw [List.length_take]
    omega
  nth_rewrite 2 [← htake]
  rw [write_append, ← take_add]

theorem length_read : (m.read n pos).length = min n (m.size - pos) := by
  rw [read, length_map, length_range]

theorem read_length_read : m.read (m.read n pos).length pos = m.read n pos := by
  rw [length_read, read, min_eq_left (min_le_right _ _), read]

theorem read_eq_nil (h : m.size ≤ pos) : m.read n pos = [] := by
  rw [read, Nat.sub_eq_zero_of_le h, Nat.min_zero]
  rfl

theorem read_add : m.read (n + k) pos = m.read n pos ++ m.read k (pos + n) := by
  have hlen : min (n + k) (m.size - pos) = min n (m.size - pos) + min k (m.size - (pos + n)) := by
    omega
  rw [read, hlen, range_add, map_append, map_map, read, read]
  congr 1
  refine map_congr_left fun i hi => ?_
  have hi : i < min k (m.size - (pos + n)) := mem_range.mp hi
  rw [comp_apply, show pos + (min n (m.size - pos) + i) = pos + n + i by omega]

theorem read_write_of_le (h : pos + n ≤ m.size) (hk : pos + n ≤ k) :
    (m.write k a).read n pos = m.read n pos := by
  have hsize : m.size ≤ (m.write k a).size := size_le_write
  rw [read, read, min_eq_left (by omega), min_eq_left (by omega)]
  refine map_congr_left fun i hi => ?_
  exact write_byte_of_lt (by have := mem_range.mp hi; omega)

theorem take_read : (m.read n pos).take k = m.read (min k n) pos := by
  rw [read, ← map_take, take_range, read]
  congr 2
  omega

theorem drop_read (hk : k ≤ n) : (m.read n pos).drop k = m.read (n - k) (pos + k) := by
  obtain ⟨j, rfl⟩ := Nat.exists_eq_add_of_le hk
  rw [read_add, Nat.add_sub_cancel_left]
  by_cases h : pos + k ≤ m.size
  · rw [drop_left' (by rw [length_read]; omega)]
  · have hnil : m.read j (pos + k) = [] := read_eq_nil (by omega)
    rw [hnil, append_nil, drop_eq_nil_of_le (by rw [length_read]; omega)]

end FileImage

end Appstack.Lib
