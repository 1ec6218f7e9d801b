import Mathlib

namespace Appstack.BlockLayout

open List

variable {α : Type*} {B : ℕ} {f g : ℕ → α}

/-- The first data cell at or behind `pos`. -/
def skip (B pos : ℕ) : ℕ := if pos % B = 0 then pos + 1 else pos

/-- The position behind `n` cells of data that start at `pos`. -/
def finish (B : ℕ) : ℕ → ℕ → ℕ
  | pos, 0 => pos
  | pos, n + 1 => finish B (skip B pos + 1) n

/-- The data at `pos` is `xs`. -/
def Laid (B : ℕ) (f : ℕ → α) : ℕ → List α → Prop
  | _, [] => True
  | pos, x :: xs => f (skip B pos) = x ∧ Laid B f (skip B pos + 1) xs

theorem finish_zero (pos : ℕ) : finish B pos 0 = pos := rfl

theorem finish_succ (pos n : ℕ) : finish B pos (n + 1) = finish B (skip B pos + 1) n := rfl

theorem le_skip (pos : ℕ) : pos ≤ skip B pos := by
  unfold skip
  split <;> omega

theorem skip_of_ne {pos : ℕ} (h : pos % B ≠ 0) : skip B pos = pos := if_neg h

theorem skip_mod_ne (hB : 2 ≤ B) (pos : ℕ) : skip B pos % B ≠ 0 := by
  unfold skip
  split_ifs with h
  · rw [Nat.add_mod, h, Nat.mod_eq_of_lt (show 1 < B by omega), Nat.zero_add,
      Nat.mod_eq_of_lt (show 1 < B by omega)]
    omega
  · exact h

theorem skip_skip (hB : 2 ≤ B) (pos : ℕ) : skip B (skip B pos) = skip B pos :=
  skip_of_ne (skip_mod_ne hB pos)

theorem finish_add (pos m n : ℕ) : finish B pos (m + n) = finish B (finish B pos m) n := by
  induction m generalizing pos with
  | zero => simp [finish_zero]
  | succ m ih => rw [Nat.succ_add, finish_succ, finish_succ, ih]

theorem add_le_finish (pos n : ℕ) : pos + n ≤ finish B pos n := by
  induction n generalizing pos with
  | zero => simp [finish_zero]
  | succ n ih =>
    have := ih (skip B pos + 1)
    have := le_skip (B := B) pos
    rw [finish_succ]
    omega

theorem finish_le (pos n : ℕ) : finish B pos n ≤ pos + 2 * n := by
  induction n generalizing pos with
  | zero => simp [finish_zero]
  | succ n ih =>
    have := ih (skip B pos + 1)
    have hskip : skip B pos ≤ pos + 1 := by
      unfold skip
      split <;> omega
    rw [finish_succ]
    omega

theorem finish_skip (hB : 2 ≤ B) (pos n : ℕ) :
    skip B (finish B (skip B pos) n) = skip B (finish B pos n) := by
  cases n with
  | zero => exact skip_skip hB pos
  | succ n => rw [finish_succ, finish_succ, skip_skip hB]

theorem finish_skip_of_pos (hB : 2 ≤ B) (pos : ℕ) {n : ℕ} (hn : 0 < n) :
    finish B (skip B pos) n = finish B pos n := by
  obtain ⟨n, rfl⟩ := Nat.exists_eq_add_of_lt hn
  rw [Nat.zero_add, finish_succ, finish_succ, skip_skip hB]

theorem laid_append (pos : ℕ) (xs ys : List α) :
    Laid B f pos (xs ++ ys) ↔ Laid B f pos xs ∧ Laid B f (finish B pos xs.length) ys := by
  induction xs generalizing pos with
  | nil => simp [Laid, finish_zero]
  | cons x xs ih => simp only [cons_append, Laid, ih, length_cons, finish_succ, and_assoc]

theorem laid_skip (hB : 2 ≤ B) (pos : ℕ) (xs : List α) :
    Laid B f (skip B pos) xs ↔ Laid B f pos xs := by
  cases xs with
  | nil => simp [Laid]
  | cons x xs => simp only [Laid, skip_skip hB]

theorem Laid.congr {pos : ℕ} {xs : List α} (h : Laid B f pos xs)
    (hfg : ∀ i, pos ≤ i → i < finish B pos xs.length → g i = f i) : Laid B g pos xs := by
  induction xs generalizing pos with
  | nil => trivial
  | cons x xs ih =>
    have hle := le_skip (B := B) pos
    have hfin := add_le_finish (B := B) (skip B pos + 1) xs.length
    rw [length_cons, finish_succ] at hfg
    refine ⟨(hfg _ hle (by omega)).trans h.1, ih h.2 fun i hi => hfg i (by omega)⟩

theorem Laid.eq_of_length {pos : ℕ} {xs ys : List α} (h : Laid B f pos xs) (h' : Laid B f pos ys)
    (hlen : xs.length = ys.length) : xs = ys := by
  induction xs generalizing pos ys with
  | nil => exact (length_eq_zero_iff.mp hlen.symm).symm
  | cons x xs ih =>
    cases ys with
    | nil => simp at hlen
    | cons y ys => rw [h.1.symm.trans h'.1, ih h.2 h'.2 (Nat.succ.inj hlen)]

theorem Laid.take {pos : ℕ} {xs : List α} (h : Laid B f pos xs) (n : ℕ) :
    Laid B f pos (xs.take n) := by
  rw [← take_append_drop n xs, laid_append] at h
  exact h.1

section Contiguous

variable {pos n : ℕ}

theorem finish_of_le (hpos : pos % B ≠ 0) (hn : pos % B + n ≤ B) : finish B pos n = pos + n := by
  induction n generalizing pos with
  | zero => rfl
  | succ n ih =>
    rw [finish_succ, skip_of_ne hpos]
    cases n with
    | zero => rfl
    | succ n =>
      have hmod : (pos + 1) % B = pos % B + 1 := Nat.mod_eq_of_lt (show pos % B + 1 < B by omega) ▸
        (Nat.mod_add_mod pos B 1).symm
      rw [ih (by omega) (by omega)]
      omega

theorem laid_of_le {xs : List α} (hpos : pos % B ≠ 0) (hn : pos % B + xs.length ≤ B) :
    Laid B f pos xs ↔ ∀ i < xs.length, xs[i]? = some (f (pos + i)) := by
  induction xs generalizing pos with
  | nil => simp [Laid]
  | cons x xs ih =>
    rw [length_cons] at hn
    have htail : Laid B f (pos + 1) xs ↔ ∀ i < xs.length, xs[i]? = some (f (pos + 1 + i)) := by
      cases xs with
      | nil => simp [Laid]
      | cons y ys =>
        rw [length_cons] at hn
        have hmod : (pos + 1) % B = pos % B + 1 :=
          Nat.mod_eq_of_lt (show pos % B + 1 < B by omega) ▸ (Nat.mod_add_mod pos B 1).symm
        exact ih (by omega) (by rw [length_cons]; omega)
    rw [Laid, skip_of_ne hpos, htail]
    constructor
    · rintro ⟨h0, hs⟩ i hi
      cases i with
      | zero => simp [h0]
      | succ i => simpa [Nat.add_assoc, Nat.add_comm 1] using hs i (by simpa using hi)
    · intro h
      refine ⟨by simpa [eq_comm] using h 0 (by simp), fun i hi => ?_⟩
      simpa [Nat.add_assoc, Nat.add_comm 1] using h (i + 1) (by simpa using hi)

end Contiguous

end Appstack.BlockLayout
