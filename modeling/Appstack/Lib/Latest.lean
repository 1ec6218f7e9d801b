import Mathlib

namespace Appstack

open List

variable {α : Type*}

/-- The last entry of a history with a property. -/
def latest (p : α → Bool) (l : List α) : Option α := (l.filter p).getLast?

variable {p : α → Bool} {l : List α}

theorem latest_append_singleton (p : α → Bool) (l : List α) (a : α) :
    latest p (l ++ [a]) = if p a then some a else latest p l := by
  unfold latest
  rw [filter_append]
  by_cases h : p a = true
  · rw [if_pos h, filter_cons_of_pos h, filter_nil, List.getLast?_concat]
  · rw [if_neg h, filter_cons_of_neg h, filter_nil, append_nil]

variable {g : α → ℤ} {a : α}

theorem mem_of_latest (h : latest p l = some a) : a ∈ l ∧ p a = true :=
  mem_filter.mp (mem_of_getLast? h)

theorem exists_latest (ha : a ∈ l) (hp : p a = true) : ∃ b, latest p l = some b := by
  have hne : l.filter p ≠ [] := ne_nil_of_mem (mem_filter.mpr ⟨ha, hp⟩)
  exact ⟨_, List.getLast?_eq_some_getLast hne⟩

theorem le_latest (hs : l.Pairwise fun a b => g a < g b) {b : α} (ha : a ∈ l)
    (hp : p a = true) (hb : latest p l = some b) : g a ≤ g b := by
  induction l using List.reverseRecOn with
  | nil => simp at ha
  | append_singleton l c ih =>
    rw [pairwise_append] at hs
    rw [latest_append_singleton] at hb
    by_cases hc : p c = true
    · rw [if_pos hc] at hb
      obtain rfl := Option.some.inj hb
      rcases mem_append.mp ha with ha | ha
      · exact (hs.2.2 a ha c (mem_singleton_self c)).le
      · rw [mem_singleton.mp ha]
    · rw [if_neg hc] at hb
      rcases mem_append.mp ha with ha | ha
      · exact ih hs.1 ha hb
      · rw [mem_singleton.mp ha] at hp
        exact absurd hp hc

theorem rel_of_lt {R : α → α → Prop} (hR : l.Pairwise R)
    (hs : l.Pairwise fun a b => g a < g b) {b : α} (ha : a ∈ l) (hb : b ∈ l)
    (hab : g a < g b) : R a b := by
  rw [pairwise_iff_getElem] at hR hs
  obtain ⟨i, hi, rfl⟩ := mem_iff_getElem.mp ha
  obtain ⟨j, hj, rfl⟩ := mem_iff_getElem.mp hb
  apply hR i j hi hj
  by_contra hij
  rcases Nat.eq_or_lt_of_le (Nat.not_lt.mp hij) with rfl | hji
  · exact lt_irrefl _ hab
  · exact lt_asymm hab (hs j i hj hi hji)

theorem eq_of_num_eq (hs : l.Pairwise fun a b => g a < g b) {b : α} (ha : a ∈ l)
    (hb : b ∈ l) (hab : g a = g b) : a = b := by
  rw [pairwise_iff_getElem] at hs
  obtain ⟨i, hi, rfl⟩ := mem_iff_getElem.mp ha
  obtain ⟨j, hj, rfl⟩ := mem_iff_getElem.mp hb
  rcases Nat.lt_trichotomy i j with hij | rfl | hij
  · exact absurd hab (hs i j hi hj hij).ne
  · rfl
  · exact absurd hab (hs j i hj hi hij).ne'

end Appstack
