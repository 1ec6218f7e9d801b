import Mathlib

namespace Appstack.Lib.Areas

open Function List

/-- Two blocks that do not overlap. -/
def Apart (a la b lb : ℕ) : Prop := a + la ≤ b ∨ b + lb ≤ a

instance (a la b lb : ℕ) : Decidable (Apart a la b lb) := inferInstanceAs (Decidable (_ ∨ _))

variable {a la b lb x lx y ly n size : ℕ}

theorem Apart.symm (h : Apart a la b lb) : Apart b lb a la := Or.symm h

theorem Apart.within (h : Apart a la b lb) (hx : a ≤ x ∧ x + lx ≤ a + la)
    (hy : b ≤ y ∧ y + ly ≤ b + lb) : Apart x lx y ly := by
  unfold Apart at *
  omega

/-- The cells of a block at `a`. -/
def cells (n size a : ℕ) : List ℕ := (List.range n).map (a + · * size)

@[simp] theorem cells_zero : cells 0 size a = [] := rfl

@[simp] theorem length_cells : (cells n size a).length = n := by
  simp [cells]

theorem cells_succ : cells (n + 1) size a = a :: cells n size (a + size) := by
  rw [cells, range_succ_eq_map, map_cons, map_map, cells]
  congr 1
  · ring
  · refine map_congr_left fun i _ => ?_
    simp only [comp_apply, Nat.succ_eq_add_one]
    ring

theorem within_of_mem_cells (hx : x ∈ cells n size a) : a ≤ x ∧ x + size ≤ a + n * size := by
  obtain ⟨i, hi, rfl⟩ := mem_map.mp hx
  have hle : (i + 1) * size ≤ n * size := Nat.mul_le_mul_right _ (mem_range.mp hi)
  rw [add_one_mul] at hle
  omega

theorem pairwise_cells : (cells n size a).Pairwise (Apart · size · size) := by
  induction n generalizing a with
  | zero => exact .nil
  | succ n ih =>
    rw [cells_succ]
    exact .cons (fun x hx => .inl (within_of_mem_cells hx).1) ih

theorem pairwise_flatMap_cells {blocks : List ℕ}
    (h : blocks.Pairwise (Apart · (n * size) · (n * size))) :
    (blocks.flatMap (cells n size)).Pairwise (Apart · size · size) := by
  refine pairwise_flatMap.mpr ⟨fun a _ => pairwise_cells, h.imp fun hab x hx y hy => ?_⟩
  exact hab.within (within_of_mem_cells hx) (within_of_mem_cells hy)

theorem pairwise_of_filter {α β : Type*} [DecidableEq β] {R : α → α → Prop} (f : α → β)
    {l : List α} (hsame : ∀ i, (l.filter (f · = i)).Pairwise R)
    (hdiff : ∀ a ∈ l, ∀ b ∈ l, f a ≠ f b → R a b) : l.Pairwise R := by
  induction l with
  | nil => exact .nil
  | cons a l ih =>
    refine .cons (fun b hb => ?_) (ih (fun i => (hsame i).sublist ?_) fun b hb c hc =>
      hdiff b (.tail a hb) c (.tail a hc))
    · by_cases hab : f a = f b
      · have h := hsame (f a)
        rw [filter_cons_of_pos (by simp)] at h
        exact rel_of_pairwise_cons h (mem_filter.mpr ⟨hb, by simp [hab]⟩)
      · exact hdiff a (.head _) b (.tail a hb) hab
    · exact (sublist_cons_self a l).filter _

end Appstack.Lib.Areas
