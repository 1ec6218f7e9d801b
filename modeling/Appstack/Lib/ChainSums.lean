import Appstack.Lib.Chains

namespace Appstack.Lib.Chains

open Function List

variable {κ ι : Type*} [DecidableEq κ] {key : ι → κ} (w : ι → ℤ)

/-- The weight of the entries of the first `n` chains. -/
def total (n : ℕ) (values : ℕ → List ι) : ℤ := ∑ b ∈ Finset.range n, ((values b).map w).sum

variable {b n : ℕ} {values : ℕ → List ι} {chain l : List ι} {k : κ} {x : ι}

theorem total_update (hb : b < n) :
    total w n (update values b chain) =
      total w n values - ((values b).map w).sum + (chain.map w).sum := by
  have hmem : b ∈ Finset.range n := Finset.mem_range.mpr hb
  have hsum : ∀ c, ((update values b chain c).map w).sum =
      update (fun c => ((values c).map w).sum) b (chain.map w).sum c := by
    intro c
    by_cases hc : c = b
    · subst hc
      rw [update_self, update_self]
    · rw [update_of_ne hc, update_of_ne hc]
  have hold : total w n values = ((values b).map w).sum +
      ∑ c ∈ Finset.range n \ {b}, ((values c).map w).sum := by
    rw [total, ← Finset.add_sum_erase _ _ hmem, Finset.sdiff_singleton_eq_erase]
  rw [total, Finset.sum_congr rfl fun c _ => hsum c, Finset.sum_update_of_mem hmem, hold]
  ring

theorem total_empty : total w n (fun _ => []) = 0 := by
  simp [total]

theorem sum_modify (hl : (l.map key).Nodup) (h : lookup key k l = some x) (y : ι) :
    ((modify key k (fun _ => y) l).map w).sum = (l.map w).sum - w x + w y := by
  induction l with
  | nil => cases h
  | cons z l ih =>
    rw [map_cons, nodup_cons] at hl
    rw [modify, map_cons, map_cons, sum_cons, map_cons, sum_cons]
    by_cases hz : key z = k
    · subst hz
      rw [lookup_cons_self] at h
      obtain rfl := Option.some.inj h
      -- no other entry has the key
      have hrest : (l.map fun u => if key u = key z then y else u) = l := by
        conv_rhs => rw [← map_id l]
        apply map_congr_left
        intro u hu
        rw [if_neg fun heq => hl.1 (mem_map.mpr ⟨u, hu, heq⟩)]
        rfl
      rw [hrest, if_pos rfl]
      ring
    · rw [lookup_cons_of_ne hz] at h
      have hrest := ih hl.2 h
      rw [modify] at hrest
      rw [hrest, if_neg hz]
      ring

theorem sum_remove (h : lookup key k l = some x) :
    ((remove key k l).map w).sum = (l.map w).sum - w x := by
  induction l with
  | nil => cases h
  | cons z l ih =>
    by_cases hz : key z = k
    · subst hz
      rw [lookup_cons_self] at h
      cases h
      simp [remove]
    · rw [lookup_cons_of_ne hz] at h
      have hrem : remove key k (z :: l) = z :: remove key k l := by simp [remove, hz]
      rw [hrem, map_cons, sum_cons, ih h, map_cons, sum_cons]
      ring

/-- The entries of a list, one after the other at the head of their chains. -/
def fill (home : ι → ℕ) (l : List ι) (values : ℕ → List ι) : ℕ → List ι :=
  l.foldl (fun vs x => update vs (home x) (x :: vs (home x))) values

variable {home : ι → ℕ}

theorem fill_cons : fill home (x :: l) values =
    fill home l (update values (home x) (x :: values (home x))) := rfl

theorem fill_apply (c : ℕ) :
    fill home l values c = (l.filter fun x => home x = c).reverse ++ values c := by
  induction l generalizing values with
  | nil => rfl
  | cons x l ih =>
    rw [fill_cons, ih]
    by_cases hx : home x = c
    · subst hx
      rw [update_self, filter_cons_of_pos (by simp)]
      simp
    · rw [update_of_ne (Ne.symm hx), filter_cons_of_neg (by simpa using hx)]

theorem total_fill (hl : ∀ x ∈ l, home x < n) :
    total w n (fill home l values) = total w n values + (l.map w).sum := by
  induction l generalizing values with
  | nil => simp [fill]
  | cons x l ih =>
    rw [fill_cons, ih fun y hy => hl y (.tail _ hy),
      total_update w (hl x (.head _)), map_cons, map_cons, sum_cons,
      sum_cons]
    ring

/-- All entries, chain after chain. -/
def entries (n : ℕ) (values : ℕ → List ι) : List ι := (List.range n).flatMap values

theorem mem_entries : x ∈ entries n values ↔ ∃ b < n, x ∈ values b := by
  simp [entries]

theorem total_eq_sum_entries : total w n values = ((entries n values).map w).sum := by
  induction n with
  | zero => rfl
  | succ n ih =>
    rw [total, Finset.sum_range_succ, ← total, ih, entries, entries, range_succ,
      flatMap_append, map_append, sum_append, flatMap_singleton]

omit [DecidableEq κ] in
theorem nodup_entries (hhome : ∀ b, ∀ x ∈ values b, home x = b)
    (hkey : ∀ b, ((values b).map key).Nodup) (hinj : ∀ x y, key x = key y → home x = home y) :
    ((entries n values).map key).Nodup := by
  rw [entries, map_flatMap, nodup_flatMap]
  refine ⟨fun b _ => hkey b, ?_⟩
  apply nodup_range.imp
  intro b c hne
  rw [Function.onFun, disjoint_left]
  intro k hb hc
  obtain ⟨x, hx, rfl⟩ := mem_map.mp hb
  obtain ⟨y, hy, hxy⟩ := mem_map.mp hc
  exact hne ((hhome b x hx).symm.trans ((hinj x y hxy.symm).trans (hhome c y hy)))

end Appstack.Lib.Chains
