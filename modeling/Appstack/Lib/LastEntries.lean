import Mathlib

namespace Appstack

open List

variable {α κ : Type*} [DecidableEq κ] (key : α → κ)

def lastEntries : List α → List α
  | [] => []
  | a :: l => if key a ∈ l.map key then lastEntries l else a :: lastEntries l

variable {key}

theorem lastEntries_nil : lastEntries key [] = [] := rfl

theorem lastEntries_cons (a : α) (l : List α) : lastEntries key (a :: l) =
    if key a ∈ l.map key then lastEntries key l else a :: lastEntries key l := rfl

variable {l : List α}

theorem mem_of_mem_lastEntries {a : α} (h : a ∈ lastEntries key l) : a ∈ l := by
  induction l with
  | nil => exact h
  | cons b l ih =>
    rw [lastEntries_cons] at h
    split at h
    · exact .tail b (ih h)
    · rcases mem_cons.mp h with rfl | h
      · exact .head _
      · exact .tail b (ih h)

theorem exists_mem_lastEntries {k : κ} (h : k ∈ l.map key) :
    ∃ a ∈ lastEntries key l, key a = k := by
  induction l with
  | nil => simp at h
  | cons b l ih =>
    rw [lastEntries_cons]
    by_cases hk : k ∈ l.map key
    · obtain ⟨a, ha, hka⟩ := ih hk
      refine ⟨a, ?_, hka⟩
      split
      · exact ha
      · exact .tail b ha
    · have hb : key b = k := by
        rw [map_cons, mem_cons] at h
        exact (h.resolve_right hk).symm
      refine ⟨b, ?_, hb⟩
      rw [if_neg (hb ▸ hk)]
      exact .head _

theorem nodup_map_lastEntries (l : List α) : ((lastEntries key l).map key).Nodup := by
  induction l with
  | nil => exact nodup_nil
  | cons b l ih =>
    rw [lastEntries_cons]
    split
    next => exact ih
    next hb =>
      rw [map_cons, nodup_cons]
      refine ⟨?_, ih⟩
      intro h
      obtain ⟨a, ha, hab⟩ := mem_map.mp h
      exact hb (mem_map.mpr ⟨a, mem_of_mem_lastEntries ha, hab⟩)

theorem lastEntries_eq_self (h : (l.map key).Nodup) : lastEntries key l = l := by
  induction l with
  | nil => rfl
  | cons b l ih =>
    rw [map_cons, nodup_cons] at h
    rw [lastEntries_cons, if_neg h.1, ih h.2]

theorem mem_lastEntries_append {l' : List α} {a : α} : a ∈ lastEntries key (l ++ l') ↔
      a ∈ lastEntries key l' ∨ a ∈ lastEntries key l ∧ key a ∉ l'.map key := by
  induction l with
  | nil => simp [lastEntries_nil]
  | cons b l ih =>
    simp only [cons_append, lastEntries_cons, map_append, mem_append]
    by_cases hl : key b ∈ l.map key
    · rw [if_pos (.inl hl), if_pos hl, ih]
    · by_cases hl' : key b ∈ l'.map key
      · rw [if_pos (.inr hl'), if_neg hl, ih, mem_cons]
        constructor
        · rintro (h | h)
          · exact .inl h
          · exact .inr ⟨.inr h.1, h.2⟩
        · rintro (h | ⟨rfl | h, hne⟩)
          · exact .inl h
          · exact absurd hl' hne
          · exact .inr ⟨h, hne⟩
      · rw [if_neg (by tauto), if_neg hl, mem_cons, mem_cons, ih]
        constructor
        · rintro (rfl | h | h)
          · exact .inr ⟨.inl rfl, hl'⟩
          · exact .inl h
          · exact .inr ⟨.inr h.1, h.2⟩
        · rintro (h | ⟨h | h, hne⟩)
          · exact .inr (.inl h)
          · exact .inl h
          · exact .inr (.inr ⟨h, hne⟩)

theorem exists_getElem?_of_mem_lastEntries {a : α} (h : a ∈ lastEntries key l) :
    ∃ i : ℕ, l[i]? = some a ∧ ∀ j, i < j → ∀ b, l[j]? = some b → key b ≠ key a := by
  induction l with
  | nil => simp [lastEntries_nil] at h
  | cons c l ih =>
    rw [lastEntries_cons] at h
    have htail (h : a ∈ lastEntries key l) :
        ∃ i : ℕ, (c :: l)[i]? = some a ∧ ∀ j, i < j → ∀ b, (c :: l)[j]? = some b → key b ≠ key a := by
      obtain ⟨i, hi, hlast⟩ := ih h
      refine ⟨i + 1, by simpa using hi, ?_⟩
      intro j hj b hb
      cases j with
      | zero => omega
      | succ j => exact hlast j (by omega) b (by simpa using hb)
    split at h
    next => exact htail h
    next hc =>
      rcases mem_cons.mp h with rfl | h
      · refine ⟨0, rfl, ?_⟩
        intro j hj b hb hkey
        cases j with
        | zero => omega
        | succ j =>
          rw [List.getElem?_cons_succ] at hb
          exact hc (mem_map.mpr ⟨b, mem_of_getElem? hb, hkey⟩)
      · exact htail h

end Appstack
