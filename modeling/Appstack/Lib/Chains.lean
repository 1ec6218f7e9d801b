import Mathlib

namespace Appstack.Lib.Chains

open Function List

variable {π κ ι : Type*} [DecidableEq κ] (key : ι → κ)

def lookup (k : κ) (l : List ι) : Option ι := l.find? fun x => key x = k

/-- The chain without its first entry for `k`. -/
def remove (k : κ) (l : List ι) : List ι := l.eraseP fun x => key x = k

/-- The chain with `f` applied to the entries for `k`. -/
def modify (k : κ) (f : ι → ι) (l : List ι) : List ι := l.map fun x => if key x = k then f x else x

variable {key} {k k' : κ} {x : ι} {l l' : List ι}

theorem lookup_cons_self (x : ι) (l : List ι) : lookup key (key x) (x :: l) = some x := by
  simp [lookup]

theorem lookup_cons_of_ne (h : key x ≠ k) : lookup key k (x :: l) = lookup key k l := by
  simp [lookup, h]

theorem lookup_eq_none : lookup key k l = none ↔ ∀ x ∈ l, key x ≠ k := by
  simp [lookup]

theorem key_of_lookup (h : lookup key k l = some x) : key x = k := by
  simpa using List.find?_some h

theorem mem_of_lookup (h : lookup key k l = some x) : x ∈ l := mem_of_find?_eq_some h

theorem lookup_eq_some (hl : (l.map key).Nodup) :
    lookup key k l = some x ↔ x ∈ l ∧ key x = k := by
  constructor
  · intro h
    exact ⟨mem_of_lookup h, key_of_lookup h⟩
  · rintro ⟨hx, hk⟩
    cases hlk : lookup key k l with
    | none => exact absurd hk (lookup_eq_none.mp hlk x hx)
    | some y =>
      have hy := key_of_lookup hlk
      rw [inj_on_of_nodup_map hl (mem_of_lookup hlk) hx (hy.trans hk.symm)]

theorem lookup_congr (hl : (l.map key).Nodup) (hl' : (l'.map key).Nodup)
    (h : ∀ x, key x = k → (x ∈ l ↔ x ∈ l')) : lookup key k l = lookup key k l' := by
  apply Option.ext
  intro x
  rw [lookup_eq_some hl, lookup_eq_some hl']
  constructor
  · rintro ⟨hx, hk⟩
    exact ⟨(h x hk).mp hx, hk⟩
  · rintro ⟨hx, hk⟩
    exact ⟨(h x hk).mpr hx, hk⟩

theorem mem_remove (hl : (l.map key).Nodup) : x ∈ remove key k l ↔ x ∈ l ∧ key x ≠ k := by
  induction l with
  | nil => simp [remove]
  | cons y l ih =>
    rw [map_cons, nodup_cons] at hl
    by_cases hy : key y = k
    · have hrem : remove key k (y :: l) = l := by simp [remove, hy]
      rw [hrem]
      constructor
      · intro hx
        refine ⟨mem_cons_of_mem _ hx, ?_⟩
        intro hk
        exact hl.1 (mem_map.mpr ⟨x, hx, hk.trans hy.symm⟩)
      · rintro ⟨hx, hk⟩
        rcases mem_cons.mp hx with rfl | hx
        · exact absurd hy hk
        · exact hx
    · have hrem : remove key k (y :: l) = y :: remove key k l := by simp [remove, hy]
      rw [hrem, mem_cons, mem_cons, ih hl.2]
      constructor
      · rintro (rfl | ⟨hx, hk⟩)
        · exact ⟨.inl rfl, hy⟩
        · exact ⟨.inr hx, hk⟩
      · rintro ⟨rfl | hx, hk⟩
        · exact .inl rfl
        · exact .inr ⟨hx, hk⟩

theorem nodup_remove (k : κ) (hl : (l.map key).Nodup) : ((remove key k l).map key).Nodup :=
  hl.sublist (eraseP_sublist.map key)

theorem length_remove (h : lookup key k l = some x) :
    (remove key k l).length + 1 = l.length := by
  have hx := mem_of_lookup h
  have hlen := length_eraseP_of_mem (p := fun x => decide (key x = k)) hx
    (by simpa using key_of_lookup h)
  have hpos := length_pos_of_mem hx
  rw [remove, hlen]
  omega

theorem lookup_remove_self (hl : (l.map key).Nodup) : lookup key k (remove key k l) = none := by
  rw [lookup_eq_none]
  intro x hx
  exact ((mem_remove hl).mp hx).2

theorem lookup_remove_of_ne (hl : (l.map key).Nodup) (h : k' ≠ k) :
    lookup key k' (remove key k l) = lookup key k' l := by
  apply lookup_congr (nodup_remove k hl) hl
  intro x hx
  rw [mem_remove hl]
  exact ⟨fun h' => h'.1, fun h' => ⟨h', fun hk => h (hx.symm.trans hk)⟩⟩

section
variable {f : ι → ι} (hf : ∀ x, key x = k → key (f x) = k)
include hf

theorem map_key_modify : (modify key k f l).map key = l.map key := by
  rw [modify, map_map]
  apply map_congr_left
  intro x _
  by_cases hx : key x = k
  · simp [hx, hf x hx]
  · simp [hx]

theorem lookup_modify_self : lookup key k (modify key k f l) = (lookup key k l).map f := by
  induction l with
  | nil => rfl
  | cons x l ih =>
    by_cases hx : key x = k
    · simp [modify, lookup, hx, hf x hx]
    · simpa [modify, lookup, hx] using ih

theorem lookup_modify_of_ne (h : k' ≠ k) : lookup key k' (modify key k f l) = lookup key k' l := by
  induction l with
  | nil => rfl
  | cons x l ih =>
    by_cases hx : key x = k
    · have hne : k ≠ k' := h.symm
      simpa [modify, lookup, hx, hf x hx, hne] using ih
    · by_cases hx' : key x = k'
      · simp [modify, lookup, hx', h]
      · simpa [modify, lookup, hx, hx'] using ih

end

/-- The list around its first entry for `k`: what an iterator that rests on the entry can reach by
stepping back and forth. -/
def split (key : ι → κ) (k : κ) : List ι → Option (List ι × ι × List ι)
  | [] => none
  | x :: l =>
    if key x = k then some ([], x, l)
    else (split key k l).map fun (a, y, b) => (x :: a, y, b)

theorem eq_of_split {a b : List ι} (h : split key k l = some (a, x, b)) :
    l = a ++ x :: b ∧ key x = k := by
  induction l generalizing a with
  | nil => cases h
  | cons y l ih =>
    rw [split] at h
    by_cases hy : key y = k
    · rw [if_pos hy, Option.some.injEq] at h
      cases h
      exact ⟨rfl, hy⟩
    · rw [if_neg hy, Option.map_eq_some_iff] at h
      obtain ⟨⟨a', x', b'⟩, hs, he⟩ := h
      cases he
      obtain ⟨rfl, hk⟩ := ih hs
      exact ⟨rfl, hk⟩

theorem split_eq_none : split key k l = none ↔ ∀ x ∈ l, key x ≠ k := by
  induction l with
  | nil => simp [split]
  | cons y l ih =>
    rw [split]
    by_cases hy : key y = k
    · simp [hy]
    · simp [hy, ih]

variable [DecidableEq π]

/-- The chains hold the entries of `l`, each once and in the chain of its key. -/
structure Placed (key : ι → κ) (home : κ → π) (chain : π → List ι) (l : List ι) : Prop where
  keys : (l.map key).Nodup
  nodup : ∀ p, ((chain p).map key).Nodup
  mem : ∀ p x, x ∈ chain p ↔ x ∈ l ∧ home (key x) = p

section
variable {home home' : κ → π} {chain chain' : π → List ι}

omit [DecidableEq π] in
theorem Placed.lookup_home (h : Placed key home chain l) (k : κ) :
    lookup key k (chain (home k)) = lookup key k l := by
  apply lookup_congr (h.nodup _) h.keys
  intro x hk
  rw [h.mem, hk]
  exact ⟨fun hx => hx.1, fun hx => ⟨hx, rfl⟩⟩

theorem Placed.insert (h : Placed key home chain l) (hx : lookup key (key x) l = none) :
    Placed key home (update chain (home (key x)) (x :: chain (home (key x)))) (x :: l) := by
  have hfresh : ∀ y ∈ l, key y ≠ key x := lookup_eq_none.mp hx
  have hcons : ∀ m : List ι, (m.map key).Nodup → m ⊆ l → ((x :: m).map key).Nodup := by
    intro m hm hsub
    rw [map_cons, nodup_cons]
    refine ⟨?_, hm⟩
    intro hmem
    obtain ⟨y, hy, hk⟩ := mem_map.mp hmem
    exact hfresh y (hsub hy) hk
  have hsub : ∀ p, chain p ⊆ l := fun p y hy => ((h.mem p y).mp hy).1
  refine ⟨hcons l h.keys (List.Subset.refl _), ?_, ?_⟩
  · intro p
    by_cases hp : p = home (key x)
    · subst hp
      rw [update_self]
      exact hcons _ (h.nodup _) (hsub _)
    · rw [update_of_ne hp]
      exact h.nodup p
  · intro p y
    by_cases hp : p = home (key x)
    · subst hp
      rw [update_self, mem_cons, mem_cons, h.mem]
      constructor
      · rintro (rfl | ⟨hy, hhome⟩)
        · exact ⟨.inl rfl, rfl⟩
        · exact ⟨.inr hy, hhome⟩
      · rintro ⟨rfl | hy, hhome⟩
        · exact .inl rfl
        · exact .inr ⟨hy, hhome⟩
    · rw [update_of_ne hp, h.mem, mem_cons]
      constructor
      · rintro ⟨hy, hhome⟩
        exact ⟨.inr hy, hhome⟩
      · rintro ⟨rfl | hy, hhome⟩
        · exact absurd hhome.symm hp
        · exact ⟨hy, hhome⟩

theorem Placed.remove (h : Placed key home chain l) (k : κ) :
    Placed key home (update chain (home k) (remove key k (chain (home k))))
      (remove key k l) := by
  refine ⟨nodup_remove k h.keys, ?_, ?_⟩
  · intro p
    by_cases hp : p = home k
    · subst hp
      rw [update_self]
      exact nodup_remove k (h.nodup _)
    · rw [update_of_ne hp]
      exact h.nodup p
  · intro p y
    rw [mem_remove h.keys]
    by_cases hp : p = home k
    · subst hp
      rw [update_self, mem_remove (h.nodup _), h.mem]
      tauto
    · rw [update_of_ne hp, h.mem]
      constructor
      · rintro ⟨hy, rfl⟩
        refine ⟨⟨hy, ?_⟩, rfl⟩
        intro hk
        exact hp (congrArg home hk)
      · rintro ⟨⟨hy, _⟩, hhome⟩
        exact ⟨hy, hhome⟩

omit [DecidableEq κ] [DecidableEq π]

theorem Placed.rehome (h : Placed key home chain l) (hnodup : ∀ p, ((chain' p).map key).Nodup)
    (hmem : ∀ p x, x ∈ chain' p ↔ x ∈ chain (home (key x)) ∧ home' (key x) = p) :
    Placed key home' chain' l := by
  refine ⟨h.keys, hnodup, ?_⟩
  intro p x
  rw [hmem, h.mem]
  tauto

theorem Placed.unique (h : Placed key home chain l) {p : π} (hx : x ∈ chain p) :
    p = home (key x) := ((h.mem p x).mp hx).2.symm

end

end Appstack.Lib.Chains
