import Mathlib

namespace Appstack.Lib

open List

theorem lookup_eq_some_iff {κ β : Type*} [DecidableEq κ] {l : List (κ × β)}
    (h : (l.map Prod.fst).Nodup) {k : κ} {b : β} :
    l.lookup k = some b ↔ (k, b) ∈ l := by
  induction l with
  | nil => simp
  | cons x l ih =>
    obtain ⟨k', b'⟩ := x
    rw [map_cons, nodup_cons] at h
    by_cases hk : k = k'
    · subst hk
      rw [lookup_cons_self, mem_cons, Option.some.injEq, Prod.mk.injEq]
      constructor
      · rintro rfl
        exact .inl ⟨rfl, rfl⟩
      · rintro (⟨-, rfl⟩ | hmem)
        · rfl
        · exact absurd (mem_map_of_mem hmem) h.1
    · have hkb : (k == k') = false := by simpa using hk
      rw [lookup_cons, hkb, mem_cons, Prod.mk.injEq]
      simp only [hk, false_and, false_or]
      exact ih h.2

abbrev Dict (κ β : Type*) := AList fun _ : κ => β

namespace Dict

variable {κ β γ : Type*}

structure Order (κ : Type*) where
  arrange : List κ → List κ
  perm : ∀ l, (arrange l).Perm l

def map (f : κ → β → γ) (d : Dict κ β) : Dict κ γ where
  entries := d.entries.map fun e => ⟨e.1, f e.1 e.2⟩
  nodupKeys := by
    have h := d.nodupKeys
    rw [List.NodupKeys, List.keys] at *
    rw [map_map]
    exact h

variable {k : κ} {d : Dict κ ℕ}

theorem mem_map {f : κ → β → γ} {d : Dict κ β} : k ∈ d.map f ↔ k ∈ d := by
  rw [AList.mem_keys, AList.mem_keys]
  simp [map, AList.keys, List.keys]

variable [DecidableEq κ]

theorem lookup_map (f : κ → β → γ) (d : Dict κ β) (k : κ) :
    (d.map f).lookup k = (d.lookup k).map (f k) := by
  obtain ⟨es, h⟩ := d
  simp only [map, AList.lookup]
  clear h
  induction es with
  | nil => rfl
  | cons e es ih =>
    obtain ⟨k', b⟩ := e
    rw [map_cons]
    by_cases hk : k = k'
    · subst hk
      simp
    · rw [dlookup_cons_ne _ _ hk, dlookup_cons_ne _ _ hk, ih]

/-- The entries in the order of a fold. -/
def inOrder (o : Order κ) (d : Dict κ β) : List (κ × β) :=
  (o.arrange d.keys).filterMap fun k => (d.lookup k).map (k, ·)

theorem mem_inOrder {o : Order κ} {d : Dict κ β} {e : κ × β} :
    e ∈ d.inOrder o ↔ d.lookup e.1 = some e.2 := by
  obtain ⟨k, b⟩ := e
  rw [inOrder, mem_filterMap]
  constructor
  · rintro ⟨k', -, h⟩
    obtain ⟨b', hb, heq⟩ := Option.map_eq_some_iff.mp h
    cases heq
    exact hb
  · intro h
    refine ⟨k, (o.perm d.keys).mem_iff.mpr ?_, by rw [h]; rfl⟩
    rw [← AList.mem_keys, ← AList.lookup_isSome, h]
    rfl

theorem nodup_inOrder (o : Order κ) (d : Dict κ β) : ((d.inOrder o).map Prod.fst).Nodup := by
  have hkeys : (o.arrange d.keys).Nodup := (o.perm d.keys).nodup_iff.mpr d.keys_nodup
  refine List.Nodup.sublist ?_ hkeys
  rw [inOrder, map_filterMap]
  -- dropping keys without a value and then the values leaves a part of the keys
  generalize o.arrange d.keys = ks
  induction ks with
  | nil => exact .slnil
  | cons k ks ih =>
    rw [filterMap_cons]
    cases d.lookup k with
    | none => exact ih.cons k
    | some b => exact ih.cons_cons k

/-- Append a value to the list under a key. -/
def append (d : Dict κ (List β)) (e : κ × β) : Dict κ (List β) :=
  AList.insert e.1 ((d.lookup e.1).getD [] ++ [e.2]) d

theorem mem_foldl_append {d : Dict κ (List β)} {es : List (κ × β)} :
    k ∈ es.foldl append d ↔ k ∈ d ∨ k ∈ es.map Prod.fst := by
  induction es generalizing d with
  | nil => simp
  | cons e es ih =>
    rw [foldl_cons, ih, append, AList.mem_insert, map_cons, mem_cons]
    tauto

theorem lookup_foldl_append (d : Dict κ (List β)) (es : List (κ × β)) (k : κ) :
    ((es.foldl append d).lookup k).getD [] =
      (d.lookup k).getD [] ++ (es.filter (·.1 = k)).map Prod.snd := by
  induction es generalizing d with
  | nil => simp
  | cons e es ih =>
    rw [foldl_cons, ih, append]
    by_cases hk : e.1 = k
    · subst hk
      simp
    · rw [AList.lookup_insert_ne (Ne.symm hk), filter_cons_of_neg (by simpa using hk)]

def bump (d : Dict κ ℕ) (k : κ) : Dict κ ℕ := AList.insert k ((d.lookup k).getD 0 + 1) d

theorem mem_foldl_bump {ks : List κ} : k ∈ ks.foldl bump d ↔ k ∈ d ∨ k ∈ ks := by
  induction ks generalizing d with
  | nil => simp
  | cons k' ks ih =>
    rw [foldl_cons, ih, bump, AList.mem_insert, mem_cons]
    tauto

theorem pos_foldl_bump (ks : List κ) (h : ∀ k c, d.lookup k = some c → 0 < c) {c : ℕ}
    (hc : (ks.foldl bump d).lookup k = some c) : 0 < c := by
  induction ks generalizing d with
  | nil => exact h k c hc
  | cons k' ks ih =>
    rw [foldl_cons] at hc
    refine ih ?_ hc
    intro k1 c1 h1
    by_cases hk : k1 = k'
    · subst hk
      rw [bump, AList.lookup_insert, Option.some.injEq] at h1
      omega
    · rw [bump, AList.lookup_insert_ne hk] at h1
      exact h k1 c1 h1

end Dict

end Appstack.Lib
