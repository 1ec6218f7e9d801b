import Mathlib

namespace Appstack.SortedMap
open Std List

variable {α β : Type*} {cmp : α → α → Ordering}

/-- What a batch does to one key. `keep` only looks at the binding. -/
inductive Edit (β : Type*) where
  | keep
  | erase
  | put (v : β)

/-- Keys strictly increasing. -/
def Sorted (cmp : α → α → Ordering) (m : List (α × β)) : Prop :=
  m.Pairwise fun a b => cmp a.1 b.1 = .lt

def get (cmp : α → α → Ordering) (m : List (α × β)) (k : α) : Option β :=
  (m.find? fun e => cmp e.1 k == .eq).map Prod.snd

/-- Two edits in the order a batch may hold them: by key, and on one key first
the `keep`s, then at most one `erase`, then at most one `put`. -/
def Precedes (cmp : α → α → Ordering) (a b : α × Edit β) : Prop :=
  cmp a.1 b.1 = .lt ∨ cmp a.1 b.1 = .eq ∧ match a.2, b.2 with
    | .keep, _ => True
    | .erase, .put _ => True
    | _, _ => False

/-- Edits in key order, with nothing said about those on one key. -/
def InOrder (cmp : α → α → Ordering) (acts : List (α × Edit β)) : Prop :=
  acts.Pairwise fun a b => (cmp a.1 b.1).isLE

/-- What one edit adds when the map has no binding for its key. -/
def Edit.fresh (a : α × Edit β) : List (α × β) :=
  match a.2 with
  | .put v => [(a.1, v)]
  | _ => []

/-- One pass over the bindings and the batch, both in key order. -/
def edit (cmp : α → α → Ordering) : List (α × β) → List (α × Edit β) → List (α × β)
  | m, [] => m
  | [], a :: acts => Edit.fresh a ++ edit cmp [] acts
  | e :: m, a :: acts =>
    match cmp e.1 a.1 with
    | .lt => e :: edit cmp m (a :: acts)
    | .gt => Edit.fresh a ++ edit cmp (e :: m) acts
    | .eq =>
      match a.2 with
      | .keep => edit cmp (e :: m) acts
      | .erase => edit cmp m acts
      | .put v => (a.1, v) :: edit cmp m acts
termination_by m acts => m.length + acts.length

section Step
attribute [local simp] edit

@[simp] theorem edit_nil (m : List (α × β)) : edit cmp m [] = m := by
  cases m <;> simp

theorem edit_nil_cons (a : α × Edit β) (acts : List (α × Edit β)) :
    edit cmp [] (a :: acts) = Edit.fresh a ++ edit cmp [] acts := by
  simp

variable {a : α × Edit β} {e : α × β}

theorem edit_cons_lt (h : cmp e.1 a.1 = .lt) (m : List (α × β)) (acts : List (α × Edit β)) :
    edit cmp (e :: m) (a :: acts) = e :: edit cmp m (a :: acts) := by
  simp [h]

theorem edit_cons_gt (h : cmp e.1 a.1 = .gt) (m : List (α × β)) (acts : List (α × Edit β)) :
    edit cmp (e :: m) (a :: acts) = Edit.fresh a ++ edit cmp (e :: m) acts := by
  simp [h]

theorem edit_cons_keep (h : cmp e.1 a.1 = .eq) (ha : a.2 = .keep)
    (m : List (α × β)) (acts : List (α × Edit β)) :
    edit cmp (e :: m) (a :: acts) = edit cmp (e :: m) acts := by
  simp [h, ha]

theorem edit_cons_erase (h : cmp e.1 a.1 = .eq) (ha : a.2 = .erase)
    (m : List (α × β)) (acts : List (α × Edit β)) :
    edit cmp (e :: m) (a :: acts) = edit cmp m acts := by
  simp [h, ha]

theorem edit_cons_put {v : β} (h : cmp e.1 a.1 = .eq)
    (ha : a.2 = .put v) (m : List (α × β)) (acts : List (α × Edit β)) :
    edit cmp (e :: m) (a :: acts) = (a.1, v) :: edit cmp m acts := by
  simp [h, ha]

end Step

/-- A batch adds to a sum over the bindings at most what it puts. -/
theorem sum_edit_le (f : α × β → ℕ) (m : List (α × β)) (acts : List (α × Edit β)) :
    ((edit cmp m acts).map f).sum ≤ (m.map f).sum + ((acts.flatMap Edit.fresh).map f).sum := by
  induction m, acts using edit.induct cmp with
  | case1 m => simp
  | case2 a acts ih => simpa [edit_nil_cons] using ih
  | case3 e m a acts h ih => simpa [edit_cons_lt h, Nat.add_assoc] using ih
  | case4 e m a acts h ih =>
    simp only [edit_cons_gt h, flatMap_cons, map_append, sum_append]
    omega
  | case5 e m a acts h ha ih =>
    simp only [edit_cons_keep h ha, flatMap_cons, map_append, sum_append]
    omega
  | case6 e m a acts h ha ih =>
    simp only [edit_cons_erase h ha, flatMap_cons, map_append, sum_append, map_cons, sum_cons]
    omega
  | case7 e m a acts h v ha ih =>
    simp only [edit_cons_put h ha, flatMap_cons, map_cons, sum_cons, Edit.fresh, ha,
      singleton_append]
    omega

/-- The batch splits where the bindings do: what lies below the cut is edited by
the edits below it, and the rest by the rest. -/
theorem edit_append (m1 m2 : List (α × β)) (acts1 acts2 : List (α × Edit β))
    (h1 : ∀ e ∈ m1, ∀ a ∈ acts2, cmp e.1 a.1 = .lt)
    (h2 : ∀ e ∈ m2, ∀ a ∈ acts1, cmp e.1 a.1 = .gt) :
    edit cmp (m1 ++ m2) (acts1 ++ acts2) = edit cmp m1 acts1 ++ edit cmp m2 acts2 := by
  induction m1, acts1 using edit.induct cmp with
  | case1 m =>
    -- no edits below the cut: the bindings below it pass through
    induction m with
    | nil => simp
    | cons e m ih =>
      cases acts2 with
      | nil => simp
      | cons a acts2 =>
        have ha : cmp e.1 a.1 = .lt := h1 e (by simp) a (by simp)
        have hm := ih (fun e he => h1 e (by simp [he]))
        simp only [nil_append, edit_nil, cons_append] at hm ⊢
        rw [edit_cons_lt ha, hm]
  | case2 a acts ih =>
    have hm := ih (by simp) (fun e he b hb => h2 e he b (by simp [hb]))
    simp only [nil_append, cons_append] at hm ⊢
    rw [edit_nil_cons, append_assoc, ← hm]
    cases m2 with
    | nil => rw [edit_nil_cons]
    | cons e m2 => rw [edit_cons_gt (h2 e (by simp) a (by simp))]
  | case3 e m a acts h ih =>
    rw [edit_cons_lt h, cons_append, cons_append, edit_cons_lt h, cons_append]
    rw [← cons_append, ih (fun e he => h1 e (by simp [he])) h2]
  | case4 e m a acts h ih =>
    rw [edit_cons_gt h, cons_append, cons_append, edit_cons_gt h, append_assoc]
    rw [← cons_append, ih h1 (fun e he b hb => h2 e he b (by simp [hb]))]
  | case5 e m a acts h hk ih =>
    rw [edit_cons_keep h hk, cons_append, cons_append, edit_cons_keep h hk]
    exact ih h1 (fun e he b hb => h2 e he b (by simp [hb]))
  | case6 e m a acts h hk ih =>
    rw [edit_cons_erase h hk, cons_append, cons_append, edit_cons_erase h hk]
    exact ih (fun e he => h1 e (by simp [he])) (fun e he b hb => h2 e he b (by simp [hb]))
  | case7 e m a acts h v hk ih =>
    rw [edit_cons_put h hk, cons_append, cons_append, edit_cons_put h hk]
    rw [ih (fun e he => h1 e (by simp [he])) (fun e he b hb => h2 e he b (by simp [hb]))]
    rfl

@[simp] theorem mem_fresh {a : α × Edit β} {e : α × β} :
    e ∈ Edit.fresh a ↔ a = (e.1, .put e.2) := by
  obtain ⟨k, _ | _ | v⟩ := a <;> simp [Edit.fresh, Prod.ext_iff]
  exact ⟨fun h => ⟨h.1.symm, h.2.symm⟩, fun h => ⟨h.1.symm, h.2.symm⟩⟩

/-- Every `put` of a batch is in the result, however many there are on one key. -/
theorem fresh_sublist_edit (m : List (α × β)) (acts : List (α × Edit β)) :
    (acts.flatMap Edit.fresh).Sublist (edit cmp m acts) := by
  fun_induction edit cmp m acts with
  | case1 m => simp
  | case2 a acts ih => exact ih.append_left _
  | case3 e m a acts h ih => exact ih.cons e
  | case4 e m a acts h ih => exact ih.append_left _
  | case5 e m a acts h hk ih => simpa [Edit.fresh, hk] using ih
  | case6 e m a acts h hk ih => simpa [Edit.fresh, hk] using ih
  | case7 e m a acts h v hk ih => simpa [Edit.fresh, hk] using ih

theorem Precedes.isLE {a b : α × Edit β} (h : Precedes cmp a b) : (cmp a.1 b.1).isLE := by
  obtain h | ⟨h, -⟩ := h <;> simp [h]

theorem inOrder_of_precedes {acts : List (α × Edit β)} (h : acts.Pairwise (Precedes cmp)) :
    InOrder cmp acts :=
  h.imp Precedes.isLE

/-- Nothing but a `put` comes after an `erase` on the same key, and nothing after a `put`. -/
theorem Precedes.lt_of_keep {a b : α × Edit β} (h : Precedes cmp a b) (ha : a.2 ≠ .keep)
    (hb : b.2 = .keep) : cmp a.1 b.1 = .lt := by
  obtain h | ⟨-, h⟩ := h
  · exact h
  · rw [hb] at h
    cases h' : a.2 <;> simp_all

theorem Precedes.lt_of_put {a b : α × Edit β} (h : Precedes cmp a b) {v : β}
    (ha : a.2 = .put v) : cmp a.1 b.1 = .lt := by
  obtain h | ⟨-, h⟩ := h
  · exact h
  · simp [ha] at h

section Spec
variable [TransCmp cmp] {acts : List (α × Edit β)} {m : List (α × β)}

theorem lt_of_lt_inOrder {k : α} {a : α × Edit β}
    (hk : cmp k a.1 = .lt) (hv : InOrder cmp (a :: acts)) :
    ∀ b ∈ a :: acts, cmp k b.1 = .lt := by
  intro b hb
  obtain rfl | hb := mem_cons.mp hb
  · exact hk
  · exact TransCmp.lt_of_lt_of_isLE hk ((pairwise_cons.mp hv).1 b hb)

theorem lt_of_mem_dropWhile {k : α} (hv : InOrder cmp acts) {b : α × Edit β}
    (hb : b ∈ acts.dropWhile fun a => cmp a.1 k != .gt) : cmp k b.1 = .lt := by
  induction acts with
  | nil => simp at hb
  | cons a acts ih =>
    rw [dropWhile_cons] at hb
    split_ifs at hb with ha
    · exact ih (pairwise_cons.mp hv).2 hb
    · exact lt_of_lt_inOrder (OrientedCmp.lt_of_gt (by simpa using ha)) hv b hb

theorem gt_of_sorted {k : α} {e : α × β} (hk : (cmp k e.1).isLE)
    (hs : Sorted cmp (e :: m)) : ∀ x ∈ m, cmp x.1 k = .gt := by
  intro x hx
  have hex : cmp e.1 x.1 = .lt := (pairwise_cons.mp hs).1 x hx
  exact OrientedCmp.gt_of_lt (TransCmp.lt_of_isLE_of_lt hk hex)

/-- A batch cut at a key edits the bindings up to that key and those above it apart. -/
theorem edit_cut {m1 m2 : List (α × β)} (k : α)
    (h1 : ∀ e ∈ m1, (cmp e.1 k).isLE) (h2 : ∀ e ∈ m2, cmp k e.1 = .lt)
    (hv : InOrder cmp acts) :
    edit cmp (m1 ++ m2) acts = edit cmp m1 (acts.takeWhile fun a => cmp a.1 k != .gt) ++
      edit cmp m2 (acts.dropWhile fun a => cmp a.1 k != .gt) := by
  conv_lhs => rw [← takeWhile_append_dropWhile (p := fun a => cmp a.1 k != .gt) (l := acts)]
  refine edit_append m1 m2 _ _ (fun e he a ha => ?_) (fun e he a ha => ?_)
  · exact TransCmp.lt_of_isLE_of_lt (h1 e he) (lt_of_mem_dropWhile hv ha)
  · have hle : cmp a.1 k ≠ .gt := by simpa using mem_takeWhile_imp ha
    exact OrientedCmp.gt_of_lt (TransCmp.lt_of_isLE_of_lt (by cases h : cmp a.1 k <;> simp_all)
      (h2 e he))

/-- The bindings of the edited map: those the batch puts, and the old ones whose key
no `erase` and no `put` names. -/
theorem mem_edit (hs : Sorted cmp m) (hv : acts.Pairwise (Precedes cmp)) (x : α × β) :
    x ∈ edit cmp m acts ↔
      (x.1, Edit.put x.2) ∈ acts ∨ x ∈ m ∧ ∀ a ∈ acts, cmp x.1 a.1 = .eq → a.2 = .keep := by
  induction m, acts using edit.induct cmp with
  | case1 m => simp
  | case2 a acts ih =>
    rw [edit_nil_cons, mem_append, ih hs (pairwise_cons.mp hv).2]
    simp [eq_comm]
  | case3 e m a acts h ih =>
    rw [edit_cons_lt h, mem_cons, ih (pairwise_cons.mp hs).2 hv]
    have he : ∀ b ∈ a :: acts, cmp e.1 b.1 = .eq → b.2 = .keep := by
      intro b hb hbe
      simp [lt_of_lt_inOrder h (inOrder_of_precedes hv) b hb] at hbe
    constructor
    · rintro (rfl | hx | ⟨hx, hk⟩)
      · exact .inr ⟨by simp, he⟩
      · exact .inl hx
      · exact .inr ⟨by simp [hx], hk⟩
    · rintro (hx | ⟨hx, hk⟩)
      · exact .inr (.inl hx)
      · obtain rfl | hx := mem_cons.mp hx
        · exact .inl rfl
        · exact .inr (.inr ⟨hx, hk⟩)
  | case4 e m a acts h ih =>
    rw [edit_cons_gt h, mem_append, mem_fresh, ih hs (pairwise_cons.mp hv).2]
    have hgt : ∀ y ∈ e :: m, cmp y.1 a.1 = .gt := by
      intro y hy
      obtain rfl | hy := mem_cons.mp hy
      · exact h
      · exact gt_of_sorted (by simp [OrientedCmp.lt_of_gt h]) hs y hy
    constructor
    · rintro (rfl | hx | ⟨hx, hk⟩)
      · exact .inl (by simp)
      · exact .inl (by simp [hx])
      · refine .inr ⟨hx, fun b hb hbe => ?_⟩
        obtain rfl | hb := mem_cons.mp hb
        · simp [hgt x hx] at hbe
        · exact hk b hb hbe
    · rintro (hx | ⟨hx, hk⟩)
      · obtain hx | hx := mem_cons.mp hx
        · exact .inl hx.symm
        · exact .inr (.inl hx)
      · exact .inr (.inr ⟨hx, fun b hb => hk b (by simp [hb])⟩)
  | case5 e m a acts h hk ih =>
    rw [edit_cons_keep h hk, ih hs (pairwise_cons.mp hv).2]
    have hne : a ≠ (x.1, Edit.put x.2) := by rintro rfl; simp at hk
    simp only [mem_cons, hne.symm, false_or, forall_eq_or_imp]
    simp [hk]
  | case6 e m a acts h hk ih =>
    rw [edit_cons_erase h hk, ih (pairwise_cons.mp hs).2 (pairwise_cons.mp hv).2]
    have hne : a ≠ (x.1, Edit.put x.2) := by rintro rfl; simp at hk
    have hgt := gt_of_sorted (k := a.1) (by simp [OrientedCmp.eq_comm.mp h]) hs
    simp only [mem_cons, hne.symm, false_or, forall_eq_or_imp]
    constructor
    · rintro (hx | ⟨hx, ht⟩)
      · exact .inl hx
      · exact .inr ⟨.inr hx, by simp [hgt x hx], ht⟩
    · rintro (hx | ⟨rfl | hx, ha, ht⟩)
      · exact .inl hx
      · simp [hk, h] at ha
      · exact .inr ⟨hx, ht⟩
  | case7 e m a acts h v hk ih =>
    rw [edit_cons_put h hk, mem_cons, ih (pairwise_cons.mp hs).2 (pairwise_cons.mp hv).2]
    have ha : x = (a.1, v) ↔ (x.1, Edit.put x.2) = a := by
      constructor
      · rintro rfl; rw [← hk]
      · rintro rfl
        have hxv : x.2 = v := by simpa using hk
        rw [← hxv]
    have hgt := gt_of_sorted (k := a.1) (by simp [OrientedCmp.eq_comm.mp h]) hs
    simp only [mem_cons, ha, forall_eq_or_imp]
    constructor
    · rintro (hx | hx | ⟨hx, ht⟩)
      · exact .inl (.inl hx)
      · exact .inl (.inr hx)
      · exact .inr ⟨.inr hx, by simp [hgt x hx], ht⟩
    · rintro ((hx | hx) | ⟨rfl | hx, ha, ht⟩)
      · exact .inl hx
      · exact .inr (.inl hx)
      · simp [hk, h] at ha
      · exact .inr (.inr ⟨hx, ht⟩)

theorem sorted_edit (hs : Sorted cmp m)
    (hv : acts.Pairwise (Precedes cmp)) : Sorted cmp (edit cmp m acts) := by
  induction m, acts using edit.induct cmp with
  | case1 m => simpa using hs
  | case2 a acts ih =>
    have hacts := (pairwise_cons.mp hv).2
    rw [edit_nil_cons]
    refine pairwise_append.mpr ⟨?_, ih hs hacts, ?_⟩
    · cases h : a.2 <;> simp [Edit.fresh, h]
    · intro x hx y hy
      obtain rfl := mem_fresh.mp hx
      obtain hy | ⟨hy, -⟩ := (mem_edit hs hacts y).mp hy
      · exact ((pairwise_cons.mp hv).1 _ hy).lt_of_put rfl
      · simp at hy
  | case3 e m a acts h ih =>
    have hm := (pairwise_cons.mp hs).2
    rw [edit_cons_lt h]
    refine pairwise_cons.mpr ⟨fun x hx => ?_, ih hm hv⟩
    obtain hx | ⟨hx, -⟩ := (mem_edit hm hv x).mp hx
    · exact lt_of_lt_inOrder h (inOrder_of_precedes hv) _ hx
    · exact (pairwise_cons.mp hs).1 x hx
  | case4 e m a acts h ih =>
    have hacts := (pairwise_cons.mp hv).2
    rw [edit_cons_gt h]
    refine pairwise_append.mpr ⟨?_, ih hs hacts, ?_⟩
    · cases h : a.2 <;> simp [Edit.fresh, h]
    · intro x hx y hy
      obtain rfl := mem_fresh.mp hx
      obtain hy | ⟨hy, -⟩ := (mem_edit hs hacts y).mp hy
      · exact ((pairwise_cons.mp hv).1 _ hy).lt_of_put rfl
      · have hxe : cmp x.1 e.1 = .lt := OrientedCmp.lt_of_gt h
        obtain rfl | hy := mem_cons.mp hy
        · exact hxe
        · exact TransCmp.lt_trans hxe ((pairwise_cons.mp hs).1 y hy)
  | case5 e m a acts h hk ih =>
    rw [edit_cons_keep h hk]
    exact ih hs (pairwise_cons.mp hv).2
  | case6 e m a acts h hk ih =>
    rw [edit_cons_erase h hk]
    exact ih (pairwise_cons.mp hs).2 (pairwise_cons.mp hv).2
  | case7 e m a acts h v hk ih =>
    have hm := (pairwise_cons.mp hs).2
    have hacts := (pairwise_cons.mp hv).2
    rw [edit_cons_put h hk]
    refine pairwise_cons.mpr ⟨fun x hx => ?_, ih hm hacts⟩
    obtain hx | ⟨hx, -⟩ := (mem_edit hm hacts x).mp hx
    · exact ((pairwise_cons.mp hv).1 _ hx).lt_of_put hk
    · have hx' : cmp e.1 x.1 = .lt := (pairwise_cons.mp hs).1 x hx
      exact TransCmp.lt_of_eq_of_lt (OrientedCmp.eq_symm h) hx'

end Spec

theorem get_cons (e : α × β) (m : List (α × β)) (k : α) :
    get cmp (e :: m) k = if cmp e.1 k = .eq then some e.2 else get cmp m k := by
  by_cases h : cmp e.1 k = .eq <;> simp [get, h]

variable {m : List (α × β)}

theorem get_eq_none {k : α} (h : ∀ e ∈ m, cmp e.1 k ≠ .eq) : get cmp m k = none := by
  simpa [get] using h

theorem get_append_right {m1 : List (α × β)} {k : α} (h : ∀ e ∈ m1, cmp e.1 k ≠ .eq)
    (m2 : List (α × β)) : get cmp (m1 ++ m2) k = get cmp m2 k := by
  induction m1 with
  | nil => rfl
  | cons e m ih =>
    rw [cons_append, get_cons, if_neg (h e (by simp)), ih (fun x hx => h x (by simp [hx]))]

theorem get_append_left {m2 : List (α × β)} {k : α} (h : ∀ e ∈ m2, cmp e.1 k ≠ .eq)
    (m1 : List (α × β)) : get cmp (m1 ++ m2) k = get cmp m1 k := by
  induction m1 with
  | nil => exact get_eq_none h
  | cons e m ih => rw [cons_append, get_cons, get_cons, ih]

theorem get_eq_some_iff [TransCmp cmp] (hs : Sorted cmp m) {k : α} {v : β} :
    get cmp m k = some v ↔ ∃ e ∈ m, cmp e.1 k = .eq ∧ e.2 = v := by
  induction m with
  | nil => simp [get]
  | cons e m ih =>
    rw [get_cons]
    have hm := (pairwise_cons.mp hs).2
    by_cases h : cmp e.1 k = .eq
    · have hne : ∀ x ∈ m, cmp x.1 k ≠ .eq := by
        intro x hx hxk
        have hex : cmp e.1 x.1 = .lt := (pairwise_cons.mp hs).1 x hx
        have := TransCmp.lt_of_lt_of_eq hex hxk
        simp [h] at this
      rw [if_pos h]
      simp only [mem_cons, exists_eq_or_imp, h, true_and, Option.some.injEq]
      constructor
      · exact .inl
      · rintro (hv | ⟨x, hx, hxk, -⟩)
        · exact hv
        · exact absurd hxk (hne x hx)
    · simp [h, ih hm]

theorem Sorted.eq_of_eq [TransCmp cmp] (hs : Sorted cmp m) {a b : α × β}
    (ha : a ∈ m) (hb : b ∈ m) (hab : cmp a.1 b.1 = .eq) : a = b := by
  induction m with
  | nil => cases ha
  | cons e m ih =>
    obtain ⟨hlt, hs'⟩ := pairwise_cons.mp hs
    obtain rfl | ha' := mem_cons.mp ha <;> obtain rfl | hb' := mem_cons.mp hb
    · rfl
    · rw [hlt b hb'] at hab
      cases hab
    · rw [OrientedCmp.gt_of_lt (hlt a ha')] at hab
      cases hab
    · exact ih hs' ha' hb'

theorem Sorted.nodup [TransCmp cmp] (hs : Sorted cmp m) : m.Nodup :=
  hs.imp fun {a b} hlt hab => by
    rw [hab, show cmp b.1 b.1 = .eq from ReflCmp.compare_self] at hlt
    cases hlt

theorem Sorted.ext [TransCmp cmp] {m' : List (α × β)} (hs : Sorted cmp m) (hs' : Sorted cmp m')
    (h : ∀ x, x ∈ m ↔ x ∈ m') : m = m' := by
  refine ((perm_ext_iff_of_nodup hs.nodup hs'.nodup).mpr h).eq_of_pairwise
    (fun a b _ _ hab hba => ?_) hs hs'
  rw [OrientedCmp.gt_of_lt hab] at hba
  cases hba

theorem Sorted.eq_of_sublist [TransCmp cmp] {l l' : List (α × β)} (hs : Sorted cmp m)
    (hl : l.Sublist m) (hl' : l'.Sublist m) (h : ∀ x ∈ m, x ∈ l ↔ x ∈ l') : l = l' :=
  Sorted.ext (hs.sublist hl) (hs.sublist hl') fun x =>
    ⟨fun hx => (h x (hl.subset hx)).mp hx, fun hx => (h x (hl'.subset hx)).mpr hx⟩

section SortBy
variable (cmp)

def sortBy (l : List α) : List α := l.mergeSort fun a b => (cmp a b).isLE

theorem perm_sortBy (l : List α) : (sortBy cmp l).Perm l := mergeSort_perm l _

variable {cmp} in
theorem sortBy_eq_self {l : List α} (h : l.Pairwise fun a b => (cmp a b).isLE) : sortBy cmp l = l :=
  mergeSort_of_pairwise h

theorem pairwise_isLE_sortBy [TransCmp cmp] (l : List α) :
    (sortBy cmp l).Pairwise fun a b => (cmp a b).isLE := by
  apply pairwise_mergeSort
  · intro a b c hab hbc
    exact TransCmp.isLE_trans hab hbc
  · intro a b
    have hswap : cmp b a = (cmp a b).swap := OrientedCmp.eq_swap
    rw [hswap]
    cases cmp a b <;> rfl

theorem pairwise_sortBy [TransCmp cmp] {l : List α} (h : l.Pairwise fun a b => cmp a b ≠ .eq) :
    (sortBy cmp l).Pairwise fun a b => cmp a b = .lt := by
  have hne : (sortBy cmp l).Pairwise fun a b => cmp a b ≠ .eq := by
    refine ((perm_sortBy cmp l).pairwise_iff ?_).mpr h
    intro a b hab hba
    exact hab (OrientedCmp.eq_symm hba)
  refine ((pairwise_isLE_sortBy cmp l).and hne).imp ?_
  rintro a b ⟨hle, hne⟩
  cases hcmp : cmp a b
  · rfl
  · exact absurd hcmp hne
  · simp [hcmp] at hle

end SortBy

end Appstack.SortedMap
