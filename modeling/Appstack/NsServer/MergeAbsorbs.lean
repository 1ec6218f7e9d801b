import Appstack.NsServer.ConfigMerge

namespace Appstack.NsServer.ConfigMerge

open VClock Value List

variable {ν τ : Type} [DecidableEq ν]

namespace VClock

variable {c d acc : VClock ν} {node : ν} {k : ℤ}

/-- The entry of the node counts at least to `k`. -/
def Reaches (c : VClock ν) (node : ν) (k : ℤ) : Prop := ∃ x, c.lookup node = some x ∧ k ≤ x.1

/-- The clock `c` counts as far as every entry of `d`. -/
def Covers (c d : VClock ν) : Prop := ∀ e ∈ d, Reaches c e.1 e.2.1

theorem descends_iff : descends c d = true ↔ Covers c d := by
  induction d with
  | nil => simp [descends, Covers]
  | cons e d ih =>
    rw [descends, Covers, forall_mem_cons, ← Covers, ← ih, getValue, Reaches]
    cases c.lookup e.1 with
    | none => simp
    | some x => by_cases hx : x.1 < e.2.1 <;> simp [hx, not_le.mpr, not_lt.mp]

theorem mem_of_lookup {x : ℤ × ℤ} (h : c.lookup node = some x) : (node, x) ∈ c := by
  obtain ⟨l1, l2, rfl, -⟩ := lookup_eq_some_iff.mp h
  simp

theorem simplifyInto_spec (c acc : VClock ν) (hacc : (acc.map Prod.fst).Nodup) :
    ((simplifyInto c acc).map Prod.fst).Nodup ∧ Covers (simplifyInto c acc) c ∧
      ∀ node k, Reaches acc node k → Reaches (simplifyInto c acc) node k := by
  induction c generalizing acc with
  | nil => exact ⟨hacc, by simp [Covers], fun _ _ h => h⟩
  | cons e c ih =>
    obtain ⟨node, ctr, ts⟩ := e
    rw [simplifyInto]
    set old := (getValue node acc).getD (ctr, ts) with hold
    set entry := if old.1 < ctr then (ctr, ts) else (old.1, old.2) with hentry
    have hcons : (((node, entry) :: acc.filter fun x => x.1 ≠ node).map Prod.fst).Nodup := by
      rw [map_cons, nodup_cons]
      exact ⟨by simp, hacc.sublist (filter_sublist.map _)⟩
    obtain ⟨hnodup, hcovers, hgrows⟩ := ih _ hcons
    have hmax : ctr ≤ entry.1 ∧ old.1 ≤ entry.1 := by
      rw [hentry]
      split_ifs with h
      exacts [⟨le_rfl, h.le⟩, ⟨not_lt.mp h, le_rfl⟩]
    refine ⟨hnodup, forall_mem_cons.mpr ⟨hgrows node ctr ⟨entry, by simp, hmax.1⟩, hcovers⟩,
      fun n k ⟨x, hx, hk⟩ => hgrows n k ?_⟩
    by_cases hn : n = node
    · subst hn
      rw [getValue, hx, Option.getD_some] at hold
      exact ⟨entry, by simp, hk.trans (hold ▸ hmax.2)⟩
    · refine ⟨x, ?_, hk⟩
      have hkeep : n ≠ node → ∀ l : VClock ν, (l.filter fun x => x.1 ≠ node).lookup n =
          l.lookup n := by
        intro hn l
        induction l with
        | nil => rfl
        | cons y l ih =>
          obtain ⟨ny, y⟩ := y
          by_cases hy : ny = node
          · subst hy
            rw [filter_cons_of_neg (by simp), ih, lookup_cons, beq_false_of_ne hn]
          · rw [filter_cons_of_pos (by simpa using hy), lookup_cons, lookup_cons, ih]
      rw [lookup_cons, beq_false_of_ne hn, hkeep hn, hx]

theorem extend_spec (e : ν × ℤ × ℤ) (c : VClock ν) :
    ((extend e c).map Prod.fst).Nodup ∧ Reaches (extend e c) e.1 e.2.1 ∧
      ∀ node k, Reaches c node k → Reaches (extend e c) node k := by
  obtain ⟨hnodup, hcovers, -⟩ := simplifyInto_spec (e :: c) [] nodup_nil
  obtain ⟨he, hc⟩ := forall_mem_cons.mp hcovers
  refine ⟨hnodup, he, fun node k ⟨x, hx, hk⟩ => ?_⟩
  obtain ⟨y, hy, hxy⟩ := hc _ (mem_of_lookup hx)
  exact ⟨y, hy, hk.trans hxy⟩

theorem foldl_extend (es acc : VClock ν) (hacc : (acc.map Prod.fst).Nodup) :
    ((es.foldl (fun acc e => extend e acc) acc).map Prod.fst).Nodup ∧
      Covers (es.foldl (fun acc e => extend e acc) acc) es ∧
      ∀ node k, Reaches acc node k → Reaches (es.foldl (fun acc e => extend e acc) acc) node k := by
  induction es generalizing acc with
  | nil => exact ⟨hacc, by simp [Covers], fun _ _ h => h⟩
  | cons e es ih =>
    obtain ⟨hnodup, he, hc⟩ := extend_spec e acc
    obtain ⟨hnodup', hcovers, hgrows⟩ := ih _ hnodup
    exact ⟨hnodup', forall_mem_cons.mpr ⟨hgrows _ _ he, hcovers⟩,
      fun n k h => hgrows n k (hc n k h)⟩

theorem merge_spec (c d : VClock ν) : ((merge [c, d]).map Prod.fst).Nodup ∧
    Covers (merge [c, d]) c ∧ Covers (merge [c, d]) d := by
  obtain ⟨hnodup, hc, -⟩ := foldl_extend c [] nodup_nil
  obtain ⟨hnodup', hd, hgrows⟩ := foldl_extend d _ hnodup
  exact ⟨hnodup', fun e he => hgrows _ _ (hc e he), hd⟩

theorem Reaches.perm (h : Reaches c node k) (hd : (d.map Prod.fst).Nodup) (hcd : d.Perm c) :
    Reaches d node k := by
  obtain ⟨x, hx, hk⟩ := h
  exact ⟨x, (Lib.lookup_eq_some_iff hd).mpr (hcd.mem_iff.mpr (mem_of_lookup hx)), hk⟩

theorem increment_ahead (node : ν) (now : ℤ) (hcd : Covers c d) {c' : VClock ν}
    (hc' : c'.Perm (increment node now c)) : descends c' d = true ∧ descends d c' = false := by
  obtain ⟨ctr, hinc, hahead⟩ : ∃ ctr, increment node now c = extend (node, ctr, now) c ∧
      ∀ k, Reaches c node k → k < ctr := by
    unfold increment
    cases h : getValue node c with
    | none =>
      refine ⟨1, rfl, fun k ⟨x, hx, _⟩ => ?_⟩
      rw [getValue, hx] at h
      cases h
    | some x =>
      refine ⟨x.1 + 1, rfl, fun k ⟨y, hy, hk⟩ => ?_⟩
      rw [getValue, hy] at h
      rw [← Option.some.inj h]
      omega
  rw [hinc] at hc'
  obtain ⟨hnodup, hnode, hgrows⟩ := extend_spec (node, ctr, now) c
  have hnodup' := (hc'.map Prod.fst).nodup_iff.mpr hnodup
  refine ⟨descends_iff.mpr fun e he => (hgrows _ _ (hcd e he)).perm hnodup' hc', ?_⟩
  rw [← Bool.not_eq_true, descends_iff]
  intro hcovers
  obtain ⟨x, hx, hk⟩ := hnode.perm hnodup' hc'
  obtain ⟨y, hy, hxy⟩ := hcovers _ (mem_of_lookup hx)
  have := hahead _ (hcd _ (mem_of_lookup hy))
  dsimp only at hk hxy this
  omega

end VClock

variable [DecidableEq τ] {n n' : Node ν τ}

theorem mergeListValues_self (v : Value ν τ) : mergeListValues n v v = v := if_pos rfl

theorem mergeListValues_of_newer {r l : Value ν τ}
    (h : descends l.extractVclock r.extractVclock = true ∧
      descends r.extractVclock l.extractVclock = false) : mergeListValues n r l = l := by
  by_cases heq : r = l
  · rw [heq, mergeListValues_self]
  · rw [mergeListValues, if_neg heq, h.1, h.2]

theorem mergeListValues_of_older {r l : Value ν τ}
    (h : descends r.extractVclock l.extractVclock = true ∧
      descends l.extractVclock r.extractVclock = false) : mergeListValues n r l = r := by
  by_cases heq : r = l
  · rw [heq, mergeListValues_self]
  · rw [mergeListValues, if_neg heq, h.1, h.2]

omit [DecidableEq τ] in
theorem mergeVclocks_covers (hsort : ∀ c, (n.sortClock c).Perm c) (r l : Value ν τ) :
    Covers (mergeVclocks n r l).extractVclock r.extractVclock ∧
      Covers (mergeVclocks n r l).extractVclock l.extractVclock := by
  unfold mergeVclocks
  split_ifs with h
  · rw [h.1, h.2]
    exact ⟨nofun, nofun⟩
  · obtain ⟨hnodup, hl, hr⟩ := merge_spec l.extractVclock r.extractVclock
    have hperm := hsort (merge [l.extractVclock, r.extractVclock])
    have hnodup' := (hperm.map Prod.fst).nodup_iff.mpr hnodup
    exact ⟨fun e he => (hr e he).perm hnodup' hperm, fun e he => (hl e he).perm hnodup' hperm⟩

/-- Merging a side into the merge gives the merge. -/
theorem mergeListValues_absorbs (hsort : ∀ c, (n.sortClock c).Perm c)
    (hlt : ∀ v w, n.lt v w = true → n.lt w v = false) (hsame : n'.lt = n.lt) (r l : Value ν τ) :
    mergeListValues n' r (mergeListValues n r l) = mergeListValues n r l ∧
      mergeListValues n' l (mergeListValues n r l) = mergeListValues n r l := by
  by_cases heq : r = l
  · subst heq
    simp only [mergeListValues_self, and_self]
  by_cases hr : descends r.extractVclock l.extractVclock = true ∧
      descends l.extractVclock r.extractVclock = false
  · rw [mergeListValues_of_older hr, mergeListValues_self, mergeListValues_of_newer hr]
    exact ⟨rfl, rfl⟩
  by_cases hl : descends l.extractVclock r.extractVclock = true ∧
      descends r.extractVclock l.extractVclock = false
  · rw [mergeListValues_of_newer hl, mergeListValues_of_newer hl, mergeListValues_self]
    exact ⟨rfl, rfl⟩
  -- the clocks are on a par
  have hpar : ∀ (n : Node ν τ) (v w : Value ν τ), v = r ∧ w = l ∨ v = l ∧ w = r →
      mergeListValues n v w = if v.stripMetadata = w.stripMetadata then maxValue n w v
        else incrementVclock n (if likelyNewer w.extractVclock v.extractVclock then w else v)
          (mergeVclocks n v w) := by
    rintro n v w (⟨rfl, rfl⟩ | ⟨rfl, rfl⟩)
    · unfold mergeListValues
      rw [if_neg heq]
      cases h1 : descends v.extractVclock w.extractVclock <;>
        cases h2 : descends w.extractVclock v.extractVclock <;> simp_all
    · unfold mergeListValues
      rw [if_neg (Ne.symm heq)]
      cases h1 : descends v.extractVclock w.extractVclock <;>
        cases h2 : descends w.extractVclock v.extractVclock <;> simp_all
  rw [hpar n r l (.inl ⟨rfl, rfl⟩)]
  by_cases hstrip : r.stripMetadata = l.stripMetadata
  · rw [if_pos hstrip]
    unfold maxValue
    split_ifs with hmax
    · rw [mergeListValues_self, hpar n' l r (.inr ⟨rfl, rfl⟩), if_pos hstrip.symm, maxValue, hsame,
        hlt l r hmax]
      exact ⟨rfl, rfl⟩
    · rw [mergeListValues_self, hpar n' r l (.inl ⟨rfl, rfl⟩), if_pos hstrip, maxValue, hsame,
        if_neg hmax]
      exact ⟨rfl, rfl⟩
  · rw [if_neg hstrip]
    obtain ⟨hr, hl⟩ := mergeVclocks_covers hsort r l
    exact ⟨mergeListValues_of_newer (increment_ahead n.name n.now hr (hsort _)),
      mergeListValues_of_newer (increment_ahead n.name n.now hl (hsort _))⟩

section

variable {κ β : Type} [LinearOrder κ]

theorem mem_keys_ukeymergewith (f : κ → β → β → β) (l1 l2 : List (κ × β)) (k : κ) :
    k ∈ (ukeymergewith f l1 l2).map Prod.fst ↔ k ∈ l1.map Prod.fst ∨ k ∈ l2.map Prod.fst := by
  fun_induction ukeymergewith f l1 l2 with
  | case1 l2 => simp
  | case2 l1 hne => simp
  | case3 a r1 k1 b r2 ih =>
    simp only [map_cons, mem_cons, ih]
    tauto
  | case4 k1 a r1 k2 b r2 hne hlt ih =>
    simp only [map_cons, mem_cons, ih]
    tauto
  | case5 k1 a r1 k2 b r2 hne hge ih =>
    simp only [map_cons, mem_cons, ih]
    tauto

theorem ukeymergewith_ascending (f : κ → β → β → β) {l1 l2 : List (κ × β)} (h1 : Ascending l1)
    (h2 : Ascending l2) : Ascending (ukeymergewith f l1 l2) := by
  have hcons : ∀ (k : κ) (b : β) (l1 l2 : List (κ × β)), Ascending (ukeymergewith f l1 l2) →
      (∀ x ∈ l1, k < x.1) → (∀ x ∈ l2, k < x.1) → Ascending ((k, b) :: ukeymergewith f l1 l2) := by
    intro k b l1 l2 h hl1 hl2
    refine pairwise_cons.mpr ⟨fun x hx => ?_, h⟩
    obtain hx | hx := (mem_keys_ukeymergewith f l1 l2 x.1).mp (mem_map_of_mem hx)
    all_goals obtain ⟨y, hy, hxy⟩ := mem_map.mp hx
    exacts [hxy ▸ hl1 y hy, hxy ▸ hl2 y hy]
  fun_induction ukeymergewith f l1 l2 with
  | case1 l2 => exact h2
  | case2 l1 hne => exact h1
  | case3 a r1 k1 b r2 ih =>
    obtain ⟨ha, hr1⟩ := pairwise_cons.mp h1
    obtain ⟨hb, hr2⟩ := pairwise_cons.mp h2
    exact hcons k1 _ r1 r2 (ih hr1 hr2) ha hb
  | case4 k1 a r1 k2 b r2 hne hlt ih =>
    obtain ⟨ha, hr1⟩ := pairwise_cons.mp h1
    obtain ⟨hb, -⟩ := pairwise_cons.mp h2
    exact hcons k1 a r1 _ (ih hr1 h2) ha
      (forall_mem_cons.mpr ⟨hlt, fun x hx => hlt.trans (hb x hx)⟩)
  | case5 k1 a r1 k2 b r2 hne hge ih =>
    have hlt : k2 < k1 := lt_of_le_of_ne (not_lt.mp hge) (Ne.symm hne)
    obtain ⟨ha, -⟩ := pairwise_cons.mp h1
    obtain ⟨hb, hr2⟩ := pairwise_cons.mp h2
    exact hcons k2 b _ r2 (ih h1 hr2)
      (forall_mem_cons.mpr ⟨hlt, fun x hx => hlt.trans (ha x hx)⟩) hb

theorem Ascending.nodup {l : List (κ × β)} (h : Ascending l) : (l.map Prod.fst).Nodup := by
  rw [List.Nodup, pairwise_map]
  exact h.imp fun hxy => hxy.ne

theorem sortByKey_eq {l1 l2 : List (κ × β)} (h1 : (l1.map Prod.fst).Nodup)
    (h2 : (l2.map Prod.fst).Nodup) (h : ∀ k, l1.lookup k = l2.lookup k) :
    sortByKey l1 = sortByKey l2 := by
  have hperm : l1.Perm l2 := (perm_ext_iff_of_nodup h1.of_map h2.of_map).mpr fun x => by
    rw [← Lib.lookup_eq_some_iff h1, ← Lib.lookup_eq_some_iff h2, h]
  refine List.Perm.eq_of_pairwise (fun x y _ _ hxy hyx => absurd hxy hyx.asymm)
    (sortByKey_ascending h1) (sortByKey_ascending h2) ?_
  exact (mergeSort_perm _ _).trans (hperm.trans (mergeSort_perm _ _).symm)

/-- What `merge_kv_pairs` does with the two values of a key. -/
def mergeValue (directory : κ) (n : Node ν τ) (k : κ) (r l : Value ν τ) : Value ν τ :=
  if k = directory then l else if r.isList || l.isList then mergeListValues n r l else r

theorem mergeKvPairs_spec (directory : κ) (n : Node ν τ) {R L : List (κ × Value ν τ)}
    (hR : (R.map Prod.fst).Nodup) (hL : (L.map Prod.fst).Nodup) :
    ((mergeKvPairs directory n R L).map Prod.fst).Nodup ∧ ∀ k,
      (mergeKvPairs directory n R L).lookup k =
        mergeOption (mergeValue directory n) k (R.lookup k) (L.lookup k) := by
  unfold mergeKvPairs
  split_ifs with heq
  · subst heq
    refine ⟨hR, fun k => ?_⟩
    cases R.lookup k with
    | none => rfl
    | some v => simp [mergeOption, mergeValue, mergeListValues_self]
  · exact ⟨(ukeymergewith_ascending _ (sortByKey_ascending hR) (sortByKey_ascending hL)).nodup,
      fun k => by
        rw [lookup_ukeymergewith _ _ (sortByKey_ascending hR) (sortByKey_ascending hL),
          lookup_sortByKey hR, lookup_sortByKey hL]
        rfl⟩

/-- A merge has the keys of both sides, keeps what has the newer clock, and absorbs both sides when
they come again, on whatever node. -/
theorem mergeKvPairs_absorbs (directory : κ) (n n' : Node ν τ)
    (hsort : ∀ c, (n.sortClock c).Perm c) (hlt : ∀ v w, n.lt v w = true → n.lt w v = false)
    (hsame : n'.lt = n.lt) (R L : List (κ × Value ν τ)) (hR : (R.map Prod.fst).Nodup)
    (hL : (L.map Prod.fst).Nodup) (hRlist : ∀ k v, (k, v) ∈ R → k ≠ directory → v.isList = true)
    (hLlist : ∀ k v, (k, v) ∈ L → k ≠ directory → v.isList = true) :
    let M := mergeKvPairs directory n R L
    (M.map Prod.fst).Nodup ∧
    (∀ k, k ∈ M.map Prod.fst ↔ k ∈ R.map Prod.fst ∨ k ∈ L.map Prod.fst) ∧
    (∀ k r l, k ≠ directory → R.lookup k = some r → L.lookup k = some l →
      (descends r.extractVclock l.extractVclock = true →
        descends l.extractVclock r.extractVclock = false → M.lookup k = some r) ∧
      (descends l.extractVclock r.extractVclock = true →
        descends r.extractVclock l.extractVclock = false → M.lookup k = some l)) ∧
    sortByKey (mergeKvPairs directory n' L M) = sortByKey M ∧
    sortByKey (mergeKvPairs directory n' R M) = sortByKey M := by
  intro M
  obtain ⟨hM, hlookup⟩ := mergeKvPairs_spec directory n hR hL
  have hlist : ∀ k r, k ≠ directory → R.lookup k = some r → r.isList = true := fun k r hk hr =>
    hRlist k r ((Lib.lookup_eq_some_iff hR).mp hr) hk
  have hlist' : ∀ k l, k ≠ directory → L.lookup k = some l → l.isList = true := fun k l hk hl =>
    hLlist k l ((Lib.lookup_eq_some_iff hL).mp hl) hk
  have hboth : ∀ k r l, k ≠ directory → R.lookup k = some r → L.lookup k = some l →
      M.lookup k = some (mergeListValues n r l) := by
    intro k r l hk hr hl
    rw [hlookup k, hr, hl]
    simp [mergeOption, mergeValue, hk, hlist k r hk hr]
  have hkeep : ∀ X, X = R ∨ X = L → ∀ k,
      mergeOption (mergeValue directory n') k (X.lookup k) (M.lookup k) = M.lookup k := by
    intro X hX k
    have hself : ∀ v, mergeValue directory n' k v v = v := fun v => by
      simp [mergeValue, mergeListValues_self]
    cases hr : R.lookup k with
    | none =>
      have hMk : M.lookup k = L.lookup k := by rw [hlookup k, hr]; rfl
      rw [hMk]
      obtain rfl | rfl := hX
      · rw [hr]
        rfl
      · cases X.lookup k <;> simp [mergeOption, hself]
    | some r =>
      cases hl : L.lookup k with
      | none =>
        have hMk : M.lookup k = some r := by rw [hlookup k, hr, hl]; rfl
        rw [hMk]
        obtain rfl | rfl := hX
        · rw [hr, mergeOption, hself]
        · rw [hl, mergeOption]
      | some l =>
        by_cases hk : k = directory
        · rw [hlookup k, hr, hl, mergeOption, mergeValue, if_pos hk]
          obtain rfl | rfl := hX
          · rw [hr, mergeOption, mergeValue, if_pos hk]
          · rw [hl, mergeOption, hself]
        · obtain ⟨habs, habs'⟩ := mergeListValues_absorbs hsort hlt hsame r l
          rw [hboth k r l hk hr hl]
          obtain rfl | rfl := hX
          · simp [hr, mergeOption, mergeValue, hk, hlist k r hk hr, habs]
          · simp [hl, mergeOption, mergeValue, hk, hlist' k l hk hl, habs']
  refine ⟨hM, fun k => ?_, fun k r l hk hr hl => ⟨fun h₁ h₂ => ?_, fun h₁ h₂ => ?_⟩, ?_, ?_⟩
  · by_cases heq : R = L
    · simp [M, mergeKvPairs, heq]
    · have hkeys : ∀ l : List (κ × Value ν τ), k ∈ (sortByKey l).map Prod.fst ↔ k ∈ l.map Prod.fst :=
        fun l => ((mergeSort_perm l _).map Prod.fst).mem_iff
      rw [← hkeys R, ← hkeys L, ← mem_keys_ukeymergewith (mergeValue directory n)]
      change k ∈ (mergeKvPairs directory n R L).map Prod.fst ↔ _
      rw [mergeKvPairs, if_neg heq]
      rfl
  · rw [hboth k r l hk hr hl, mergeListValues_of_older ⟨h₁, h₂⟩]
  · rw [hboth k r l hk hr hl, mergeListValues_of_newer ⟨h₁, h₂⟩]
  · obtain ⟨hnodup, hspec⟩ := mergeKvPairs_spec directory n' hL hM
    exact sortByKey_eq hnodup hM fun k => (hspec k).trans (hkeep L (.inr rfl) k)
  · obtain ⟨hnodup, hspec⟩ := mergeKvPairs_spec directory n' hR hM
    exact sortByKey_eq hnodup hM fun k => (hspec k).trans (hkeep R (.inl rfl) k)

end

/-- Nodes 1 and 2 have changed one key each on its own, and node 3 gets the merge and the old
configurations. -/
theorem mergeKvPairs_absorbs_conflict :
    let R := [(1, setBy 1 1 10 5), (2, setBy 1 1 10 5)]
    let L := [(1, setBy 2 1 20 6), (3, setBy 2 1 20 6)]
    let M := mergeKvPairs 0 (plainNode 2) R L
    sortByKey (mergeKvPairs 0 (plainNode 3) L M) = sortByKey M ∧
      sortByKey (mergeKvPairs 0 (plainNode 3) R M) = sortByKey M :=
  (mergeKvPairs_absorbs 0 (plainNode 2) (plainNode 3) (fun c => mergeSort_perm c _)
    (fun v w h => by simpa [plainNode] using (by simpa [plainNode] using h : _ < _).le) rfl
    [(1, setBy 1 1 10 5), (2, setBy 1 1 10 5)] [(1, setBy 2 1 20 6), (3, setBy 2 1 20 6)]
    (by decide) (by decide)
    (fun k v h _ => by
      simp only [mem_cons, Prod.mk.injEq, not_mem_nil, or_false] at h
      obtain ⟨-, rfl⟩ | ⟨-, rfl⟩ := h <;> rfl)
    (fun k v h _ => by
      simp only [mem_cons, Prod.mk.injEq, not_mem_nil, or_false] at h
      obtain ⟨-, rfl⟩ | ⟨-, rfl⟩ := h <;> rfl)).2.2.2

end Appstack.NsServer.ConfigMerge
