import Appstack.Galera.Certification

namespace Appstack.Galera

open List

/-- All prefixes of all keys, in the order of the two loops. -/
def positions (keys : List Key) : List CertKey := keys.flatMap Key.prefixes

/-- The entries of `ps` that are not in the list yet, without repetitions. -/
def fresh : List CertKey → List CertKey → List CertKey
  | _, [] => []
  | keyList, p :: ps =>
    if keyList.any p.same then fresh keyList ps else p :: fresh (keyList ++ [p]) ps

def certKeys (keys : List Key) : List CertKey := fresh [] (positions keys)

theorem CertKey.same_iff {p q : CertKey} :
    p.same q = true ↔ p.parts = q.parts ∧ p.shared = q.shared := by
  simp [CertKey.same]

section Fresh
variable {keyList ps : List CertKey} {p : CertKey}

theorem mem_of_mem_fresh (h : p ∈ fresh keyList ps) : p ∈ ps := by
  induction ps generalizing keyList with
  | nil => exact h
  | cons q ps ih =>
    unfold fresh at h
    split at h
    · exact .tail q (ih h)
    · rcases mem_cons.mp h with rfl | h
      · exact .head _
      · exact .tail q (ih h)

theorem find?_fresh (keyList ps : List CertKey) (p : CertKey) :
    (fresh keyList ps).find? p.same =
      if keyList.any p.same then none else ps.find? p.same := by
  induction ps generalizing keyList with
  | nil => simp [fresh]
  | cons q ps ih =>
    unfold fresh
    by_cases hpq : p.same q = true
    · -- `p` and `q` are the same entry, so one is in the list if and only if the other is
      have hsame (r : CertKey) : q.same r = p.same r := by
        rw [CertKey.same_iff] at hpq
        rw [Bool.eq_iff_iff, CertKey.same_iff, CertKey.same_iff, hpq.1, hpq.2]
      have hany : keyList.any q.same = keyList.any p.same := by
        rw [funext hsame]
      by_cases hin : keyList.any p.same = true
      · rw [if_pos (hany ▸ hin), if_pos hin, ih, if_pos hin]
      · rw [if_neg (hany ▸ hin), if_neg hin, List.find?_cons_of_pos hpq, List.find?_cons_of_pos hpq]
    · by_cases hq : keyList.any q.same = true
      · rw [if_pos hq, ih, List.find?_cons_of_neg hpq]
      · rw [if_neg hq, List.find?_cons_of_neg hpq, ih, List.find?_cons_of_neg hpq]
        have hadd : (keyList ++ [q]).any p.same = keyList.any p.same := by
          simp [hpq]
        rw [hadd]

end Fresh

section Keys
variable {keys : List Key} {k : Key} {p : CertKey} {parts : Parts}

theorem Key.mem_prefixes :
    p ∈ k.prefixes ↔ p.parts <+: k.parts ∧ p.shared = k.shared ∧
      (p.fullKey = true ↔ p.parts = k.parts) := by
  obtain ⟨parts, full, shared⟩ := p
  simp only [Key.prefixes, mem_map, mem_inits, CertKey.mk.injEq]
  constructor
  · rintro ⟨_, hp, rfl, rfl, rfl⟩
    refine ⟨hp, rfl, ?_⟩
    rw [decide_eq_true_iff]
    exact ⟨hp.eq_of_length, congrArg List.length⟩
  · rintro ⟨hp, rfl, hfull⟩
    refine ⟨parts, hp, rfl, ?_, rfl⟩
    rw [Bool.eq_iff_iff, decide_eq_true_iff, hfull]
    exact ⟨hp.eq_of_length, congrArg List.length⟩

theorem mem_positions :
    p ∈ positions keys ↔ ∃ k ∈ keys, p.parts <+: k.parts ∧ p.shared = k.shared ∧
      (p.fullKey = true ↔ p.parts = k.parts) := by
  simp only [positions, mem_flatMap, Key.mem_prefixes]

theorem mem_positions_of_mem_certKeys (h : p ∈ certKeys keys) : p ∈ positions keys :=
  mem_of_mem_fresh h

theorem find?_certKeys (keys : List Key) (p : CertKey) :
    (certKeys keys).find? p.same = (positions keys).find? p.same := by
  rw [certKeys, find?_fresh]
  simp

theorem exists_mem_certKeys (h : p ∈ positions keys) :
    ∃ q ∈ certKeys keys, q.parts = p.parts ∧ q.shared = p.shared := by
  have hself : p.same p = true := CertKey.same_iff.mpr ⟨rfl, rfl⟩
  have hsome : ((certKeys keys).find? p.same).isSome := by
    rw [find?_certKeys, List.find?_isSome]
    exact ⟨p, h, hself⟩
  obtain ⟨q, hq⟩ := Option.isSome_iff_exists.mp hsome
  obtain ⟨hparts, hshared⟩ := CertKey.same_iff.mp (List.find?_some hq)
  exact ⟨q, mem_of_find?_eq_some hq, hparts.symm, hshared.symm⟩

/-- No key comes after a longer one with the same flags that it is a prefix of. -/
def PrefixFirst (keys : List Key) : Prop :=
  keys.Pairwise fun k₁ k₂ =>
    k₁.shared = k₂.shared → k₂.parts <+: k₁.parts → k₂.parts = k₁.parts

theorem find?_positions_full (h : PrefixFirst keys) (hk : k ∈ keys) :
    (positions keys).find? (CertKey.same ⟨k.parts, true, k.shared⟩) =
      some ⟨k.parts, true, k.shared⟩ := by
  induction keys with
  | nil => simp at hk
  | cons k1 keys ih =>
    obtain ⟨hk1, hrest⟩ := pairwise_cons.mp h
    have hcons : positions (k1 :: keys) = k1.prefixes ++ positions keys := rfl
    rw [hcons, List.find?_append]
    cases hfind : k1.prefixes.find? (CertKey.same ⟨k.parts, true, k.shared⟩) with
    | some q =>
      -- the entry found is a prefix of `k1`, and by the order of the keys all of it
      obtain ⟨hp, hs, hfull⟩ := Key.mem_prefixes.mp (mem_of_find?_eq_some hfind)
      obtain ⟨hparts, hshared⟩ := CertKey.same_iff.mp (List.find?_some hfind)
      simp only at hparts hshared
      have heq : k.parts = k1.parts := by
        rcases mem_cons.mp hk with rfl | hk
        · rfl
        · exact hk1 k hk (hs.symm.trans hshared.symm) (hparts ▸ hp)
      obtain ⟨parts, full, shared⟩ := q
      simp only at hparts hshared hfull
      subst hparts hshared
      rw [Option.some_or, hfull.mpr heq]
    | none =>
      rw [Option.none_or]
      rcases mem_cons.mp hk with rfl | hk
      · have hin : (⟨k.parts, true, k.shared⟩ : CertKey) ∈ k.prefixes :=
          Key.mem_prefixes.mpr ⟨prefix_refl _, rfl, by simp⟩
        exact absurd (CertKey.same_iff.mpr ⟨rfl, rfl⟩) (List.find?_eq_none.mp hfind _ hin)
      · exact ih hrest hk

theorem full_mem_certKeys (h : PrefixFirst keys) (hk : k ∈ keys) :
    ⟨k.parts, true, k.shared⟩ ∈ certKeys keys := by
  apply mem_of_find?_eq_some
  rw [find?_certKeys]
  exact find?_positions_full h hk

end Keys

section Loops
variable (ix : CertIndex) (trx : TrxHandle)

def conflictAt (p : CertKey) : Bool :=
  ((ix p.parts).exclusiveRef p.fullKey).any (conflictsWith trx)

/-- What a match without conflict makes the transaction depend on. -/
def dependsAt (p : CertKey) : ℤ :=
  let refSeqno := seqnoOf ((ix p.parts).exclusiveRef p.fullKey)
  if p.shared then refSeqno else max (seqnoOf ((ix p.parts).sharedRef p.fullKey)) refSeqno

theorem certifyAndDepend_eq (p : CertKey) (d : ℤ) :
    certifyAndDependV1to2 (ix p.parts) trx p.fullKey (!p.shared) d =
      if conflictAt ix trx p then none else some (max d (dependsAt ix p)) := by
  cases hs : p.shared <;> simp [certifyAndDependV1to2, conflictAt, dependsAt, hs]

theorem foldlM_certify (storeKeys : Bool) (keys : List Key) (s : List CertKey × ℤ) :
    keys.foldlM (certifyV1to2 ix trx storeKeys) s =
      (positions keys).foldlM (certifyPrefix ix trx storeKeys) s := by
  induction keys generalizing s with
  | nil => rfl
  | cons k keys ih =>
    have hcons : positions (k :: keys) = k.prefixes ++ positions keys := rfl
    rw [hcons, foldlM_append, foldlM_cons]
    apply bind_congr
    intro s'
    exact ih s'

/-- The outcome of testing a list of entries one after the other. -/
def tested (ps : List CertKey) (keyList : List CertKey) (d : ℤ) : Option (List CertKey × ℤ) :=
  if trx.isolation then some (keyList, d)
  else if ps.any (conflictAt ix trx) then none
  else some (keyList, ps.foldl (fun d p => max d (dependsAt ix p)) d)

theorem tested_cons (p : CertKey) (ps keyList : List CertKey) (d : ℤ) :
    tested ix trx (p :: ps) keyList d =
      if trx.isolation then some (keyList, d)
      else if conflictAt ix trx p then none
      else tested ix trx ps keyList (max d (dependsAt ix p)) := by
  unfold tested
  cases trx.isolation <;> cases hp : conflictAt ix trx p <;> simp [hp]

theorem tested_isolation (h : trx.isolation = true) (ps keyList : List CertKey) (d : ℤ) :
    tested ix trx ps keyList d = some (keyList, d) := by
  simp [tested, h]

theorem foldlM_store (ps keyList : List CertKey) (d : ℤ) :
    ps.foldlM (certifyPrefix ix trx true) (keyList, d) =
      tested ix trx (fresh keyList ps) (keyList ++ fresh keyList ps) d := by
  induction ps generalizing keyList d with
  | nil => simp [fresh, tested]
  | cons p ps ih =>
    rw [foldlM_cons]
    unfold fresh
    by_cases hdup : keyList.any p.same = true
    · have hskip : certifyPrefix ix trx true (keyList, d) p = some (keyList, d) := by
        simp only [certifyPrefix]
        rw [if_pos ⟨trivial, hdup⟩]
      rw [hskip, if_pos hdup]
      exact ih keyList d
    · have hstep : certifyPrefix ix trx true (keyList, d) p =
          if trx.isolation then some (keyList ++ [p], d)
          else if conflictAt ix trx p then none
          else some (keyList ++ [p], max d (dependsAt ix p)) := by
        simp only [certifyPrefix, certifyAndDepend_eq]
        rw [if_neg (fun h => hdup h.2)]
        cases conflictAt ix trx p <;> rfl
      rw [hstep, if_neg hdup, tested_cons]
      have happend : keyList ++ p :: fresh (keyList ++ [p]) ps =
          keyList ++ [p] ++ fresh (keyList ++ [p]) ps := by simp
      rw [happend]
      by_cases hiso : trx.isolation = true
      · rw [if_pos hiso, if_pos hiso, Option.bind_eq_bind, Option.bind_some, ih,
          tested_isolation ix trx hiso]
      · rw [if_neg hiso, if_neg hiso]
        cases conflictAt ix trx p
        · exact ih _ _
        · rfl

theorem foldlM_dry (ps keyList : List CertKey) (d : ℤ) :
    ps.foldlM (certifyPrefix ix trx false) (keyList, d) = tested ix trx ps keyList d := by
  induction ps generalizing d with
  | nil => simp [tested]
  | cons p ps ih =>
    have hstep : certifyPrefix ix trx false (keyList, d) p =
        if trx.isolation then some (keyList, d)
        else if conflictAt ix trx p then none
        else some (keyList, max d (dependsAt ix p)) := by
      simp only [certifyPrefix, certifyAndDepend_eq]
      rw [if_neg (by simp)]
      cases conflictAt ix trx p <;> rfl
    rw [foldlM_cons, hstep, tested_cons]
    by_cases hiso : trx.isolation = true
    · rw [if_pos hiso, if_pos hiso, Option.bind_eq_bind, Option.bind_some, ih,
        tested_isolation ix trx hiso]
    · rw [if_neg hiso, if_neg hiso]
      cases conflictAt ix trx p
      · exact ih _
      · rfl

end Loops

section Depends
variable {f : CertKey → ℤ}

theorem foldl_max_ge (ps : List CertKey) (d : ℤ) : d ≤ ps.foldl (fun d p => max d (f p)) d := by
  induction ps generalizing d with
  | nil => exact le_refl d
  | cons p ps ih => exact (le_max_left d (f p)).trans (ih _)

theorem le_foldl_max {ps : List CertKey} {p : CertKey} (h : p ∈ ps) (d : ℤ) :
    f p ≤ ps.foldl (fun d p => max d (f p)) d := by
  induction ps generalizing d with
  | nil => simp at h
  | cons q ps ih =>
    rcases mem_cons.mp h with rfl | h
    · exact (le_max_right d (f p)).trans (foldl_max_ge ps _)
    · exact ih h _

theorem foldl_max_lt {ps : List CertKey} {d b : ℤ} (hd : d < b) (h : ∀ p ∈ ps, f p < b) :
    ps.foldl (fun d p => max d (f p)) d < b := by
  induction ps generalizing d with
  | nil => exact hd
  | cons p ps ih =>
    apply ih
    · exact max_lt hd (h p (.head _))
    · intro q hq
      exact h q (.tail p hq)

end Depends

end Appstack.Galera
