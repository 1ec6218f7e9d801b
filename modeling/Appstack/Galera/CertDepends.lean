import Appstack.Galera.CertConflict

namespace Appstack.Galera

open List

def NoPrefixKey (keys : List Key) : Prop :=
  ∀ k ∈ keys, ∀ k' ∈ keys, k.parts <+: k'.parts → k.parts = k'.parts

theorem NoPrefixKey.prefixFirst {keys : List Key} (h : NoPrefixKey keys) : PrefixFirst keys :=
  pairwise_of_forall_mem_list fun k1 hk1 k2 hk2 _ hle => h k2 hk2 k1 hk1 hle

/-- Two overlapping keys, at least one of them exclusive. -/
def Interferes (T X : TrxHandle) : Prop :=
  ∃ kT ∈ T.keys, ∃ kX ∈ X.keys, kT.Overlaps kX ∧ (kT.shared = false ∨ kX.shared = false)

namespace Certification

variable {c : Certification} {H : List TrxHandle} {X : TrxHandle}

theorem le_initialDepends (h : Inv c H) {t : TrxHandle} (ht : t ∈ H) (hgone : c.Gone t)
    (hlt : t.globalSeqno < X.globalSeqno) : t.globalSeqno ≤ c.initialDepends X := by
  unfold initialDepends
  split_ifs
  · omega
  · split
    · omega
    · rename_i e rest hmap
      have := h.below_map t ht hgone e (hmap ▸ mem_cons_self)
      omega

theorem initialDepends_lt (hmap : ∀ e ∈ c.trxMap, e.trx.globalSeqno < X.globalSeqno) :
    c.initialDepends X < X.globalSeqno := by
  unfold initialDepends
  split_ifs
  · omega
  · split
    · omega
    · rename_i e rest heq
      have := hmap e (heq ▸ mem_cons_self)
      omega

theorem initialDepends_le (ps : List CertKey) (c : Certification) (X : TrxHandle) :
    c.initialDepends X ≤ c.dependsOn X ps := by
  unfold dependsOn
  apply le_max_of_le_left
  split_ifs
  · exact le_refl _
  · exact foldl_max_ge _ _

theorem held_le_dependsOn (hX : X.isolation = false) {ps : List CertKey} {p : CertKey}
    (hp : p ∈ ps) {shared : Bool} (hshared : shared = false ∨ p.shared = false) {L : TrxHandle}
    (hL : (c.certIndex p.parts).held (!p.fullKey) shared = some L) :
    L.globalSeqno ≤ c.dependsOn X ps := by
  have hat : L.globalSeqno ≤ dependsAt c.certIndex p := by
    unfold dependsAt
    rw [KeyEntry.exclusiveRef_eq, KeyEntry.sharedRef_eq]
    cases shared with
    | false =>
      rw [hL]
      split_ifs
      · exact le_refl _
      · exact le_max_right _ _
    | true =>
      have hp' : p.shared = false := by simpa using hshared
      rw [hL, hp', if_neg (by decide)]
      exact le_max_left _ _
  unfold dependsOn
  apply le_max_of_le_left
  rw [if_neg (by simp [hX])]
  exact hat.trans (le_foldl_max hp _)

section
variable (h : Inv c H) (hlt : ∀ t ∈ H, t.globalSeqno < X.globalSeqno)
include h hlt

theorem holder_le_dependsOn
    (hX : X.isolation = false) {ps : List CertKey} {p : CertKey} (hp : p ∈ ps) {shared : Bool}
    (hshared : shared = false ∨ p.shared = false) {T : TrxHandle} (hT : T ∈ H)
    (hholds : T.holds p.parts (!p.fullKey) shared = true) :
    T.globalSeqno ≤ c.dependsOn X ps := by
  obtain ⟨L, hL⟩ :=
    exists_latest (p := fun t => t.holds p.parts (!p.fullKey) shared) hT hholds
  have hLH := (mem_of_latest hL).1
  have hle : T.globalSeqno ≤ L.globalSeqno := le_latest h.ascending hT hholds hL
  by_cases hgone : c.Gone L
  · exact hle.trans ((le_initialDepends h hLH hgone (hlt L hLH)).trans (initialDepends_le ps c X))
  · have href := (h.sees p.parts (!p.fullKey) shared).eq_some hL hgone
    exact hle.trans (held_le_dependsOn hX hp hshared href)

theorem interferes_le_dependsOn
    (hX : X.isolation = false) (hkeys : NoPrefixKey X.keys) {T : TrxHandle} (hT : T ∈ H)
    (hTkeys : NoPrefixKey T.keys) (hinter : Interferes T X) :
    T.globalSeqno ≤ c.dependsOn X (certKeys X.keys) := by
  obtain ⟨kT, hkT, kX, hkX, hover, hshared⟩ := hinter
  rcases hover with hle | hle
  · -- the entry of `X` at the shorter key of `T`, which holds it as a full key
    have hpos : (⟨kT.parts, kT.parts = kX.parts, kX.shared⟩ : CertKey) ∈ positions X.keys :=
      mem_positions.mpr ⟨kX, hkX, hle, rfl, by simp⟩
    obtain ⟨q, hq, hparts, hqs⟩ := exists_mem_certKeys hpos
    have hheld : T.holds q.parts (!q.fullKey) kT.shared = true := by
      rw [hparts]
      exact TrxHandle.holds_of_full (TrxHandle.holds_full_of_key hTkeys.prefixFirst hkT)
    exact holder_le_dependsOn h hlt hX hq (hshared.imp_right hqs.trans) hT hheld
  · have hfull := full_mem_certKeys hkeys.prefixFirst hkX
    exact holder_le_dependsOn h hlt hX hfull hshared hT (TrxHandle.holds_of_prefix hkT hle)

theorem dependsOn_bounds (hmap : ∀ e ∈ c.trxMap, e.trx.globalSeqno < X.globalSeqno)
    (hpa : c.lastPaUnsafe < X.globalSeqno) (hg : 0 ≤ X.globalSeqno) (ps : List CertKey) :
    c.dependsOn X ps < X.globalSeqno := by
  have hinit := initialDepends_lt hmap
  have hheld (p : CertKey) (full shared : Bool) :
      seqnoOf ((c.certIndex p.parts).held full shared) < X.globalSeqno := by
    cases hr : (c.certIndex p.parts).held full shared with
    | none =>
      change (-1 : ℤ) < _
      omega
    | some L =>
      have hL := (h.sees p.parts full shared).eq_some_of_some hr
      exact hlt L (mem_of_latest hL).1
  apply max_lt _ hpa
  split_ifs
  · exact hinit
  · apply foldl_max_lt hinit
    intro p _
    unfold dependsAt
    rw [KeyEntry.exclusiveRef_eq, KeyEntry.sharedRef_eq]
    split_ifs
    · exact hheld p _ _
    · exact max_lt (hheld p _ _) (hheld p _ _)

end

/-- In every history without prefix keys, a transaction that passes depends on a seqno below
its own, at or above each certified transaction that is parallel-unsafe or interferes with
it, whether that one is still in the map or not. An isolated or parallel-unsafe transaction
depends on all that precede it. -/
theorem appendTrx_depends_on_interfering {c₀ : Certification} {ops : List CertOp}
    (hfresh : c₀.Fresh) (hops : InOrder c₀.position (ops ++ [.appendTrx X]))
    (hg : 0 ≤ X.globalSeqno)
    (hkeys : ∀ t, .appendTrx t ∈ ops ++ [.appendTrx X] → NoPrefixKey t.keys) :
    ∃ c log, run (c₀, []) ops = .ok (c, log) ∧ ∃ res c', c.appendTrx X = .ok (res, c') ∧
      (res = .ok → ∃ e ∈ c'.trxMap, e.trx = X ∧ e.dependsSeqno < X.globalSeqno ∧
        (∀ T ∈ certified log, T.paUnsafe = true ∨ Interferes T X → T.globalSeqno ≤ e.dependsSeqno) ∧
        (X.isolation = true ∨ X.paUnsafe = true → e.dependsSeqno = X.globalSeqno - 1)) := by
  have hinv₀ : Inv c₀ (certified []) := hfresh.inv
  obtain ⟨c, log, hrun, hinv, hpos, hv⟩ := run_before hinv₀ hops
  have hmap := map_lt_of_positioned hinv hpos
  have hlt : ∀ t ∈ certified log, t.globalSeqno < X.globalSeqno :=
    fun t ht => (hinv.le_position t ht).trans_lt hpos
  have hlast : (c.positioned X).lastPaUnsafe < X.globalSeqno := by
    rw [(c.positioned_frame X).2.2.2.2]
    exact hinv.lastPaUnsafe_le.trans_lt hpos
  have hinvP := hinv.positioned hpos
  have hbound := dependsOn_bounds hinvP hlt hmap hlast hg (certKeys X.keys)
  have hall : X.isolation = true ∨ X.paUnsafe = true →
      X.globalSeqno - 1 ≤ (c.positioned X).dependsOn X (certKeys X.keys) := by
    intro hflag
    have hinit : (c.positioned X).initialDepends X = X.globalSeqno - 1 := by
      rw [initialDepends, if_pos hflag]
    rw [← hinit]
    exact initialDepends_le _ _ _
  refine ⟨c, log, hrun, ?_⟩
  rw [c.appendTrx_eq (hinv.version_eq hv) hmap]
  split_ifs
  swap
  · exact ⟨_, _, rfl, fun h => by cases h⟩
  refine ⟨_, _, rfl, fun _ => ⟨_, mem_append_right _ (mem_singleton_self _), rfl, hbound, ?_, ?_⟩⟩
  · intro T hT hcause
    by_cases hX : X.isolation = false
    · rcases hcause with hpa | hinter
      · exact (hinvP.paUnsafe T hT hpa).trans (le_max_right _ _)
      · exact interferes_le_dependsOn hinvP hlt hX
          (hkeys X (mem_append_right _ (mem_singleton_self _))) hT
          (hkeys T (mem_append_left _ (mem_of_certified hrun hT))) hinter
    · have hle := hall (Or.inl (by simpa using hX))
      have := hlt T hT
      simp only
      omega
  · intro hflag
    have := hall hflag
    simp only
    omega

/-- The later of two writers of one key waits for the earlier one that it has seen. -/
theorem appendTrx_depends_on_earlier_writer :
    ∃ c log, run (defaultCert, []) [.assignInitialPosition 0 1, .appendTrx earlyWriter]
        = .ok (c, log) ∧ ∃ res c', c.appendTrx (ordinary 1 [⟨[[1]], false⟩] 2 1) = .ok (res, c') ∧
      (res = .ok → ∃ e ∈ c'.trxMap, e.trx = ordinary 1 [⟨[[1]], false⟩] 2 1 ∧ e.dependsSeqno < 2 ∧
        (∀ T ∈ certified log, T.paUnsafe = true ∨
            Interferes T (ordinary 1 [⟨[[1]], false⟩] 2 1) → T.globalSeqno ≤ e.dependsSeqno) ∧
        (false = true ∨ false = true → e.dependsSeqno = 2 - 1)) := by
  have hkeys : ∀ t, .appendTrx t ∈ [CertOp.assignInitialPosition 0 1, .appendTrx earlyWriter] ++
      [.appendTrx (ordinary 1 [⟨[[1]], false⟩] 2 1)] → NoPrefixKey t.keys := by
    intro t ht
    have hsingle : t.keys = [⟨[[1]], false⟩] := by
      simp only [cons_append, nil_append, mem_cons, CertOp.appendTrx.injEq,
        reduceCtorEq, not_mem_nil, or_false, false_or] at ht
      rcases ht with rfl | rfl <;> rfl
    intro k hk k' hk' _
    rw [hsingle, mem_singleton] at hk hk'
    rw [hk, hk']
  exact appendTrx_depends_on_interfering (create_fresh _ _) (by decide) (by decide) hkeys

end Certification

end Appstack.Galera
