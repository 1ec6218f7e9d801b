import Appstack.Galera.CertAgree

namespace Appstack.Galera.Certification

open List

def CertOp.isAssign : CertOp → Bool
  | .assignInitialPosition _ _ => true
  | _ => false

theorem InOrder.filter {pos : ℤ} {ops : List CertOp} (h : InOrder pos ops) :
    InOrder pos (ops.filter CertOp.isOrdered) := by
  induction ops generalizing pos with
  | nil => trivial
  | cons op ops ih =>
    cases op with
    | appendTrx X => exact ⟨h.1, ih h.2⟩
    | assignInitialPosition seqno version => exact ⟨h.1, ih h.2⟩
    | setTrxCommitted X => exact ih h.2
    | purgeTrxsUpto seqno => exact ih h.2

theorem foldl_position_filter (pos : ℤ) (ops : List CertOp) :
    (ops.filter CertOp.isOrdered).foldl CertOp.position pos = ops.foldl CertOp.position pos := by
  induction ops generalizing pos with
  | nil => rfl
  | cons op ops ih =>
    cases op with
    | appendTrx X => exact ih _
    | assignInitialPosition seqno version => exact ih _
    | setTrxCommitted X => exact ih pos
    | purgeTrxsUpto seqno => exact ih pos

namespace Ledger

section
variable (L : Ledger) {ops : List CertOp} {t : TrxHandle}

theorem certified_step (op : CertOp) (ht : t ∈ certified L.log) :
    t ∈ certified (L.step op).log := by
  cases op with
  | appendTrx X =>
    change t ∈ certified (L.log ++ [(X, L.verdict X)])
    rw [certified_append]
    split_ifs
    · exact mem_append_left _ ht
    · exact ht
  | assignInitialPosition seqno version => exact ht
  | setTrxCommitted X => exact ht
  | purgeTrxsUpto seqno => exact ht

theorem certified_run (ops : List CertOp)
    (ht : t ∈ certified L.log) : t ∈ certified (L.run ops).log := by
  induction ops generalizing L with
  | nil => exact ht
  | cons op ops ih => exact ih _ (L.certified_step op ht)

theorem maxLength_run (ops : List CertOp) : (L.run ops).maxLength = L.maxLength := by
  induction ops generalizing L with
  | nil => rfl
  | cons op ops ih =>
    refine (ih (L.step op)).trans ?_
    cases op <;> rfl

theorem config_run (hops : ∀ op ∈ ops, op.isAssign = false) :
    (L.run ops).version = L.version ∧ (L.run ops).initialPosition = L.initialPosition := by
  induction ops generalizing L with
  | nil => exact ⟨rfl, rfl⟩
  | cons op ops ih =>
    have hstep : (L.step op).version = L.version ∧
        (L.step op).initialPosition = L.initialPosition := by
      cases op with
      | assignInitialPosition seqno version => cases hops _ (.head _)
      | appendTrx X => exact ⟨rfl, rfl⟩
      | setTrxCommitted X => exact ⟨rfl, rfl⟩
      | purgeTrxsUpto seqno => exact ⟨rfl, rfl⟩
    obtain ⟨hversion, hinit⟩ := ih (L.step op) fun op' h => hops op' (.tail _ h)
    exact ⟨hversion.trans hstep.1, hinit.trans hstep.2⟩

theorem initial_step {pos : ℤ} (hpos : L.initialPosition ≤ pos) {op : CertOp}
    (hop : op.Follows pos) :
    L.initialPosition ≤ (L.step op).initialPosition ∧
      (L.step op).initialPosition ≤ op.position pos := by
  cases op with
  | appendTrx X => exact ⟨le_refl _, hpos.trans hop.1.le⟩
  | assignInitialPosition seqno version => exact ⟨hpos.trans hop.1, le_refl _⟩
  | setTrxCommitted X => exact ⟨le_refl _, hpos⟩
  | purgeTrxsUpto seqno => exact ⟨le_refl _, hpos⟩

theorem initial_run {pos : ℤ} (hpos : L.initialPosition ≤ pos)
    (hops : InOrder pos ops) : L.initialPosition ≤ (L.run ops).initialPosition := by
  induction ops generalizing L pos with
  | nil => exact le_refl _
  | cons op ops ih =>
    obtain ⟨hle, hpos'⟩ := L.initial_step hpos hops.1
    exact hle.trans (ih (L.step op) hpos' hops.2)

end

end Ledger

/-- For each entry that is tested: when its latest holder is an ordinary transaction of the
own source, all others that hold it have been seen. -/
def UnmaskedEntries (H : List TrxHandle) (X : TrxHandle) : Prop :=
  ∀ p ∈ certKeys X.keys, ∀ L, latestHolder H p.parts (!p.fullKey) false = some L →
    L.sourceId = X.sourceId → L.isolation = false →
    ∀ T ∈ H, T.holds p.parts (!p.fullKey) false = true → ¬Outruns T X

section Tests
variable {c : Certification} {H H' : List TrxHandle} {X : TrxHandle}

theorem exists_holder_of_early (h : Inv c H) (hkeys : PrefixFirst X.keys)
    (hconf : KeyConflict c.certIndex X (positions X.keys)) :
    ∃ q ∈ certKeys X.keys, ∃ T ∈ H, T.holds q.parts (!q.fullKey) false = true ∧ Outruns T X := by
  obtain ⟨-, p, hp, hat⟩ := hconf
  simp only [conflictAt, Option.any_eq_true, KeyEntry.exclusiveRef_eq, conflictsWith_iff] at hat
  obtain ⟨T, hT, hout⟩ := hat
  obtain ⟨hTH, hholds⟩ := mem_of_latest ((h.sees p.parts (!p.fullKey) false).eq_some_of_some hT)
  cases hfull : p.fullKey with
  | true =>
    -- a full key is in the key list as a full key
    obtain ⟨k, hk, -, -, hiff⟩ := mem_positions.mp hp
    have hparts : p.parts = k.parts := hiff.mp hfull
    refine ⟨_, full_mem_certKeys hkeys hk, T, hTH, ?_, hout⟩
    simpa only [hparts, hfull] using hholds
  | false =>
    obtain ⟨q, hq, hparts, -⟩ := exists_mem_certKeys hp
    refine ⟨q, hq, T, hTH, ?_, hout⟩
    rw [hfull, ← hparts] at hholds
    exact TrxHandle.holds_of_full hholds

theorem not_passes_of_holder (hH : Ascending H) (hun : UnmaskedEntries H X) {q : CertKey}
    (hq : q ∈ certKeys X.keys) {T : TrxHandle} (hT : T ∈ H)
    (hholds : T.holds q.parts (!q.fullKey) false = true) (hout : Outruns T X) :
    ¬Passes H X (certKeys X.keys) := by
  intro hpass
  obtain ⟨L, hL⟩ := exists_latest (p := fun t => t.holds q.parts (!q.fullKey) false) hT hholds
  have hlate : T.globalSeqno ≤ L.globalSeqno := le_latest hH hT hholds hL
  have hno : ¬Outruns L X := hpass q hq L hL
  by_cases hs : L.sourceId = X.sourceId
  · cases hiso : L.isolation with
    | true => exact hno ⟨hout.1.trans_le hlate, Or.inr hiso⟩
    | false => exact hun q hq L hL hs hiso T hT hholds hout
  · exact hno ⟨hout.1.trans_le hlate, Or.inl hs⟩

theorem rejected_of_early {c1 c2 : Certification} {log1 log2 : CertLog} {rest : List CertOp}
    (h1 : Inv c1 (certified log1)) (h2 : Inv c2 (certified log2))
    (hledger : c2.ledger log2 = (c1.ledger log1).run rest) (hrest : InOrder c1.position rest)
    (hkeys : PrefixFirst X.keys) (hun : UnmaskedEntries (certified log2) X)
    (hconf : X.version = c1.version ∨ ∀ op ∈ rest, op.isAssign = false)
    (hearly : ¬c1.Admits X ∨ KeyConflict c1.certIndex X (positions X.keys)) (hadmits : c2.Admits X) :
    X.isolation = false ∧ ¬Passes (certified log2) X (certKeys X.keys) := by
  have hversion : c2.version = ((c1.ledger log1).run rest).version :=
    congrArg Ledger.version hledger
  have hinit : c2.initialPosition = ((c1.ledger log1).run rest).initialPosition :=
    congrArg Ledger.initialPosition hledger
  have hmax : c2.maxLength = c1.maxLength :=
    (congrArg Ledger.maxLength hledger).trans (Ledger.maxLength_run _ _)
  have hlog : log2 = ((c1.ledger log1).run rest).log := congrArg Ledger.log hledger
  obtain ⟨hver, hlow, hlen⟩ := hadmits
  rcases hearly with hnot | hconflict
  · exfalso
    apply hnot
    refine ⟨?_, ?_, hmax ▸ hlen⟩
    · rcases hconf with heq | hnone
      · exact heq
      · exact hver.trans (hversion.trans (Ledger.config_run _ hnone).1)
    · have hle := Ledger.initial_run (c1.ledger log1) h1.initial_le hrest
      exact hle.trans (hinit ▸ hlow)
  · obtain ⟨q, hq, T, hT, hholds, hout⟩ := exists_holder_of_early h1 hkeys hconflict
    have hT2 : T ∈ certified log2 := hlog ▸ Ledger.certified_run _ _ hT
    exact ⟨hconflict.1, not_passes_of_holder h2.ascending hun hq hT2 hholds hout⟩

/-- A transaction that the early test of one node rejects is rejected by every node in its
turn. The first node has certified a part of what precedes the transaction, the second one
all of it; each commits and purges in its own time. -/
theorem early_failure_is_final {c₁ c₂ : Certification} {ops₁ ops₂ rest : List CertOp}
    {X : TrxHandle} (hfresh₁ : c₁.Fresh) (hfresh₂ : c₂.Fresh) (hversion : c₁.version = c₂.version)
    (hinit : c₁.initialPosition = c₂.initialPosition) (hmax : c₁.maxLength = c₂.maxLength)
    (hops₁ : InOrder c₁.position ops₁) (hops₂ : InOrder c₂.position (ops₂ ++ [.appendTrx X]))
    (hsame : ops₂.filter CertOp.isOrdered = ops₁.filter CertOp.isOrdered ++ rest)
    (hpurges₁ : PurgesBehind ops₁) (hpurges₂ : PurgesBehind (ops₂ ++ [.appendTrx X]))
    {c₁' c₂' : Certification} {log₁ log₂ : CertLog} (hrun₁ : run (c₁, []) ops₁ = .ok (c₁', log₁))
    (hrun₂ : run (c₂, []) ops₂ = .ok (c₂', log₂)) (hkeys : PrefixFirst X.keys)
    (hun : UnmaskedEntries (certified log₂) X)
    (hconf : X.version = c₁'.version ∨ ∀ op ∈ rest, op.isAssign = false) :
    ∃ early res c₂'', c₁'.test X false = .ok early ∧ c₂'.appendTrx X = .ok (res, c₂'') ∧
      (early.1 = .failed → res = .failed) := by
  have hinv₀ : Inv c₂ (certified []) := hfresh₂.inv
  obtain ⟨_, _, hrun₂', -, hg, hv⟩ := run_before hinv₀ hops₂
  obtain ⟨rfl, rfl⟩ := Prod.mk.inj (Except.ok.inj (hrun₂.symm.trans hrun₂'))
  rw [← append_nil ops₁] at hpurges₁
  obtain ⟨_, _, hrun₁', hinv₁, hledger₁, -⟩ := hfresh₁.run_follows hops₁ hpurges₁
  obtain ⟨rfl, rfl⟩ := Prod.mk.inj (Except.ok.inj (hrun₁.symm.trans hrun₁'))
  obtain ⟨_, _, hrun₂'', hinv₂, hledger₂, hbehind⟩ :=
    hfresh₂.run_follows (inOrder_append.mp hops₂).1 hpurges₂
  obtain ⟨rfl, rfl⟩ := Prod.mk.inj (Except.ok.inj (hrun₂.symm.trans hrun₂''))
  have hstart : c₁.ledger [] = c₂.ledger [] := by
    simp only [ledger, hversion, hinit, hmax]
  have hledger : c₂'.ledger log₂ = (c₁'.ledger log₁).run rest := by
    rw [hledger₁, hledger₂, ← Ledger.run_filter, hsame, Ledger.run, foldl_append,
      ← Ledger.run_filter (c₁.ledger []), hstart]
    rfl
  have hpos : c₁'.position = ops₁.foldl CertOp.position c₂.position := by
    have hinv₁₀ : Inv c₁ (certified []) := hfresh₁.inv
    obtain ⟨_, _, hrun, -, hpos⟩ := run_inv hinv₁₀ hops₁
    obtain ⟨rfl, rfl⟩ := Prod.mk.inj (Except.ok.inj (hrun₁.symm.trans hrun))
    rw [hpos, hfresh₁.position, hfresh₂.position, hinit]
  have hrest : InOrder c₁'.position rest := by
    have hall := (inOrder_append.mp hops₂).1.filter
    rw [hsame] at hall
    rw [hpos, ← foldl_position_filter]
    exact (inOrder_append.mp hall).2
  obtain ⟨res, c₂'', happ, -⟩ := appendTrx_inv hinv₂ hg hv
  have hok := appendTrx_ok_iff hinv₂ (hbehind.kept hg) hg hv happ
  have hv₁ : X.version = c₁'.version → c₁'.version = 1 ∨ c₁'.version = 2 := by
    intro heq
    have hsupported := hinv₁.version
    unfold SupportedVersion at hsupported
    omega
  refine ⟨_, res, c₂'', c₁'.test_eq hv₁ false, happ, ?_⟩
  intro hfailed
  cases res with
  | failed => rfl
  | ok =>
    obtain ⟨hadmits, hpass⟩ := hok.mp rfl
    have hearly : ¬c₁'.Admits X ∨ KeyConflict c₁'.certIndex X (positions X.keys) := by
      by_contra hnone
      rw [not_or, not_not] at hnone
      rw [if_pos hnone.1, doTest_dry, if_neg hnone.2] at hfailed
      cases hfailed
    obtain ⟨hord, hnot⟩ :=
      rejected_of_early hinv₁ hinv₂ hledger hrest hkeys hun hconf hearly hadmits
    exact absurd (hpass hord) hnot

end Tests

/-- The late writer is tested right after the early one, and in order after a transaction of
a third node. -/
theorem early_failure_is_final_late_writer : ∃ c₁ c₂ log₁ log₂ early res c₂',
      run (defaultCert, []) [.assignInitialPosition 0 1, .appendTrx earlyWriter] = .ok (c₁, log₁) ∧
      run (defaultCert, []) [.assignInitialPosition 0 1, .appendTrx earlyWriter,
        .appendTrx (ordinary 3 [⟨[[2]], false⟩] 2 0)] = .ok (c₂, log₂) ∧
      c₁.test (ordinary 1 [⟨[[1]], false⟩] 3 0) false = .ok early ∧
      c₂.appendTrx (ordinary 1 [⟨[[1]], false⟩] 3 0) = .ok (res, c₂') ∧
      early.1 = .failed ∧ (early.1 = .failed → res = .failed) := by
  have hpurges₁ : PurgesBehind [.assignInitialPosition 0 1, .appendTrx earlyWriter] := by
    simp [PurgesBehind]
  have hpurges₂ : PurgesBehind ([.assignInitialPosition 0 1, .appendTrx earlyWriter,
      .appendTrx (ordinary 3 [⟨[[2]], false⟩] 2 0)] ++
        [.appendTrx (ordinary 1 [⟨[[1]], false⟩] 3 0)]) := by
    simp [PurgesBehind]
  have hun : UnmaskedEntries [earlyWriter, ordinary 3 [⟨[[2]], false⟩] 2 0]
      (ordinary 1 [⟨[[1]], false⟩] 3 0) := by
    intro p _ L hL hsource
    have hmem := (mem_of_latest hL).1
    simp only [mem_cons, not_mem_nil, or_false] at hmem
    rcases hmem with rfl | rfl <;> exact absurd hsource (by decide)
  have hsame : List.filter CertOp.isOrdered [.assignInitialPosition 0 1, .appendTrx earlyWriter,
      .appendTrx (ordinary 3 [⟨[[2]], false⟩] 2 0)] =
      List.filter CertOp.isOrdered [.assignInitialPosition 0 1, .appendTrx earlyWriter] ++
        [.appendTrx (ordinary 3 [⟨[[2]], false⟩] 2 0)] := rfl
  have hfresh : defaultCert.Fresh := create_fresh _ _
  obtain ⟨c₁, hrun₁, e, he, hfailed⟩ : ∃ c, run (defaultCert, [])
      [.assignInitialPosition 0 1, .appendTrx earlyWriter] = .ok (c, [(earlyWriter, .ok)]) ∧
      ∃ e, c.test (ordinary 1 [⟨[[1]], false⟩] 3 0) false = .ok e ∧ e.1 = .failed :=
    ⟨_, rfl, _, rfl, rfl⟩
  obtain ⟨c₂, hrun₂⟩ : ∃ c, run (defaultCert, []) [.assignInitialPosition 0 1,
      .appendTrx earlyWriter, .appendTrx (ordinary 3 [⟨[[2]], false⟩] 2 0)] =
      .ok (c, [(earlyWriter, .ok), (ordinary 3 [⟨[[2]], false⟩] 2 0, .ok)]) := ⟨_, rfl⟩
  obtain ⟨early, res, c₂', htest, happ, himp⟩ :=
    early_failure_is_final hfresh hfresh rfl rfl rfl (by decide) (by decide)
      hsame hpurges₁ hpurges₂ hrun₁ hrun₂
      (pairwise_singleton _ _) hun (Or.inr (by decide))
  obtain rfl := Except.ok.inj (he.symm.trans htest)
  exact ⟨c₁, c₂, _, _, e, res, c₂', hrun₁, hrun₂, htest, happ, hfailed, himp⟩

/-- The early test meets the first transaction. In order the second one, of the same source
as the aborted one, has taken its place, and the aborted transaction passes. -/
theorem early_failure_contradicted :
    InOrder defaultCert.position [.assignInitialPosition 0 1, .appendTrx hiddenTrx,
        .appendTrx hidingTrx, .appendTrx unawareTrx] ∧
      ∃ c₁ log₁ c₂ log₂ early c₂',
        run (defaultCert, []) [.assignInitialPosition 0 1, .appendTrx hiddenTrx] = .ok (c₁, log₁) ∧
        run (defaultCert, []) [.assignInitialPosition 0 1, .appendTrx hiddenTrx,
          .appendTrx hidingTrx] = .ok (c₂, log₂) ∧
        c₁.test unawareTrx false = .ok early ∧ early.1 = .failed ∧
        c₂.appendTrx unawareTrx = .ok (.ok, c₂') :=
  ⟨by decide, _, _, _, _, _, _, rfl, rfl, rfl, rfl, rfl⟩

end Appstack.Galera.Certification
