import Appstack.Galera.CertConflict

namespace Appstack.Galera.Certification

open List

/-- Certification without an index: the versions and limits, and what has been decided. -/
structure Ledger where
  version : ℤ
  initialPosition : ℤ
  maxLength : ℤ
  log : CertLog

namespace Ledger

def Accepts (L : Ledger) (X : TrxHandle) : Prop :=
  (X.version = L.version ∧ L.initialPosition ≤ X.lastSeenSeqno ∧
    X.globalSeqno - X.lastSeenSeqno ≤ L.maxLength) ∧
    (X.isolation = false → Passes (certified L.log) X (certKeys X.keys))

open scoped Classical in
noncomputable def verdict (L : Ledger) (X : TrxHandle) : TestResult :=
  if L.Accepts X then .ok else .failed

/-- Commits and purges leave no trace in the ledger. -/
noncomputable def step (L : Ledger) : CertOp → Ledger
  | .appendTrx X => { L with log := L.log ++ [(X, L.verdict X)] }
  | .assignInitialPosition seqno version =>
    { L with version := version, initialPosition := seqno }
  | .setTrxCommitted _ => L
  | .purgeTrxsUpto _ => L

noncomputable def run (L : Ledger) (ops : List CertOp) : Ledger := ops.foldl step L

end Ledger

def CertOp.isOrdered : CertOp → Bool
  | .appendTrx _ => true
  | .assignInitialPosition _ _ => true
  | .setTrxCommitted _ => false
  | .purgeTrxsUpto _ => false

theorem Ledger.run_filter (L : Ledger) (ops : List CertOp) :
    L.run (ops.filter CertOp.isOrdered) = L.run ops := by
  induction ops generalizing L with
  | nil => rfl
  | cons op ops ih =>
    cases op with
    | appendTrx X => exact ih _
    | assignInitialPosition seqno version => exact ih _
    | setTrxCommitted X => exact ih L
    | purgeTrxsUpto seqno => exact ih L

def ledger (c : Certification) (log : CertLog) : Ledger :=
  ⟨c.version, c.initialPosition, c.maxLength, log⟩

/-- No transaction comes after a purge above its snapshot. -/
def PurgesBehind (ops : List CertOp) : Prop :=
  ops.Pairwise fun op op' => ∀ s X, op = .purgeTrxsUpto s → op' = .appendTrx X → s ≤ X.lastSeenSeqno

/-- What is gone cannot be within the range of a transaction that is still to come. -/
def Behind (c : Certification) (H : List TrxHandle) (later : List CertOp) : Prop :=
  ∀ t ∈ H, c.Gone t → t.globalSeqno < c.position - c.maxLength ∨ t.globalSeqno ≤ c.initialPosition ∨
    ∀ X, .appendTrx X ∈ later → t.globalSeqno ≤ X.lastSeenSeqno

section Follow
variable {c : Certification} {log : CertLog} {later : List CertOp} {H : List TrxHandle}
  {c' : Certification} {ops : List CertOp} {log' : CertLog} {X : TrxHandle}

theorem Behind.kept (h : Behind c H (.appendTrx X :: later)) (hg : c.position < X.globalSeqno) :
    c.Admits X → Kept c H X := by
  rintro ⟨-, hinit, hlen⟩ t ht hgone
  rcases h t ht hgone with htrim | hbelow | hlater
  · omega
  · exact hbelow.trans hinit
  · exact hlater X (.head _)

theorem appendTrx_follows (h : Inv c (certified log))
    (hbehind : Behind c (certified log) (.appendTrx X :: later))
    (hg : c.position < X.globalSeqno) (hv : 0 ≤ X.version)
    (hstep : step (c, log) (.appendTrx X) = .ok (c', log')) :
    c'.ledger log' = (c.ledger log).step (.appendTrx X) ∧ Behind c' (certified log') later := by
  obtain ⟨res, c1, happ, -⟩ := appendTrx_inv h hg hv
  obtain ⟨hversion, hinit, hmax, hpos, hgone⟩ := appendTrx_frame h hg hv happ
  have hok := appendTrx_ok_iff h (hbehind.kept hg) hg hv happ
  rw [step, happ] at hstep
  cases hstep
  have hverdict : (c.ledger log).verdict X = res := by
    unfold Ledger.verdict
    cases res with
    | ok => exact if_pos (hok.mp rfl)
    | failed =>
      apply if_neg
      intro haccepts
      cases hok.mpr haccepts
  constructor
  · simp only [ledger, Ledger.step, hversion, hinit, hmax, Ledger.mk.injEq, true_and]
    rw [← hverdict]
    rfl
  · intro t ht hgone'
    obtain ⟨hgoneP, hne⟩ := hgone t hgone'
    -- the new transaction is in the map, so this is an old one
    have hold : t ∈ certified log := by
      rw [certified_append] at ht
      split_ifs at ht
      · rcases mem_append.mp ht with ht | ht
        · exact ht
        · exact absurd (mem_singleton.mp ht).symm hne
      · exact ht
    rw [hpos, hmax, hinit]
    rcases gone_positioned hgoneP with hgoneC | hlt
    · rcases hbehind t hold hgoneC with htrim | hbelow | hlater
      · left
        omega
      · exact Or.inr (Or.inl hbelow)
      · exact Or.inr (Or.inr fun Y hY => hlater Y (.tail _ hY))
    · exact Or.inl hlt

theorem Behind.tail {op : CertOp} (h : Behind c H (op :: later)) : Behind c H later := by
  intro t ht hgone
  rcases h t ht hgone with htrim | hbelow | hlater
  · exact Or.inl htrim
  · exact Or.inr (Or.inl hbelow)
  · exact Or.inr (Or.inr fun X hX => hlater X (.tail _ hX))

theorem Behind.purge {s : ℤ} (h : Behind c H later)
    (hs : ∀ X, .appendTrx X ∈ later → s ≤ X.lastSeenSeqno) :
    Behind (c.purgeTrxsUpto s) H later := by
  intro t ht hgone
  rcases gone_purge_lt hgone with hgone | hlt
  · exact h t ht hgone
  · right
    right
    intro X hX
    have hmin := min_le_left s c.getSafeToDiscardSeqno
    exact (hlt.trans_le (hmin.trans (hs X hX))).le

theorem step_follows (h : Inv c (certified log)) {op : CertOp}
    (hbehind : Behind c (certified log) (op :: later)) (hop : op.Follows c.position)
    (hpurge : ∀ s X, op = .purgeTrxsUpto s → .appendTrx X ∈ later → s ≤ X.lastSeenSeqno)
    (hstep : step (c, log) op = .ok (c', log')) :
    c'.ledger log' = (c.ledger log).step op ∧ Behind c' (certified log') later := by
  cases op with
  | appendTrx X => exact appendTrx_follows h hbehind hop.1 hop.2 hstep
  | setTrxCommitted X =>
    cases hstep
    split_ifs
    · exact ⟨rfl, hbehind.tail⟩
    · exact ⟨rfl, hbehind.tail⟩
  | purgeTrxsUpto s =>
    cases hstep
    exact ⟨rfl, hbehind.tail.purge fun X hX => hpurge s X rfl hX⟩
  | assignInitialPosition seqno version =>
    obtain ⟨c1, hc1, hpos, hinit, hversion, hmax⟩ := c.assignInitialPosition_frame seqno hop.2
    rw [step, hc1] at hstep
    cases hstep
    constructor
    · simp only [ledger, Ledger.step, hinit, hversion, hmax]
    · intro t ht _
      right
      left
      rw [hinit]
      exact (h.le_position t ht).trans hop.1

theorem run_follows (h : Inv c (certified log))
    (hbehind : Behind c (certified log) (ops ++ later)) (hops : InOrder c.position ops)
    (hpurges : PurgesBehind (ops ++ later)) :
    ∃ c' log', run (c, log) ops = .ok (c', log') ∧ Inv c' (certified log') ∧
      c'.ledger log' = (c.ledger log).run ops ∧ Behind c' (certified log') later := by
  induction ops generalizing c log with
  | nil => exact ⟨c, log, rfl, h, rfl, hbehind⟩
  | cons op ops ih =>
    obtain ⟨c1, log1, hstep, hinv, hpos⟩ := step_inv h hops.1
    obtain ⟨hhead, htail⟩ := pairwise_cons.mp hpurges
    obtain ⟨hledger, hbehind1⟩ := step_follows h hbehind hops.1
      (fun s X hs hX => hhead _ hX s X hs rfl) hstep
    obtain ⟨c', log', hrun, hinv', hledger', hbehind'⟩ := ih hinv hbehind1 (hpos ▸ hops.2) htail
    refine ⟨c', log', ?_, hinv', ?_, hbehind'⟩
    · unfold run
      rw [foldlM_cons, hstep]
      exact hrun
    · rw [hledger', hledger]
      rfl

theorem Fresh.run_follows (hfresh : c.Fresh) (hops : InOrder c.position ops)
    (hpurges : PurgesBehind (ops ++ later)) :
    ∃ c' log', run (c, []) ops = .ok (c', log') ∧ Inv c' (certified log') ∧
      c'.ledger log' = (c.ledger []).run ops ∧ Behind c' (certified log') later := by
  have hinv : Inv c (certified []) := hfresh.inv
  have hnone : Behind c (certified []) (ops ++ later) := by
    intro t ht
    cases ht
  exact Certification.run_follows hinv hnone hops hpurges

end Follow

/-- Two modules with the same limits that receive the same transactions in the same order
decide the same, whatever each of them commits, purges and trims in between. -/
theorem appendTrx_verdicts_agree {c₁ c₂ : Certification} {ops₁ ops₂ : List CertOp}
    (hfresh₁ : c₁.Fresh) (hfresh₂ : c₂.Fresh) (hversion : c₁.version = c₂.version)
    (hinit : c₁.initialPosition = c₂.initialPosition) (hmax : c₁.maxLength = c₂.maxLength)
    (hops₁ : InOrder c₁.position ops₁) (hops₂ : InOrder c₂.position ops₂)
    (hsame : ops₁.filter CertOp.isOrdered = ops₂.filter CertOp.isOrdered)
    (hpurges₁ : PurgesBehind ops₁) (hpurges₂ : PurgesBehind ops₂) :
    ∃ c₁' c₂' log, run (c₁, []) ops₁ = .ok (c₁', log) ∧ run (c₂, []) ops₂ = .ok (c₂', log) := by
  rw [← append_nil ops₁] at hpurges₁
  rw [← append_nil ops₂] at hpurges₂
  obtain ⟨c₁', log₁, hrun₁, -, hledger₁, -⟩ := hfresh₁.run_follows hops₁ hpurges₁
  obtain ⟨c₂', log₂, hrun₂, -, hledger₂, -⟩ := hfresh₂.run_follows hops₂ hpurges₂
  have hstart : c₁.ledger [] = c₂.ledger [] := by
    simp only [ledger, hversion, hinit, hmax]
  have hledger : c₁'.ledger log₁ = c₂'.ledger log₂ := by
    rw [hledger₁, hledger₂, ← Ledger.run_filter, ← Ledger.run_filter (c₂.ledger []), hsame, hstart]
  have hlog : log₁ = log₂ := congrArg Ledger.log hledger
  exact ⟨c₁', c₂', log₁, hrun₁, hlog ▸ hrun₂⟩

def thirdWriter : TrxHandle := ordinary 1 [⟨[[3]], false⟩] 3 2

def threeWriters : List CertOp :=
  [.assignInitialPosition 0 1, .appendTrx earlyWriter,
    .appendTrx (ordinary 3 [⟨[[2]], false⟩] 2 1), .appendTrx thirdWriter]

def commitsAndPurge : List CertOp :=
  [.setTrxCommitted earlyWriter, .setTrxCommitted (ordinary 3 [⟨[[2]], false⟩] 2 1),
    .setTrxCommitted thirdWriter, .purgeTrxsUpto 2]

/-- One module commits three transactions and purges the first of them before a fourth that
writes its key, the other does not. -/
theorem appendTrx_verdicts_agree_after_purge :
    (run (defaultCert, []) threeWriters).map (·.1.trxMap.map (·.trx.globalSeqno)) = .ok [1, 2, 3] ∧
    (run (defaultCert, []) (threeWriters ++ commitsAndPurge)).map
      (·.1.trxMap.map (·.trx.globalSeqno)) = .ok [2, 3] ∧
    ∃ c₁ c₂ log, run (defaultCert, []) (threeWriters ++ commitsAndPurge ++
        [.appendTrx (ordinary 4 [⟨[[1]], false⟩] 4 2)]) = .ok (c₁, log) ∧
      run (defaultCert, []) (threeWriters ++ [.appendTrx (ordinary 4 [⟨[[1]], false⟩] 4 2)]) =
        .ok (c₂, log) := by
  have hpurges : PurgesBehind (threeWriters ++ commitsAndPurge ++
      [.appendTrx (ordinary 4 [⟨[[1]], false⟩] 4 2)]) := by
    simp [PurgesBehind, threeWriters, commitsAndPurge, ordinary]
  have hnone : PurgesBehind
      (threeWriters ++ [.appendTrx (ordinary 4 [⟨[[1]], false⟩] 4 2)]) := by
    simp [PurgesBehind, threeWriters]
  exact ⟨rfl, rfl, appendTrx_verdicts_agree (create_fresh _ _) (create_fresh _ _) rfl rfl rfl
    (by decide) (by decide) rfl hpurges hnone⟩

end Appstack.Galera.Certification
