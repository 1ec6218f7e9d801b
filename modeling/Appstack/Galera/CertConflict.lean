import Appstack.Galera.CertRun

namespace Appstack.Galera

open List

def Key.Overlaps (k k' : Key) : Prop := k.parts <+: k'.parts ∨ k'.parts <+: k.parts

/-- A transaction that `X` has not seen, from another source or in isolation mode. -/
def Outruns (T X : TrxHandle) : Prop :=
  X.lastSeenSeqno < T.globalSeqno ∧ (T.sourceId ≠ X.sourceId ∨ T.isolation = true)

def KeysCollide (T X : TrxHandle) : Prop :=
  ∃ kT ∈ T.keys, kT.shared = false ∧ ∃ kX ∈ X.keys, kT.Overlaps kX

def TrxHandle.writesBelow (t : TrxHandle) (parts : Parts) : Bool :=
  t.keys.any fun k => !k.shared && parts.isPrefixOf k.parts

/-- No transaction of the own source hides one of another source: when the latest
transaction below a key is an ordinary one of the own source, the others below that key
have been seen. -/
def Unmasked (H : List TrxHandle) (X : TrxHandle) : Prop :=
  ∀ k ∈ X.keys, ∀ L, latest (fun t => t.writesBelow k.parts) H = some L →
    L.sourceId = X.sourceId → L.isolation = false →
    ∀ T ∈ H, T.writesBelow k.parts = true → ¬Outruns T X

theorem conflictsWith_iff {X T : TrxHandle} : conflictsWith X T = true ↔ Outruns T X := by
  simp only [conflictsWith, Outruns, decide_eq_true_eq, gt_iff_lt, ne_comm]
  exact and_comm

variable {t : TrxHandle} {parts : Parts}

theorem TrxHandle.writesBelow_iff :
    t.writesBelow parts = true ↔ ∃ k ∈ t.keys, k.shared = false ∧ parts <+: k.parts := by
  simp [TrxHandle.writesBelow]

theorem TrxHandle.holds_of_prefix {k : Key} (hk : k ∈ t.keys)
    (hle : parts <+: k.parts) : t.holds parts false k.shared = true := by
  have hpos : (⟨parts, parts = k.parts, k.shared⟩ : CertKey) ∈ positions t.keys :=
    mem_positions.mpr ⟨k, hk, hle, rfl, by simp⟩
  obtain ⟨q, hq, hparts, hshared⟩ := exists_mem_certKeys hpos
  exact holds_iff.mpr ⟨q, hq, hparts, hshared, by simp⟩

theorem TrxHandle.holds_eq_writesBelow (t : TrxHandle) (parts : Parts) :
    t.holds parts false false = t.writesBelow parts := by
  rw [Bool.eq_iff_iff, holds_iff, writesBelow_iff]
  constructor
  · rintro ⟨p, hp, rfl, hshared, -⟩
    obtain ⟨k, hk, hle, hs, -⟩ := mem_positions.mp (mem_positions_of_mem_certKeys hp)
    exact ⟨k, hk, hs ▸ hshared, hle⟩
  · rintro ⟨k, hk, hs, hle⟩
    exact holds_iff.mp (hs ▸ holds_of_prefix hk hle)

theorem TrxHandle.exists_key_of_holds_full {shared : Bool} (h : t.holds parts true shared = true) :
    ∃ k ∈ t.keys, k.shared = shared ∧ k.parts = parts := by
  obtain ⟨p, hp, rfl, rfl, hfull⟩ := holds_iff.mp h
  obtain ⟨k, hk, -, hs, hiff⟩ := mem_positions.mp (mem_positions_of_mem_certKeys hp)
  exact ⟨k, hk, hs.symm, (hiff.mp (hfull rfl)).symm⟩

theorem TrxHandle.holds_full_of_key (h : PrefixFirst t.keys) {k : Key}
    (hk : k ∈ t.keys) : t.holds k.parts true k.shared = true :=
  holds_iff.mpr ⟨_, full_mem_certKeys h hk, rfl, rfl, fun _ => rfl⟩

namespace Certification

def Passes (H : List TrxHandle) (X : TrxHandle) (ps : List CertKey) : Prop :=
  ∀ p ∈ ps, ∀ L, latestHolder H p.parts (!p.fullKey) false = some L → ¬Outruns L X

/-- Nothing above the snapshot of the transaction has been purged. -/
def Kept (c : Certification) (H : List TrxHandle) (X : TrxHandle) : Prop :=
  ∀ t ∈ H, c.Gone t → t.globalSeqno ≤ X.lastSeenSeqno

section History
variable {c : Certification} {H : List TrxHandle} {X : TrxHandle}

/-- What has been purged cannot conflict, so the index gives the answer of the history. -/
theorem keyConflict_iff (h : Inv c H) (hkept : Kept c H X) (ps : List CertKey) :
    KeyConflict c.certIndex X ps ↔ X.isolation = false ∧ ¬Passes H X ps := by
  have hiff (p : CertKey) : conflictAt c.certIndex X p = true ↔
      ∃ L, latestHolder H p.parts (!p.fullKey) false = some L ∧ Outruns L X := by
    simp only [conflictAt, Option.any_eq_true, KeyEntry.exclusiveRef_eq, conflictsWith_iff]
    have hseen := h.sees p.parts (!p.fullKey) false
    constructor
    · rintro ⟨L, hL, hout⟩
      exact ⟨L, hseen.eq_some_of_some hL, hout⟩
    · rintro ⟨L, hL, hout⟩
      refine ⟨L, hseen.eq_some hL ?_, hout⟩
      intro hgone
      have := hkept L (mem_of_latest hL).1 hgone
      exact absurd hout.1 (not_lt.mpr this)
  unfold KeyConflict Passes
  simp only [hiff, not_forall, not_not, exists_prop]

theorem Kept.positioned (hkept : Kept c H X) (hadmits : c.Admits X) :
    Kept (c.positioned X) H X := by
  intro t ht hgone
  rcases gone_positioned hgone with hgone | hlt
  · exact hkept t ht hgone
  · have hlen := hadmits.2.2
    omega

theorem appendTrx_ok_iff (h : Inv c H) (hkept : c.Admits X → Kept c H X)
    (hg : c.position < X.globalSeqno) (hv : 0 ≤ X.version) {res : TestResult} {c' : Certification}
    (happ : c.appendTrx X = .ok (res, c')) :
    res = .ok ↔ c.Admits X ∧ (X.isolation = false → Passes H X (certKeys X.keys)) := by
  rw [c.appendTrx_eq (h.version_eq hv) (map_lt_of_positioned h hg)] at happ
  have hres : _ = res := congrArg Prod.fst (Except.ok.inj happ)
  have hiff : res = .ok ↔ (c.positioned X).Admits X ∧
      ¬KeyConflict (c.positioned X).certIndex X (certKeys X.keys) := by
    rw [← hres]
    split_ifs with hcond
    · simpa using hcond
    · simpa using hcond
  rw [hiff, positioned_admits]
  apply and_congr_right
  intro hadmits
  rw [keyConflict_iff (h.positioned hg) ((hkept hadmits).positioned hadmits), not_and, not_not]

variable {T : TrxHandle}

theorem seen_below (hH : Ascending H) (hpass : Passes H X (certKeys X.keys))
    (hkeys : PrefixFirst X.keys) (hun : Unmasked H X) {k : Key} (hk : k ∈ X.keys) (hT : T ∈ H)
    (hbelow : T.writesBelow k.parts = true) : ¬Outruns T X := by
  intro hout
  obtain ⟨L, hL⟩ := exists_latest (p := fun t => t.writesBelow k.parts) hT hbelow
  have hholder : latestHolder H k.parts false false = some L := by
    simpa only [latestHolder, TrxHandle.holds_eq_writesBelow] using hL
  have hlate : T.globalSeqno ≤ L.globalSeqno := le_latest hH hT hbelow hL
  have hno : ¬Outruns L X := hpass _ (full_mem_certKeys hkeys hk) L hholder
  -- the latest one does not conflict, although it is late enough
  have hown : L.sourceId = X.sourceId ∧ L.isolation = false := by
    by_contra hc
    apply hno
    refine ⟨hout.1.trans_le hlate, ?_⟩
    by_cases hs : L.sourceId = X.sourceId
    · right
      by_contra hiso
      exact hc ⟨hs, Bool.eq_false_iff.mpr hiso⟩
    · exact Or.inl hs
  exact hun k hk L hL hown.1 hown.2 T hT hbelow hout

/-- Between certified transactions: the later one has seen all that write below its keys. -/
def SeenBelow (T F : TrxHandle) : Prop :=
  F.isolation = false → ∀ k ∈ F.keys, T.writesBelow k.parts = true → ¬Outruns T F

theorem seen_of_passes (hH : Ascending H) (hseen : H.Pairwise SeenBelow)
    (hfirst : ∀ t ∈ H, PrefixFirst t.keys)
    (hgrow : ∀ F ∈ H, F.sourceId = X.sourceId → F.lastSeenSeqno ≤ X.lastSeenSeqno)
    (hpass : Passes H X (certKeys X.keys)) (hkeys : PrefixFirst X.keys) (hun : Unmasked H X)
    (hT : T ∈ H) (hcol : KeysCollide T X) : ¬Outruns T X := by
  intro hout
  obtain ⟨kT, hkT, hexcl, kX, hkX, hover⟩ := hcol
  have hself : T.writesBelow kT.parts = true :=
    TrxHandle.writesBelow_iff.mpr ⟨kT, hkT, hexcl, prefix_refl _⟩
  rcases hover with hle | hle
  · -- the key of `T` is the shorter one
    have hpos : (⟨kT.parts, kT.parts = kX.parts, kX.shared⟩ : CertKey) ∈ positions X.keys :=
      mem_positions.mpr ⟨kX, hkX, hle, rfl, by simp⟩
    obtain ⟨q, hq, hparts, -⟩ := exists_mem_certKeys hpos
    simp only at hparts
    cases hfull : q.fullKey with
    | true =>
      obtain ⟨k, hk, -, -, hiff⟩ := mem_positions.mp (mem_positions_of_mem_certKeys hq)
      have hkparts : kT.parts = k.parts := hparts.symm.trans (hiff.mp hfull)
      exact seen_below hH hpass hkeys hun hk hT (hkparts ▸ hself) hout
    | false =>
      have hheld : T.holds kT.parts true false = true :=
        hexcl ▸ TrxHandle.holds_full_of_key (hfirst T hT) hkT
      obtain ⟨F, hF⟩ := exists_latest (p := fun t => t.holds kT.parts true false) hT hheld
      obtain ⟨hFH, hFheld⟩ := mem_of_latest hF
      have hlate : T.globalSeqno ≤ F.globalSeqno := le_latest hH hT hheld hF
      have hno : ¬Outruns F X := by
        apply hpass q hq F
        rw [hparts, hfull]
        exact hF
      have hsource : F.sourceId = X.sourceId := by
        by_contra hs
        exact hno ⟨hout.1.trans_le hlate, Or.inl hs⟩
      have hord : F.isolation = false := by
        by_contra hiso
        exact hno ⟨hout.1.trans_le hlate, Or.inr (Bool.not_eq_false _ ▸ hiso)⟩
      -- `F` comes after `T`, has the same key, and has seen no more than `X`
      have hlt : T.globalSeqno < F.globalSeqno := by
        rcases lt_or_eq_of_le hlate with hlt | heq
        · exact hlt
        · exact absurd (eq_of_num_eq hH hT hFH heq ▸ hout) hno
      obtain ⟨kF, hkF, -, hkFparts⟩ := TrxHandle.exists_key_of_holds_full hFheld
      apply rel_of_lt hseen hH hT hFH hlt hord kF hkF (hkFparts ▸ hself)
      exact ⟨(hgrow F hFH hsource).trans_lt hout.1, hsource ▸ hout.2⟩
  · exact seen_below hH hpass hkeys hun hkX hT
      (TrxHandle.writesBelow_iff.mpr ⟨kT, hkT, hexcl, hle⟩) hout

theorem exists_outruns_of_not_passes {ps : List CertKey} (hps : ∀ p ∈ ps, p ∈ positions X.keys)
    (h : ¬Passes H X ps) : ∃ T ∈ H, Outruns T X ∧ KeysCollide T X := by
  simp only [Passes, not_forall, not_not, exists_prop] at h
  obtain ⟨p, hp, L, hL, hout⟩ := h
  obtain ⟨hLH, hholds⟩ := mem_of_latest hL
  obtain ⟨kX, hkX, hle, -, hfull⟩ := mem_positions.mp (hps p hp)
  refine ⟨L, hLH, hout, ?_⟩
  cases hf : p.fullKey with
  | true =>
    rw [hf, Bool.not_true, TrxHandle.holds_eq_writesBelow] at hholds
    obtain ⟨kL, hkL, hexcl, hbelow⟩ := TrxHandle.writesBelow_iff.mp hholds
    exact ⟨kL, hkL, hexcl, kX, hkX, Or.inr (hfull.mp hf ▸ hbelow)⟩
  | false =>
    rw [hf, Bool.not_false] at hholds
    obtain ⟨kL, hkL, hexcl, hparts⟩ := TrxHandle.exists_key_of_holds_full hholds
    exact ⟨kL, hkL, hexcl, kX, hkX, Or.inl (hparts ▸ hle)⟩

end History

/-- Something holds at each call of `append_trx`, of the module and the transactions
certified before the call. -/
def EachAppend (c₀ : Certification) (ops : List CertOp)
    (P : Certification → List TrxHandle → TrxHandle → Prop) : Prop :=
  ∀ pre X post c log, ops = pre ++ .appendTrx X :: post → run (c₀, []) pre = .ok (c, log) →
    P c (certified log) X

/-- The snapshots of one source do not go backwards. -/
def SnapshotsGrow (ops : List CertOp) : Prop :=
  ops.Pairwise fun op op' => ∀ T X, op = .appendTrx T → op' = .appendTrx X →
    T.sourceId = X.sourceId → T.lastSeenSeqno ≤ X.lastSeenSeqno

/-- No key of the transaction is skipped, and no transaction is hidden from it. -/
structure Exposed (H : List TrxHandle) (X : TrxHandle) : Prop where
  prefixFirst : PrefixFirst X.keys
  unmasked : X.isolation = false → Unmasked H X

section Runs
variable {c₀ c : Certification} {ops : List CertOp} {log : CertLog}
  {P : Certification → List TrxHandle → TrxHandle → Prop}

theorem EachAppend.left
    {ops' : List CertOp} (h : EachAppend c₀ (ops ++ ops') P) : EachAppend c₀ ops P := by
  intro pre X post c log hsplit hrun
  apply h pre X (post ++ ops') c log _ hrun
  rw [hsplit, append_assoc, cons_append]

theorem certified_seenBelow (hfresh : c₀.Fresh) (hops : InOrder c₀.position ops)
    (hkept : EachAppend c₀ ops Kept) (hwhen : EachAppend c₀ ops fun _ H X => Exposed H X)
    (hrun : run (c₀, []) ops = .ok (c, log)) :
    (certified log).Pairwise SeenBelow ∧ ∀ t ∈ certified log, PrefixFirst t.keys := by
  induction ops using List.reverseRecOn generalizing c log with
  | nil =>
    cases hrun
    exact ⟨List.Pairwise.nil, by simp [certified]⟩
  | append_singleton ops op ih =>
    obtain ⟨⟨c1, log1⟩, hrun1, hstep⟩ := run_concat.mp hrun
    obtain ⟨hseen, hfirst⟩ := ih (inOrder_append.mp hops).1 hkept.left hwhen.left hrun1
    rcases step_log hstep with ⟨F, res, rfl, happ, rfl⟩ | rfl
    swap
    · exact ⟨hseen, hfirst⟩
    rw [certified_append]
    split_ifs with hres
    swap
    · exact ⟨hseen, hfirst⟩
    -- the new transaction has passed the test on the history before it
    have hinv0 : Inv c₀ (certified []) := hfresh.inv
    obtain ⟨c2, log2, hrun2, hinv, hg, hv⟩ := run_before hinv0 hops
    obtain ⟨rfl, rfl⟩ := Prod.mk.inj (Except.ok.inj (hrun1.symm.trans hrun2))
    have hexp := hwhen ops F [] _ _ rfl hrun1
    have hpass := (appendTrx_ok_iff hinv (fun _ => hkept ops F [] _ _ rfl hrun1) hg hv happ).mp hres
    constructor
    · apply pairwise_append.mpr
      refine ⟨hseen, pairwise_singleton _ _, ?_⟩
      intro T hT F' hF' hord k hk hbelow
      rw [mem_singleton.mp hF'] at hord hk ⊢
      exact seen_below hinv.ascending (hpass.2 hord) hexp.prefixFirst (hexp.unmasked hord) hk hT
        hbelow
    · intro t ht
      rcases mem_append.mp ht with ht | ht
      · exact hfirst t ht
      · rw [mem_singleton.mp ht]
        exact hexp.prefixFirst

/-- In a run where nothing is skipped or hidden, an ordinary transaction passes the key test
if and only if it has seen every earlier transaction that collides with it. -/
theorem appendTrx_first_committer_wins (hfresh : c₀.Fresh) (hops : InOrder c₀.position ops)
    (hgrow : SnapshotsGrow ops) (hkept : EachAppend c₀ ops Kept)
    (hwhen : EachAppend c₀ ops fun _ H X => Exposed H X) {pre post : List CertOp}
    {X : TrxHandle} (hsplit : ops = pre ++ .appendTrx X :: post) (hX : X.isolation = false) :
    ∃ c log res c', run (c₀, []) pre = .ok (c, log) ∧ c.appendTrx X = .ok (res, c') ∧
      (res = .ok → ¬∃ T ∈ certified log, Outruns T X ∧ KeysCollide T X) ∧
      (res = .failed → c.Admits X → ∃ T ∈ certified log, Outruns T X ∧ KeysCollide T X) := by
  subst hsplit
  have hinv₀ : Inv c₀ (certified []) := hfresh.inv
  obtain ⟨c, log, hrun, hinv, hg, hv⟩ := run_before hinv₀ hops
  obtain ⟨res, c', happ, -⟩ := appendTrx_inv hinv hg hv
  have hiff := appendTrx_ok_iff hinv (fun _ => hkept pre X post c log rfl hrun) hg hv happ
  refine ⟨c, log, res, c', hrun, happ, ?_, ?_⟩
  · rintro hres ⟨T, hT, hout, hcol⟩
    obtain ⟨hseen, hfirst⟩ :=
      certified_seenBelow hfresh (inOrder_append.mp hops).1 hkept.left hwhen.left hrun
    have hexp := hwhen pre X post c log rfl hrun
    have hls : ∀ F ∈ certified log, F.sourceId = X.sourceId →
        F.lastSeenSeqno ≤ X.lastSeenSeqno := by
      intro F hF
      exact (pairwise_append.mp hgrow).2.2 _ (mem_of_certified hrun hF) _
        mem_cons_self F X rfl rfl
    exact seen_of_passes hinv.ascending hseen hfirst hls ((hiff.mp hres).2 hX) hexp.prefixFirst
      (hexp.unmasked hX) hT hcol hout
  · intro hres hadmits
    apply exists_outruns_of_not_passes (fun p hp => mem_positions_of_mem_certKeys hp)
    intro hpass
    rw [hiff.mpr ⟨hadmits, fun _ => hpass⟩] at hres
    cases hres

theorem eachAppend_nil : EachAppend c₀ [] P := by
  intro pre X post c log hsplit
  simp at hsplit

theorem EachAppend.concat (h : EachAppend c₀ ops P) {op : CertOp}
    (hop : ∀ X c log, op = .appendTrx X → run (c₀, []) ops = .ok (c, log) →
      P c (certified log) X) : EachAppend c₀ (ops ++ [op]) P := by
  intro pre X post c log hsplit hrun
  rcases eq_nil_or_concat post with rfl | ⟨post', op', rfl⟩
  · obtain ⟨rfl, hop'⟩ := append_inj' hsplit rfl
    exact hop X c log (singleton_inj.mp hop') hrun
  · have hassoc : ops ++ [op] = (pre ++ .appendTrx X :: post') ++ [op'] := by
      rw [hsplit, concat_eq_append, append_assoc, cons_append]
    obtain ⟨hops, -⟩ := append_inj' hassoc rfl
    exact h pre X post' c log hops hrun

end Runs

def ordinary (sourceId : Uuid) (keys : List Key) (globalSeqno lastSeenSeqno : ℤ) : TrxHandle :=
  ⟨1, sourceId, false, false, keys, globalSeqno, lastSeenSeqno⟩

def defaultCert : Certification := create maxLengthDefault maxLengthCheckDefault

def earlyWriter : TrxHandle := ordinary 2 [⟨[[1]], false⟩] 1 0

def lateWriter : TrxHandle := ordinary 1 [⟨[[1]], false⟩] 2 0

def writersOps : List CertOp :=
  [.assignInitialPosition 0 1, .appendTrx earlyWriter, .appendTrx lateWriter]

theorem writersOps_each {P : Certification → List TrxHandle → TrxHandle → Prop}
    (hearly : ∀ c, P c [] earlyWriter)
    (hlate : ∀ c, c.trxMap.map CertTrx.trx = [earlyWriter] → P c [earlyWriter] lateWriter) :
    EachAppend defaultCert writersOps P := by
  have hnil : EachAppend defaultCert [] P := eachAppend_nil
  have hstart : EachAppend defaultCert [.assignInitialPosition 0 1] P := by
    refine hnil.concat ?_
    intro X c log hop
    cases hop
  have hone : EachAppend defaultCert [.assignInitialPosition 0 1, .appendTrx earlyWriter] P := by
    refine hstart.concat ?_
    intro X c log hop hrun
    have hlog : (run (defaultCert, []) [.assignInitialPosition 0 1]).map Prod.snd = .ok [] := rfl
    rw [hrun] at hlog
    obtain rfl := CertOp.appendTrx.inj hop
    rw [show log = [] from Except.ok.inj hlog]
    exact hearly c
  refine hone.concat ?_
  intro X c log hop hrun
  have hstate : (run (defaultCert, [])
      [.assignInitialPosition 0 1, .appendTrx earlyWriter]).map
        (fun s => (s.1.trxMap.map CertTrx.trx, s.2)) =
      .ok ([earlyWriter], [(earlyWriter, .ok)]) := rfl
  rw [hrun] at hstate
  obtain ⟨hmap, hlog⟩ := Prod.mk.inj (Except.ok.inj hstate)
  obtain rfl := CertOp.appendTrx.inj hop
  rw [show log = _ from hlog]
  exact hlate c hmap

theorem appendTrx_first_committer_wins_two_writers :
    ∃ c log res c', run (defaultCert, []) [.assignInitialPosition 0 1, .appendTrx earlyWriter]
        = .ok (c, log) ∧ c.appendTrx lateWriter = .ok (res, c') ∧
      (res = .ok → ¬∃ T ∈ certified log, Outruns T lateWriter ∧ KeysCollide T lateWriter) ∧
      (res = .failed → c.Admits lateWriter →
        ∃ T ∈ certified log, Outruns T lateWriter ∧ KeysCollide T lateWriter) := by
  have hgrow : SnapshotsGrow writersOps := by
    simp [SnapshotsGrow, writersOps, earlyWriter, lateWriter, ordinary]
  have hkept : EachAppend defaultCert writersOps Kept := by
    apply writersOps_each
    · intro c t ht
      cases ht
    · intro c hmap t ht hgone
      rw [mem_singleton.mp ht] at hgone
      obtain ⟨e, he, heq⟩ : ∃ e ∈ c.trxMap, e.trx = earlyWriter := by
        rw [← mem_map, hmap]
        exact mem_singleton_self _
      exact absurd heq (hgone e he)
  have hwhen : EachAppend defaultCert writersOps fun _ H X => Exposed H X := by
    apply writersOps_each
    · intro _
      exact ⟨pairwise_singleton _ _, fun _ _ _ L hL => by cases hL⟩
    · intro _ _
      refine ⟨pairwise_singleton _ _, fun _ k _ L hL hsource => ?_⟩
      rw [mem_singleton.mp (mem_of_latest hL).1] at hsource
      exact absurd hsource (by decide)
  exact appendTrx_first_committer_wins (create_fresh _ _) (by decide) hgrow hkept hwhen rfl rfl

def hiddenTrx : TrxHandle := ordinary 2 [⟨[[1], [2]], false⟩] 1 0

def hidingTrx : TrxHandle := ordinary 1 [⟨[[1], [3]], false⟩] 2 0

def unawareTrx : TrxHandle := ordinary 1 [⟨[[1]], false⟩] 3 0

/-- The second transaction, of the same source as the third, replaces the first one as the
latest holder of the common prefix. Nothing has been purged, and the third one passes. -/
theorem appendTrx_misses_hidden_conflict :
    InOrder defaultCert.position [.assignInitialPosition 0 1, .appendTrx hiddenTrx,
        .appendTrx hidingTrx, .appendTrx unawareTrx] ∧
      SnapshotsGrow [.assignInitialPosition 0 1, .appendTrx hiddenTrx, .appendTrx hidingTrx,
        .appendTrx unawareTrx] ∧
      ∃ c log c', run (defaultCert, []) [.assignInitialPosition 0 1, .appendTrx hiddenTrx,
          .appendTrx hidingTrx] = .ok (c, log) ∧
        certified log = [hiddenTrx, hidingTrx] ∧
        c.trxMap.map CertTrx.trx = [hiddenTrx, hidingTrx] ∧
        c.appendTrx unawareTrx = .ok (.ok, c') ∧ unawareTrx.isolation = false ∧
        Outruns hiddenTrx unawareTrx ∧ KeysCollide hiddenTrx unawareTrx := by
  refine ⟨by decide, ?_, _, _, _, rfl, rfl, rfl, rfl, rfl, ?_, ?_⟩
  · simp [SnapshotsGrow, hiddenTrx, hidingTrx, unawareTrx, ordinary]
  · exact ⟨by decide, Or.inl (by decide)⟩
  · refine ⟨_, mem_singleton_self _, rfl, _, mem_singleton_self _, Or.inr ?_⟩
    exact ⟨[[2]], rfl⟩

-- a key that comes after a longer one is not looked up as a full key either
example : (run (defaultCert, []) [.assignInitialPosition 0 1,
      .appendTrx (ordinary 2 [⟨[[1], [2]], false⟩] 1 0),
      .appendTrx (ordinary 1 [⟨[[1], [3]], false⟩, ⟨[[1]], false⟩] 2 0)]).map
        (fun s => s.2.map Prod.snd) = .ok [.ok, .ok] := by rfl

end Certification

end Appstack.Galera
