import Appstack.Galera.CertHistory

namespace Appstack.Galera.Certification

open List

section Test
variable (c : Certification) (trx : TrxHandle)

def Admits : Prop :=
  trx.version = c.version ∧ c.initialPosition ≤ trx.lastSeenSeqno ∧
    trx.globalSeqno - trx.lastSeenSeqno ≤ c.maxLength

instance : Decidable (c.Admits trx) := inferInstanceAs (Decidable (_ ∧ _ ∧ _))

def KeyConflict (ix : CertIndex) (trx : TrxHandle) (ps : List CertKey) : Prop :=
  trx.isolation = false ∧ ∃ p ∈ ps, conflictAt ix trx p = true

instance (ix : CertIndex) (trx : TrxHandle) (ps : List CertKey) :
    Decidable (KeyConflict ix trx ps) :=
  inferInstanceAs (Decidable (_ ∧ _))

def dependsOn (ps : List CertKey) : ℤ :=
  max (if trx.isolation then c.initialDepends trx
    else ps.foldl (fun d p => max d (dependsAt c.certIndex p)) (c.initialDepends trx))
    c.lastPaUnsafe

def register : Certification :=
  { c with
    certIndex := refKeys c.certIndex trx (certKeys trx.keys)
    lastPaUnsafe := if trx.paUnsafe then trx.globalSeqno else c.lastPaUnsafe }

def insertTrx (e : CertTrx) : Certification :=
  { c with
    trxMap := c.trxMap ++ [e]
    depsSet := e.trx.lastSeenSeqno :: c.depsSet }

def positioned : Certification := trim { c with position := trx.globalSeqno }

theorem tested_eq (ix : CertIndex) (ps keyList : List CertKey) (d : ℤ) :
    tested ix trx ps keyList d =
      if KeyConflict ix trx ps then none
      else some (keyList, if trx.isolation then d
        else ps.foldl (fun d p => max d (dependsAt ix p)) d) := by
  unfold tested KeyConflict
  by_cases h : trx.isolation = true <;> simp [h]

theorem doTest_store : c.doTestV1to2 trx true =
      if KeyConflict c.certIndex trx (certKeys trx.keys) then (.failed, ⟨trx, -1, []⟩, c)
      else (.ok, ⟨trx, c.dependsOn trx (certKeys trx.keys), certKeys trx.keys⟩,
        c.register trx) := by
  unfold doTestV1to2
  rw [foldlM_certify, foldlM_store, nil_append, ← certKeys, tested_eq]
  by_cases h : KeyConflict c.certIndex trx (certKeys trx.keys)
  · rw [if_pos h, if_pos h]
  · rw [if_neg h, if_neg h]
    rfl

theorem doTest_dry : (c.doTestV1to2 trx false).1 =
      if KeyConflict c.certIndex trx (positions trx.keys) then .failed else .ok := by
  unfold doTestV1to2
  rw [foldlM_certify, foldlM_dry, tested_eq]
  by_cases h : KeyConflict c.certIndex trx (positions trx.keys)
  · rw [if_pos h, if_pos h]
  · rw [if_neg h, if_neg h]
    rfl

variable {trx}

theorem test_eq (hv : trx.version = c.version → c.version = 1 ∨ c.version = 2) (storeKeys : Bool) :
    c.test trx storeKeys =
      .ok (if c.Admits trx then c.doTestV1to2 trx storeKeys else (.failed, ⟨trx, -1, []⟩, c)) := by
  unfold test
  by_cases hversion : trx.version = c.version
  · rw [if_neg (not_not_intro hversion)]
    by_cases hrange : trx.lastSeenSeqno < c.initialPosition ∨
        trx.globalSeqno - trx.lastSeenSeqno > c.maxLength
    · have hnot : ¬c.Admits trx := by
        intro h
        have := h.2
        omega
      rw [if_pos hrange, if_neg hnot]
    · have hadmits : c.Admits trx := ⟨hversion, by omega, by omega⟩
      rw [if_neg hrange, if_pos hadmits, if_pos (hv hversion)]
  · rw [if_pos hversion, if_neg (fun h => hversion h.1)]

theorem appendTrx_eq (hv : trx.version = (c.positioned trx).version →
      (c.positioned trx).version = 1 ∨ (c.positioned trx).version = 2)
    (hmap : ∀ e ∈ (c.positioned trx).trxMap, e.trx.globalSeqno < trx.globalSeqno) :
    c.appendTrx trx = .ok
      (if (c.positioned trx).Admits trx ∧
          ¬KeyConflict (c.positioned trx).certIndex trx (certKeys trx.keys) then
        (.ok, ((c.positioned trx).register trx).insertTrx
          ⟨trx, (c.positioned trx).dependsOn trx (certKeys trx.keys), certKeys trx.keys⟩)
      else (.failed, (c.positioned trx).insertTrx ⟨trx, -1, []⟩)) := by
  have hnew : ((c.positioned trx).trxMap.any fun e => e.trx.globalSeqno = trx.globalSeqno)
      = false := by
    rw [any_eq_false]
    intro e he
    have := hmap e he
    simp only [decide_eq_true_eq]
    omega
  unfold appendTrx
  rw [show trim { c with position := trx.globalSeqno } = c.positioned trx from rfl]
  dsimp only
  rw [test_eq _ hv, doTest_store]
  by_cases hadmits : (c.positioned trx).Admits trx
  · by_cases hconf : KeyConflict (c.positioned trx).certIndex trx (certKeys trx.keys)
    · rw [if_pos hadmits, if_pos hconf, if_neg (fun h => h.2 hconf)]
      simp only [hnew]
      rfl
    · rw [if_pos hadmits, if_neg hconf, if_pos ⟨hadmits, hconf⟩]
      simp only [register, hnew]
      rfl
  · rw [if_neg hadmits, if_neg (fun h => hadmits h.1)]
    simp only [hnew]
    rfl

end Test

theorem trim_eq (c : Certification) :
    c.trim = c ∨ ∃ s ≤ c.position - c.maxLength, c.trim = c.purgeTrxsUptoUnprotected s := by
  unfold trim
  split_ifs
  · exact Or.inr ⟨_, min_le_left _ _, rfl⟩
  · exact Or.inl rfl

section Frame
variable (c : Certification) (trx : TrxHandle)

theorem positioned_frame :
    (c.positioned trx).position = trx.globalSeqno ∧ (c.positioned trx).version = c.version ∧
      (c.positioned trx).initialPosition = c.initialPosition ∧
      (c.positioned trx).maxLength = c.maxLength ∧
      (c.positioned trx).lastPaUnsafe = c.lastPaUnsafe := by
  unfold positioned
  rcases trim_eq { c with position := trx.globalSeqno } with h | ⟨s, -, h⟩
  · rw [h]
    exact ⟨rfl, rfl, rfl, rfl, rfl⟩
  · rw [h]
    exact ⟨rfl, rfl, rfl, rfl, rfl⟩

theorem positioned_admits : (c.positioned trx).Admits trx ↔ c.Admits trx := by
  obtain ⟨-, hv, hi, hm, -⟩ := c.positioned_frame trx
  rw [Admits, Admits, hv, hi, hm]

end Frame

def Gone (c : Certification) (t : TrxHandle) : Prop := ∀ e ∈ c.trxMap, e.trx ≠ t

def SupportedVersion (version : ℤ) : Prop := version = -1 ∨ version = 1 ∨ version = 2

/-- The state of the module after it has certified the transactions `H`. -/
structure Inv (c : Certification) (H : List TrxHandle) : Prop where
  ascending : Ascending H
  le_position : ∀ t ∈ H, t.globalSeqno ≤ c.position
  map_ascending : c.trxMap.Pairwise fun e e' => e.trx.globalSeqno < e'.trx.globalSeqno
  map_le_position : ∀ e ∈ c.trxMap, e.trx.globalSeqno ≤ c.position
  /-- what has left the map was at its beginning -/
  below_map : ∀ t ∈ H, c.Gone t → ∀ e ∈ c.trxMap, t.globalSeqno < e.trx.globalSeqno
  sees : Sees c.Gone H c.certIndex
  paUnsafe : ∀ t ∈ H, t.paUnsafe = true → t.globalSeqno ≤ c.lastPaUnsafe
  lastPaUnsafe_le : c.lastPaUnsafe ≤ c.position
  version : SupportedVersion c.version
  initial_le : c.initialPosition ≤ c.position

section Steps
variable {c : Certification} {H : List TrxHandle}

theorem Inv.raise (h : Inv c H) {p : ℤ} (hp : c.position ≤ p) : Inv { c with position := p } H where
  ascending := h.ascending
  le_position := fun t ht => (h.le_position t ht).trans hp
  map_ascending := h.map_ascending
  map_le_position := fun e he => (h.map_le_position e he).trans hp
  below_map := h.below_map
  sees := h.sees
  paUnsafe := h.paUnsafe
  lastPaUnsafe_le := h.lastPaUnsafe_le.trans hp
  version := h.version
  initial_le := h.initial_le.trans hp

variable {e : CertTrx} {s : ℤ}

theorem mem_of_mem_purged (he : e ∈ (c.purgeTrxsUptoUnprotected s).trxMap) : e ∈ c.trxMap :=
  (dropWhile_sublist _).mem he

theorem split_trxMap (c : Certification) (s : ℤ) :
    c.trxMap = c.trxMap.takeWhile (fun e => e.trx.globalSeqno < s) ++
      (c.purgeTrxsUptoUnprotected s).trxMap :=
  (takeWhile_append_dropWhile ..).symm

variable {t : TrxHandle}

theorem gone_purge (ht : (c.purgeTrxsUptoUnprotected s).Gone t) :
    c.Gone t ∨ ∃ e ∈ c.trxMap.takeWhile (fun e => e.trx.globalSeqno < s), e.trx = t := by
  by_cases h : ∃ e ∈ c.trxMap.takeWhile (fun e => e.trx.globalSeqno < s), e.trx = t
  · exact Or.inr h
  · left
    intro e he heq
    rw [split_trxMap c s, mem_append] at he
    rcases he with he | he
    · exact h ⟨e, he, heq⟩
    · exact ht e he heq

theorem gone_purge_lt (ht : (c.purgeTrxsUptoUnprotected s).Gone t) :
    c.Gone t ∨ t.globalSeqno < s := by
  rcases gone_purge ht with h | ⟨e, he, rfl⟩
  · exact Or.inl h
  · right
    simpa using mem_takeWhile_imp he

theorem Inv.purge (h : Inv c H) (s : ℤ) : Inv (c.purgeTrxsUptoUnprotected s) H := by
  have hpair := h.map_ascending
  rw [split_trxMap c s, pairwise_append] at hpair
  have hbelow : ∀ t ∈ H, (c.purgeTrxsUptoUnprotected s).Gone t →
      ∀ e ∈ (c.purgeTrxsUptoUnprotected s).trxMap, t.globalSeqno < e.trx.globalSeqno := by
    intro t ht hgone e he
    rcases gone_purge hgone with hgone | ⟨e', he', rfl⟩
    · exact h.below_map t ht hgone e (mem_of_mem_purged he)
    · exact hpair.2.2 e' he' e he
  have hdown : DownClosed (c.purgeTrxsUptoUnprotected s).Gone H := by
    intro t ht t' ht' hle hgone e he heq
    have := hbelow t' ht' hgone e he
    rw [heq] at this
    omega
  have hold : Sees (c.purgeTrxsUptoUnprotected s).Gone H c.certIndex := by
    intro parts full shared
    apply (h.sees parts full shared).mono
    intro t _ hgone e he
    exact hgone e (mem_of_mem_purged he)
  refine ⟨h.ascending, h.le_position, hpair.2.1, ?_, hbelow, ?_, h.paUnsafe, h.lastPaUnsafe_le,
    h.version, h.initial_le⟩
  · intro e he
    exact h.map_le_position e (mem_of_mem_purged he)
  · apply hold.purge h.ascending hdown
    intro e he e' he' heq
    -- a purged transaction is earlier than all that stay
    have := hpair.2.2 e (mem_filter.mp he).1 e' he'
    rw [heq] at this
    exact lt_irrefl _ this

theorem Inv.positioned (h : Inv c H) {trx : TrxHandle} (hg : c.position < trx.globalSeqno) :
    Inv (c.positioned trx) H := by
  unfold Certification.positioned
  rcases trim_eq { c with position := trx.globalSeqno } with heq | ⟨s, -, heq⟩
  · rw [heq]
    exact h.raise hg.le
  · rw [heq]
    exact (h.raise hg.le).purge s

theorem gone_positioned {trx : TrxHandle} (ht : (c.positioned trx).Gone t) :
    c.Gone t ∨ t.globalSeqno < trx.globalSeqno - c.maxLength := by
  unfold Certification.positioned at ht
  rcases trim_eq { c with position := trx.globalSeqno } with heq | ⟨s, hs, heq⟩
  · rw [heq] at ht
    exact Or.inl ht
  · rw [heq] at ht
    rcases gone_purge_lt ht with hgone | hlt
    · exact Or.inl hgone
    · exact Or.inr (hlt.trans_le hs)

theorem map_lt_of_positioned (h : Inv c H) {trx : TrxHandle} (hg : c.position < trx.globalSeqno) :
    ∀ e ∈ (c.positioned trx).trxMap, e.trx.globalSeqno < trx.globalSeqno := by
  intro e he
  have hmem : e ∈ c.trxMap := by
    unfold Certification.positioned at he
    rcases trim_eq { c with position := trx.globalSeqno } with heq | ⟨s, -, heq⟩
    · rw [heq] at he
      exact he
    · rw [heq] at he
      exact mem_of_mem_purged (c := { c with position := trx.globalSeqno }) he
  exact (h.map_le_position e hmem).trans_lt hg

theorem gone_insertTrx : (c.insertTrx e).Gone t ↔ c.Gone t ∧ e.trx ≠ t := by
  simp only [Gone, insertTrx, mem_append, mem_singleton, or_imp, forall_and, forall_eq]

theorem Inv.insertTrx (h : Inv c H) (hpos : e.trx.globalSeqno ≤ c.position)
    (hmap : ∀ e' ∈ c.trxMap, e'.trx.globalSeqno < e.trx.globalSeqno)
    (hH : ∀ t ∈ H, t.globalSeqno < e.trx.globalSeqno) : Inv (c.insertTrx e) H where
  ascending := h.ascending
  le_position := h.le_position
  map_ascending := by
    apply pairwise_append.mpr
    refine ⟨h.map_ascending, pairwise_singleton _ _, ?_⟩
    intro e' he' e'' he''
    rw [mem_singleton.mp he'']
    exact hmap e' he'
  map_le_position := by
    intro e' he'
    rcases mem_append.mp he' with he' | he'
    · exact h.map_le_position e' he'
    · rw [mem_singleton.mp he']
      exact hpos
  below_map := by
    intro t ht hgone e' he'
    rcases mem_append.mp he' with he' | he'
    · exact h.below_map t ht (gone_insertTrx.mp hgone).1 e' he'
    · rw [mem_singleton.mp he']
      exact hH t ht
  sees := by
    intro parts full shared
    apply (h.sees parts full shared).mono
    intro t ht hgone
    refine gone_insertTrx.mpr ⟨hgone, ?_⟩
    intro heq
    have := hH t (mem_of_latest ht).1
    rw [heq] at this
    exact lt_irrefl _ this
  paUnsafe := h.paUnsafe
  lastPaUnsafe_le := h.lastPaUnsafe_le
  version := h.version
  initial_le := h.initial_le

theorem Inv.register (h : Inv c H) {trx : TrxHandle} (hpos : trx.globalSeqno ≤ c.position)
    (hin : ¬c.Gone trx) (hH : ∀ t ∈ H, t.globalSeqno < trx.globalSeqno) :
    Inv (c.register trx) (H ++ [trx]) where
  ascending := by
    apply pairwise_append.mpr
    refine ⟨h.ascending, pairwise_singleton _ _, ?_⟩
    intro t ht t' ht'
    rw [mem_singleton.mp ht']
    exact hH t ht
  le_position := by
    intro t ht
    rcases mem_append.mp ht with ht | ht
    · exact h.le_position t ht
    · rw [mem_singleton.mp ht]
      exact hpos
  map_ascending := h.map_ascending
  map_le_position := h.map_le_position
  below_map := by
    intro t ht hgone
    rcases mem_append.mp ht with ht | ht
    · exact h.below_map t ht hgone
    · rw [mem_singleton.mp ht] at hgone
      exact absurd hgone hin
  sees := h.sees.refKeys trx
  paUnsafe := by
    intro t ht hpa
    simp only [Certification.register]
    rcases mem_append.mp ht with ht | ht
    · have hle := h.paUnsafe t ht hpa
      have hlt := hH t ht
      split_ifs <;> omega
    · rw [mem_singleton.mp ht] at hpa ⊢
      rw [if_pos hpa]
  lastPaUnsafe_le := by
    simp only [Certification.register]
    split_ifs
    · exact hpos
    · exact h.lastPaUnsafe_le
  version := h.version
  initial_le := h.initial_le

theorem Inv.setTrxCommitted (h : Inv c H) (trx : TrxHandle) : Inv (c.setTrxCommitted trx) H :=
  ⟨h.ascending, h.le_position, h.map_ascending, h.map_le_position, h.below_map, h.sees,
    h.paUnsafe, h.lastPaUnsafe_le, h.version, h.initial_le⟩

theorem assignInitialPosition_frame (c : Certification) (seqno : ℤ) {version : ℤ}
    (hv : SupportedVersion version) :
    ∃ c', c.assignInitialPosition seqno version = .ok c' ∧ c'.position = seqno ∧
      c'.initialPosition = seqno ∧ c'.version = version ∧ c'.maxLength = c.maxLength :=
  ⟨_, if_pos hv, rfl, rfl, rfl, rfl⟩

theorem Inv.assignInitialPosition (h : Inv c H) {seqno version : ℤ} (hs : c.position ≤ seqno)
    {c' : Certification} (hc' : c.assignInitialPosition seqno version = .ok c') : Inv c' H := by
  unfold Certification.assignInitialPosition at hc'
  split_ifs at hc' with hv
  cases hc'
  have hle : ∀ t ∈ H, t.globalSeqno ≤ seqno := fun t ht => (h.le_position t ht).trans hs
  have hsees : Sees (fun _ => True) H
      ((c.trxMap.filter fun e => e.dependsSeqno > -1).foldl purgeForTrx c.certIndex) := by
    have hold : Sees (fun _ => True) H c.certIndex := by
      intro parts full shared
      exact (h.sees parts full shared).mono fun _ _ _ => trivial
    apply hold.purge h.ascending
    · intro _ _ _ _ _ _
      trivial
    · intro _ _
      trivial
  refine ⟨h.ascending, hle, List.Pairwise.nil, ?_, ?_, ?_, ?_, le_refl _, hv, le_refl _⟩
  · intro e he
    cases he
  · intro _ _ _ e he
    cases he
  · intro parts full shared
    apply (hsees parts full shared).mono
    intro _ _ _ e he
    cases he
  · intro t ht _
    exact hle t ht

end Steps

inductive CertOp where
  | appendTrx (trx : TrxHandle)
  | setTrxCommitted (trx : TrxHandle)
  | purgeTrxsUpto (seqno : ℤ)
  | assignInitialPosition (seqno version : ℤ)

abbrev CertLog := List (TrxHandle × TestResult)

def certified (log : CertLog) : List TrxHandle :=
  (log.filter fun entry => entry.2 = .ok).map Prod.fst

/-- One call. Only a transaction that has been appended is marked as certified, and
`set_trx_committed` leaves the others alone. -/
def step (s : Certification × CertLog) : CertOp → Except CertError (Certification × CertLog)
  | .appendTrx trx =>
    match s.1.appendTrx trx with
    | .error e => .error e
    | .ok (res, c) => .ok (c, s.2 ++ [(trx, res)])
  | .setTrxCommitted trx =>
    .ok (if s.2.any fun entry => entry.1 = trx then s.1.setTrxCommitted trx else s.1, s.2)
  | .purgeTrxsUpto seqno => .ok (s.1.purgeTrxsUpto seqno, s.2)
  | .assignInitialPosition seqno version =>
    match s.1.assignInitialPosition seqno version with
    | .error e => .error e
    | .ok c => .ok (c, s.2)

def run (s : Certification × CertLog) (ops : List CertOp) :
    Except CertError (Certification × CertLog) :=
  ops.foldlM step s

def CertOp.position (pos : ℤ) : CertOp → ℤ
  | .appendTrx trx => trx.globalSeqno
  | .assignInitialPosition seqno _ => seqno
  | _ => pos

/-- What the callers guarantee: transactions come in the order of their global seqnos, and
configuration changes at their place in it. -/
def CertOp.Follows (pos : ℤ) : CertOp → Prop
  | .appendTrx trx => pos < trx.globalSeqno ∧ 0 ≤ trx.version
  | .assignInitialPosition seqno version =>
    pos ≤ seqno ∧ SupportedVersion version
  | _ => True

def InOrder : ℤ → List CertOp → Prop
  | _, [] => True
  | pos, op :: ops => op.Follows pos ∧ InOrder (op.position pos) ops

instance (version : ℤ) : Decidable (SupportedVersion version) :=
  inferInstanceAs (Decidable (_ ∨ _))

instance (pos : ℤ) : (op : CertOp) → Decidable (op.Follows pos)
  | .appendTrx _ => inferInstanceAs (Decidable (_ ∧ _))
  | .assignInitialPosition _ _ => inferInstanceAs (Decidable (_ ∧ _))
  | .setTrxCommitted _ => isTrue trivial
  | .purgeTrxsUpto _ => isTrue trivial

instance decidableInOrder : (pos : ℤ) → (ops : List CertOp) → Decidable (InOrder pos ops)
  | _, [] => isTrue trivial
  | pos, op :: ops =>
    have := decidableInOrder (op.position pos) ops
    inferInstanceAs (Decidable (_ ∧ _))

structure Fresh (c : Certification) : Prop where
  trxMap : c.trxMap = []
  certIndex : ∀ parts, c.certIndex parts = .empty
  lastPaUnsafe : c.lastPaUnsafe ≤ c.position
  version : SupportedVersion c.version
  position : c.position = c.initialPosition

section Run
variable {c : Certification} {log : CertLog}

theorem certified_append (log : CertLog) (trx : TrxHandle) (res : TestResult) :
    certified (log ++ [(trx, res)]) = if res = .ok then certified log ++ [trx] else certified log := by
  cases res <;> simp [certified]

theorem create_fresh (maxLength : ℤ) (maxLengthCheck : ℕ) :
    (create maxLength maxLengthCheck).Fresh :=
  ⟨rfl, fun _ => rfl, le_refl _, Or.inl rfl, rfl⟩

theorem Fresh.inv (h : c.Fresh) : Inv c [] where
  ascending := List.Pairwise.nil
  le_position := by simp
  map_ascending := by
    rw [h.trxMap]
    exact List.Pairwise.nil
  map_le_position := by simp [h.trxMap]
  below_map := by simp
  sees := by
    intro parts full shared
    rw [h.certIndex, KeyEntry.held_empty]
    exact Or.inl rfl
  paUnsafe := by simp
  lastPaUnsafe_le := h.lastPaUnsafe
  version := h.version
  initial_le := h.position.ge

theorem Inv.version_eq {H : List TrxHandle} (h : Inv c H) {trx : TrxHandle}
    (hv : 0 ≤ trx.version) : trx.version = (c.positioned trx).version →
      (c.positioned trx).version = 1 ∨ (c.positioned trx).version = 2 := by
  rw [(c.positioned_frame trx).2.1]
  intro heq
  have hsupported := h.version
  unfold SupportedVersion at hsupported
  omega

section
variable {H : List TrxHandle} (h : Inv c H) {trx : TrxHandle} (hg : c.position < trx.globalSeqno)
  (hv : 0 ≤ trx.version)
include h hg hv

theorem appendTrx_inv : ∃ res c', c.appendTrx trx = .ok (res, c') ∧
      Inv c' (if res = .ok then H ++ [trx] else H) ∧ c'.position = trx.globalSeqno := by
  have hmap := map_lt_of_positioned h hg
  have hpos : trx.globalSeqno ≤ (c.positioned trx).position :=
    (c.positioned_frame trx).1.ge
  have hH : ∀ t ∈ H, t.globalSeqno < trx.globalSeqno :=
    fun t ht => (h.le_position t ht).trans_lt hg
  rw [c.appendTrx_eq (h.version_eq hv) hmap]
  split_ifs
  · refine ⟨_, _, rfl, ?_, (c.positioned_frame trx).1⟩
    rw [if_pos rfl]
    -- the map and the index are independent, so the order of the two updates does not matter
    refine Inv.register (c := (c.positioned trx).insertTrx _) ?_ hpos ?_ hH
    · exact (h.positioned hg).insertTrx hpos hmap hH
    · intro hgone
      exact (gone_insertTrx.mp hgone).2 rfl
  · refine ⟨_, _, rfl, ?_, (c.positioned_frame trx).1⟩
    rw [if_neg (by decide)]
    exact (h.positioned hg).insertTrx hpos hmap hH

theorem appendTrx_frame {res : TestResult}
    {c' : Certification} (happ : c.appendTrx trx = .ok (res, c')) :
    c'.version = c.version ∧ c'.initialPosition = c.initialPosition ∧
      c'.maxLength = c.maxLength ∧ c'.position = trx.globalSeqno ∧
      ∀ t, c'.Gone t → (c.positioned trx).Gone t ∧ trx ≠ t := by
  obtain ⟨hpos, hversion, hinit, hmax, -⟩ := c.positioned_frame trx
  rw [c.appendTrx_eq (h.version_eq hv) (map_lt_of_positioned h hg)] at happ
  split_ifs at happ
  · cases happ
    refine ⟨hversion, hinit, hmax, hpos, ?_⟩
    intro t ht
    exact gone_insertTrx.mp ht
  · cases happ
    refine ⟨hversion, hinit, hmax, hpos, ?_⟩
    intro t ht
    exact gone_insertTrx.mp ht

end

variable {op : CertOp}

theorem step_inv (h : Inv c (certified log)) (hop : op.Follows c.position) :
    ∃ c' log', step (c, log) op = .ok (c', log') ∧ Inv c' (certified log') ∧
      c'.position = op.position c.position := by
  cases op with
  | appendTrx trx =>
    obtain ⟨res, c', heq, hinv, hpos⟩ := appendTrx_inv h hop.1 hop.2
    refine ⟨c', log ++ [(trx, res)], ?_, ?_, hpos⟩
    · simp only [step, heq]
    · rw [certified_append]
      exact hinv
  | setTrxCommitted trx =>
    refine ⟨_, log, rfl, ?_⟩
    split_ifs
    · exact ⟨h.setTrxCommitted trx, rfl⟩
    · exact ⟨h, rfl⟩
  | purgeTrxsUpto seqno => exact ⟨_, log, rfl, h.purge _, rfl⟩
  | assignInitialPosition seqno version =>
    obtain ⟨c', hc', hpos, -⟩ := c.assignInitialPosition_frame seqno hop.2
    refine ⟨c', log, ?_, h.assignInitialPosition hop.1 hc', hpos⟩
    simp only [step, hc']

variable {ops : List CertOp}

theorem run_inv (h : Inv c (certified log)) (hops : InOrder c.position ops) :
    ∃ c' log', run (c, log) ops = .ok (c', log') ∧ Inv c' (certified log') ∧
      c'.position = ops.foldl CertOp.position c.position := by
  induction ops generalizing c log with
  | nil => exact ⟨c, log, rfl, h, rfl⟩
  | cons op ops ih =>
    obtain ⟨c1, log1, hstep, hinv, hpos⟩ := step_inv h hops.1
    obtain ⟨c', log', hrun, hinv', hpos'⟩ := ih hinv (hpos ▸ hops.2)
    refine ⟨c', log', ?_, hinv', ?_⟩
    · unfold run
      rw [foldlM_cons, hstep]
      exact hrun
    · rw [hpos', hpos, foldl_cons]

theorem inOrder_append {pos : ℤ} {ops' : List CertOp} :
    InOrder pos (ops ++ ops') ↔ InOrder pos ops ∧ InOrder (ops.foldl CertOp.position pos) ops' := by
  induction ops generalizing pos with
  | nil => simp [InOrder]
  | cons op ops ih => simp only [cons_append, InOrder, ih, foldl_cons, and_assoc]

theorem step_log {c' : Certification} {log' : CertLog} (h : step (c, log) op = .ok (c', log')) :
    (∃ trx res, op = .appendTrx trx ∧ c.appendTrx trx = .ok (res, c') ∧
      log' = log ++ [(trx, res)]) ∨ log' = log := by
  cases op with
  | appendTrx trx =>
    left
    simp only [step] at h
    split at h
    · cases h
    · rename_i res c1 happ
      cases h
      exact ⟨trx, res, rfl, happ, rfl⟩
  | setTrxCommitted trx => exact Or.inr (congrArg Prod.snd (Except.ok.inj h)).symm
  | purgeTrxsUpto seqno => exact Or.inr (congrArg Prod.snd (Except.ok.inj h)).symm
  | assignInitialPosition seqno version =>
    right
    simp only [step] at h
    split at h
    · cases h
    · exact (congrArg Prod.snd (Except.ok.inj h)).symm

theorem run_concat {s s' : Certification × CertLog} :
    run s (ops ++ [op]) = .ok s' ↔ ∃ s1, run s ops = .ok s1 ∧ step s1 op = .ok s' := by
  unfold run
  rw [foldlM_append]
  simp only [foldlM_cons, foldlM_nil, bind_pure]
  cases ops.foldlM step s with
  | error e => simp [bind, Except.bind]
  | ok s1 => simp [bind, Except.bind]

theorem mem_of_certified {c0 : Certification}
    (h : run (c0, []) ops = .ok (c, log)) {t : TrxHandle} (ht : t ∈ certified log) :
    .appendTrx t ∈ ops := by
  induction ops using List.reverseRecOn generalizing c log with
  | nil =>
    cases h
    cases ht
  | append_singleton ops op ih =>
    obtain ⟨⟨c1, log1⟩, hrun, hstep⟩ := run_concat.mp h
    rw [mem_append]
    rcases step_log hstep with ⟨trx, res, rfl, -, rfl⟩ | rfl
    · rw [certified_append] at ht
      split_ifs at ht
      · rcases mem_append.mp ht with ht | ht
        · exact Or.inl (ih hrun ht)
        · rw [mem_singleton.mp ht]
          exact Or.inr (mem_singleton_self _)
      · exact Or.inl (ih hrun ht)
    · exact Or.inl (ih hrun ht)

theorem run_before (h : Inv c (certified log)) {pre post : List CertOp} {trx : TrxHandle}
    (hops : InOrder c.position (pre ++ .appendTrx trx :: post)) :
    ∃ c' log', run (c, log) pre = .ok (c', log') ∧ Inv c' (certified log') ∧
      c'.position < trx.globalSeqno ∧ 0 ≤ trx.version := by
  obtain ⟨hpre, hpost⟩ := inOrder_append.mp hops
  obtain ⟨c', log', hrun, hinv, hpos⟩ := run_inv h hpre
  rw [← hpos] at hpost
  exact ⟨c', log', hrun, hinv, hpost.1.1, hpost.1.2⟩

end Run

end Appstack.Galera.Certification
