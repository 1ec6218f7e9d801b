import Appstack.Gcs.Remerge

namespace Appstack.Gcs

open List

variable {version : ℤ} {states : List StateMsg}

theorem foldl_least (f : StateMsg → ℤ) (a : ℤ) (l : List StateMsg) :
    l.foldl (fun v s => if f s < v then f s else v) a ∈ a :: l.map f ∧
      ∀ v ∈ a :: l.map f, l.foldl (fun v s => if f s < v then f s else v) a ≤ v := by
  induction l generalizing a with
  | nil => simp
  | cons x l ih =>
    obtain ⟨hmem, hle⟩ := ih (if f x < a then f x else a)
    have hfirst := hle _ (.head _)
    have hmin : (if f x < a then f x else a) ≤ a ∧ (if f x < a then f x else a) ≤ f x := by
      split_ifs <;> omega
    rw [foldl_cons, map_cons]
    refine ⟨?_, ?_⟩
    · rcases mem_cons.mp hmem with h | h
      · rw [h]
        split_ifs <;> simp
      · exact .tail _ (.tail _ h)
    · intro v hv
      rcases mem_cons.mp hv with rfl | hv
      · exact hfirst.trans hmin.1
      · rcases mem_cons.mp hv with rfl | hv
        · exact hfirst.trans hmin.2
        · exact hle v (.tail _ hv)

variable {states' : List StateMsg}

theorem minProto_perm {r r' : StateMsg} (ver : StateMsg → ℤ)
    (hp : states'.Perm states) (hr : r ∈ states) (hr' : r' ∈ states') :
    minProto ver r' states' = minProto ver r states := by
  have hsub : ∀ {r : StateMsg} {states : List StateMsg}, r ∈ states →
      ∀ v, v ∈ ver r :: states.map ver ↔ v ∈ states.map ver := by
    intro r states hr v
    simp only [mem_cons, or_iff_right_iff_imp]
    rintro rfl
    exact mem_map_of_mem hr
  obtain ⟨hmem, hle⟩ := foldl_least ver (ver r) states
  obtain ⟨hmem', hle'⟩ := foldl_least ver (ver r') states'
  rw [hsub hr] at hmem
  rw [hsub hr', (hp.map ver).mem_iff] at hmem'
  simp only [hsub hr] at hle
  simp only [hsub hr', (hp.map ver).mem_iff] at hle'
  exact le_antisymm (hle' _ hmem) (hle _ hmem')

theorem commonVersion_perm (hp : states'.Perm states) :
    commonVersion states' = commonVersion states := by
  cases states' with
  | nil => rw [hp.nil_eq]
  | cons s' ss' =>
    cases states with
    | nil => exact absurd hp.eq_nil (by simp)
    | cons s ss =>
      obtain ⟨hmem, hle⟩ := foldl_least StateMsg.version s.version ss
      obtain ⟨hmem', hle'⟩ := foldl_least StateMsg.version s'.version ss'
      rw [← map_cons] at hmem hmem'
      simp only [← map_cons] at hle hle'
      rw [← (hp.map StateMsg.version).mem_iff] at hmem
      rw [(hp.map StateMsg.version).mem_iff] at hmem'
      exact le_antisymm (hle' _ hmem) (hle _ hmem')

/-- The nodes that a configuration can be inherited from. -/
def joined (s : StateMsg) : Bool := s.currentState.isJoined

theorem foldlM_inheritStep_eq (a : StateMsg) (rest : List StateMsg) : rest.foldlM inheritStep a =
      if ∀ s ∈ rest.filter joined, s.groupUuid = a.groupUuid
      then some ((rest.filter joined).foldl stateNodesCompare a) else none := by
  induction rest generalizing a with
  | nil => simp
  | cons x rest ih =>
    rw [foldlM_cons, inheritStep]
    by_cases hx : x.currentState.isJoined
    · have hxj : joined x := hx
      by_cases hu : a.groupUuid = x.groupUuid
      · have hgroup : (stateNodesCompare a x).groupUuid = a.groupUuid := by
          rcases stateNodesCompare_eq a x with he | he <;> simp [he, hu]
        simp [hx, hxj, hu, ih, hgroup]
      · have hu' : x.groupUuid ≠ a.groupUuid := fun h => hu h.symm
        simp [hx, hxj, hu, hu']
    · have hxj : ¬ joined x := hx
      simp [hx, hxj, ih]

theorem stateQuorumInherit_eq (states : List StateMsg) : stateQuorumInherit states =
      match states.filter joined with
      | [] => .null
      | a :: l =>
        if ∀ s ∈ l, s.groupUuid = a.groupUuid then .rep (l.foldl stateNodesCompare a)
        else .bad := by
  unfold stateQuorumInherit
  induction states with
  | nil => rfl
  | cons x states ih =>
    by_cases hx : x.currentState.isJoined
    · have hxj : joined x := hx
      simp only [dropWhile_cons, hx, Bool.not_true, Bool.false_eq_true, if_false,
        filter_cons_of_pos hxj, foldlM_inheritStep_eq]
      split_ifs <;> rfl
    · have hxj : ¬ joined x := hx
      simp only [dropWhile_cons, hx, Bool.not_false, if_true, filter_cons_of_neg hxj]
      exact ih

theorem stateQuorumInherit_eq_null_iff :
    stateQuorumInherit states = .null ↔ ∀ s ∈ states, ¬ s.currentState.isJoined := by
  rw [stateQuorumInherit_eq]
  cases hj : states.filter joined with
  | nil => exact iff_of_true rfl (filter_eq_nil_iff.mp hj)
  | cons a l =>
    have ha : a ∈ states.filter joined := by simp [hj]
    obtain ⟨ha, haj⟩ := mem_filter.mp ha
    simp only
    split_ifs <;> exact iff_of_false (by simp) fun h => h a ha haj

/-- What is taken over from the representative, if there is one. -/
def Rep.standing : Rep → Option (Uuid × ℤ × ℤ)
  | .rep s => some s.standing
  | _ => none

theorem stateQuorumInherit_perm (hp : states'.Perm states) :
    (stateQuorumInherit states').standing = (stateQuorumInherit states).standing := by
  rw [stateQuorumInherit_eq, stateQuorumInherit_eq]
  have hpj := hp.filter joined
  cases hj : states.filter joined with
  | nil =>
    rw [hj] at hpj
    rw [hpj.eq_nil]
  | cons a l =>
    cases hj' : states'.filter joined with
    | nil =>
      rw [hj, hj'] at hpj
      exact absurd hpj.nil_eq (by simp)
    | cons a' l' =>
      rw [hj, hj'] at hpj
      have hgroup : ∀ {a : StateMsg} {l : List StateMsg}, (∀ s ∈ l, s.groupUuid = a.groupUuid) ↔
          ∀ s ∈ a :: l, ∀ t ∈ a :: l, s.groupUuid = t.groupUuid := by
        intro a l
        constructor
        · intro h
          have hall : ∀ s ∈ a :: l, s.groupUuid = a.groupUuid := by simpa using h
          exact fun s hs t ht => (hall s hs).trans (hall t ht).symm
        · exact fun h s hs => h s (.tail _ hs) a (.head _)
      simp only [hgroup, hpj.mem_iff]
      split_ifs with hu
      · obtain ⟨hmem, hnew⟩ := foldl_stateNodesCompare a l
        obtain ⟨hmem', hnew'⟩ := foldl_stateNodesCompare a' l'
        rw [hpj.mem_iff] at hmem'
        simp only [hpj.mem_iff] at hnew'
        obtain ⟨hrec, hprim⟩ := (hnew _ hmem').antisymm (hnew' _ hmem)
        simp only [Rep.standing, StateMsg.standing, hu _ hmem' _ hmem, hrec, hprim]
      · rfl

theorem quorumRep_mem {r : StateMsg} (h : quorumRep states = .rep r) : r ∈ states := by
  have hremerge : ∀ bootstrap, stateQuorumRemerge states (commonVersion states) bootstrap = .rep r →
      r ∈ states := by
    intro bootstrap h
    rw [stateQuorumRemerge_eq_gathered] at h
    split at h
    · cases h
    next r' hr' =>
      obtain rfl := Rep.rep.inj h
      exact (mem_filter.mp (Choosable.of_gathered hr').1).1
  unfold quorumRep at h
  split at h
  · split at h
    · exact hremerge true h
    · exact hremerge false h
  · exact (stateQuorumInherit_rep h).1

theorem getQuorum_eq_of_standing (hp : states'.Perm states)
    (h : (quorumRep states').standing = (quorumRep states).standing) :
    getQuorum states' = getQuorum states := by
  unfold getQuorum
  rw [commonVersion_perm hp]
  cases hr : quorumRep states with
  | rep r =>
    cases hr' : quorumRep states' with
    | rep r' =>
      have hmin : ∀ ver, minProto ver r' states' = minProto ver r states :=
        fun ver => minProto_perm ver hp (quorumRep_mem hr) (quorumRep_mem hr')
      obtain ⟨hgroup, hrec, hprim⟩ : r'.groupUuid = r.groupUuid ∧ r'.received = r.received ∧
          r'.primSeqno = r.primSeqno := by
        simpa [hr, hr', Rep.standing, StateMsg.standing] using h
      simp only [hmin, hgroup, hrec, hprim]
    | null => simp [hr, hr', Rep.standing] at h
    | bad => simp [hr, hr', Rep.standing] at h
  | null =>
    cases hr' : quorumRep states' with
    | rep r' => simp [hr, hr', Rep.standing] at h
    | null => rfl
    | bad => rfl
  | bad =>
    cases hr' : quorumRep states' with
    | rep r' => simp [hr, hr', Rep.standing] at h
    | null => rfl
    | bad => rfl

/-- The decision is PRIMARY, and it is one of the re-merge or, where that finds nothing, of the
bootstrap. -/
def DecidedBy (bootstrap : Bool) (states : List StateMsg) : Prop :=
  (getQuorum states).primary ∧ stateQuorumInherit states = .null ∧
    (bootstrap ↔ stateQuorumRemerge states (commonVersion states) false = .null)

/-- If any of the candidates has a group UUID, all those that have one have the same, the
decision is for that group, and for the greatest seqno received in it. -/
def MergesOneHistory (candidates : List StateMsg) (q : Quorum) : Prop :=
  ∀ s ∈ candidates, s.groupUuid ≠ uuidNil →
    (∀ s' ∈ candidates, s'.groupUuid ≠ uuidNil → s'.groupUuid = s.groupUuid) ∧
    q.groupUuid = s.groupUuid ∧
    (∃ r ∈ candidates, r.groupUuid = s.groupUuid ∧ r.received = q.actId) ∧
    ∀ r ∈ candidates, r.groupUuid = s.groupUuid → r.received ≤ q.actId

variable {bootstrap : Bool} {r : StateMsg}

def FirstUndecided (bootstrap : Bool) (states : List StateMsg) : Prop :=
  bootstrap = true → gathered (commonVersion states) (states.filter (isCandidate false)) = none

theorem stateQuorumRemerge_eq_null_iff : stateQuorumRemerge states version bootstrap = .null ↔
      gathered version (states.filter (isCandidate bootstrap)) = none := by
  rw [stateQuorumRemerge_eq_gathered]
  split <;> simp_all

theorem stateQuorumRemerge_eq_rep_iff : stateQuorumRemerge states version bootstrap = .rep r ↔
      gathered version (states.filter (isCandidate bootstrap)) = some r := by
  rw [stateQuorumRemerge_eq_gathered]
  split <;> simp_all

theorem quorumRep_of_gathered (hnull : stateQuorumInherit states = .null)
    (hfirst : FirstUndecided bootstrap states)
    (hr : gathered (commonVersion states) (states.filter (isCandidate bootstrap)) = some r) :
    quorumRep states = .rep r := by
  unfold quorumRep
  rw [hnull]
  cases bootstrap with
  | false => simp only [stateQuorumRemerge_eq_rep_iff.mpr hr]
  | true =>
    simp only [stateQuorumRemerge_eq_null_iff.mpr (hfirst rfl)]
    exact stateQuorumRemerge_eq_rep_iff.mpr hr

theorem decidedBy_iff : DecidedBy bootstrap states ↔
    stateQuorumInherit states = .null ∧ FirstUndecided bootstrap states ∧
      ∃ r, gathered (commonVersion states) (states.filter (isCandidate bootstrap)) = some r := by
  unfold DecidedBy FirstUndecided
  constructor
  · rintro ⟨hprimary, hnull, hboot⟩
    rw [stateQuorumRemerge_eq_null_iff] at hboot
    refine ⟨hnull, hboot.mp, ?_⟩
    cases bootstrap with
    | false =>
      apply Option.ne_none_iff_exists'.mp
      intro hnone
      exact absurd (hboot.mpr hnone) (by simp)
    | true =>
      obtain ⟨r, hr, -⟩ := getQuorum_primary.mp hprimary
      rw [quorumRep, hnull] at hr
      simp only [stateQuorumRemerge_eq_null_iff.mpr (hboot.mp rfl)] at hr
      exact ⟨r, stateQuorumRemerge_eq_rep_iff.mp hr⟩
  · rintro ⟨hnull, hfirst, r, hr⟩
    have hrep := quorumRep_of_gathered hnull hfirst hr
    refine ⟨?_, hnull, ?_⟩
    · rw [getQuorum, hrep]
    · rw [stateQuorumRemerge_eq_null_iff]
      refine ⟨hfirst, fun hnone => ?_⟩
      cases bootstrap with
      | false => simp [hnone] at hr
      | true => rfl

theorem getQuorum_of_quorumRep (h : quorumRep states = .rep r) :
    (getQuorum states).groupUuid = r.groupUuid ∧ (getQuorum states).actId = r.received ∧
      (getQuorum states).confId = r.primSeqno := by
  simp only [getQuorum, h, and_self]

theorem mergesOneHistory_iff (h : quorumRep states = .rep r)
    (hr : r ∈ states.filter (isCandidate bootstrap)) :
    MergesOneHistory (states.filter (isCandidate bootstrap)) (getQuorum states) ↔
      OneHistory (states.filter (isCandidate bootstrap)) r := by
  obtain ⟨hgroup, hact, -⟩ := getQuorum_of_quorumRep h
  unfold MergesOneHistory
  rw [hgroup, hact]
  constructor
  · intro hm s hs h0
    obtain ⟨-, hu, -, hle⟩ := hm s hs h0
    exact ⟨hu.symm, hle s hs rfl⟩
  · intro hone s hs h0
    have hu := (hone s hs h0).1
    refine ⟨fun s' hs' h0' => (hone s' hs' h0').1.trans hu.symm, hu.symm, ⟨r, hr, hu.symm, rfl⟩, ?_⟩
    intro x hx hxu
    exact (hone x hx (hxu ▸ h0)).2

theorem exists_perm_of_filter {l : List StateMsg} (p : StateMsg → Bool)
    (hl : l.Perm (states.filter p)) :
    ∃ states' : List StateMsg, states'.Perm states ∧ states'.filter p = l := by
  refine ⟨l ++ states.filter fun s => !p s, ?_, ?_⟩
  · exact (hl.append_right _).trans (filter_append_perm p states)
  · have hself : l.filter p = l :=
      filter_eq_self.mpr fun s hs => (mem_filter.mp (hl.mem_iff.mp hs)).2
    simp [filter_append, hself]

/-- The states are settled for the re-merge, and for the bootstrap where that follows. -/
def OrderSettled (states : List StateMsg) : Prop :=
  (∃ s ∈ states, s.currentState.isJoined) ∨
    Settled (commonVersion states) (states.filter (isCandidate false)) ∧
      (Undecided (commonVersion states) (states.filter (isCandidate false)) →
        Settled (commonVersion states) (states.filter (isCandidate true)))

theorem merging_of_decisions
    (hnull : ∀ states', states'.Perm states → stateQuorumInherit states' = .null)
    (hfirst : ∀ states', states'.Perm states → FirstUndecided bootstrap states')
    (hone : ∀ states', states'.Perm states → DecidedBy bootstrap states' →
      MergesOneHistory (states'.filter (isCandidate bootstrap)) (getQuorum states'))
    (hsame : ∀ states', states'.Perm states → getQuorum states' = getQuorum states) :
    Merging (commonVersion states) (states.filter (isCandidate bootstrap)) := by
  have horder : ∀ l, l.Perm (states.filter (isCandidate bootstrap)) → ∀ r,
      gathered (commonVersion states) l = some r →
      ∃ states', states'.Perm states ∧ states'.filter (isCandidate bootstrap) = l ∧
        DecidedBy bootstrap states' ∧ quorumRep states' = .rep r := by
    intro l hl r hr
    obtain ⟨states', hp, rfl⟩ := exists_perm_of_filter _ hl
    rw [← commonVersion_perm hp] at hr
    exact ⟨states', hp, rfl, decidedBy_iff.mpr ⟨hnull _ hp, hfirst _ hp, r, hr⟩,
      quorumRep_of_gathered (hnull _ hp) (hfirst _ hp) hr⟩
  refine ⟨?_, ?_⟩
  · intro l hl r hr
    obtain ⟨states', hp, rfl, hdec, hrep⟩ := horder l hl r hr
    exact (mergesOneHistory_iff hrep (Choosable.of_gathered hr).1).mp (hone states' hp hdec)
  · intro l1 hl1 l2 hl2 r1 r2 hr1 hr2
    obtain ⟨states1, hp1, -, -, hrep1⟩ := horder l1 hl1 r1 hr1
    obtain ⟨states2, hp2, -, -, hrep2⟩ := horder l2 hl2 r2 hr2
    obtain ⟨-, hact1, hconf1⟩ := getQuorum_of_quorumRep hrep1
    obtain ⟨-, hact2, hconf2⟩ := getQuorum_of_quorumRep hrep2
    rw [hsame states1 hp1] at hact1 hconf1
    rw [hsame states2 hp2] at hact2 hconf2
    exact ⟨hact1.symm.trans hact2, hconf1.symm.trans hconf2⟩

theorem quorumRep_eq_inherit (h : ∃ s ∈ states, s.currentState.isJoined) :
    quorumRep states = stateQuorumInherit states := by
  have hne : stateQuorumInherit states ≠ .null := by
    rw [Ne, stateQuorumInherit_eq_null_iff]
    push Not
    exact h
  unfold quorumRep
  cases hin : stateQuorumInherit states with
  | null => exact absurd hin hne
  | bad => rfl
  | rep r => rfl

theorem rep_standing_of_gathered (bootstrap : Bool) :
    (stateQuorumRemerge states version bootstrap).standing =
      (gathered version (states.filter (isCandidate bootstrap))).map StateMsg.standing := by
  rw [stateQuorumRemerge_eq_gathered]
  split <;> simp_all [Rep.standing]

theorem OrderSettled.standing_eq (h : OrderSettled states) (hp : states'.Perm states) :
    (quorumRep states').standing = (quorumRep states).standing := by
  by_cases hj : ∃ s ∈ states, s.currentState.isJoined
  · have hj' : ∃ s ∈ states', s.currentState.isJoined := by simpa only [hp.mem_iff] using hj
    rw [quorumRep_eq_inherit hj, quorumRep_eq_inherit hj', stateQuorumInherit_perm hp]
  have hnull : stateQuorumInherit states = .null := by
    rw [stateQuorumInherit_eq_null_iff]
    push Not at hj
    simpa using hj
  have hnull' : stateQuorumInherit states' = .null := by
    rw [stateQuorumInherit_eq_null_iff] at hnull ⊢
    simpa only [hp.mem_iff] using hnull
  obtain ⟨hre, hboot⟩ := h.resolve_left hj
  have hpf := hp.filter (isCandidate false)
  have hst := hre.standing_eq hpf
  unfold quorumRep
  simp only [hnull, hnull', commonVersion_perm hp]
  cases hg : gathered (commonVersion states) (states.filter (isCandidate false)) with
  | none =>
    have hg' : gathered (commonVersion states) (states'.filter (isCandidate false)) = none := by
      simpa [hg] using hst
    simp only [stateQuorumRemerge_eq_null_iff.mpr hg, stateQuorumRemerge_eq_null_iff.mpr hg']
    rw [rep_standing_of_gathered, rep_standing_of_gathered]
    exact (hboot (hre.undecided (.refl _) hg)).standing_eq (hp.filter (isCandidate true))
  | some r =>
    obtain ⟨r', hg', hr'⟩ : ∃ r', gathered (commonVersion states)
        (states'.filter (isCandidate false)) = some r' ∧ r'.standing = r.standing := by
      simpa [hg] using hst
    simp only [stateQuorumRemerge_eq_rep_iff.mpr hg, stateQuorumRemerge_eq_rep_iff.mpr hg',
      Rep.standing, hr']

theorem OrderSettled.mergesOneHistory (h : OrderSettled states)
    (hp : states'.Perm states) (hdec : DecidedBy bootstrap states') :
    MergesOneHistory (states'.filter (isCandidate bootstrap)) (getQuorum states') := by
  obtain ⟨hnull, hfirst, r, hr⟩ := decidedBy_iff.mp hdec
  have hj : ¬ ∃ s ∈ states, s.currentState.isJoined := by
    rintro ⟨s, hs, hsj⟩
    exact stateQuorumInherit_eq_null_iff.mp hnull s (hp.mem_iff.mpr hs) hsj
  obtain ⟨hre, hboot⟩ := h.resolve_left hj
  rw [mergesOneHistory_iff (quorumRep_of_gathered hnull hfirst hr) (Choosable.of_gathered hr).1]
  unfold FirstUndecided at hfirst
  rw [commonVersion_perm hp] at hr hfirst
  cases bootstrap with
  | false => exact hre.oneHistory (hp.filter _) hr
  | true =>
    have hun := hre.undecided (hp.filter _) (hfirst rfl)
    exact (hboot hun).oneHistory (hp.filter _) hr

/-- In every order of the states a decision by re-merge or bootstrap is for the only history
among the candidates, and the decision is the same in every order, exactly for settled
states. -/
theorem getQuorum_mergesOneHistory_iff (states : List StateMsg) :
    ((∀ states', states'.Perm states → ∀ bootstrap, DecidedBy bootstrap states' →
        MergesOneHistory (states'.filter (isCandidate bootstrap)) (getQuorum states')) ∧
      ∀ states', states'.Perm states → getQuorum states' = getQuorum states) ↔
    OrderSettled states := by
  constructor
  · rintro ⟨hone, hsame⟩
    by_cases hj : ∃ s ∈ states, s.currentState.isJoined
    · exact .inl hj
    have hnull : ∀ states', states'.Perm states → stateQuorumInherit states' = .null := by
      intro states' hp
      push Not at hj
      rw [stateQuorumInherit_eq_null_iff]
      simpa [hp.mem_iff] using hj
    refine .inr ⟨?_, fun hun => ?_⟩
    · refine (merging_of_decisions hnull ?_ (fun s' hp => hone s' hp false) hsame).settled
      exact fun _ _ h => absurd h Bool.false_ne_true
    · refine (merging_of_decisions hnull ?_ (fun s' hp => hone s' hp true) hsame).settled
      intro states' hp _
      rw [commonVersion_perm hp]
      exact (hun.of_perm (hp.filter _)).gathered_eq_none
  · intro h
    exact ⟨fun states' hp bootstrap hdec => h.mergesOneHistory hp hdec,
      fun states' hp => getQuorum_eq_of_standing hp (h.standing_eq hp)⟩

/-- A bootstrap of three nodes, the first of which has no state yet: the two others are of
different groups, and that is not noticed, except when one of them comes first. -/
theorem getQuorum_merges_two_groups : let node (group : Uuid) (received : ℤ) : StateMsg :=
      { stateUuid := 7, groupUuid := group, primUuid := uuidNil, primSeqno := -1,
        received := received, primJoined := 0, primState := .nonPrim, currentState := .prim,
        name := [], incAddr := [], version := stateMsgVer, gcsProtoVer := 0, replProtoVer := 4,
        applProtoVer := 2, flagRep := false, flagCla := true, flagBootstrap := true }
    let clean := node uuidNil seqnoIll
    let states := [clean, node 1 10, node 2 20]
    DecidedBy true states ∧ (getQuorum states).groupUuid = 2 ∧ (getQuorum states).actId = 20 ∧
      ¬ MergesOneHistory (states.filter (isCandidate true)) (getQuorum states) ∧
      (getQuorum [node 1 10, clean, node 2 20]).primary = false := by
  refine ⟨⟨rfl, rfl, by decide⟩, rfl, rfl, ?_, rfl⟩
  intro h
  obtain ⟨-, hgroup, -⟩ := h _ (.tail _ (.head _)) (by decide)
  exact absurd hgroup (by decide)

end Appstack.Gcs
