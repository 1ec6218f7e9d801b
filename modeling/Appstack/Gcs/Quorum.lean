import Appstack.Gcs.StateMsg

namespace Appstack.Gcs

open List

variable {states : List StateMsg} {a r s : StateMsg}

theorem stateNodesCompare_eq (a b : StateMsg) :
    stateNodesCompare a b = a ∨ stateNodesCompare a b = b := by
  unfold stateNodesCompare
  split_ifs <;> simp

theorem le_stateNodesCompare (a b : StateMsg) :
    a.received ≤ (stateNodesCompare a b).received ∧
      b.received ≤ (stateNodesCompare a b).received := by
  unfold stateNodesCompare
  split_ifs <;> constructor <;> omega

theorem foldlM_inheritStep {rest : List StateMsg} (ha : a.currentState.isJoined)
    (h : rest.foldlM inheritStep a = some r) :
    r ∈ a :: rest ∧ r.currentState.isJoined ∧ r.groupUuid = a.groupUuid ∧ a.received ≤ r.received ∧
      ∀ s ∈ rest, s.currentState.isJoined → s.received ≤ r.received := by
  induction rest generalizing a with
  | nil =>
    obtain rfl : a = r := Option.some.inj h
    simp [ha]
  | cons s rest ih =>
    rw [foldlM_cons] at h
    unfold inheritStep at h
    split_ifs at h with hs huuid
    · cases h
    · have hle := le_stateNodesCompare a s
      have hjoined : (stateNodesCompare a s).currentState.isJoined := by
        rcases stateNodesCompare_eq a s with he | he <;> simp [he, ha, hs]
      have hgroup : (stateNodesCompare a s).groupUuid = a.groupUuid := by
        rcases stateNodesCompare_eq a s with he | he
        · rw [he]
        · rw [he]
          exact (not_not.mp huuid).symm
      obtain ⟨hmem, hr, hru, hrle, hall⟩ := ih hjoined h
      refine ⟨?_, hr, hru.trans hgroup, hle.1.trans hrle, ?_⟩
      · rcases mem_cons.mp hmem with rfl | hmem
        · rcases stateNodesCompare_eq a s with he | he <;> simp [he]
        · simp [hmem]
      · intro x hx hxj
        rcases mem_cons.mp hx with rfl | hx
        · exact hle.2.trans hrle
        · exact hall x hx hxj
    · obtain ⟨hmem, hr, hru, hrle, hall⟩ := ih ha h
      refine ⟨?_, hr, hru, hrle, ?_⟩
      · rcases mem_cons.mp hmem with rfl | hmem <;> simp [*]
      · intro x hx hxj
        rcases mem_cons.mp hx with rfl | hx
        · exact absurd hxj hs
        · exact hall x hx hxj

theorem stateQuorumInherit_rep (h : stateQuorumInherit states = .rep r) :
    r ∈ states ∧ r.currentState.isJoined ∧
      ∀ s ∈ states, s.currentState.isJoined → s.received ≤ r.received := by
  unfold stateQuorumInherit at h
  split at h
  · cases h
  next first rest hdrop =>
    split at h
    · cases h
    next r' hfold =>
      obtain rfl := Rep.rep.inj h
      have hsplit := takeWhile_append_dropWhile
        (p := fun s : StateMsg => !s.currentState.isJoined) (l := states)
      rw [hdrop] at hsplit
      have hfirst : first.currentState.isJoined := by
        have := List.head?_dropWhile_not (fun s : StateMsg => !s.currentState.isJoined) states
        rw [hdrop] at this
        simpa using this
      obtain ⟨hmem, hr, -, hle, hall⟩ := foldlM_inheritStep hfirst hfold
      refine ⟨?_, hr, ?_⟩
      · rw [← hsplit]
        exact mem_append_right _ hmem
      · intro s hs hj
        rw [← hsplit, mem_append, mem_cons] at hs
        rcases hs with hs | rfl | hs
        · have hnot := mem_takeWhile_imp hs
          simp [hj] at hnot
        · exact hle
        · exact hall s hs hj

variable {version : ℤ} {bootstrap : Bool} {cs : List Candidate} {p : StateMsg → Prop}

theorem foldlM_repCandidateStep {u : Uuid} {b rc : Candidate}
    (h : cs.foldlM (repCandidateStep u) b = some rc) :
    rc ∈ b :: cs ∧ b.stateSeqno ≤ rc.stateSeqno ∧
      ∀ c ∈ cs, c.stateUuid = uuidNil ∨ c.stateSeqno ≤ rc.stateSeqno := by
  induction cs generalizing b with
  | nil =>
    obtain rfl : b = rc := Option.some.inj h
    simp
  | cons c cs ih =>
    rw [foldlM_cons] at h
    unfold repCandidateStep at h
    split_ifs at h with hnil hu hlt
    · obtain ⟨hmem, hle, hall⟩ := ih h
      refine ⟨?_, hle, ?_⟩
      · rcases mem_cons.mp hmem with rfl | hmem <;> simp [*]
      · intro d hd
        rcases mem_cons.mp hd with rfl | hd
        · exact .inl hnil
        · exact hall d hd
    · cases h
    · obtain ⟨hmem, hle, hall⟩ := ih h
      refine ⟨mem_cons_of_mem _ hmem, by omega, ?_⟩
      intro d hd
      rcases mem_cons.mp hd with rfl | hd
      · exact .inr hle
      · exact hall d hd
    · obtain ⟨hmem, hle, hall⟩ := ih h
      refine ⟨?_, hle, ?_⟩
      · rcases mem_cons.mp hmem with rfl | hmem <;> simp [*]
      · intro d hd
        rcases mem_cons.mp hd with rfl | hd
        · exact .inr (by omega)
        · exact hall d hd

theorem getQuorum_primary :
    (getQuorum states).primary ↔ ∃ r, quorumRep states = .rep r ∧
      (getQuorum states).groupUuid = r.groupUuid ∧ (getQuorum states).actId = r.received ∧
      (getQuorum states).confId = r.primSeqno := by
  unfold getQuorum
  split
  next r hr => exact ⟨fun _ => ⟨r, hr, rfl, rfl, rfl⟩, fun _ => rfl⟩
  next hr =>
    simp only [Quorum.nonPrimary, Bool.false_eq_true, false_iff, not_exists]
    rintro r ⟨h, -⟩
    exact hr r h

end Appstack.Gcs
