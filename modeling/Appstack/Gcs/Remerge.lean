import Appstack.Gcs.Quorum

namespace Appstack.Gcs

open List Option

variable {version : ℤ} {s t f : StateMsg} {c : Candidate} {cs : List Candidate}
  {states l : List StateMsg}

/-- `stateNodesCompare` prefers `t` to `s`, or does not tell them apart. -/
def NoNewer (s t : StateMsg) : Prop :=
  s.received < t.received ∨ s.received = t.received ∧ s.primSeqno ≤ t.primSeqno

theorem NoNewer.refl (s : StateMsg) : NoNewer s s := .inr ⟨rfl, le_rfl⟩

variable {l' : List StateMsg} {r : StateMsg}

theorem NoNewer.trans (h : NoNewer r s) (h' : NoNewer s t) : NoNewer r t := by
  unfold NoNewer at *
  omega

theorem NoNewer.received_le (h : NoNewer s t) : s.received ≤ t.received := by
  unfold NoNewer at h
  omega

theorem NoNewer.antisymm (h : NoNewer s t) (h' : NoNewer t s) :
    s.received = t.received ∧ s.primSeqno = t.primSeqno := by
  unfold NoNewer at *
  omega

theorem stateNodesCompare_of_noNewer (h : NoNewer t s) : stateNodesCompare s t = s := by
  unfold NoNewer at h
  unfold stateNodesCompare
  split_ifs <;> first | rfl | omega

theorem noNewer_stateNodesCompare (s t : StateMsg) :
    NoNewer s (stateNodesCompare s t) ∧ NoNewer t (stateNodesCompare s t) := by
  unfold stateNodesCompare NoNewer
  split_ifs <;> omega

theorem foldl_stateNodesCompare (s : StateMsg) (l : List StateMsg) :
    l.foldl stateNodesCompare s ∈ s :: l ∧
      ∀ t ∈ s :: l, NoNewer t (l.foldl stateNodesCompare s) := by
  induction l generalizing s with
  | nil => simp [NoNewer.refl]
  | cons x l ih =>
    obtain ⟨hmem, hall⟩ := ih (stateNodesCompare s x)
    have hcmp := noNewer_stateNodesCompare s x
    have htop := hall _ (.head _)
    refine ⟨?_, ?_⟩
    · rw [foldl_cons]
      rcases mem_cons.mp hmem with h | h
      · rw [h]
        rcases stateNodesCompare_eq s x with he | he <;> simp [he]
      · exact .tail _ (.tail _ h)
    · intro t ht
      rcases mem_cons.mp ht with rfl | ht
      · exact hcmp.1.trans htop
      · rcases mem_cons.mp ht with rfl | ht
        · exact hcmp.2.trans htop
        · exact hall t (.tail _ ht)

theorem foldl_stateNodesCompare_eq_self (h : ∀ t ∈ l, NoNewer t s) :
    l.foldl stateNodesCompare s = s := by
  induction l with
  | nil => rfl
  | cons x l ih =>
    rw [foldl_cons, stateNodesCompare_of_noNewer (h x (.head _))]
    exact ih fun t ht => h t (.tail _ ht)

def SameCandidate (version : ℤ) (s t : StateMsg) : Prop :=
  stateMatchCandidate s (Candidate.of t) version

theorem sameCandidate_iff : SameCandidate version s t ↔ if version = 0 then s.primUuid = t.primUuid
    else s.groupUuid = t.groupUuid ∧ s.received = t.received := by
  unfold SameCandidate stateMatchCandidate Candidate.of
  split_ifs <;> simp

theorem SameCandidate.refl (s : StateMsg) : SameCandidate version s s := by
  simp [sameCandidate_iff]

theorem SameCandidate.symm (h : SameCandidate version s t) : SameCandidate version t s := by
  rw [sameCandidate_iff] at *
  split_ifs at * with hv
  · exact h.symm
  · exact ⟨h.1.symm, h.2.symm⟩

theorem SameCandidate.trans (h : SameCandidate version r s)
    (h' : SameCandidate version s t) : SameCandidate version r t := by
  rw [sameCandidate_iff] at *
  split_ifs at * with hv
  · exact h.trans h'
  · exact ⟨h.1.trans h'.1, h.2.trans h'.2⟩

/-- The candidate was put on the list for this state. -/
def Candidate.OpenedBy (f : StateMsg) (c : Candidate) : Prop :=
  c.primUuid = f.primUuid ∧ c.stateUuid = f.groupUuid ∧ c.stateSeqno = f.received

theorem Candidate.OpenedBy.match_iff (h : c.OpenedBy f) :
    stateMatchCandidate s c version ↔ SameCandidate version s f := by
  unfold SameCandidate stateMatchCandidate Candidate.of
  rw [h.1, h.2.1, h.2.2]

def Candidate.count (c : Candidate) (s : StateMsg) : Candidate :=
  { c with found := c.found + 1, rep := stateNodesCompare c.rep s }

theorem Candidate.foldl_count_openedBy (h : c.OpenedBy f) (l : List StateMsg) :
    (l.foldl Candidate.count c).OpenedBy f := by
  induction l generalizing c with
  | nil => exact h
  | cons x l ih => exact ih h

theorem Candidate.foldl_count_rep (c : Candidate) (l : List StateMsg) :
    (l.foldl Candidate.count c).rep = l.foldl stateNodesCompare c.rep := by
  induction l generalizing c with
  | nil => rfl
  | cons x l ih => exact ih (c.count x)

/-- The candidates that the loop of the re-merge finds in states that all qualify. -/
def gather (version : ℤ) (l : List StateMsg) : List Candidate :=
  l.foldl (fun cs s => addCandidate version s cs) []

theorem remergeCandidates_eq_gather (states : List StateMsg) (bootstrap : Bool) :
    remergeCandidates states version bootstrap =
      gather version (states.filter (isCandidate bootstrap)) := by
  rw [remergeCandidates, gather, foldl_filter]

theorem foldl_addCandidate_cons (c : Candidate) (cs : List Candidate) (l : List StateMsg) :
    l.foldl (fun cs s => addCandidate version s cs) (c :: cs) =
      (l.filter (stateMatchCandidate · c version)).foldl Candidate.count c ::
        (l.filter (fun s => !stateMatchCandidate s c version)).foldl
          (fun cs s => addCandidate version s cs) cs := by
  induction l generalizing c cs with
  | nil => rfl
  | cons x l ih =>
    have hcount : ∀ s, stateMatchCandidate s (c.count x) version =
        stateMatchCandidate s c version := fun _ => rfl
    by_cases hx : stateMatchCandidate x c version
    · have hadd : addCandidate version x (c :: cs) = c.count x :: cs := if_pos hx
      rw [foldl_cons, hadd, ih]
      simp only [hcount, filter_cons, hx, if_true, foldl_cons, Bool.not_true,
        Bool.false_eq_true, if_false]
    · have hadd : addCandidate version x (c :: cs) = c :: addCandidate version x cs := if_neg hx
      rw [foldl_cons, hadd, ih]
      simp only [filter_cons, hx, Bool.false_eq_true, if_false, Bool.not_false, if_true, foldl_cons]

theorem gather_cons (version : ℤ) (x : StateMsg) (l : List StateMsg) : gather version (x :: l) =
      (l.filter (stateMatchCandidate · (Candidate.of x) version)).foldl Candidate.count
          (Candidate.of x) ::
        gather version (l.filter fun s => !stateMatchCandidate s (Candidate.of x) version) :=
  foldl_addCandidate_cons (Candidate.of x) [] l

theorem Candidate.openedBy_of (s : StateMsg) : (Candidate.of s).OpenedBy s := ⟨rfl, rfl, rfl⟩

/-- What a candidate stands for among the states `l`: it was opened by one of them, and it is
represented by a newest one of those that count for it. -/
structure Candidate.StandsFor (version : ℤ) (l : List StateMsg) (c : Candidate) : Prop where
  opened : ∃ f ∈ l, c.OpenedBy f
  rep_mem : c.rep ∈ l
  rep_match : stateMatchCandidate c.rep c version
  newest : ∀ s ∈ l, stateMatchCandidate s c version → NoNewer s c.rep

theorem Candidate.StandsFor.stateSeqno_le (h : c.StandsFor version l) :
    c.stateSeqno ≤ c.rep.received := by
  obtain ⟨f, hf, ho⟩ := h.opened
  rw [ho.2.2]
  exact (h.newest f hf (ho.match_iff.mpr (.refl f))).received_le

theorem standsFor_first (version : ℤ) (x : StateMsg) (l : List StateMsg) :
    ((l.filter (stateMatchCandidate · (Candidate.of x) version)).foldl Candidate.count
      (Candidate.of x)).StandsFor version (x :: l) := by
  have hopen := Candidate.foldl_count_openedBy (Candidate.openedBy_of x)
    (l.filter (stateMatchCandidate · (Candidate.of x) version))
  obtain ⟨hmem, hnew⟩ := foldl_stateNodesCompare x
    (l.filter (stateMatchCandidate · (Candidate.of x) version))
  have hsame : ∀ s ∈ x :: l.filter (stateMatchCandidate · (Candidate.of x) version),
      SameCandidate version s x := by
    intro s hs
    rcases mem_cons.mp hs with rfl | hs
    · exact .refl s
    · exact (mem_filter.mp hs).2
  refine ⟨⟨x, .head _, hopen⟩, ?_, ?_, ?_⟩
  · rw [Candidate.foldl_count_rep]
    exact cons_subset_cons _ (filter_subset_self _) hmem
  · rw [hopen.match_iff, Candidate.foldl_count_rep]
    exact hsame _ hmem
  · intro s hs hmatch
    rw [Candidate.foldl_count_rep]
    apply hnew
    rcases mem_cons.mp hs with rfl | hs
    · exact .head _
    · exact .tail _ (mem_filter.mpr ⟨hs, hopen.match_iff.mp hmatch⟩)

theorem gather_spec (version : ℤ) (l : List StateMsg) :
    (∀ c ∈ gather version l, c.StandsFor version l) ∧
      ∀ s ∈ l, ∃ c ∈ gather version l, stateMatchCandidate s c version := by
  induction hn : l.length using Nat.strong_induction_on generalizing l with
  | _ n ih =>
  cases l with
  | nil => simp [gather]
  | cons x l =>
    have hopen := Candidate.foldl_count_openedBy (Candidate.openedBy_of x)
      (l.filter (stateMatchCandidate · (Candidate.of x) version))
    have hlen : (l.filter fun s => !stateMatchCandidate s (Candidate.of x) version).length < n := by
      rw [← hn]
      exact Nat.lt_succ_of_le (length_filter_le _ _)
    obtain ⟨hstands, hfound⟩ := ih _ hlen _ rfl
    rw [gather_cons]
    refine ⟨?_, ?_⟩
    · intro c hc
      rcases mem_cons.mp hc with rfl | hc
      · exact standsFor_first version x l
      · obtain ⟨⟨f, hf, ho⟩, hmem, hmatch, hnew⟩ := hstands c hc
        have hfilter := mem_filter.mp hf
        refine ⟨⟨f, mem_cons_of_mem _ hfilter.1, ho⟩,
          mem_cons_of_mem _ (mem_filter.mp hmem).1, hmatch, ?_⟩
        intro s hs hsc
        -- a state of this candidate has not been taken by the first one
        have hsx : ¬ SameCandidate version s x := by
          intro hsx
          have hfx : SameCandidate version f x := (ho.match_iff.mp hsc).symm.trans hsx
          have hnot := hfilter.2
          rw [show stateMatchCandidate f (Candidate.of x) version = true from hfx] at hnot
          cases hnot
        apply hnew s _ hsc
        rcases mem_cons.mp hs with rfl | hs
        · exact absurd (SameCandidate.refl s) hsx
        · exact mem_filter.mpr ⟨hs, by simpa [SameCandidate] using hsx⟩
    · intro s hs
      by_cases hsx : SameCandidate version s x
      · exact ⟨_, .head _, hopen.match_iff.mpr hsx⟩
      · rcases mem_cons.mp hs with rfl | hs
        · exact absurd (SameCandidate.refl s) hsx
        · obtain ⟨c, hc, hmatch⟩ :=
            hfound s (mem_filter.mpr ⟨hs, by simpa [SameCandidate] using hsx⟩)
          exact ⟨c, mem_cons_of_mem _ hc, hmatch⟩

section
variable {u : Uuid} {b : Candidate}

theorem foldlM_repCandidateStep_eq_none (hu : u ≠ uuidNil)
    (hc : c ∈ cs) (hnil : c.stateUuid ≠ uuidNil) (hne : u ≠ c.stateUuid) :
    cs.foldlM (repCandidateStep u) b = none := by
  induction cs generalizing b with
  | nil => cases hc
  | cons d cs ih =>
    rw [foldlM_cons]
    rcases mem_cons.mp hc with rfl | hc
    · have hstep : repCandidateStep u b c = none := by
        rw [repCandidateStep, if_neg hnil, if_pos ⟨hu, hne⟩]
      rw [hstep]
      rfl
    · cases hstep : repCandidateStep u b d with
      | none => rfl
      | some b' => exact ih hc

theorem exists_foldlM_repCandidateStep
    (h : ∀ c ∈ cs, c.stateUuid = uuidNil ∨ u = uuidNil ∨ u = c.stateUuid) :
    ∃ rc, cs.foldlM (repCandidateStep u) b = some rc := by
  induction cs generalizing b with
  | nil => exact ⟨b, rfl⟩
  | cons d cs ih =>
    rw [foldlM_cons]
    have hstep : ∃ b', repCandidateStep u b d = some b' := by
      have hd := h d (.head _)
      unfold repCandidateStep
      split_ifs with h1 h2 h3
      · exact ⟨_, rfl⟩
      · rcases hd with hd | hd | hd
        exacts [absurd hd h1, absurd hd h2.1, absurd hd h2.2]
      · exact ⟨_, rfl⟩
      · exact ⟨_, rfl⟩
    obtain ⟨b', hb'⟩ := hstep
    rw [hb']
    exact ih fun c hc => h c (.tail _ hc)

theorem foldlM_repCandidateStep_eq_self (h : ∀ c ∈ cs, c.stateUuid = uuidNil ∨
      (u = uuidNil ∨ u = c.stateUuid) ∧ c.stateSeqno ≤ b.stateSeqno) :
    cs.foldlM (repCandidateStep u) b = some b := by
  induction cs with
  | nil => rfl
  | cons d cs ih =>
    have hstep : repCandidateStep u b d = some b := by
      have hd := h d (.head _)
      unfold repCandidateStep
      split_ifs with h1 h2 h3
      · rfl
      · rcases hd with hd | ⟨hd | hd, -⟩
        exacts [absurd hd h1, absurd hd h2.1, absurd hd h2.2]
      · rcases hd with hd | ⟨-, hle⟩
        exacts [absurd hd h1, absurd h3 (not_lt.mpr hle)]
      · rfl
    rw [foldlM_cons, hstep]
    exact ih fun c hc => h c (.tail _ hc)

end

/-- The state that represents some qualifying states, if they decide anything. -/
def gathered (version : ℤ) (l : List StateMsg) : Option StateMsg :=
  (stateRepCandidate (gather version l)).map Candidate.rep

theorem stateQuorumRemerge_eq_gathered (states : List StateMsg) (version : ℤ) (bootstrap : Bool) :
    stateQuorumRemerge states version bootstrap =
      match gathered version (states.filter (isCandidate bootstrap)) with
      | none => .null
      | some r => .rep r := by
  rw [stateQuorumRemerge, remergeCandidates_eq_gather, gathered]
  cases stateRepCandidate (gather version (states.filter (isCandidate bootstrap))) <;> rfl

/-- In some order of the states `t` represents them all, should they decide: it is newest in
its own group, and every group has a state that `t` can be ahead of. -/
def Choosable (version : ℤ) (l : List StateMsg) (t : StateMsg) : Prop :=
  t ∈ l ∧ (∀ s ∈ l, SameCandidate version s t → NoNewer s t) ∧
    ∀ s ∈ l, ∃ y ∈ l, SameCandidate version s y ∧ (y.groupUuid = uuidNil ∨ y.received ≤ t.received)

/-- All states have a group UUID, and for none of the UUIDs is there one in every group. -/
def Undecided (version : ℤ) (l : List StateMsg) : Prop :=
  ∀ t ∈ l, t.groupUuid ≠ uuidNil ∧
    ∃ s ∈ l, ∀ y ∈ l, SameCandidate version s y → y.groupUuid ≠ t.groupUuid

/-- The states with a group UUID all have that of `t`, and none has received more. -/
def OneHistory (l : List StateMsg) (t : StateMsg) : Prop :=
  ∀ s ∈ l, s.groupUuid ≠ uuidNil → s.groupUuid = t.groupUuid ∧ s.received ≤ t.received

/-- Whoever comes to represent the states stands for the same history. -/
def Agreeing (version : ℤ) (l : List StateMsg) : Prop :=
  ∀ t, Choosable version l t → OneHistory l t ∧
    ∀ t', Choosable version l t' → t'.received = t.received ∧ t'.primSeqno = t.primSeqno

def Settled (version : ℤ) (l : List StateMsg) : Prop :=
  Undecided version l ∨ Agreeing version l

theorem Choosable.of_gathered (h : gathered version l = some r) : Choosable version l r := by
  obtain ⟨rc, hrc, rfl⟩ := map_eq_some_iff.mp h
  obtain ⟨hstands, hfound⟩ := gather_spec version l
  have hpick : rc ∈ gather version l ∧
      ∀ c ∈ gather version l, c.stateUuid = uuidNil ∨ c.stateSeqno ≤ rc.stateSeqno := by
    cases hcs : gather version l with
    | nil => simp [hcs, stateRepCandidate] at hrc
    | cons b cs =>
      rw [hcs] at hrc
      obtain ⟨hmem, hle, hall⟩ := foldlM_repCandidateStep hrc
      refine ⟨hmem, ?_⟩
      intro c hc
      rcases mem_cons.mp hc with rfl | hc
      · exact .inr hle
      · exact hall c hc
  have hr := hstands rc hpick.1
  obtain ⟨f, hf, ho⟩ := hr.opened
  refine ⟨hr.rep_mem, ?_, ?_⟩
  · intro s hs hsame
    apply hr.newest s hs
    exact ho.match_iff.mpr (hsame.trans (ho.match_iff.mp hr.rep_match))
  · intro s hs
    obtain ⟨c, hc, hmatch⟩ := hfound s hs
    obtain ⟨y, hy, hyo⟩ := (hstands c hc).opened
    refine ⟨y, hy, hyo.match_iff.mp hmatch, ?_⟩
    rw [← hyo.2.1, ← hyo.2.2]
    exact (hpick.2 c hc).imp_right fun hle => hle.trans hr.stateSeqno_le

theorem exists_choosable (version : ℤ) (hl : l ≠ []) : ∃ t, Choosable version l t := by
  cases l with
  | nil => exact absurd rfl hl
  | cons x l =>
    obtain ⟨hmem, hnew⟩ := foldl_stateNodesCompare x l
    exact ⟨_, hmem, fun s hs _ => hnew s hs,
      fun s hs => ⟨s, hs, .refl s, .inr (hnew s hs).received_le⟩⟩

theorem Undecided.gathered_eq_none (h : Undecided version l) : gathered version l = none := by
  rw [gathered, map_eq_none_iff]
  cases l with
  | nil => rfl
  | cons x l =>
    obtain ⟨hstands, hfound⟩ := gather_spec version (x :: l)
    obtain ⟨hx, s, hs, hother⟩ := h x (.head _)
    have hopen := Candidate.foldl_count_openedBy (Candidate.openedBy_of x)
      (l.filter (stateMatchCandidate · (Candidate.of x) version))
    obtain ⟨c, hc, hmatch⟩ := hfound s hs
    obtain ⟨y, hy, hyo⟩ := (hstands c hc).opened
    -- the candidate of `s` has another UUID than the first one
    have hyu : y.groupUuid ≠ x.groupUuid := hother y hy (hyo.match_iff.mp hmatch)
    rw [gather_cons] at hc ⊢
    rcases mem_cons.mp hc with rfl | hc
    · exact absurd (hyo.2.1.symm.trans hopen.2.1) hyu
    · rw [stateRepCandidate, hopen.2.1]
      refine foldlM_repCandidateStep_eq_none hx hc ?_ ?_
      · rw [hyo.2.1]
        exact (h y hy).1
      · rw [hyo.2.1]
        exact hyu.symm

theorem gather_append_openedBy {front rest : List StateMsg}
    (h : ∀ s ∈ rest, ∃ y ∈ front, SameCandidate version s y) :
    ∀ c ∈ gather version (front ++ rest), ∃ y ∈ front, c.OpenedBy y := by
  induction rest using List.reverseRecOn with
  | nil =>
    intro c hc
    rw [append_nil] at hc
    exact ((gather_spec version front).1 c hc).opened
  | append_singleton rest x ih =>
    have ih := ih fun s hs => h s (mem_append_left _ hs)
    have hfound := (gather_spec version (front ++ rest)).2
    obtain ⟨y, hy, hxy⟩ := h x (by simp)
    obtain ⟨c, hc, hmatch⟩ := hfound y (mem_append_left _ hy)
    obtain ⟨z, hz, hzo⟩ := ih c hc
    have hxc : stateMatchCandidate x c version :=
      hzo.match_iff.mpr (hxy.trans (hzo.match_iff.mp hmatch))
    have hadd : ∀ cs : List Candidate, c ∈ cs → (∀ c ∈ cs, ∃ y ∈ front, c.OpenedBy y) →
        ∀ c ∈ addCandidate version x cs, ∃ y ∈ front, c.OpenedBy y := by
      intro cs hc hcs d hd
      induction cs with
      | nil => cases hc
      | cons e cs ihcs =>
        have he := hcs e (.head _)
        unfold addCandidate at hd
        split_ifs at hd with hxe
        · rcases mem_cons.mp hd with rfl | hd
          · exact he
          · exact hcs d (.tail _ hd)
        · rcases mem_cons.mp hd with rfl | hd
          · exact he
          · rcases mem_cons.mp hc with rfl | hc
            · exact absurd hxc hxe
            · exact ihcs hc (fun c hc => hcs c (.tail _ hc)) hd
    have hgather : gather version (front ++ (rest ++ [x])) =
        addCandidate version x (gather version (front ++ rest)) := by
      rw [← append_assoc, gather, foldl_append]
      rfl
    rw [hgather]
    exact hadd _ hc ih

theorem exists_perm_gathered (h : ¬ Undecided version l) :
    ∃ l', l'.Perm l ∧ ∃ r, gathered version l' = some r := by
  unfold Undecided at h
  push Not at h
  obtain ⟨t, ht, hu⟩ := h
  by_cases hnil : t.groupUuid = uuidNil
  · -- nothing is compared with a first candidate that has no UUID
    refine ⟨t :: l.erase t, (perm_cons_erase ht).symm, ?_⟩
    have hopen := Candidate.foldl_count_openedBy (Candidate.openedBy_of t)
      ((l.erase t).filter (stateMatchCandidate · (Candidate.of t) version))
    rw [gathered, gather_cons, stateRepCandidate, hopen.2.1, hnil]
    obtain ⟨rc, hrc⟩ := exists_foldlM_repCandidateStep fun _ _ => .inr (.inl rfl)
    exact ⟨rc.rep, by rw [hrc]; rfl⟩
  · have hsame := hu hnil
    let front := l.filter fun s => s.groupUuid = t.groupUuid
    let rest := l.filter fun s => !decide (s.groupUuid = t.groupUuid)
    have huuid : ∀ c ∈ gather version (front ++ rest), c.stateUuid = t.groupUuid := by
      intro c hc
      have hfront : ∀ s ∈ rest, ∃ y ∈ front, SameCandidate version s y := by
        intro s hs
        obtain ⟨y, hy, hsy, hyu⟩ := hsame s (mem_filter.mp hs).1
        exact ⟨y, mem_filter.mpr ⟨hy, by simpa using hyu⟩, hsy⟩
      obtain ⟨y, hy, hyo⟩ := gather_append_openedBy hfront c hc
      rw [hyo.2.1]
      simpa using (mem_filter.mp hy).2
    refine ⟨front ++ rest, filter_append_perm _ l, ?_⟩
    cases hcs : gather version (front ++ rest) with
    | nil =>
      have htmem : t ∈ front ++ rest :=
        mem_append_left _ (mem_filter.mpr ⟨ht, by simp⟩)
      obtain ⟨c, hc, -⟩ := (gather_spec version (front ++ rest)).2 t htmem
      simp [hcs] at hc
    | cons b cs =>
      rw [hcs] at huuid
      have hb := huuid b (.head _)
      have hagree : ∀ c ∈ cs, c.stateUuid = uuidNil ∨ b.stateUuid = uuidNil ∨
          b.stateUuid = c.stateUuid :=
        fun c hc => .inr (.inr (hb.trans (huuid c (.tail _ hc)).symm))
      obtain ⟨rc, hrc⟩ := exists_foldlM_repCandidateStep (b := b) hagree
      exact ⟨rc.rep, by rw [gathered, hcs, stateRepCandidate, hrc]; rfl⟩

theorem exists_gathered (version : ℤ) (hl : l ≠ [])
    (h : ∀ s ∈ l, ∀ t ∈ l, s.groupUuid ≠ uuidNil → t.groupUuid ≠ uuidNil →
      s.groupUuid = t.groupUuid) :
    ∃ r, gathered version l = some r := by
  cases l with
  | nil => exact absurd rfl hl
  | cons x l =>
    have hstands := (gather_spec version (x :: l)).1
    have hopen := Candidate.foldl_count_openedBy (Candidate.openedBy_of x)
      (l.filter (stateMatchCandidate · (Candidate.of x) version))
    rw [gathered, gather_cons, stateRepCandidate, hopen.2.1]
    rw [gather_cons] at hstands
    have hagree : ∀ c ∈ gather version
        (l.filter fun s => !stateMatchCandidate s (Candidate.of x) version),
        c.stateUuid = uuidNil ∨ x.groupUuid = uuidNil ∨ x.groupUuid = c.stateUuid := by
      intro c hc
      obtain ⟨y, hy, hyo⟩ := (hstands c (.tail _ hc)).opened
      rw [hyo.2.1]
      by_cases hy0 : y.groupUuid = uuidNil
      · exact .inl hy0
      · by_cases hx0 : x.groupUuid = uuidNil
        · exact .inr (.inl hx0)
        · exact .inr (.inr (h x (.head _) y hy hx0 hy0))
    obtain ⟨rc, hrc⟩ := exists_foldlM_repCandidateStep hagree
    exact ⟨rc.rep, by rw [hrc]; rfl⟩

theorem Choosable.exists_perm (ht : Choosable version l t)
    (h : ∀ s ∈ l, ∀ t ∈ l, s.groupUuid ≠ uuidNil → t.groupUuid ≠ uuidNil →
      s.groupUuid = t.groupUuid) :
    ∃ l', l'.Perm l ∧ gathered version l' = some t := by
  obtain ⟨hmem, hnew, hlow⟩ := ht
  -- `t` opens the first candidate, then come the states that it can be ahead of
  let low : StateMsg → Bool := fun y => y.groupUuid = uuidNil ∨ y.received ≤ t.received
  let front := t :: (l.erase t).filter low
  let rest := (l.erase t).filter fun s => !low s
  have hperm : (front ++ rest).Perm l := by
    refine List.Perm.trans ?_ (perm_cons_erase hmem).symm
    exact (filter_append_perm low (l.erase t)).cons t
  refine ⟨front ++ rest, hperm, ?_⟩
  have hfront : ∀ s ∈ rest, ∃ y ∈ front, SameCandidate version s y := by
    intro s hs
    obtain ⟨y, hy, hsy, hylow⟩ := hlow s (mem_of_mem_erase (mem_filter.mp hs).1)
    rcases mem_cons.mp ((perm_cons_erase hmem).mem_iff.mp hy) with rfl | hy
    · exact ⟨y, .head _, hsy⟩
    · exact ⟨y, mem_cons_of_mem _ (mem_filter.mpr ⟨hy, by simpa [low] using hylow⟩), hsy⟩
  have hopened := gather_append_openedBy hfront
  have hopen := Candidate.foldl_count_openedBy (Candidate.openedBy_of t)
    (((l.erase t).filter low ++ rest).filter (stateMatchCandidate · (Candidate.of t) version))
  have hrep : ((((l.erase t).filter low ++ rest).filter
      (stateMatchCandidate · (Candidate.of t) version)).foldl Candidate.count
        (Candidate.of t)).rep = t := by
    rw [Candidate.foldl_count_rep]
    apply foldl_stateNodesCompare_eq_self
    intro s hs
    obtain ⟨hs, hst⟩ := mem_filter.mp hs
    exact hnew s (hperm.mem_iff.mp (.tail _ hs)) hst
  have hgather : gather version (front ++ rest) = _ :=
    gather_cons version t ((l.erase t).filter low ++ rest)
  rw [hgather] at hopened
  rw [gathered, hgather, stateRepCandidate, foldlM_repCandidateStep_eq_self, map_some, hrep]
  intro c hc
  obtain ⟨y, hy, hyo⟩ := hopened c (.tail _ hc)
  rw [hyo.2.1, hyo.2.2, hopen.2.1, hopen.2.2]
  have hyl : y ∈ l := hperm.mem_iff.mp (mem_append_left _ hy)
  have hylow : y.groupUuid = uuidNil ∨ y.received ≤ t.received := by
    rcases mem_cons.mp hy with rfl | hy
    · exact .inr le_rfl
    · simpa [low] using (mem_filter.mp hy).2
  by_cases hy0 : y.groupUuid = uuidNil
  · exact .inl hy0
  · refine .inr ⟨?_, hylow.resolve_left hy0⟩
    by_cases ht0 : t.groupUuid = uuidNil
    · exact .inl ht0
    · exact .inr (h t hmem y hyl ht0 hy0)

theorem OneHistory.agree {t : StateMsg} (h : OneHistory l t) :
    ∀ s ∈ l, ∀ s' ∈ l, s.groupUuid ≠ uuidNil → s'.groupUuid ≠ uuidNil →
      s.groupUuid = s'.groupUuid :=
  fun s hs s' hs' h0 h0' => (h s hs h0).1.trans (h s' hs' h0').1.symm

theorem OneHistory.of_perm (hp : l'.Perm l) (h : OneHistory l' t) : OneHistory l t :=
  fun s hs => h s (hp.mem_iff.mpr hs)

/-- A decision about the states is about one history, and it is the same decision in every
order in which there is one. -/
structure Merging (version : ℤ) (l : List StateMsg) : Prop where
  oneHistory : ∀ l', l'.Perm l → ∀ r, gathered version l' = some r → OneHistory l' r
  same : ∀ l₁, l₁.Perm l → ∀ l₂, l₂.Perm l → ∀ r₁ r₂,
    gathered version l₁ = some r₁ → gathered version l₂ = some r₂ →
      r₁.received = r₂.received ∧ r₁.primSeqno = r₂.primSeqno

theorem Merging.settled (h : Merging version l) : Settled version l := by
  by_cases hun : Undecided version l
  · exact .inl hun
  obtain ⟨l0, hp0, r0, hr0⟩ := exists_perm_gathered hun
  have hagree := ((h.oneHistory l0 hp0 r0 hr0).of_perm hp0).agree
  refine .inr ?_
  intro t ht
  obtain ⟨l1, hp1, hr1⟩ := ht.exists_perm hagree
  refine ⟨(h.oneHistory l1 hp1 t hr1).of_perm hp1, ?_⟩
  intro t' ht'
  obtain ⟨l2, hp2, hr2⟩ := ht'.exists_perm hagree
  exact h.same l2 hp2 l1 hp1 t' t hr2 hr1

theorem Choosable.of_perm (hp : l'.Perm l) (h : Choosable version l' t) :
    Choosable version l t := by
  simpa only [Choosable, hp.mem_iff] using h

theorem Undecided.of_perm (hp : l'.Perm l) (h : Undecided version l) : Undecided version l' := by
  simpa only [Undecided, hp.mem_iff] using h

/-- What a decision takes over from the representative. -/
def StateMsg.standing (s : StateMsg) : Uuid × ℤ × ℤ := (s.groupUuid, s.received, s.primSeqno)

theorem Agreeing.standing_eq {t' : StateMsg} (h : Agreeing version l)
    (ht : Choosable version l t) (ht' : Choosable version l t') : t'.standing = t.standing := by
  obtain ⟨hhist, hsame⟩ := h t ht
  obtain ⟨hrec, hprim⟩ := hsame t' ht'
  have hgroup : t'.groupUuid = t.groupUuid := by
    by_cases h0 : t'.groupUuid = uuidNil
    · by_cases h1 : t.groupUuid = uuidNil
      · rw [h0, h1]
      · exact (((h t' ht').1 t ht.1 h1).1).symm
    · exact (hhist t' ht'.1 h0).1
  rw [StateMsg.standing, StateMsg.standing, hgroup, hrec, hprim]

theorem Settled.oneHistory (h : Settled version l)
    (hp : l'.Perm l) (hr : gathered version l' = some r) : OneHistory l' r := by
  rcases h with h | h
  · rw [(h.of_perm hp).gathered_eq_none] at hr
    cases hr
  · exact (h r ((Choosable.of_gathered hr).of_perm hp)).1.of_perm hp.symm

theorem Agreeing.exists_gathered (h : Agreeing version l) (hl : l ≠ [])
    (hp : l'.Perm l) : ∃ r, gathered version l' = some r := by
  have hl' : l' ≠ [] := fun h' => hl (by simpa [h'] using hp)
  obtain ⟨t, ht⟩ := exists_choosable version hl
  exact Gcs.exists_gathered version hl' ((h t ht).1.of_perm hp.symm).agree

theorem Settled.undecided (h : Settled version l) (hp : l'.Perm l)
    (hr : gathered version l' = none) : Undecided version l := by
  rcases h with h | h
  · exact h
  · by_cases hl : l = []
    · subst hl
      exact fun t ht => absurd ht not_mem_nil
    · obtain ⟨r, hr'⟩ := h.exists_gathered hl hp
      rw [hr] at hr'
      cases hr'

theorem Settled.standing_eq (h : Settled version l) (hp : l'.Perm l) :
    (gathered version l').map StateMsg.standing = (gathered version l).map StateMsg.standing := by
  rcases h with h | h
  · rw [h.gathered_eq_none, (h.of_perm hp).gathered_eq_none]
  · by_cases hl : l = []
    · subst hl
      rw [hp.eq_nil]
    obtain ⟨r, hr⟩ := h.exists_gathered hl (.refl l)
    obtain ⟨r', hr'⟩ := h.exists_gathered hl hp
    rw [hr, hr', map_some, map_some,
      h.standing_eq (.of_gathered hr) ((Choosable.of_gathered hr').of_perm hp)]

end Appstack.Gcs
