import Appstack.NsServer.AutoFailover

namespace Appstack.NsServer

open List

variable {α : Type} [LinearOrder α] {s : State α} {states : List (NodeState α)} {f g : Frame α}
  {older : List (Frame α)} {n : α} {threshold : ℕ}

theorem sizeChanged_eq_false (threshold : ℕ) (older : List (Frame α)) (h : g.nodes = f.nodes) :
    sizeChanged f.nodes (after α threshold (g :: older)) = false := by
  have := congrArg List.length (names_statesAfter (known_after threshold older) g)
  rw [length_map, h] at this
  simp [sizeChanged, after, this]

/-- Where a node stands after `k` frames in which it was down alone. -/
def standing (downThreshold k : ℕ) : NodeStatus × ℕ :=
  if k ≤ downThreshold then (.halfDown, k - 1) else (.nearlyDown, k - downThreshold - 1)

omit [LinearOrder α] in
theorem increment_standing {ns : NodeState α} {k : ℕ} (hk : 1 ≤ k)
    (hlt : k < s.downThreshold + 2) (h : (ns.state, ns.downCounter) = standing s.downThreshold k) :
    ((incrementDownState ns [n] s false).state, (incrementDownState ns [n] s false).downCounter) =
      standing s.downThreshold (k + 1) := by
  obtain ⟨name, c, state, m⟩ := ns
  unfold standing at h ⊢
  split_ifs at h with hle <;> obtain ⟨rfl, rfl⟩ := Prod.mk.inj h <;> simp only [incrementDownState]
  · split_ifs <;> simp <;> omega
  · rw [if_neg (by omega), if_neg (by omega)]
    simp
    omega

variable {block : List (Frame α)} {nodes : List α}

theorem standing_after (hthreshold : 2 ≤ threshold)
    (hblock : ∀ g ∈ block, g.nodes = nodes ∧ g.downNodes = [n])
    (holder : ∀ g ∈ older.head?, n ∉ g.downNodes) (hne : block ≠ [])
    (hlen : block.length ≤ threshold + 1) :
    ((stateOf (after α threshold (block ++ older)).nodesStates n).state,
      (stateOf (after α threshold (block ++ older)).nodesStates n).downCounter) =
      standing (threshold - 1) block.length := by
  induction block with
  | nil => exact absurd rfl hne
  | cons f block ih =>
    obtain ⟨⟨hnodes, hdown⟩, hblock⟩ := forall_mem_cons.mp hblock
    have hnext : ((nextState (after α threshold (block ++ older)) f n).state,
        (nextState (after α threshold (block ++ older)) f n).downCounter) =
        standing (threshold - 1) (block.length + 1) := by
      rw [nextState, hdown]
      cases block with
      | nil =>
        have hanew : ((stateOf (after α threshold older).nodesStates n).state = .new ∨
            (stateOf (after α threshold older).nodesStates n).state = .up) ∧
            (stateOf (after α threshold older).nodesStates n).downCounter = 0 := by
          cases older with
          | nil => exact ⟨.inl rfl, rfl⟩
          | cons g older => exact stateOf_not_down (known_after threshold older) (holder g rfl)
        obtain ⟨hst | hst, hc⟩ := hanew
        all_goals
          simp [incrementDownState, hst, hc, standing]
          omega
      | cons g block =>
        have hg := (hblock g (.head _)).1.trans hnodes.symm
        rw [cons_append, sizeChanged_eq_false _ _ hg,
          ← after_downThreshold threshold (g :: (block ++ older))]
        refine increment_standing (by simp) ?_ ?_
        · rw [after_downThreshold]
          simp only [length_cons] at hlen ⊢
          omega
        · rw [after_downThreshold]
          exact ih hblock (by simp) (by simp at hlen ⊢; omega)
    rw [cons_append, after]
    rcases stateOf_down (known_after threshold (block ++ older))
      (hdown.symm ▸ mem_singleton_self n) with h | h
    · rw [h]
      exact hnext
    · rw [h]
      exact hnext

theorem failover_in_time (hthreshold : 2 ≤ threshold)
    (hlen : block.length = threshold + 1) (hsize : 2 < nodes.length)
    (hblock : ∀ g ∈ f :: block, g.nodes = nodes ∧ g.downNodes = [n] ∧ g.rebalanceRunning = false)
    (holder : ∀ g ∈ older.head?, n ∉ g.downNodes) :
    emitted threshold f (block ++ older) = [.failover n] := by
  obtain ⟨⟨hnodes, hdown, hreb⟩, hblock⟩ := forall_mem_cons.mp hblock
  have hne : block ≠ [] := by
    rintro rfl
    simp at hlen
  have hstand := standing_after hthreshold (fun g hg => ⟨(hblock g hg).1, (hblock g hg).2.1⟩) holder
    hne hlen.le
  obtain ⟨g, block, rfl⟩ := exists_cons_of_ne_nil hne
  have hnext : nextState (after α threshold (g :: block ++ older)) f n = ⟨n, 1, .failover,
        (nextState (after α threshold (g :: block ++ older)) f n).mailedDownWarning⟩ := by
    have hname := nextState_name (after α threshold (g :: block ++ older)) f n
    have hsame := sizeChanged_eq_false threshold (block ++ older)
      ((hblock g (.head _)).1.trans hnodes.symm)
    rw [hlen, standing, if_neg (by omega),
      show threshold + 1 - (threshold - 1) - 1 = 1 by omega] at hstand
    obtain ⟨hst, hc⟩ := Prod.mk.inj hstand
    rw [nextState, hdown, cons_append, hsame] at hname ⊢
    simp_all [incrementDownState]
  rw [emitted, chosen_actions (known_after ..), chosen, hdown, map_singleton, hnext, hreb, hnodes]
  simp [chooseActions, hsize, isRebalanceWarning]

omit [LinearOrder α] in
theorem chooseActions_cases (size : ℕ) (s : State α) (rebalance : Bool)
    (states : List (NodeState α)) :
    chooseActions size s rebalance states = mailDownWarnings states ∨
      (chooseActions size s rebalance states).1 = [] ∨
      ∃ m, (chooseActions size s rebalance states).1 = [.failover m] ∨
        (chooseActions size s rebalance states).1 = [.rebalancePreventedFailover m] ∨
        (chooseActions size s rebalance states).1 = [.mailTooSmall m] ∧
          s.mailedTooSmallCluster ≠ size := by
  unfold chooseActions
  split
  · dsimp only
    split_ifs <;> simp_all
  · simp
  · split_ifs <;> simp

omit [LinearOrder α] in
theorem mailDownWarnings_actions (states : List (NodeState α)) : (mailDownWarnings states).1 =
    (states.filter fun s => s.state = .nearlyDown ∧ s.mailedDownWarning = false).map
      fun s => Action.mailDownWarning s.name := by
  rw [mailDownWarnings, foldl_warnStep_actions, append_nil, reverse_reverse]

theorem actions_sublist (h : Known s) (f : Frame α) :
    (processFrame f.nodes f.downNodes s f.rebalanceRunning).1.Sublist (chosen s f).1 := by
  rw [chosen_actions h]
  split_ifs
  exacts [filter_sublist, List.Sublist.refl _]

theorem rebalance_not_repeated {m m' : α}
    (h : .rebalancePreventedFailover m ∈ emitted threshold f (g :: older)) :
    .rebalancePreventedFailover m' ∉ emitted threshold g older := by
  intro hg
  have hflag : (after α threshold (g :: older)).rebalancePreventedFailover =
      (chosen (after α threshold older) g).1.any isRebalanceWarning := by
    rw [after, processFrame, downStates_eq (known_after threshold older)]
  have hmem := (actions_sublist (known_after threshold older) g).subset hg
  rw [emitted, chosen_actions (known_after ..), hflag, if_pos (any_eq_true.mpr ⟨_, hmem, rfl⟩)] at h
  simpa [isRebalanceWarning] using (mem_filter.mp h).2

/-- A frame mails that the cluster is too small. -/
def MailsTooSmall (threshold : ℕ) (f : Frame α) (older : List (Frame α)) : Prop :=
  ∃ m, .mailTooSmall m ∈ emitted threshold f older

theorem mailedTooSmallCluster_of_emitted {threshold : ℕ} {f : Frame α} {older : List (Frame α)} {m : α}
    (h : emitted threshold f older = [.mailTooSmall m]) :
    (after α threshold (f :: older)).mailedTooSmallCluster = f.nodes.length := by
  unfold emitted processFrame at h
  unfold after processFrame
  dsimp only at h ⊢
  rw [h]

theorem emitted_mailTooSmall {m : α} (hm : .mailTooSmall m ∈ emitted threshold f older) :
    emitted threshold f older = [.mailTooSmall m] ∧
      (after α threshold older).mailedTooSmallCluster ≠ f.nodes.length := by
  have hchosen := (actions_sublist (known_after threshold older) f).subset hm
  rcases chooseActions_cases f.nodes.length (after α threshold older) f.rebalanceRunning
    (f.downNodes.map (nextState (after α threshold older) f)) with h | h | ⟨m', h | h | ⟨h, hsize⟩⟩
  · simp [chosen, h, mailDownWarnings_actions] at hchosen
  · simp [chosen, h] at hchosen
  · simp [chosen, h] at hchosen
  · simp [chosen, h] at hchosen
  · obtain rfl : m = m' := by simpa [chosen, h] using hchosen
    refine ⟨?_, hsize⟩
    rw [emitted, chosen_actions (known_after ..), chosen, h]
    split_ifs <;> rfl

theorem mailedTooSmallCluster_after (threshold : ℕ) (f : Frame α) (older : List (Frame α)) :
    MailsTooSmall threshold f older ∧
        (after α threshold (f :: older)).mailedTooSmallCluster = f.nodes.length ∧
        (after α threshold older).mailedTooSmallCluster ≠ f.nodes.length ∨
      ¬MailsTooSmall threshold f older ∧ (after α threshold (f :: older)).mailedTooSmallCluster =
          (after α threshold older).mailedTooSmallCluster := by
  by_cases h : MailsTooSmall threshold f older
  · obtain ⟨m, hm⟩ := h
    obtain ⟨hemitted, hsize⟩ := emitted_mailTooSmall hm
    exact .inl ⟨⟨m, hm⟩, mailedTooSmallCluster_of_emitted hemitted, hsize⟩
  · refine .inr ⟨h, ?_⟩
    rw [after, processFrame]
    dsimp only
    split
    next m hm =>
      have hemitted : emitted threshold f older = [.mailTooSmall m] := hm
      exact absurd ⟨m, hemitted ▸ mem_singleton_self _⟩ h
    · rfl

theorem mailTooSmall_once {mid : List (Frame α)} (hf : MailsTooSmall threshold f (mid ++ g :: older))
    (hg : MailsTooSmall threshold g older) (hsize : f.nodes.length = g.nodes.length) :
    ∃ newer h earlier, mid = newer ++ h :: earlier ∧
      MailsTooSmall threshold h (earlier ++ g :: older) ∧ h.nodes.length ≠ g.nodes.length := by
  by_contra hnone
  have hkept : ∀ newer earlier, mid = newer ++ earlier →
      (after α threshold (earlier ++ g :: older)).mailedTooSmallCluster = g.nodes.length := by
    intro newer earlier hmid
    induction earlier generalizing newer with
    | nil =>
      rcases mailedTooSmallCluster_after threshold g older with h | h
      exacts [h.2.1, absurd hg h.1]
    | cons h earlier ih =>
      have hprev := ih (newer ++ [h]) (by rw [hmid, append_cons])
      rcases mailedTooSmallCluster_after threshold h (earlier ++ g :: older) with hm | hm
      · exact absurd ⟨newer, h, earlier, hmid, hm.1, fun heq => hm.2.2 (hprev.trans heq.symm)⟩ hnone
      · exact hm.2.trans hprev
  rcases mailedTooSmallCluster_after threshold f (mid ++ g :: older) with hm | hm
  exacts [hm.2.2 ((hkept [] mid rfl).trans hsize.symm), hm.1 hf]

/-- The actions of the frames `frames`, newest first, after the frames `older`. -/
def emittedOver (threshold : ℕ) (older : List (Frame α)) : List (Frame α) → List (Action α)
  | [] => []
  | f :: frames => emitted threshold f (frames ++ older) ++ emittedOver threshold older frames

theorem warning_of_frame (hs : Known s) (hn : n ∈ f.downNodes) :
    let actions := (processFrame f.nodes f.downNodes s f.rebalanceRunning).1
    actions.count (.mailDownWarning n) = 0 ∨ actions.count (.mailDownWarning n) ≤ 1 ∧
      (nextState s f n).mailedDownWarning = false ∧
      (stateOf (statesAfter s f) n).mailedDownWarning = true := by
  intro actions
  by_cases hmem : .mailDownWarning n ∈ (chosen s f).1
  swap
  · exact .inl (count_eq_zero.mpr fun h => hmem ((actions_sublist hs f).subset h))
  right
  rcases chooseActions_cases f.nodes.length s f.rebalanceRunning (f.downNodes.map (nextState s f))
    with h | h | ⟨m', h | h | ⟨h, -⟩⟩
  · rw [chosen, h, mailDownWarnings_actions] at hmem
    obtain ⟨ns, hns, hname⟩ := mem_map.mp hmem
    obtain ⟨hns, hmail⟩ := mem_filter.mp hns
    obtain ⟨m, hm, rfl⟩ := mem_map.mp hns
    obtain rfl : m = n := by simpa [nextState_name] using hname
    simp only [decide_eq_true_eq] at hmail
    have hstates : (chosen s f).2 = (f.downNodes.map (nextState s f)).map markMailed := by
      rw [chosen, h, mailDownWarnings, foldl_warnStep_states, append_nil, reverse_reverse]
    have hflag := stateOf_chosen hs (hstates ▸ mem_map_of_mem (f := markMailed) hns)
    rw [show (markMailed (nextState s f m)).name = m from nextState_name s f m] at hflag
    refine ⟨((actions_sublist hs f).count_le _).trans (nodup_iff_count_le_one.mp ?_ _), hmail.2, ?_⟩
    · rw [chosen, h, mailDownWarnings_actions]
      have hnames : (f.downNodes.map (nextState s f)).map
          (fun s => Action.mailDownWarning s.name) = f.downNodes.map .mailDownWarning := by
        simp [nextState_name]
      refine List.Nodup.sublist (filter_sublist.map _) (hnames ▸ ?_)
      exact List.Nodup.map (fun _ _ h => Action.mailDownWarning.inj h)
        ((f.sorted.imp fun h => h.ne).sublist f.downOfNodes)
    · rw [hflag, markMailed]
      simp [hmail.1]
  all_goals simp [chosen, h] at hmem

omit [LinearOrder α] in
theorem incrementDownState_mailed (ns : NodeState α) (downNodes : List α) (s : State α)
    (changed : Bool) :
    (incrementDownState ns downNodes s changed).mailedDownWarning = ns.mailedDownWarning := by
  unfold incrementDownState
  split <;> try rfl
  · split <;> rfl
  · split
    · rfl
    · split <;> rfl

theorem mailDownWarning_once {frames : List (Frame α)} (hdown : ∀ g ∈ frames, n ∈ g.downNodes) :
    (emittedOver threshold older frames).count (.mailDownWarning n) ≤ 1 ∧
      (0 < (emittedOver threshold older frames).count (.mailDownWarning n) →
        (stateOf (after α threshold (frames ++ older)).nodesStates n).mailedDownWarning = true) := by
  induction frames with
  | nil => simp [emittedOver]
  | cons f frames ih =>
    obtain ⟨hf, hdown⟩ := forall_mem_cons.mp hdown
    obtain ⟨hle, hflag⟩ := ih hdown
    have hmailed : (nextState (after α threshold (frames ++ older)) f n).mailedDownWarning =
        (stateOf (after α threshold (frames ++ older)).nodesStates n).mailedDownWarning :=
      incrementDownState_mailed ..
    rw [emittedOver, count_append, cons_append, after]
    rcases warning_of_frame (known_after threshold (frames ++ older)) hf with h | ⟨h, hno, hyes⟩
    · rw [emitted, h, Nat.zero_add]
      refine ⟨hle, fun hpos => ?_⟩
      have hprev := hmailed.trans (hflag hpos)
      rcases stateOf_down (known_after threshold (frames ++ older)) hf with heq | heq
      · rw [heq, hprev]
      · rw [heq, markMailed, hprev]
        rfl
    · have hzero : (emittedOver threshold older frames).count (.mailDownWarning n) = 0 := by
        by_contra hpos
        rw [hmailed, hflag (Nat.pos_of_ne_zero hpos)] at hno
        cases hno
      rw [hzero]
      exact ⟨h, fun _ => hyes⟩

/-- A node that is down alone in `threshold + 2` frames of the same nodes is failed over in the last
of them and not before; while it is down it is mailed about once; a mail about a small cluster is
all that a frame emits, and no two for one size follow each other; and a prevented failover is not
reported twice in a row. -/
theorem failover_once_in_time (threshold : ℕ) (hthreshold : 2 ≤ threshold)
    (older : List (Frame α)) (n : α) :
    (∀ (block : List (Frame α)) (nodes : List α), block.length = threshold + 2 → 2 < nodes.length →
      (∀ g ∈ block, g.nodes = nodes ∧ g.downNodes = [n] ∧ g.rebalanceRunning = false) →
      (∀ g ∈ older.head?, n ∉ g.downNodes) →
      ∀ newer f earlier, block = newer ++ f :: earlier →
        (emitted threshold f (earlier ++ older) = [.failover n] ↔ newer = [])) ∧
    (∀ frames : List (Frame α), (∀ g ∈ frames, n ∈ g.downNodes) →
      (emittedOver threshold older frames).count (.mailDownWarning n) ≤ 1) ∧
    (∀ (f : Frame α) (m : α), .mailTooSmall m ∈ emitted threshold f older →
      emitted threshold f older = [.mailTooSmall m]) ∧
    (∀ (f g : Frame α) (mid : List (Frame α)), MailsTooSmall threshold f (mid ++ g :: older) →
      MailsTooSmall threshold g older → f.nodes.length = g.nodes.length →
      ∃ newer h earlier, mid = newer ++ h :: earlier ∧
        MailsTooSmall threshold h (earlier ++ g :: older) ∧ h.nodes.length ≠ g.nodes.length) ∧
    ∀ (f g : Frame α) (m m' : α), .rebalancePreventedFailover m ∈ emitted threshold f (g :: older) →
      .rebalancePreventedFailover m' ∉ emitted threshold g older := by
  refine ⟨?_, fun frames hdown => (mailDownWarning_once hdown).1,
    fun f m hm => (emitted_mailTooSmall hm).1,
    fun f g mid hf hg hsize => mailTooSmall_once hf hg hsize,
    fun f g m m' h => rebalance_not_repeated h⟩
  intro block nodes hlen hsize hblock holder newer f earlier hsplit
  constructor
  · intro h
    by_contra hnewer
    have hlt : earlier.length + 1 < threshold + 2 := by
      rw [← hlen, hsplit, length_append, length_cons]
      have := length_pos_of_ne_nil hnewer
      omega
    obtain ⟨-, hcount, hall⟩ := downFor_of_failover hthreshold (h ▸ mem_singleton_self _)
    cases older with
    | nil =>
      rw [append_nil, length_cons] at hcount
      omega
    | cons g older =>
      have hg : ((f :: (earlier ++ g :: older)).take (threshold + 2))[earlier.length + 1]? =
          some g := by
        rw [List.getElem?_take_of_lt hlt]
        simp
      exact holder g rfl (hall g (mem_of_getElem? hg)).1
  · rintro rfl
    rw [nil_append] at hsplit
    subst hsplit
    exact failover_in_time hthreshold (by simpa using hlen) hsize hblock holder

def busyDown : Frame ℕ := { oneDown with rebalanceRunning := true }

def bothDown : Frame ℕ := { oneDown with downNodes := [0, 1], downOfNodes := by decide }

def pairDown : Frame ℕ := ⟨[0, 1], [1], false, by decide, by decide⟩

def lastDown : Frame ℕ := ⟨[1], [1], false, by decide, by decide⟩

/-- Node 1 goes down: of three nodes, with a rebalance, with another node, and in a cluster that
shrinks and grows again. -/
theorem failover_once_in_time_oneDown :
    (emitted 2 oneDown [oneDown, oneDown, oneDown] = [.failover 1] ∧
      emitted 2 oneDown [oneDown, oneDown] ≠ [.failover 1]) ∧
    (emittedOver 2 [] (List.replicate 6 bothDown)).count (.mailDownWarning 1) = 1 ∧
    emitted 2 pairDown (List.replicate 3 pairDown) = [.mailTooSmall 1] ∧
    (∃ newer h earlier,
      List.replicate 3 pairDown ++ List.replicate 4 lastDown = newer ++ h :: earlier ∧
      MailsTooSmall 2 h (earlier ++ List.replicate 4 pairDown) ∧ h.nodes.length ≠ 2) ∧
    .rebalancePreventedFailover 1 ∉ emitted 2 busyDown (busyDown :: List.replicate 3 oneDown) := by
  have hmail : .mailTooSmall 1 ∈ emitted 2 pairDown (List.replicate 3 pairDown) ∧
      .mailTooSmall 1 ∈ emitted 2 pairDown
        (List.replicate 3 pairDown ++ List.replicate 4 lastDown ++ List.replicate 4 pairDown) := by
    decide +kernel
  have hbusy : .rebalancePreventedFailover 1 ∈ emitted 2 busyDown (List.replicate 3 oneDown) := by
    decide +kernel
  have hwarn : 1 ≤ (emittedOver 2 [] (List.replicate 6 bothDown)).count (.mailDownWarning 1) := by
    decide +kernel
  have h := (failover_once_in_time 2 le_rfl ([] : List (Frame ℕ)) 1).1
    [oneDown, oneDown, oneDown, oneDown] [0, 1, 2] rfl (by decide) (by simp [oneDown]) (by simp)
  have honce := (failover_once_in_time 2 le_rfl ([] : List (Frame ℕ)) 1).2.1
    (List.replicate 6 bothDown) (forall_mem_replicate.mpr (.inr (by decide)))
  obtain ⟨-, -, hone, hsame, -⟩ :=
    failover_once_in_time 2 le_rfl (List.replicate 3 pairDown) 1
  refine ⟨⟨(h [] oneDown _ rfl).mpr rfl, fun heq => ?_⟩,
    Nat.le_antisymm honce hwarn, hone _ _ hmail.1, ?_, fun hagain => ?_⟩
  · simpa using (h [oneDown] oneDown _ rfl).mp heq
  · exact hsame pairDown pairDown _ ⟨1, hmail.2⟩ ⟨1, hmail.1⟩ rfl
  · exact (failover_once_in_time 2 le_rfl (List.replicate 3 oneDown) 1).2.2.2.2
      busyDown busyDown 1 1 hagain hbusy

end Appstack.NsServer
