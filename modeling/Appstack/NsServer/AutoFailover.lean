import Mathlib

-- `auto_failover_logic.erl`. Node names are atoms; here they are any linearly ordered type.

namespace Appstack.NsServer

open Function List

inductive NodeStatus
  | removed | new | halfDown | nearlyDown | failover | up
  deriving DecidableEq, Repr

structure NodeState (α : Type) where
  name : α
  downCounter : ℕ := 0
  state : NodeStatus
  mailedDownWarning : Bool := false
  deriving DecidableEq, Repr

structure State (α : Type) where
  nodesStates : List (NodeState α)
  mailedTooSmallCluster : ℕ
  downThreshold : ℕ
  rebalancePreventedFailover : Bool := false
  deriving DecidableEq, Repr

inductive Action (α : Type)
  | failover (node : α)
  | mailTooSmall (node : α)
  | rebalancePreventedFailover (node : α)
  | mailDownWarning (node : α)
  deriving DecidableEq, Repr

variable {α : Type} [LinearOrder α]

def initState (α : Type) (downThreshold : ℕ) : State α :=
  { nodesStates := [], mailedTooSmallCluster := 0, downThreshold := downThreshold - 1 }

/-- Walks the sorted names and the sorted states together. A name without a state is passed to
`fn` as a new node, a state without a name as a removed one. -/
def foldMatchingNodes {β : Type} (fn : NodeState α → β → β) :
    List α → List (NodeState α) → β → β
  | [], states, acc => states.foldl (fun a s => fn { s with state := .removed } a) acc
  | node :: rest, [], acc =>
    foldMatchingNodes fn rest [] (fn { name := node, state := .new } acc)
  | node :: rest, s :: states, acc =>
    if node < s.name then
      foldMatchingNodes fn rest (s :: states) (fn { name := node, state := .new } acc)
    else if node = s.name then
      foldMatchingNodes fn rest states (fn s acc)
    else
      foldMatchingNodes fn (node :: rest) states (fn { s with state := .removed } acc)
termination_by nodes states => nodes.length + states.length

def incrementDownState (s : NodeState α) (downNodes : List α) (bigState : State α)
    (sizeChanged : Bool) : NodeState α :=
  match s.state, sizeChanged with
  | .new, _ => { s with state := .halfDown }
  | .up, _ => { s with state := .halfDown }
  | _, true => { s with state := .halfDown, downCounter := 0 }
  | .halfDown, false =>
    if bigState.downThreshold ≤ s.downCounter + 1 then
      { s with downCounter := 0, state := .nearlyDown }
    else { s with downCounter := s.downCounter + 1 }
  | .nearlyDown, false =>
    match downNodes with
    | _ :: _ :: _ => { s with downCounter := 0 }
    -- the caller walks `downNodes`, so that one name is left here
    | _ =>
      if 2 ≤ s.downCounter + 1 then { s with state := .failover }
      else { s with downCounter := s.downCounter + 1 }
  | .failover, false => s
  -- removed states are dropped by the caller
  | .removed, false => s

def fromList (l : List α) : List α := l.dedup.insertionSort (· ≤ ·)

def subtract (l m : List α) : List α := l.filter (· ∉ m)

/-- `lists:umerge` of node states. Records compare by their name first, and the names of the two
lists are apart. -/
def umerge : List (NodeState α) → List (NodeState α) → List (NodeState α)
  | [], ys => ys
  | x :: xs, ys =>
    ys.takeWhile (fun y => y.name < x.name) ++
      x :: umerge xs (ys.dropWhile (fun y => y.name < x.name))

/-- The step of both folds of `process_frame`: removed states are left out. -/
def collect (g : NodeState α → NodeState α) (s : NodeState α) (acc : List (NodeState α)) :
    List (NodeState α) :=
  if s.state = .removed then acc else g s :: acc

def markUp (s : NodeState α) : NodeState α :=
  { s with state := .up, downCounter := 0, mailedDownWarning := false }

def upStates (nodes downNodes : List α) (s : State α) : List (NodeState α) :=
  (foldMatchingNodes (collect markUp) (subtract (fromList nodes) (fromList downNodes))
    s.nodesStates []).reverse

def sizeChanged (nodes : List α) (s : State α) : Bool :=
  decide (nodes.length ≠ s.nodesStates.length)

def downStates (nodes downNodes : List α) (s : State α) : List (NodeState α) :=
  (foldMatchingNodes
    (collect fun ns => incrementDownState ns downNodes s (sizeChanged nodes s))
    downNodes s.nodesStates []).reverse

def warnStep (acc : List (Action α) × List (NodeState α)) (s : NodeState α) :
    List (Action α) × List (NodeState α) :=
  if s.state = .nearlyDown ∧ s.mailedDownWarning = false then
    (.mailDownWarning s.name :: acc.1, { s with mailedDownWarning := true } :: acc.2)
  else (acc.1, s :: acc.2)

def mailDownWarnings (states : List (NodeState α)) : List (Action α) × List (NodeState α) :=
  let r := states.foldl warnStep ([], [])
  (r.1.reverse, r.2.reverse)

/-- The actions of a frame before the rebalance warning is filtered, and the down states after
it. -/
def chooseActions (clusterSize : ℕ) (s : State α) (rebalanceRunning : Bool) :
    List (NodeState α) → List (Action α) × List (NodeState α)
  | [⟨node, c, .failover, m⟩] =>
    let states : List (NodeState α) := [⟨node, c, .failover, m⟩]
    if 2 < clusterSize then
      if rebalanceRunning then ([.rebalancePreventedFailover node], states)
      else ([.failover node], states)
    else if s.mailedTooSmallCluster = clusterSize then ([], states)
    else ([.mailTooSmall node], states)
  | [⟨node, c, .nearlyDown, m⟩] => ([], [⟨node, c, .nearlyDown, m⟩])
  | states =>
    if states.any (fun ns => ns.state = .nearlyDown) then mailDownWarnings states
    else ([], states)

def isRebalanceWarning : Action α → Bool
  | .rebalancePreventedFailover _ => true
  | _ => false

def processFrame (nodes downNodes : List α) (s : State α) (rebalanceRunning : Bool) :
    List (Action α) × State α :=
  let chosen := chooseActions nodes.length s rebalanceRunning (downStates nodes downNodes s)
  let actions :=
    if s.rebalancePreventedFailover then chosen.1.filter (fun a => !isRebalanceWarning a)
    else chosen.1
  (actions, { s with
      rebalancePreventedFailover := chosen.1.any isRebalanceWarning
      nodesStates := umerge (upStates nodes downNodes s) chosen.2
      mailedTooSmallCluster :=
        match actions with
        | [.mailTooSmall _] => nodes.length
        | _ => s.mailedTooSmallCluster })

theorem umerge_perm (xs ys : List (NodeState α)) : (umerge xs ys).Perm (xs ++ ys) := by
  induction xs generalizing ys with
  | nil => exact List.Perm.refl _
  | cons x xs ih =>
    rw [umerge]
    set before := ys.takeWhile (fun y => decide (y.name < x.name)) with hbefore
    set rest := ys.dropWhile (fun y => decide (y.name < x.name)) with hrest
    have hsplit : before ++ rest = ys := takeWhile_append_dropWhile
    have hswap : (before ++ (xs ++ rest)).Perm (xs ++ (before ++ rest)) := by
      rw [← append_assoc, ← append_assoc]
      exact perm_append_comm.append_right _
    apply perm_middle.trans
    rw [cons_append]
    apply List.Perm.cons
    rw [← hsplit]
    exact ((ih rest).append_left before).trans hswap

variable {states : List (NodeState α)} {n : α}

def stateOf (states : List (NodeState α)) (n : α) : NodeState α :=
  (states.find? (·.name = n)).getD { name := n, state := .new }

theorem stateOf_cons (ns : NodeState α) :
    stateOf (ns :: states) n = if ns.name = n then ns else stateOf states n := by
  by_cases h : ns.name = n <;> simp [stateOf, h]

theorem stateOf_of_not_mem (h : n ∉ states.map NodeState.name) :
    stateOf states n = { name := n, state := .new } := by
  rw [stateOf, List.find?_eq_none.mpr, Option.getD_none]
  simpa using h

theorem stateOf_of_mem (h : (states.map NodeState.name).Nodup) {ns : NodeState α}
    (hns : ns ∈ states) : stateOf states ns.name = ns := by
  induction states with
  | nil => cases hns
  | cons t states ih =>
    obtain ⟨ht, h⟩ := nodup_cons.mp h
    rw [stateOf_cons]
    obtain rfl | hns := mem_cons.mp hns
    · exact if_pos rfl
    · have hne : t.name ≠ ns.name := fun heq => ht (heq ▸ mem_map_of_mem hns)
      rw [if_neg hne, ih h hns]

theorem foldMatchingNodes_sorted (g : NodeState α → NodeState α) (nodes : List α)
    (states acc : List (NodeState α)) (hnodes : nodes.Pairwise (· < ·))
    (hsorted : (states.map NodeState.name).Pairwise (· < ·))
    (hknown : ∀ ns ∈ states, ns.state ≠ .removed) :
    foldMatchingNodes (collect g) nodes states acc =
      (nodes.map fun n => g (stateOf states n)).reverse ++ acc := by
  fun_induction foldMatchingNodes (collect g) nodes states acc with
  | case1 states acc =>
    clear hsorted hknown
    induction states with
    | nil => rfl
    | cons s states ih => exact ih
  | case2 node rest acc ih =>
    rw [ih (pairwise_cons.mp hnodes).2 hsorted hknown]
    simp [collect, stateOf]
  | case3 node rest s states acc hlt ih =>
    obtain ⟨hs, hsorted'⟩ := pairwise_cons.mp hsorted
    have hnew : node ∉ (s :: states).map NodeState.name := fun hmem => by
      obtain rfl | hmem := mem_cons.mp hmem
      · exact hlt.false
      · exact (hlt.trans (hs _ hmem)).false
    rw [ih (pairwise_cons.mp hnodes).2 hsorted hknown, map_cons, stateOf_of_not_mem hnew]
    simp [collect]
  | case4 rest s states acc hlt ih =>
    obtain ⟨hs, hsorted'⟩ := pairwise_cons.mp hsorted
    obtain ⟨hrest, hnodes'⟩ := pairwise_cons.mp hnodes
    obtain ⟨hk, hknown'⟩ := forall_mem_cons.mp hknown
    have hskip : ∀ m ∈ rest, g (stateOf (s :: states) m) = g (stateOf states m) := fun m hm => by
      rw [stateOf_cons, if_neg (hrest m hm).ne]
    rw [ih hnodes' hsorted' hknown', map_cons, map_congr_left hskip, stateOf_cons]
    simp [collect, hk]
  | case5 node rest s states acc hlt hne ih =>
    obtain ⟨hs, hsorted'⟩ := pairwise_cons.mp hsorted
    have hgt : s.name < node := lt_of_le_of_ne (not_lt.mp hlt) (Ne.symm hne)
    have hskip : ∀ m ∈ node :: rest, g (stateOf (s :: states) m) = g (stateOf states m) := by
      intro m hm
      have hle : node ≤ m := by
        obtain rfl | hm := mem_cons.mp hm
        exacts [le_rfl, ((pairwise_cons.mp hnodes).1 m hm).le]
      rw [stateOf_cons, if_neg (hgt.trans_le hle).ne]
    rw [ih hnodes hsorted' (forall_mem_cons.mp hknown).2, map_congr_left hskip]
    simp [collect]

theorem umerge_sorted {xs ys : List (NodeState α)} (hxs : xs.Pairwise (·.name ≤ ·.name))
    (hys : ys.Pairwise (·.name ≤ ·.name)) : (umerge xs ys).Pairwise (·.name ≤ ·.name) := by
  induction xs generalizing ys with
  | nil => exact hys
  | cons x xs ih =>
    obtain ⟨hx, hxs⟩ := pairwise_cons.mp hxs
    have hdrop : ∀ y ∈ ys.dropWhile (fun y => y.name < x.name), x.name ≤ y.name := by
      clear ih
      induction ys with
      | nil => simp
      | cons y ys ihy =>
        obtain ⟨hy, hys⟩ := pairwise_cons.mp hys
        by_cases hlt : y.name < x.name
        · rw [dropWhile_cons_of_pos (by simpa using hlt)]
          exact ihy hys
        · rw [dropWhile_cons_of_neg (by simpa using hlt)]
          exact forall_mem_cons.mpr ⟨not_lt.mp hlt, fun z hz => (not_lt.mp hlt).trans (hy z hz)⟩
    have hrest : ∀ z ∈ umerge xs (ys.dropWhile fun y => y.name < x.name), x.name ≤ z.name := by
      intro z hz
      obtain hz | hz := mem_append.mp ((umerge_perm _ _).mem_iff.mp hz)
      exacts [hx z hz, hdrop z hz]
    refine pairwise_append.mpr ⟨hys.sublist (takeWhile_sublist _),
      pairwise_cons.mpr ⟨hrest, ih hxs (hys.sublist (dropWhile_sublist _))⟩, ?_⟩
    intro a ha b hb
    have ha : a.name < x.name := by
      simpa using all_eq_true.mp all_takeWhile a ha
    obtain rfl | hb := mem_cons.mp hb
    exacts [ha.le, ha.le.trans (hrest b hb)]

/-- One call of `process_frame`: the nodes are sorted and distinct, the down nodes are some of
them in the same order. -/
structure Frame (α : Type) [LinearOrder α] where
  nodes : List α
  downNodes : List α
  rebalanceRunning : Bool
  sorted : nodes.Pairwise (· < ·)
  downOfNodes : downNodes.Sublist nodes

/-- The state after the frames of a history, given newest first. -/
def after (α : Type) [LinearOrder α] (threshold : ℕ) : List (Frame α) → State α
  | [] => initState α threshold
  | f :: older => (processFrame f.nodes f.downNodes (after α threshold older) f.rebalanceRunning).2

/-- The actions that frame `f` emits after the frames `older`. -/
def emitted (threshold : ℕ) (f : Frame α) (older : List (Frame α)) : List (Action α) :=
  (processFrame f.nodes f.downNodes (after α threshold older) f.rebalanceRunning).1

theorem fromList_of_sorted {l : List α} (h : l.Pairwise (· < ·)) : fromList l = l := by
  have hnodup : l.Nodup := h.imp fun hab => ne_of_lt hab
  rw [fromList, hnodup.dedup]
  exact List.Pairwise.insertionSort_eq (h.imp fun hab => le_of_lt hab)

theorem filter_perm (f : Frame α) :
    (f.nodes.filter (· ∉ f.downNodes) ++ f.downNodes).Perm f.nodes := by
  have hnodup : f.nodes.Nodup := f.sorted.imp fun hab => ne_of_lt hab
  have hdown : f.downNodes.Nodup := hnodup.sublist f.downOfNodes
  refine (perm_ext_iff_of_nodup ?_ hnodup).mpr fun a => ?_
  · refine nodup_append.mpr ⟨hnodup.filter _, hdown, ?_⟩
    rintro a ha b hb rfl
    exact absurd hb (by simpa using (mem_filter.mp ha).2)
  · have := fun h : a ∈ f.downNodes => f.downOfNodes.subset h
    simp
    tauto

/-- In each of the last `k` frames `n` was down and the cluster had `size` nodes. -/
def DownFor (frames : List (Frame α)) (n : α) (size k : ℕ) : Prop :=
  k ≤ frames.length ∧ ∀ g ∈ frames.take k, n ∈ g.downNodes ∧ g.nodes.length = size

theorem DownFor.zero (frames : List (Frame α)) (n : α) (size : ℕ) : DownFor frames n size 0 :=
  ⟨Nat.zero_le _, by simp⟩

variable {frames older : List (Frame α)}

theorem DownFor.mono {n : α} {size k k' : ℕ}
    (h : DownFor frames n size k) (hk : k' ≤ k) : DownFor frames n size k' := by
  refine ⟨hk.trans h.1, ?_⟩
  intro g hg
  exact h.2 g (take_subset_take_left _ hk hg)

theorem DownFor.cons {f : Frame α} {n : α} {k : ℕ}
    (h : DownFor frames n f.nodes.length k) (hn : n ∈ f.downNodes) :
    DownFor (f :: frames) n f.nodes.length (k + 1) := by
  refine ⟨Nat.succ_le_succ h.1, ?_⟩
  intro g hg
  rw [take_succ_cons] at hg
  rcases mem_cons.mp hg with rfl | hg
  · exact ⟨hn, rfl⟩
  · exact h.2 g hg

/-- The number of frames a node must have been down for to be in state `s`. -/
def downFrames (downThreshold : ℕ) (s : NodeState α) : ℕ :=
  match s.state with
  | .halfDown => s.downCounter + 1
  | .nearlyDown => downThreshold + 1 + s.downCounter
  | .failover => downThreshold + 3
  | _ => 0

/-- States from which a node starts to count have no count yet. -/
def Fresh (s : NodeState α) : Prop := s.state = .new ∨ s.state = .up → s.downCounter = 0

section
omit [LinearOrder α]

section
variable (s : NodeState α) (downNodes : List α) (big : State α)

theorem downFrames_of_changed
    (hs : Fresh s) : downFrames big.downThreshold (incrementDownState s downNodes big true) ≤ 1 := by
  obtain ⟨name, c, state, m⟩ := s
  cases state <;> simp_all [Fresh, incrementDownState, downFrames]

theorem downFrames_of_unchanged (hs : Fresh s) :
    downFrames big.downThreshold (incrementDownState s downNodes big false) ≤
      downFrames big.downThreshold s + 1 := by
  obtain ⟨name, c, state, m⟩ := s
  cases state with
  | removed => simp [incrementDownState, downFrames]
  | new => simp_all [Fresh, incrementDownState, downFrames]
  | up => simp_all [Fresh, incrementDownState, downFrames]
  | failover => simp [incrementDownState, downFrames]
  | halfDown =>
    simp only [incrementDownState, downFrames]
    by_cases hc : big.downThreshold ≤ c + 1
    · rw [if_pos hc]
      dsimp only
      omega
    · rw [if_neg hc]
  | nearlyDown =>
    have hone : downFrames big.downThreshold
        (if 2 ≤ c + 1 then (⟨name, c, .failover, m⟩ : NodeState α)
          else ⟨name, c + 1, .nearlyDown, m⟩) ≤ big.downThreshold + 1 + c + 1 := by
      by_cases hc : 2 ≤ c + 1
      · rw [if_pos hc]
        simp only [downFrames]
        omega
      · rw [if_neg hc]
        simp only [downFrames]
        omega
    -- another node that is down restarts the count, else it goes on
    match downNodes with
    | [] => exact hone
    | [_] => exact hone
    | _ :: _ :: _ =>
      simp only [incrementDownState, downFrames]
      omega

theorem incrementDownState_name
    (changed : Bool) : (incrementDownState s downNodes big changed).name = s.name := by
  unfold incrementDownState
  split <;> try rfl
  · split <;> rfl
  · split
    · rfl
    · split <;> rfl

theorem incrementDownState_state (changed : Bool) (hs : s.state ≠ .removed) :
    (incrementDownState s downNodes big changed).state = .halfDown ∨
      (incrementDownState s downNodes big changed).state = .nearlyDown ∨
      (incrementDownState s downNodes big changed).state = .failover := by
  obtain ⟨name, c, state, m⟩ := s
  unfold incrementDownState
  cases state <;> cases changed <;> simp_all
  · split <;> simp
  · split
    · simp
    · split <;> simp

end

end

def markMailed (s : NodeState α) : NodeState α :=
  { s with mailedDownWarning := s.mailedDownWarning || decide (s.state = .nearlyDown) }

section
omit [LinearOrder α]

theorem warnStep_states (acc : List (Action α) × List (NodeState α)) (s : NodeState α) :
    (warnStep acc s).2 = markMailed s :: acc.2 := by
  obtain ⟨name, c, state, m⟩ := s
  cases m <;> by_cases hs : state = .nearlyDown <;> simp [warnStep, markMailed, hs]

theorem foldl_warnStep_states (states : List (NodeState α))
    (acc : List (Action α) × List (NodeState α)) :
    (states.foldl warnStep acc).2 = (states.map markMailed).reverse ++ acc.2 := by
  induction states generalizing acc with
  | nil => rfl
  | cons s states ih =>
    rw [foldl_cons, ih, warnStep_states]
    simp

theorem foldl_warnStep_actions (states : List (NodeState α))
    (acc : List (Action α) × List (NodeState α)) :
    (states.foldl warnStep acc).1 =
      ((states.filter fun s => s.state = .nearlyDown ∧ s.mailedDownWarning = false).map
        fun s => Action.mailDownWarning s.name).reverse ++ acc.1 := by
  induction states generalizing acc with
  | nil => rfl
  | cons s states ih =>
    rw [foldl_cons, ih, warnStep, filter_cons]
    by_cases hs : s.state = .nearlyDown ∧ s.mailedDownWarning = false <;> simp [hs]

theorem chooseActions_states (size : ℕ) (s : State α) (rebalance : Bool)
    (states : List (NodeState α)) :
    (chooseActions size s rebalance states).2 = states ∨
      (chooseActions size s rebalance states).2 = states.map markMailed := by
  unfold chooseActions
  split
  · left
    dsimp only
    split_ifs <;> rfl
  · exact .inl rfl
  · split_ifs
    · right
      rw [mailDownWarnings]
      dsimp only
      rw [foldl_warnStep_states, append_nil, reverse_reverse]
    · exact .inl rfl

theorem chooseActions_failover {size : ℕ} {s : State α} {rebalance : Bool}
    {states : List (NodeState α)} {n : α}
    (h : .failover n ∈ (chooseActions size s rebalance states).1) :
    (∃ c m, states = [⟨n, c, .failover, m⟩]) ∧ 2 < size ∧ rebalance = false ∧
      (chooseActions size s rebalance states).1 = [.failover n] := by
  unfold chooseActions at h ⊢
  split at h
  case h_1 node c m =>
    dsimp only at h ⊢
    by_cases hsize : 2 < size
    · rw [if_pos hsize] at h ⊢
      cases rebalance with
      | true => simp at h
      | false =>
        obtain rfl : n = node := by simpa using h
        exact ⟨⟨c, m, rfl⟩, hsize, rfl, rfl⟩
    · rw [if_neg hsize] at h
      split_ifs at h <;> simp at h
  case h_2 => simp at h
  case h_3 =>
    -- the warnings to mail hold no failover
    split_ifs at h
    · simp [mailDownWarnings, foldl_warnStep_actions] at h
    · simp at h

end

theorem processFrame_failover {nodes downNodes : List α} {s : State α} {rebalance : Bool} {n : α}
    (h : .failover n ∈ (processFrame nodes downNodes s rebalance).1) :
    (∃ c m, downStates nodes downNodes s = [⟨n, c, .failover, m⟩]) ∧ 2 < nodes.length ∧
      rebalance = false ∧ (processFrame nodes downNodes s rebalance).1 = [.failover n] := by
  have hsub : .failover n ∈
      (chooseActions nodes.length s rebalance (downStates nodes downNodes s)).1 := by
    rw [processFrame] at h
    dsimp only at h
    split_ifs at h
    · exact (mem_filter.mp h).1
    · exact h
  obtain ⟨hstates, hsize, hreb, honly⟩ := chooseActions_failover hsub
  refine ⟨hstates, hsize, hreb, ?_⟩
  rw [processFrame]
  dsimp only
  rw [honly]
  split_ifs <;> rfl

/-- The states have sorted names, and none of them is that of a removed node. -/
structure Known (s : State α) : Prop where
  sorted : (s.nodesStates.map NodeState.name).Pairwise (· < ·)
  known : ∀ ns ∈ s.nodesStates, ns.state ≠ .removed

/-- The state that a frame gives to a node that is down. -/
def nextState (s : State α) (f : Frame α) (n : α) : NodeState α :=
  incrementDownState (stateOf s.nodesStates n) f.downNodes s (sizeChanged f.nodes s)

section
variable {s : State α} {f : Frame α} {n : α}

theorem downStates_eq (h : Known s) (f : Frame α) :
    downStates f.nodes f.downNodes s = f.downNodes.map (nextState s f) := by
  rw [downStates, foldMatchingNodes_sorted _ _ _ _ (f.sorted.sublist f.downOfNodes) h.sorted h.known,
    append_nil, reverse_reverse]
  rfl

theorem upStates_eq (h : Known s) (f : Frame α) : upStates f.nodes f.downNodes s =
    (f.nodes.filter (· ∉ f.downNodes)).map fun n => markUp (stateOf s.nodesStates n) := by
  rw [upStates, fromList_of_sorted f.sorted, fromList_of_sorted (f.sorted.sublist f.downOfNodes),
    subtract, foldMatchingNodes_sorted _ _ _ _ (f.sorted.filter _) h.sorted h.known, append_nil,
    reverse_reverse]

theorem stateOf_name (states : List (NodeState α)) (n : α) : (stateOf states n).name = n := by
  rw [stateOf]
  cases h : states.find? (·.name = n) with
  | none => rfl
  | some ns => simpa using List.find?_some h

theorem nextState_name (s : State α) (f : Frame α) (n : α) : (nextState s f n).name = n := by
  rw [nextState, incrementDownState_name, stateOf_name]

theorem Known.nextState_state (h : Known s) (f : Frame α) (n : α) :
    (nextState s f n).state = .halfDown ∨ (nextState s f n).state = .nearlyDown ∨
      (nextState s f n).state = .failover := by
  refine incrementDownState_state _ _ _ _ ?_
  rw [stateOf]
  cases hfind : s.nodesStates.find? (·.name = n) with
  | none => simp
  | some ns => exact h.known ns (mem_of_find?_eq_some hfind)

abbrev chosen (s : State α) (f : Frame α) : List (Action α) × List (NodeState α) :=
  chooseActions f.nodes.length s f.rebalanceRunning (f.downNodes.map (nextState s f))

theorem chosen_actions (h : Known s) (f : Frame α) :
    (processFrame f.nodes f.downNodes s f.rebalanceRunning).1 =
      if s.rebalancePreventedFailover then (chosen s f).1.filter (fun a => !isRebalanceWarning a)
      else (chosen s f).1 := by
  rw [processFrame, downStates_eq h]

abbrev statesAfter (s : State α) (f : Frame α) : List (NodeState α) :=
  (processFrame f.nodes f.downNodes s f.rebalanceRunning).2.nodesStates

theorem statesAfter_perm (h : Known s) (f : Frame α) : (statesAfter s f).Perm
    (((f.nodes.filter (· ∉ f.downNodes)).map fun n => markUp (stateOf s.nodesStates n)) ++
      (chosen s f).2) := by
  rw [statesAfter, processFrame, downStates_eq h, upStates_eq h]
  exact umerge_perm _ _

theorem chosen_states (s : State α) (f : Frame α) :
    (chosen s f).2 = f.downNodes.map (nextState s f) ∨
      (chosen s f).2 = f.downNodes.map fun n => markMailed (nextState s f n) := by
  have := chooseActions_states f.nodes.length s f.rebalanceRunning (f.downNodes.map (nextState s f))
  rwa [map_map] at this

theorem names_chosen (s : State α) (f : Frame α) :
    (chosen s f).2.map NodeState.name = f.downNodes := by
  rcases chosen_states s f with h | h <;>
    simp [h, comp_def, nextState_name, markMailed]

section
variable (h : Known s)
include h

theorem names_statesAfter (f : Frame α) : (statesAfter s f).map NodeState.name = f.nodes := by
  have hle : f.nodes.Pairwise (· ≤ ·) := f.sorted.imp fun h => h.le
  have hup : ((f.nodes.filter (· ∉ f.downNodes)).map fun n =>
      markUp (stateOf s.nodesStates n)).map NodeState.name = f.nodes.filter (· ∉ f.downNodes) := by
    rw [map_map]
    exact (map_congr_left fun n _ => stateOf_name _ n).trans (map_id' _)
  refine List.Perm.eq_of_pairwise (fun _ _ _ _ => le_antisymm) ?_ hle
    (((statesAfter_perm h f).map _).trans ?_)
  · rw [statesAfter, processFrame, downStates_eq h, upStates_eq h]
    refine pairwise_map.mpr
      (umerge_sorted (pairwise_map.mp ?_) (pairwise_map.mp ?_))
    · rw [hup]
      exact hle.filter _
    · rw [names_chosen]
      exact hle.sublist f.downOfNodes
  · rw [map_append, hup, names_chosen]
    exact filter_perm f

variable {ns : NodeState α}

theorem stateOf_statesAfter (hns : ns ∈ statesAfter s f) : stateOf (statesAfter s f) ns.name = ns :=
  stateOf_of_mem (names_statesAfter h f ▸ f.sorted.imp fun h => h.ne) hns

theorem stateOf_chosen (hns : ns ∈ (chosen s f).2) : stateOf (statesAfter s f) ns.name = ns :=
  stateOf_statesAfter h ((statesAfter_perm h f).mem_iff.mpr (mem_append_right _ hns))

theorem stateOf_down (hn : n ∈ f.downNodes) : stateOf (statesAfter s f) n = nextState s f n ∨
      stateOf (statesAfter s f) n = markMailed (nextState s f n) := by
  have hname := nextState_name s f n
  rcases chosen_states s f with heq | heq
  · have := stateOf_chosen h (heq ▸ mem_map_of_mem hn)
    exact .inl (by rwa [hname] at this)
  · have := stateOf_chosen h (heq ▸ mem_map_of_mem hn)
    exact .inr (by rwa [show (markMailed (nextState s f n)).name = n from hname] at this)

theorem stateOf_not_down (hn : n ∉ f.downNodes) :
    ((stateOf (statesAfter s f) n).state = .new ∨ (stateOf (statesAfter s f) n).state = .up) ∧
      (stateOf (statesAfter s f) n).downCounter = 0 := by
  by_cases hmem : n ∈ f.nodes
  · have hns := (statesAfter_perm h f).mem_iff.mpr (mem_append_left _
      (mem_map_of_mem (mem_filter.mpr ⟨hmem, by simpa using hn⟩)))
    have := stateOf_statesAfter h hns
    rw [show (markUp (stateOf s.nodesStates n)).name = n from stateOf_name _ _] at this
    rw [this]
    exact ⟨.inr rfl, rfl⟩
  · rw [stateOf_of_not_mem (names_statesAfter h f ▸ hmem)]
    exact ⟨.inl rfl, rfl⟩

theorem Known.processFrame (f : Frame α) :
    Known (processFrame f.nodes f.downNodes s f.rebalanceRunning).2 := by
  refine ⟨by rw [names_statesAfter h f]; exact f.sorted, fun ns hns => ?_⟩
  rw [← stateOf_statesAfter h hns]
  by_cases hdown : ns.name ∈ f.downNodes
  · have hst := h.nextState_state f ns.name
    rcases stateOf_down h hdown with heq | heq <;> rw [heq] <;> simp [markMailed] <;> grind
  · obtain ⟨hst | hst, -⟩ := stateOf_not_down h hdown <;> simp [hst]

end

end

theorem known_after (threshold : ℕ) (frames : List (Frame α)) : Known (after α threshold frames) := by
  induction frames with
  | nil => exact ⟨List.Pairwise.nil, by simp [after, initState]⟩
  | cons f older ih => exact ih.processFrame f

theorem after_downThreshold (threshold : ℕ) (frames : List (Frame α)) :
    (after α threshold frames).downThreshold = threshold - 1 := by
  induction frames with
  | nil => rfl
  | cons f older ih => exact ih

theorem DownFor.next {s : State α} {f : Frame α} {n : α} (h : DownFor older n s.nodesStates.length
        (downFrames s.downThreshold (stateOf s.nodesStates n)) ∧ Fresh (stateOf s.nodesStates n))
    (hn : n ∈ f.downNodes) :
    DownFor (f :: older) n f.nodes.length (downFrames s.downThreshold (nextState s f n)) := by
  unfold nextState
  by_cases hsize : f.nodes.length = s.nodesStates.length
  · have hsc : sizeChanged f.nodes s = false := by simp [sizeChanged, hsize]
    rw [hsc]
    rw [← hsize] at h
    exact (h.1.cons hn).mono (downFrames_of_unchanged _ f.downNodes s h.2)
  · have hsc : sizeChanged f.nodes s = true := by simp [sizeChanged, hsize]
    rw [hsc]
    exact ((DownFor.zero older n f.nodes.length).cons hn).mono
      (downFrames_of_changed _ f.downNodes s h.2)

theorem downFor_after (threshold : ℕ) (frames : List (Frame α)) (n : α) :
    DownFor frames n (after α threshold frames).nodesStates.length
        (downFrames (threshold - 1) (stateOf (after α threshold frames).nodesStates n)) ∧
      Fresh (stateOf (after α threshold frames).nodesStates n) := by
  induction frames with
  | nil => exact ⟨DownFor.zero _ _ _, fun _ => rfl⟩
  | cons f older ih =>
    have hknown := known_after threshold older
    have hlen : (after α threshold (f :: older)).nodesStates.length = f.nodes.length := by
      rw [← names_statesAfter hknown f, length_map]
      rfl
    rw [hlen]
    by_cases hn : n ∈ f.downNodes
    · have hnext := after_downThreshold threshold older ▸
        DownFor.next (after_downThreshold threshold older ▸ ih) hn
      have hst := hknown.nextState_state f n
      rcases stateOf_down hknown hn with heq | heq <;> rw [after, heq] <;>
        exact ⟨hnext, fun h => by rcases hst with h' | h' | h' <;> simp_all [markMailed]⟩
    · obtain ⟨hst, hc⟩ := stateOf_not_down hknown hn
      refine ⟨?_, fun _ => hc⟩
      have hzero : downFrames (threshold - 1) (stateOf (statesAfter (after α threshold older) f) n) =
          0 := by
        rcases hst with hst | hst <;> simp [downFrames, hst]
      rw [after, hzero]
      exact DownFor.zero _ _ _

/-- A node is failed over when it is down alone, and has been down for long enough. -/
theorem downFor_of_failover {threshold : ℕ} (hthreshold : 2 ≤ threshold) {f : Frame α} {n : α}
    (h : .failover n ∈ emitted threshold f older) :
    f.downNodes = [n] ∧ DownFor (f :: older) n f.nodes.length (threshold + 2) := by
  obtain ⟨⟨c, m, hds⟩, -⟩ := processFrame_failover h
  have hknown := known_after threshold older
  rw [downStates_eq hknown] at hds
  obtain ⟨n', hdown, hnext⟩ := map_eq_singleton_iff.mp hds
  obtain rfl : n' = n := by rw [← nextState_name (after α threshold older) f n', hnext]
  have hfor := DownFor.next (after_downThreshold threshold older ▸ downFor_after threshold older n')
    (hdown ▸ mem_singleton_self n' : n' ∈ f.downNodes)
  have hcount : downFrames (after α threshold older).downThreshold ⟨n', c, .failover, m⟩ =
      threshold + 2 := by
    rw [after_downThreshold]
    simp only [downFrames]
    omega
  rw [hnext, hcount] at hfor
  exact ⟨hdown, hfor⟩

/-- A frame that fails a node over emits nothing else, sees this node alone down in a cluster of
more than two nodes without a rebalance, and comes after the node was down and the cluster kept its
size in all of the last `threshold + 2` frames. -/
theorem failover_not_premature (threshold : ℕ) (hthreshold : 2 ≤ threshold) (f : Frame α)
    (older : List (Frame α)) (n : α) (h : .failover n ∈ emitted threshold f older) :
    f.downNodes = [n] ∧ 2 < f.nodes.length ∧ f.rebalanceRunning = false ∧
      emitted threshold f older = [.failover n] ∧ threshold + 2 ≤ (f :: older).length ∧
      ∀ g ∈ (f :: older).take (threshold + 2),
        n ∈ g.downNodes ∧ g.nodes.length = f.nodes.length := by
  obtain ⟨⟨c, m, hds⟩, hsize, hreb, honly⟩ := processFrame_failover h
  obtain ⟨hdown, hfor⟩ := downFor_of_failover hthreshold h
  exact ⟨hdown, hsize, hreb, honly, hfor.1, hfor.2⟩

def oneDown : Frame ℕ := ⟨[0, 1, 2], [1], false, by decide, by decide⟩

theorem failover_not_premature_oneDown :
    .failover 1 ∈ emitted 2 oneDown [oneDown, oneDown, oneDown] ∧
      ∀ g ∈ [oneDown, oneDown, oneDown, oneDown], 1 ∈ g.downNodes := by
  have h : .failover 1 ∈ emitted 2 oneDown [oneDown, oneDown, oneDown] := by
    simp [emitted, after, processFrame, downStates, upStates, foldMatchingNodes, collect, oneDown,
      initState, sizeChanged, incrementDownState, chooseActions, umerge, markUp, fromList, subtract]
  have hall := (failover_not_premature 2 (by decide) oneDown [oneDown, oneDown, oneDown] 1 h).2.2.2.2.2
  exact ⟨h, fun g hg => (hall g hg).1⟩

end Appstack.NsServer
