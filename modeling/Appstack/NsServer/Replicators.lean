import Appstack.Lib.Dict
import Appstack.Lib.Machine

-- `ns_vbm_sup.erl`.

namespace Appstack.NsServer.VbmSup

open Lib Function List

structure ChildId (α : Type) where
  vbuckets : List ℕ
  destNode : α
  deriving DecidableEq, Repr

inductive Class
  | error | exit | throw
  deriving DecidableEq, Repr

/-- The reason of an exception is any term, also a list of replicas. -/
inductive Reason (α : Type)
  | replicas (r : List (ℕ × α))
  | other (term : ℕ)
  deriving DecidableEq, Repr

structure Raised (α : Type) where
  cls : Class
  reason : Reason α
  left : List (ChildId α)
  deriving DecidableEq, Repr

variable {α : Type} [DecidableEq α]

def usort (l : List ℕ) : List ℕ := l.dedup.insertionSort (· ≤ ·)

def desired (replicas : List (ℕ × α)) : Dict α (List ℕ) :=
  ((replicas.map Prod.swap).foldl Dict.append ∅).map fun _ v => usort v

/-- An error that the child exists already is not looked at. -/
def startChild (children : List (ChildId α)) (id : ChildId α) : List (ChildId α) :=
  if id ∈ children then children else id :: children

/-- The child is replaced on its own node, which fails if the new one exists already. A node without
this function has the child killed and the other one started. -/
def changeVbucketFilter (newStyle : Bool) (children : List (ChildId α)) (id : ChildId α)
    (vbuckets : List ℕ) : Except (Raised α) (List (ChildId α)) :=
  let rest := children.erase id
  if newStyle ∧ ⟨vbuckets, id.destNode⟩ ∈ rest then .error ⟨.error, .other 0, rest⟩
  else .ok (startChild rest ⟨vbuckets, id.destNode⟩)

def adjust (newStyle : Bool) (want : Dict α (List ℕ))
    (acc : List (ChildId α) × Dict α (List ℕ)) (id : ChildId α) :
    Except (Raised α) (List (ChildId α) × Dict α (List ℕ)) :=
  match want.lookup id.destNode with
  | none => .ok (acc.1.erase id, acc.2)
  | some vbuckets =>
    if vbuckets = id.vbuckets then .ok (acc.1, acc.2.erase id.destNode)
    else do
      let children ← changeVbucketFilter newStyle acc.1 id vbuckets
      .ok (children, acc.2.erase id.destNode)

/-- What the remote calls to a node do: they may raise an exception. -/
structure Remote (α : Type) where
  raises : Option (Raised α)
  newStyle : Bool

def setReplicas (o : Dict.Order α) (remote : Remote α) (children : List (ChildId α))
    (replicas : List (ℕ × α)) : Except (Raised α) (List (ChildId α)) :=
  match remote.raises with
  | some e => .error e
  | none => do
    let acc ← children.foldlM (adjust remote.newStyle (desired replicas))
      (children, desired replicas)
    .ok ((acc.2.inOrder o).foldl (fun cs e => startChild cs ⟨e.2, e.1⟩) acc.1)

/-- The body of the loop over the sources. The pattern of its `catch` has the variable of the
replica list for the reason, which is bound already. -/
def setSource (o : Dict.Order α) (remote : α → Remote α) (live : List α)
    (world : α → List (ChildId α)) (e : α × List (ℕ × α)) :
    Except (Raised α) (α → List (ChildId α)) :=
  if e.1 ∈ live then
    match setReplicas o (remote e.1) (world e.1) e.2 with
    | .ok children => .ok (update world e.1 children)
    | .error x =>
      if x.reason = .replicas e.2 then .ok (update world e.1 x.left) else .error x
  else .ok world

def setReplicasOnNodes (o : Dict.Order α) (enabled : Bool) (remote : α → Remote α)
    (nodesReplicas : List (α × List (ℕ × α))) (live : List α) (world : α → List (ChildId α)) :
    Except (Raised α) (α → List (ChildId α)) :=
  let nr := if enabled then nodesReplicas else []
  let without := live.diff (nr.map Prod.fst)
  nr.foldlM (setSource o remote live) (without.foldl (fun w n => update w n []) world)

/-- One replicator for each destination, with its vbuckets in order. -/
def Exact (children : List (ChildId α)) (replicas : List (ℕ × α)) : Prop :=
  children.Nodup ∧ ∀ c, c ∈ children ↔ (∃ v, (v, c.destNode) ∈ replicas) ∧
      c.vbuckets = usort ((replicas.filter (·.2 = c.destNode)).map Prod.fst)

theorem lookup_desired (replicas : List (ℕ × α)) (d : α) (vs : List ℕ) :
    (desired replicas).lookup d = some vs ↔
      (∃ v, (v, d) ∈ replicas) ∧ vs = usort ((replicas.filter (·.2 = d)).map Prod.fst) := by
  have hget := Dict.lookup_foldl_append (∅ : Dict α (List ℕ)) (replicas.map Prod.swap) d
  have hmem : d ∈ (replicas.map Prod.swap).foldl Dict.append ∅ ↔
      d ∈ (∅ : Dict α (List ℕ)) ∨ d ∈ (replicas.map Prod.swap).map Prod.fst :=
    Dict.mem_foldl_append
  have hvs : ((replicas.map Prod.swap).filter (·.1 = d)).map Prod.snd =
      (replicas.filter (·.2 = d)).map Prod.fst := by
    simp [filter_map, comp_def]
  rw [hvs, AList.lookup_empty, Option.getD_none, nil_append] at hget
  rw [desired, Dict.lookup_map, Option.map_eq_some_iff]
  cases hl : ((replicas.map Prod.swap).foldl Dict.append ∅).lookup d with
  | none =>
    rw [AList.lookup_eq_none, hmem] at hl
    simp only [reduceCtorEq, false_and, exists_false, false_iff]
    rintro ⟨⟨v, hv⟩, -⟩
    exact hl (.inr (by simpa using ⟨v, hv⟩))
  | some ws =>
    rw [hl, Option.getD_some] at hget
    have hd := AList.lookup_isSome.mp (by rw [hl]; rfl)
    rw [hmem] at hd
    have hv : ∃ v, (v, d) ∈ replicas := by simpa using hd.resolve_left (AList.notMem_empty d)
    simp [hv, hget, eq_comm]

variable {cs : List (ChildId α)}

theorem mem_startChild {c id : ChildId α} : c ∈ startChild cs id ↔ c = id ∨ c ∈ cs := by
  unfold startChild
  split_ifs with h
  · exact ⟨.inr, fun hc => hc.elim (fun hc => hc ▸ h) fun hc => hc⟩
  · exact mem_cons

theorem nodup_startChild (h : cs.Nodup) (id : ChildId α) : (startChild cs id).Nodup := by
  unfold startChild
  split_ifs with hid
  · exact h
  · exact nodup_cons.mpr ⟨hid, h⟩

variable {cs' : List (ChildId α)} {newStyle : Bool}

theorem changeVbucketFilter_ok {id : ChildId α}
    {vs : List ℕ} (h : changeVbucketFilter newStyle cs id vs = .ok cs') :
    cs' = startChild (cs.erase id) ⟨vs, id.destNode⟩ := by
  unfold changeVbucketFilter at h
  dsimp only at h
  split_ifs at h
  exact (Except.ok.inj h).symm

theorem foldlM_adjust {want : Dict α (List ℕ)} {q : List (ChildId α)}
    {needed needed' : Dict α (List ℕ)} (seen : List α) (hq : q.Nodup) (hcs : cs.Nodup)
    (hmem : ∀ c, c ∈ cs ↔ c ∈ q ∨ want.lookup c.destNode = some c.vbuckets ∧ c.destNode ∈ seen)
    (hneeded : ∀ d, needed.lookup d = if d ∈ seen then none else want.lookup d)
    (h : q.foldlM (adjust newStyle want) (cs, needed) = .ok (cs', needed')) :
    cs'.Nodup ∧ ∃ seen' : List α, (∀ c, c ∈ cs' ↔
        want.lookup c.destNode = some c.vbuckets ∧ c.destNode ∈ seen') ∧
      ∀ d, needed'.lookup d = if d ∈ seen' then none else want.lookup d := by
  induction q generalizing cs needed seen with
  | nil =>
    cases h
    exact ⟨hcs, seen, by simpa using hmem, hneeded⟩
  | cons id q ih =>
    obtain ⟨hid, hq⟩ := nodup_cons.mp hq
    rw [foldlM_cons] at h
    obtain ⟨⟨cs1, needed1⟩, h1, h2⟩ := Machine.bind_eq_ok.mp h
    have herase : ∀ d, (needed.erase id.destNode).lookup d =
        if d ∈ id.destNode :: seen then none else want.lookup d := by
      intro d
      by_cases hd : d = id.destNode
      · rw [hd, AList.lookup_erase, if_pos (.head _)]
      · rw [AList.lookup_erase_ne hd, hneeded d]
        simp [hd]
    unfold adjust at h1
    cases hwant : want.lookup id.destNode with
    | none =>
      rw [hwant] at h1
      cases h1
      refine ih seen hq (hcs.erase id) (fun c => ?_) hneeded h2
      rw [hcs.mem_erase_iff, hmem c, mem_cons]
      by_cases hc : c = id
      · subst hc
        simp [hid, hwant]
      · simp [hc]
    | some vs =>
      rw [hwant] at h1
      dsimp only at h1
      split_ifs at h1 with hvs
      · cases h1
        refine ih (id.destNode :: seen) hq hcs (fun c => ?_) herase h2
        rw [hmem c, mem_cons, mem_cons]
        by_cases hc : c = id
        · subst hc
          simp [hwant, hvs]
        · have hne : want.lookup c.destNode = some c.vbuckets → c.destNode ≠ id.destNode := by
            intro hl hd
            rw [hd, hwant, hvs] at hl
            obtain ⟨v, d⟩ := c
            obtain ⟨v', d'⟩ := id
            simp_all
          grind
      · obtain ⟨cs2, hchange, hok⟩ := Machine.bind_eq_ok.mp h1
        cases hok
        obtain rfl := changeVbucketFilter_ok hchange
        refine ih (id.destNode :: seen) hq (nodup_startChild (hcs.erase id) _) (fun c => ?_)
          herase h2
        rw [mem_startChild, hcs.mem_erase_iff, hmem c, mem_cons, mem_cons]
        constructor
        · rintro (rfl | ⟨hne, hc | hc⟩)
          · exact .inr ⟨hwant, .inl rfl⟩
          · exact .inl (hc.resolve_left hne)
          · exact .inr ⟨hc.1, .inr hc.2⟩
        · rintro (hc | ⟨hl, hd | hs⟩)
          · exact .inr ⟨ne_of_mem_of_not_mem hc hid, .inl (.inr hc)⟩
          · rw [hd, hwant] at hl
            obtain ⟨ws, d⟩ := c
            exact .inl (by rw [Option.some.inj hl]; exact congrArg _ hd)
          · refine .inr ⟨?_, .inr ⟨hl, hs⟩⟩
            rintro rfl
            exact hvs (Option.some.inj (hwant.symm.trans hl))

theorem foldl_startChild (es : List (α × List ℕ)) (hcs : cs.Nodup) :
    (es.foldl (fun cs e => startChild cs ⟨e.2, e.1⟩) cs).Nodup ∧
      ∀ c, c ∈ es.foldl (fun cs e => startChild cs ⟨e.2, e.1⟩) cs ↔
        c ∈ cs ∨ (c.destNode, c.vbuckets) ∈ es := by
  induction es generalizing cs with
  | nil => simp [hcs]
  | cons e es ih =>
    obtain ⟨hnodup, hmem⟩ := ih (nodup_startChild hcs ⟨e.2, e.1⟩)
    refine ⟨hnodup, fun c => ?_⟩
    obtain ⟨vs, d⟩ := c
    rw [foldl_cons, hmem, mem_startChild, mem_cons, ChildId.mk.injEq, Prod.ext_iff]
    tauto

/-- Setting the replicas of a node either raises an exception or leaves the desired replicators. -/
theorem setReplicas_exact {o : Dict.Order α} {remote : Remote α}
    {replicas : List (ℕ × α)} (hcs : cs.Nodup) (h : setReplicas o remote cs replicas = .ok cs') :
    Exact cs' replicas := by
  unfold setReplicas at h
  split at h
  · cases h
  obtain ⟨⟨cs1, needed⟩, hfold, hok⟩ := Machine.bind_eq_ok.mp h
  cases hok
  obtain ⟨hnodup, seen, hmem, hneeded⟩ := foldlM_adjust [] hcs hcs
    (fun c => by simp) (fun d => by simp) hfold
  obtain ⟨hnodup', hmem'⟩ := foldl_startChild (needed.inOrder o) hnodup
  refine ⟨hnodup', fun c => ?_⟩
  rw [hmem', hmem, Dict.mem_inOrder, hneeded, ← lookup_desired]
  by_cases hs : c.destNode ∈ seen <;> simp [hs]

theorem foldlM_setSource (o : Dict.Order α) (remote : α → Remote α) (live : List α)
    {nr : List (α × List (ℕ × α))} (w : α → List (ChildId α)) (hnr : (nr.map Prod.fst).Nodup) :
    ((∃ w', nr.foldlM (setSource o remote live) w = .ok w') ↔
      ∀ n r e, (n, r) ∈ nr → n ∈ live → setReplicas o (remote n) (w n) r = .error e →
        e.reason = .replicas r) ∧
    ∀ w', nr.foldlM (setSource o remote live) w = .ok w' → (∀ n, n ∉ nr.map Prod.fst → w' n = w n) ∧
      ∀ n r cs, (n, r) ∈ nr → n ∈ live → setReplicas o (remote n) (w n) r = .ok cs → w' n = cs := by
  induction nr generalizing w with
  | nil =>
    refine ⟨iff_of_true ⟨w, rfl⟩ (by simp), fun w' h => ?_⟩
    cases h
    simp
  | cons x nr ih =>
    obtain ⟨n0, r0⟩ := x
    obtain ⟨hn0, hnr⟩ := nodup_cons.mp hnr
    have hne : ∀ n r, (n, r) ∈ nr → n ≠ n0 := by
      rintro n r hmem rfl
      exact hn0 (mem_map.mpr ⟨_, hmem, rfl⟩)
    rw [foldlM_cons]
    -- the source either ends the loop, or changes its own children only
    have hstep : (∃ e, setSource o remote live w (n0, r0) = .error e ∧ n0 ∈ live ∧
          setReplicas o (remote n0) (w n0) r0 = .error e ∧ e.reason ≠ .replicas r0) ∨
        ∃ w1, setSource o remote live w (n0, r0) = .ok w1 ∧ (∀ n, n ≠ n0 → w1 n = w n) ∧
          (n0 ∈ live → ∀ e, setReplicas o (remote n0) (w n0) r0 = .error e →
            e.reason = .replicas r0) ∧
          (n0 ∈ live → ∀ cs, setReplicas o (remote n0) (w n0) r0 = .ok cs → w1 n0 = cs) := by
      unfold setSource
      by_cases hlive : n0 ∈ live
      swap
      · exact .inr ⟨w, by simp [hlive], by simp, by simp [hlive], by simp [hlive]⟩
      simp only [hlive, if_true, true_and, forall_true_left]
      cases hset : setReplicas o (remote n0) (w n0) r0 with
      | ok cs =>
        exact .inr ⟨_, rfl, fun n hn => update_of_ne hn .., by simp, by simp⟩
      | error e =>
        by_cases he : e.reason = .replicas r0
        · exact .inr ⟨_, if_pos he, fun n hn => update_of_ne hn .., by simp [he], by simp⟩
        · exact .inl ⟨e, if_neg he, rfl, he⟩
    obtain ⟨e, hsrc, hlive, herr, he⟩ | ⟨w1, hsrc, hother, herr, hok⟩ := hstep
    · rw [hsrc]
      refine ⟨iff_of_false (by simp [bind, Except.bind]) fun h => ?_, by simp [bind, Except.bind]⟩
      exact he (h n0 r0 e (.head _) hlive herr)
    · rw [hsrc]
      obtain ⟨hiff, hres⟩ := ih (w := w1) hnr
      refine ⟨hiff.trans ⟨fun h n r e hmem hlive hset => ?_, fun h n r e hmem hlive hset => ?_⟩,
        fun w' hw' => ⟨fun n hn => ?_, fun n r cs hmem hlive hset => ?_⟩⟩
      · obtain heq | hmem := mem_cons.mp hmem
        · cases heq
          exact herr hlive e hset
        · exact h n r e hmem hlive (by rwa [hother n (hne n r hmem)])
      · rw [hother n (hne n r hmem)] at hset
        exact h n r e (.tail _ hmem) hlive hset
      · rw [map_cons, mem_cons, not_or] at hn
        rw [(hres w' hw').1 n hn.2, hother n hn.1]
      · obtain heq | hmem := mem_cons.mp hmem
        · obtain ⟨rfl, rfl⟩ := Prod.mk.inj heq
          rw [(hres w' hw').1 n hn0, hok hlive cs hset]
        · exact (hres w' hw').2 n r cs hmem hlive (by rwa [hother n (hne n r hmem)])

theorem foldl_update_nil (l : List α) (w : α → List (ChildId α)) (n : α) :
    l.foldl (fun w n => update w n []) w n = if n ∈ l then [] else w n := by
  induction l generalizing w with
  | nil => simp
  | cons n' l ih =>
    rw [foldl_cons, ih]
    by_cases hn : n = n' <;> by_cases hl : n ∈ l <;> simp [hn, hl]

/-- Replication is set on all other nodes, exactly if every exception on a live source has the list
of its replicas for a reason. -/
theorem setReplicasOnNodes_isolates_iff (o : Dict.Order α) (enabled : Bool) (remote : α → Remote α)
    (nodesReplicas : List (α × List (ℕ × α))) (live : List α) (world : α → List (ChildId α))
    (hnodes : (nodesReplicas.map Prod.fst).Nodup) (hlive : live.Nodup)
    (hworld : ∀ n, (world n).Nodup) :
    (∃ w, setReplicasOnNodes o enabled remote nodesReplicas live world = .ok w ∧
      (∀ n r, (n, r) ∈ (if enabled then nodesReplicas else []) → n ∈ live →
        (∀ e, setReplicas o (remote n) (world n) r ≠ .error e) → Exact (w n) r) ∧
      ∀ n ∈ live, n ∉ (if enabled then nodesReplicas else []).map Prod.fst → w n = []) ↔
    ∀ n r e, (n, r) ∈ (if enabled then nodesReplicas else []) → n ∈ live →
      setReplicas o (remote n) (world n) r = .error e → e.reason = .replicas r := by
  set nr := if enabled then nodesReplicas else [] with hnr
  have hnodup : (nr.map Prod.fst).Nodup := by
    rw [hnr]
    split_ifs
    exacts [hnodes, nodup_nil]
  set w₀ := (live.diff (nr.map Prod.fst)).foldl (fun w n => update w n []) world with hw₀
  have hkill : ∀ n, w₀ n = if n ∈ live ∧ n ∉ nr.map Prod.fst then [] else world n := by
    intro n
    rw [hw₀, foldl_update_nil]
    exact if_congr hlive.mem_sdiff_iff rfl rfl
  have hsame : ∀ n r, (n, r) ∈ nr → w₀ n = world n := fun n r hmem => by
    rw [hkill, if_neg fun h => h.2 (mem_map_of_mem hmem)]
  obtain ⟨hiff, hres⟩ := foldlM_setSource o remote live w₀ hnodup
  have hcond : (∀ n r e, (n, r) ∈ nr → n ∈ live → setReplicas o (remote n) (w₀ n) r = .error e →
      e.reason = .replicas r) ↔ ∀ n r e, (n, r) ∈ nr → n ∈ live →
      setReplicas o (remote n) (world n) r = .error e → e.reason = .replicas r := by
    refine forall₃_congr fun n r e => forall_congr' fun hmem => ?_
    rw [hsame n r hmem]
  rw [← hcond, ← hiff]
  refine ⟨fun ⟨w, hw, _⟩ => ⟨w, hw⟩, fun ⟨w, hw⟩ => ⟨w, hw, fun n r hmem hl hnone => ?_,
    fun n hl hn => ?_⟩⟩
  · cases hset : setReplicas o (remote n) (world n) r with
    | error e => exact absurd hset (hnone e)
    | ok cs =>
      rw [(hres w hw).2 n r cs hmem hl (by rwa [hsame n r hmem])]
      exact setReplicas_exact (hworld n) hset
  · rw [(hres w hw).1 n hn, hkill, if_pos ⟨hl, hn⟩]

def asIs (α : Type) : Dict.Order α := ⟨id, fun l => .refl l⟩

/-- The calls to node 1 raise `reason`. -/
def firstRaises (reason : Reason ℕ) (n : ℕ) : Remote ℕ :=
  ⟨if n = 1 then some ⟨.exit, reason, []⟩ else none, true⟩

/-- Node 1 raises its list of replicas, and node 2 is set. -/
theorem setReplicasOnNodes_isolates_two :
    ∃ w, setReplicasOnNodes (asIs ℕ) true (firstRaises (.replicas [(7, 2)]))
        [(1, [(7, 2)]), (2, [(8, 3), (5, 3)])] [1, 2, 3] (fun _ => [⟨[9], 4⟩]) = .ok w ∧
      Exact (w 2) [(8, 3), (5, 3)] ∧ w 3 = [] := by
  have htwo : setReplicas (asIs ℕ) (firstRaises (.replicas [(7, 2)]) 2) [⟨[9], 4⟩]
      [(8, 3), (5, 3)] = .ok [⟨[5, 8], 3⟩] := by decide
  obtain ⟨w, hw, hexact, hnone⟩ := (setReplicasOnNodes_isolates_iff (asIs ℕ) true
    (firstRaises (.replicas [(7, 2)])) [(1, [(7, 2)]), (2, [(8, 3), (5, 3)])] [1, 2, 3]
    (fun _ => [⟨[9], 4⟩]) (by decide) (by decide) (fun _ => by simp)).mpr (by
      intro n r e hmem _ hset
      obtain ⟨rfl, rfl⟩ | ⟨rfl, rfl⟩ : n = 1 ∧ r = [(7, 2)] ∨ n = 2 ∧ r = [(8, 3), (5, 3)] := by
        simpa using hmem
      · obtain rfl := Except.error.inj hset
        rfl
      · rw [htwo] at hset
        cases hset)
  refine ⟨w, hw, hexact 2 _ (by decide) (by decide) (fun e he => ?_), hnone 3 (by decide) (by decide)⟩
  rw [htwo] at he
  cases he

/-- Any other exception ends the loop before node 2 is set. -/
theorem exception_stops_other_nodes :
    setReplicasOnNodes (asIs ℕ) true (firstRaises (.other 0)) [(1, [(7, 2)]), (2, [(8, 3)])] [1, 2]
      (fun _ => []) = .error ⟨.exit, .other 0, []⟩ :=
  rfl

end Appstack.NsServer.VbmSup
