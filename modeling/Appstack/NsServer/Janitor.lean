import Mathlib

-- `ns_janitor.erl`. `undefined` entries of a chain are `none`.

namespace Appstack.NsServer.Janitor

open List

inductive VbState
  | active | replica | pending | dead
  deriving DecidableEq, Repr

/-- What is known of a copy: its report, or that its node is down or answered with an error, or
that its node answered without it. -/
inductive CopyState
  | reported (s : VbState)
  | zombie
  | missing
  deriving DecidableEq, Repr

inductive Command (α : Type)
  | setVbucket (node : α) (vbucket : ℕ) (s : VbState)
  | deleteVbucket (node : α) (vbucket : ℕ)
  | killChildren (node : α) (vbucket : ℕ)
  deriving DecidableEq, Repr

inductive Fault
  | caseClause | badarg | functionClause
  deriving DecidableEq, Repr

/-- The commands given, and the new chain unless the process crashed. -/
structure Outcome (α β : Type) where
  commands : List (Command α)
  result : Except Fault β

abbrev Chain (α : Type*) := List (Option α)

/-- `{Node, VBucket, State}` as reported. -/
abbrev States (α : Type) := List (α × ℕ × VbState)

variable {α : Type} [DecidableEq α]

def nodeStates (states : States α) (vbucket : ℕ) : List (α × VbState) :=
  states.filterMap fun s => if s.2.1 = vbucket then some (s.1, s.2.2) else none

def copyState (states : States α) (vbucket : ℕ) (zombies : List α) (n : α) : CopyState :=
  match (nodeStates states vbucket).lookup n with
  | some s => .reported s
  | none => if n ∈ zombies then .zombie else .missing

/-- An entry of `ChainStates`: `none` is `{undefined, missing}`. -/
def chainState (states : States α) (vbucket : ℕ) (zombies : List α) (n : Option α) :
    Option (α × CopyState) :=
  n.map fun n => (n, copyState states vbucket zombies n)

def extraStates (states : States α) (vbucket : ℕ) (chain : Chain α) : List (α × VbState) :=
  (nodeStates states vbucket).filter fun x => some x.1 ∉ chain

def pairs {β : Type*} : List β → List (β × β)
  | x :: y :: rest => (x, y) :: pairs (y :: rest)
  | [_] => []
  | [] => []

/-- One round of the walk over the pairs of a chain with an active or zombie master. The message
about an active replica has three directives and two arguments, and it is formatted by the caller:
with the error level enabled the walk crashes before the copy is killed. -/
def pairStep (errorLogged : Bool) (vbucket : ℕ) :
    Option (α × CopyState) × Option (α × CopyState) → Except Fault (List (Command α))
  | (_, some (n, .reported .active)) =>
    if errorLogged then .error .badarg
    else .ok [.setVbucket n vbucket .dead, .killChildren n vbucket]
  | (_, some (_, .reported .replica)) => .ok []
  | (_, some (_, .missing)) => .ok []
  | (_, none) => .ok []
  | (some (_, .zombie), _) => .ok []
  | (_, some (_, .zombie)) => .ok []
  | (none, _) => .ok []
  | (some (m, _), _) => .ok [.killChildren m vbucket]

/-- `lists:foreach` over the pairs: the commands given, and the fault that ended the walk. -/
def walkPairs (errorLogged : Bool) (vbucket : ℕ) :
    List (Option (α × CopyState) × Option (α × CopyState)) → List (Command α) × Option Fault
  | [] => ([], none)
  | p :: ps =>
    match pairStep errorLogged vbucket p with
    | .error e => ([], some e)
    | .ok cs =>
      let rest := walkPairs errorLogged vbucket ps
      (cs ++ rest.1, rest.2)

def isReplica : Option (α × CopyState) → Bool
  | some (_, .reported .replica) => true
  | _ => false

def haveAllCopies (replicaStates : List (Option (α × CopyState))) : Bool :=
  replicaStates.all isReplica

def extraStep (haveAll : Bool) (vbucket : ℕ) (x : α × VbState) : List (Command α) :=
  match haveAll, x.2 with
  | true, .dead => [.deleteVbucket x.1 vbucket]
  | true, _ => [.setVbucket x.1 vbucket .dead, .deleteVbucket x.1 vbucket]
  | false, .dead => []
  | false, _ => [.setVbucket x.1 vbucket .dead]

def activeOf : Option (α × CopyState) → Option α
  | some (n, .reported .active) => some n
  | _ => none

/-- Whether the whole fast-forward chain of active node `node` is in place. -/
def pickFutureChain (reports : List (α × VbState)) (future : Chain α) (node : α) : Bool :=
  match future with
  | some n :: _ =>
    n = node &&
      match (future.filterMap id).map fun n => reports.lookup n with
      | master :: replicas =>
        master = some VbState.active && replicas.all fun r => r = some VbState.replica
      | [] => false
  | _ => false

/-- The new chain when `node` is the one active copy and not the master. -/
def promote (chain : Chain α) (node : α) : Chain α :=
  match chain.findIdx? (· = some node) with
  | none => [some node]
  | some i => some node :: chain.drop (i + 1)

def doSanifyChain (errorLogged : Bool) (states : States α) (chain future : Chain α) (vbucket : ℕ)
    (zombies : List α) : Outcome α (Chain α) :=
  let reports := nodeStates states vbucket
  let extra := extraStates states vbucket chain
  match chain.map (chainState states vbucket zombies) with
  | [] => ⟨[], .error .caseClause⟩
  | none :: _ => ⟨[], .ok chain⟩
  | some (master, st) :: replicaStates =>
    if st ≠ .reported .active ∧ st ≠ .zombie then
      match replicaStates.filterMap activeOf ++
          (extra.filter fun x => x.2 = .active).map Prod.fst with
      | [] => ⟨[.setVbucket master vbucket .active], .ok chain⟩
      | [node] =>
        if pickFutureChain reports future node then ⟨[], .ok future⟩
        else ⟨[], .ok (promote chain node)⟩
      | _ => ⟨[], .ok chain⟩
    else
      let walk := walkPairs errorLogged vbucket (pairs (some (master, st) :: replicaStates))
      match walk.2 with
      | some e => ⟨walk.1, .error e⟩
      | none =>
        ⟨walk.1 ++ extra.flatMap (extraStep (haveAllCopies replicaStates) vbucket), .ok chain⟩

def sanifyChain (errorLogged : Bool) (states : States α) (chain future : Chain α) (vbucket : ℕ)
    (zombies : List α) : Outcome α (Chain α) :=
  let out := doSanifyChain errorLogged states chain future vbucket zombies
  ⟨out.commands, out.result.map fun c => c ++ List.replicate (chain.length - c.length) none⟩

def sanifyFrom (errorLogged : Bool) (states : States α) (zombies : List α) (v : ℕ) :
    List (Chain α × Chain α) → Outcome α (List (Chain α))
  | [] => ⟨[], .ok []⟩
  | (chain, future) :: rest =>
    let out := sanifyChain errorLogged states chain future v zombies
    match out.result with
    | .error e => ⟨out.commands, .error e⟩
    | .ok c =>
      let more := sanifyFrom errorLogged states zombies (v + 1) rest
      ⟨out.commands ++ more.commands, more.result.map (c :: ·)⟩

/-- `current_states`: the reports of the nodes that answered, and the nodes that did not. -/
def currentStates (replies : List (α × Option (List (ℕ × VbState)))) (downNodes : List α) :
    States α × List α :=
  (replies.flatMap fun r => (r.2.getD []).map fun vs => (r.1, vs.1, vs.2),
    (replies.filter fun r => r.2.isNone).map Prod.fst ++ downNodes)

def sanify (errorLogged : Bool) (map ffMap : List (Chain α))
    (replies : List (α × Option (List (ℕ × VbState)))) (unreached downNodes : List α) :
    Outcome α (List (Chain α)) :=
  let cur := currentStates replies unreached
  let effective := if ffMap = [] then map.map fun _ => [] else ffMap
  if effective.length = map.length then
    sanifyFrom errorLogged cur.1 (cur.2 ++ downNodes) 0 (map.zip effective)
  else ⟨[], .error .functionClause⟩

theorem map_snd_pairs {β : Type} (l : List β) : (pairs l).map Prod.snd = l.tail := by
  fun_induction pairs l with
  | case1 x y rest ih =>
    rw [map_cons, ih]
    rfl
  | case2 => rfl
  | case3 => rfl

omit [DecidableEq α] in
theorem pairStep_of_active (errorLogged : Bool) (vbucket : ℕ) (x : Option (α × CopyState)) (n : α) :
    pairStep errorLogged vbucket (x, some (n, .reported .active)) =
      if errorLogged then .error .badarg
      else .ok [.setVbucket n vbucket .dead, .killChildren n vbucket] := by
  cases x <;> rfl

omit [DecidableEq α] in
theorem pairStep_of_not_active (errorLogged : Bool) (vbucket : ℕ)
    (p : Option (α × CopyState) × Option (α × CopyState))
    (hp : ∀ n, p.2 ≠ some (n, .reported .active)) :
    ∃ cs, pairStep errorLogged vbucket p = .ok cs ∧ ∀ c ∈ cs, ∃ m, c = .killChildren m vbucket := by
  unfold pairStep
  split
  · exact absurd rfl (hp _)
  all_goals exact ⟨_, rfl, by simp⟩

section
variable {errorLogged : Bool} {vbucket : ℕ} {x y : Option (α × CopyState)}
  {ps : List (Option (α × CopyState) × Option (α × CopyState))}

omit [DecidableEq α]

theorem walkPairs_cons_of_active (n : α) (h : errorLogged = false) :
    walkPairs errorLogged vbucket ((x, some (n, .reported .active)) :: ps) =
      (.setVbucket n vbucket .dead :: .killChildren n vbucket ::
        (walkPairs errorLogged vbucket ps).1, (walkPairs errorLogged vbucket ps).2) := by
  rw [walkPairs, pairStep_of_active, h]
  rfl

theorem walkPairs_cons_of_logged (n : α) (h : errorLogged = true) :
    walkPairs errorLogged vbucket ((x, some (n, .reported .active)) :: ps) = ([], some .badarg) := by
  rw [walkPairs, pairStep_of_active, h]
  rfl

theorem walkPairs_cons_of_not_active (hy : ¬∃ n, y = some (n, .reported .active)) :
    ∃ cs, (∀ c ∈ cs, ∃ m, c = Command.killChildren m vbucket) ∧
      walkPairs errorLogged vbucket ((x, y) :: ps) =
        (cs ++ (walkPairs errorLogged vbucket ps).1, (walkPairs errorLogged vbucket ps).2) := by
  obtain ⟨cs, hcs, hkill⟩ := pairStep_of_not_active errorLogged vbucket (x, y)
    fun n h => hy ⟨n, h⟩
  refine ⟨cs, hkill, ?_⟩
  rw [walkPairs, hcs]

theorem mem_walkPairs {c : Command α} (h : c ∈ (walkPairs errorLogged vbucket ps).1) :
    (∃ m, c = .killChildren m vbucket) ∨ errorLogged = false ∧
      ∃ n, c = .setVbucket n vbucket .dead ∧ some (n, .reported .active) ∈ ps.map Prod.snd := by
  induction ps with
  | nil => simp [walkPairs] at h
  | cons p ps ih =>
    have hrest : c ∈ (walkPairs errorLogged vbucket ps).1 →
        (∃ m, c = .killChildren m vbucket) ∨ errorLogged = false ∧
          ∃ n, c = .setVbucket n vbucket .dead ∧
            some (n, .reported .active) ∈ (p :: ps).map Prod.snd := by
      intro hc
      apply (ih hc).imp id
      rintro ⟨hlog, n, hn, hmem⟩
      exact ⟨hlog, n, hn, mem_cons_of_mem _ hmem⟩
    obtain ⟨x, y⟩ := p
    by_cases hy : ∃ n, y = some (n, .reported .active)
    · obtain ⟨n, rfl⟩ := hy
      cases hlog : errorLogged with
      | true =>
        rw [walkPairs_cons_of_logged n hlog] at h
        simp at h
      | false =>
        rw [hlog] at hrest
        rw [walkPairs_cons_of_active n hlog, hlog] at h
        rcases mem_cons.mp h with rfl | h
        · exact .inr ⟨rfl, n, rfl, .head _⟩
        rcases mem_cons.mp h with rfl | h
        · exact .inl ⟨n, rfl⟩
        · exact hrest h
    · obtain ⟨cs, hkill, heq⟩ := walkPairs_cons_of_not_active hy
      rw [heq] at h
      rcases mem_append.mp h with h | h
      · exact .inl (hkill c h)
      · exact hrest h

theorem setVbucket_mem_walkPairs {n : α} (hlog : errorLogged = false)
    (h : some (n, .reported .active) ∈ ps.map Prod.snd) :
    .setVbucket n vbucket .dead ∈ (walkPairs errorLogged vbucket ps).1 := by
  induction ps with
  | nil => simp at h
  | cons p ps ih =>
    obtain ⟨x, y⟩ := p
    rw [map_cons] at h
    by_cases hy : ∃ n, y = some (n, .reported .active)
    · obtain ⟨n', rfl⟩ := hy
      rw [walkPairs_cons_of_active n' hlog]
      rcases mem_cons.mp h with h | h
      · obtain rfl : n = n' := by simpa using h
        exact .head _
      · exact .tail _ (.tail _ (ih h))
    · obtain ⟨cs, _, heq⟩ := walkPairs_cons_of_not_active hy
      rw [heq]
      rcases mem_cons.mp h with h | h
      · exact absurd ⟨n, h.symm⟩ hy
      · exact mem_append_right cs (ih h)

theorem walkPairs_completes_iff : (walkPairs errorLogged vbucket ps).2 = none ↔
      errorLogged = false ∨ ∀ n, some (n, .reported .active) ∉ ps.map Prod.snd := by
  induction ps with
  | nil => simp [walkPairs]
  | cons p ps ih =>
    obtain ⟨x, y⟩ := p
    rw [map_cons]
    by_cases hy : ∃ n, y = some (n, .reported .active)
    · obtain ⟨n, rfl⟩ := hy
      cases hlog : errorLogged with
      | true =>
        rw [walkPairs_cons_of_logged n rfl]
        simp only [reduceCtorEq, Bool.true_eq_false, false_or, false_iff]
        intro hnone
        exact hnone n (.head _)
      | false =>
        rw [walkPairs_cons_of_active n rfl]
        rw [hlog] at ih
        simpa using ih
    · obtain ⟨cs, _, heq⟩ := walkPairs_cons_of_not_active hy
      have hne : ∀ n, some (n, CopyState.reported .active) ≠ y := fun n h => hy ⟨n, h.symm⟩
      rw [heq, ih]
      simp [hne]

end

section
variable {states : States α} {vbucket : ℕ}

omit [DecidableEq α] in
theorem mem_nodeStates {n : α} {s : VbState} :
    (n, s) ∈ nodeStates states vbucket ↔ (n, vbucket, s) ∈ states := by
  simp only [nodeStates, mem_filterMap]
  constructor
  · rintro ⟨⟨n', v, s'⟩, hmem, h⟩
    by_cases hv : v = vbucket
    · simp only [hv, if_true] at h
      cases h
      rwa [← hv]
    · simp [hv] at h
  · intro h
    exact ⟨(n, vbucket, s), h, by simp⟩

theorem reported_of_copyState {zombies : List α} {n : α}
    {s : VbState} (h : copyState states vbucket zombies n = .reported s) :
    (n, vbucket, s) ∈ states := by
  unfold copyState at h
  cases hl : (nodeStates states vbucket).lookup n with
  | some s' =>
    rw [hl] at h
    obtain rfl : s' = s := by simpa using h
    obtain ⟨l1, l2, heq, _⟩ := lookup_eq_some_iff.mp hl
    apply mem_nodeStates.mp
    rw [heq]
    simp
  | none =>
    rw [hl] at h
    by_cases hz : n ∈ zombies <;> simp [hz] at h

theorem not_reported_of_zombie {zombies : List α} {n : α}
    (h : copyState states vbucket zombies n = .zombie) (s : VbState) :
    (n, vbucket, s) ∉ states := by
  intro hmem
  unfold copyState at h
  cases hl : (nodeStates states vbucket).lookup n with
  | some s' =>
    rw [hl] at h
    cases h
  | none =>
    have hne := lookup_eq_none_iff.mp hl (n, s) (mem_nodeStates.mpr hmem)
    simp at hne

end

def MasterActive (states : States α) (chain : Chain α) (vbucket : ℕ) : Prop :=
  ∃ m, chain.head? = some (some m) ∧ (m, vbucket, .active) ∈ states

def AllReplicas (states : States α) (chain : Chain α) (vbucket : ℕ) : Prop :=
  ∀ c ∈ chain.tail, ∃ n, c = some n ∧ (n, vbucket, .replica) ∈ states

/-- Copies reported active are killed or deleted only next to an active master, and copies are
deleted only next to an active master and with all replicas in place. -/
structure Safe (states : States α) (chain : Chain α) (vbucket : ℕ)
    (commands : List (Command α)) : Prop where
  killed : ∀ n, .setVbucket n vbucket .dead ∈ commands ∨ .deleteVbucket n vbucket ∈ commands →
    (n, vbucket, .active) ∈ states → MasterActive states chain vbucket
  deleted : ∀ n, .deleteVbucket n vbucket ∈ commands →
    MasterActive states chain vbucket ∧ AllReplicas states chain vbucket

def ActiveReplica (states : States α) (chain : Chain α) (vbucket : ℕ) (zombies : List α) : Prop :=
  ∃ n, some n ∈ chain.tail ∧ copyState states vbucket zombies n = .reported .active

def ReplicasFound (states : States α) (chain : Chain α) (vbucket : ℕ) (zombies : List α) : Prop :=
  ∀ c ∈ chain.tail, ∃ n, c = some n ∧ copyState states vbucket zombies n = .reported .replica

/-- A master of unknown state does no harm: the walk crashes on an active replica, or there is no
active copy to kill and no copy to delete. -/
def Harmless (errorLogged : Bool) (states : States α) (chain : Chain α) (vbucket : ℕ)
    (zombies : List α) : Prop :=
  ∀ m, chain.head? = some (some m) → copyState states vbucket zombies m = .zombie →
    (ActiveReplica states chain vbucket zombies → errorLogged = true) ∧
      (¬ActiveReplica states chain vbucket zombies →
        (∀ n, (n, vbucket, .active) ∈ states → some n ∈ chain) ∧
          (ReplicasFound states chain vbucket zombies →
            ∀ n s, (n, vbucket, s) ∈ states → some n ∈ chain))

section
variable {errorLogged : Bool} {states : States α} {chain future : Chain α} {vbucket : ℕ}
  {zombies : List α} {n : α}

theorem mem_extraStates {s : VbState} :
    (n, s) ∈ extraStates states vbucket chain ↔ (n, vbucket, s) ∈ states ∧ some n ∉ chain := by
  simp [extraStates, mem_nodeStates]

theorem active_mem_chainStates :
    some (n, .reported .active) ∈ chain.map (chainState states vbucket zombies) ↔
      some n ∈ chain ∧ copyState states vbucket zombies n = .reported .active := by
  simp only [mem_map, chainState, Option.map_eq_some_iff, Prod.mk.injEq]
  constructor
  · rintro ⟨c, hc, n', rfl, rfl, hs⟩
    exact ⟨hc, hs⟩
  · rintro ⟨hc, hs⟩
    exact ⟨some n, hc, n, rfl, rfl, hs⟩

theorem haveAllCopies_iff : haveAllCopies (chain.map (chainState states vbucket zombies)) = true ↔
      ∀ c ∈ chain, ∃ n, c = some n ∧ copyState states vbucket zombies n = .reported .replica := by
  simp only [haveAllCopies, all_eq_true, forall_mem_map]
  apply forall₂_congr
  intro c _
  cases c with
  | none => simp [chainState, isReplica]
  | some n =>
    cases h : copyState states vbucket zombies n with
    | zombie => simp [chainState, isReplica, h]
    | missing => simp [chainState, isReplica, h]
    | reported s => cases s <;> simp [chainState, isReplica, h]

variable {l : List (α × VbState)} {haveAll : Bool}

omit [DecidableEq α] in
theorem setVbucket_mem_extraStep :
    .setVbucket n vbucket .dead ∈ l.flatMap (extraStep haveAll vbucket) ↔
      ∃ s, s ≠ .dead ∧ (n, s) ∈ l := by
  rw [mem_flatMap]
  constructor
  · rintro ⟨⟨n', s⟩, hmem, h⟩
    cases haveAll <;> cases s <;> simp [extraStep] at h <;> subst h <;> exact ⟨_, by simp, hmem⟩
  · rintro ⟨s, hs, hmem⟩
    refine ⟨(n, s), hmem, ?_⟩
    cases haveAll <;> cases s <;> simp_all [extraStep]

omit [DecidableEq α] in
theorem deleteVbucket_mem_extraStep :
    .deleteVbucket n vbucket ∈ l.flatMap (extraStep haveAll vbucket) ↔
      haveAll = true ∧ ∃ s, (n, s) ∈ l := by
  rw [mem_flatMap]
  constructor
  · rintro ⟨⟨n', s⟩, hmem, h⟩
    cases haveAll <;> cases s <;> simp [extraStep] at h <;> subst h <;> exact ⟨rfl, _, hmem⟩
  · rintro ⟨rfl, s, hmem⟩
    refine ⟨(n, s), hmem, ?_⟩
    cases s <;> simp [extraStep]

variable {m : α}

theorem doSanifyChain_of_other (errorLogged : Bool) (future tail : Chain α)
    (hm : copyState states vbucket zombies m ≠ .reported .active)
    (hz : copyState states vbucket zombies m ≠ .zombie) :
    ∀ c ∈ (doSanifyChain errorLogged states (some m :: tail) future vbucket zombies).commands,
      c = .setVbucket m vbucket .active := by
  unfold doSanifyChain
  simp only [map_cons, chainState, Option.map_some]
  rw [if_pos ⟨hm, hz⟩]
  split
  · simp
  · split_ifs <;> simp
  · simp

theorem doSanifyChain_of_kept (errorLogged : Bool) (future tail : Chain α)
    (hm : copyState states vbucket zombies m = .reported .active ∨
      copyState states vbucket zombies m = .zombie) :
    let walk := walkPairs errorLogged vbucket
      (pairs ((some m :: tail).map (chainState states vbucket zombies)))
    (doSanifyChain errorLogged states (some m :: tail) future vbucket zombies).commands =
      walk.1 ++ if walk.2 = none then
        (extraStates states vbucket (some m :: tail)).flatMap
          (extraStep (haveAllCopies (tail.map (chainState states vbucket zombies))) vbucket)
        else [] := by
  intro walk
  have hst : ¬(copyState states vbucket zombies m ≠ .reported .active ∧
      copyState states vbucket zombies m ≠ .zombie) := by
    rintro ⟨h1, h2⟩
    exact hm.elim h1 h2
  unfold doSanifyChain
  simp only [map_cons, chainState, Option.map_some]
  rw [if_neg hst]
  have hwalk : walkPairs errorLogged vbucket (pairs (some (m, copyState states vbucket zombies m) ::
      tail.map (chainState states vbucket zombies))) = walk := rfl
  simp only [hwalk]
  cases hfault : walk.2 with
  | none => rfl
  | some e => simp

theorem walk_completes_iff (errorLogged : Bool) (m : α) (tail : Chain α) :
    (walkPairs errorLogged vbucket
        (pairs ((some m :: tail).map (chainState states vbucket zombies)))).2 = none ↔
      errorLogged = false ∨ ¬ActiveReplica states (some m :: tail) vbucket zombies := by
  rw [walkPairs_completes_iff, map_snd_pairs]
  apply or_congr Iff.rfl
  rw [ActiveReplica, not_exists]
  apply forall_congr'
  intro n
  exact not_congr active_mem_chainStates

section
variable (errorLogged : Bool) (future tail : Chain α)
  (hm : copyState states vbucket zombies m = .reported .active ∨
    copyState states vbucket zombies m = .zombie)
include hm

theorem setVbucket_mem_kept : .setVbucket n vbucket .dead ∈
        (doSanifyChain errorLogged states (some m :: tail) future vbucket zombies).commands ↔
      (errorLogged = false ∧ some n ∈ tail ∧
          copyState states vbucket zombies n = .reported .active) ∨
        (errorLogged = false ∨ ¬ActiveReplica states (some m :: tail) vbucket zombies) ∧
          ∃ s, s ≠ .dead ∧ (n, vbucket, s) ∈ states ∧ some n ∉ some m :: tail := by
  rw [doSanifyChain_of_kept errorLogged future tail hm, mem_append]
  apply or_congr
  · rw [← active_mem_chainStates]
    constructor
    · intro h
      rcases mem_walkPairs h with ⟨m', hm'⟩ | ⟨hlog, n', hn', hmem⟩
      · cases hm'
      · rw [map_snd_pairs] at hmem
        cases hn'
        exact ⟨hlog, hmem⟩
    · rintro ⟨hlog, hmem⟩
      apply setVbucket_mem_walkPairs hlog
      rw [map_snd_pairs]
      exact hmem
  · rw [← walk_completes_iff errorLogged m tail]
    split_ifs with hwalk
    · rw [setVbucket_mem_extraStep]
      simp only [mem_extraStates]
      exact ⟨fun h => ⟨hwalk, h⟩, fun h => h.2⟩
    · exact ⟨fun h => absurd h not_mem_nil, fun h => absurd h.1 hwalk⟩

theorem deleteVbucket_mem_kept : .deleteVbucket n vbucket ∈
        (doSanifyChain errorLogged states (some m :: tail) future vbucket zombies).commands ↔
      (errorLogged = false ∨ ¬ActiveReplica states (some m :: tail) vbucket zombies) ∧
        ReplicasFound states (some m :: tail) vbucket zombies ∧
          ∃ s, (n, vbucket, s) ∈ states ∧ some n ∉ some m :: tail := by
  rw [doSanifyChain_of_kept errorLogged future tail hm, mem_append]
  have hwalk : .deleteVbucket n vbucket ∉ (walkPairs errorLogged vbucket
      (pairs ((some m :: tail).map (chainState states vbucket zombies)))).1 := by
    intro h
    rcases mem_walkPairs h with ⟨m', hm'⟩ | ⟨_, n', hn', _⟩
    · cases hm'
    · cases hn'
  rw [← walk_completes_iff errorLogged m tail]
  split_ifs with hc
  · rw [deleteVbucket_mem_extraStep, haveAllCopies_iff]
    simp only [hwalk, false_or, mem_extraStates]
    exact ⟨fun h => ⟨hc, h⟩, fun h => h.2⟩
  · simp only [hwalk, false_or]
    exact ⟨fun h => absurd h not_mem_nil, fun h => absurd h.1 hc⟩

end

theorem safe_of_active {tail : Chain α}
    (hm : copyState states vbucket zombies m = .reported .active) :
    Safe states (some m :: tail) vbucket
      (doSanifyChain errorLogged states (some m :: tail) future vbucket zombies).commands := by
  have hmaster : MasterActive states (some m :: tail) vbucket :=
    ⟨m, rfl, reported_of_copyState hm⟩
  refine ⟨fun _ _ _ => hmaster, ?_⟩
  intro n hn
  obtain ⟨_, hfound, _⟩ := (deleteVbucket_mem_kept errorLogged future tail (.inl hm)).mp hn
  refine ⟨hmaster, ?_⟩
  intro c hc
  obtain ⟨n', rfl, hst⟩ := hfound c hc
  exact ⟨n', rfl, reported_of_copyState hst⟩

/-- Next to a master of unknown state nothing may be killed or deleted, and the code does both. -/
theorem safe_iff_of_zombie {tail : Chain α} (hm : copyState states vbucket zombies m = .zombie) :
    Safe states (some m :: tail) vbucket
        (doSanifyChain errorLogged states (some m :: tail) future vbucket zombies).commands ↔
      Harmless errorLogged states (some m :: tail) vbucket zombies := by
  have hmaster : ¬MasterActive states (some m :: tail) vbucket := by
    rintro ⟨m', hhead, hact⟩
    obtain rfl : m = m' := by simpa using hhead
    exact not_reported_of_zombie hm _ hact
  constructor
  · intro hsafe m' _ _
    have hkill : ∀ n, (n, vbucket, .active) ∈ states → .setVbucket n vbucket .dead ∉
        (doSanifyChain errorLogged states (some m :: tail) future vbucket zombies).commands :=
      fun n hact hcmd => hmaster (hsafe.killed n (.inl hcmd) hact)
    refine ⟨?_, ?_⟩
    · rintro ⟨n, hn, hst⟩
      by_contra hlog
      apply hkill n (reported_of_copyState hst)
      exact (setVbucket_mem_kept errorLogged future tail (.inr hm)).mpr
        (.inl ⟨by simpa using hlog, hn, hst⟩)
    · intro hnone
      refine ⟨?_, ?_⟩
      · intro n hact
        by_contra hn
        apply hkill n hact
        exact (setVbucket_mem_kept errorLogged future tail (.inr hm)).mpr
          (.inr ⟨.inr hnone, .active, by simp, hact, hn⟩)
      · intro hfound n s hs
        by_contra hn
        have hdel := (deleteVbucket_mem_kept errorLogged future tail (.inr hm)).mpr
          ⟨.inr hnone, hfound, s, hs, hn⟩
        exact hmaster (hsafe.deleted n hdel).1
  · intro hharm
    obtain ⟨hcrash, hquiet⟩ := hharm m rfl hm
    -- the walk either crashed before it gave a command, or had no active replica to kill
    have hnone : errorLogged = false ∨ ¬ActiveReplica states (some m :: tail) vbucket zombies →
        ¬ActiveReplica states (some m :: tail) vbucket zombies := by
      rintro (hlog | h) hact
      · simp [hcrash hact] at hlog
      · exact h hact
    have hdeleted : ∀ n, .deleteVbucket n vbucket ∉
        (doSanifyChain errorLogged states (some m :: tail) future vbucket zombies).commands := by
      intro n hdel
      obtain ⟨hdone, hfound, s, hs, hn⟩ :=
        (deleteVbucket_mem_kept errorLogged future tail (.inr hm)).mp hdel
      exact hn ((hquiet (hnone hdone)).2 hfound n s hs)
    refine ⟨?_, fun n hdel => absurd hdel (hdeleted n)⟩
    rintro n (hkill | hdel) hact
    · exfalso
      rcases (setVbucket_mem_kept errorLogged future tail (.inr hm)).mp hkill with
        ⟨hlog, hn, hst⟩ | ⟨hdone, s, _, _, hn⟩
      · simp [hcrash ⟨n, hn, hst⟩] at hlog
      · exact hn ((hquiet (hnone hdone)).1 n hact)
    · exact absurd hdel (hdeleted n)

end

theorem safe_of_harmless {errorLogged : Bool} {states : States α} {chain : Chain α} {vbucket : ℕ}
    {zombies : List α} (h : Harmless errorLogged states chain vbucket zombies)
    (future : Chain α) :
    Safe states chain vbucket
      (doSanifyChain errorLogged states chain future vbucket zombies).commands := by
  match chain with
  | [] => constructor <;> simp [doSanifyChain]
  | none :: tail => constructor <;> simp [doSanifyChain, chainState]
  | some m :: tail =>
    by_cases hz : copyState states vbucket zombies m = .zombie
    · exact (safe_iff_of_zombie hz).mpr h
    by_cases ha : copyState states vbucket zombies m = .reported .active
    · exact safe_of_active ha
    have honly := doSanifyChain_of_other errorLogged future tail ha hz
    refine ⟨?_, ?_⟩
    · rintro n (hkill | hdel)
      · cases honly _ hkill
      · cases honly _ hdel
    · intro n hdel
      cases honly _ hdel

/-- The janitor never destroys the only active copy, exactly where a master of unknown state has no
copies next to it to kill or delete. -/
theorem doSanifyChain_safe_iff (errorLogged : Bool) (states : States α) (chain future : Chain α)
    (vbucket : ℕ) (zombies : List α) :
    Safe states chain vbucket
        (doSanifyChain errorLogged states chain future vbucket zombies).commands ↔
      Harmless errorLogged states chain vbucket zombies := by
  refine ⟨?_, fun h => safe_of_harmless h future⟩
  intro hsafe m hhead hz
  obtain ⟨tail, rfl⟩ : ∃ tail, chain = some m :: tail := by
    cases chain with
    | nil => simp at hhead
    | cons c tail =>
      obtain rfl : c = some m := by simpa using hhead
      exact ⟨tail, rfl⟩
  exact (safe_iff_of_zombie hz).mp hsafe m rfl hz

/-- Node 0 is master and active, node 1 is its replica, and node 2 still holds an active copy. -/
theorem doSanifyChain_safe_iff_activeMaster :
    let states : States ℕ := [(0, 7, .active), (1, 7, .replica), (2, 7, .active)]
    .deleteVbucket 2 7 ∈ (doSanifyChain true states [some 0, some 1] [] 7 []).commands ∧
      Safe states [some 0, some 1] 7
        (doSanifyChain true states [some 0, some 1] [] 7 []).commands := by
  intro states
  refine ⟨by decide, (doSanifyChain_safe_iff true states [some 0, some 1] [] 7 []).mpr ?_⟩
  intro m hhead hz
  obtain rfl : 0 = m := by simpa using hhead
  exact absurd hz (by decide)

/-- The master is down, its replica is in place, and the only active copy is on a node outside of
the chain: it is killed and deleted. -/
theorem zombie_master_loses_active : let states : States ℕ := [(1, 7, .replica), (2, 7, .active)]
    let out := doSanifyChain true states [some 0, some 1] [] 7 [0]
    out.commands = [.setVbucket 2 7 .dead, .deleteVbucket 2 7] ∧
      ¬Safe states [some 0, some 1] 7 out.commands := by
  intro states out
  refine ⟨by decide, ?_⟩
  intro hsafe
  obtain ⟨m, hhead, hact⟩ := hsafe.killed 2 (.inl (by decide)) (by decide)
  obtain rfl : 0 = m := by simpa using hhead
  exact absurd hact (by decide)

def Command.vbucket : Command α → ℕ
  | .setVbucket _ v _ => v
  | .deleteVbucket _ v => v
  | .killChildren _ v => v

theorem vbucket_of_mem_commands (errorLogged : Bool) (states : States α) (chain future : Chain α)
    (vbucket : ℕ) (zombies : List α) :
    ∀ c ∈ (doSanifyChain errorLogged states chain future vbucket zombies).commands,
      c.vbucket = vbucket := by
  intro c hc
  match chain with
  | [] => simp [doSanifyChain] at hc
  | none :: tail => simp [doSanifyChain, chainState] at hc
  | some m :: tail =>
    by_cases hm : copyState states vbucket zombies m = .reported .active ∨
        copyState states vbucket zombies m = .zombie
    · rw [doSanifyChain_of_kept errorLogged future tail hm] at hc
      rcases mem_append.mp hc with hc | hc
      · rcases mem_walkPairs hc with ⟨m', rfl⟩ | ⟨_, n, rfl, _⟩ <;> rfl
      · split_ifs at hc
        · obtain ⟨⟨n, s⟩, _, hc⟩ := mem_flatMap.mp hc
          unfold extraStep at hc
          split at hc <;> simp at hc
          · rw [hc]
            rfl
          · rcases hc with rfl | rfl <;> rfl
          · rw [hc]
            rfl
        · simp at hc
    · rw [not_or] at hm
      rw [doSanifyChain_of_other errorLogged future tail hm.1 hm.2 c hc]
      rfl

variable {chains : List (Chain α × Chain α)}

theorem mem_sanifyFrom {errorLogged : Bool} {states : States α} {zombies : List α} {v : ℕ}
    {c : Command α}
    (h : c ∈ (sanifyFrom errorLogged states zombies v chains).commands) :
    ∃ i, ∃ hi : i < chains.length, c.vbucket = v + i ∧
      c ∈ (doSanifyChain errorLogged states chains[i].1 chains[i].2 (v + i) zombies).commands := by
  induction chains generalizing v with
  | nil => simp [sanifyFrom] at h
  | cons p rest ih =>
    obtain ⟨chain, future⟩ := p
    have hhead : c ∈ (sanifyChain errorLogged states chain future v zombies).commands →
        ∃ i, ∃ hi : i < ((chain, future) :: rest).length, c.vbucket = v + i ∧
          c ∈ (doSanifyChain errorLogged states ((chain, future) :: rest)[i].1
            ((chain, future) :: rest)[i].2 (v + i) zombies).commands := by
      intro hc
      have hv := vbucket_of_mem_commands errorLogged states chain future v zombies c hc
      exact ⟨0, Nat.succ_pos _, hv, hc⟩
    rw [sanifyFrom] at h
    dsimp only at h
    cases hres : (sanifyChain errorLogged states chain future v zombies).result with
    | error e =>
      rw [hres] at h
      exact hhead h
    | ok ch =>
      rw [hres] at h
      rcases mem_append.mp h with h | h
      · exact hhead h
      · obtain ⟨i, hi, hv, hc⟩ := ih h
        have hidx : v + 1 + i = v + (i + 1) := by omega
        rw [hidx] at hv hc
        exact ⟨i + 1, Nat.succ_lt_succ hi, hv, hc⟩

theorem sanifyFrom_safe (errorLogged : Bool) (states : States α) (zombies : List α) {i : ℕ}
    (hi : i < chains.length)
    (h : Harmless errorLogged states chains[i].1 i zombies) :
    Safe states chains[i].1 i (sanifyFrom errorLogged states zombies 0 chains).commands := by
  have hsafe := safe_of_harmless h chains[i].2
  have hown : ∀ c ∈ (sanifyFrom errorLogged states zombies 0 chains).commands, c.vbucket = i →
      c ∈ (doSanifyChain errorLogged states chains[i].1 chains[i].2 i zombies).commands := by
    intro c hc hv
    obtain ⟨j, hj, hvj, hcj⟩ := mem_sanifyFrom hc
    obtain rfl : i = j := by omega
    simpa using hcj
  refine ⟨?_, ?_⟩
  · intro n hn
    exact hsafe.killed n (hn.imp (fun hc => hown _ hc rfl) fun hc => hown _ hc rfl)
  · intro n hn
    exact hsafe.deleted n (hown _ hn rfl)

/-- A pass over the map is safe for every vbucket whose chain is harmless. -/
theorem sanify_safe (errorLogged : Bool) (map ffMap : List (Chain α))
    (replies : List (α × Option (List (ℕ × VbState)))) (unreached downNodes : List α) {i : ℕ}
    (hi : i < map.length)
    (h : Harmless errorLogged (currentStates replies unreached).1 map[i] i
      ((currentStates replies unreached).2 ++ downNodes)) :
    Safe (currentStates replies unreached).1 map[i] i
      (sanify errorLogged map ffMap replies unreached downNodes).commands := by
  rw [sanify]
  set effective := if ffMap = [] then map.map fun _ => [] else ffMap
  split_ifs with hlen
  · have hzip : i < (map.zip effective).length := by
      rw [length_zip]
      omega
    have hchain : (map.zip effective)[i].1 = map[i] := by simp
    have hsafe := sanifyFrom_safe errorLogged (currentStates replies unreached).1
      ((currentStates replies unreached).2 ++ downNodes) hzip (by rwa [hchain])
    rwa [hchain] at hsafe
  · constructor <;> simp

/-- The copy on node 2 is deleted next to the active master, node 0. -/
theorem sanify_safe_stray :
    let replies := [(0, some [(0, .active)]), (1, some [(0, .replica)]), (2, some [(0, .active)])]
    let commands := (sanify true [[some 0, some 1]] [] replies [] [3]).commands
    .deleteVbucket 2 0 ∈ commands ∧
      Safe (currentStates replies []).1 [some 0, some 1] 0 commands := by
  intro replies commands
  refine ⟨by decide, sanify_safe true [[some 0, some 1]] [] replies [] [3] Nat.one_pos ?_⟩
  intro m hhead hz
  obtain rfl : 0 = m := by simpa using hhead
  exact absurd hz (by decide)

end Appstack.NsServer.Janitor
