import Appstack.Lib.Dict
import Appstack.Lib.Machine
import Appstack.NsServer.Janitor

-- `ns_vbucket_mover.erl`.

namespace Appstack.NsServer.VbucketMover

open Appstack.Lib Janitor

variable {α : Type*}

structure Move (α : Type*) where
  vbucket : ℕ
  oldChain : Chain α
  newChain : Chain α
  deriving DecidableEq, Repr

/-- A mover: the master that the vbucket moves from, and the move. -/
abbrev Mover (α : Type*) := Option α × Move α

inductive ReplicaChange (α : Type*)
  | killReplica (src dst : α) (vbucket : ℕ)
  | addReplica (src dst : α) (vbucket : ℕ)
  deriving DecidableEq, Repr

/-- What the server does outside of itself. -/
inductive Action (α : Type*)
  | reportProgress (progress : Dict (Option α) ℚ)
  | applyChanges (changes : List (ReplicaChange α))
  | spawnMover (mover : Mover α)
  | setMap (map : List (Chain α))
  | deleteVbucket (node : α) (vbucket : ℕ)

inductive Fault
  | functionClause | badarg | badarith
  deriving DecidableEq, Repr

/-- `#state{}`, with the `replicas_changes` of the process dictionary. -/
structure State (α : Type*) where
  previousChanges : List (ReplicaChange α)
  initialCounts : Dict (Option α) ℕ
  maxPerNode : ℤ
  map : List (Chain α)
  moves : Dict (Option α) (List (Move α))
  movers : Dict (Option α) ℤ
  replicasChanges : List (ReplicaChange α)

variable [DecidableEq α] (o : Dict.Order (Option α))

def countTarget (d : Dict (Option α) ℕ) (m : Move α) : Except Fault (Dict (Option α) ℕ) :=
  match m.newChain with
  | [] => .error .functionClause
  | n :: _ => .ok (d.bump n)

def countMoves (moves : Dict (Option α) (List (Move α))) : Except Fault (Dict (Option α) ℕ) :=
  (moves.inOrder o).foldlM (fun d e => e.2.foldlM countTarget d)
    (moves.map fun _ ms => ms.length)

def planMove (d : Dict (Option α) (List (Move α))) (x : ℕ × Chain α × Chain α) :
    Except Fault (Dict (Option α) (List (Move α))) :=
  match x.2.1 with
  | [] => .error .functionClause
  | n :: _ =>
    if x.2.1 = x.2.2 then .ok d
    else .ok (d.append (n, ⟨x.1, x.2.1, x.2.2⟩))

def init (maxPerNode : ℤ) (oldMap newMap : List (Chain α)) : Except Fault (State α) := do
  if oldMap.length ≠ newMap.length then .error .functionClause
  else
    let moveDict ← ((List.range oldMap.length).zip (oldMap.zip newMap)).foldlM planMove ∅
    let counts ← countMoves o moveDict
    .ok ⟨[], counts, maxPerNode, oldMap, moveDict, moveDict.map fun _ _ => 0, []⟩

/-- `pairs`: the links of a chain between nodes that are defined. -/
def definedPairs (chain : Chain α) : List (α × α) :=
  (pairs chain).filterMap fun x =>
    match x with
    | (some s, some d) => some (s, d)
    | _ => none

def preMoveChanges (m : Move α) : List (ReplicaChange α) :=
  ((definedPairs m.oldChain).filter fun x => some x.2 ∈ m.newChain).map
    fun x => .killReplica x.1 x.2 m.vbucket

def postMoveChanges (m : Move α) : List (ReplicaChange α) :=
  (((definedPairs m.oldChain).filter fun x => some x.2 ∉ m.newChain).map
    fun x => .killReplica x.1 x.2 m.vbucket) ++
  (definedPairs m.newChain).map fun x => .addReplica x.1 x.2 m.vbucket

/-- The changes wait in reverse order, and go to `ns_vbm_sup` together. -/
def syncReplicas (changes : List (ReplicaChange α)) : List (Action α) :=
  match changes with
  | [] => []
  | _ => [.applyChanges changes.reverse]

/-- `report_progress`: the share of the moves of each node that have been started. -/
def reportProgress (s : State α) : Except Fault (Action α) := do
  let remaining ← countMoves o s.moves
  let progress ← (remaining.inOrder o).foldlM (fun (d : Dict (Option α) ℚ) e =>
    match s.initialCounts.lookup e.1 with
    | none => Except.error Fault.badarg
    | some total =>
      if total = 0 then .error .badarith
      else .ok (d.insert e.1 (1 - (e.2 : ℚ) / total))) ∅
  .ok (.reportProgress progress)

structure Spawned (α : Type*) where
  movers : Dict (Option α) ℤ
  moves : Dict (Option α) (List (Move α))
  replicasChanges : List (ReplicaChange α)
  actions : List (Action α)

def spawnMover (node : Option α) (w : Spawned α) (m : Move α) : Spawned α :=
  { w with
    replicasChanges := []
    actions := w.actions ++ syncReplicas ((preMoveChanges m).reverse ++ w.replicasChanges) ++
      [.spawnMover (node, m)] }

def spawnFrom (movers : Dict (Option α) ℤ) (maxPerNode : ℤ) (w : Spawned α)
    (e : Option α × List (Move α)) : Except Fault (Spawned α) :=
  match movers.lookup e.1 with
  | none => .error .badarg
  | some numWorkers =>
    if numWorkers < maxPerNode then
      let newMovers := e.2.take (maxPerNode - numWorkers).toNat
      let w := newMovers.foldl (spawnMover e.1) w
      .ok { w with
        movers := w.movers.insert e.1 (newMovers.length + numWorkers)
        moves := w.moves.insert e.1 (e.2.drop newMovers.length) }
    else .ok w

inductive Reply
  | noreply | stopNormal
  deriving DecidableEq, Repr

def spawnWorkers (s : State α) : Except Fault (Reply × State α × List (Action α)) := do
  let progress ← reportProgress o s
  let w ← (s.moves.inOrder o).foldlM (spawnFrom s.movers s.maxPerNode)
    ⟨s.movers, s.moves, s.replicasChanges, [progress]⟩
  let s := { s with movers := w.movers, moves := w.moves, replicasChanges := w.replicasChanges }
  let values := (w.movers.inOrder o).map Prod.snd
  if values.any (· ≠ 0) then .ok (.noreply, s, w.actions) else .ok (.stopNormal, s, w.actions)

def moveDone (s : State α) (x : Mover α) : Except Fault (Reply × State α × List (Action α)) :=
  match s.movers.lookup x.1 with
  | none => .error .badarg
  | some n =>
    if x.2.vbucket < s.map.length then do
      let map := s.map.set x.2.vbucket x.2.newChain
      let changes := (postMoveChanges x.2).reverse ++ s.replicasChanges
      let oldCopies := (x.2.oldChain.diff x.2.newChain).filterMap id
      let r ← spawnWorkers o
        { s with movers := s.movers.insert x.1 (n - 1), map, replicasChanges := [] }
      .ok (r.1, r.2.1, [.setMap map] ++ syncReplicas changes ++
        oldCopies.map (.deleteVbucket · x.2.vbucket) ++ r.2.2)
    else .error .badarg

inductive Event (α : Type*)
  | spawnInitial
  | moveDone (mover : Mover α)
  | maybeSyncChanges
  | logTapStats
  | exitNormal
  | exitFailed
  | unhandled
  deriving DecidableEq, Repr

inductive Status
  | running | stoppedNormal | failed
  deriving DecidableEq, Repr

/-- The server with the movers that it has spawned and that have not reported. -/
structure Rebalance (α : Type*) where
  server : State α
  status : Status
  /-- `spawn_initial` has been handled. -/
  spawned : Bool
  outstanding : List (Mover α)

def Action.mover? : Action α → Option (Mover α)
  | .spawnMover x => some x
  | _ => none

def Action.map? : Action α → Option (List (Chain α))
  | .setMap m => some m
  | _ => none

def Rebalance.reply (c : Rebalance α) :
    Reply × State α × List (Action α) → Rebalance α × List (Action α)
  | (r, s, as) =>
    ({ c with
        server := s
        status := match r with
          | .noreply => .running
          | .stopNormal => .stoppedNormal
        outstanding := c.outstanding ++ as.filterMap Action.mover? }, as)

/-- One message; a server that has stopped handles none. -/
def step (c : Rebalance α) (e : Event α) : Except Fault (Rebalance α × List (Action α)) :=
  match c.status with
  | .running =>
    match e with
    | .spawnInitial => do
      let r ← spawnWorkers o c.server
      .ok ({ c with spawned := true }.reply r)
    | .moveDone x => do
      let r ← moveDone o c.server x
      .ok ({ c with outstanding := c.outstanding.erase x }.reply r)
    | .maybeSyncChanges =>
      let changes := c.server.replicasChanges
      if changes = [] ∨ changes ≠ c.server.previousChanges then
        .ok ({ c with server := { c.server with previousChanges := changes } }, [])
      else
        .ok ({ c with server := { c.server with previousChanges := [], replicasChanges := [] } },
          syncReplicas changes)
    | .exitFailed => .ok ({ c with status := .failed }, [])
    | _ => .ok (c, [])
  | _ => .ok (c, [])

def start (s : State α) : Rebalance α := ⟨s, .running, false, []⟩

/-- A message that can come while no mover fails: `spawn_initial` is sent once, by `init`, and a
mover reports once, when it has been spawned. -/
def Possible (c : Rebalance α) : Event α → Prop
  | .spawnInitial => c.status = .running ∧ c.spawned = false
  | .moveDone x => c.status = .running ∧ x ∈ c.outstanding
  | .exitFailed => False
  | _ => c.status = .running

instance (c : Rebalance α) (e : Event α) : Decidable (Possible c e) :=
  match e with
  | .spawnInitial => inferInstanceAs (Decidable (_ ∧ _))
  | .moveDone _ => inferInstanceAs (Decidable (_ ∧ _))
  | .exitFailed => inferInstanceAs (Decidable False)
  | .maybeSyncChanges | .logTapStats | .exitNormal | .unhandled =>
    inferInstanceAs (Decidable (_ = _))

/-- The move of a vbucket, if its chain differs. -/
def moverOf (x : ℕ × Chain α × Chain α) : Option (Mover α) :=
  if x.2.1 = x.2.2 then none else some (x.2.1.head?.join, ⟨x.1, x.2.1, x.2.2⟩)

/-- The movers that have to run, in the order of the vbuckets. -/
def plan (oldMap newMap : List (Chain α)) : List (Mover α) :=
  ((List.range oldMap.length).zip (oldMap.zip newMap)).filterMap moverOf

/-- The map when the vbuckets `done` have been moved. -/
def mapAfter (oldMap newMap : List (Chain α)) (done : List ℕ) : List (Chain α) :=
  ((List.range oldMap.length).zip (oldMap.zip newMap)).map
    fun x => if x.1 ∈ done then x.2.2 else x.2.1

def spawnedMovers (os : List (List (Action α))) : List (Mover α) := os.flatten.filterMap Action.mover?

def publishedMaps (os : List (List (Action α))) : List (List (Chain α)) :=
  os.flatten.filterMap Action.map?

def reports (es : List (Event α)) : List (Mover α) :=
  es.filterMap fun e =>
    match e with
    | .moveDone x => some x
    | _ => none

end Appstack.NsServer.VbucketMover
