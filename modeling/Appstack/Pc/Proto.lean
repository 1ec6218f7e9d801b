import Mathlib

-- `pc_proto.cpp`. UUIDs are numbered by their age, and the maps are ordered by that number. The
-- sequence of the messages being sent, the checksums and the log are left out, and so is
-- `requires_rtr`, whose result is not used.

namespace Appstack.Pc

abbrev Uuid := ℕ

inductive Fatal where
  | assertion
  | forbiddenTransition
  | corruptedView
  | invalidView
  | nonIncreasingView
  | selfNotFound
  | notFound
  | duplicate
  | conflictingPrims
  | inconsistentPrims
  | inconsistentToSeqs
  | installMismatch
  | messageGap
  | invalidInput
  deriving DecidableEq

inductive ViewType where
  | none
  | reg
  | trans
  | nonPrim
  | prim
  deriving DecidableEq

def ViewType.code : ViewType → ℤ
  | none => -1
  | reg => 0
  | trans => 1
  | nonPrim => 2
  | prim => 3

structure ViewId where
  type : ViewType
  uuid : Uuid
  seq : ℕ
  deriving DecidableEq

namespace ViewId

def nonPrim : ViewId := ⟨.nonPrim, 0, 0⟩

/-- The order of views: by sequence number, then the one of the older representative is
greater, then by type. -/
def key (v : ViewId) : ℕ ×ₗ ℕᵒᵈ ×ₗ ℤ := toLex (v.seq, toLex (OrderDual.toDual v.uuid, v.type.code))

theorem key_injective : Function.Injective key := by
  rintro ⟨t, u, s⟩ ⟨t', u', s'⟩ h
  have h := toLex.injective h
  obtain ⟨hs, h⟩ := Prod.mk.inj h
  obtain ⟨hu, ht⟩ := Prod.mk.inj (toLex.injective h)
  have hu : u = u' := OrderDual.toDual.injective hu
  subst hs hu
  cases t <;> cases t' <;> first | rfl | cases ht

instance : LinearOrder ViewId := LinearOrder.lift' key key_injective

end ViewId

structure View where
  bootstrap : Bool
  id : ViewId
  members : Finset Uuid
  left : Finset Uuid
  partitioned : Finset Uuid

namespace View

def of (id : ViewId) (members : Finset Uuid) : View := ⟨false, id, members, ∅, ∅⟩

def isEmpty (v : View) : Bool := v.id.uuid = 0 ∧ v.members = ∅

end View

/-- The weight of a node is unknown if it runs an old version. -/
structure Node where
  prim : Bool
  un : Bool
  lastSeq : UInt32
  lastPrim : ViewId
  toSeq : ℤ
  weight : Option ℕ
  deriving DecidableEq

def Node.init : Node := ⟨false, false, 0xffffffff, .nonPrim, -1, none⟩

abbrev Map (α : Type) := List (Uuid × α)

namespace Map

variable {α : Type}

def insertUnique (m : Map α) (u : Uuid) (a : α) : Except Fatal (Map α) :=
  if (m.lookup u).isSome then .error .duplicate
  else .ok (m.orderedInsert (fun x y => x.1 ≤ y.1) (u, a))

def findChecked (m : Map α) (u : Uuid) : Except Fatal α :=
  match m.lookup u with
  | none => .error .notFound
  | some a => .ok a

theorem findChecked_eq_ok {m : Map α} {u : Uuid} {a : α} :
    m.findChecked u = .ok a ↔ m.lookup u = some a := by
  unfold findChecked
  cases m.lookup u <;> simp

def update (m : Map α) (f : Uuid → α → α) : Map α := m.map fun e => (e.1, f e.1 e.2)

def modify (m : Map α) (u : Uuid) (f : α → α) : Map α :=
  m.update fun v a => if v = u then f a else a

end Map

theorem lookup_map_pair {α : Type*} (l : List Uuid) (f : Uuid → α) (u : Uuid) :
    (l.map fun v => (v, f v)).lookup u = if u ∈ l then some (f u) else none := by
  induction l with
  | nil => rfl
  | cons v l ih =>
    simp only [List.map_cons, List.lookup_cons, ih, List.mem_cons]
    by_cases h : u = v
    · simp [h]
    · have hbeq : (u == v) = false := by simpa using h
      simp [h, hbeq]

abbrev NodeMap := Map Node

inductive Message where
  | state (nodeMap : NodeMap)
  | install (bootstrap weightChange : Bool) (nodeMap : NodeMap)
  | user (seq : UInt32)
  deriving DecidableEq

namespace Message

def nodeMap : Message → NodeMap
  | state nm | install _ _ nm => nm
  | user _ => []

def node (m : Message) (u : Uuid) : Except Fatal Node := m.nodeMap.findChecked u

end Message

inductive State where
  | closed
  | statesExch
  | install
  | prim
  | trans
  | nonPrim
  deriving DecidableEq

structure Proto where
  uuid : Uuid
  startPrim : Bool
  /-- newer prim view overrides -/
  npvo : Bool
  ignoreSb : Bool
  ignoreQuorum : Bool
  closing : Bool
  state : State
  instances : NodeMap
  stateMsgs : Map Message
  currentView : View
  pcView : View

inductive Output where
  | send (m : Message)
  | deliverView (v : View)
  | deliver (source : Uuid) (toSeq : ℤ)

namespace Proto

/-- A new instance that has been told to connect, with the default settings. -/
def init (uuid : Uuid) (weight : Option ℕ) : Proto where
  uuid := uuid
  startPrim := false
  npvo := false
  ignoreSb := false
  ignoreQuorum := false
  closing := false
  state := .closed
  instances := [(uuid, { Node.init with weight := weight })]
  stateMsgs := []
  currentView := .of ⟨.none, 0, 0⟩ ∅
  pcView := .of .nonPrim ∅

def self (p : Proto) : Node := (p.instances.lookup p.uuid).getD Node.init

def modifySelf (p : Proto) (f : Node → Node) : Proto :=
  { p with instances := p.instances.modify p.uuid f }

def isPrimSelf (p : Proto) : Bool := p.self.prim

/-- Assumes that all nodes in the current view have reached the current sequence number. -/
def sendState (p : Proto) : Proto × List Output :=
  let nm := p.instances.update fun u node =>
    if u ∈ p.currentView.members then { node with toSeq := p.self.toSeq } else node
  ({ p with instances := nm }, [.send (.state nm)])

/-- The states that the members of the current view have sent of themselves. -/
def installMap (p : Proto) : Except Fatal NodeMap :=
  (p.stateMsgs.filter fun e => e.1 ∈ p.currentView.members).mapM fun e => do
    let node ← e.2.node e.1
    .ok (e.1, node)

def sendInstall (p : Proto) (bootstrap : Bool) (weight : Option ℕ) :
    Except Fatal (List Output) := do
  let nm ← p.installMap
  if bootstrap then .ok [.send (.install true false nm)]
  else
    match weight with
    | none => .ok [.send (.install false false nm)]
    | some w =>
      .ok [.send (.install false true (nm.modify p.uuid ({ · with weight := some w })))]

/-- Of the known nodes, those outside of the current view are partitioned. -/
def deliverView (p : Proto) (bootstrap : Bool) : List Output :=
  [.deliverView
    { bootstrap := bootstrap
      id := p.pcView.id
      members := p.currentView.members
      left := ∅
      partitioned := (p.instances.map Prod.fst).toFinset \ p.currentView.members }]

def knownMembers (p : Proto) : Finset Uuid :=
  (p.instances.map Prod.fst).toFinset ∩ p.currentView.members

def markNonPrim (p : Proto) : Proto :=
  { p with
    pcView := .of ⟨.nonPrim, p.currentView.id.uuid, p.currentView.id.seq⟩ p.knownMembers
    instances := p.instances.update fun u node =>
      if u ∈ p.currentView.members ∨ u = p.uuid then { node with prim := false } else node }

def primId (p : Proto) : ViewId := ⟨.prim, p.currentView.id.uuid, p.currentView.id.seq⟩

def markPrim (p : Proto) : Proto :=
  { p with
    pcView := .of p.primId p.knownMembers
    instances := p.instances.update fun u node =>
      if u ∈ p.currentView.members then
        { node with prim := true, lastPrim := p.primId, lastSeq := 0, toSeq := p.self.toSeq }
      else { node with prim := u = p.uuid } }

def allowed : State → State → Bool
  | .closed, .nonPrim => true
  | .statesExch, .closed | .statesExch, .install | .statesExch, .trans
  | .statesExch, .nonPrim => true
  | .install, .closed | .install, .prim | .install, .trans | .install, .nonPrim => true
  | .prim, .closed | .prim, .trans | .prim, .nonPrim => true
  | .trans, .closed | .trans, .statesExch | .trans, .nonPrim => true
  | .nonPrim, .closed | .nonPrim, .prim | .nonPrim, .trans | .nonPrim, .nonPrim => true
  | _, _ => false

def shiftTo (p : Proto) (s : State) : Except Fatal Proto :=
  if !allowed p.state s then .error .forbiddenTransition
  else
    let p := match s with
      | .statesExch => { p with stateMsgs := [] }
      | .prim => p.markPrim
      | .nonPrim => p.markNonPrim
      | _ => p
    .ok { p with state := s }

def connect (p : Proto) (first : Bool) : Except Fatal Proto :=
  { p with startPrim := first, closing := false }.shiftTo .nonPrim

/-- The weight of a node that is not found is zero. -/
def weightedSum (nodeList : Finset Uuid) (nodeMap : NodeMap) : ℕ :=
  ∑ u ∈ nodeList, ((nodeMap.lookup u).bind Node.weight).getD 0

def haveWeights (nodeList : Finset Uuid) (nodeMap : NodeMap) : Bool :=
  ∀ u ∈ nodeList, ∀ node ∈ nodeMap.lookup u, node.weight.isSome

/-- Without the weights of all nodes, the nodes are counted. -/
def haveQuorum (p : Proto) (view pcView : View) : Bool :=
  if haveWeights view.members p.instances ∧ haveWeights view.left p.instances ∧
      haveWeights pcView.members p.instances then
    weightedSum view.members p.instances * 2 + weightedSum view.left p.instances >
      weightedSum pcView.members p.instances
  else view.members.card * 2 + view.left.card > pcView.members.card

def haveSplitBrain (p : Proto) (view : View) : Bool :=
  if haveWeights view.members p.instances ∧ haveWeights view.left p.instances ∧
      haveWeights p.pcView.members p.instances then
    weightedSum view.members p.instances * 2 + weightedSum view.left p.instances =
      weightedSum p.pcView.members p.instances
  else view.members.card * 2 + view.left.card = p.pcView.members.card

def handleFirstTrans (p : Proto) (view : View) : Except Fatal (Proto × List Output) := do
  if p.state ≠ .nonPrim ∨ view.id.type ≠ .trans then .error .assertion
  let p ←
    if p.startPrim then
      if view.members.card > 1 ∨ view.isEmpty ∨ view.members ≠ {p.uuid} then .error .corruptedView
      else .ok (p.modifySelf fun node =>
        { node with lastPrim := ⟨.prim, view.id.uuid, view.id.seq⟩, prim := true })
    else .ok p
  let p ← { p with currentView := view }.shiftTo .trans
  .ok (p, [])

def handleTrans (p : Proto) (view : View) : Except Fatal (Proto × List Output) := do
  if view.id.type ≠ .trans ∨ view.id.uuid ≠ p.currentView.id.uuid ∨
      view.id.seq ≠ p.currentView.id.seq then .error .assertion
  if !p.haveQuorum view p.pcView ∧
      -- configured to ignore split brain, or lack of quorum
      ¬(!p.closing ∧ p.ignoreSb ∧ p.haveSplitBrain view) ∧ ¬(!p.closing ∧ p.ignoreQuorum) then
    let p := { p with currentView := view }.markNonPrim
    let p' ← p.shiftTo .trans
    .ok (p', p.deliverView false)
  else
    let p ← { p with currentView := view }.shiftTo .trans
    .ok (p, [])

def handleReg (p : Proto) (view : View) : Except Fatal (Proto × List Output) := do
  if view.id.type ≠ .reg ∨ p.state ≠ .trans then .error .assertion
  if !view.isEmpty ∧ view.id.seq ≤ p.currentView.id.seq then .error .nonIncreasingView
  let p := { p with currentView := view }
  if view.isEmpty then
    let p ← p.shiftTo .nonPrim
    let p' ← p.shiftTo .closed
    .ok (p', p.deliverView false)
  else
    let p ← p.shiftTo .statesExch
    .ok p.sendState

def handleView (p : Proto) (view : View) : Except Fatal (Proto × List Output) :=
  if view.id.type ≠ .trans ∧ view.id.type ≠ .reg then .error .invalidView
  else if !view.isEmpty ∧ p.uuid ∉ view.members then .error .selfNotFound
  else if view.id.type = .trans then
    if p.currentView.id.type = .none then p.handleFirstTrans view else p.handleTrans view
  else p.handleReg view

def ownStates (stateMsgs : Map Message) : Except Fatal (List (Uuid × Node)) :=
  stateMsgs.mapM fun e => do
    let node ← e.2.node e.1
    .ok (e.1, node)

/-- `-1` if there are no states -/
def getMaxToSeq (states : List Node) : ℤ := ((states.map Node.toSeq).max?).getD (-1)

/-- Backwards compatibility: an unknown weight is ignored. -/
def matchesLocal (msgState localState : Node) : Bool :=
  if msgState.weight = none then
    msgState.prim = localState.prim ∧ msgState.lastSeq = localState.lastSeq ∧
      msgState.lastPrim = localState.lastPrim ∧ msgState.toSeq = localState.toSeq
  else msgState = localState

/-- A state message that comes from the primary component as this node does has to agree with
the local state. -/
def validateStateMsgs (p : Proto) : Except Fatal Unit := do
  let states ← ownStates p.stateMsgs
  let maxToSeq := getMaxToSeq ((states.map Prod.snd).filter Node.prim)
  p.stateMsgs.forM fun e => do
    let source ← e.2.node e.1
    e.2.nodeMap.forM fun s => do
      let localState ← p.instances.findChecked s.1
      if p.isPrimSelf ∧ source.prim ∧ s.2.prim ∧ s.1 ∈ p.currentView.members then
        if !matchesLocal s.2 localState ∨ s.2.toSeq ≠ maxToSeq then .error .assertion

/-- Nodes outside of the view are forgotten, and none of it is unknown any more. -/
def cleanupInstances (p : Proto) : Except Fatal Proto :=
  if p.state ≠ .prim ∨ p.currentView.id.type ≠ .reg then .error .assertion
  else
    let present := p.instances.filter fun e => e.1 ∈ p.currentView.members
    .ok { p with instances := Map.update present fun _ node => { node with un := false } }

/-- The primary views that the members have recorded, for whichever node. -/
def lastPrimUuids (stateMsgs : Map Message) : List (ViewId × Uuid) :=
  (stateMsgs.flatMap fun e => e.2.nodeMap.map fun s => (s.2.lastPrim, s.1)).filter
    fun r => r.1 ≠ .nonPrim

/-- Whether the last known primary view can be recovered. -/
def canRebootstrap (p : Proto) : Bool :=
  -- nodes that are still in unknown state make it impossible
  if p.instances.any fun e => e.2.un ∧ e.1 ∉ p.currentView.members then false
  else
    match ((lastPrimUuids p.stateMsgs).map Prod.fst).max? with
    | none => false
    | some greatestViewId =>
      let greatestView := ((lastPrimUuids p.stateMsgs).filter (·.1 = greatestViewId)).map Prod.snd
      ∀ u ∈ greatestView, u ∈ p.currentView.members

def isPrim (p : Proto) : Except Fatal Bool := do
  let states ← ownStates p.stateMsgs
  match states.find? (·.2.prim) with
  | some first =>
    -- all members are either coming from the same prim view or from non-prim
    let prims := states.filter (·.2.prim)
    if ∃ s ∈ prims, s.2.lastPrim ≠ first.2.lastPrim then .error .inconsistentPrims
    else if ∃ s ∈ prims, s.2.toSeq ≠ first.2.toSeq then .error .inconsistentToSeqs
    else .ok true
  | none => .ok p.canRebootstrap

def mergeNode (source : Uuid) (instances : NodeMap) (s : Uuid × Node) : NodeMap :=
  match instances.lookup s.1 with
  | none => instances.orderedInsert (fun x y => x.1 ≤ y.1) s
  | some localNode =>
    instances.modify s.1 fun node =>
      let node :=
        -- the weight was not known, or the node reports another one of itself
        if localNode.weight = none ∧ s.2.weight ≠ none then { node with weight := s.2.weight }
        else if localNode.weight ≠ s.2.weight ∧ source = s.1 then
          { node with weight := s.2.weight }
        else node
      if s.2.un then { node with un := true } else node

def mergeStates (p : Proto) : Proto :=
  { p with instances := p.stateMsgs.foldl (fun instances e =>
      e.2.nodeMap.foldl (mergeNode e.1) instances) p.instances }

def finishExchange (p : Proto) : Except Fatal (Proto × List Output) := do
  let p := p.mergeStates
  p.validateStateMsgs
  let prim ← p.isPrim
  if prim then
    let p ← p.shiftTo .install
    -- the representative sends the install message
    if ∀ u ∈ p.currentView.members, p.uuid ≤ u then
      let out ← p.sendInstall false none
      .ok (p, out)
    else .ok (p, [])
  else
    let p ← p.shiftTo .nonPrim
    .ok (p, p.deliverView false)

def storeState (p : Proto) (nodeMap : NodeMap) (source : Uuid) :
    Except Fatal (Proto × List Output) := do
  let stateMsgs ← p.stateMsgs.insertUnique source (.state nodeMap)
  let p := { p with stateMsgs := stateMsgs }
  if stateMsgs.length = p.currentView.members.card then p.finishExchange else .ok (p, [])

def handleState (p : Proto) (nodeMap : NodeMap) (source : Uuid) :
    Except Fatal (Proto × List Output) := do
  if p.state ≠ .statesExch ∨ ¬p.stateMsgs.length < p.currentView.members.card then
    .error .assertion
  if p.isPrimSelf then
    let si ← nodeMap.findChecked source
    if si.prim ∧ si.lastPrim ≠ p.self.lastPrim then
      -- conflicting prims: the other one is discarded, or this one aborts
      if (p.npvo ∧ p.self.lastPrim < si.lastPrim) ∨
          (!p.npvo ∧ si.lastPrim < p.self.lastPrim) then .ok (p, [])
      else .error .conflictingPrims
    else p.storeState nodeMap source
  else p.storeState nodeMap source

/-- One turn of the loop over the states that come from prim: their sequence numbers have to
be the same. -/
def installStep (toSeq : ℤ) (node : Node) : Except Fatal ℤ :=
  if node.prim then
    if toSeq ≠ -1 ∧ node.toSeq ≠ toSeq then .error .inconsistentToSeqs
    else .ok (max toSeq node.toSeq)
  else .ok toSeq

/-- The sequence number that the new primary component starts with; if it was restored from
non-prims, the greatest one that is known. -/
def installToSeq (states : List Node) : Except Fatal ℤ := do
  let toSeq ← states.foldlM installStep (-1)
  .ok (if states.any Node.prim then toSeq else max toSeq (getMaxToSeq states))

def setWeightOf (p : Proto) (u : Uuid) (weight : Option ℕ) : Proto :=
  { p with instances := p.instances.modify u ({ · with weight := weight }) }

def setUn (p : Proto) (nodeMap : NodeMap) : Proto :=
  { p with instances := p.instances.update fun u node =>
      if (nodeMap.lookup u).isSome ∧ u ∉ p.currentView.members then { node with un := true }
      else node }

/-- An install message that is delivered in a transitional view: the partitioned nodes may
have installed the new component, so the quorum is computed against it, and they are marked
as unknown if it is lost. -/
def handleTransInstall (p : Proto) (bootstrap weightChange : Bool) (nodeMap : NodeMap)
    (source : Uuid) : Except Fatal (Proto × List Output) := do
  if p.currentView.id.type ≠ .trans then .error .assertion
  if bootstrap then .ok (p, [])
  else
    if !p.haveQuorum p.currentView p.pcView then .error .assertion
    if weightChange then
      if p.pcView.members ⊆ p.currentView.members ∪ p.currentView.left then
        let msgNode ← nodeMap.findChecked source
        .ok (p.setWeightOf source msgNode.weight, [])
      else
        -- what became of the message on the other side is not known
        let p := p.markNonPrim
        let p' := match nodeMap.lookup source with
          | some msgNode =>
            if source ∈ p.currentView.members then p else p.setWeightOf source msgNode.weight
          | none => p
        .ok (p'.setUn nodeMap, p.deliverView false)
    else
      let newPcView := View.of p.primId
        ((p.instances.map Prod.fst).toFinset ∩ (nodeMap.map Prod.fst).toFinset)
      if !p.haveQuorum p.currentView newPcView ∨ p.pcView.id.type = .nonPrim then
        let p := p.markNonPrim
        .ok (p.setUn nodeMap, p.deliverView false)
      else .ok (p, [])

def handleInstall (p : Proto) (bootstrap weightChange : Bool) (nodeMap : NodeMap)
    (source : Uuid) : Except Fatal (Proto × List Output) :=
  if p.state = .prim then
    if weightChange then do
      let msgNode ← nodeMap.findChecked source
      .ok (p.setWeightOf source msgNode.weight, [])
    else .ok (p, [])
  else if p.state = .trans then p.handleTransInstall bootstrap weightChange nodeMap source
  else if p.state ≠ .install ∧ p.state ≠ .nonPrim then .error .assertion
  else if bootstrap ∧ p.state = .install then .ok (p, [])
  else do
    let own ← nodeMap.findChecked p.uuid
    if !matchesLocal own p.self then .error .installMismatch
    let toSeq ← installToSeq (nodeMap.map Prod.snd)
    let p ← (p.modifySelf ({ · with toSeq := toSeq })).shiftTo .prim
    let out := p.deliverView bootstrap
    let p ← p.cleanupInstances
    .ok (p, out)

def handleUser (p : Proto) (seq : UInt32) (source : Uuid) (safe : Bool) :
    Except Fatal (Proto × List Output) := do
  if !p.isPrimSelf ∧ source ∉ p.currentView.members then
    if p.currentView.id.type ≠ .trans then .error .assertion else .ok (p, [])
  else
    let (p, toSeq) :=
      if p.isPrimSelf ∧ safe then
        (p.modifySelf fun node => { node with toSeq := node.toSeq + 1 }, p.self.toSeq + 1)
      else (p, -1)
    if safe then
      let node ← p.instances.findChecked source
      if node.lastSeq + 1 ≠ seq then .error .messageGap
      .ok ({ p with instances := p.instances.modify source ({ · with lastSeq := seq }) },
        [.deliver source toSeq])
    else .ok (p, [.deliver source toSeq])

/-- The verdict of `handle_msg` on a type of message: accepted, dropped, or fatal. -/
inductive Verdict where
  | accept
  | drop
  | fail

def verdict : State → Message → Verdict
  | .statesExch, .state _ => .accept
  | .install, .install _ _ _ => .accept
  | .prim, .install _ _ _ | .prim, .user _ => .accept
  | .trans, .state _ => .drop
  | .trans, .install _ _ _ | .trans, .user _ => .accept
  | .nonPrim, _ => .accept
  | _, _ => .fail

def handleMsg (p : Proto) (msg : Message) (source : Uuid) (safe : Bool) :
    Except Fatal (Proto × List Output) :=
  match verdict p.state msg with
  | .fail => .error .invalidInput
  | .drop => .ok (p, [])
  | .accept =>
    match msg with
    | .state nodeMap => p.handleState nodeMap source
    | .install bootstrap weightChange nodeMap =>
      p.handleInstall bootstrap weightChange nodeMap source
    | .user seq => p.handleUser seq source safe

inductive Input where
  | view (v : View)
  | msg (m : Message) (source : Uuid) (safe : Bool)

def handleUp (p : Proto) : Input → Except Fatal (Proto × List Output)
  | .view v => p.handleView v
  | .msg m source safe => p.handleMsg m source safe

/-- `pc.bootstrap` is ignored except in a non-primary component. -/
def setBootstrap (p : Proto) : Except Fatal (List Output) :=
  if p.state = .nonPrim then p.sendInstall true none else .ok []

end Proto

end Appstack.Pc
