import Appstack.Lib.Machine
import Appstack.EpEngine.HashTable

-- The sending side of `tapconnection.cc`, and the walker in `ep_engine.cc` that drives it.

namespace Appstack.EpEngine

open Lib.Chains

inductive VBucketState
  | active | replica | pending | dead
  deriving DecidableEq, Repr

inductive OpaqueCommand
  | enableAutoNack | initialVbucketStream | enableCheckpointSync | openCheckpoint
  | startOnlineUpdate | stopOnlineUpdate | revertOnlineUpdate | closeTapStream | closeBackfill
  deriving DecidableEq, Repr

inductive TapBody (κ : Type)
  | item (key : κ) (op : QueueOperation)
  | checkpoint (start : Bool) (id : BitVec 64)
  | vbucketSet (state : VBucketState)
  | opaqueMsg (command : OpaqueCommand)
  deriving DecidableEq, Repr

/-- A `queued_item` or a `TapVBucketEvent`. `tag` tells apart messages of equal contents. -/
structure TapMessage (κ : Type) where
  tag : ℕ
  vbucket : BitVec 16
  body : TapBody κ
  deriving DecidableEq, Repr

structure TapLogElement (κ : Type) where
  seqno : BitVec 32
  message : TapMessage κ
  deriving DecidableEq, Repr

inductive TapCheckpointPhase
  | backfill | checkpointStart | checkpointEnd | checkpointEndSynced
  deriving DecidableEq, Repr

structure TapCheckpointState where
  lastSeqNum : BitVec 32
  lastItem : Bool
  state : TapCheckpointPhase
  deriving DecidableEq, Repr

/-- What is fixed when the connection is made. -/
structure TapConfig where
  vbucketFilter : BitVec 16 → Bool
  supportAck : Bool
  supportCheckpointSync : Bool
  registeredTAPClient : Bool
  closedCheckpointOnly : Bool
  initialAckSequenceNumber : BitVec 32

/-- `TapProducer`. `bgJobs` holds the background fetches that were issued and did not complete. -/
structure TapProducer (κ : Type) where
  queue : List (TapMessage κ)
  checkpointMsgs : List (TapMessage κ)
  vBucketHighPriority : List (TapMessage κ)
  vBucketLowPriority : List (TapMessage κ)
  bgJobs : List (TapMessage κ)
  backfilledItems : List (TapMessage κ)
  tapLog : List (TapLogElement κ)
  seqno : BitVec 32
  seqnoReceived : BitVec 32
  isSeqNumRotated : Bool
  isLastAckSucceed : Bool
  checkpointMsgCounter : ℤ
  opaqueMsgCounter : ℤ
  tapCheckpointState : BitVec 16 → Option TapCheckpointState

inductive TapFault
  | assertion | abort
  deriving DecidableEq, Repr

variable {κ : Type}

namespace TapMessage

def counts (m : TapMessage κ) : Bool :=
  match m.body with
  | .opaqueMsg _ => false
  | _ => true

/-- The opaque messages that are sent whatever their vbucket is. -/
def unfiltered (m : TapMessage κ) : Bool :=
  match m.body with
  | .opaqueMsg .enableAutoNack | .opaqueMsg .enableCheckpointSync | .opaqueMsg .closeBackfill =>
    true
  | _ => false

def isItem (m : TapMessage κ) : Bool :=
  match m.body with
  | .item _ _ => true
  | _ => false

end TapMessage

namespace TapProducer

def new (cfg : TapConfig) (states : BitVec 16 → Option TapCheckpointState) : TapProducer κ where
  queue := []
  checkpointMsgs := []
  vBucketHighPriority := []
  vBucketLowPriority := []
  bgJobs := []
  backfilledItems := []
  tapLog := []
  seqno := cfg.initialAckSequenceNumber
  seqnoReceived := cfg.initialAckSequenceNumber - 1
  isSeqNumRotated := false
  isLastAckSucceed := false
  checkpointMsgCounter := 0
  opaqueMsgCounter := 0
  tapCheckpointState := states

def updateState (p : TapProducer κ) (vb : BitVec 16)
    (f : TapCheckpointState → TapCheckpointState) : TapProducer κ :=
  { p with tapCheckpointState :=
      Function.update p.tapCheckpointState vb ((p.tapCheckpointState vb).map f) }

def addEvent (cfg : TapConfig) (p : TapProducer κ) (m : TapMessage κ) : TapProducer κ :=
  if cfg.vbucketFilter m.vbucket then { p with queue := p.queue ++ [m] } else p

def addCheckpointMessage (p : TapProducer κ) (m : TapMessage κ) : TapProducer κ :=
  { p with checkpointMsgs := p.checkpointMsgs ++ [m] }

def addVBucketHighPriority (p : TapProducer κ) (m : TapMessage κ) : TapProducer κ :=
  { p with vBucketHighPriority := p.vBucketHighPriority ++ [m] }

def addVBucketLowPriority (p : TapProducer κ) (m : TapMessage κ) : TapProducer κ :=
  { p with vBucketLowPriority := p.vBucketLowPriority ++ [m] }

def addTapLogElement (cfg : TapConfig) (p : TapProducer κ) (m : TapMessage κ) : TapProducer κ :=
  if cfg.supportAck then { p with tapLog := p.tapLog ++ [⟨p.seqno, m⟩] } else p

def requestAck (cfg : TapConfig) (p : TapProducer κ) (m : TapMessage κ) : TapProducer κ :=
  if cfg.supportAck then
    let p :=
      if cfg.supportCheckpointSync && m.isItem then
        p.updateState m.vbucket fun st => { st with lastSeqNum := p.seqno }
      else p
    let seqno := p.seqno + 1
    if seqno = 0 then { p with isSeqNumRotated := true, seqno := 1 }
    else { p with seqno := seqno }
  else p

/-- What `next` does with the item that the cursor of a vbucket gives. -/
def refill (cfg : TapConfig) (p : TapProducer κ) (m : TapMessage κ) (isLastItem : Bool) :
    TapProducer κ :=
  match m.body with
  | .item _ _ =>
    (p.updateState m.vbucket fun st =>
      { st with lastItem := cfg.supportCheckpointSync && isLastItem }).addEvent cfg m
  | .checkpoint true _ =>
    if cfg.supportCheckpointSync then
      (p.updateState m.vbucket fun st => { st with state := .checkpointStart })
        |>.addCheckpointMessage m
    else p
  | .checkpoint false _ =>
    if cfg.supportCheckpointSync then
      let q := p.updateState m.vbucket fun st => { st with state := .checkpointEnd }
      let seqnoAcked :=
        if q.seqnoReceived = 0 then 0
        else if q.isLastAckSucceed then q.seqnoReceived else q.seqnoReceived - 1
      -- otherwise the cursor goes back, to give the end of the checkpoint again
      if ((p.tapCheckpointState m.vbucket).map (·.lastSeqNum)).getD 0 ≤ seqnoAcked then
        q.addCheckpointMessage m
      else q
    else p
  | .opaqueMsg _ => p.addVBucketHighPriority m
  | .vbucketSet _ => p

inductive Lookup
  | success | keyEnoent | ewouldblock | notMyVbucket | failed
  deriving DecidableEq, Repr

inductive Fetch
  | fetched | deleted | again | noVBucket
  deriving DecidableEq, Repr

def completeBGFetchJob (cfg : TapConfig) (p : TapProducer κ) (m : TapMessage κ) : TapProducer κ :=
  if cfg.vbucketFilter m.vbucket then { p with backfilledItems := p.backfilledItems ++ [m] } else p

def bgFetch (cfg : TapConfig) (p : TapProducer κ) (i : ℕ) (r : Fetch) : TapProducer κ :=
  match p.bgJobs[i]? with
  | none => p
  | some m =>
    let q := { p with bgJobs := p.bgJobs.eraseIdx i }
    match r with
    | .fetched => q.completeBGFetchJob cfg m
    | .deleted =>
      match m.body with
      | .item key _ => q.addEvent cfg { m with body := .item key .del }
      | _ => q
    | .again => p
    | .noVBucket => q

def sendNext (cfg : TapConfig) (p : TapProducer κ) (m : TapMessage κ) :
    TapProducer κ × Option (TapMessage κ) :=
  ((p.addTapLogElement cfg m).requestAck cfg m, some m)

def nextVBucketHighPriority (cfg : TapConfig) (p : TapProducer κ) :
    TapProducer κ × Option (TapMessage κ) :=
  match p.vBucketHighPriority.dropWhile
      fun m => !(m.unfiltered || cfg.vbucketFilter m.vbucket) with
  | [] => ({ p with vBucketHighPriority := [] }, none)
  | m :: rest =>
    let p := { p with
      vBucketHighPriority := rest
      opaqueMsgCounter := if m.counts then p.opaqueMsgCounter else p.opaqueMsgCounter + 1
      seqno := p.seqno + 1 }
    (p.addTapLogElement cfg m, some m)

def nextVBucketLowPriority (cfg : TapConfig) (p : TapProducer κ) :
    TapProducer κ × Option (TapMessage κ) :=
  match p.vBucketLowPriority with
  | [] => (p, none)
  | m :: rest =>
    let p := { p with vBucketLowPriority := rest }
    if cfg.vbucketFilter m.vbucket then
      (addTapLogElement cfg { p with seqno := p.seqno + 1 } m, some m)
    else p.nextVBucketHighPriority cfg

def nextCheckpointMessage (cfg : TapConfig) (p : TapProducer κ) :
    TapProducer κ × Option (TapMessage κ) :=
  match p.checkpointMsgs.dropWhile fun m => !cfg.vbucketFilter m.vbucket with
  | [] => ({ p with checkpointMsgs := [] }, none)
  | m :: rest =>
    let p := { p with
      checkpointMsgs := rest, checkpointMsgCounter := p.checkpointMsgCounter + 1 }
    (p.addTapLogElement cfg m, some m)

def walkTaken (cfg : TapConfig) (r : TapProducer κ × Option (TapMessage κ)) :
    TapProducer κ × Option (TapMessage κ) :=
  match r with
  | (p, none) => (p, none)
  | (p, some m) => (p.requestAck cfg m, some m)

def walkFetched (cfg : TapConfig) (p : TapProducer κ) (deleted : Bool) :
    TapProducer κ × Option (TapMessage κ) :=
  match p.backfilledItems with
  | [] => (p, none)
  | m :: rest =>
    let p := { p with backfilledItems := rest }
    match m.body with
    | .item key _ =>
      let m := { m with body := .item key (if deleted then .del else .set) }
      if cfg.vbucketFilter m.vbucket then p.sendNext cfg m else (p, none)
    | _ => (p, none)

/-- The walker takes an item with `next`. Where the item cannot be made into a message it is gone
from the queue. -/
def walkQueued (cfg : TapConfig) (p : TapProducer κ) (r : Lookup) (allocated : Bool) :
    TapProducer κ × Option (TapMessage κ) :=
  match p.queue with
  | [] => (p, none)
  | m :: rest =>
    let p := { p with queue := rest }
    match m.body with
    | .item _ .set =>
      match r with
      | .success | .keyEnoent => p.sendNext cfg m
      | .ewouldblock => ({ p with bgJobs := p.bgJobs ++ [m] }, none)
      | .notMyVbucket | .failed => (p, none)
    | .item _ .del => if allocated then p.sendNext cfg m else (p, none)
    | _ => (p, none)

/-- The walker takes a message of low priority. Behind other messages that wait for their
acknowledgement it is taken back from the log and queued again. -/
def walkLow (cfg : TapConfig) (p : TapProducer κ) :
    Except TapFault (TapProducer κ × Option (TapMessage κ)) :=
  match p.nextVBucketLowPriority cfg with
  | (p, none) => .ok (p, none)
  | (p, some m) =>
    match m.body with
    | .vbucketSet _ =>
      if 1 < p.tapLog.length then
        .ok ({ p with tapLog := p.tapLog.dropLast }.addVBucketLowPriority
          { m with body := .vbucketSet .active }, some m)
      else .ok (p.requestAck cfg m, some m)
    | _ => .error .assertion

def reschedule (cfg : TapConfig) (p : TapProducer κ) (m : TapMessage κ) : TapProducer κ :=
  match m.body with
  | .vbucketSet .pending => p.addVBucketHighPriority m
  | .vbucketSet _ => p.addVBucketLowPriority m
  | .checkpoint _ _ =>
    { p with checkpointMsgCounter := p.checkpointMsgCounter - 1 }.addCheckpointMessage m
  | .item _ _ =>
    (if cfg.supportCheckpointSync then
      p.updateState m.vbucket fun st => { st with lastSeqNum := BitVec.allOnes 32 }
    else p).addEvent cfg m
  | .opaqueMsg _ =>
    { p with opaqueMsgCounter := p.opaqueMsgCounter - 1 }.addVBucketHighPriority m

def clearQueues (p : TapProducer κ) : TapProducer κ :=
  { p with
    queue := [], backfilledItems := [], checkpointMsgs := [], vBucketHighPriority := []
    vBucketLowPriority := [] }

def rollbackElement (cfg : TapConfig) (p : TapProducer κ) (e : TapLogElement κ) :
    Except TapFault (TapProducer κ) :=
  match e.message.body with
  | .opaqueMsg .closeTapStream => .error .abort
  | _ => .ok (p.reschedule cfg e.message)

def rollback (cfg : TapConfig) (p : TapProducer κ) : Except TapFault (TapProducer κ) :=
  if cfg.registeredTAPClient && cfg.closedCheckpointOnly then
    .ok { p.clearQueues with
      tapLog := []
      seqno := cfg.initialAckSequenceNumber
      seqnoReceived := cfg.initialAckSequenceNumber - 1
      checkpointMsgCounter := 0 }
  else do
    let p ← p.tapLog.foldlM (rollbackElement cfg) { p with tapLog := [] }
    .ok { p with seqnoReceived := p.seqno - 1 }

def ackSuccess : BitVec 16 := 0x00

def ackTemporary (status : BitVec 16) : Bool := status == 0x85 || status == 0x86

def acknowledged (cfg : TapConfig) (p : TapProducer κ) (m : TapMessage κ) : TapProducer κ :=
  match m.body with
  | .checkpoint start _ =>
    if cfg.supportCheckpointSync then
      let p := { p with checkpointMsgCounter := p.checkpointMsgCounter - 1 }
      if start then p
      else p.updateState m.vbucket fun st => { st with state := .checkpointEndSynced }
    else p
  | .opaqueMsg _ => { p with opaqueMsgCounter := p.opaqueMsgCounter - 1 }
  | _ => p

/-- The sequence number that the peer answers is noted, and the numbers of a time before the last
rotation are forgotten. -/
def received (p : TapProducer κ) (s : BitVec 32) : TapProducer κ :=
  let p :=
    if p.isSeqNumRotated && s < p.seqnoReceived then
      { p with
        tapCheckpointState := fun vb =>
          (p.tapCheckpointState vb).map fun st => { st with lastSeqNum := 0 }
        isSeqNumRotated := false }
    else p
  { p with seqnoReceived := s, isLastAckSucceed := false }

/-- `processAck`, with the messages that the answer acknowledges: the first one logged with the
number `s` and those before it. One that is refused for a time is queued again, and one that is
refused for good stays in the log. -/
def processAck (cfg : TapConfig) (p : TapProducer κ) (s : BitVec 32) (status : BitVec 16) :
    TapProducer κ × List (TapMessage κ) :=
  let p := p.received s
  match split TapLogElement.seqno s p.tapLog with
  | some (before, e, after) =>
    let acked := before.map TapLogElement.message
    if status = ackSuccess then
      ({ p.acknowledged cfg e.message with tapLog := after, isLastAckSucceed := true },
        acked ++ [e.message])
    else if ackTemporary status then
      ({ p.reschedule cfg e.message with tapLog := after }, acked)
    else ({ p with tapLog := e :: after }, [])
  | none =>
    if status = ackSuccess then (p, [])
    else ({ p with tapLog := [] }, [])

/-- The calls on a producer. Which of them the walker comes to first is left open. -/
inductive Call (κ : Type)
  | addEvent (m : TapMessage κ)
  | refill (m : TapMessage κ) (isLastItem : Bool)
  | takeOver (tag tag' : ℕ) (vbucket : BitVec 16)
  | addOpaque (tag : ℕ) (vbucket : BitVec 16) (command : OpaqueCommand)
  | backfilled (m : TapMessage κ)
  | bgFetch (i : ℕ) (r : Fetch)
  | walkHigh | walkCheckpoint
  | walkFetched (deleted : Bool)
  | walkQueued (r : Lookup) (allocated : Bool)
  | walkLow
  | processAck (s : BitVec 32) (status : BitVec 16)
  | rollback

/-- What a call logs and what it takes as acknowledged. -/
structure Output (κ : Type) where
  logged : Option (TapMessage κ)
  acked : List (TapMessage κ)

def quiet (p : TapProducer κ) : TapProducer κ × Output κ := (p, ⟨none, []⟩)

def walked (r : TapProducer κ × Option (TapMessage κ)) : TapProducer κ × Output κ :=
  (r.1, ⟨r.2, []⟩)

def waitForCheckpointMsgAck (cfg : TapConfig) (p : TapProducer κ) : Bool :=
  cfg.supportAck && 0 < p.checkpointMsgCounter

def waitForOpaqueMsgAck (cfg : TapConfig) (p : TapProducer κ) : Bool :=
  cfg.supportAck && 0 < p.opaqueMsgCounter

/-- Where `doWalkTapQueue` returns before it comes to the call. -/
def pauses (cfg : TapConfig) (p : TapProducer κ) : Call κ → Bool
  | .walkCheckpoint | .walkFetched _ | .walkLow => p.waitForOpaqueMsgAck cfg
  | .walkQueued _ _ => p.waitForOpaqueMsgAck cfg || p.waitForCheckpointMsgAck cfg
  | _ => false

def take (cfg : TapConfig) (p : TapProducer κ) :
    Call κ → Except TapFault (TapProducer κ × Output κ)
  | .addEvent m => .ok (quiet (if m.isItem then p.addEvent cfg m else p))
  | .refill m isLastItem => .ok (quiet (p.refill cfg m isLastItem))
  | .takeOver tag tag' vb =>
    -- `setVBucketFilter` goes over the vbuckets of the filter
    .ok (quiet (if cfg.vbucketFilter vb then
      (p.addVBucketHighPriority ⟨tag, vb, .vbucketSet .pending⟩).addVBucketLowPriority
        ⟨tag', vb, .vbucketSet .active⟩ else p))
  | .addOpaque tag vb command =>
    .ok (quiet (p.addVBucketHighPriority ⟨tag, vb, .opaqueMsg command⟩))
  | .backfilled m => .ok (quiet (if m.isItem then p.completeBGFetchJob cfg m else p))
  | .bgFetch i r => .ok (quiet (p.bgFetch cfg i r))
  | .walkHigh => .ok (walked (walkTaken cfg (p.nextVBucketHighPriority cfg)))
  | .walkCheckpoint => .ok (walked (walkTaken cfg (p.nextCheckpointMessage cfg)))
  | .walkFetched deleted => .ok (walked (p.walkFetched cfg deleted))
  | .walkQueued r allocated => .ok (walked (p.walkQueued cfg r allocated))
  | .walkLow => (p.walkLow cfg).map walked
  | .processAck s status =>
    let (p, acked) := p.processAck cfg s status
    .ok (p, ⟨none, acked⟩)
  | .rollback => (p.rollback cfg).map quiet

def step (cfg : TapConfig) (p : TapProducer κ) (c : Call κ) :
    Except TapFault (TapProducer κ × Output κ) :=
  if p.pauses cfg c then .ok (quiet p) else p.take cfg c

end TapProducer

end Appstack.EpEngine
