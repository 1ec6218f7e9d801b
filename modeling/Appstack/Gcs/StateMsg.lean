import Mathlib

-- The quorum decision of `gcs_state_msg.c`. Messages are the parsed ones. Asserts and logging are left
-- out.

namespace Appstack.Gcs

abbrev Uuid := BitVec 128

/-- A C string without its terminating zero. -/
abbrev CString := List Char

def uuidNil : Uuid := 0

def seqnoIll : ℤ := -1

inductive NodeState where
  | nonPrim
  | prim
  | joiner
  | donor
  | joined
  | synced
  deriving DecidableEq

namespace NodeState

def code : NodeState → ℕ
  | nonPrim => 0
  | prim => 1
  | joiner => 2
  | donor => 3
  | joined => 4
  | synced => 5

def isJoined (st : NodeState) : Bool := donor.code ≤ st.code

end NodeState

/-- The three flags are the bits of `flags`: group representative, count last applied, and
part of a bootstrap. -/
structure StateMsg where
  stateUuid : Uuid
  groupUuid : Uuid
  primUuid : Uuid
  primSeqno : ℤ
  received : ℤ
  primJoined : ℤ
  primState : NodeState
  currentState : NodeState
  name : CString
  incAddr : CString
  version : ℤ
  gcsProtoVer : ℤ
  replProtoVer : ℤ
  applProtoVer : ℤ
  flagRep : Bool
  flagCla : Bool
  flagBootstrap : Bool
  deriving DecidableEq

def stateMsgVer : ℤ := 2

def protoInRange (v : ℤ) : Bool := 0 ≤ v ∧ v ≤ 255

structure Quorum where
  groupUuid : Uuid
  actId : ℤ
  confId : ℤ
  primary : Bool
  version : ℤ
  gcsProtoVer : ℤ
  replProtoVer : ℤ
  applProtoVer : ℤ

def Quorum.nonPrimary : Quorum := ⟨uuidNil, seqnoIll, seqnoIll, false, -1, -1, -1, -1⟩

inductive Rep where
  | null
  | bad
  | rep (s : StateMsg)
  deriving DecidableEq

/-- The message which is most representative of a group. -/
def stateNodesCompare (left right : StateMsg) : StateMsg :=
  if left.received < right.received then right
  else if left.received > right.received then left
  else if left.primSeqno < right.primSeqno then right
  else left

/-- One turn of the loop over the joined nodes after the first: nothing for conflicting
group UUIDs. -/
def inheritStep (rep s : StateMsg) : Option StateMsg :=
  if s.currentState.isJoined then
    if rep.groupUuid ≠ s.groupUuid then none else some (stateNodesCompare rep s)
  else some rep

def stateQuorumInherit (states : List StateMsg) : Rep :=
  match states.dropWhile (fun s => !s.currentState.isJoined) with
  | [] => .null
  | rep :: rest =>
    match rest.foldlM inheritStep rep with
    | none => .bad
    | some rep => .rep rep

structure Candidate where
  primUuid : Uuid
  stateUuid : Uuid
  stateSeqno : ℤ
  rep : StateMsg
  primJoined : ℤ
  found : ℕ

def stateMatchCandidate (s : StateMsg) (c : Candidate) (stateExchangeVersion : ℤ) : Bool :=
  if stateExchangeVersion = 0 then s.primUuid = c.primUuid
  else s.groupUuid = c.stateUuid ∧ s.received = c.stateSeqno

def Candidate.of (s : StateMsg) : Candidate :=
  ⟨s.primUuid, s.groupUuid, s.received, s, s.primJoined, 1⟩

def addCandidate (version : ℤ) (s : StateMsg) : List Candidate → List Candidate
  | [] => [Candidate.of s]
  | c :: cs =>
    if stateMatchCandidate s c version then
      { c with found := c.found + 1, rep := stateNodesCompare c.rep s } :: cs
    else c :: addCandidate version s cs

/-- A joiner always has an undefined state, whatever its primary state was. -/
def isCandidate (bootstrap : Bool) (s : StateMsg) : Bool :=
  if bootstrap then s.flagBootstrap
  else s.primState.isJoined ∧ s.currentState ≠ .joiner

def remergeCandidates (states : List StateMsg) (version : ℤ) (bootstrap : Bool) :
    List Candidate :=
  states.foldl (fun cs s => if isCandidate bootstrap s then addCandidate version s cs else cs) []

/-- `state_uuid` is the UUID of the first candidate throughout the loop. -/
def repCandidateStep (stateUuid : Uuid) (rep c : Candidate) : Option Candidate :=
  -- nodes with undefined state uuid were added to the group before and have clean state
  if c.stateUuid = uuidNil then some rep
  else if stateUuid ≠ uuidNil ∧ stateUuid ≠ c.stateUuid then none
  else if rep.stateSeqno < c.stateSeqno then some c
  else some rep

def stateRepCandidate : List Candidate → Option Candidate
  | [] => none
  | c :: cs => cs.foldlM (repCandidateStep c.stateUuid) c

def stateQuorumRemerge (states : List StateMsg) (version : ℤ) (bootstrap : Bool) : Rep :=
  match stateRepCandidate (remergeCandidates states version bootstrap) with
  | none => .null
  | some rc => .rep rc.rep

def commonVersion : List StateMsg → ℤ
  | [] => -1
  | s :: ss => ss.foldl (fun v s => if v > s.version then s.version else v) s.version

/-- The procedures are tried in turn; conflicting group UUIDs end the search. -/
def quorumRep (states : List StateMsg) : Rep :=
  match stateQuorumInherit states with
  | .null =>
    match stateQuorumRemerge states (commonVersion states) false with
    | .null => stateQuorumRemerge states (commonVersion states) true
    | r => r
  | r => r

def minProto (ver : StateMsg → ℤ) (rep : StateMsg) (states : List StateMsg) : ℤ :=
  states.foldl (fun v s => if ver s < v then ver s else v) (ver rep)

def getQuorum (states : List StateMsg) : Quorum :=
  let version := commonVersion states
  match quorumRep states with
  | .rep rep =>
    let repl := minProto StateMsg.replProtoVer rep states
    { groupUuid := rep.groupUuid
      actId := rep.received
      confId := rep.primSeqno
      primary := true
      version := version
      gcsProtoVer := minProto StateMsg.gcsProtoVer rep states
      replProtoVer := repl
      applProtoVer :=
        -- before version 1 it is not supported by all members
        if version < 1 then (if repl = 1 then 1 else 0)
        else minProto StateMsg.applProtoVer rep states }
  | _ => { Quorum.nonPrimary with version := version }

end Appstack.Gcs
