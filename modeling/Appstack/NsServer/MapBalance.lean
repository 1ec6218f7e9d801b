import Mathlib

-- `mb_map.erl`. Nodes and `undefined` are atoms of one ordered type. A dictionary is the function of
-- its `fetch`; `lists:sort` is a stable merge sort.

namespace Appstack.NsServer.MapBalance

variable {α : Type*} [LinearOrder α]

abbrev Chain (α : Type*) := List α

inductive Fault
  | badarg | functionClause | badmatch
  deriving DecidableEq, Repr

def slavesLoop : List α → List α → ℕ → (α → Option (List α)) → α → Option (List α)
  | [], _, _, dict => dict
  | node :: nodes, rest, numSlaves, dict =>
    slavesLoop nodes (rest ++ [node]) numSlaves
      (Function.update dict node (some ((nodes ++ rest).take numSlaves)))

/-- The slaves of a node are the next ones in the list, which goes round. -/
def slaves (nodes : List α) (numSlaves : ℕ) : α → Option (List α) :=
  slavesLoop nodes [] numSlaves fun _ => none

/-- The counts of `chains`: under `{PrevNode, Turn}` the nodes that may follow, with how often each
was taken, and under `{total, Node, Turn}` how often a node was taken at all. -/
structure Counts (α : Type*) where
  nodeCounts : α → ℕ → Option (List (ℕ × α))
  total : α → ℕ → Option ℕ

def Counts.storeNodes (c : Counts α) (prev : α) (turn : ℕ) (l : List (ℕ × α)) : Counts α :=
  { c with
    nodeCounts := fun p t => if p = prev ∧ t = turn then some l else c.nodeCounts p t }

def Counts.updateTotal (c : Counts α) (node : α) (turn : ℕ) : Counts α :=
  { c with
    total := fun n t =>
      if n = node ∧ t = turn then some ((c.total n t).getD 0 + 1) else c.total n t }

def withTotal (counts : Counts α) (turn : ℕ) (e : ℕ × α) : Except Fault (ℕ ×ₗ ℕ ×ₗ α) :=
  match counts.total e.2 turn with
  | none => .error .badarg
  | some total => .ok (toLex (e.1, toLex (total, e.2)))

/-- The node with the lowest count, then the lowest total, then the first in the order of nodes. -/
def bestNode (nodeCounts : List (ℕ × α)) (turn : ℕ) (counts : Counts α) (blacklist : List α) :
    Except Fault (ℕ × α) := do
  let nodeCounts1 ← (nodeCounts.filter fun e => e.2 ∉ blacklist).mapM (withTotal counts turn)
  match nodeCounts1.min? with
  | none => .error .functionClause
  | some best => .ok ((ofLex best).1, (ofLex (ofLex best).2).2)

def takeTurn (counts : Counts α) (prevNode : α) (turn : ℕ) (chainReversed : List α) :
    Except Fault (α × Counts α) := do
  match counts.nodeCounts prevNode turn with
  | none => .error .badarg
  | some nodeCounts =>
    let (count, node) ← bestNode nodeCounts turn counts chainReversed
    let replaced := nodeCounts.replaceF fun e => if e.2 = node then some (count + 1, node) else none
    .ok (node, (counts.updateTotal node turn).storeNodes prevNode turn replaced)

/-- `chains2` with the number of turns left. -/
def chains2 (counts : Counts α) (prevNode : α) (turn : ℕ) :
    ℕ → List α → Except Fault (Chain α × Counts α)
  | 0, chainReversed => .ok (chainReversed.reverse, counts)
  | left + 1, chainReversed => do
    let (node, counts) ← takeTurn counts prevNode turn chainReversed
    chains2 counts node (turn + 1) left (node :: chainReversed)

def chains1 (undefined : α) (numCopies : ℕ) : Counts α → ℕ → Except Fault (List (Chain α))
  | _, 0 => .ok []
  | counts, numVBuckets + 1 => do
    let (chain, counts) ← chains2 counts undefined 1 numCopies []
    let rest ← chains1 undefined numCopies counts numVBuckets
    .ok (chain :: rest)

def initialCounts (undefined : α) (nodes : List α) (numCopies : ℕ) (slaves : α → Option (List α)) :
    Except Fault (Counts α) :=
  let counts1 : Counts α :=
    { nodeCounts := fun p t =>
        if p = undefined ∧ t = 1 then some (nodes.map fun n => (0, n)) else none
      total := fun n t => if n ∈ nodes ∧ 1 ≤ t ∧ t ≤ numCopies then some 0 else none }
  if numCopies = 0 then .error .functionClause
  else nodes.foldlM (fun d1 node =>
    (List.range' 2 (numCopies - 1)).foldlM (fun d2 turn =>
      match slaves node with
      | none => .error .badarg
      | some ns => .ok (d2.storeNodes node turn (ns.map fun n => (0, n)))) d1) counts1

def chains (undefined : α) (nodes : List α) (numVBuckets numCopies : ℕ)
    (slaves : α → Option (List α)) : Except Fault (List (Chain α)) := do
  let counts ← initialCounts undefined nodes numCopies slaves
  chains1 undefined numCopies counts numVBuckets

def listcmp : List α → List α → Ordering
  | h1 :: t1, h2 :: t2 => if h1 = h2 then listcmp t1 t2 else if h1 < h2 then .lt else .gt
  | _, _ => .eq

/-- The pairs of matching items of two sorted lists, and what is left of each. -/
def genmerge {γ δ : Type*} (cmp : γ → δ → Ordering) :
    List γ → List δ → List (γ × δ) × List γ × List δ
  | h1 :: t1, h2 :: t2 =>
    match cmp h1 h2 with
    | .lt =>
      let (r, r1, r2) := genmerge cmp t1 (h2 :: t2)
      (r, h1 :: r1, r2)
    | .eq =>
      let (r, r1, r2) := genmerge cmp t1 t2
      ((h1, h2) :: r, r1, r2)
    | .gt =>
      let (r, r1, r2) := genmerge cmp (h1 :: t1) t2
      (r, r1, h2 :: r2)
  | l1, l2 => ([], l1, l2)
termination_by l1 l2 => l1.length + l2.length

/-- A vbucket with its old chain, and the new chain it gets. -/
abbrev Pair (α : Type*) := (ℕ × Chain α) × Chain α

/-- `lists:nthtail` does not take more from a chain than it has. -/
def balance1 (numberedMap : List (ℕ × Chain α)) (sortedChains : List (Chain α)) (shift : ℕ) :
    Except Fault (List (Pair α) × List (ℕ × Chain α) × List (Chain α)) :=
  if numberedMap.any fun e => e.2.length < shift then .error .functionClause
  else
    let sortedMap := numberedMap.mergeSort fun a b => a.2.drop shift ≤ b.2.drop shift
    .ok (genmerge (fun e candidate => listcmp (e.2.drop shift) candidate) sortedMap sortedChains)

def mapStrip (undefined : α) (map : List (Chain α)) (numCopies : ℕ) (nodes : List α) :
    List (Chain α) :=
  map.map fun chain => (chain.take numCopies).map fun node =>
    if node ∈ nodes then node else undefined

/-- The rounds of `balance`, on ever shorter ends of the old chains. -/
def balanceRounds (numberedMap : List (ℕ × Chain α)) (sortedChains : List (Chain α))
    (numCopies : ℕ) : Except Fault (List (Pair α) × List (ℕ × Chain α) × List (Chain α)) :=
  (List.range (numCopies + 1)).foldlM (fun (r, m, c) shift => do
    let (r1, m1, c1) ← balance1 m c shift
    .ok (r1 ++ r, m1, c1)) ([], numberedMap, sortedChains)

/-- `maxSlaves` is the option `max_slaves`, if it is there. -/
def balance (undefined : α) (map : List (Chain α)) (keepNodes : List α) (maxSlaves : Option ℕ) :
    Except Fault (List (Chain α)) :=
  match map with
  | [] => .error .badarg
  | first :: _ => do
    let numNodes := keepNodes.length
    let origCopies := first.length
    let numCopies := min numNodes origCopies
    let map1 := mapStrip undefined map numCopies keepNodes
    let slaves := slaves keepNodes (maxSlaves.getD (numNodes - 1))
    let chains ← chains undefined keepNodes map.length numCopies slaves
    let numberedMap := (List.range map.length).zip map1
    match ← balanceRounds numberedMap (chains.mergeSort (· ≤ ·)) numCopies with
    | (pairs, [], []) =>
      let sorted := pairs.mergeSort fun p q => toLex (toLex p.1, p.2) ≤ toLex (toLex q.1, q.2)
      let map2 := sorted.map Prod.snd
      if numCopies < origCopies then
        .ok (map2.map (· ++ List.replicate (origCopies - numCopies) undefined))
      else .ok map2
    | _ => .error .badmatch

end Appstack.NsServer.MapBalance
