import Appstack.Couchstore.TreeFile

-- `btree_modify.c`. Linked lists are lists, and allocation succeeds. A file position is a natural
-- number that a node pointer keeps in 48 bits; `mr_quota` is a `size_t` and wraps around.

namespace Appstack.Couchstore

def chunkThreshold : ℕ := 1279

def chunkSize : ℕ := chunkThreshold * 2 / 3

inductive NodeType where
  | kp
  | kv
  deriving DecidableEq

def NodeType.toByte : NodeType → UInt8
  | .kp => 0
  | .kv => 1

/-- `nodelist`: an item of a node, with the pointer it encodes when the node is interior. -/
structure Item where
  key : Bytes
  data : Bytes
  pointer : Option NodePointer

def Item.size (i : Item) : ℕ := i.key.length + i.data.length + 5

/-- A reduce function and the room it has for its result (`reducebuf`). -/
structure ReduceFn where
  run : List Item → Bytes
  size_le : ∀ items, (run items).length ≤ 500

inductive ActionType (β : Type*) where
  | fetch (arg : β)
  | remove
  | insert (data : Bytes)

structure Action (β : Type*) where
  key : Bytes
  type : ActionType β

/-- `τ` is the memory that the fetch callback works on. -/
structure Request (τ β : Type*) where
  cmp : Bytes → Bytes → Ordering
  plat : Platform
  fetchCallback : Option (Bytes → Option Bytes → β → τ → τ)
  reduce : Option ReduceFn
  rereduce : Option ReduceFn
  compacting : Bool

/-- What a call works on: the file and the callback's memory. `failed` records that a
read or a write of a chunk has returned an error. -/
structure Env (τ : Type*) where
  file : TreeFile
  ctx : τ
  failed : Bool

structure Modres where
  values : List Item
  nodeLen : ℕ
  count : ℤ
  pointers : List Item
  modified : Bool
  nodeType : NodeType

def makeModres (nodeType : NodeType) : Modres where
  values := []
  nodeLen := 0
  count := 0
  pointers := []
  modified := false
  nodeType := nodeType

def encodePointer (ptr : NodePointer) : Item where
  key := ptr.key
  data := encodeRawPointer ptr
  pointer := some ptr

variable {τ β : Type*}

/-- The items that one flush writes. The quota is a `size_t`: an item larger than what
is left of it wraps it around to a large number. -/
def flushTake (nodeType : NodeType) : List Item → UInt64 → ℕ → List Item × List Item
  | [], _, _ => ([], [])
  | i :: is, mrQuota, itmcount =>
    if mrQuota > 0 ∨ itmcount < 2 ∧ nodeType = .kp then
      let (written, rest) := flushTake nodeType is (mrQuota - UInt64.ofNat i.size) (itmcount + 1)
      (i :: written, rest)
    else ([], i :: is)

def Request.reduceItems (rq : Request τ β) (nodeType : NodeType) (written : List Item) : Bytes :=
  match nodeType with
  | .kv => (rq.reduce.map fun f => f.run written).getD []
  | .kp => (rq.rereduce.map fun f => f.run written).getD []

def nodeBuf (nodeType : NodeType) (items : List Item) : Bytes :=
  nodeType.toByte :: items.flatMap fun i => writeKv i.key i.data

/-- Write a node with enough items from the values list to fill the quota, and add its
pointer to the pointers list. The count goes down even when the write fails. -/
def flushMrPartial (rq : Request τ β) (res : Modres) (mrQuota : UInt64) (env : Env τ) :
    Errcode × Modres × Env τ :=
  if res.values = [] ∨ res.modified = false then (.success, res, env)
  else
    let (written, rest) := flushTake res.nodeType res.values mrQuota 0
    let res := { res with count := res.count - written.length }
    let writebuf := nodeBuf res.nodeType written
    match dbWriteBufCompressed rq.plat writebuf env.file with
    | (.error e, file) => (e, res, { env with file := file, failed := true })
    | (.ok (diskpos, diskSize), file) =>
      let subtreesize := (written.filterMap fun i => i.pointer.map NodePointer.subtreesize).sum
      let ptr : NodePointer :=
        { key := (written.getLast?.map Item.key).getD []
          pointer := diskpos
          subtreesize := subtreesize + diskSize
          reduceValue := rq.reduceItems res.nodeType written }
      (.success, { res with
          pointers := res.pointers ++ [encodePointer ptr]
          nodeLen := res.nodeLen - (writebuf.length - 1)
          values := rest },
        { env with file := file })

def flushMr (rq : Request τ β) (res : Modres) (env : Env τ) : Errcode × Modres × Env τ :=
  flushMrPartial rq res (UInt64.ofNat res.nodeLen) env

def maybeFlush (rq : Request τ β) (mr : Modres) (env : Env τ) : Errcode × Modres × Env τ :=
  if rq.compacting then
    if mr.modified ∧ mr.nodeLen > chunkSize then flushMr rq mr env else (.success, mr, env)
  else if mr.modified ∧ mr.nodeLen > chunkThreshold ∧ mr.count > 3 then
    flushMrPartial rq mr (UInt64.ofNat chunkSize) env
  else (.success, mr, env)

def pushValue (rq : Request τ β) (i : Item) (dst : Modres) (env : Env τ) :
    Errcode × Modres × Env τ :=
  maybeFlush rq
    { dst with
      values := dst.values ++ [i]
      nodeLen := dst.nodeLen + i.size
      count := dst.count + 1 } env

def mrPushItem (rq : Request τ β) (k v : Bytes) (dst : Modres) (env : Env τ) :
    Errcode × Modres × Env τ :=
  pushValue rq { key := k, data := v, pointer := none } dst env

def mrPushPointerinfo (rq : Request τ β) (ptr : NodePointer) (dst : Modres) (env : Env τ) :
    Errcode × Modres × Env τ :=
  pushValue rq (encodePointer ptr) dst env

def moveLoop (rq : Request τ β) : List Item → Modres → Env τ → Errcode × Modres × Env τ
  | [], dst, env => (.success, dst, env)
  | ptr :: ptrs, dst, env =>
    let (errcode, dst, env) := pushValue rq ptr dst env
    if errcode = .success then moveLoop rq ptrs dst env else (errcode, dst, env)

def mrMovePointers (rq : Request τ β) (src dst : Modres) (env : Env τ) :
    Errcode × Modres × Modres × Env τ :=
  let (errcode, dst, env) := moveLoop rq src.pointers dst env
  (errcode, { src with pointers := [] }, dst, env)

def actAbsent (rq : Request τ β) (a : Action β) (res : Modres) (env : Env τ) :
    Modres × Env τ :=
  match a.type with
  | .insert data => (mrPushItem rq a.key data { res with modified := true } env).2
  | .remove => ({ res with modified := true }, env)
  | .fetch arg =>
    match rq.fetchCallback with
    | some cb => (res, { env with ctx := cb a.key none arg env.ctx })
    | none => (res, env)

/-- The inner loop of the leaf case: the actions up to one item. The flag is `advance`.
What `mr_push_item` returns is ignored. -/
def kvItem (rq : Request τ β) (k v : Bytes) :
    List (Action β) → Modres → Env τ → Modres × Env τ × List (Action β) × Bool
  | [], res, env => (res, env, [], false)
  | a :: acts, res, env =>
    match rq.cmp k a.key with
    | .lt =>
      let (_, res, env) := mrPushItem rq k v res env
      (res, env, a :: acts, true)
    | .gt =>
      let (res, env) := actAbsent rq a res env
      kvItem rq k v acts res env
    | .eq =>
      match a.type with
      | .insert data =>
        let (_, res, env) := mrPushItem rq a.key data { res with modified := true } env
        (res, env, acts, true)
      | .remove => ({ res with modified := true }, env, acts, true)
      | .fetch arg =>
        match rq.fetchCallback with
        | some cb => kvItem rq k v acts res { env with ctx := cb a.key (some v) arg env.ctx }
        | none => kvItem rq k v acts res env

def kvItems (rq : Request τ β) :
    List (Bytes × Bytes) → List (Action β) → Modres → Env τ → Modres × Env τ × List (Action β)
  | [], acts, res, env => (res, env, acts)
  | (k, v) :: items, acts, res, env =>
    let (res, env, acts, advance) := kvItem rq k v acts res env
    if acts.isEmpty ∧ advance = false then
      let (_, res, env) := mrPushItem rq k v res env
      kvItems rq items acts res env
    else kvItems rq items acts res env

def kvTail (rq : Request τ β) : List (Action β) → Modres → Env τ → Modres × Env τ
  | [], res, env => (res, env)
  | a :: acts, res, env =>
    let (res, env) := actAbsent rq a res env
    kvTail rq acts res env

def kpTail (rq : Request τ β) :
    List (Bytes × Bytes) → Modres → Env τ → Errcode × Modres × Env τ
  | [], res, env => (.success, res, env)
  | (k, v) :: items, res, env =>
    let (errcode, res, env) := mrPushPointerinfo rq (readPointer k v) res env
    if errcode = .success then kpTail rq items res env else (errcode, res, env)

/-- The items of an interior node. `descend` is `modify_node` one level down. The last
item takes all the actions that are left. -/
def kpItems (rq : Request τ β)
    (descend : NodePointer → List (Action β) → Modres → Env τ → Errcode × Modres × Env τ) :
    List (Bytes × Bytes) → List (Action β) → Modres → Env τ → Errcode × Modres × Env τ
  | items, [], res, env => kpTail rq items res env
  | [], _ :: _, res, env => (.success, res, env)
  | [(k, v)], a :: acts, res, env => descend (readPointer k v) (a :: acts) res env
  | (k, v) :: item :: items, a :: acts, res, env =>
    if rq.cmp k a.key = .lt then
      let (errcode, res, env) := mrPushPointerinfo rq (readPointer k v) res env
      if errcode = .success then kpItems rq descend (item :: items) (a :: acts) res env
      else (errcode, res, env)
    else
      let upTo := fun b : Action β => rq.cmp b.key k != .gt
      let (errcode, res, env) := descend (readPointer k v) ((a :: acts).takeWhile upTo) res env
      if errcode = .success then
        kpItems rq descend (item :: items) ((a :: acts).dropWhile upTo) res env
      else (errcode, res, env)

def finishNode (rq : Request τ β) (nptr : Option NodePointer) (localResult dst : Modres)
    (env : Env τ) : Errcode × Modres × Env τ :=
  let (errcode, localResult, env) := flushMr rq localResult env
  if errcode ≠ .success then (errcode, dst, env)
  else
    match localResult.modified, nptr with
    | false, some ptr =>
      let (_, dst, env) := mrPushPointerinfo rq ptr dst env
      (.success, dst, env)
    | _, _ =>
      let (errcode, _, dst, env) :=
        mrMovePointers rq localResult { dst with modified := true } env
      (errcode, dst, env)

/-- The leaf case of `modify_node`. A tree that is not there yet is a leaf without items. -/
def modifyLeaf (rq : Request τ β) (nptr : Option NodePointer) (items : List (Bytes × Bytes))
    (acts : List (Action β)) (dst : Modres) (env : Env τ) : Errcode × Modres × Env τ :=
  let (localResult, env, acts) := kvItems rq items acts (makeModres .kv) env
  let (localResult, env) := kvTail rq acts localResult env
  finishNode rq nptr localResult dst env

def modifyInterior (rq : Request τ β)
    (descend : NodePointer → List (Action β) → Modres → Env τ → Errcode × Modres × Env τ)
    (ptr : NodePointer) (items : List (Bytes × Bytes)) (acts : List (Action β)) (dst : Modres)
    (env : Env τ) : Errcode × Modres × Env τ :=
  let (errcode, localResult, env) := kpItems rq descend items acts (makeModres .kp) env
  if errcode ≠ .success then (errcode, dst, env)
  else finishNode rq (some ptr) localResult dst env

def modifyBody (rq : Request τ β)
    (descend : NodePointer → List (Action β) → Modres → Env τ → Errcode × Modres × Env τ)
    (nptr : Option NodePointer) (acts : List (Action β)) (dst : Modres) (env : Env τ) :
    Errcode × Modres × Env τ :=
  if acts.isEmpty then (.success, dst, env)
  else
    match nptr with
    | none => modifyLeaf rq none [] acts dst env
    | some ptr =>
      match preadCompressed rq.plat ptr.pointer env.file with
      | (.error _, file) => (.read, dst, { env with file := file, failed := true })
      | (.ok [], file) => (.corrupt, dst, { env with file := file })
      | (.ok (tag :: nodebuf), file) =>
        if tag = 1 then modifyLeaf rq (some ptr) (readItems nodebuf) acts dst { env with file := file }
        else if tag = 0 then
          modifyInterior rq descend ptr (readItems nodebuf) acts dst { env with file := file }
        else (.corrupt, dst, { env with file := file })

def modifyNode (rq : Request τ β) :
    ℕ → Option NodePointer → List (Action β) → Modres → Env τ → Errcode × Modres × Env τ
  | 0, _, _, dst, env => (.depth, dst, env)
  | fuel + 1, nptr, acts, dst, env =>
    modifyBody rq (fun desc => modifyNode rq fuel (some desc)) nptr acts dst env

def rootLoop (rq : Request τ β) :
    ℕ → Modres → Modres → Env τ → Errcode × Option NodePointer × Env τ
  | 0, _, _, env => (.depth, none, env)
  | fuel + 1, rootResult, collector, env =>
    match rootResult.pointers with
    | [i] => (.success, i.pointer, env)
    | _ =>
      let (errcode, rootResult, collector, env) := mrMovePointers rq rootResult collector env
      if errcode ≠ .success then (errcode, none, env)
      else
        let (errcode, collector, env) := flushMr rq collector env
        if errcode ≠ .success then (errcode, none, env)
        else rootLoop rq fuel collector rootResult env

/-- The result of the first flush is dropped. When it fails the values stay with the root
result, which is the collector of the second round and is flushed there again; the bound on
the rounds has room for that. -/
def finishRoot (rq : Request τ β) (rootResult : Modres) (env : Env τ) :
    Errcode × Option NodePointer × Env τ :=
  let collector := { makeModres .kp with modified := true }
  let (_, rootResult, env) := flushMr rq rootResult env
  rootLoop rq (rootResult.pointers.length + rootResult.values.length + 3) rootResult collector env

def modifyBtree (rq : Request τ β) (fuel : ℕ) (root : Option NodePointer)
    (acts : List (Action β)) (env : Env τ) : Errcode × Option NodePointer × Env τ :=
  let (errcode, rootResult, env) := modifyNode rq fuel root acts (makeModres .kp) env
  if errcode ≠ .success then (errcode, none, env)
  else if rootResult.modified then
    if rootResult.count > 1 ∨ rootResult.pointers ≠ [] then finishRoot rq rootResult env
    else (.success, rootResult.values.getLast?.bind Item.pointer, env)
  else (.success, root, env)

end Appstack.Couchstore
