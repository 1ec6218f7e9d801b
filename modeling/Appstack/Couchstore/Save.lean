import Appstack.Couchstore.Compare
import Appstack.Couchstore.DocInfo
import Appstack.Lib.SortedMap

-- `couch_save.c`. Allocation succeeds. `qsort` is a sort by the same comparison; under the invariants
-- of a database no two keys of a batch are equal, so that every sort gives the same list.

namespace Appstack.Couchstore
open SortedMap

/-- `failed` records that a read or a write has returned an error. -/
structure Db where
  file : TreeFile
  failed : Bool
  updateSeq : ℕ
  byIdRoot : Option NodePointer
  bySeqRoot : Option NodePointer

def couchDocIsCompressed : UInt8 := 128

def writeDoc (plat : Platform) (data : Bytes) (compressDocBodies : Bool) (file : TreeFile) :
    Except Errcode (ℕ × ℕ) × TreeFile :=
  if compressDocBodies then dbWriteBufCompressed plat data file else dbWriteBuf plat data file

structure UpdateItem where
  seqterm : Bytes
  idterm : Bytes
  seqval : Bytes
  idval : Bytes

def updateItem (updated : DocInfo) : UpdateItem where
  seqterm := encodeRaw48 updated.dbSeq
  idterm := updated.id
  seqval := assembleSeqIndexValue updated
  idval := assembleIdIndexValue updated

/-- `doc` is the body, or nothing for a deletion. -/
def addDocToUpdateList (plat : Platform) (doc : Option Bytes) (info : DocInfo) (seq : ℕ)
    (compressDocBodies : Bool) (file : TreeFile) : Except Errcode DocInfo × TreeFile :=
  let updated := { info with dbSeq := seq }
  match doc with
  | some data =>
    let compress := compressDocBodies && (info.contentMeta &&& couchDocIsCompressed != 0)
    match writeDoc plat data compress file with
    | (.error e, file) => (.error e, file)
    | (.ok (bp, size), file) => (.ok { updated with bp := bp, size := size }, file)
  | none => (.ok { updated with deleted := true, bp := 0, size := 0 }, file)

def addDocs (plat : Platform) (compressDocBodies : Bool) :
    List (Option Bytes × DocInfo) → ℕ → TreeFile → Except Errcode (List DocInfo) × TreeFile
  | [], _, file => (.ok [], file)
  | (doc, info) :: docs, seq, file =>
    match addDocToUpdateList plat doc info (seq + 1) compressDocBodies file with
    | (.error e, file) => (.error e, file)
    | (.ok updated, file) =>
      match addDocs plat compressDocBodies docs (seq + 1) file with
      | (.error e, file) => (.error e, file)
      | (.ok rest, file) => (.ok (updated :: rest), file)

def ActionType.code {β : Type*} : ActionType β → ℕ
  | .fetch _ => 0
  | .remove => 1
  | .insert _ => 2

def seqActionCompare (act1 act2 : Action Unit) : Ordering :=
  (compare (decodeSequenceKey act1.key) (decodeSequenceKey act2.key)).then
    (compare act1.type.code act2.type.code)

/-- The removals that the by-id update finds are collected in the callback's memory. -/
def idfetchUpdateCb (_ : Bytes) (v : Option Bytes) (_ : Unit) (seqacts : List (Action Unit)) :
    List (Action Unit) :=
  match v with
  | none => seqacts
  | some v => seqacts ++ [⟨encodeRaw48 (decodeRaw48 (v.take 6)), .remove⟩]

def idActions (items : List UpdateItem) : List (Action Unit) :=
  (sortBy (fun a b => ebinCmp a.idterm b.idterm) items).flatMap fun u =>
    [⟨u.idterm, .fetch ()⟩, ⟨u.idterm, .insert u.idval⟩]

def seqActions (removals : List (Action Unit)) (items : List UpdateItem) : List (Action Unit) :=
  sortBy seqActionCompare (removals ++ items.map fun u => ⟨u.seqterm, .insert u.seqval⟩)

def idRequest (plat : Platform) : Request (List (Action Unit)) Unit where
  cmp := ebinCmp
  plat := plat
  fetchCallback := some idfetchUpdateCb
  reduce := some byIdReduce
  rereduce := some byIdRereduce
  compacting := false

/-- The callback of this request is never set; its actions have no fetch. -/
def seqRequest (plat : Platform) : Request Unit Unit where
  cmp := seqCmp
  plat := plat
  fetchCallback := none
  reduce := some bySeqReduce
  rereduce := some bySeqRereduce
  compacting := false

/-- The header changes only when both updates have succeeded. -/
def updateIndexes (plat : Platform) (fuel : ℕ) (items : List UpdateItem) (db : Db) :
    Errcode × Db :=
  let (errcode, newIdRoot, env) :=
    modifyBtree (idRequest plat) fuel db.byIdRoot (idActions items) ⟨db.file, [], db.failed⟩
  if errcode ≠ .success then (errcode, { db with file := env.file, failed := env.failed })
  else
    let (errcode, newSeqRoot, env) :=
      modifyBtree (seqRequest plat) fuel db.bySeqRoot (seqActions env.ctx items)
        ⟨env.file, (), env.failed⟩
    if errcode ≠ .success then (errcode, { db with file := env.file, failed := env.failed })
    else (.success, { db with
      file := env.file
      failed := env.failed
      byIdRoot := newIdRoot
      bySeqRoot := newSeqRoot })

def numberFrom : ℕ → List DocInfo → List DocInfo
  | _, [] => []
  | seq, info :: infos => { info with dbSeq := seq + 1 } :: numberFrom (seq + 1) infos

/-- A batch of bodies and their infos. On success the infos are handed back with the
sequence numbers that they got. -/
def saveDocuments (plat : Platform) (fuel : ℕ) (docs : List (Option Bytes × DocInfo))
    (compressDocBodies : Bool) (db : Db) : Errcode × List DocInfo × Db :=
  let infos := docs.map Prod.snd
  match addDocs plat compressDocBodies docs db.updateSeq db.file with
  | (.error e, file) => (e, infos, { db with file := file, failed := true })
  | (.ok updated, file) =>
    match updateIndexes plat fuel (updated.map updateItem) { db with file := file } with
    | (.success, db) =>
      (.success, numberFrom db.updateSeq infos, { db with updateSeq := db.updateSeq + docs.length })
    | (errcode, db) => (errcode, infos, db)

end Appstack.Couchstore
