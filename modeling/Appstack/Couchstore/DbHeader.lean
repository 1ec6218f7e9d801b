import Appstack.Couchstore.Framing
import Appstack.Couchstore.Save

-- `couch_db.c`: headers, commits and the search for the last header. Allocation succeeds.

namespace Appstack.Couchstore
open BigEndian List

def rootBaseSize : ℕ := 12

def headerBaseSize : ℕ := 25

def couchDiskVersion : ℕ := 11

structure OpenDb extends Db where
  diskVersion : ℕ
  localDocsRoot : Option NodePointer
  purgeSeq : ℕ
  purgePtr : ℕ
  position : ℕ

def encodeRoot : Option NodePointer → Bytes
  | none => []
  | some node => encodeRaw48 node.pointer ++ encodeRaw48 node.subtreesize ++ node.reduceValue

def rootSize : Option NodePointer → ℕ
  | none => 0
  | some node => rootBaseSize + node.reduceValue.length

def readRoot (buf : Bytes) (size : ℕ) : NodePointer where
  key := []
  pointer := decodeRaw48 (buf.take 6)
  subtreesize := decodeRaw48 ((buf.drop 6).take 6)
  reduceValue := (buf.drop 12).take (size - 12)

def readDbRoot (position : ℕ) (rootData : Bytes) (size : ℕ) (old : Option NodePointer) :
    Errcode × Option NodePointer :=
  if size > 0 then
    if size < rootBaseSize then (.corrupt, old)
    else
      let root := readRoot rootData size
      (if root.pointer < position then .success else .corrupt, some root)
  else (.success, none)

/-- Take the fields of a header that was read at `pos`. A header that is refused half way has
left its first fields behind. -/
def loadHeader (pos : ℕ) (raw : Bytes) (db : OpenDb) : Errcode × OpenDb :=
  let db := { db with position := pos, diskVersion := decode (raw.take 1) }
  if db.diskVersion ≠ couchDiskVersion then (.headerVersion, db)
  else
    let db := { db with
      updateSeq := decodeRaw48 ((raw.drop 1).take 6)
      purgeSeq := decodeRaw48 ((raw.drop 7).take 6)
      purgePtr := decodeRaw48 ((raw.drop 13).take 6) }
    if ¬ db.purgePtr ≤ db.position then (.corrupt, db)
    else
      let seqrootsize := decodeRaw16 ((raw.drop 19).take 2)
      let idrootsize := decodeRaw16 ((raw.drop 21).take 2)
      let localrootsize := decodeRaw16 ((raw.drop 23).take 2)
      if raw.length ≠ headerBaseSize + seqrootsize + idrootsize + localrootsize then (.corrupt, db)
      else
        let rootData := raw.drop headerBaseSize
        let (errcode, root) := readDbRoot pos rootData seqrootsize db.bySeqRoot
        let db := { db with bySeqRoot := root }
        if errcode ≠ .success then (errcode, db)
        else
          let rootData := rootData.drop seqrootsize
          let (errcode, root) := readDbRoot pos rootData idrootsize db.byIdRoot
          let db := { db with byIdRoot := root }
          if errcode ≠ .success then (errcode, db)
          else
            let rootData := rootData.drop idrootsize
            let (errcode, root) := readDbRoot pos rootData localrootsize db.localDocsRoot
            (errcode, { db with localDocsRoot := root })

def findHeaderAtPos (plat : Platform) (pos : ℕ) (db : OpenDb) : Errcode × OpenDb :=
  match pread plat.os 2 pos db.file.disk with
  | (.error _, d) => (.read, { db with file := { db.file with disk := d } })
  | (.ok buf, d) =>
    let db := { db with file := { db.file with disk := d } }
    if buf.length ≠ 2 then (.read, db)
    else if buf.getD 0 0 = 0 then (.noHeader, db)
    else if buf.getD 0 0 ≠ 1 then (.corrupt, db)
    else
      match preadHeader plat pos db.file with
      | (.error e, file) => (e, { db with file := file })
      | (.ok raw, file) => loadHeader pos raw { db with file := file }

/-- The loop of `find_header` over the first `k` blocks, from the last of them on. -/
def findHeaderLoop (plat : Platform) : ℕ → Errcode → OpenDb → Errcode × OpenDb
  | 0, lastHeaderErrcode, db => (lastHeaderErrcode, db)
  | k + 1, lastHeaderErrcode, db =>
    match findHeaderAtPos plat (k * couchBlockSize) db with
    | (.success, db) => (.success, db)
    | (.noHeader, db) => findHeaderLoop plat k lastHeaderErrcode db
    | (errcode, db) => findHeaderLoop plat k errcode db

def findHeader (plat : Platform) (db : OpenDb) : Errcode × OpenDb :=
  findHeaderLoop plat ((db.file.pos - 2) / couchBlockSize + 1) .noHeader db

def headerBytes (db : OpenDb) : Bytes :=
  encode 1 couchDiskVersion ++ encodeRaw48 db.updateSeq ++ encodeRaw48 db.purgeSeq ++
    encodeRaw48 db.purgePtr ++ encodeRaw16 (rootSize db.bySeqRoot) ++
    encodeRaw16 (rootSize db.byIdRoot) ++ encodeRaw16 (rootSize db.localDocsRoot) ++
    encodeRoot db.bySeqRoot ++ encodeRoot db.byIdRoot ++ encodeRoot db.localDocsRoot

def writeHeader (plat : Platform) (db : OpenDb) : Errcode × OpenDb :=
  match dbWriteHeader plat (headerBytes db) db.file with
  | (.error e, file) => (e, { db with file := file })
  | (.ok pos, file) => (.success, { db with file := file, position := pos })

def createHeader (plat : Platform) (db : OpenDb) : Errcode × OpenDb :=
  writeHeader plat { db with
    diskVersion := couchDiskVersion
    updateSeq := 0
    byIdRoot := none
    bySeqRoot := none
    localDocsRoot := none
    purgeSeq := 0
    purgePtr := 0
    position := 0 }

def sync (os : Os) (d : Disk) : Errcode × Disk :=
  match os.outcome d.calls with
  | none => (.write, d.tick)
  | some _ => (.success, d.tick)

/-- Extend the file to where the header will end, and write the header. Whether the first
write succeeds does not matter. -/
def commit (plat : Platform) (db : OpenDb) : Errcode × OpenDb :=
  let curpos := db.file.pos
  let headerSize := 25 + rootSize db.bySeqRoot + rootSize db.byIdRoot + rootSize db.localDocsRoot
  let (_, file) := dbWriteBuf plat [0] { db.file with pos := curpos + headerSize }
  let (errcode, d) := sync plat.os file.disk
  let db := { db with file := ⟨curpos, d⟩ }
  if errcode ≠ .success then (errcode, db)
  else
    let (errcode, db) := writeHeader plat db
    if errcode ≠ .success then (errcode, db)
    else
      let (errcode, d) := sync plat.os db.file.disk
      (errcode, { db with file := { db.file with disk := d } })

def blankDb (d : Disk) : OpenDb where
  file := ⟨d.size, d⟩
  failed := false
  updateSeq := 0
  byIdRoot := none
  bySeqRoot := none
  diskVersion := 0
  localDocsRoot := none
  purgeSeq := 0
  purgePtr := 0
  position := 0

def openDb (plat : Platform) (readonly : Bool) (d : Disk) : Errcode × OpenDb :=
  if d.size = 0 then
    if readonly then (.noHeader, blankDb d) else createHeader plat (blankDb d)
  else findHeader plat (blankDb d)

def localRequest (plat : Platform) : Request Unit Unit where
  cmp := ebinCmp
  plat := plat
  fetchCallback := none
  reduce := none
  rereduce := none
  compacting := false

def saveLocalDocument (plat : Platform) (fuel : ℕ) (id json : Bytes) (deleted : Bool) (db : OpenDb) :
    Errcode × OpenDb :=
  let ldupdate : Action Unit := ⟨id, if deleted then .remove else .insert json⟩
  let (errcode, nroot, env) :=
    modifyBtree (localRequest plat) fuel db.localDocsRoot [ldupdate] ⟨db.file, (), db.failed⟩
  let db := { db with file := env.file, failed := env.failed }
  if errcode = .success then (errcode, { db with localDocsRoot := nroot }) else (errcode, db)

/-- The file name is left out. -/
structure DbInfo where
  lastSequence : ℕ
  docCount : ℕ
  deletedCount : ℕ
  spaceUsed : ℕ
  headerPosition : ℕ

def dbInfo (db : OpenDb) : DbInfo :=
  let treeSize (root : Option NodePointer) : ℕ := (root.map NodePointer.subtreesize).getD 0
  let reduce : Bytes := (db.byIdRoot.map NodePointer.reduceValue).getD []
  { lastSequence := db.updateSeq
    docCount := decodeRaw40 (reduce.take 5)
    deletedCount := decodeRaw40 ((reduce.drop 5).take 5)
    spaceUsed := decodeRaw48 ((reduce.drop 10).take 6) + treeSize db.byIdRoot +
      treeSize db.bySeqRoot + treeSize db.localDocsRoot
    headerPosition := db.position }

def NodePointer.stored (p : NodePointer) : NodePointer where
  key := []
  pointer := p.pointer % 2 ^ 48
  subtreesize := p.subtreesize % 2 ^ 48
  reduceValue := p.reduceValue

@[simp] theorem length_encodeRoot (root : Option NodePointer) :
    (encodeRoot root).length = rootSize root := by
  cases root with
  | none => rfl
  | some p =>
    simp only [encodeRoot, rootSize, rootBaseSize, length_append, length_encode]

theorem readRoot_encodeRoot (p : NodePointer) (rest : Bytes) :
    readRoot (encodeRoot (some p) ++ rest) (rootSize (some p)) = p.stored := by
  simp only [readRoot, encodeRoot, rootSize, rootBaseSize, append_assoc, NodePointer.stored,
    show (12 : ℕ) = 6 + 6 by norm_num, ← drop_drop, take_encode_append, drop_encode_append,
    decodeRaw48, decode_encode, Nat.add_sub_cancel_left, take_left]
  norm_num

/-- A root that points below the header, with a reduce value of a few bytes. -/
def RootBelow (pos : ℕ) (root : Option NodePointer) : Prop :=
  ∀ ptr, root = some ptr → ptr.pointer < pos ∧ ptr.reduceValue.length ≤ 16

variable {root : Option NodePointer} {pos : ℕ}

theorem RootBelow.mono {pos' : ℕ} (h : RootBelow pos root)
    (hle : pos ≤ pos') : RootBelow pos' root :=
  fun ptr hp => ⟨(h ptr hp).1.trans_le hle, (h ptr hp).2⟩

theorem RootBelow.size_le (h : RootBelow pos root) : rootSize root ≤ 28 := by
  cases root with
  | none => exact Nat.zero_le _
  | some p =>
    have := (h p rfl).2
    simp only [rootSize, rootBaseSize]
    omega

theorem readDbRoot_encodeRoot (h : RootBelow pos root)
    (hpos : pos ≤ 2 ^ 48) (rest : Bytes) (old : Option NodePointer) :
    readDbRoot pos (encodeRoot root ++ rest) (rootSize root) old =
      (.success, root.map NodePointer.stored) := by
  cases root with
  | none => simp [readDbRoot, rootSize]
  | some p =>
    have hlt := (h p rfl).1
    have hsize : 12 ≤ rootSize (some p) := Nat.le_add_right _ _
    rw [readDbRoot, if_pos (by omega), if_neg (by simp only [rootBaseSize]; omega)]
    dsimp only
    rw [readRoot_encodeRoot, if_pos]
    · rfl
    · simp only [NodePointer.stored]
      rw [Nat.mod_eq_of_lt (by omega)]
      exact hlt

structure OpenDb.Below (db : OpenDb) (pos : ℕ) : Prop where
  seq : RootBelow pos db.bySeqRoot
  id : RootBelow pos db.byIdRoot
  localDocs : RootBelow pos db.localDocsRoot
  purge : db.purgePtr ≤ pos

theorem OpenDb.Below.mono {db : OpenDb} {pos' : ℕ} (h : db.Below pos) (hle : pos ≤ pos') :
    db.Below pos' :=
  ⟨h.seq.mono hle, h.id.mono hle, h.localDocs.mono hle, h.purge.trans hle⟩

theorem length_headerBytes (db : OpenDb) :
    (headerBytes db).length = headerBaseSize + rootSize db.bySeqRoot + rootSize db.byIdRoot +
      rootSize db.localDocsRoot := by
  simp only [headerBytes, length_append, length_encode, length_encodeRoot, headerBaseSize]

theorem OpenDb.Below.length_le {db : OpenDb} (h : db.Below pos) :
    (headerBytes db).length ≤ maxHeaderBody := by
  have h1 := h.seq.size_le
  have h2 := h.id.size_le
  have h3 := h.localDocs.size_le
  rw [length_headerBytes]
  unfold headerBaseSize maxHeaderBody maxHeaderSize
  omega

def OpenDb.reload (db db₀ : OpenDb) (pos : ℕ) : OpenDb :=
  { db₀ with
    position := pos
    diskVersion := couchDiskVersion
    updateSeq := db.updateSeq % 2 ^ 48
    purgeSeq := db.purgeSeq % 2 ^ 48
    purgePtr := db.purgePtr % 2 ^ 48
    bySeqRoot := db.bySeqRoot.map NodePointer.stored
    byIdRoot := db.byIdRoot.map NodePointer.stored
    localDocsRoot := db.localDocsRoot.map NodePointer.stored }

theorem loadHeader_headerBytes {db : OpenDb} (hb : db.Below pos) (hpos : pos ≤ 2 ^ 48)
    (db0 : OpenDb) : loadHeader pos (headerBytes db) db0 = (.success, db.reload db0 pos) := by
  have h1 := hb.seq.size_le
  have h2 := hb.id.size_le
  have h3 := hb.localDocs.size_le
  have hlen := length_headerBytes db
  have hsize {n : ℕ} (hn : n ≤ 28) : n % 256 ^ 2 = n := Nat.mod_eq_of_lt (by omega)
  have hpow : (256 : ℕ) ^ 6 = 2 ^ 48 := by norm_num
  have hpurge : db.purgePtr % 2 ^ 48 ≤ pos := (Nat.mod_le _ _).trans hb.purge
  have hfields : (headerBytes db).take 1 = encode 1 couchDiskVersion ∧
      ((headerBytes db).drop 1).take 6 = encode 6 db.updateSeq ∧
      ((headerBytes db).drop 7).take 6 = encode 6 db.purgeSeq ∧
      ((headerBytes db).drop 13).take 6 = encode 6 db.purgePtr ∧
      ((headerBytes db).drop 19).take 2 = encode 2 (rootSize db.bySeqRoot) ∧
      ((headerBytes db).drop 21).take 2 = encode 2 (rootSize db.byIdRoot) ∧
      ((headerBytes db).drop 23).take 2 = encode 2 (rootSize db.localDocsRoot) ∧
      (headerBytes db).drop 25 =
        encodeRoot db.bySeqRoot ++ (encodeRoot db.byIdRoot ++ (encodeRoot db.localDocsRoot ++ [])) := by
    simp only [headerBytes, append_assoc, append_nil,
      show (7 : ℕ) = 1 + 6 by norm_num, show (13 : ℕ) = 1 + 6 + 6 by norm_num,
      show (19 : ℕ) = 1 + 6 + 6 + 6 by norm_num, show (21 : ℕ) = 1 + 6 + 6 + 6 + 2 by norm_num,
      show (23 : ℕ) = 1 + 6 + 6 + 6 + 2 + 2 by norm_num,
      show (25 : ℕ) = 1 + 6 + 6 + 6 + 2 + 2 + 2 by norm_num,
      ← drop_drop, take_encode_append, drop_encode_append, and_self]
  obtain ⟨hver, hupd, hpseq, hpptr, hs1, hs2, hs3, hroots⟩ := hfields
  unfold loadHeader
  simp only [headerBaseSize] at hlen ⊢
  simp only [hver, hupd, hpseq, hpptr, hs1, hs2, hs3, hroots, decodeRaw48, decodeRaw16,
    decode_encode, hsize h1, hsize h2, hsize h3, hpow]
  rw [if_neg (by decide), if_neg (by omega), if_neg (by omega), readDbRoot_encodeRoot hb.seq hpos]
  dsimp only
  rw [if_neg (by simp), drop_left' (length_encodeRoot _), readDbRoot_encodeRoot hb.id hpos]
  dsimp only
  rw [if_neg (by simp), drop_left' (length_encodeRoot _), readDbRoot_encodeRoot hb.localDocs hpos]
  rfl

end Appstack.Couchstore
