import Appstack.Couchstore.LeafGrowth
import Appstack.Couchstore.SaveIndexes

namespace Appstack.Couchstore
open Std SortedMap List

/-- Batches that a caller may hand in: pairwise different ids, and bodies that take less
than `2 ^ 28` bytes on disk. -/
structure Savable (plat : Platform) (compressDocBodies : Bool)
    (docs : List (Option Bytes × DocInfo)) (db : Db) : Prop where
  ids : (docs.map fun d => d.2.id).Nodup
  id_lt : ∀ d ∈ docs, d.2.id.length < 4096
  size_lt : ∀ ups file, addDocs plat compressDocBodies docs db.updateSeq db.file = (.ok ups, file) →
    ∀ u ∈ ups, u.size < 2 ^ 28

abbrev SaveCond := List (Option Bytes × DocInfo) → Db → Prop

/-- The databases that a run of saves without I/O errors can reach from an empty one, with
the infos that the saves have handed back. Other things may be appended to the file. -/
inductive SaveRun (plat : Platform) (cond : SaveCond) : List DocInfo → Db → Prop where
  | empty (file : TreeFile) : SaveRun plat cond [] ⟨file, false, 0, none, none⟩
  | append {log : List DocInfo} {db : Db} {file : TreeFile} :
      SaveRun plat cond log db → db.file.Grows file → SaveRun plat cond log { db with file := file }
  | save {log infos : List DocInfo} {db db' : Db} {docs : List (Option Bytes × DocInfo)}
      {compressDocBodies : Bool} {fuel : ℕ} :
      SaveRun plat cond log db → Savable plat compressDocBodies docs db → cond docs db →
      saveDocuments plat fuel docs compressDocBodies db = (.success, infos, db') →
      db'.failed = false → SaveRun plat cond (log ++ infos) db'

/-- The batch gets numbers of 48 bits, its index values fit a packed length, and the updates
of both trees are light, wherever the bodies go. -/
structure LightSave (plat : Platform) (docs : List (Option Bytes × DocInfo)) (db : Db) : Prop where
  numbers : db.updateSeq + docs.length < 2 ^ 48
  fits : ∀ d ∈ docs, d.2.revMeta.length + 23 < 2 ^ 28 ∧
    d.2.id.length + d.2.revMeta.length + 18 < 2 ^ 28
  light : ∀ tid tseq, TreeAt plat db.file db.byIdRoot tid → TreeAt plat db.file db.bySeqRoot tseq →
    ∀ ups, Placed docs db.updateSeq ups → tid.Light ebinCmp (idActions (ups.map updateItem)) ∧
      tseq.Light seqCmp (seqActions (removals tid.contents (ups.map updateItem))
        (ups.map updateItem))

section Save
variable {plat : Platform} {docs : List (Option Bytes × DocInfo)} {db db' : Db}
  {compressDocBodies : Bool} {fuel : ℕ} {log infos : List DocInfo}

theorem map_id_numberFrom (seq : ℕ) (infos : List DocInfo) :
    (numberFrom seq infos).map DocInfo.id = infos.map DocInfo.id := by
  induction infos generalizing seq with
  | nil => rfl
  | cons info infos ih => rw [numberFrom, map_cons, map_cons, ih]

variable {items : List UpdateItem} {file : TreeFile}

theorem addDocs_error {seq : ℕ} {file' : TreeFile} {e : Errcode}
    (h : addDocs plat compressDocBodies docs seq file = (.error e, file')) : e = .write := by
  induction docs generalizing seq file with
  | nil => cases h
  | cons d docs ih =>
    obtain ⟨doc, info⟩ := d
    unfold addDocs at h
    split at h
    next e1 file1 hone =>
      cases h
      unfold addDocToUpdateList at hone
      dsimp only at hone
      split at hone
      · split at hone
        next hw =>
          cases hone
          unfold writeDoc at hw
          split_ifs at hw
          · exact dbWriteBuf_error hw
          · exact dbWriteBuf_error hw
        next => cases hone
      · cases hone
    next =>
      split at h
      next hrest =>
        cases h
        exact ih hrest
      next => cases h

theorem saveDocuments_success
    (h : saveDocuments plat fuel docs compressDocBodies db = (.success, infos, db')) :
    ∃ ups file db1, addDocs plat compressDocBodies docs db.updateSeq db.file = (.ok ups, file) ∧
      updateIndexes plat fuel (ups.map updateItem) { db with file := file } = (.success, db1) ∧
      db' = { db1 with updateSeq := db1.updateSeq + docs.length } ∧
      infos = numberFrom db1.updateSeq (docs.map Prod.snd) := by
  unfold saveDocuments at h
  dsimp only at h
  split at h
  next e file hadd =>
    cases h
    cases addDocs_error hadd
  next ups file hadd =>
    split at h
    next db1 hup =>
      simp only [Prod.mk.injEq, true_and] at h
      exact ⟨ups, file, db1, hadd, hup, h.2.symm, h.1.symm⟩
    next errcode db1 hne hup =>
      cases h
      exact absurd rfl hne

theorem saveDocuments_of_success {ups : List DocInfo} {db1 : Db}
    (hadd : addDocs plat compressDocBodies docs db.updateSeq db.file = (.ok ups, file))
    (hup : updateIndexes plat fuel (ups.map updateItem) { db with file := file } = (.success, db1)) :
    saveDocuments plat fuel docs compressDocBodies db = (.success,
      numberFrom db1.updateSeq (docs.map Prod.snd),
      { db1 with updateSeq := db1.updateSeq + docs.length }) := by
  simp only [saveDocuments, hadd, hup]

theorem updateIndexes_of_success {root1 root2 : Option NodePointer}
    {env1 : Env (List (Action Unit))} {env2 : Env Unit}
    (hm1 : modifyBtree (idRequest plat) fuel db.byIdRoot (idActions items) ⟨db.file, [], db.failed⟩ =
      (.success, root1, env1))
    (hm2 : modifyBtree (seqRequest plat) fuel db.bySeqRoot (seqActions env1.ctx items)
      ⟨env1.file, (), env1.failed⟩ = (.success, root2, env2)) :
    updateIndexes plat fuel items db = (.success, { db with
      file := env2.file, failed := env2.failed, byIdRoot := root1, bySeqRoot := root2 }) := by
  simp only [updateIndexes, hm1, hm2, ne_eq, not_true_eq_false, if_false]

theorem updateIndexes_success (h : updateIndexes plat fuel items db = (.success, db')) :
    ∃ root1 env1 root2 env2, modifyBtree (idRequest plat) fuel db.byIdRoot (idActions items)
        ⟨db.file, [], db.failed⟩ = (.success, root1, env1) ∧
      modifyBtree (seqRequest plat) fuel db.bySeqRoot (seqActions env1.ctx items)
        ⟨env1.file, (), env1.failed⟩ = (.success, root2, env2) ∧
      db' = { db with
        file := env2.file, failed := env2.failed, byIdRoot := root1, bySeqRoot := root2 } := by
  obtain ⟨e1, root1, env1, hm1⟩ : ∃ e1 root1 env1, modifyBtree (idRequest plat) fuel db.byIdRoot
    (idActions items) ⟨db.file, [], db.failed⟩ = (e1, root1, env1) := ⟨_, _, _, rfl⟩
  obtain ⟨e2, root2, env2, hm2⟩ : ∃ e2 root2 env2, modifyBtree (seqRequest plat) fuel db.bySeqRoot
    (seqActions env1.ctx items) ⟨env1.file, (), env1.failed⟩ = (e2, root2, env2) := ⟨_, _, _, rfl⟩
  simp only [updateIndexes, hm1, hm2] at h
  split_ifs at h with he1 he2
  · exact absurd (Prod.mk.inj h).1 he1
  · exact absurd (Prod.mk.inj h).1 he2
  obtain rfl := not_not.mp he1
  obtain rfl := not_not.mp he2
  exact ⟨root1, env1, root2, env2, hm1, hm2, (Prod.mk.inj h).2.symm⟩

theorem updateIndexes_fuel {fuel' : ℕ} (hle : fuel ≤ fuel')
    (h : updateIndexes plat fuel items db = (.success, db')) :
    updateIndexes plat fuel' items db = (.success, db') := by
  obtain ⟨root1, env1, root2, env2, hm1, hm2, rfl⟩ := updateIndexes_success h
  simp only [updateIndexes, modifyBtree_fuel hle hm1, modifyBtree_fuel hle hm2, ne_eq,
    not_true_eq_false, if_false]

theorem Indexed.takes {tid tseq : Tree} {ups : List DocInfo}
    (h : Indexed plat log db tid tseq) (hsav : Savable plat compressDocBodies docs db)
    (hlight : LightSave plat docs db)
    (hadd : addDocs plat compressDocBodies docs db.updateSeq db.file = (.ok ups, file)) :
    ups.length = docs.length ∧ Takes db.updateSeq ups tid tseq := by
  obtain ⟨hplaced, hbp, -⟩ := addDocs_ok hadd
  have hlen := hplaced.length_eq
  have hids : (ups.map DocInfo.id).Nodup := hplaced.ids ▸ hsav.ids
  have hsizes (u : DocInfo) (hu : u ∈ ups) :
      u.id.length < 4096 ∧ u.revMeta.length + 23 < 2 ^ 28 ∧
        u.id.length + u.revMeta.length + 18 < 2 ^ 28 := by
    obtain ⟨d, hd, hid, hmeta⟩ := hplaced.exists_doc hu
    rw [hid, hmeta]
    exact ⟨hsav.id_lt d hd, hlight.fits d hd⟩
  have hnum : ups.map DocInfo.dbSeq = List.range' (db.updateSeq + 1) ups.length := by
    rw [hplaced.numbers, hlen]
  have hlt : db.updateSeq + ups.length < 2 ^ 48 := by
    rw [hlen]
    exact hlight.numbers
  have hst (u : DocInfo) (hu : u ∈ ups) : u.Storable := by
    refine ⟨(hsizes u hu).1, ?_, hbp u hu, hsav.size_lt ups file hadd u hu⟩
    have hmem : u.dbSeq ∈ List.range' (db.updateSeq + 1) ups.length :=
      hnum ▸ mem_map_of_mem hu
    rw [mem_range'_1] at hmem
    omega
  obtain ⟨hidlight, hseqlight⟩ := hlight.light tid tseq h.id_at h.seq_at ups hplaced
  exact ⟨hlen, hids, hnum, hlt, hst, fun u hu => (hsizes u hu).2, hidlight, hseqlight⟩

theorem Indexed.grow {tid tseq : Tree} (h : Indexed plat log db tid tseq)
    (hg : db.file.Grows file) : Indexed plat log { db with file := file } tid tseq :=
  { h with id_at := h.id_at.mono hg, seq_at := h.seq_at.mono hg }

theorem Indexed.save {tid tseq : Tree} (h : Indexed plat log db tid tseq)
    (hsav : Savable plat compressDocBodies docs db) (hlight : LightSave plat docs db)
    (hsave : saveDocuments plat fuel docs compressDocBodies db = (.success, infos, db'))
    (hf : db'.failed = false) :
    ∃ ups tid' tseq', ups.map DocInfo.id = infos.map DocInfo.id ∧
      ups.map DocInfo.dbSeq = List.range' (db.updateSeq + 1) ups.length ∧
      db'.updateSeq = db.updateSeq + ups.length ∧ Indexed plat (log ++ ups) db' tid' tseq' := by
  obtain ⟨ups, file, db1, hadd, hup, rfl, rfl⟩ := saveDocuments_success hsave
  obtain ⟨hplaced, -, hg⟩ := addDocs_ok hadd
  obtain ⟨hlen, htakes⟩ := h.takes hsav hlight hadd
  have hup' := updateIndexes_fuel (le_max_left fuel (max tid.height tseq.height + 1)) hup
  obtain ⟨-, hseq, tid', tseq', hnew⟩ := (h.grow hg).updateIndexes htakes (by omega)
    (indexesFlushed_of_not_failed hup' hf) hup' (.inl rfl)
  refine ⟨ups, tid', tseq', ?_, htakes.numbers, by rw [hseq, hlen], hlen ▸ hnew⟩
  rw [map_id_numberFrom, map_map, hplaced.ids]
  rfl

end Save

theorem indexed_empty (plat : Platform) (file : TreeFile) (failed : Bool) :
    Indexed plat [] ⟨file, failed, 0, none, none⟩ .empty .empty := by
  refine ⟨.nil, by simp, by simp, trivial, ⟨.nil, ?_⟩, ?_, trivial, ⟨.nil, ?_⟩, ?_⟩
  · intro _ _ hroot
    cases hroot
  · simp [Tree.contents, lastEntries]
  · intro _ _ hroot
    cases hroot
  · simp [Tree.contents, lastEntries]

/-- Every run of light saves leaves both trees with the last entries of its log, which are
numbered from one on. -/
theorem SaveRun.indexed {plat : Platform} {log : List DocInfo} {db : Db}
    (h : SaveRun plat (LightSave plat) log db) :
    ∃ ups tid tseq, ups.map DocInfo.id = log.map DocInfo.id ∧
      ups.map DocInfo.dbSeq = List.range' 1 db.updateSeq ∧ Indexed plat ups db tid tseq := by
  induction h with
  | empty file => exact ⟨[], .empty, .empty, rfl, rfl, indexed_empty plat file false⟩
  | append _ hg ih =>
    obtain ⟨ups, tid, tseq, hids, hnum, h⟩ := ih
    exact ⟨ups, tid, tseq, hids, hnum, h.grow hg⟩
  | save _ hsav hlight hsave hf ih =>
    obtain ⟨ups, tid, tseq, hids, hnum, h⟩ := ih
    obtain ⟨ups', tid', tseq', hids', hnum', hseq, h'⟩ := h.save hsav hlight hsave hf
    refine ⟨ups ++ ups', tid', tseq', ?_, ?_, h'⟩
    · rw [map_append, map_append, hids, hids']
    · rw [map_append, hnum, hnum', hseq, Nat.add_comm _ 1]
      exact List.range'_append_1

/-- The two trees describe the same documents: one entry for each id in either, with the
same document info, under the number of the last save of the id. -/
structure IndexesAgree (byId bySeq : Bindings) (updateSeq : ℕ) (log : List DocInfo) : Prop where
  of_id : ∀ k v, (k, v) ∈ byId → ∃ info, byIdReadDocinfo k v = .ok info ∧
    ∃ s ∈ bySeq, decodeSequenceKey s.1 = info.dbSeq ∧ bySeqReadDocinfo s.1 s.2 = .ok info ∧
      ∀ s' ∈ bySeq, ∀ info', bySeqReadDocinfo s'.1 s'.2 = .ok info' → info'.id = k → s' = s
  of_seq : ∀ k v, (k, v) ∈ bySeq → ∃ info, bySeqReadDocinfo k v = .ok info ∧
    ∃ v', (info.id, v') ∈ byId ∧ byIdReadDocinfo info.id v' = .ok info ∧
      ∀ e ∈ byId, e.1 = info.id → e = (info.id, v')
  last_saved : ∀ k v info, (k, v) ∈ byId → byIdReadDocinfo k v = .ok info →
    1 ≤ info.dbSeq ∧ info.dbSeq ≤ updateSeq ∧ (log.map DocInfo.id)[info.dbSeq - 1]? = some k ∧
      ∀ j, info.dbSeq ≤ j → (log.map DocInfo.id)[j]? ≠ some k
  saved : ∀ d ∈ log, ∃ v, (d.id, v) ∈ byId

section Agree
variable {plat : Platform} {log ups : List DocInfo} {db : Db} {tid tseq : Tree}

theorem eq_of_mem_lastEntries {d d' : DocInfo} (hd : d ∈ lastEntries DocInfo.id ups)
    (hd' : d' ∈ lastEntries DocInfo.id ups) (h : d.id = d'.id) : d = d' :=
  inj_on_of_nodup_map (nodup_map_lastEntries ups) hd hd' h

theorem dbSeq_of_getElem? {n : ℕ} (hnum : ups.map DocInfo.dbSeq = List.range' 1 n) {d : DocInfo} {i : ℕ}
    (h : ups[i]? = some d) : d.dbSeq = i + 1 := by
  have hlt := (List.getElem?_eq_some_iff.mp h).1
  have hlen : ups.length = n := by simpa using congrArg List.length hnum
  have hget : (ups.map DocInfo.dbSeq)[i]? = some d.dbSeq := by rw [List.getElem?_map, h]; rfl
  rw [hnum, List.getElem?_range' (by omega)] at hget
  have := Option.some.inj hget
  omega

theorem Indexed.agree (h : Indexed plat ups db tid tseq)
    (hids : ups.map DocInfo.id = log.map DocInfo.id)
    (hnum : ups.map DocInfo.dbSeq = List.range' 1 db.updateSeq) :
    IndexesAgree tid.contents tseq.contents db.updateSeq log where
  of_id k v hkv := by
    obtain ⟨d, hd, he⟩ := (h.mem_id _).mp hkv
    cases he
    have hst := h.storable_last hd
    refine ⟨d.stored, byIdReadDocinfo_assemble hst, _, (h.mem_seq _).mpr ⟨d, hd, rfl⟩,
      decodeSequenceKey_encodeRaw48 hst.dbSeq_lt, bySeqReadDocinfo_assemble hst, ?_⟩
    intro s hs info hread hid
    obtain ⟨d', hd', rfl⟩ := (h.mem_seq _).mp hs
    rw [bySeqReadDocinfo_assemble (h.storable_last hd')] at hread
    cases hread
    rw [eq_of_mem_lastEntries hd' hd hid]
  of_seq k v hkv := by
    obtain ⟨d, hd, he⟩ := (h.mem_seq _).mp hkv
    cases he
    have hst := h.storable_last hd
    refine ⟨d.stored, bySeqReadDocinfo_assemble hst, assembleIdIndexValue d,
      (h.mem_id _).mpr ⟨d, hd, rfl⟩, byIdReadDocinfo_assemble hst, ?_⟩
    intro e he hid
    obtain ⟨d', hd', rfl⟩ := (h.mem_id _).mp he
    rw [eq_of_mem_lastEntries hd' hd hid]
    rfl
  last_saved k v info hkv hread := by
    obtain ⟨d, hd, he⟩ := (h.mem_id _).mp hkv
    cases he
    rw [byIdReadDocinfo_assemble (h.storable_last hd)] at hread
    cases hread
    obtain ⟨i, hi, hlast⟩ := exists_getElem?_of_mem_lastEntries hd
    have hseq : d.stored.dbSeq = i + 1 := (dbSeq_of_getElem? hnum hi : d.dbSeq = i + 1)
    obtain ⟨hpos, hle⟩ := h.bounds d (mem_of_mem_lastEntries hd)
    refine ⟨hpos, hle, ?_, ?_⟩
    · rw [← hids, hseq, Nat.add_sub_cancel, List.getElem?_map, hi]
      rfl
    · intro j hj hk
      rw [← hids, List.getElem?_map] at hk
      obtain ⟨b, hb, hbk⟩ := Option.map_eq_some_iff.mp hk
      exact hlast j (by omega) b hb hbk
  saved d hd := by
    have hmem : d.id ∈ ups.map DocInfo.id := hids ▸ mem_map_of_mem hd
    obtain ⟨d', hd', hid⟩ := exists_mem_lastEntries hmem
    exact ⟨assembleIdIndexValue d', (h.mem_id _).mpr ⟨d', hd', by rw [hid]⟩⟩

end Agree

/-- Never to be evaluated: its length is all that counts. -/
@[irreducible] def largeMeta : Bytes := List.replicate (2 ^ 28 - 24) 0

theorem length_largeMeta : largeMeta.length = 2 ^ 28 - 24 := by
  unfold largeMeta
  exact length_replicate

/-- The `n`-th document of a run of deletions, as it is stored. -/
def largeInfo (n : ℕ) : DocInfo where
  id := [UInt8.ofNat n]
  dbSeq := n + 1
  revSeq := 0
  revMeta := largeMeta
  deleted := true
  contentMeta := 0
  bp := 0
  size := 0

def largeDocs (n : ℕ) : List (Option Bytes × DocInfo) := [(none, largeInfo n)]

def idItem (n : ℕ) : Bytes × Bytes := ((largeInfo n).id, assembleIdIndexValue (largeInfo n))

def seqItem (n : ℕ) : Bytes × Bytes :=
  (encodeRaw48 (largeInfo n).dbSeq, assembleSeqIndexValue (largeInfo n))

theorem length_largeInfo (n : ℕ) :
    (largeInfo n).id.length = 1 ∧ (largeInfo n).revMeta.length = 2 ^ 28 - 24 :=
  ⟨rfl, length_largeMeta⟩

theorem dbSeq_largeInfo (n : ℕ) : (largeInfo n).dbSeq = n + 1 := rfl

theorem length_idItem (n : ℕ) : (idItem n).1.length = 1 ∧ (idItem n).2.length = 2 ^ 28 - 1 := by
  refine ⟨rfl, ?_⟩
  rw [idItem, length_assembleIdIndexValue, (length_largeInfo n).2]
  omega

theorem length_seqItem (n : ℕ) : (seqItem n).1.length = 6 ∧ (seqItem n).2.length = 2 ^ 28 - 5 := by
  refine ⟨BigEndian.length_encode 6 _, ?_⟩
  rw [seqItem, length_assembleSeqIndexValue, (length_largeInfo n).1, (length_largeInfo n).2]
  omega

theorem largeItems_idItem : LargeItems ebinCmp idItem where
  fits n := by
    rw [Fits, (length_idItem n).1, (length_idItem n).2]
    omega
  large n := by
    rw [Item.size, leafItem, (length_idItem n).1, (length_idItem n).2]
    omega
  lt i n hi hn := ebinCmp_singleton (by omega) hi

theorem largeItems_seqItem : LargeItems seqCmp seqItem where
  fits n := by
    rw [Fits, (length_seqItem n).1, (length_seqItem n).2]
    omega
  large n := by
    rw [Item.size, leafItem, (length_seqItem n).1, (length_seqItem n).2]
    omega
  lt i n hi hn := by
    rw [seqCmp_eq_lt, seqItem, seqItem, dbSeq_largeInfo, dbSeq_largeInfo]
    rw [decodeSequenceKey_encodeRaw48 (by omega), decodeSequenceKey_encodeRaw48 (by omega)]
    omega

theorem addDocs_largeDocs (plat : Platform) (n : ℕ) (file : TreeFile) :
    addDocs plat false (largeDocs n) n file = (.ok [largeInfo n], file) := rfl

theorem idActions_singleton (u : UpdateItem) :
    idActions [u] = [⟨u.idterm, .fetch ()⟩, ⟨u.idterm, .insert u.idval⟩] := by
  simp [idActions, sortBy]

theorem seqActions_singleton (u : UpdateItem) :
    seqActions [] [u] = [⟨u.seqterm, .insert u.seqval⟩] := by
  simp [seqActions, sortBy]

theorem appends_idActions (plat : Platform) (u : UpdateItem) :
    Appends (idRequest plat) (idActions [u]) u.idterm u.idval := by
  rw [idActions_singleton]
  exact ⟨⟨_, _, rfl, rfl⟩, fun _ _ => rfl⟩

/-- A run has brought both trees to one leaf with the first `n` of these documents. -/
structure LargeDb (n : ℕ) (log : List DocInfo) (db : Db) : Prop where
  run : SaveRun plainPlatform (fun _ _ => True) log db
  updateSeq : db.updateSeq = n
  failed : db.failed = false
  pos_le : db.file.pos ≤ n * 2 ^ 35
  id_root : LeafRoot idItem n db.file db.byIdRoot
  seq_root : LeafRoot seqItem n db.file db.bySeqRoot

theorem savable_largeDocs {n : ℕ} {db : Db} (hseq : db.updateSeq = n) :
    Savable plainPlatform false (largeDocs n) db where
  ids := nodup_singleton _
  id_lt d hd := by
    obtain rfl := mem_singleton.mp hd
    rw [(length_largeInfo n).1]
    norm_num
  size_lt ups file h u hu := by
    rw [hseq, addDocs_largeDocs] at h
    obtain rfl := Except.ok.inj (Prod.mk.inj h).1
    obtain rfl := mem_singleton.mp hu
    exact Nat.two_pow_pos 28

theorem LargeDb.save {n : ℕ} {log : List DocInfo} {db : Db} (h : LargeDb n log db) (hn : n ≤ 7) :
    ∃ infos db' file ptr ptr', saveDocuments plainPlatform 1 (largeDocs n) false db =
        (.success, infos, db') ∧ db'.failed = false ∧ db'.updateSeq = n + 1 ∧
      db'.file.pos ≤ db.file.pos + 2 ^ 35 ∧ file.Grows db'.file ∧
      db'.byIdRoot = some ptr ∧ LeafWritten idItem (n + 1) ptr file ∧
      db'.bySeqRoot = some ptr' ∧ LeafWritten seqItem (n + 1) ptr' db'.file := by
  have hp := h.pos_le
  have hid : ∃ ptr file, modifyBtree (idRequest plainPlatform) 1 db.byIdRoot
        (idActions [updateItem (largeInfo n)]) ⟨db.file, [], false⟩ =
          (.success, some ptr, ⟨file, [], false⟩) ∧
      file.pos ≤ db.file.pos + 2 ^ 34 ∧ LeafWritten idItem (n + 1) ptr file :=
    modifyBtree_large rfl rfl largeItems_idItem (appends_idActions _ _) h.id_root hn (by omega) []
  obtain ⟨ptr, file, hm, hpos, hw⟩ := hid
  have hg : db.file.Grows file := (modifyBtree_frame hm).grows
  have hseq : ∃ ptr' file', modifyBtree (seqRequest plainPlatform) 1 db.bySeqRoot
        (seqActions [] [updateItem (largeInfo n)]) ⟨file, (), false⟩ =
          (.success, some ptr', ⟨file', (), false⟩) ∧
      file'.pos ≤ file.pos + 2 ^ 34 ∧ LeafWritten seqItem (n + 1) ptr' file' := by
    rw [seqActions_singleton]
    exact modifyBtree_large rfl rfl largeItems_seqItem (appends_insert _ _ _) (h.seq_root.mono hg) hn
      (by omega) ()
  obtain ⟨ptr', file', hm', hpos', hw'⟩ := hseq
  have hg' : file.Grows file' := (modifyBtree_frame hm').grows
  have hup : updateIndexes plainPlatform 1 ([largeInfo n].map updateItem)
      { db with file := db.file } = (.success, { db with
        file := file', failed := false, byIdRoot := some ptr, bySeqRoot := some ptr' }) := by
    simp only [updateIndexes, map_cons, map_nil, h.failed, hm, hm', ne_eq,
      not_true_eq_false, if_false]
  have hadd : addDocs plainPlatform false (largeDocs n) db.updateSeq db.file =
      (.ok [largeInfo n], db.file) := by
    rw [h.updateSeq]
    exact addDocs_largeDocs plainPlatform n db.file
  refine ⟨_, _, file, ptr, ptr', saveDocuments_of_success hadd hup, rfl, ?_, ?_, hg', rfl, hw, rfl,
    hw'⟩
  · exact congrArg (· + 1) h.updateSeq
  · dsimp only
    omega

theorem LargeDb.succ {n : ℕ} {log : List DocInfo} {db : Db} (h : LargeDb n log db) (hn : n < 7) :
    ∃ log' db', LargeDb (n + 1) log' db' := by
  obtain ⟨infos, db', file, ptr, ptr', hsave, hf, hseq, hpos, hg, hid, hw, hsq, hw'⟩ :=
    h.save hn.le
  have hp := h.pos_le
  refine ⟨log ++ infos, db', ?_, hseq, hf, by omega, ?_, ?_⟩
  · exact h.run.save (savable_largeDocs h.updateSeq) trivial hsave hf
  · rw [hid]
    exact (hw.leafRoot largeItems_idItem hn).mono hg
  · rw [hsq]
    exact hw'.leafRoot largeItems_seqItem hn

def emptyDb : Db := ⟨⟨0, ⟨fun _ => 0, 0, 0⟩⟩, false, 0, none, none⟩

theorem largeDb_zero : LargeDb 0 [] emptyDb :=
  ⟨.empty _, rfl, rfl, Nat.zero_le _, rfl, rfl⟩

theorem exists_largeDb {n : ℕ} (hn : n ≤ 7) : ∃ log db, LargeDb n log db := by
  induction n with
  | zero => exact ⟨_, _, largeDb_zero⟩
  | succ n ih =>
    obtain ⟨log, db, h⟩ := ih (by omega)
    exact h.succ hn

theorem treeAt_none {plat : Platform} {file : TreeFile} {t : Tree} (h : TreeAt plat file none t) :
    t = .empty := by
  match t, h with
  | .empty, _ => rfl

section Short
variable {plat : Platform} {docs : List (Option Bytes × DocInfo)} {db : Db} {m : Bindings}

/-- Bindings that fit a node with much room to spare. -/
def Short (m : Bindings) : Prop := m.length ≤ 4000 ∧ ∀ e ∈ m, e.1.length + e.2.length ≤ 4095

instance (m : Bindings) : Decidable (Short m) := inferInstanceAs (Decidable (_ ∧ _))

theorem Short.size_le (h : Short m) : leafSize m ≤ 4000 * 4100 ∧ pointersSize m ≤ 4000 * 4614 := by
  have hsum {f : Bytes × Bytes → ℕ} {b : ℕ} (hf : ∀ e ∈ m, f e ≤ b) : (m.map f).sum ≤ 4000 * b := by
    have hle := sum_le_card_nsmul (m.map f) b (forall_mem_map.mpr hf)
    rw [length_map, smul_eq_mul] at hle
    exact hle.trans (Nat.mul_le_mul_right b h.1)
  refine ⟨hsum fun e he => ?_, hsum fun e he => ?_⟩
  · have := h.2 e he
    omega
  · have := h.2 e he
    unfold pointerSize maxPointerData
    omega

theorem light_of_short {cmp : Bytes → Bytes → Ordering} {acts : List (Action Unit)} {t : Tree}
    (ht : t.height = 0 ∧ Short t.contents) (ha : Short (inserted acts)) : t.Light cmp acts := by
  obtain ⟨hh, ht⟩ := ht
  have hins := ha.size_le
  have hcont := ht.size_le
  match t with
  | .empty =>
    exact ⟨show 0 + leafSize (inserted acts) < 2 ^ 30 by omega,
      show 0 + pointersSize (inserted acts) < 2 ^ 30 by omega⟩
  | .root 0 ts =>
    rw [Tree.contents, flatMap_contents_zero] at hcont
    exact ⟨show leafSize ts + leafSize (inserted acts) < 2 ^ 30 by omega,
      show pointersSize ts + pointersSize (inserted acts) < 2 ^ 30 by omega⟩

theorem mem_inserted {β : Type*} {acts : List (Action β)} {x : Bytes × Bytes} (h : x ∈ inserted acts) :
    ∃ a ∈ acts, a.key = x.1 ∧ a.type = .insert x.2 := by
  obtain ⟨e, he, hx⟩ := mem_flatMap.mp h
  obtain ⟨a, ha, rfl⟩ := mem_map.mp he
  obtain ⟨k, _ | _ | data⟩ := a
  · cases hx
  · cases hx
  · obtain rfl := mem_singleton.mp hx
    exact ⟨_, ha, rfl, rfl⟩

theorem length_inserted_le {β : Type*} (acts : List (Action β)) :
    (inserted acts).length ≤ acts.length := by
  induction acts with
  | nil => exact le_rfl
  | cons a acts ih =>
    have hcons : inserted (a :: acts) = Edit.fresh a.edit ++ inserted acts := rfl
    have hone : (Edit.fresh a.edit).length ≤ 1 := by
      obtain ⟨k, _ | _ | data⟩ := a <;> simp [Edit.fresh, Action.edit]
    rw [hcons, length_append, length_cons]
    omega

theorem removal_cases (m : Bindings) (u : UpdateItem) :
    removal m u = [] ∨ ∃ k, removal m u = [⟨k, .remove⟩] := by
  rw [removal]
  cases get ebinCmp m u.idterm with
  | none => exact .inl rfl
  | some v => exact .inr ⟨_, rfl⟩

theorem length_removals_le (m : Bindings) (items : List UpdateItem) :
    (removals m items).length ≤ items.length := by
  have hlen : (byIdOrder items).length = items.length := (perm_sortBy _ items).length_eq
  rw [removals, length_flatMap, ← hlen, ← Nat.mul_one (byIdOrder items).length, ← smul_eq_mul,
    ← length_map (f := fun u => (removal m u).length)]
  refine sum_le_card_nsmul _ 1 (forall_mem_map.mpr fun u _ => ?_)
  obtain hu | ⟨k, hu⟩ := removal_cases m u <;> simp [hu]

theorem lightSave_of_short (hnum : db.updateSeq + docs.length < 2 ^ 48) (hn : docs.length ≤ 1000)
    (hd : ∀ d ∈ docs, d.2.id.length + d.2.revMeta.length ≤ 4000)
    (hid : ∀ t, TreeAt plat db.file db.byIdRoot t → t.height = 0 ∧ Short t.contents)
    (hseq : ∀ t, TreeAt plat db.file db.bySeqRoot t → t.height = 0 ∧ Short t.contents) :
    LightSave plat docs db where
  numbers := hnum
  fits d hmem := by
    have := hd d hmem
    omega
  light tid tseq hidt hseqt ups hplaced := by
    have hlen := hplaced.length_eq
    have hshort (u : DocInfo) (hu : u ∈ ups) : u.id.length + u.revMeta.length ≤ 4000 := by
      obtain ⟨d, hmem, hid, hmeta⟩ := hplaced.exists_doc hu
      rw [hid, hmeta]
      exact hd d hmem
    refine ⟨light_of_short (hid tid hidt) ⟨(length_inserted_le _).trans ?_, fun e he => ?_⟩,
      light_of_short (hseq tseq hseqt) ⟨(length_inserted_le _).trans ?_, fun e he => ?_⟩⟩
    · rw [idActions, length_flatMap]
      simp only [length_cons, length_nil, map_const', sum_replicate,
        (perm_sortBy _ (ups.map updateItem)).length_eq, length_map, smul_eq_mul]
      omega
    · obtain ⟨a, ha, hk, hty⟩ := mem_inserted he
      obtain ⟨w, hw, rfl | rfl⟩ := mem_idActions.mp ha
      · cases hty
      · obtain ⟨u, hu, rfl⟩ := mem_map.mp hw
        have := hshort u hu
        rw [← hk, ← ActionType.insert.inj hty]
        simp only [updateItem, length_assembleIdIndexValue]
        omega
    · have hrem := length_removals_le tid.contents (ups.map updateItem)
      rw [length_map] at hrem
      rw [seqActions, (perm_sortBy _ _).length_eq, length_append, length_map, length_map]
      omega
    · obtain ⟨a, ha, hk, hty⟩ := mem_inserted he
      rcases mem_seqActions.mp ha with ha | ⟨w, hw, rfl⟩
      · obtain ⟨u, -, hu⟩ := mem_flatMap.mp ha
        obtain hnone | ⟨k, hone⟩ := removal_cases tid.contents u
        · rw [hnone] at hu
          cases hu
        · rw [hone] at hu
          rw [mem_singleton.mp hu] at hty
          cases hty
      · obtain ⟨u, hu, rfl⟩ := mem_map.mp hw
        have := hshort u hu
        rw [← hk, ← ActionType.insert.inj hty]
        simp only [updateItem, length_assembleSeqIndexValue, BigEndian.length_encode]
        omega

end Short

section Runs
variable (plat : Platform) (ups : List DocInfo) (db : Db)

/-- The update of the by-id tree with items that are in order. -/
def idRun : Errcode × Option NodePointer × Env (List (Action Unit)) :=
  modifyBtree (idRequest plat) 1 db.byIdRoot ((ups.map updateItem).flatMap fun u =>
    [⟨u.idterm, .fetch ()⟩, ⟨u.idterm, .insert u.idval⟩]) ⟨db.file, [], db.failed⟩

def seqRunActions : List (Action Unit) :=
  (idRun plat ups db).2.2.ctx ++ (ups.map updateItem).map fun u => ⟨u.seqterm, .insert u.seqval⟩

/-- The update of the by-sequence tree after it, with actions that are in order. -/
def seqRun : Errcode × Option NodePointer × Env Unit :=
  modifyBtree (seqRequest plat) 1 db.bySeqRoot (seqRunActions plat ups db)
    ⟨(idRun plat ups db).2.2.file, (), (idRun plat ups db).2.2.failed⟩

/-- Nothing is left to sort, and both updates succeed. -/
structure RunsThrough : Prop where
  ids : (ups.map updateItem).Pairwise fun a b => (ebinCmp a.idterm b.idterm).isLE
  acts : (seqRunActions plat ups db).Pairwise fun a b => (seqActionCompare a b).isLE
  id : (idRun plat ups db).1 = .success
  seq : (seqRun plat ups db).1 = .success

instance : Decidable (RunsThrough plat ups db) :=
  decidable_of_iff (_ ∧ _ ∧ _ ∧ _) ⟨fun h => ⟨h.1, h.2.1, h.2.2.1, h.2.2.2⟩,
    fun h => ⟨h.ids, h.acts, h.id, h.seq⟩⟩

def runDb : Db where
  file := (seqRun plat ups db).2.2.file
  failed := (seqRun plat ups db).2.2.failed
  updateSeq := db.updateSeq + ups.length
  byIdRoot := (idRun plat ups db).2.1
  bySeqRoot := (seqRun plat ups db).2.1

variable {plat ups db}

theorem RunsThrough.idActions (h : RunsThrough plat ups db) :
    idActions (ups.map updateItem) = (ups.map updateItem).flatMap fun u =>
      [⟨u.idterm, .fetch ()⟩, ⟨u.idterm, .insert u.idval⟩] := by
  rw [Couchstore.idActions, sortBy_eq_self h.ids]

theorem RunsThrough.seqActions (h : RunsThrough plat ups db) :
    seqActions (idRun plat ups db).2.2.ctx (ups.map updateItem) = seqRunActions plat ups db :=
  sortBy_eq_self h.acts

theorem RunsThrough.save {docs : List (Option Bytes × DocInfo)} {compressDocBodies : Bool}
    {file : TreeFile} (h : RunsThrough plat ups { db with file := file })
    (hadd : addDocs plat compressDocBodies docs db.updateSeq db.file = (.ok ups, file)) :
    saveDocuments plat 1 docs compressDocBodies db =
      (.success, numberFrom db.updateSeq (docs.map Prod.snd),
        runDb plat ups { db with file := file }) := by
  have hid : modifyBtree (idRequest plat) 1 db.byIdRoot (Couchstore.idActions (ups.map updateItem))
      ⟨file, [], db.failed⟩ = (.success, (idRun plat ups { db with file := file }).2) := by
    rw [h.idActions]
    exact Prod.ext h.id rfl
  have hseq : modifyBtree (seqRequest plat) 1 db.bySeqRoot
      (Couchstore.seqActions (idRun plat ups { db with file := file }).2.2.ctx (ups.map updateItem))
      ⟨(idRun plat ups { db with file := file }).2.2.file, (),
        (idRun plat ups { db with file := file }).2.2.failed⟩ =
      (.success, (seqRun plat ups { db with file := file }).2) := by
    rw [h.seqActions]
    exact Prod.ext h.seq rfl
  rw [saveDocuments_of_success hadd (updateIndexes_of_success hid hseq),
    ← (addDocs_ok hadd).1.length_eq]
  rfl

end Runs

/-- In every run of light saves the by-id and the by-sequence tree are well formed and agree. -/
theorem saveDocuments_indexes_agree {plat : Platform} {log : List DocInfo} {db : Db}
    (h : SaveRun plat (LightSave plat) log db) :
    ∃ tid tseq, TreeAt plat db.file db.byIdRoot tid ∧ tid.WellFormed ebinCmp ∧
      TreeAt plat db.file db.bySeqRoot tseq ∧ tseq.WellFormed seqCmp ∧
      IndexesAgree tid.contents tseq.contents db.updateSeq log := by
  obtain ⟨ups, tid, tseq, hids, hnum, hix⟩ := h.indexed
  exact ⟨tid, tseq, hix.id_at, hix.id_wf, hix.seq_at, hix.seq_wf, hix.agree hids hnum⟩

def smallDoc (id : UInt8) (revSeq : ℕ) (body : Bytes) : Option Bytes × DocInfo :=
  (some body, ⟨[id], 0, revSeq, [], false, 0, 0, 0⟩)

def firstDocs : List (Option Bytes × DocInfo) := [smallDoc 1 1 [10], smallDoc 2 1 [20]]

/-- A new revision and a new document. -/
def nextDocs : List (Option Bytes × DocInfo) := [smallDoc 1 2 [11], smallDoc 3 1 [30]]

section Small
variable (docs : List (Option Bytes × DocInfo)) (db : Db)

def smallUps : List DocInfo :=
  (addDocs plainPlatform false docs db.updateSeq db.file).1.toOption.getD []

def smallDb : Db := { db with file := (addDocs plainPlatform false docs db.updateSeq db.file).2 }

def smallSaved : Db := runDb plainPlatform (smallUps docs db) (smallDb docs db)

/-- What has to be evaluated of a save. -/
structure SmallSave : Prop where
  placed : (addDocs plainPlatform false docs db.updateSeq db.file).1 = .ok (smallUps docs db)
  size_lt : ∀ u ∈ smallUps docs db, u.size < 2 ^ 28
  failed : (smallSaved docs db).failed = false
  runs : RunsThrough plainPlatform (smallUps docs db) (smallDb docs db)

instance : Decidable (SmallSave docs db) :=
  decidable_of_iff (_ ∧ _ ∧ _ ∧ _) ⟨fun h => ⟨h.1, h.2.1, h.2.2.1, h.2.2.2⟩,
    fun h => ⟨h.placed, h.size_lt, h.failed, h.runs⟩⟩

variable {docs db}

theorem SmallSave.step {log : List DocInfo} (h : SmallSave docs db)
    (hdocs : (docs.map fun d => d.2.id).Nodup ∧ docs.length ≤ 1000 ∧
      ∀ d ∈ docs, d.2.id.length + d.2.revMeta.length ≤ 4000)
    (hrun : SaveRun plainPlatform (LightSave plainPlatform) log db)
    (hnum : db.updateSeq + docs.length < 2 ^ 48)
    (hid : ∀ t, TreeAt plainPlatform db.file db.byIdRoot t → t.height = 0 ∧ Short t.contents)
    (hseq : ∀ t, TreeAt plainPlatform db.file db.bySeqRoot t → t.height = 0 ∧ Short t.contents) :
    saveDocuments plainPlatform 1 docs false db =
        (.success, numberFrom db.updateSeq (docs.map Prod.snd), smallSaved docs db) ∧
      SaveRun plainPlatform (LightSave plainPlatform)
        (log ++ numberFrom db.updateSeq (docs.map Prod.snd)) (smallSaved docs db) := by
  have hadd : addDocs plainPlatform false docs db.updateSeq db.file =
    (.ok (smallUps docs db), (smallDb docs db).file) := Prod.ext h.placed rfl
  have hsave := h.runs.save hadd
  refine ⟨hsave, hrun.save ⟨hdocs.1, fun d hd => ?_, fun ups file hadd' => ?_⟩
    (lightSave_of_short hnum hdocs.2.1 hdocs.2.2 hid hseq) hsave h.failed⟩
  · have := hdocs.2.2 d hd
    omega
  · cases hadd.symm.trans hadd'
    exact h.size_lt

end Small

def leafAt (root : Option NodePointer) (file : TreeFile) : Bindings :=
  match root.map fun ptr => (preadCompressed plainPlatform ptr.pointer file).1 with
  | some (.ok (_ :: nodebuf)) => readItems nodebuf
  | _ => []

theorem short_of_leafAt {root : Option NodePointer} {file : TreeFile} {t : Tree}
    (hat : TreeAt plainPlatform file root t)
    (h : root.map (fun ptr => (preadCompressed plainPlatform ptr.pointer file).1) =
      some (.ok (nodeBytes 0 (leafAt root file))) ∧ Short (leafAt root file)) :
    t.height = 0 ∧ Short t.contents := by
  have hfit (x : Bytes × Bytes) (hx : x ∈ leafAt root file) : Fits x := by
    have := h.2.2 x hx
    exact ⟨by omega, by omega⟩
  have hcont : (Tree.root 0 (leafAt root file)).contents = leafAt root file := flatMap_contents_zero _
  rw [hat.eq_leaf hfit h.1, hcont]
  exact ⟨rfl, h.2⟩

/-- Two documents, then a new revision of one of them and a third. -/
theorem saveDocuments_indexes_agree_new_revision :
    ∃ db db' infos infos', saveDocuments plainPlatform 1 firstDocs false emptyDb =
    (.success, infos, db) ∧
      saveDocuments plainPlatform 1 nextDocs false db = (.success, infos', db') ∧
      (infos ++ infos').map DocInfo.id = [[1], [2], [1], [3]] ∧
      ∃ tid tseq, TreeAt plainPlatform db'.file db'.byIdRoot tid ∧
        TreeAt plainPlatform db'.file db'.bySeqRoot tseq ∧
        IndexesAgree tid.contents tseq.contents 4 (infos ++ infos') := by
  have hfirst : SmallSave firstDocs emptyDb := by decide +kernel
  have hnext : SmallSave nextDocs (smallSaved firstDocs emptyDb) := by decide +kernel
  have hnone (t : Tree) (hat : TreeAt plainPlatform emptyDb.file none t) :
      t.height = 0 ∧ Short t.contents := by
    rw [treeAt_none hat]
    exact ⟨rfl, by decide⟩
  obtain ⟨hsave, hrun⟩ := hfirst.step (by decide) (.empty _) (by decide) hnone hnone
  obtain ⟨hsave', hrun'⟩ := hnext.step (by decide) hrun (by decide)
    (fun t hat => short_of_leafAt hat (by decide +kernel))
    fun t hat => short_of_leafAt hat (by decide +kernel)
  obtain ⟨tid, tseq, hid, -, hseq, -, hagree⟩ := saveDocuments_indexes_agree hrun'
  exact ⟨_, _, _, _, hsave, hsave', by decide, tid, tseq, hid, hseq, hagree⟩

/-- The eighth of the large documents is saved without any error, and leaves a by-id root
and a by-sequence root under which there are no trees. -/
theorem saveDocuments_loses_indexes :
    ∃ (log infos : List DocInfo) (db db' : Db), SaveRun plainPlatform (fun _ _ => True) log db ∧
      Savable plainPlatform false (largeDocs 7) db ∧
      saveDocuments plainPlatform 1 (largeDocs 7) false db = (.success, infos, db') ∧
      db'.failed = false ∧
      ¬ ∃ tid tseq, TreeAt plainPlatform db'.file db'.byIdRoot tid ∧ tid.WellFormed ebinCmp ∧
        TreeAt plainPlatform db'.file db'.bySeqRoot tseq ∧ tseq.WellFormed seqCmp ∧
        IndexesAgree tid.contents tseq.contents db'.updateSeq (log ++ infos) := by
  obtain ⟨log, db, h⟩ := exists_largeDb le_rfl
  obtain ⟨infos, db', file, ptr, ptr', hsave, hf, -, -, hg, hid, hw, -⟩ := h.save le_rfl
  refine ⟨log, infos, db, db', h.run, savable_largeDocs h.updateSeq, hsave, hf, ?_⟩
  rintro ⟨tid, tseq, hat, hwf, -⟩
  rw [hid] at hat
  exact hw.not_treeAt hg largeItems_idItem hat hwf

end Appstack.Couchstore
