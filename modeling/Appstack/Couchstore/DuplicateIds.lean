import Appstack.Couchstore.SaveFaults

namespace Appstack.Couchstore
open Std SortedMap List

def seqEntryId (e : Bytes × Bytes) : Option Bytes :=
  match bySeqReadDocinfo e.1 e.2 with
  | .ok info => some info.id
  | .error _ => none

/-- Each id of a batch has one entry in either tree, that of its last document. -/
structure OneEach (byId bySeq : Bindings) (ups : List DocInfo) : Prop where
  id : ∀ d ∈ lastEntries DocInfo.id ups,
    (byId.filter fun e => e.1 = d.id) = [(d.id, assembleIdIndexValue d)]
  seq : ∀ d ∈ lastEntries DocInfo.id ups,
    (bySeq.filter fun e => seqEntryId e = some d.id) = [(encodeRaw48 d.dbSeq, assembleSeqIndexValue d)]

/-- The two trees of a database have one entry for each id of the batch. -/
def SavedOnce (plat : Platform) (db : Db) (ups : List DocInfo) : Prop :=
  ∃ tid tseq, TreeAt plat db.file db.byIdRoot tid ∧ TreeAt plat db.file db.bySeqRoot tseq ∧
    OneEach tid.contents tseq.contents ups

theorem filter_eq_singleton {α : Type*} [DecidableEq α] {l : List α} {p : α → Bool} {x : α}
    (hl : l.Nodup) (hx : x ∈ l) (hp : ∀ y ∈ l, p y = true ↔ y = x) : l.filter p = [x] := by
  have hcongr : l.filter p = l.filter (· == x) := filter_congr fun y hy => by
    rw [Bool.eq_iff_iff, hp y hy, beq_iff_eq]
  rw [hcongr, filter_beq, count_eq_one_of_mem hl hx, replicate_one]

section Save
variable {plat : Platform} {docs : List (Option Bytes × DocInfo)} {db db' : Db}
  {compressDocBodies : Bool} {fuel : ℕ} {log ups infos : List DocInfo} {tid tseq : Tree}

theorem Indexed.oneEach (h : Indexed plat (log ++ ups) db tid tseq) :
    OneEach tid.contents tseq.contents ups where
  id d hd := by
    have hmem : d ∈ lastEntries DocInfo.id (log ++ ups) := mem_lastEntries_append.mpr (.inl hd)
    refine filter_eq_singleton h.id_wf.sorted.nodup ((h.mem_id _).mpr ⟨d, hmem, rfl⟩) fun e he => ?_
    obtain ⟨d', hd', rfl⟩ := (h.mem_id e).mp he
    rw [decide_eq_true_iff]
    constructor
    · intro hid
      rw [eq_of_mem_lastEntries hd' hmem hid]
    · exact fun heq => (Prod.mk.inj heq).1
  seq d hd := by
    have hmem : d ∈ lastEntries DocInfo.id (log ++ ups) := mem_lastEntries_append.mpr (.inl hd)
    refine filter_eq_singleton h.seq_wf.sorted.nodup ((h.mem_seq _).mpr ⟨d, hmem, rfl⟩) fun e he => ?_
    obtain ⟨d', hd', rfl⟩ := (h.mem_seq e).mp he
    have hread (d : DocInfo) (hd : d ∈ lastEntries DocInfo.id (log ++ ups)) :
        seqEntryId (encodeRaw48 d.dbSeq, assembleSeqIndexValue d) = some d.id := by
      simp only [seqEntryId, bySeqReadDocinfo_assemble (h.storable_last hd)]
      rfl
    rw [decide_eq_true_iff, hread d' hd', Option.some.injEq]
    constructor
    · intro hid
      rw [eq_of_mem_lastEntries hd' hmem hid]
    · intro heq
      rw [← Option.some.injEq, ← hread d hmem, ← heq, hread d' hd']

theorem ordered_idActions {items : List UpdateItem} (hfit : ∀ u ∈ items, Fits (u.idterm, u.idval)) :
    Ordered ebinCmp (idActions items) where
  order := by
    rw [InOrder, idActions, map_flatMap, pairwise_flatMap]
    constructor
    · intro u _
      simp [Action.edit]
    · apply (pairwise_isLE_sortBy _ items).imp
      intro u u' hle x hx y hy
      simp only [map_cons, map_nil, mem_cons, not_mem_nil, or_false] at hx hy
      rcases hx with rfl | rfl <;> rcases hy with rfl | rfl <;> exact hle
  fits := by
    intro a ha data hd
    obtain ⟨u, hu, rfl | rfl⟩ := mem_idActions.mp ha
    · cases hd
    · cases hd
      exact hfit u hu

theorem fresh_idActions (items : List UpdateItem) :
    ((idActions items).map Action.edit).flatMap Edit.fresh =
      (byIdOrder items).map fun u => (u.idterm, u.idval) := by
  rw [idActions, map_flatMap, flatMap_assoc, map_eq_flatMap]
  rfl

theorem length_filter_edit (m : Bindings) (ups : List DocInfo) (id : Bytes) :
    (ups.map DocInfo.id).count id ≤ ((edit ebinCmp m
      ((idActions (ups.map updateItem)).map Action.edit)).filter fun e => e.1 = id).length := by
  have hsub := ((fresh_sublist_edit m ((idActions (ups.map updateItem)).map Action.edit) :
    List.Sublist _ (edit ebinCmp _ _)).filter fun e => e.1 = id)
  rw [fresh_idActions] at hsub
  refine le_of_eq_of_le ?_ hsub.length_le
  have hperm : (byIdOrder (ups.map updateItem)).Perm (ups.map updateItem) := perm_sortBy _ _
  rw [((hperm.map fun u => (u.idterm, u.idval)).filter _).length_eq, map_map,
    filter_map, length_map, List.count, countP_map, countP_eq_length_filter]
  congr 2
  funext u
  exact beq_eq_decide _ _

theorem Indexed.nodup_of_savedOnce {file : TreeFile} (h : Indexed plat log db tid tseq)
    (hids : ∀ d ∈ docs, d.2.id.length < 4096) (hlight : LightSave plat docs db)
    (hfuel : tid.height < fuel) (hflush : SaveFlushed plat fuel docs compressDocBodies db)
    (hadd : addDocs plat compressDocBodies docs db.updateSeq db.file = (.ok ups, file))
    (hsave : saveDocuments plat fuel docs compressDocBodies db = (.success, infos, db'))
    (honce : SavedOnce plat db' ups) : (docs.map fun d => d.2.id).Nodup := by
  obtain ⟨ups1, file1, db1, hadd1, hup, rfl, -⟩ := saveDocuments_success hsave
  obtain ⟨hu, rfl⟩ := Prod.mk.inj (hadd.symm.trans hadd1)
  cases hu
  obtain ⟨root1, env1, root2, env2, hm1, hm2, rfl⟩ := updateIndexes_success hup
  obtain ⟨hplaced, -, hg⟩ := addDocs_ok hadd
  have hfit (w : UpdateItem) (hw : w ∈ ups.map updateItem) : Fits (w.idterm, w.idval) := by
    obtain ⟨u, hu, rfl⟩ := mem_map.mp hw
    obtain ⟨d, hd, hid, hmeta⟩ := hplaced.exists_doc hu
    have hlen := hlight.fits d hd
    refine ⟨by simpa [updateItem, hid] using hids d hd, ?_⟩
    dsimp only [updateItem]
    rw [length_assembleIdIndexValue, hmeta]
    omega
  obtain ⟨-, -, t, hat, hcont, -⟩ := modifyBtree_shows rfl (h.grow hg).id_at.blank h.id_wf
    (ordered_idActions hfit) (hlight.light tid tseq h.id_at h.seq_at ups hplaced).1 hfuel
    (hflush ups file hadd).id hm1 (.inl rfl)
  obtain ⟨tid', tseq', hid', -, hone⟩ := honce
  have hsame : tid'.contents = t.contents :=
    hid'.contents_eq (hat.treeAt.mono (modifyBtree_frame hm2).grows)
  rw [← hplaced.ids, nodup_iff_count_le_one]
  intro id
  by_cases hmem : id ∈ ups.map DocInfo.id
  · obtain ⟨d, hd, rfl⟩ := exists_mem_lastEntries hmem
    have hlen := hone.id d hd
    rw [hsame, hcont] at hlen
    exact (length_filter_edit tid.contents ups d.id).trans (congrArg List.length hlen).le
  · rw [count_eq_zero_of_not_mem hmem]
    exact Nat.zero_le _

end Save

/-- A successful save leaves one entry for each id, that of its last document, exactly if no
id is there twice. -/
theorem saveDocuments_savedOnce_iff {plat : Platform} {docs : List (Option Bytes × DocInfo)}
    {db db' : Db} {compressDocBodies : Bool} {fuel : ℕ} {log ups infos : List DocInfo}
    {tid tseq : Tree} {file : TreeFile} (h : Indexed plat log db tid tseq)
    (hids : ∀ d ∈ docs, d.2.id.length < 4096) (hsize : ∀ u ∈ ups, u.size < 2 ^ 28)
    (hlight : LightSave plat docs db) (hfuel : tid.height < fuel ∧ tseq.height < fuel)
    (hflush : SaveFlushed plat fuel docs compressDocBodies db)
    (hadd : addDocs plat compressDocBodies docs db.updateSeq db.file = (.ok ups, file))
    (hsave : saveDocuments plat fuel docs compressDocBodies db = (.success, infos, db')) :
    SavedOnce plat db' ups ↔ (docs.map fun d => d.2.id).Nodup := by
  constructor
  · exact h.nodup_of_savedOnce hids hlight hfuel.1 hflush hadd hsave
  · intro hnodup
    have hsav : Savable plat compressDocBodies docs db := by
      refine ⟨hnodup, hids, fun ups' file' hadd' => ?_⟩
      obtain ⟨hu, -⟩ := Prod.mk.inj (hadd.symm.trans hadd')
      exact Except.ok.inj hu ▸ hsize
    obtain ⟨-, -, ups', file', tid', tseq', hadd', hnew⟩ :=
      h.save_applied hsav hlight hfuel hflush hsave
    obtain ⟨hu, -⟩ := Prod.mk.inj (hadd.symm.trans hadd')
    cases hu
    exact ⟨tid', tseq', hnew.id_at, hnew.seq_at, hnew.oneEach⟩

/-- Deletions of documents, with the numbers they get in an empty database. -/
def deletions (ids : List UInt8) : List (Option Bytes × DocInfo) :=
  ids.map fun i => (none, ⟨[i], 0, 1, [], true, 0, 0, 0⟩)

def deletedUps (ids : List UInt8) : List DocInfo :=
  ids.zipIdx.map fun p => ⟨[p.1], p.2 + 1, 1, [], true, 0, 0, 0⟩

/-- Deletions of two documents leave one entry for each in either tree. -/
theorem saveDocuments_savedOnce_two :
    ∃ infos db', saveDocuments bufferedPlatform 1 (deletions [7, 8]) false emptyDb =
        (.success, infos, db') ∧ SavedOnce bufferedPlatform db' (deletedUps [7, 8]) := by
  have hrun : RunsThrough bufferedPlatform (deletedUps [7, 8]) emptyDb ∧
      (runDb bufferedPlatform (deletedUps [7, 8]) emptyDb).failed = false := by decide +kernel
  have hadd : addDocs bufferedPlatform false (deletions [7, 8]) emptyDb.updateSeq emptyDb.file =
    (.ok (deletedUps [7, 8]), emptyDb.file) := rfl
  have hsave := hrun.1.save hadd
  exact ⟨_, _, hsave, (saveDocuments_savedOnce_iff (indexed_empty _ _ _) (by decide) (by decide)
    (lightSave_empty (by decide) (by decide)) (by decide) (saveFlushed_of_not_failed hsave hrun.2) hadd
    hsave).mpr (by decide)⟩

/-- Two deletions of one document in a batch leave two entries for its id. -/
theorem saveDocuments_not_savedOnce :
    ∃ infos db', saveDocuments bufferedPlatform 1 (deletions [7, 7]) false emptyDb =
        (.success, infos, db') ∧ ¬ SavedOnce bufferedPlatform db' (deletedUps [7, 7]) := by
  have hrun : RunsThrough bufferedPlatform (deletedUps [7, 7]) emptyDb ∧
      (runDb bufferedPlatform (deletedUps [7, 7]) emptyDb).failed = false := by decide +kernel
  have hadd : addDocs bufferedPlatform false (deletions [7, 7]) emptyDb.updateSeq emptyDb.file =
    (.ok (deletedUps [7, 7]), emptyDb.file) := rfl
  have hsave := hrun.1.save hadd
  refine ⟨_, _, hsave, fun honce => ?_⟩
  have hnodup := (indexed_empty _ _ _).nodup_of_savedOnce (by decide)
    (lightSave_empty (by decide) (by decide)) (by decide) (saveFlushed_of_not_failed hsave hrun.2) hadd
    hsave honce
  exact absurd hnodup (by decide)

end Appstack.Couchstore
