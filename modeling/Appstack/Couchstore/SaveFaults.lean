import Appstack.Couchstore.Framing
import Appstack.Couchstore.RootLoss
import Appstack.Couchstore.SaveAgree

namespace Appstack.Couchstore
open Std SortedMap List

/-- The flushes at the top of both trees succeed or can be made up for. -/
def SaveFlushed (plat : Platform) (fuel : ℕ) (docs : List (Option Bytes × DocInfo))
    (compressDocBodies : Bool) (db : Db) : Prop :=
  ∀ ups file, addDocs plat compressDocBodies docs db.updateSeq db.file = (.ok ups, file) →
    IndexesFlushed plat fuel (ups.map updateItem) { db with file := file }

/-- All or nothing: the call returns, an error leaves the header and the infos as they were,
and after a success both trees have the batch. -/
structure Atomic (plat : Platform) (log : List DocInfo) (docs : List (Option Bytes × DocInfo))
    (compressDocBodies : Bool) (db : Db) (e : Errcode) (infos : List DocInfo) (db' : Db) : Prop where
  returns : e ≠ .depth
  unchanged : e ≠ .success →
    db' = { db with file := db'.file, failed := db'.failed } ∧ infos = docs.map Prod.snd
  applied : e = .success → db'.updateSeq = db.updateSeq + docs.length ∧
    infos = numberFrom db.updateSeq (docs.map Prod.snd) ∧
    ∃ ups file tid tseq, addDocs plat compressDocBodies docs db.updateSeq db.file = (.ok ups, file) ∧
      Indexed plat (log ++ ups) db' tid tseq

section Save
variable {plat : Platform} {docs : List (Option Bytes × DocInfo)} {db db' : Db}
  {compressDocBodies : Bool} {fuel : ℕ} {log infos : List DocInfo} {e : Errcode} {tid tseq : Tree}

theorem updateIndexes_error {items : List UpdateItem} (h : updateIndexes plat fuel items db = (e, db'))
    (he : e ≠ .success) : ∃ file failed, db' = { db with file := file, failed := failed } := by
  simp only [updateIndexes] at h
  split_ifs at h
  · exact ⟨_, _, (Prod.mk.inj h).2.symm⟩
  · exact ⟨_, _, (Prod.mk.inj h).2.symm⟩
  · exact absurd (Prod.mk.inj h).1.symm he

theorem saveDocuments_error (h : saveDocuments plat fuel docs compressDocBodies db = (e, infos, db'))
    (he : e ≠ .success) :
    db' = { db with file := db'.file, failed := db'.failed } ∧ infos = docs.map Prod.snd := by
  unfold saveDocuments at h
  dsimp only at h
  split at h
  next =>
    cases h
    exact ⟨rfl, rfl⟩
  next ups file hadd =>
    split at h
    next => exact absurd (Prod.mk.inj h).1.symm he
    next hup =>
      cases h
      obtain ⟨file, failed, rfl⟩ := updateIndexes_error hup he
      exact ⟨rfl, rfl⟩

theorem saveFlushed_of_not_failed
    (h : saveDocuments plat fuel docs compressDocBodies db = (e, infos, db'))
    (hf : db'.failed = false) : SaveFlushed plat fuel docs compressDocBodies db := by
  intro ups file hadd
  simp only [saveDocuments, hadd] at h
  split at h
  next db1 hup =>
    cases h
    exact indexesFlushed_of_not_failed hup hf
  next hup =>
    cases h
    exact indexesFlushed_of_not_failed hup hf

section
variable (h : Indexed plat log db tid tseq) (hsav : Savable plat compressDocBodies docs db)
  (hlight : LightSave plat docs db) (hfuel : tid.height < fuel ∧ tseq.height < fuel)
include h hsav hlight hfuel

theorem Indexed.save_returns
    (hsave : saveDocuments plat fuel docs compressDocBodies db = (e, infos, db')) : e ≠ .depth := by
  rintro rfl
  unfold saveDocuments at hsave
  dsimp only at hsave
  split at hsave
  next e1 file hadd =>
    cases hsave
    cases addDocs_error hadd
  next ups file hadd =>
    obtain ⟨-, ht⟩ := h.takes hsav hlight hadd
    obtain ⟨-, -, hg⟩ := addDocs_ok hadd
    have hgrown := h.grow hg
    split at hsave
    next => cases hsave
    next hup =>
      cases hsave
      rcases hm1 : modifyBtree (idRequest plat) fuel db.byIdRoot (idActions (ups.map updateItem))
        ⟨file, [], db.failed⟩ with ⟨e1, root1, env1⟩
      have hid := modifyBtree_returns rfl hgrown.id_at.blank h.id_wf ht.batch_id ht.id_light hfuel.1 hm1
      simp only [Couchstore.updateIndexes, hm1] at hup
      split_ifs at hup with he1 he2
      · exact he1 (hid (.inr (Prod.mk.inj hup).1)).1
      · have hctx := (hid (.inl (not_not.mp he1))).2
        rw [fetchAll_idActions] at hctx
        rw [hctx] at hup he2
        have hat : TreeAt plat env1.file db.bySeqRoot tseq :=
          hgrown.seq_at.mono (modifyBtree_frame hm1).grows
        exact he2 (modifyBtree_returns rfl hat.blank h.seq_wf (h.batch_seq ht) ht.seq_light hfuel.2 rfl
          (.inr (Prod.mk.inj hup).1)).1
      · cases hup

theorem Indexed.save_applied (hflush : SaveFlushed plat fuel docs compressDocBodies db)
    (hsave : saveDocuments plat fuel docs compressDocBodies db = (.success, infos, db')) :
    db'.updateSeq = db.updateSeq + docs.length ∧
      infos = numberFrom db.updateSeq (docs.map Prod.snd) ∧
      ∃ ups file tid tseq, addDocs plat compressDocBodies docs db.updateSeq db.file = (.ok ups, file) ∧
        Indexed plat (log ++ ups) db' tid tseq := by
  obtain ⟨ups, file, db1, hadd, hup, rfl, rfl⟩ := saveDocuments_success hsave
  obtain ⟨hlen, htakes⟩ := h.takes hsav hlight hadd
  obtain ⟨-, -, hg⟩ := addDocs_ok hadd
  obtain ⟨-, hseq, tid', tseq', hnew⟩ :=
    (h.grow hg).updateIndexes htakes hfuel (hflush ups file hadd) hup (.inl rfl)
  dsimp only at hseq ⊢
  rw [hseq]
  exact ⟨rfl, rfl, ups, file, tid', tseq', hadd, hseq ▸ hlen ▸ hnew⟩

/-- A success after a flush that is not made up for leaves a tree without the batch. -/
theorem Indexed.save_damaged (hbad : ¬ SaveFlushed plat fuel docs compressDocBodies db)
    (hsave : saveDocuments plat fuel docs compressDocBodies db = (.success, infos, db')) :
    ¬ Atomic plat log docs compressDocBodies db .success infos db' := by
  intro hat
  obtain ⟨-, -, ups, file, tid', tseq', hadd, hnew⟩ := hat.applied rfl
  unfold SaveFlushed at hbad
  push Not at hbad
  obtain ⟨ups1, file1, hadd1, hbad⟩ := hbad
  rw [hadd] at hadd1
  cases hadd1
  obtain ⟨hlen, ht⟩ := h.takes hsav hlight hadd
  obtain ⟨-, -, hg⟩ := addDocs_ok hadd
  have hgrown := h.grow hg
  have hbseq := h.batch_seq ht
  -- the trees that the invariant asks for are those of the edits
  have hid : tid'.contents =
      edit ebinCmp tid.contents ((idActions (ups.map updateItem)).map Action.edit) :=
    Sorted.ext hnew.id_wf.sorted (sorted_edit h.id_wf.sorted ht.batch_id.order) fun x => by
      rw [hnew.mem_id, h.mem_edit_id ht.ids ht.batch_id]
  have hseq : tseq'.contents = edit seqCmp tseq.contents ((seqActions (removals tid.contents
      (ups.map updateItem)) (ups.map updateItem)).map Action.edit) :=
    Sorted.ext hnew.seq_wf.sorted (sorted_edit h.seq_wf.sorted hbseq.order) fun x => by
      rw [hnew.mem_seq, h.mem_edit_seq ht.ids ht.numbers ht.numbers_lt hbseq]
  obtain ⟨ups', file', db1, hadd', hup, rfl, -⟩ := saveDocuments_success hsave
  rw [hadd] at hadd'
  cases hadd'
  obtain ⟨root1, env1, root2, env2, hm1, hm2, rfl⟩ := updateIndexes_success hup
  by_cases hflush : TopFlushed (idRequest plat) fuel db.byIdRoot (idActions (ups.map updateItem))
    ⟨file, [], db.failed⟩
  · have hseqbad : ¬ TopFlushed (seqRequest plat) fuel db.bySeqRoot
        (seqActions env1.ctx (ups.map updateItem)) ⟨env1.file, (), env1.failed⟩ := by
      intro hseqflush
      refine hbad ⟨hflush, fun root env hm => ?_⟩
      rw [hm1] at hm
      cases hm
      exact hseqflush
    obtain ⟨-, hctx, hg1, -⟩ := modifyBtree_edits hm1 rfl (cmp_idRequest plat) rfl hgrown.id_at
      h.id_wf ht.batch_id ht.id_light hfuel.1 hflush (.inl rfl)
    rw [fetchAll_idActions] at hctx
    rw [hctx] at hm2 hseqbad
    have hat : TreeAt plat env1.file db.bySeqRoot tseq := hgrown.seq_at.mono hg1
    exact (modifyBtree_damaged rfl hat.blank h.seq_wf hbseq ht.seq_light hfuel.2 hseqbad hm2 nofun).2.2
      _ (.refl _) tseq' hnew.seq_at hseq
  · have hg2 : env1.file.Grows env2.file := (modifyBtree_frame hm2).grows
    exact (modifyBtree_damaged rfl hgrown.id_at.blank h.id_wf ht.batch_id ht.id_light hfuel.1 hflush hm1
      nofun).2.2 _ hg2 tid' hnew.id_at hid

end

end Save

section LongIds

def faultyPlatform (k : ℕ) : Platform :=
  { bufferedPlatform with
    os := { bufferedPlatform.os with outcome := fun n => if n = k then none else some 4095 } }

/-- Two of these documents fill a leaf of the by-id tree to the byte. -/
def longInfo (n : ℕ) : DocInfo where
  id := UInt8.ofNat n :: List.replicate 397 0
  dbSeq := 0
  revSeq := 0
  revMeta := []
  deleted := true
  contentMeta := 0
  bp := 0
  size := 0

def longDocs (n : ℕ) : List (Option Bytes × DocInfo) :=
  (List.range n).map fun i => (none, longInfo i)

theorem length_longInfo (n : ℕ) : (longInfo n).id.length = 398 := by
  rw [longInfo, length_cons, length_replicate]

theorem lightSave_empty {plat : Platform} {docs : List (Option Bytes × DocInfo)} {file : TreeFile}
    {failed : Bool} (hn : docs.length ≤ 1000)
    (hd : ∀ d ∈ docs, d.2.id.length + d.2.revMeta.length ≤ 4000) :
    LightSave plat docs ⟨file, failed, 0, none, none⟩ := by
  have hnone (t : Tree) (hat : TreeAt plat file none t) : t.height = 0 ∧ Short t.contents := by
    rw [treeAt_none hat]
    exact ⟨rfl, by decide⟩
  exact lightSave_of_short (by dsimp only; omega) hn hd hnone hnone

theorem lightSave_longDocs (plat : Platform) {n : ℕ} (hn : n ≤ 1000) :
    LightSave plat (longDocs n) emptyDb := by
  refine lightSave_empty (by simpa [longDocs] using hn) fun d hd => ?_
  obtain ⟨i, -, rfl⟩ := mem_map.mp hd
  have hmeta : (longInfo i).revMeta = [] := rfl
  rw [length_longInfo, hmeta, length_nil]
  omega

theorem size_of_addDocs_none {plat : Platform} {compress : Bool} {docs : List (Option Bytes × DocInfo)}
    {seq : ℕ} {file file' : TreeFile} {ups : List DocInfo} (hnone : ∀ d ∈ docs, d.1 = none)
    (h : addDocs plat compress docs seq file = (.ok ups, file')) : ∀ u ∈ ups, u.size = 0 := by
  induction docs generalizing seq file ups with
  | nil =>
    cases h
    simp
  | cons d docs ih =>
    obtain ⟨doc, info⟩ := d
    obtain rfl : doc = none := hnone _ (.head _)
    simp only [addDocs, addDocToUpdateList] at h
    split at h
    next => cases h
    next rest file1 hrest =>
      cases h
      exact forall_mem_cons.mpr ⟨rfl, ih (fun d hd => hnone d (.tail _ hd)) hrest⟩

theorem savable_longDocs (plat : Platform) {n : ℕ} (hn : n ≤ 256) :
    Savable plat false (longDocs n) emptyDb where
  ids := by
    rw [longDocs, map_map]
    refine List.Nodup.map_on (fun i hi j hj hij => ?_) nodup_range
    have hbyte : UInt8.ofNat i = UInt8.ofNat j := (List.cons.inj hij).1
    have hval := congrArg UInt8.toNat hbyte
    rw [UInt8.toNat_ofNat', UInt8.toNat_ofNat'] at hval
    have := mem_range.mp hi
    have := mem_range.mp hj
    omega
  id_lt d hd := by
    obtain ⟨i, -, rfl⟩ := mem_map.mp hd
    rw [length_longInfo]
    norm_num
  size_lt ups file h u hu := by
    rw [size_of_addDocs_none (fun d hd => ?_) h u hu]
    · norm_num
    · obtain ⟨i, -, rfl⟩ := mem_map.mp hd
      rfl

def longUps (n : ℕ) : List DocInfo := (List.range n).map fun i => { longInfo i with dbSeq := i + 1 }

theorem addDocs_longDocs (k : ℕ) {n : ℕ} (hn : n = 4 ∨ n = 10) :
    addDocs (faultyPlatform k) false (longDocs n) emptyDb.updateSeq emptyDb.file =
      (.ok (longUps n), emptyDb.file) := by
  rcases hn with rfl | rfl <;> rfl

theorem saveDocuments_longDocs {k n : ℕ} (hn : n = 4 ∨ n = 10)
    (hrun : RunsThrough (faultyPlatform k) (longUps n) emptyDb) :
    saveDocuments (faultyPlatform k) 1 (longDocs n) false emptyDb =
      (.success, numberFrom 0 ((longDocs n).map Prod.snd),
        runDb (faultyPlatform k) (longUps n) emptyDb) :=
  hrun.save (addDocs_longDocs k hn)

/-- What `modify_node` hands to the top of the by-id tree. -/
def longIdTop (k n : ℕ) : Errcode × Modres × Env (List (Action Unit)) :=
  modifyNode (idRequest (faultyPlatform k)) 1 none (((longUps n).map updateItem).flatMap fun u =>
    [⟨u.idterm, .fetch ()⟩, ⟨u.idterm, .insert u.idval⟩]) (makeModres .kp) ⟨emptyDb.file, [], false⟩

def longSeqTop (k n : ℕ) : Errcode × Modres × Env Unit :=
  modifyNode (seqRequest (faultyPlatform k)) 1 none (seqRunActions (faultyPlatform k) (longUps n) emptyDb)
    (makeModres .kp) ⟨(idRun (faultyPlatform k) (longUps n) emptyDb).2.2.file, (),
      (idRun (faultyPlatform k) (longUps n) emptyDb).2.2.failed⟩

theorem saveFlushed_longDocs {k n : ℕ} (hn : n = 4 ∨ n = 10)
    (hrun : RunsThrough (faultyPlatform k) (longUps n) emptyDb)
    (hid : (longIdTop k n).2.1.pointers.isEmpty = true)
    (hseq : (longSeqTop k n).2.1.pointers.isEmpty = true) :
    SaveFlushed (faultyPlatform k) 1 (longDocs n) false emptyDb := by
  intro ups file hadd
  cases (addDocs_longDocs k hn).symm.trans hadd
  refine ⟨fun mr env htop => .inl ?_, fun root env hm mr env' htop => .inl ?_⟩
  · rw [hrun.idActions] at htop
    have hmr : (longIdTop k n).2.1 = mr := congrArg (fun r => r.2.1) htop
    exact isEmpty_iff.mp (hmr ▸ hid)
  · rw [hrun.idActions] at hm
    obtain rfl : (idRun (faultyPlatform k) (longUps n) emptyDb).2.2 = env :=
      congrArg (fun r => r.2.2) hm
    rw [hrun.seqActions] at htop
    have hmr : (longSeqTop k n).2.1 = mr := congrArg (fun r => r.2.1) htop
    exact isEmpty_iff.mp (hmr ▸ hseq)

theorem runsThrough_longUps :
    RunsThrough (faultyPlatform 5) (longUps 4) emptyDb ∧
      RunsThrough (faultyPlatform 15) (longUps 10) emptyDb := by
  decide +kernel

end LongIds

end Appstack.Couchstore
