import Appstack.Couchstore.BtreeRoot
import Appstack.Couchstore.Save
import Appstack.Lib.LastEntries

namespace Appstack.Couchstore
open Std BigEndian SortedMap List

/-- A batch whose bodies have been placed in the file, numbered from `seq` on. -/
structure Placed (docs : List (Option Bytes × DocInfo)) (seq : ℕ) (ups : List DocInfo) : Prop where
  ids : ups.map DocInfo.id = docs.map fun d => d.2.id
  metas : ups.map DocInfo.revMeta = docs.map fun d => d.2.revMeta
  numbers : ups.map DocInfo.dbSeq = List.range' (seq + 1) docs.length

variable {docs : List (Option Bytes × DocInfo)} {file : TreeFile}

theorem Placed.length_eq {seq : ℕ} {ups : List DocInfo}
    (h : Placed docs seq ups) : ups.length = docs.length := by
  simpa using congrArg List.length h.ids

theorem Placed.exists_doc {seq : ℕ} {ups : List DocInfo}
    (h : Placed docs seq ups) {u : DocInfo} (hu : u ∈ ups) :
    ∃ d ∈ docs, u.id = d.2.id ∧ u.revMeta = d.2.revMeta := by
  obtain ⟨i, hi⟩ := mem_iff_getElem?.mp hu
  have hid := congrArg (fun l => l[i]?) h.ids
  have hmeta := congrArg (fun l => l[i]?) h.metas
  simp only [List.getElem?_map, hi, Option.map_some] at hid hmeta
  obtain ⟨d, hd, hid⟩ := Option.map_eq_some_iff.mp hid.symm
  rw [hd] at hmeta
  exact ⟨d, mem_of_getElem? hd, hid.symm, Option.some.inj hmeta⟩

section
variable {plat : Platform} {file' : TreeFile} {compress : Bool}

theorem dbWriteBuf_pos_lt {buf : Bytes} {bp size : ℕ}
    (h : dbWriteBuf plat buf file = (.ok (bp, size), file')) : bp < 2 ^ 47 := by
  obtain ⟨-, -, hpos, -, hmax, -⟩ := dbWriteBuf_ok h
  have hlt := BlockLayout.add_le_finish (B := couchBlockSize) bp (8 + buf.length)
  have hsize := plat.os.maxSize_le
  omega

theorem writeDoc_ok {data : Bytes}
    {bp size : ℕ} (h : writeDoc plat data compress file = (.ok (bp, size), file')) :
    file.Grows file' ∧ bp < 2 ^ 47 := by
  unfold writeDoc dbWriteBufCompressed at h
  split at h
  · exact ⟨(dbWriteBuf_appends h).grows, dbWriteBuf_pos_lt h⟩
  · exact ⟨(dbWriteBuf_appends h).grows, dbWriteBuf_pos_lt h⟩

theorem addDocToUpdateList_ok {doc : Option Bytes} {info u : DocInfo} {seq : ℕ}
    (h : addDocToUpdateList plat doc info seq compress file = (.ok u, file')) :
    u.id = info.id ∧ u.revMeta = info.revMeta ∧ u.dbSeq = seq ∧ u.bp < 2 ^ 47 ∧
      file.Grows file' := by
  unfold addDocToUpdateList at h
  cases doc with
  | none =>
    obtain ⟨hu, rfl⟩ := Prod.mk.inj h
    cases hu
    exact ⟨rfl, rfl, rfl, by norm_num, .refl _⟩
  | some data =>
    dsimp only at h
    split at h
    · simp at h
    next bp size file1 hw =>
      obtain ⟨hu, rfl⟩ := Prod.mk.inj h
      cases hu
      obtain ⟨hg, hbp⟩ := writeDoc_ok hw
      exact ⟨rfl, rfl, rfl, hbp, hg⟩

theorem addDocs_ok {seq : ℕ} {ups : List DocInfo}
    (h : addDocs plat compress docs seq file = (.ok ups, file')) :
    Placed docs seq ups ∧ (∀ u ∈ ups, u.bp < 2 ^ 47) ∧ file.Grows file' := by
  induction docs generalizing seq file ups with
  | nil =>
    obtain ⟨hu, rfl⟩ := Prod.mk.inj h
    cases hu
    exact ⟨⟨rfl, rfl, rfl⟩, by simp, .refl _⟩
  | cons d docs ih =>
    obtain ⟨doc, info⟩ := d
    unfold addDocs at h
    split at h
    · simp at h
    next u file1 hadd =>
      split at h
      · simp at h
      next us file2 hrest =>
        obtain ⟨hu, rfl⟩ := Prod.mk.inj h
        cases hu
        obtain ⟨hid, hmeta, hnum, hbp, hg⟩ := addDocToUpdateList_ok hadd
        obtain ⟨hp, hbps, hgs⟩ := ih hrest
        refine ⟨⟨?_, ?_, ?_⟩, ?_, hg.trans hgs⟩
        · rw [map_cons, map_cons, hp.ids, hid]
        · rw [map_cons, map_cons, hp.metas, hmeta]
        · rw [map_cons, hp.numbers, hnum, length_cons, List.range'_succ]
        · intro x hx
          rcases mem_cons.mp hx with rfl | hx
          · exact hbp
          · exact hbps x hx

end

section IdActions
variable {items : List UpdateItem}

instance {α : Type*} (f : α → Bytes) : TransCmp fun a b => ebinCmp (f a) (f b) where
  eq_swap := OrientedCmp.eq_swap
  isLE_trans h₁ h₂ := TransCmp.isLE_trans h₁ h₂

def byIdOrder (items : List UpdateItem) : List UpdateItem :=
  sortBy (fun a b => ebinCmp a.idterm b.idterm) items

theorem mem_byIdOrder {u : UpdateItem} : u ∈ byIdOrder items ↔ u ∈ items :=
  (perm_sortBy _ items).mem_iff

theorem pairwise_byIdOrder (hids : (items.map UpdateItem.idterm).Nodup) :
    (byIdOrder items).Pairwise fun a b => ebinCmp a.idterm b.idterm = .lt := by
  apply pairwise_sortBy
  rw [List.Nodup, pairwise_map] at hids
  apply hids.imp
  intro a b hne heq
  exact hne (LawfulEqCmp.eq_of_compare heq)

theorem mem_idActions {a : Action Unit} : a ∈ idActions items ↔
      ∃ u ∈ items, a = ⟨u.idterm, .fetch ()⟩ ∨ a = ⟨u.idterm, .insert u.idval⟩ := by
  simp only [idActions, mem_flatMap, mem_cons, not_mem_nil, or_false]
  exact exists_congr fun u => and_congr_left fun _ => mem_byIdOrder

theorem batch_idActions (hids : (items.map UpdateItem.idterm).Nodup)
    (hfit : ∀ u ∈ items, Fits (u.idterm, u.idval)) : Batch ebinCmp (idActions items) where
  order := by
    rw [idActions, map_flatMap, pairwise_flatMap]
    constructor
    · -- On one id the fetch comes before the insert.
      intro u _
      simp [Action.edit, Precedes]
    · apply (pairwise_byIdOrder hids).imp
      intro u u' hlt x hx y hy
      left
      simp only [map_cons, map_nil, mem_cons, not_mem_nil, or_false] at hx hy
      rcases hx with rfl | rfl <;> rcases hy with rfl | rfl <;> exact hlt
  fits := by
    intro a ha data hd
    obtain ⟨u, hu, rfl | rfl⟩ := mem_idActions.mp ha
    · cases hd
    · cases hd
      exact hfit u hu

/-- The removal that the by-id tree asks for on account of one item. -/
def removal (m : Bindings) (u : UpdateItem) : List (Action Unit) :=
  idfetchUpdateCb u.idterm (get ebinCmp m u.idterm) () []

def removals (m : Bindings) (items : List UpdateItem) : List (Action Unit) :=
  (byIdOrder items).flatMap (removal m)

theorem fetchAll_idActions (plat : Platform) (m : Bindings) :
    fetchAll (idRequest plat) m (idActions items) [] = removals m items := by
  have hgen (us : List UpdateItem) (acc : List (Action Unit)) :
      fetchAll (idRequest plat) m (us.flatMap fun u =>
        [⟨u.idterm, .fetch ()⟩, ⟨u.idterm, .insert u.idval⟩]) acc = acc ++ us.flatMap (removal m) := by
    induction us generalizing acc with
    | nil => simp [fetchAll]
    | cons u us ih =>
      have hcb : idfetchUpdateCb u.idterm (get ebinCmp m u.idterm) () acc = acc ++ removal m u := by
        unfold removal idfetchUpdateCb
        split <;> simp
      rw [flatMap_cons, flatMap_cons, ← append_assoc, ← hcb, ← ih]
      rfl
  exact hgen _ []

end IdActions

section SeqActions
variable {rs : List (Action Unit)} {items : List UpdateItem}

theorem decodeSequenceKey_encodeRaw48 {n : ℕ} (h : n < 2 ^ 48) :
    decodeSequenceKey (encodeRaw48 n) = n := by
  rw [decodeSequenceKey, take_of_length_le (by simp)]
  exact decode_encode_of_lt h

theorem seqCmp_eq_lt {k k' : Bytes} :
    seqCmp k k' = .lt ↔ decodeSequenceKey k < decodeSequenceKey k' := by
  rw [seqCmp_eq_compare]
  exact Nat.compare_eq_lt

theorem seqCmp_eq_eq {k k' : Bytes} :
    seqCmp k k' = .eq ↔ decodeSequenceKey k = decodeSequenceKey k' := by
  rw [seqCmp_eq_compare]
  exact Nat.compare_eq_eq

instance : TransCmp seqActionCompare :=
  inferInstanceAs (TransCmp (compareLex (compareOn fun a : Action Unit => decodeSequenceKey a.key)
    (compareOn fun a : Action Unit => a.type.code)))

theorem mem_seqActions {a : Action Unit} :
    a ∈ seqActions rs items ↔ a ∈ rs ∨ ∃ u ∈ items, a = ⟨u.seqterm, .insert u.seqval⟩ := by
  rw [seqActions, (perm_sortBy _ _).mem_iff, mem_append, mem_map]
  simp only [eq_comm]

def SeqDistinct (acts : List (Action Unit)) : Prop :=
  acts.Pairwise fun a b => decodeSequenceKey a.key ≠ decodeSequenceKey b.key

theorem pairwise_seqActions
    (h : SeqDistinct (rs ++ items.map fun u => ⟨u.seqterm, .insert u.seqval⟩)) :
    (seqActions rs items).Pairwise fun a b => seqCmp a.key b.key = .lt := by
  have hne : (seqActions rs items).Pairwise
      fun a b => decodeSequenceKey a.key ≠ decodeSequenceKey b.key :=
    ((perm_sortBy seqActionCompare _).pairwise_iff fun hab => hab.symm).mpr h
  have hlt : (seqActions rs items).Pairwise fun a b => seqActionCompare a b = .lt := by
    apply pairwise_sortBy
    apply h.imp
    intro a b hab heq
    rw [seqActionCompare, Ordering.then_eq_eq, Nat.compare_eq_eq] at heq
    exact hab heq.1
  refine (hlt.and hne).imp ?_
  rintro a b ⟨hlt, hne⟩
  rw [seqCmp_eq_lt]
  rw [seqActionCompare, Ordering.then_eq_lt, Nat.compare_eq_lt, Nat.compare_eq_eq] at hlt
  exact hlt.resolve_right fun h => hne h.1

theorem batch_seqActions (h : SeqDistinct (rs ++ items.map fun u => ⟨u.seqterm, .insert u.seqval⟩))
    (hrs : ∀ a ∈ rs, a.type = .remove) (hfit : ∀ u ∈ items, Fits (u.seqterm, u.seqval)) :
    Batch seqCmp (seqActions rs items) where
  order := by
    rw [pairwise_map]
    exact (pairwise_seqActions h).imp .inl
  fits := by
    intro a ha data hd
    rcases mem_seqActions.mp ha with ha | ⟨u, hu, rfl⟩
    · rw [hrs a ha] at hd
      cases hd
    · cases hd
      exact hfit u hu

end SeqActions

theorem modifyBtree_edits {τ β : Type*} {rq : Request τ β} {plat : Platform}
    {cmp : Bytes → Bytes → Ordering} [TransCmp cmp] {fuel : ℕ} {root root' : Option NodePointer}
    {acts : List (Action β)} {ctx : τ} {failed : Bool} {e : Errcode}
    {env' : Env τ} {t : Tree}
    (hm : modifyBtree rq fuel root acts ⟨file, ctx, failed⟩ = (e, root', env'))
    (hplat : rq.plat = plat) (hcmp : rq.cmp = cmp) (hcomp : rq.compacting = false)
    (hat : TreeAt plat file root t) (hwf : t.WellFormed cmp) (hb : Batch cmp acts)
    (hlight : t.Light cmp acts) (hfuel : t.height < fuel)
    (hflush : TopFlushed rq fuel root acts ⟨file, ctx, failed⟩) (hpass : Passed e env') :
    e = .success ∧ env'.ctx = fetchAll rq t.contents acts ctx ∧ file.Grows env'.file ∧
      ∃ t', TreeAt plat env'.file root' t' ∧ t'.WellFormed cmp ∧
        t'.contents = edit cmp t.contents (acts.map Action.edit) := by
  subst hplat hcmp
  obtain ⟨he, hctx, t', hat', ht'⟩ :=
    modifyBtree_passed hcomp hat.blank hwf hb hlight hfuel hflush hm hpass
  exact ⟨he, hctx, (modifyBtree_frame hm).grows, t', hat'.treeAt, ht'⟩

theorem cmp_idRequest (plat : Platform) : (idRequest plat).cmp = ebinCmp := rfl

theorem cmp_seqRequest (plat : Platform) : (seqRequest plat).cmp = seqCmp := rfl

instance (plat : Platform) : TransCmp (idRequest plat).cmp :=
  inferInstanceAs (TransCmp ebinCmp)

instance (plat : Platform) : TransCmp (seqRequest plat).cmp :=
  inferInstanceAs (TransCmp seqCmp)

/-- Both trees have the last entries of the log, the numbers of which go up. -/
structure Indexed (plat : Platform) (log : List DocInfo) (db : Db) (tid tseq : Tree) : Prop where
  numbers : (log.map DocInfo.dbSeq).Pairwise (· < ·)
  bounds : ∀ d ∈ log, 1 ≤ d.dbSeq ∧ d.dbSeq ≤ db.updateSeq
  storable : ∀ d ∈ log, d.Storable
  id_at : TreeAt plat db.file db.byIdRoot tid
  id_wf : tid.WellFormed ebinCmp
  mem_id : ∀ e, e ∈ tid.contents ↔
    ∃ d ∈ lastEntries DocInfo.id log, e = (d.id, assembleIdIndexValue d)
  seq_at : TreeAt plat db.file db.bySeqRoot tseq
  seq_wf : tseq.WellFormed seqCmp
  mem_seq : ∀ e, e ∈ tseq.contents ↔
    ∃ d ∈ lastEntries DocInfo.id log, e = (encodeRaw48 d.dbSeq, assembleSeqIndexValue d)

theorem eq_of_dbSeq_eq {log : List DocInfo} (hnum : (log.map DocInfo.dbSeq).Pairwise (· < ·))
    {d d' : DocInfo} (hd : d ∈ log) (hd' : d' ∈ log) (h : d.dbSeq = d'.dbSeq) : d = d' :=
  inj_on_of_nodup_map (hnum.imp fun hlt => hlt.ne) hd hd' h

variable {m : Bindings}

theorem get_ebinCmp (hs : Sorted ebinCmp m) {k v : Bytes} :
    get ebinCmp m k = some v ↔ (k, v) ∈ m := by
  rw [get_eq_some_iff hs]
  constructor
  · rintro ⟨⟨k', v'⟩, hm, heq, rfl⟩
    rwa [← LawfulEqCmp.eq_of_compare heq]
  · intro hm
    exact ⟨(k, v), hm, ebinCmp_self k, rfl⟩

theorem mem_removal (hs : Sorted ebinCmp m) {u : UpdateItem} {a : Action Unit} : a ∈ removal m u ↔
      ∃ v, (u.idterm, v) ∈ m ∧ a = ⟨encodeRaw48 (decodeRaw48 (v.take 6)), .remove⟩ := by
  simp only [← get_ebinCmp hs, removal, idfetchUpdateCb]
  cases get ebinCmp m u.idterm with
  | none => simp
  | some v => simp

theorem decodeRaw48_assembleIdIndexValue {d : DocInfo} (h : d.dbSeq < 2 ^ 48) :
    decodeRaw48 ((assembleIdIndexValue d).take 6) = d.dbSeq := by
  simp only [assembleIdIndexValue, append_assoc, take_encode_append]
  exact decode_encode_of_lt h

section Step
variable {plat : Platform} {log ups : List DocInfo} {db : Db} {tid tseq : Tree}

section
variable (h : Indexed plat log db tid tseq)
include h

theorem Indexed.storable_last {d : DocInfo} (hd : d ∈ lastEntries DocInfo.id log) : d.Storable :=
  h.storable d (mem_of_mem_lastEntries hd)

variable {a : Action Unit}

theorem Indexed.mem_removal {u : DocInfo} : a ∈ removal tid.contents (updateItem u) ↔
      ∃ d ∈ lastEntries DocInfo.id log, d.id = u.id ∧ a = ⟨encodeRaw48 d.dbSeq, .remove⟩ := by
  rw [Couchstore.mem_removal h.id_wf.sorted]
  constructor
  · rintro ⟨v, hv, rfl⟩
    obtain ⟨d, hd, he⟩ := (h.mem_id _).mp hv
    obtain ⟨hid, rfl⟩ := Prod.mk.inj he
    refine ⟨d, hd, hid.symm, ?_⟩
    rw [decodeRaw48_assembleIdIndexValue (h.storable_last hd).dbSeq_lt]
  · rintro ⟨d, hd, hid, rfl⟩
    refine ⟨assembleIdIndexValue d, (h.mem_id _).mpr ⟨d, hd, ?_⟩, ?_⟩
    · rw [hid]
      rfl
    · rw [decodeRaw48_assembleIdIndexValue (h.storable_last hd).dbSeq_lt]

theorem Indexed.mem_removals : a ∈ removals tid.contents (ups.map updateItem) ↔
      ∃ d ∈ lastEntries DocInfo.id log, d.id ∈ ups.map DocInfo.id ∧
        a = ⟨encodeRaw48 d.dbSeq, .remove⟩ := by
  simp only [removals, mem_flatMap, mem_byIdOrder, mem_map]
  constructor
  · rintro ⟨-, ⟨u, hu, rfl⟩, ha⟩
    obtain ⟨d, hd, hid, rfl⟩ := h.mem_removal.mp ha
    exact ⟨d, hd, ⟨u, hu, hid.symm⟩, rfl⟩
  · rintro ⟨d, hd, ⟨u, hu, hid⟩, rfl⟩
    exact ⟨updateItem u, ⟨u, hu, rfl⟩, h.mem_removal.mpr ⟨d, hd, hid.symm, rfl⟩⟩

theorem Indexed.seqDistinct_removals (hids : (ups.map DocInfo.id).Nodup) :
    SeqDistinct (removals tid.contents (ups.map updateItem)) := by
  have hids' : ((ups.map updateItem).map UpdateItem.idterm).Nodup := by
    rw [map_map]
    exact hids
  refine pairwise_flatMap.mpr ⟨?_, ?_⟩
  · intro u _
    unfold removal idfetchUpdateCb
    split
    · exact .nil
    · exact pairwise_singleton _ _
  · refine (pairwise_byIdOrder hids').imp_of_mem ?_
    intro u u' hu hu' hlt a ha a' ha'
    obtain ⟨u, -, rfl⟩ := mem_map.mp (mem_byIdOrder.mp hu)
    obtain ⟨u', -, rfl⟩ := mem_map.mp (mem_byIdOrder.mp hu')
    obtain ⟨d, hd, hid, rfl⟩ := h.mem_removal.mp ha
    obtain ⟨d', hd', hid', rfl⟩ := h.mem_removal.mp ha'
    dsimp only
    rw [decodeSequenceKey_encodeRaw48 (h.storable_last hd).dbSeq_lt,
      decodeSequenceKey_encodeRaw48 (h.storable_last hd').dbSeq_lt]
    intro heq
    have hdd := eq_of_dbSeq_eq h.numbers (mem_of_mem_lastEntries hd) (mem_of_mem_lastEntries hd') heq
    have hne : ebinCmp u.id u'.id = .lt := hlt
    rw [← hid, ← hid', hdd, ebinCmp_self] at hne
    cases hne

/-- The numbers of a batch come after those of the log, so nothing is touched twice. -/
theorem Indexed.seqDistinct (hids : (ups.map DocInfo.id).Nodup)
    (hnum : ups.map DocInfo.dbSeq = List.range' (db.updateSeq + 1) ups.length)
    (hlt : db.updateSeq + ups.length < 2 ^ 48) :
    SeqDistinct (removals tid.contents (ups.map updateItem) ++
      (ups.map updateItem).map fun u => ⟨u.seqterm, .insert u.seqval⟩) := by
  have hseq (u : DocInfo) (hu : u ∈ ups) :
      decodeSequenceKey (updateItem u).seqterm = u.dbSeq ∧ db.updateSeq < u.dbSeq := by
    have hmem : u.dbSeq ∈ List.range' (db.updateSeq + 1) ups.length :=
      hnum ▸ mem_map_of_mem hu
    rw [mem_range'_1] at hmem
    exact ⟨decodeSequenceKey_encodeRaw48 (by omega), by omega⟩
  refine pairwise_append.mpr ⟨h.seqDistinct_removals hids, ?_, ?_⟩
  · rw [pairwise_map, pairwise_map]
    have hnodup : ups.Pairwise fun u u' => u.dbSeq ≠ u'.dbSeq := by
      rw [← pairwise_map (R := fun a b => a ≠ b), hnum]
      exact nodup_range'
    refine hnodup.imp_of_mem ?_
    intro u u' hu hu' hne
    dsimp only
    rw [(hseq u hu).1, (hseq u' hu').1]
    exact hne
  · intro a ha b hb
    obtain ⟨d, hd, -, rfl⟩ := h.mem_removals.mp ha
    obtain ⟨w, hu', rfl⟩ := mem_map.mp hb
    obtain ⟨u, hu, rfl⟩ := mem_map.mp hu'
    have hle := h.bounds d (mem_of_mem_lastEntries hd)
    dsimp only
    rw [decodeSequenceKey_encodeRaw48 (h.storable_last hd).dbSeq_lt, (hseq u hu).1]
    have := (hseq u hu).2
    omega

theorem Indexed.mem_edit_id (hids : (ups.map DocInfo.id).Nodup)
    (hb : Batch ebinCmp (idActions (ups.map updateItem))) (e : Bytes × Bytes) :
    e ∈ edit ebinCmp tid.contents ((idActions (ups.map updateItem)).map Action.edit) ↔
      ∃ d ∈ lastEntries DocInfo.id (log ++ ups), e = (d.id, assembleIdIndexValue d) := by
  rw [mem_edit h.id_wf.sorted hb.order]
  simp only [mem_lastEntries_append, lastEntries_eq_self hids]
  constructor
  · rintro (hput | ⟨hold, hkeep⟩)
    · obtain ⟨a, ha, hedit⟩ := mem_map.mp hput
      obtain ⟨w, hw, rfl | rfl⟩ := mem_idActions.mp ha
      · simp [Action.edit] at hedit
      · obtain ⟨u, hu, rfl⟩ := mem_map.mp hw
        simp only [Action.edit, Prod.mk.injEq, Edit.put.injEq] at hedit
        exact ⟨u, .inl hu, Prod.ext hedit.1.symm hedit.2.symm⟩
    · obtain ⟨d, hd, rfl⟩ := (h.mem_id e).mp hold
      refine ⟨d, .inr ⟨hd, ?_⟩, rfl⟩
      intro hid
      obtain ⟨u, hu, hud⟩ := mem_map.mp hid
      have hins : (⟨u.id, .insert (assembleIdIndexValue u)⟩ : Action Unit) ∈
          idActions (ups.map updateItem) :=
        mem_idActions.mpr ⟨updateItem u, mem_map_of_mem hu, .inr rfl⟩
      have := hkeep _ (mem_map_of_mem hins) (by simp [Action.edit, hud])
      simp [Action.edit] at this
  · rintro ⟨d, hd | ⟨hd, hid⟩, rfl⟩
    · left
      refine mem_map.mpr ⟨⟨d.id, .insert (assembleIdIndexValue d)⟩, ?_, rfl⟩
      exact mem_idActions.mpr ⟨updateItem d, mem_map_of_mem hd, .inr rfl⟩
    · right
      refine ⟨(h.mem_id _).mpr ⟨d, hd, rfl⟩, ?_⟩
      intro b hb heq
      obtain ⟨a, ha, rfl⟩ := mem_map.mp hb
      obtain ⟨w, hw, rfl | rfl⟩ := mem_idActions.mp ha
      · rfl
      · obtain ⟨u, hu, rfl⟩ := mem_map.mp hw
        have hdu : d.id = u.id := LawfulEqCmp.eq_of_compare heq
        exact absurd (hdu ▸ mem_map_of_mem hu) hid

theorem Indexed.mem_edit_seq (hids : (ups.map DocInfo.id).Nodup)
    (hnum : ups.map DocInfo.dbSeq = List.range' (db.updateSeq + 1) ups.length)
    (hlt : db.updateSeq + ups.length < 2 ^ 48)
    (hb : Batch seqCmp (seqActions (removals tid.contents (ups.map updateItem))
      (ups.map updateItem))) (e : Bytes × Bytes) :
    e ∈ edit seqCmp tseq.contents ((seqActions (removals tid.contents (ups.map updateItem))
        (ups.map updateItem)).map Action.edit) ↔
      ∃ d ∈ lastEntries DocInfo.id (log ++ ups),
        e = (encodeRaw48 d.dbSeq, assembleSeqIndexValue d) := by
  rw [mem_edit h.seq_wf.sorted hb.order]
  simp only [mem_lastEntries_append, lastEntries_eq_self hids]
  constructor
  · rintro (hput | ⟨hold, hkeep⟩)
    · obtain ⟨a, ha, hedit⟩ := mem_map.mp hput
      rcases mem_seqActions.mp ha with ha | ⟨w, hw, rfl⟩
      · obtain ⟨d, -, -, rfl⟩ := h.mem_removals.mp ha
        simp [Action.edit] at hedit
      · obtain ⟨u, hu, rfl⟩ := mem_map.mp hw
        simp only [Action.edit, Prod.mk.injEq, Edit.put.injEq] at hedit
        exact ⟨u, .inl hu, Prod.ext hedit.1.symm hedit.2.symm⟩
    · obtain ⟨d, hd, rfl⟩ := (h.mem_seq e).mp hold
      refine ⟨d, .inr ⟨hd, ?_⟩, rfl⟩
      intro hid
      have hrem : (⟨encodeRaw48 d.dbSeq, .remove⟩ : Action Unit) ∈
          seqActions (removals tid.contents (ups.map updateItem)) (ups.map updateItem) :=
        mem_seqActions.mpr (.inl (h.mem_removals.mpr ⟨d, hd, hid, rfl⟩))
      have := hkeep _ (mem_map_of_mem hrem) (seqCmp_eq_eq.mpr rfl)
      simp [Action.edit] at this
  · rintro ⟨d, hd | ⟨hd, hid⟩, rfl⟩
    · left
      refine mem_map.mpr ⟨⟨encodeRaw48 d.dbSeq, .insert (assembleSeqIndexValue d)⟩, ?_, rfl⟩
      exact mem_seqActions.mpr (.inr ⟨updateItem d, mem_map_of_mem hd, rfl⟩)
    · right
      refine ⟨(h.mem_seq _).mpr ⟨d, hd, rfl⟩, ?_⟩
      intro b hb heq
      obtain ⟨a, ha, rfl⟩ := mem_map.mp hb
      have hseq : decodeSequenceKey a.key = d.dbSeq := by
        rw [← decodeSequenceKey_encodeRaw48 (h.storable_last hd).dbSeq_lt]
        exact (seqCmp_eq_eq.mp heq).symm
      rcases mem_seqActions.mp ha with ha | ⟨w, hw, rfl⟩
      · -- The number that is removed is that of another entry.
        obtain ⟨d', hd', hid', rfl⟩ := h.mem_removals.mp ha
        dsimp only at hseq
        rw [decodeSequenceKey_encodeRaw48 (h.storable_last hd').dbSeq_lt] at hseq
        have hdd := eq_of_dbSeq_eq h.numbers (mem_of_mem_lastEntries hd')
          (mem_of_mem_lastEntries hd) hseq
        exact absurd (hdd ▸ hid') hid
      · obtain ⟨u, hu, rfl⟩ := mem_map.mp hw
        have hmem : u.dbSeq ∈ List.range' (db.updateSeq + 1) ups.length :=
          hnum ▸ mem_map_of_mem hu
        rw [mem_range'_1] at hmem
        have hle := h.bounds d (mem_of_mem_lastEntries hd)
        dsimp only [updateItem] at hseq
        rw [decodeSequenceKey_encodeRaw48 (by omega)] at hseq
        omega

end

/-- A batch that a database with these trees can take: the ids are different, the numbers go
on from `seq`, and everything fits. -/
structure Takes (seq : ℕ) (ups : List DocInfo) (tid tseq : Tree) : Prop where
  ids : (ups.map DocInfo.id).Nodup
  numbers : ups.map DocInfo.dbSeq = List.range' (seq + 1) ups.length
  numbers_lt : seq + ups.length < 2 ^ 48
  storable : ∀ u ∈ ups, u.Storable
  fits : ∀ u ∈ ups, u.revMeta.length + 23 < 2 ^ 28 ∧ u.id.length + u.revMeta.length + 18 < 2 ^ 28
  id_light : tid.Light ebinCmp (idActions (ups.map updateItem))
  seq_light : tseq.Light seqCmp (seqActions (removals tid.contents (ups.map updateItem))
    (ups.map updateItem))

theorem Takes.batch_id {seq : ℕ} (ht : Takes seq ups tid tseq) :
    Batch ebinCmp (idActions (ups.map updateItem)) := by
  apply batch_idActions
  · rw [map_map]
    exact ht.ids
  · intro w hw
    obtain ⟨u, hu, rfl⟩ := mem_map.mp hw
    have := ht.fits u hu
    exact ⟨(ht.storable u hu).id_lt, by dsimp only [updateItem]; rw [length_assembleIdIndexValue]; omega⟩

theorem Indexed.batch_seq (h : Indexed plat log db tid tseq) (ht : Takes db.updateSeq ups tid tseq) :
    Batch seqCmp (seqActions (removals tid.contents (ups.map updateItem)) (ups.map updateItem)) := by
  apply batch_seqActions (h.seqDistinct ht.ids ht.numbers ht.numbers_lt)
  · intro a ha
    obtain ⟨d, -, -, rfl⟩ := h.mem_removals.mp ha
    rfl
  · intro w hw
    obtain ⟨u, hu, rfl⟩ := mem_map.mp hw
    have := ht.fits u hu
    refine ⟨by simp [updateItem], ?_⟩
    dsimp only [updateItem]
    rw [length_assembleSeqIndexValue]
    omega

/-- The flushes at the top of the two updates succeed or can be made up for. -/
structure IndexesFlushed (plat : Platform) (fuel : ℕ) (items : List UpdateItem) (db : Db) :
    Prop where
  id : TopFlushed (idRequest plat) fuel db.byIdRoot (idActions items) ⟨db.file, [], db.failed⟩
  seq : ∀ root env, modifyBtree (idRequest plat) fuel db.byIdRoot (idActions items)
      ⟨db.file, [], db.failed⟩ = (.success, root, env) →
    TopFlushed (seqRequest plat) fuel db.bySeqRoot (seqActions env.ctx items)
      ⟨env.file, (), env.failed⟩

theorem indexesFlushed_of_not_failed {fuel : ℕ} {items : List UpdateItem} {e : Errcode} {db' : Db}
    (hup : Couchstore.updateIndexes plat fuel items db = (e, db')) (hf : db'.failed = false) :
    IndexesFlushed plat fuel items db := by
  rcases hm1 : modifyBtree (idRequest plat) fuel db.byIdRoot (idActions items) ⟨db.file, [],
    db.failed⟩ with ⟨e1, root1, env1⟩
  rcases hm2 : modifyBtree (seqRequest plat) fuel db.bySeqRoot (seqActions env1.ctx items)
    ⟨env1.file, (), env1.failed⟩ with ⟨e2, root2, env2⟩
  simp only [Couchstore.updateIndexes, hm1, hm2] at hup
  by_cases he1 : e1 = .success
  · have hf2 : env2.failed = false := by
      rw [if_neg (by simpa using he1)] at hup
      split_ifs at hup <;> (obtain ⟨-, rfl⟩ := Prod.mk.inj hup; exact hf)
    have hf1 : env1.failed = false := (modifyBtree_frame hm2).failed hf2
    refine ⟨topFlushed_of_not_failed hm1 hf1, fun root env hm => ?_⟩
    rw [hm1] at hm
    cases hm
    exact topFlushed_of_not_failed hm2 hf2
  · rw [if_pos he1] at hup
    cases hup
    refine ⟨topFlushed_of_not_failed hm1 hf, fun root env hm => ?_⟩
    rw [hm1] at hm
    exact absurd (Prod.mk.inj hm).1 he1

theorem Indexed.updateIndexes (h : Indexed plat log db tid tseq) {fuel : ℕ} {e : Errcode} {db' : Db}
    (ht : Takes db.updateSeq ups tid tseq) (hfuel : tid.height < fuel ∧ tseq.height < fuel)
    (hflush : IndexesFlushed plat fuel (ups.map updateItem) db)
    (hup : Couchstore.updateIndexes plat fuel (ups.map updateItem) db = (e, db'))
    (hpass : e = .success ∨ e = .depth ∨ db'.failed = false) :
    e = .success ∧ db'.updateSeq = db.updateSeq ∧ ∃ tid' tseq',
      Indexed plat (log ++ ups) { db' with updateSeq := db'.updateSeq + ups.length } tid' tseq' := by
  have hbid := ht.batch_id
  have hbseq := h.batch_seq ht
  rcases hm1 : modifyBtree (idRequest plat) fuel db.byIdRoot (idActions (ups.map updateItem))
    ⟨db.file, [], db.failed⟩ with ⟨e1, root1, env1⟩
  have hspec1 (hpass1 : Passed e1 env1) := modifyBtree_edits hm1 rfl (cmp_idRequest plat) rfl h.id_at
    h.id_wf hbid ht.id_light hfuel.1 hflush.id hpass1
  simp only [Couchstore.updateIndexes, hm1] at hup
  by_cases he1 : e1 ≠ .success
  · -- A by-id update that fails has met an I/O error.
    rw [if_pos he1] at hup
    cases hup
    exact absurd (hspec1 hpass).1 he1
  rw [if_neg he1] at hup
  obtain rfl := not_not.mp he1
  obtain ⟨e2, root2, env2, hm2⟩ : ∃ e2 root2 env2, modifyBtree (seqRequest plat) fuel db.bySeqRoot
    (seqActions env1.ctx (ups.map updateItem)) ⟨env1.file, (), env1.failed⟩ =
      (e2, root2, env2) := ⟨_, _, _, rfl⟩
  simp only [hm2] at hup
  have hpass2 : Passed e2 env2 := by
    split_ifs at hup with he2
    · cases hup
      exact hpass
    · exact .inl (not_not.mp he2)
  have hflush2 := hflush.seq _ _ hm1
  obtain ⟨-, hctx, hg1, tid', hat1, hwf1, hcont1⟩ := hspec1 (.inl rfl)
  rw [fetchAll_idActions] at hctx
  rw [hctx] at hm2 hflush2
  obtain ⟨rfl, -, hg2, tseq', hat2, hwf2, hcont2⟩ := modifyBtree_edits hm2 rfl (cmp_seqRequest plat)
    rfl (h.seq_at.mono hg1) h.seq_wf hbseq ht.seq_light hfuel.2 hflush2 hpass2
  rw [if_neg (by simp)] at hup
  cases hup
  refine ⟨rfl, rfl, tid', tseq', ?_, ?_, ?_, hat1.mono hg2, hwf1, ?_, hat2, hwf2, ?_⟩
  · rw [map_append, ht.numbers, pairwise_append]
    refine ⟨h.numbers, pairwise_lt_range', fun a ha b hb => ?_⟩
    obtain ⟨d, hd, rfl⟩ := mem_map.mp ha
    have := h.bounds d hd
    rw [mem_range'_1] at hb
    omega
  · intro d hd
    dsimp only
    rcases mem_append.mp hd with hd | hd
    · have := h.bounds d hd
      omega
    · have hmem : d.dbSeq ∈ List.range' (db.updateSeq + 1) ups.length :=
        ht.numbers ▸ mem_map_of_mem hd
      rw [mem_range'_1] at hmem
      omega
  · intro d hd
    rcases mem_append.mp hd with hd | hd
    · exact h.storable d hd
    · exact ht.storable d hd
  · intro x
    rw [hcont1]
    exact h.mem_edit_id ht.ids hbid x
  · intro x
    rw [hcont2]
    exact h.mem_edit_seq ht.ids ht.numbers ht.numbers_lt hbseq x

end Step

end Appstack.Couchstore
