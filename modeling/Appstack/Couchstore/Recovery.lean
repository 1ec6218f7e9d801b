import Appstack.Couchstore.RootPointers
import Appstack.Couchstore.HeaderSearch

namespace Appstack.Couchstore
open BigEndian BlockLayout Std List

/-- A database and its states just after each commit so far, the latest first. The first one is
that of a new file. A save may report any result. -/
inductive History (plat : Platform) : OpenDb → List OpenDb → Prop where
  | create {d : Disk} {db : OpenDb} : d.size = 0 → (∀ i, d.byte i = 0) →
      openDb plat false d = (.success, db) → History plat db [db]
  | save {db : OpenDb} {hs : List OpenDb} {fuel : ℕ} {docs : List (Option Bytes × DocInfo)}
      {compressDocBodies : Bool} {e : Errcode} {infos : List DocInfo} {db' : Db} :
      History plat db hs →
      saveDocuments plat fuel docs compressDocBodies db.toDb = (e, infos, db') →
      History plat { db with toDb := db' } hs
  | saveLocal {db db' : OpenDb} {hs : List OpenDb} {fuel : ℕ} {id json : Bytes} {deleted : Bool}
      {e : Errcode} :
      History plat db hs → saveLocalDocument plat fuel id json deleted db = (e, db') →
      History plat db' hs
  | commit {db db' : OpenDb} {hs : List OpenDb} :
      History plat db hs → commit plat db = (.success, db') → History plat db' (db' :: hs)

section Save
variable {plat : Platform} {docs : List (Option Bytes × DocInfo)}

theorem addDocs_appends {compress : Bool} {seq : ℕ}
    {file file' : TreeFile} {r : Except Errcode (List DocInfo)}
    (h : addDocs plat compress docs seq file = (r, file')) : file.Appends file' := by
  have hone {doc : Option Bytes} {info : DocInfo} {seq : ℕ} {file file' : TreeFile}
      {r : Except Errcode DocInfo}
      (h : addDocToUpdateList plat doc info seq compress file = (r, file')) :
      file.Appends file' := by
    unfold addDocToUpdateList at h
    dsimp only at h
    split at h
    · have hwrite {data : Bytes} {c : Bool} {r : Except Errcode (ℕ × ℕ)} {f : TreeFile}
          (hw : writeDoc plat data c file = (r, f)) : file.Appends f := by
        unfold writeDoc at hw
        split_ifs at hw
        · exact dbWriteBuf_appends hw
        · exact dbWriteBuf_appends hw
      split at h
      next hw => exact (Prod.mk.inj h).2 ▸ hwrite hw
      next hw => exact (Prod.mk.inj h).2 ▸ hwrite hw
    · exact (Prod.mk.inj h).2 ▸ .refl _
  induction docs generalizing seq file file' r with
  | nil => exact (Prod.mk.inj h).2 ▸ .refl _
  | cons doc docs ih =>
    unfold addDocs at h
    split at h
    next hw => exact (Prod.mk.inj h).2 ▸ hone hw
    next hw =>
      split at h
      next hrest => exact (Prod.mk.inj h).2 ▸ (hone hw).trans (ih hrest)
      next hrest => exact (Prod.mk.inj h).2 ▸ (hone hw).trans (ih hrest)

structure Db.Below (db : Db) : Prop where
  id : RootBelow db.file.pos db.byIdRoot
  seq : RootBelow db.file.pos db.bySeqRoot

theorem Db.Below.grow {db db' : Db} (h : db.Below) (hg : db.file.Appends db'.file)
    (hid : db'.byIdRoot = db.byIdRoot) (hseq : db'.bySeqRoot = db.bySeqRoot) : db'.Below :=
  ⟨hid ▸ h.id.mono hg.pos_le, hseq ▸ h.seq.mono hg.pos_le⟩

theorem updateIndexes_appends {fuel : ℕ} {items : List UpdateItem} {db db' : Db} {e : Errcode}
    (hb : db.Below) (h : updateIndexes plat fuel items db = (e, db')) :
    db.file.Appends db'.file ∧ db'.Below := by
  have : OrientedCmp (idRequest plat).cmp := inferInstanceAs (OrientedCmp ebinCmp)
  have : OrientedCmp (seqRequest plat).cmp := inferInstanceAs (OrientedCmp seqCmp)
  rcases h1 : modifyBtree (idRequest plat) fuel db.byIdRoot (idActions items) ⟨db.file, [],
    db.failed⟩ with ⟨e1, root1, env1⟩
  rcases h2 : modifyBtree (seqRequest plat) fuel db.bySeqRoot (seqActions env1.ctx items)
    ⟨env1.file, (), env1.failed⟩ with ⟨e2, root2, env2⟩
  have hg1 : db.file.Appends env1.file := (modifyBtree_frame h1).appends
  have hg2 : env1.file.Appends env2.file := (modifyBtree_frame h2).appends
  simp only [updateIndexes, h1, h2] at h
  split_ifs at h with he1 he2
  · cases h
    exact ⟨hg1, hb.grow hg1 rfl rfl⟩
  · cases h
    exact ⟨hg1.trans hg2, hb.grow (hg1.trans hg2) rfl rfl⟩
  · cases h
    obtain rfl := not_not.mp he1
    obtain rfl := not_not.mp he2
    have hid := modifyBtree_below (brief_idRequest plat) hb.id h1
    have hseq := modifyBtree_below (brief_seqRequest plat) (hb.seq.mono hg1.pos_le) h2
    exact ⟨hg1.trans hg2, hid.mono hg2.pos_le, hseq⟩

theorem saveDocuments_appends {fuel : ℕ}
    {compress : Bool} {db db' : Db} {e : Errcode} {infos : List DocInfo} (hb : db.Below)
    (h : saveDocuments plat fuel docs compress db = (e, infos, db')) :
    db.file.Appends db'.file ∧ db'.Below := by
  unfold saveDocuments at h
  dsimp only at h
  split at h
  next hadd =>
    cases h
    exact ⟨addDocs_appends hadd, hb.grow (addDocs_appends hadd) rfl rfl⟩
  next updated file hadd =>
    have hg := addDocs_appends hadd
    have hb' : ({ db with file := file } : Db).Below := hb.grow hg rfl rfl
    split at h
    next db1 hup =>
      cases h
      obtain ⟨hg', hb''⟩ := updateIndexes_appends hb' hup
      exact ⟨hg.trans hg', hb''.id, hb''.seq⟩
    next hup =>
      cases h
      obtain ⟨hg', hb''⟩ := updateIndexes_appends hb' hup
      exact ⟨hg.trans hg', hb''⟩

end Save

structure Filed (plat : Platform) (file : TreeFile) (h : OpenDb) : Prop where
  framed : Framed plat file (.header (headerBytes h)) h.position
  below : h.Below h.position
  start : h.position % couchBlockSize = 0
  stop : h.file.pos = h.position + 9 + (headerBytes h).length
  room : h.position ≤ 2 ^ 48

structure Sound (plat : Platform) (db : OpenDb) (hs : List OpenDb) : Prop where
  below : db.Below db.file.pos
  marked : Marked db.file {m | ∃ h ∈ hs, h.position = m}
  filed : ∀ h ∈ hs, Filed plat db.file h
  order : hs.Pairwise fun a b => b.position < a.position

section Steps
variable {plat : Platform} {db db' : OpenDb} {hs : List OpenDb}

theorem Filed.mono {file file' : TreeFile} {h : OpenDb} (hf : Filed plat file h)
    (hg : file.Grows file') : Filed plat file' h :=
  { hf with framed := hf.framed.mono hg }

theorem Sound.appends (hs' : Sound plat db hs) (hg : db.file.Appends db'.file)
    (hb : db'.Below db'.file.pos) : Sound plat db' hs where
  below := hb
  marked := hs'.marked.dataOnly hg.data hg.pos_le
  filed h hh := (hs'.filed h hh).mono hg.grows
  order := hs'.order

theorem Disk.DataOnly.weaken {d d' : Disk} {pos pos' : ℕ} (h : d.DataOnly d' pos) (hle : pos' ≤ pos) :
    d.DataOnly d' pos' where
  keeps := ⟨fun i hi => h.keeps.byte i (hi.trans_le hle), h.keeps.size⟩
  mark m hm := (h.mark m hm).imp_right fun hz => ⟨hle.trans hz.1, hz.2⟩
  beyond := h.beyond

theorem dbWriteHeader_error {buf : Bytes} {f f' : TreeFile} {e : Errcode}
    (h : dbWriteHeader plat buf f = (.error e, f')) : e = .write := by
  unfold dbWriteHeader at h
  split at h
  next hw =>
    cases h
    exact pwrite_error hw
  next =>
    split at h
    next hw =>
      cases h
      exact rawWriteLoop_error hw
    · cases h

theorem writeHeader_sound (hos : plat.os.Buffered) (hsound : Sound plat db hs)
    (hw : writeHeader plat db = (.success, db')) : Sound plat db' (db' :: hs) := by
  unfold writeHeader at hw
  split at hw
  next e file hwrite =>
    cases hw
    cases dbWriteHeader_error hwrite
  next pos file hwrite =>
    cases hw
    have hlen := hsound.below.length_le
    obtain ⟨hg, hframed, hmarked⟩ := append_step (a := .header (headerBytes db)) hos hlen
      hsound.marked (show AppendOp.run plat db.file (.header (headerBytes db)) = .ok (file, pos) by
        simp only [AppendOp.run, hwrite])
    obtain ⟨rfl, hend, -, hmax, -⟩ := dbWriteHeader_ok hos hlen hwrite
    have hle := le_blockStart db.file.pos
    obtain ⟨hseq, hid, hlocal, hpurge⟩ := hsound.below.mono hle
    have hroom := plat.os.maxSize_le
    have hpos : blockStart db.file.pos ≤ file.pos := by omega
    refine ⟨⟨hseq.mono hpos, hid.mono hpos, hlocal.mono hpos, hpurge.trans hpos⟩, ?_, ?_, ?_⟩
    · have hset : {m | ∃ h ∈ hs, h.position = m} ∪
          headerPositions [AppendOp.header (headerBytes db)] [blockStart db.file.pos] =
          {m | ∃ h ∈ ({ db with file := file, position := blockStart db.file.pos } : OpenDb) :: hs,
            h.position = m} := by
        ext m
        constructor
        · rintro (⟨h, hh, rfl⟩ | ⟨i, b, hi, hp⟩)
          · exact ⟨h, mem_cons_of_mem _ hh, rfl⟩
          · cases i with
            | zero => exact ⟨_, .head _, by simpa using hp⟩
            | succ i => simp at hi
        · rintro ⟨h, hh, rfl⟩
          obtain rfl | hh := mem_cons.mp hh
          · exact .inr ⟨0, _, rfl, rfl⟩
          · exact .inl ⟨h, hh, rfl⟩
      rw [← hset]
      exact hmarked
    · intro h hh
      obtain rfl | hh := mem_cons.mp hh
      · exact ⟨hframed, ⟨hseq, hid, hlocal, hpurge⟩, blockStart_mod _, hend, by dsimp only; omega⟩
      · exact (hsound.filed h hh).mono hg
    · refine pairwise_cons.mpr ⟨fun h hh => ?_, hsound.order⟩
      exact (hsound.marked.header _ ⟨h, hh, rfl⟩).1.trans_le hle

theorem sync_same {os : Os} {d d' : Disk} {e : Errcode} (h : sync os d = (e, d')) : d.Same d' := by
  unfold sync at h
  split at h <;> exact (Prod.mk.inj h).2 ▸ ⟨rfl, rfl⟩

theorem Sound.relabel {h h' : OpenDb} (hsound : Sound plat db (h :: hs))
    (hpos : h'.position = h.position) (hbytes : headerBytes h' = headerBytes h)
    (hfile : h'.file.pos = h.file.pos) (hb : h'.Below h'.position) : Sound plat db (h' :: hs) where
  below := hsound.below
  marked := by
    have hset : {m | ∃ x ∈ h' :: hs, x.position = m} = {m | ∃ x ∈ h :: hs, x.position = m} := by
      simp only [mem_cons, exists_eq_or_imp, hpos]
    rw [hset]
    exact hsound.marked
  filed x hx := by
    obtain rfl | hx := mem_cons.mp hx
    · have hf := hsound.filed h (.head _)
      exact ⟨by rw [hbytes, hpos]; exact hf.framed, hb, by rw [hpos]; exact hf.start,
        by rw [hfile, hpos, hbytes]; exact hf.stop, by rw [hpos]; exact hf.room⟩
    · exact hsound.filed x (.tail _ hx)
  order := by
    have hord := pairwise_cons.mp hsound.order
    exact pairwise_cons.mpr ⟨fun x hx => hpos ▸ hord.1 x hx, hord.2⟩

theorem commit_sound (hos : plat.os.Buffered) (hsound : Sound plat db hs)
    (hc : commit plat db = (.success, db')) : Sound plat db' (db' :: hs) := by
  unfold commit at hc
  dsimp only at hc
  rcases hw1 : dbWriteBuf plat [0] { db.file with pos := db.file.pos + (25 + rootSize db.bySeqRoot
    + rootSize db.byIdRoot + rootSize db.localDocsRoot) } with ⟨r1, f1⟩
  rcases hsync2 : sync plat.os f1.disk with ⟨e2, d2⟩
  rw [hw1, hsync2] at hc
  -- the file as it is when the header is written
  have hdata := (dbWriteBuf_appends hw1).data.trans ((sync_same hsync2).dataOnly _) le_rfl
  have hpre : Sound plat { db with file := ⟨db.file.pos, d2⟩ } hs :=
    hsound.appends ⟨hdata.weaken (Nat.le_add_right _ _), le_rfl⟩
      ⟨hsound.below.seq, hsound.below.id, hsound.below.localDocs, hsound.below.purge⟩
  rcases hw3 : writeHeader plat { db with file := ⟨db.file.pos, d2⟩ } with ⟨e3, db3⟩
  rcases hsync4 : sync plat.os db3.file.disk with ⟨e4, d4⟩
  dsimp only at hc
  rw [hw3] at hc
  dsimp only at hc
  rw [hsync4] at hc
  split_ifs at hc with he2 he3
  · exact absurd (Prod.mk.inj hc).1 he2
  · exact absurd (Prod.mk.inj hc).1 he3
  obtain rfl := not_not.mp he3
  cases hc
  have hsound3 := writeHeader_sound hos hpre hw3
  have hlast : Sound plat { db3 with file := { db3.file with disk := d4 } } (db3 :: hs) :=
    hsound3.appends ⟨(sync_same hsync4).dataOnly _, le_rfl⟩
      ⟨hsound3.below.seq, hsound3.below.id, hsound3.below.localDocs, hsound3.below.purge⟩
  have hb := (hsound3.filed db3 (.head _)).below
  exact hlast.relabel rfl rfl rfl ⟨hb.seq, hb.id, hb.localDocs, hb.purge⟩

theorem History.sound (hos : plat.os.Buffered) (hr : History plat db hs) : Sound plat db hs := by
  induction hr with
  | @create d db hsize hzero hopen =>
    rw [openDb, if_pos hsize] at hopen
    have hblank : Sound plat { blankDb d with diskVersion := couchDiskVersion } [] :=
      ⟨⟨nofun, nofun, nofun, Nat.zero_le _⟩,
        ⟨fun m hm => by simp at hm, fun m _ _ => hzero m, fun i _ => hzero i⟩, nofun, .nil⟩
    exact writeHeader_sound hos hblank hopen
  | @save db hs fuel docs c e infos db' _ hsave ih =>
    have hb : db.toDb.Below := ⟨ih.below.id, ih.below.seq⟩
    obtain ⟨hg, hb'⟩ := saveDocuments_appends hb hsave
    exact ih.appends hg ⟨hb'.seq, hb'.id, ih.below.localDocs.mono hg.pos_le,
      ih.below.purge.trans hg.pos_le⟩
  | @saveLocal db db' hs fuel id json deleted e _ hsave ih =>
    have : OrientedCmp (localRequest plat).cmp := inferInstanceAs (OrientedCmp ebinCmp)
    obtain ⟨e1, root1, env1, h1⟩ : ∃ e1 root1 env1, modifyBtree (localRequest plat) fuel
      db.localDocsRoot [⟨id, if deleted then .remove else .insert json⟩] ⟨db.file, (), db.failed⟩ =
        (e1, root1, env1) := ⟨_, _, _, rfl⟩
    have hg : db.file.Appends env1.file := (modifyBtree_frame h1).appends
    have hseq := ih.below.seq.mono hg.pos_le
    have hid := ih.below.id.mono hg.pos_le
    have hpurge := ih.below.purge.trans hg.pos_le
    simp only [saveLocalDocument, h1] at hsave
    split_ifs at hsave with he
    · cases hsave
      subst he
      exact ih.appends hg
        ⟨hseq, hid, modifyBtree_below (brief_localRequest plat) ih.below.localDocs h1, hpurge⟩
    · cases hsave
      exact ih.appends hg ⟨hseq, hid, ih.below.localDocs.mono hg.pos_le, hpurge⟩
  | commit _ hc ih => exact commit_sound hos ih hc

end Steps

section Open
variable {plat plat' : Platform} {db h : OpenDb} {hs : List OpenDb}

theorem Disk.cut_byte (d : Disk) {len i : ℕ} (hi : i < len) : (d.cut len).byte i = d.byte i :=
  if_pos hi

theorem History.ne_nil (hr : History plat db hs) : hs ≠ [] := by
  induction hr with
  | create => exact cons_ne_nil _ _
  | save _ _ ih => exact ih
  | saveLocal _ _ ih => exact ih
  | commit => exact cons_ne_nil _ _

theorem noHeaderAt_cut (hsound : Sound plat db hs) (hcrc : plat'.hashCrc32 = plat.hashCrc32)
    {len m : ℕ} (hm : m % couchBlockSize = 0)
    (hlate : ∀ x ∈ hs, x.position = m → len < x.file.pos) :
    NoHeaderAt plat' (db.file.disk.cut len) m := by
  have hsize : (db.file.disk.cut len).size ≤ len := min_le_left _ _
  by_cases hin : m + 2 ≤ (db.file.disk.cut len).size
  swap
  · exact .past (by omega)
  have hbyte := db.file.disk.cut_byte (show m < len by omega)
  by_cases hmem : ∃ x ∈ hs, x.position = m
  · obtain ⟨x, hx, rfl⟩ := hmem
    have hf := hsound.filed x hx
    have hlen := hf.below.length_le
    have hinfo (buf : Bytes) : headerInfo plat' buf = headerInfo plat buf := by
      simp only [headerInfo, hcrc]
    have hne : headerBytes x ≠ [] := by
      apply ne_nil_of_length_pos
      rw [length_headerBytes, headerBaseSize]
      omega
    have hstop := hf.stop
    have hlt := hlate x hx rfl
    refine .cut (headerBytes x) hm hne hlen (fun hle => ?_) (by omega) ?_
    · have hlaid := ((laid_append _ _ _).mp hf.framed.laid).1
      have hfin : finish couchBlockSize (x.position + 1) 8 = x.position + 1 + 8 :=
        finish_of_le (by unfold couchBlockSize at *; omega) (by unfold couchBlockSize at *; omega)
      rw [hinfo]
      refine hlaid.congr fun i _ hi => db.file.disk.cut_byte ?_
      simp only [AppendOp.info, AppendOp.start, length_headerInfo] at hi
      omega
    · rw [hbyte]
      exact (hsound.marked.header _ ⟨x, hx, rfl⟩).2.2
  · exact .data (hbyte.trans (hsound.marked.other m hm hmem))

/-- After a run of saves and commits on a new file and a crash that cuts the file off at any
length that leaves the first header whole, the file can be opened, and the database has what the
latest header says that is still whole. -/
theorem open_finds_last_commit (hos : plat.os.Buffered) (hr : History plat db hs)
    (hcrc : plat'.hashCrc32 = plat.hashCrc32) (hrel : plat'.os.Reliable)
    (hbuf : plat'.os.Buffered) (readonly : Bool) (len : ℕ)
    (hlen : ∀ h ∈ hs.getLast?, h.file.pos ≤ len) :
    ∃ h, hs.find? (fun h => h.file.pos ≤ len) = some h ∧
      ∃ db', openDb plat' readonly (db.file.disk.cut len) = (.success, db') ∧
        db'.position = h.position ∧ db'.updateSeq = h.updateSeq % 2 ^ 48 ∧
        db'.purgeSeq = h.purgeSeq % 2 ^ 48 ∧ db'.purgePtr = h.purgePtr % 2 ^ 48 ∧
        db'.bySeqRoot = h.bySeqRoot.map NodePointer.stored ∧
        db'.byIdRoot = h.byIdRoot.map NodePointer.stored ∧
        db'.localDocsRoot = h.localDocsRoot.map NodePointer.stored := by
  have hsound := hr.sound hos
  have hsome : (hs.find? fun h => h.file.pos ≤ len).isSome := by
    rw [List.find?_isSome]
    refine ⟨hs.getLast hr.ne_nil, getLast_mem hr.ne_nil, decide_eq_true (hlen _ ?_)⟩
    exact List.getLast?_eq_some_getLast hr.ne_nil
  obtain ⟨h, hfind⟩ := Option.isSome_iff_exists.mp hsome
  refine ⟨h, hfind, ?_⟩
  obtain ⟨hle, as, bs, rfl, hbefore⟩ := List.find?_eq_some_iff_append.mp hfind
  have hle := of_decide_eq_true hle
  have hf := hsound.filed h (by simp)
  have hmark := (hsound.marked.header _ ⟨h, by simp, rfl⟩).2.2
  have hstop := hf.stop
  have hstart := hf.start
  have hshort := hf.below.length_le
  obtain ⟨q, hq⟩ : ∃ q, h.position = q * couchBlockSize :=
    ⟨h.position / couchBlockSize, (Nat.div_mul_cancel (Nat.dvd_of_mod_eq_zero hstart)).symm⟩
  have hfin : finish couchBlockSize (h.position + 1) (8 + (headerBytes h).length) = h.file.pos := by
    unfold maxHeaderBody maxHeaderSize at hshort
    rw [finish_of_le (by unfold couchBlockSize at *; omega) (by unfold couchBlockSize at *; omega)]
    omega
  have hsize : h.file.pos ≤ (db.file.disk.cut len).size :=
    le_min hle (hfin ▸ hf.framed.le_size)
  have hinfo (buf : Bytes) : headerInfo plat' buf = headerInfo plat buf := by
    simp only [headerInfo, hcrc]
  -- above the header there is none that is whole
  have hmiss (j : ℕ) (hj : q < j) :
      NoHeaderAt plat' (db.file.disk.cut len) (j * couchBlockSize) := by
    have hlt : h.position < j * couchBlockSize := by
      rw [hq]
      exact Nat.mul_lt_mul_of_pos_right hj (show 0 < couchBlockSize by decide)
    refine noHeaderAt_cut hsound hcrc (Nat.mul_mod_left _ _) fun x hx hpos => ?_
    obtain ⟨-, hord, -⟩ := pairwise_append.mp hsound.order
    obtain hx | hx := mem_append.mp hx
    · simpa using hbefore x hx
    · obtain rfl | hx := mem_cons.mp hx
      · omega
      · have := (pairwise_cons.mp hord).1 x hx
        omega
  have hopen : openDb plat' readonly (db.file.disk.cut len) =
      findHeader plat' (blankDb (db.file.disk.cut len)) := by
    rw [openDb, if_neg (by omega)]
  have hk : q < ((db.file.disk.cut len).size - 2) / couchBlockSize + 1 := by
    rw [Nat.lt_succ_iff, Nat.le_div_iff_mul_le (show 0 < couchBlockSize by decide), ← hq]
    omega
  have hblank : (db.file.disk.cut len).Same (blankDb (db.file.disk.cut len)).file.disk := ⟨rfl, rfl⟩
  obtain ⟨db₀, hfound⟩ := findHeaderLoop_finds hrel hbuf (h := h) hk
    (fun j hj _ => hmiss j hj) (by rw [← hq, Disk.cut_byte _ (by omega)]; exact hmark)
    (hq ▸ hf.below) (hq ▸ hf.room)
    (by
      rw [← hq, hinfo]
      refine hf.framed.laid.congr fun i _ hi => Disk.cut_byte _ ?_
      rw [length_append, AppendOp.length_info] at hi
      exact hi.trans_le (hfin.le.trans hle))
    (by rw [← hq, hfin]; exact hsize) hblank .noHeader
  refine ⟨_, hopen.trans hfound, hq.symm, rfl, rfl, rfl, rfl, rfl, rfl⟩

end Open

def newDb : OpenDb := (openDb bufferedPlatform false emptyFile.disk).2

def goneDocs : List (Option Bytes × DocInfo) := [(none, ⟨[7], 0, 1, [], true, 0, 0, 0⟩)]

def savedDb : OpenDb :=
  { newDb with toDb := (saveDocuments bufferedPlatform 2 goneDocs false newDb.toDb).2.2 }

def committedDb : OpenDb := (commit bufferedPlatform savedDb).2

/-- One save, and a second header of which only four bytes are left. -/
theorem open_finds_last_commit_torn :
    ∃ db', History bufferedPlatform committedDb [committedDb, newDb] ∧
      committedDb.position = 4096 ∧ committedDb.updateSeq = 1 ∧
      openDb bufferedPlatform true (committedDb.file.disk.cut 4100) = (.success, db') ∧
      db'.position = 0 ∧ db'.updateSeq = 0 ∧ db'.byIdRoot = none := by
  have hrel : bufferedPlatform.os.Reliable := fun n h => by cases h
  have hbuf : bufferedPlatform.os.Buffered := by
    intro n c hc
    obtain rfl : 4095 = c := Option.some.inj hc
    norm_num
  have hcreate : History bufferedPlatform newDb [newDb] :=
    .create rfl (fun _ => rfl) (Prod.ext (by decide) rfl)
  have hsave : History bufferedPlatform savedDb [newDb] := hcreate.save
    (show saveDocuments bufferedPlatform 2 goneDocs false newDb.toDb = (_, _, _) from rfl)
  have hcommit : History bufferedPlatform committedDb [committedDb, newDb] :=
    hsave.commit (Prod.ext (by decide +kernel) rfl)
  have hnew : newDb.file.pos = 34 ∧ newDb.position = 0 := by decide +kernel
  have hlast : committedDb.file.pos = 4175 ∧ committedDb.position = 4096 ∧
      committedDb.updateSeq = 1 := by
    decide +kernel
  obtain ⟨h, hfind, db', hopen, hpos, hseq, -, -, -, hid, -⟩ :=
    open_finds_last_commit hbuf hcommit rfl hrel hbuf true 4100 (by
      rintro h ⟨rfl⟩
      exact hnew.1.le.trans (by norm_num))
  have hfirst : h = newDb := by
    rw [List.find?_cons_of_neg (by simp [hlast.1]), List.find?_cons_of_pos (by simp [hnew.1])] at hfind
    exact (Option.some.inj hfind).symm
  subst hfirst
  exact ⟨db', hcommit, hlast.2.1, hlast.2.2, hopen, hpos.trans hnew.2, hseq, hid⟩

end Appstack.Couchstore
