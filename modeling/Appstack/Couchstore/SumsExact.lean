import Appstack.Couchstore.BtreeSums
import Appstack.Couchstore.BtreeBuild
import Appstack.Couchstore.BtreeRefine
import Appstack.Couchstore.RootPointers

namespace Appstack.Couchstore
open Std SortedMap BigEndian

inductive Index where
  | byId
  | bySeq

namespace Index

def cmp : Index → Bytes → Bytes → Ordering
  | byId => ebinCmp
  | bySeq => seqCmp

def reduce : Index → ReduceFn
  | byId => byIdReduce
  | bySeq => bySeqReduce

def rereduce : Index → ReduceFn
  | byId => byIdRereduce
  | bySeq => bySeqRereduce

def value : Index → Bindings → Bytes
  | byId => byIdValue
  | bySeq => bySeqValue

instance (idx : Index) : TransCmp idx.cmp :=
  match idx with
  | byId => inferInstanceAs (TransCmp ebinCmp)
  | bySeq => inferInstanceAs (TransCmp seqCmp)

structure Serves {τ β : Type*} (idx : Index) (rq : Request τ β) : Prop where
  cmp : rq.cmp = idx.cmp
  reduce : rq.reduce = some idx.reduce
  rereduce : rq.rereduce = some idx.rereduce

theorem Serves.reduces {τ β : Type*} {idx : Index} {rq : Request τ β} (h : idx.Serves rq) :
    rq.Reduces idx.value :=
  match idx, h with
  | byId, h => reduces_byId h.reduce h.rereduce
  | bySeq, h => reduces_bySeq h.reduce h.rereduce

/-- A reduce value gives the numbers of the entries `m`, each as long as it fits its field. -/
def Counts : Index → (reduce : Bytes) → (m : Bindings) → Prop
  | byId, reduce, m =>
    (m.countP (fun e => !isDeleted e) < 2 ^ 40 →
      decodeRaw40 (reduce.take 5) = m.countP fun e => !isDeleted e) ∧
    (m.countP isDeleted < 2 ^ 40 → decodeRaw40 ((reduce.drop 5).take 5) = m.countP isDeleted) ∧
    ((m.map sizeField).sum < 2 ^ 48 → decodeRaw48 ((reduce.drop 10).take 6) = (m.map sizeField).sum)
  | bySeq, reduce, m => m.length < 2 ^ 40 → decodeRaw40 (reduce.take 5) = m.length

theorem counts_value (idx : Index) (m : Bindings) : idx.Counts (idx.value m) m := by
  cases idx with
  | byId =>
    obtain ⟨h1, h2, h3⟩ := slots_encodeByIdReduce (m.countP fun e => !isDeleted e)
      (m.countP isDeleted) (m.map sizeField).sum
    simp only [Counts, value, byIdValue, h1, h2, h3]
    exact ⟨decode_encode_of_lt (w := 5), decode_encode_of_lt (w := 5), decode_encode_of_lt (w := 6)⟩
  | bySeq =>
    intro hm
    rw [value, bySeqValue, List.take_of_length_le (by simp)]
    exact decode_encode_of_lt hm

end Index

/-- A pointer with the counts of the leaves below it and the bytes that its node and those
below it take on disk. -/
def Note.exact (idx : Index) : Note where
  Holds plat file h ptr its ts := idx.Counts ptr.reduceValue (ts.flatMap Node.contents) ∧
    ∃ n, Occupies plat file h ptr.pointer its n ∧ (n < 2 ^ 48 → ptr.subtreesize = n)
  mono hg := by
    rintro ⟨hc, n, ho, hn⟩
    exact ⟨hc, n, ho.mono hg, hn⟩

theorem Sums.exact {idx : Index} {plat : Platform} {file : TreeFile} {h : ℕ} {ptr : NodePointer}
    {its : Bindings} {ts : List (Node h)} (hs : Sums idx.value plat file h ptr its ts) :
    (Note.exact idx).Holds plat file h ptr its ts := by
  obtain ⟨n, ho, hle, hmod⟩ := hs.size
  refine ⟨hs.reduce ▸ idx.counts_value _, n, ho, fun hn => ?_⟩
  exact hmod.eq_of_lt_of_lt (hle.trans_lt hn) hn

/-- Roots and files that calls of `modify_btree` and bulk builds can reach. Anything else may
be appended to the file, and the root may be read back from a header that was written behind
it, which tells that the file has not outgrown the operating system's limit. -/
inductive Grown (plat : Platform) (idx : Index) (cond : CallCond) :
    Option NodePointer → TreeFile → Prop where
  | empty (file : TreeFile) : Grown plat idx cond none file
  | append {root : Option NodePointer} {file file' : TreeFile} :
      Grown plat idx cond root file → file.Grows file' → Grown plat idx cond root file'
  | reload {root : Option NodePointer} {file : TreeFile} :
      Grown plat idx cond root file → file.pos ≤ plat.os.maxSize →
      Grown plat idx cond (root.map NodePointer.stored) file
  | modify {τ β : Type} {rq : Request τ β} {fuel : ℕ} {root root' : Option NodePointer}
      {acts : List (Action β)} {env env' : Env τ} :
      Grown plat idx cond root env.file → rq.plat = plat → idx.Serves rq →
      rq.compacting = false → Batch idx.cmp acts → cond env.file root acts →
      modifyBtree rq fuel root acts env = (.success, root', env') → env'.failed = false →
      Grown plat idx cond root' env'.file
  | build {τ β : Type} {rq : Request τ β} {m : Bindings} {mr : Modres}
      {root : Option NodePointer} {env env' : Env τ} :
      rq.plat = plat → idx.Serves rq → rq.compacting = true → Building rq m mr env →
      Sorted idx.cmp m → completeNewBtree rq mr env = (.success, root, env') →
      env'.failed = false → Grown plat idx cond root env'.file

section Histories
variable {plat : Platform} {idx : Index} {root : Option NodePointer} {file : TreeFile} {t : Tree}

theorem TreeNoted.stored {value : Bindings → Bytes} (hat : TreeNoted (Note.sums value) plat file root t)
    (hpos : file.pos ≤ plat.os.maxSize) :
    TreeNoted (Note.sums value) plat file (root.map NodePointer.stored) t := by
  match root, t, hat with
  | none, .empty, _ => trivial
  | some ptr, .root h ts, ⟨its, hst, hf, ⟨hred, n, ho, hle, hmod⟩, hits⟩ =>
    have hmax := plat.os.maxSize_le
    have hlt := hst.le_pos
    have hfin := BlockLayout.add_le_finish (B := couchBlockSize) ptr.pointer
      (8 + (plat.snappy.compress (nodeBytes h its)).length)
    have hptr : ptr.stored.pointer = ptr.pointer := Nat.mod_eq_of_lt (by omega)
    exact ⟨its, hptr.symm ▸ hst, hf,
      ⟨hred, n, hptr.symm ▸ ho, (Nat.mod_le _ _).trans hle, (Nat.mod_modEq _ _).trans hmod⟩, hits⟩

theorem Grown.sums (hr : Grown plat idx (Light plat idx.cmp) root file) :
    ∃ t, TreeNoted (Note.sums idx.value) plat file root t ∧ t.WellFormed idx.cmp := by
  induction hr with
  | empty file => exact ⟨.empty, trivial, .nil, fun _ _ hroot => by cases hroot⟩
  | append _ hg ih =>
    obtain ⟨t, hat, hwf⟩ := ih
    exact ⟨t, hat.mono hg, hwf⟩
  | reload _ hpos ih =>
    obtain ⟨t, hat, hwf⟩ := ih
    exact ⟨t, hat.stored hpos, hwf⟩
  | @modify τ β rq fuel root root' acts env env' _ hplat hrq hcomp hb hlight hm hf ih =>
    subst hplat
    obtain ⟨t, hat, hwf⟩ := ih
    have := sums_lawful hrq.reduces
    have : TransCmp rq.cmp := hrq.cmp ▸ inferInstance
    have hm' := modifyBtree_fuel (le_max_left fuel (t.height + 1)) hm
    rw [← hrq.cmp] at hwf hb hlight ⊢
    obtain ⟨-, -, t', hat', hwf', -⟩ :=
      modifyBtree_noted hcomp hat hwf hb (hlight t hat.treeAt) (by omega) hm' hf
    exact ⟨t', hat', hwf'⟩
  | build hplat hrq hcomp hb hs hc hf =>
    subst hplat
    have := sums_lawful hrq.reduces
    obtain ⟨t, hat, rfl, hp⟩ := completeNewBtree_shows (N := Note.sums idx.value) hcomp hb hc hf
    exact ⟨t, hat, hs, hp⟩

theorem dbInfo_counts (hat : TreeNoted (Note.exact .byId) plat file root t) {db : OpenDb}
    (hdb : db.byIdRoot = root) :
    (t.contents.countP (fun e => !isDeleted e) < 2 ^ 40 →
      (dbInfo db).docCount = t.contents.countP fun e => !isDeleted e) ∧
    (t.contents.countP isDeleted < 2 ^ 40 →
      (dbInfo db).deletedCount = t.contents.countP isDeleted) := by
  match root, t, hat with
  | none, .empty, _ =>
    rw [dbInfo, hdb]
    exact ⟨fun _ => rfl, fun _ => rfl⟩
  | some ptr, .root h ts, ⟨_, _, _, ⟨hcounts, _⟩, _⟩ =>
    rw [dbInfo, hdb]
    exact ⟨hcounts.1, hcounts.2.1⟩

end Histories

/-- In every history of light calls and bulk builds, all pointers from the root on have the
counts of the leaves below them and the size of their subtree, and a database with this
by-id root reports the numbers of its entries. -/
theorem pointers_sum_leaves {plat : Platform} {idx : Index} {root : Option NodePointer}
    {file : TreeFile} (hr : Grown plat idx (Light plat idx.cmp) root file) :
    ∃ t, TreeNoted (Note.exact idx) plat file root t ∧ t.WellFormed idx.cmp ∧
      (idx = .byId → ∀ db : OpenDb, db.byIdRoot = root →
        (t.contents.countP (fun e => !isDeleted e) < 2 ^ 40 →
          (dbInfo db).docCount = t.contents.countP fun e => !isDeleted e) ∧
        (t.contents.countP isDeleted < 2 ^ 40 →
          (dbInfo db).deletedCount = t.contents.countP isDeleted)) := by
  obtain ⟨t, hat, hwf⟩ := hr.sums
  have hexact : TreeNoted (Note.exact idx) plat file root t := hat.imp Sums.exact
  refine ⟨t, hexact, hwf, ?_⟩
  rintro rfl db hdb
  exact dbInfo_counts hexact hdb

def countRequest : Request Unit Unit :=
  { plainRequest with reduce := some byIdReduce, rereduce := some byIdRereduce }

theorem countRequest_serves : Index.byId.Serves countRequest := ⟨rfl, rfl, rfl⟩

/-- The by-id entry of a document with an empty body. -/
def countEntry (id : UInt8) (dbSeq : ℕ) (deleted : Bool) : Bytes × Bytes :=
  ([id], assembleIdIndexValue ⟨[id], dbSeq, 1, [], deleted, 0, 0, 0⟩)

def countEntries : Bindings := [countEntry 1 1 false, countEntry 2 2 true, countEntry 3 3 false]

def countInserts : List (Action Unit) := countEntries.map fun e => ⟨e.1, .insert e.2⟩

def countChanges : List (Action Unit) :=
  [⟨[1], .fetch ()⟩, ⟨[2], .remove⟩, ⟨[3], .insert (countEntry 3 4 true).2⟩]

def countRun : Errcode × Option NodePointer × Env Unit :=
  modifyBtree countRequest 1 none countInserts ⟨⟨0, ⟨fun _ => 0, 0, 0⟩⟩, (), false⟩

def recountRun : Errcode × Option NodePointer × Env Unit :=
  modifyBtree countRequest 1 countRun.2.1 countChanges countRun.2.2

/-- Three entries, of which one is looked at, one removed and one replaced. -/
theorem pointers_sum_leaves_three_entries :
    ∃ t, TreeNoted (Note.exact .byId) plainPlatform recountRun.2.2.file recountRun.2.1 t ∧
      t.WellFormed ebinCmp ∧ ∀ db : OpenDb, db.byIdRoot = recountRun.2.1 →
        (dbInfo db).docCount = 1 ∧ (dbInfo db).deletedCount = 1 := by
  have hrun : countRun.1 = .success ∧ countRun.2.2.failed = false ∧ recountRun.1 = .success ∧
      recountRun.2.2.failed = false := by decide +kernel
  have hread : countRun.2.1.map (fun ptr =>
        (preadCompressed plainPlatform ptr.pointer countRun.2.2.file).1) =
        some (.ok (nodeBytes 0 countEntries)) ∧
      recountRun.2.1.map (fun ptr =>
        (preadCompressed plainPlatform ptr.pointer recountRun.2.2.file).1) =
        some (.ok (nodeBytes 0 [countEntry 1 1 false, countEntry 3 4 true])) := by decide +kernel
  have hfirst : Grown plainPlatform .byId (Light plainPlatform ebinCmp) countRun.2.1
      countRun.2.2.file := by
    refine .modify (.empty _) rfl countRequest_serves rfl
      ⟨precedes_of_lt (by decide),
        by simp [countInserts, countEntries, countEntry, Fits, length_assembleIdIndexValue]⟩ ?_
      (Prod.ext hrun.1 rfl) hrun.2.1
    intro t hat
    cases t with
    | empty => exact ⟨by change _ < _; decide, by decide⟩
    | root h ts => exact hat.elim
  have hnext : Grown plainPlatform .byId (Light plainPlatform ebinCmp) recountRun.2.1
      recountRun.2.2.file := by
    refine .modify hfirst rfl countRequest_serves rfl
      ⟨precedes_of_lt (by decide),
        by simp [countChanges, countEntry, Fits, length_assembleIdIndexValue]⟩ ?_
      (Prod.ext hrun.2.2.1 rfl) hrun.2.2.2
    intro t hat
    rw [hat.eq_leaf (by simp [countEntries, countEntry, Fits, length_assembleIdIndexValue]) hread.1]
    exact ⟨by change _ < _; decide, by decide⟩
  obtain ⟨t, hat, hwf, hinfo⟩ := pointers_sum_leaves hnext
  refine ⟨t, hat, hwf, fun db hdb => ?_⟩
  have hcounts := hinfo rfl db hdb
  rw [hat.treeAt.eq_leaf (by simp [countEntry, Fits, length_assembleIdIndexValue]) hread.2] at hcounts
  exact ⟨hcounts.1 (by decide), hcounts.2 (by decide)⟩

/-- Eight large entries, one in each call: all calls report success and no I/O error, and
the last root has no tree with sums below it. -/
theorem pointers_lose_leaves :
    ∃ (root root' : Option NodePointer) (t : Tree) (file : TreeFile) (env' : Env Unit),
      Grown plainPlatform .byId (fun _ _ _ => True) root file ∧
      TreeAt plainPlatform file root t ∧ t.WellFormed ebinCmp ∧ t.height < 1 ∧
      Batch ebinCmp (insertLarge 7) ∧
      modifyBtree countRequest 1 root (insertLarge 7) ⟨file, (), false⟩ =
        (.success, root', env') ∧ env'.failed = false ∧
      ¬ ∃ t', TreeNoted (Note.exact .byId) plainPlatform env'.file root' t' ∧
        t'.WellFormed ebinCmp := by
  have hstep : ∀ n root file root' file', Grown plainPlatform .byId (fun _ _ _ => True) root file →
      modifyBtree countRequest 1 root (insertLarge n) ⟨file, (), false⟩ =
        (.success, root', ⟨file', (), false⟩) →
      Grown plainPlatform .byId (fun _ _ _ => True) root' file' := by
    intro n root file root' file' hg hm
    have hg' : Grown plainPlatform .byId (fun _ _ _ => True) root
      (⟨file, (), false⟩ : Env Unit).file := hg
    exact hg'.modify rfl countRequest_serves rfl (batch_insertLarge n) trivial hm rfl
  obtain ⟨root, file, h⟩ := exists_largeLeaf countRequest rfl rfl rfl (.empty _) hstep le_rfl
  obtain ⟨ptr, file', hm, -, hw⟩ := h.insert le_rfl countRequest rfl rfl rfl
  obtain ⟨hat, hwf⟩ := h.shown.treeAt largeItems_largeItem (by omega)
  refine ⟨root, some ptr, _, file, _, h.reachable, hat, hwf, Nat.zero_lt_one, batch_insertLarge 7,
    hm, rfl, ?_⟩
  rintro ⟨t', hat', hwf'⟩
  exact hw.not_treeAt (.refl _) largeItems_largeItem hat'.treeAt hwf'

end Appstack.Couchstore
