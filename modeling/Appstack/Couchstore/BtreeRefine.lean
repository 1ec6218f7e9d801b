import Appstack.Couchstore.LeafGrowth
import Appstack.Couchstore.Compare

namespace Appstack.Couchstore
open Std SortedMap List

abbrev CallCond := ∀ {β : Type}, TreeFile → Option NodePointer → List (Action β) → Prop

def Light (plat : Platform) (cmp : Bytes → Bytes → Ordering) : CallCond :=
  fun file root acts => ∀ t, TreeAt plat file root t → t.Light cmp acts

/-- Root pointers and files that a run of `modify_btree` can reach from the empty tree.
Between the calls, anything else may be appended to the file. -/
inductive Reachable (plat : Platform) (cmp : Bytes → Bytes → Ordering) (cond : CallCond) :
    Option NodePointer → TreeFile → Prop where
  | empty (file : TreeFile) : Reachable plat cmp cond none file
  | append {root : Option NodePointer} {file file' : TreeFile} :
      Reachable plat cmp cond root file → file.Grows file' → Reachable plat cmp cond root file'
  | modify {τ β : Type} {rq : Request τ β} {fuel : ℕ} {root root' : Option NodePointer}
      {acts : List (Action β)} {env env' : Env τ} :
      Reachable plat cmp cond root env.file → rq.plat = plat → rq.cmp = cmp →
      rq.compacting = false → Batch cmp acts → cond env.file root acts →
      modifyBtree rq fuel root acts env = (.success, root', env') → env'.failed = false →
      Reachable plat cmp cond root' env'.file

variable {cmp : Bytes → Bytes → Ordering}

theorem Reachable.wellFormed {plat : Platform} [TransCmp cmp]
    {root : Option NodePointer} {file : TreeFile}
    (hr : Reachable plat cmp (Light plat cmp) root file) :
    ∃ t, TreeAt plat file root t ∧ t.WellFormed cmp := by
  induction hr with
  | empty file => exact ⟨.empty, trivial, .nil, fun _ _ hroot => by cases hroot⟩
  | append _ hg ih =>
    obtain ⟨t, hat, hwf⟩ := ih
    exact ⟨t, hat.mono hg, hwf⟩
  | @modify τ β rq fuel root root' acts env env' _ hplat hcmp hcomp hb hlight hm hf ih =>
    subst hplat hcmp
    obtain ⟨t, hat, hwf⟩ := ih
    have hm' := modifyBtree_fuel (le_max_left fuel (t.height + 1)) hm
    obtain ⟨-, -, t', hat', hwf', -⟩ :=
      modifyBtree_spec hcomp hat hwf hb (hlight t hat) (by omega) hm' hf
    exact ⟨t', hat', hwf'⟩

def plainRequest : Request Unit Unit where
  cmp := ebinCmp
  plat := plainPlatform
  fetchCallback := none
  reduce := none
  rereduce := none
  compacting := false

def largeItem (n : ℕ) : Bytes × Bytes := ([UInt8.ofNat n], List.replicate (2 ^ 28 - 1) 0)

theorem length_largeItem (n : ℕ) :
    (largeItem n).1.length = 1 ∧ (largeItem n).2.length = 2 ^ 28 - 1 :=
  ⟨rfl, length_replicate⟩

theorem largeItems_largeItem : LargeItems ebinCmp largeItem where
  fits n := by
    rw [Fits, (length_largeItem n).1, (length_largeItem n).2]
    omega
  large n := by
    rw [Item.size, leafItem, (length_largeItem n).1, (length_largeItem n).2]
    omega
  lt i n hi hn := ebinCmp_singleton (by omega) hi

/-- A run has brought the file to a tree that is one leaf with the first `n` large items. -/
structure LargeLeaf (P : Option NodePointer → TreeFile → Prop) (n : ℕ) (root : Option NodePointer)
    (file : TreeFile) : Prop where
  reachable : P root file
  pos_le : file.pos ≤ n * 2 ^ 34
  shown : LeafRoot largeItem n file root

def insertLarge (n : ℕ) : List (Action Unit) := [⟨(largeItem n).1, .insert (largeItem n).2⟩]

theorem batch_insertLarge (n : ℕ) : Batch ebinCmp (insertLarge n) where
  order := pairwise_singleton _ _
  fits a ha data hd := by
    obtain rfl := mem_singleton.mp ha
    obtain rfl := ActionType.insert.inj hd
    exact largeItems_largeItem.fits n

section LargeStep
variable {P : Option NodePointer → TreeFile → Prop} {n : ℕ} {root : Option NodePointer}
  {file : TreeFile}

theorem LargeLeaf.insert (h : LargeLeaf P n root file) (hn : n ≤ 7) (rq : Request Unit Unit)
    (hplat : rq.plat = plainPlatform) (hcmp : rq.cmp = ebinCmp) (hcomp : rq.compacting = false) :
    ∃ ptr file', modifyBtree rq 1 root (insertLarge n) ⟨file, (), false⟩ =
        (.success, some ptr, ⟨file', (), false⟩) ∧
      file'.pos ≤ file.pos + 2 ^ 34 ∧ LeafWritten largeItem (n + 1) ptr file' :=
  modifyBtree_large hplat hcomp (hcmp ▸ largeItems_largeItem) (appends_insert _ _ _) h.shown hn
    (h.pos_le.trans (by omega)) ()

theorem largeLeaf_zero (hP : P none ⟨0, ⟨fun _ => 0, 0, 0⟩⟩) :
    LargeLeaf P 0 none ⟨0, ⟨fun _ => 0, 0, 0⟩⟩ :=
  ⟨hP, le_rfl, rfl⟩

theorem exists_largeLeaf (rq : Request Unit Unit) (hplat : rq.plat = plainPlatform)
    (hcmp : rq.cmp = ebinCmp) (hcomp : rq.compacting = false) (hzero : P none ⟨0, ⟨fun _ => 0, 0, 0⟩⟩)
    (hstep : ∀ n root file root' file', P root file →
      modifyBtree rq 1 root (insertLarge n) ⟨file, (), false⟩ =
        (.success, root', ⟨file', (), false⟩) → P root' file')
    (hn : n ≤ 7) : ∃ root file, LargeLeaf P n root file := by
  induction n with
  | zero => exact ⟨_, _, largeLeaf_zero hzero⟩
  | succ n ih =>
    obtain ⟨root, file, h⟩ := ih (by omega)
    obtain ⟨ptr, file', hm, hpos, hw⟩ := h.insert (by omega) rq hplat hcmp hcomp
    have hp := h.pos_le
    exact ⟨some ptr, file', hstep _ _ _ _ _ h.reachable hm, by omega,
      hw.leafRoot largeItems_largeItem hn⟩

end LargeStep

abbrev PlainRun : Option NodePointer → TreeFile → Prop :=
  Reachable plainPlatform ebinCmp fun _ _ _ => True

theorem PlainRun.insertLarge {n : ℕ} {root root' : Option NodePointer} {file file' : TreeFile}
    (h : PlainRun root file)
    (hm : modifyBtree plainRequest 1 root (insertLarge n) ⟨file, (), false⟩ =
      (.success, root', ⟨file', (), false⟩)) : PlainRun root' file' := by
  have hreach : PlainRun root (⟨file, (), false⟩ : Env Unit).file := h
  exact hreach.modify rfl rfl rfl (batch_insertLarge n) trivial hm rfl

/-- In every run of light batches: the tree is well formed, and the next light batch on it
that meets no I/O error succeeds, gives every fetch the value its key had, and leaves a
well-formed tree with the bindings that it inserts and the old ones that it does not touch. -/
theorem modifyBtree_refines {plat : Platform} {cmp : Bytes → Bytes → Ordering} [TransCmp cmp]
    {root : Option NodePointer} {file : TreeFile}
    (hr : Reachable plat cmp (Light plat cmp) root file) :
    ∃ t, TreeAt plat file root t ∧ t.WellFormed cmp ∧
      ∀ {τ β : Type} (rq : Request τ β) (acts : List (Action β)) (env : Env τ) (fuel : ℕ),
        rq.plat = plat → rq.cmp = cmp → rq.compacting = false → env.file = file →
        Batch cmp acts → Light plat cmp file root acts → t.height < fuel →
        ∀ e root' env', modifyBtree rq fuel root acts env = (e, root', env') → env'.failed = false →
          e = .success ∧ env'.ctx = fetchAll rq t.contents acts env.ctx ∧
          ∃ t', TreeAt plat env'.file root' t' ∧ t'.WellFormed cmp ∧ ∀ k v, (k, v) ∈ t'.contents ↔
              (∃ a ∈ acts, a.key = k ∧ a.type = .insert v) ∨
              (k, v) ∈ t.contents ∧ ∀ a ∈ acts, cmp k a.key = .eq → ∃ arg, a.type = .fetch arg := by
  obtain ⟨t, hat, hwf⟩ := hr.wellFormed
  refine ⟨t, hat, hwf, ?_⟩
  rintro τ β rq acts env fuel rfl rfl hcomp rfl hb hlight hfuel e root' env' hm hf
  obtain ⟨he, hctx, t', hat', hwf', hcont⟩ :=
    modifyBtree_spec hcomp hat hwf hb (hlight t hat) hfuel hm hf
  refine ⟨he, hctx, t', hat', hwf', fun k v => ?_⟩
  have hput (a : Action β) : a.edit = (k, .put v) ↔ a.key = k ∧ a.type = .insert v := by
    obtain ⟨key, _ | _ | data⟩ := a <;> simp [Action.edit]
  have hkeep (a : Action β) : a.edit.2 = .keep ↔ ∃ arg, a.type = .fetch arg := by
    obtain ⟨key, _ | _ | data⟩ := a <;> simp [Action.edit]
  rw [hcont, mem_edit hwf.sorted hb.order]
  simp only [mem_map, hput, forall_exists_index, and_imp, forall_apply_eq_imp_iff₂, hkeep]
  rfl

def fetchRequest : Request (List (Option Bytes)) Unit where
  cmp := ebinCmp
  plat := plainPlatform
  fetchCallback := some fun _ v _ vs => vs ++ [v]
  reduce := none
  rereduce := none
  compacting := false

def storedItems : Bindings := [([1], [10]), ([2], [20]), ([3], [30])]

def insertThree : List (Action Unit) := storedItems.map fun e => ⟨e.1, .insert e.2⟩

def insertRun : Errcode × Option NodePointer × Env (List (Option Bytes)) :=
  modifyBtree fetchRequest 1 none insertThree ⟨⟨0, ⟨fun _ => 0, 0, 0⟩⟩, [], false⟩

def changeThree : List (Action Unit) := [⟨[1], .fetch ()⟩, ⟨[2], .remove⟩, ⟨[3], .insert [31]⟩]

def changeRun : Errcode × Option NodePointer × Env (List (Option Bytes)) :=
  modifyBtree fetchRequest 1 insertRun.2.1 changeThree insertRun.2.2

theorem precedes_of_lt {acts : List (Action Unit)}
    (h : acts.Pairwise fun a b => cmp a.key b.key = .lt) :
    (acts.map Action.edit).Pairwise (Precedes cmp) :=
  pairwise_map.mpr (h.imp .inl)

theorem batch_insertThree : Batch ebinCmp insertThree :=
  ⟨precedes_of_lt (by decide), by simp [insertThree, storedItems, Fits]⟩

theorem batch_changeThree : Batch ebinCmp changeThree :=
  ⟨precedes_of_lt (by decide), by simp [changeThree, Fits]⟩

/-- A fetch, a removal and a replacement on a tree of three items. -/
theorem modifyBtree_refines_three_items : changeRun.1 = .success ∧ changeRun.2.2.ctx = [some [10]] ∧
      ∃ t, TreeAt plainPlatform changeRun.2.2.file changeRun.2.1 t ∧ t.WellFormed ebinCmp ∧
        ([1], [10]) ∈ t.contents ∧ ([3], [31]) ∈ t.contents ∧ ∀ v, ([2], v) ∉ t.contents := by
  have hrun : insertRun.1 = .success ∧ insertRun.2.2.failed = false ∧
      changeRun.2.2.failed = false ∧ insertRun.2.1.map (fun ptr =>
        (preadCompressed plainPlatform ptr.pointer insertRun.2.2.file).1) =
        some (.ok (nodeBytes 0 storedItems)) := by decide +kernel
  have hreach : Reachable plainPlatform ebinCmp (Light plainPlatform ebinCmp) insertRun.2.1
      insertRun.2.2.file := by
    refine .modify (.empty _) rfl rfl rfl batch_insertThree ?_ (Prod.ext hrun.1 rfl) hrun.2.1
    intro t hat
    cases t with
    | empty => exact ⟨by change _ < _; decide, by decide⟩
    | root h ts => exact hat.elim
  have hleaf (t : Tree) (hat : TreeAt plainPlatform insertRun.2.2.file insertRun.2.1 t) :
      t = .root 0 storedItems := hat.eq_leaf (by simp [storedItems, Fits]) hrun.2.2.2
  obtain ⟨t, hat, -, h⟩ := modifyBtree_refines hreach
  have hlight : Light plainPlatform ebinCmp insertRun.2.2.file insertRun.2.1 changeThree := by
    intro t hat
    rw [hleaf t hat]
    exact ⟨by change _ < _; decide, by decide⟩
  obtain rfl := hleaf t hat
  obtain ⟨he, hctx, t', hat', hwf', hcont⟩ := h fetchRequest changeThree insertRun.2.2 1 rfl rfl rfl
    rfl batch_changeThree hlight Nat.zero_lt_one changeRun.1 changeRun.2.1 changeRun.2.2 rfl hrun.2.2.1
  refine ⟨he, hctx.trans (by decide +kernel), t', hat', hwf', ?_, ?_, fun v hv => ?_⟩
  · refine (hcont _ _).mpr (.inr ⟨.head _, ?_⟩)
    simp only [changeThree, forall_mem_cons]
    exact ⟨fun _ => ⟨(), trivial⟩, fun h => absurd h (by decide), fun h => absurd h (by decide),
      forall_mem_nil _⟩
  · exact (hcont _ _).mpr (.inl ⟨_, .tail _ (.tail _ (.head _)), rfl, rfl⟩)
  · obtain ⟨a, ha, hk, hty⟩ | ⟨-, hkeep⟩ := (hcont _ _).mp hv
    · simp only [changeThree, mem_cons, not_mem_nil, or_false] at ha
      rcases ha with rfl | rfl | rfl
      · cases hty
      · cases hty
      · cases hk
    · obtain ⟨_, hfetch⟩ := hkeep ⟨[2], .remove⟩ (.tail _ (.head _)) (by decide)
      cases hfetch

/-- After seven inserts of a large value, each of which did what it should, an eighth one
reports success and no I/O error, and leaves a root under which its bindings are not found. -/
theorem modifyBtree_loses_leaf :
    ∃ (root root' : Option NodePointer) (t : Tree) (file : TreeFile) (env' : Env Unit),
      Reachable plainPlatform ebinCmp (fun _ _ _ => True) root file ∧
      TreeAt plainPlatform file root t ∧ t.WellFormed ebinCmp ∧ t.height < 1 ∧
      Batch ebinCmp (insertLarge 7) ∧
      modifyBtree plainRequest 1 root (insertLarge 7) ⟨file, (), false⟩ =
        (.success, root', env') ∧ env'.failed = false ∧
      ¬ ∃ t', TreeAt plainPlatform env'.file root' t' ∧ t'.WellFormed ebinCmp ∧
        ∀ k v, (k, v) ∈ t'.contents ↔ (∃ a ∈ insertLarge 7, a.key = k ∧ a.type = .insert v) ∨
          (k, v) ∈ t.contents ∧
            ∀ a ∈ insertLarge 7, ebinCmp k a.key = .eq → ∃ arg, a.type = .fetch arg := by
  obtain ⟨root, file, h⟩ := exists_largeLeaf (P := PlainRun) plainRequest rfl rfl rfl
    (.empty _) (fun _ _ _ _ _ => PlainRun.insertLarge) le_rfl
  obtain ⟨ptr, file', hm, -, hw⟩ := h.insert le_rfl plainRequest rfl rfl rfl
  obtain ⟨hat, hwf⟩ := h.shown.treeAt largeItems_largeItem (by omega)
  refine ⟨root, some ptr, _, file, _, h.reachable, hat, hwf, Nat.zero_lt_one, batch_insertLarge 7,
    hm, rfl, ?_⟩
  rintro ⟨t', hat', hwf', -⟩
  exact hw.not_treeAt (.refl _) largeItems_largeItem hat' hwf'

end Appstack.Couchstore
