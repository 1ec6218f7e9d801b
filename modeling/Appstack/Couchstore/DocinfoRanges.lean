import Appstack.Couchstore.RangeScan
import Appstack.Couchstore.Save

-- `couchstore_docinfos_by_id` and `couchstore_docinfos_by_sequence` of `couch_db.c`. The callback
-- for nodes and its depth are left out.

namespace Appstack.Couchstore
open Std SortedMap BigEndian List

variable {σ : Type*}

structure DocinfosOptions where
  includeCorruptDocs : Bool := false
  deletesOnly : Bool := false
  noDeletes : Bool := false
  ranges : Bool := false

/-- The callback's positive results, by which it keeps the info, count as success. -/
structure LookupContext (σ : Type*) where
  options : DocinfosOptions
  callback : DocInfo → Env σ → Errcode × Env σ
  byId : Bool

def readDocinfo (byId : Bool) (k v : Bytes) : Except Errcode DocInfo :=
  if byId then byIdReadDocinfo k v else bySeqReadDocinfo k v

def LookupContext.present (context : LookupContext σ) (docinfo : DocInfo) (env : Env σ) :
    Errcode × Env σ :=
  if context.options.deletesOnly && !docinfo.deleted then (.success, env)
  else if context.options.noDeletes && docinfo.deleted then (.success, env)
  else context.callback docinfo env

/-- An entry that cannot be read is presented with its raw bytes when the options ask for it. -/
def lookupCallback (context : LookupContext σ) (k : Bytes) (v : Option Bytes) (env : Env σ) :
    Errcode × Env σ :=
  match v with
  | none => (.success, env)
  | some v =>
    match readDocinfo context.byId k v with
    | .ok docinfo => context.present docinfo env
    | .error e =>
      if e = .corrupt ∧ context.options.includeCorruptDocs then
        context.present ⟨k, 0, 0, v, false, 0, 0, 0⟩ env
      else (e, env)

def docinfosRequest (plat : Platform) (cmp : Bytes → Bytes → Ordering)
    (context : LookupContext σ) : LookupRequest σ where
  cmp := cmp
  plat := plat
  fetchCallback := lookupCallback context
  nodeCallback := none

def iterateDocinfos (plat : Platform) (fuel : ℕ) (keys : List Bytes) (tree : Option NodePointer)
    (byId : Bool) (cmp : Bytes → Bytes → Ordering) (callback : DocInfo → Env σ → Errcode × Env σ)
    (fold : Bool) (env : Env σ) : Errcode × Env σ :=
  match tree with
  | none => (.success, env)
  | some tree =>
    btreeLookup (docinfosRequest plat cmp ⟨{}, callback, byId⟩) fuel tree.pointer
      (if fold then keys else sortBy cmp keys) fold env

def docinfosById (plat : Platform) (fuel : ℕ) (ids : List Bytes) (options : DocinfosOptions)
    (callback : DocInfo → Env σ → Errcode × Env σ) (db : Db) (ctx : σ) : Errcode × Env σ :=
  iterateDocinfos plat fuel ids db.byIdRoot true ebinCmp callback options.ranges
    ⟨db.file, ctx, db.failed⟩

def docinfosBySequence (plat : Platform) (fuel : ℕ) (sequence : List ℕ) (options : DocinfosOptions)
    (callback : DocInfo → Env σ → Errcode × Env σ) (db : Db) (ctx : σ) : Errcode × Env σ :=
  iterateDocinfos plat fuel (sequence.map encodeRaw48) db.bySeqRoot false seqCmp callback
    options.ranges ⟨db.file, ctx, db.failed⟩

def recordDoc (docinfo : DocInfo) (env : Env (List DocInfo)) : Errcode × Env (List DocInfo) :=
  (.success, { env with ctx := env.ctx ++ [docinfo] })

def docOf (byId : Bool) (e : Bytes × Bytes) : Option DocInfo := (readDocinfo byId e.1 e.2).toOption

section Presented
variable {cmp : Bytes → Bytes → Ordering} {t : Tree}

theorem lookupCallback_record {byId : Bool} {k : Bytes} {v : Option Bytes}
    {env env' : Env (List DocInfo)} {e : Errcode} (hv : ∀ x ∈ v, (docOf byId (k, x)).isSome)
    (h : lookupCallback ⟨{}, recordDoc, byId⟩ k v env = (e, env')) :
    e = .success ∧ env' = { env with ctx := env.ctx ++ (found [(k, v)]).filterMap (docOf byId) } := by
  cases v with
  | none =>
    cases h
    simp [found]
  | some v =>
    have hdoc : (docOf byId (k, v)).isSome := hv v rfl
    simp only [lookupCallback] at h
    cases hread : readDocinfo byId k v with
    | error e =>
      rw [docOf, hread] at hdoc
      cases hdoc
    | ok docinfo =>
      have hok : docOf byId (k, v) = some docinfo := by
        rw [docOf, hread]
        rfl
      rw [hread] at h
      cases h
      simp [found, hok]

theorem iterateDocinfos_record {plat : Platform} {root : Option NodePointer} {keys : List Bytes}
    {byId : Bool} {env env' : Env (List DocInfo)} {fuel : ℕ} {e : Errcode}
    (hat : TreeAt plat env.file root t) (hctx : env.ctx = []) (hfuel : t.height < fuel)
    (hread : ∀ x ∈ t.contents, (docOf byId x).isSome)
    (hl : iterateDocinfos plat fuel keys root byId cmp recordDoc true env = (e, env'))
    (hf : env'.failed = false) :
    e = .success ∧ env'.ctx = (found (t.calls cmp keys .start)).filterMap (docOf byId) := by
  match root, t, hat with
  | none, .empty, _ =>
    cases hl
    exact ⟨rfl, hctx⟩
  | some ptr, t, hat =>
    -- a call has a value that can be read, or none
    have hinv : LookupInvariant (docinfosRequest plat cmp ⟨{}, recordDoc, byId⟩) env.file
        (fun c => ∀ v ∈ c.2, (docOf byId (c.1, v)).isSome)
        (fun cs env1 => env.file.Grows env1.file ∧ env1.ctx = (found cs).filterMap (docOf byId))
        (fun env1 => env1.failed = true) :=
      { node := rfl
        grows := And.left
        read := fun hP hr => ⟨hP.1.trans (preadCompressed_appends hr).grows, hP.2⟩
        read_fails := fun _ _ _ => rfl
        fetch := by
          rintro cs env1 k v env2 ⟨hg, hcs⟩ hc hcb
          obtain ⟨-, rfl⟩ := lookupCallback_record hc hcb
          refine ⟨hg, ?_⟩
          rw [found_append, filterMap_append, ← hcs]
        fetch_fails := fun _ hc hcb he => absurd (lookupCallback_record hc hcb).1 he }
    have hcalls : ∀ c ∈ t.calls cmp keys .start, ∀ v ∈ c.2, (docOf byId (c.1, v)).isSome := by
      rintro ⟨k, v⟩ hc x rfl
      have hx : (k, x) ∈ found (t.calls cmp keys .start) := mem_filterMap.mpr ⟨_, hc, rfl⟩
      exact hread _ ((t.found_sublist keys .start).subset hx)
    obtain ⟨he, -, hcs⟩ | ⟨-, hfail⟩ := btreeLookup_calls hinv hat ⟨.refl _, hctx⟩ hcalls hl
    · exact ⟨he, hcs⟩
    · rw [hfail hfuel] at hf
      cases hf

end Presented

section Behind
variable (cmp : Bytes → Bytes → Ordering)

/-- Single lookups get as far as the item `x` in a leaf: the leaf has an item for each of the first
keys, one behind the other, and `x` is the last of them. -/
def Reached (leaf : Bindings) (keys : List Bytes) (x : Bytes × Bytes) : Prop :=
  ∃ ys ks, ks <+: keys ∧ (ys ++ [x]).Sublist leaf ∧
    List.Forall₂ (fun y k => cmp y.1 k = .eq) (ys ++ [x]) ks

/-- A fold from `b` calls back for `x` although its range has ended. A root that is a leaf begins
the range with `x`. Below an interior root `x` is the first key itself and lies behind the second
one, or a later leaf has it. -/
def Tree.Strays (b : Bytes) (ks : List Bytes) (x : Bytes × Bytes) (t : Tree) : Prop :=
  if t.height = 0 then
    (∀ e ∈ t.contents, ¬ within cmp b ks e) ∧ t.contents.find? (fun e => cmp e.1 b != .lt) = some x
  else
    ∃ front leaf back, t.leaves = front ++ leaf :: back ∧
      if ended cmp b ks front.flatten then
        Reached cmp leaf (ks.dropWhile (covers cmp front.flatten)) x
      else leaf.find? (past cmp ks) = some x ∧ cmp x.1 b = .eq

end Behind

section Behind
variable {cmp : Bytes → Bytes → Ordering}

theorem exists_cut_cons {α : Type*} {a : α} {l : List α} {P : List α → α → Prop} :
    (∃ front x back, a :: l = front ++ x :: back ∧ P front x) ↔
      P [] a ∨ ∃ front x back, l = front ++ x :: back ∧ P (a :: front) x := by
  constructor
  · rintro ⟨_ | ⟨y, front⟩, x, back, heq, hP⟩
    · cases heq
      exact .inl hP
    · cases heq
      exact .inr ⟨front, x, back, rfl, hP⟩
  · rintro (hP | ⟨front, x, back, rfl, hP⟩)
    · exact ⟨[], a, l, rfl, hP⟩
    · exact ⟨a :: front, x, back, rfl, hP⟩

variable {ks : List Bytes} {b : Bytes} {ls : List Bindings} {its : Bindings}

theorem mem_atEnd {x : Bytes × Bytes} :
    x ∈ atEnd cmp b ks its ↔ its.find? (past cmp ks) = some x ∧ cmp x.1 b = .eq := by
  simp [atEnd, Option.filter_eq_some_iff]

variable [TransCmp cmp]

theorem mem_hits (hs : Sorted cmp its) {keys : List Bytes} {x : Bytes × Bytes} :
    x ∈ hits cmp its keys ↔ Reached cmp its keys x := by
  induction its generalizing keys with
  | nil =>
    refine iff_of_false not_mem_nil ?_
    rintro ⟨ys, ks, -, hsub, -⟩
    simp at hsub
  | cons e its ih =>
    have ih' := @ih (pairwise_cons.mp hs).2
    cases keys with
    | nil =>
      refine iff_of_false (by simp [hits]) ?_
      rintro ⟨ys, ks, hpre, -, hall⟩
      rw [prefix_nil.mp hpre, forall₂_nil_right_iff] at hall
      simp at hall
    | cons key keys =>
      rw [hits]
      split_ifs with hcmp
      · rw [mem_cons, ih']
        constructor
        · rintro (rfl | ⟨ys, ks, hpre, hsub, hall⟩)
          · exact ⟨[], [key], by simp, by simp, .cons hcmp .nil⟩
          · exact ⟨e :: ys, key :: ks, cons_prefix_cons.mpr ⟨rfl, hpre⟩, hsub.cons_cons e,
              .cons hcmp hall⟩
        · rintro ⟨ys, ks, hpre, hsub, hall⟩
          -- the first item found is `e`, which alone has the first key
          have hfirst {y : Bytes × Bytes} {k : Bytes} {ks' : List Bytes} (hks : ks = k :: ks')
              (hy : y ∈ ys ++ [x]) (hyk : cmp y.1 k = .eq) : y = e ∧ ks' <+: keys := by
            rw [hks, cons_prefix_cons] at hpre
            obtain ⟨rfl, hpre⟩ := hpre
            exact ⟨hs.eq_of_eq (hsub.subset hy) (.head _) (TransCmp.eq_trans hyk
              (OrientedCmp.eq_symm hcmp)), hpre⟩
          cases ys with
          | nil =>
            obtain ⟨k, ks', hk, -, rfl⟩ := forall₂_cons_left_iff.mp hall
            exact .inl (hfirst rfl (by simp) hk).1
          | cons y ys =>
            obtain ⟨k, ks', hk, hall', rfl⟩ := forall₂_cons_left_iff.mp hall
            obtain ⟨rfl, hpre'⟩ := hfirst rfl (.head _) hk
            exact .inr ⟨ys, ks', hpre', cons_sublist_cons.mp hsub, hall'⟩
      · rw [ih']
        constructor
        · rintro ⟨ys, ks, hpre, hsub, hall⟩
          exact ⟨ys, ks, hpre, hsub.cons e, hall⟩
        · rintro ⟨ys, ks, hpre, hsub, hall⟩
          refine ⟨ys, ks, hpre, ?_, hall⟩
          generalize ys ++ [x] = zs at hsub hall
          cases hsub with
          | cons _ hsub => exact hsub
          | cons_cons _ hsub =>
            obtain ⟨k, ks', hk, -, rfl⟩ := forall₂_cons_left_iff.mp hall
            exact absurd ((cons_prefix_cons.mp hpre).1 ▸ hk) hcmp

theorem mem_leafHits (hs : Sorted cmp ls.flatten) {keys : List Bytes}
    {x : Bytes × Bytes} : x ∈ leafHits cmp ls keys ↔ ∃ front leaf back, ls = front ++ leaf :: back ∧
      Reached cmp leaf (keys.dropWhile (covers cmp front.flatten)) x := by
  induction ls generalizing keys with
  | nil => simp [leafHits]
  | cons leaf ls ih =>
    obtain ⟨hleaf, hs', -⟩ := pairwise_append.mp hs
    rw [leafHits, mem_append, mem_hits hleaf, ih hs', exists_cut_cons, flatten_nil,
      dropWhile_covers_nil]
    refine or_congr_right (exists₃_congr fun front leaf' back => and_congr_right fun heq => ?_)
    subst heq
    have hs1 : Sorted cmp (leaf ++ front.flatten) := by
      refine List.Pairwise.sublist ?_ hs
      simp
    rw [dropWhile_covers hs1, flatten_cons]

theorem mem_lateHits (hs : Sorted cmp ls.flatten)
    {x : Bytes × Bytes} : x ∈ lateHits cmp b ks ls ↔ ∃ front leaf back, ls = front ++ leaf :: back ∧
      if ended cmp b ks front.flatten then Reached cmp leaf (ks.dropWhile (covers cmp front.flatten)) x
      else leaf.find? (past cmp ks) = some x ∧ cmp x.1 b = .eq := by
  induction ls with
  | nil => simp [lateHits]
  | cons leaf ls ih =>
    obtain ⟨-, hs', -⟩ := pairwise_append.mp hs
    have hcut {front back : List Bindings} {leaf' : Bindings} (heq : ls = front ++ leaf' :: back) :
        Sorted cmp (leaf ++ front.flatten) := by
      refine List.Pairwise.sublist ?_ hs
      simp [heq]
    rw [exists_cut_cons, flatten_nil, if_neg (by exact Bool.false_ne_true), ← mem_atEnd, lateHits]
    split_ifs with hend
    · rw [mem_append, mem_leafHits hs']
      refine or_congr_right (exists₃_congr fun front leaf' back => and_congr_right fun heq => ?_)
      rw [flatten_cons, if_pos (ended_mono (subset_append_left ..) hend),
        dropWhile_covers (hcut heq)]
    · have hnone : x ∉ atEnd cmp b ks leaf := fun hx => by
        obtain ⟨hfind, heq⟩ := mem_atEnd.mp hx
        have hx := mem_of_find?_eq_some hfind
        refine hend (Bool.and_eq_true_iff.mpr ⟨any_eq_true.mpr ⟨x, hx, ?_⟩,
          any_eq_true.mpr ⟨x, hx, List.find?_some hfind⟩⟩)
        rw [heq]
        rfl
      rw [or_iff_right hnone, ih hs']
      refine exists₃_congr fun front leaf' back => and_congr_right fun heq => ?_
      rw [flatten_cons, ended_append (hcut heq), Bool.eq_false_iff.mpr hend, Bool.false_or]
      split_ifs with hfront
      · have hne : front.flatten ≠ [] := fun hnil => by
          rw [hnil] at hfront
          cases hfront
        rw [covers_append (hcut heq) hne]
      · exact Iff.rfl

theorem Tree.leaves_flatten (t : Tree) : t.leaves.flatten = t.contents := by
  cases t with
  | empty => rfl
  | root h ts => exact Couchstore.leaves_flatten ts

theorem Tree.WellFormed.mem_strays {t : Tree} (hwf : t.WellFormed cmp)
    {x : Bytes × Bytes} : x ∈ t.strays cmp b ks ↔ t.Strays cmp b ks x := by
  rw [Tree.strays, Tree.Strays]
  split_ifs
  · rw [leafStrays]
    split_ifs with hany
    · obtain ⟨y, hy, hin⟩ := any_eq_true.mp hany
      exact iff_of_false not_mem_nil fun h => h.1 y hy hin
    · have hout : ∀ e ∈ t.contents, ¬ within cmp b ks e := by simpa using hany
      rw [and_iff_right hout, Option.mem_toList]
  · exact mem_lateHits (t.leaves_flatten ▸ hwf.sorted)

/-- A fold finds the items that it should, in order, exactly when those are the items of the
first range and the strays. -/
theorem Tree.WellFormed.fold_iff {t : Tree} (hwf : t.WellFormed cmp)
    (wanted : Bytes × Bytes → Bool) :
    found (t.calls cmp (b :: ks) .start) = t.contents.filter wanted ↔
      ∀ x ∈ t.contents, wanted x ↔ within cmp b ks x ∨ t.Strays cmp b ks x := by
  have hmem (x) (hx : x ∈ t.contents) : x ∈ found (t.calls cmp (b :: ks) .start) ↔
      within cmp b ks x ∨ t.Strays cmp b ks x := by
    rw [hwf.calls_fold.1, mem_append, mem_filter, and_iff_right hx, hwf.mem_strays]
  constructor
  · intro heq x hx
    rw [← hmem x hx, heq, mem_filter, and_iff_right hx]
  · intro h
    refine hwf.sorted.eq_of_sublist (t.found_sublist _ _) filter_sublist fun x hx => ?_
    rw [hmem x hx, mem_filter, and_iff_right hx, h x hx]

end Behind

theorem filterMap_docOf_inj {byId : Bool} {l l' : Bindings}
    (hl : ∀ x ∈ l, (docOf byId x).isSome) (hl' : ∀ x ∈ l', (docOf byId x).isSome)
    (hinj : ∀ x ∈ l, ∀ y ∈ l', docOf byId x = docOf byId y → x = y) :
    l.filterMap (docOf byId) = l'.filterMap (docOf byId) ↔ l = l' := by
  refine ⟨fun h => ?_, fun h => h ▸ rfl⟩
  induction l generalizing l' with
  | nil =>
    cases l' with
    | nil => rfl
    | cons y l' =>
      obtain ⟨d, hd⟩ := Option.isSome_iff_exists.mp (hl' y (.head _))
      rw [filterMap_cons_some hd] at h
      cases h
  | cons x l ih =>
    obtain ⟨d, hd⟩ := Option.isSome_iff_exists.mp (hl x (.head _))
    rw [filterMap_cons_some hd] at h
    cases l' with
    | nil => cases h
    | cons y l' =>
      obtain ⟨d', hd'⟩ := Option.isSome_iff_exists.mp (hl' y (.head _))
      rw [filterMap_cons_some hd'] at h
      obtain ⟨rfl, hrest⟩ := List.cons.inj h
      obtain rfl := hinj x (.head _) y (.head _) (hd.trans hd'.symm)
      rw [ih (fun x hx => hl x (.tail _ hx))
        (fun x hx => hl' x (.tail _ hx))
        (fun x hx y hy => hinj x (.tail _ hx) y (.tail _ hy)) hrest]

def endpoints {α : Type*} (rs : List (α × α)) : List α := rs.flatMap fun r => [r.1, r.2]

/-- Closed ranges, each behind the one before it. -/
def Ascends {α : Type*} (cmp : α → α → Ordering) (rs : List (α × α)) : Prop :=
  (∀ r ∈ rs, cmp r.1 r.2 ≠ .gt) ∧ rs.Pairwise fun r r' => cmp r.2 r'.1 = .lt

section Ascending
variable (cmp : Bytes → Bytes → Ordering)

def inRanges (rs : List (Bytes × Bytes)) (x : Bytes × Bytes) : Bool :=
  rs.any fun r => within cmp r.1 [r.2] x

/-- What a tree must be like for a first range `r` and ranges `rs` behind it. If the root is a leaf
then it has nothing in `rs`, or nothing in `r` and in `rs` just its first item from `r` on. Otherwise
each item of `rs` is at an end point of `rs` and in a leaf behind one that goes beyond `r`; and of
the end points that the leaves in front do not go up to, that leaf has all in front of the item. -/
def Tree.RangesHold (r : Bytes × Bytes) (rs : List (Bytes × Bytes)) (t : Tree) : Prop :=
  if t.height = 0 then
    ∀ x ∈ t.contents, inRanges cmp rs x ↔ (∀ y ∈ t.contents, ¬ within cmp r.1 [r.2] y) ∧
      t.contents.find? (fun y => cmp y.1 r.1 != .lt) = some x
  else
    ∀ x ∈ t.contents, inRanges cmp rs x → ∃ front leaf back, t.leaves = front ++ leaf :: back ∧
      (∃ y ∈ front.flatten, cmp y.1 r.2 = .gt) ∧
      Reached cmp leaf ((endpoints rs).dropWhile (covers cmp front.flatten)) x

end Ascending

section Ascending
variable {cmp : Bytes → Bytes → Ordering} [TransCmp cmp] {x : Bytes × Bytes} {r : Bytes × Bytes}
  {rs : List (Bytes × Bytes)}

theorem not_inRanges (h : Ascends cmp (r :: rs)) (hx : within cmp r.1 [r.2] x = true) :
    ¬ inRanges cmp rs x := by
  intro hin
  obtain ⟨r', hr', hx'⟩ := any_eq_true.mp hin
  have hle : cmp x.1 r.2 ≠ .gt := by
    simp [within] at hx
    exact hx.2
  have hge : cmp x.1 r'.1 ≠ .lt := by
    simp [within] at hx'
    exact hx'.1
  exact hge (TransCmp.lt_of_isLE_of_lt (Ordering.isLE_iff_ne_gt.mpr hle)
    ((pairwise_cons.mp h.2).1 r' hr'))

theorem inRanges_of_point (h : ∀ r ∈ rs, cmp r.1 r.2 ≠ .gt) {k : Bytes} (hk : k ∈ endpoints rs)
    (hx : cmp x.1 k = .eq) : inRanges cmp rs x := by
  obtain ⟨r, hr, hk⟩ := mem_flatMap.mp hk
  refine any_eq_true.mpr ⟨r, hr, ?_⟩
  have hle := h r hr
  rcases mem_pair.mp hk with rfl | rfl
  · simp [within, hx, TransCmp.congr_left hx, hle]
  · have hlt : cmp r.2 r.1 ≠ .lt := fun hlt => hle (OrientedCmp.gt_of_lt hlt)
    simp [within, hx, TransCmp.congr_left (c := r.1) hx, hlt]

/-- Behind a first range there are single lookups of the end points that are left. -/
theorem late_iff (h : Ascends cmp (r :: rs)) {m leaf : Bindings} :
    (if ended cmp r.1 (r.2 :: endpoints rs) m then
        Reached cmp leaf ((r.2 :: endpoints rs).dropWhile (covers cmp m)) x
      else leaf.find? (past cmp (r.2 :: endpoints rs)) = some x ∧ cmp x.1 r.1 = .eq) ↔
    (∃ y ∈ m, cmp y.1 r.2 = .gt) ∧ Reached cmp leaf ((endpoints rs).dropWhile (covers cmp m)) x := by
  have hpast {y : Bytes × Bytes} :
      past cmp (r.2 :: endpoints rs) y = true ↔ cmp y.1 r.2 = .gt := by simp [past]
  have hlt {y : Bytes × Bytes} (hy : cmp y.1 r.2 = .gt) : cmp r.1 y.1 = .lt :=
    past_lt (by rintro k ⟨⟩; exact h.1 r (.head _)) (hpast.mpr hy)
  by_cases hm : ∃ y ∈ m, cmp y.1 r.2 = .gt
  · obtain ⟨y, hy, hgt⟩ := hm
    have hcov {k : Bytes} (hk : cmp y.1 k = .gt) : covers cmp m k = true :=
      any_eq_true.mpr ⟨y, hy, by simp [hk]⟩
    have hend : ended cmp r.1 (r.2 :: endpoints rs) m = true :=
      Bool.and_eq_true_iff.mpr ⟨hcov (OrientedCmp.gt_of_lt (hlt hgt)),
        any_eq_true.mpr ⟨y, hy, hpast.mpr hgt⟩⟩
    rw [if_pos hend, and_iff_right ⟨y, hy, hgt⟩, dropWhile_cons_of_pos (hcov hgt)]
  · have hend : ¬ ended cmp r.1 (r.2 :: endpoints rs) m = true := fun hend => by
      obtain ⟨y, hy, hgt⟩ := any_eq_true.mp (Bool.and_eq_true_iff.mp hend).2
      exact hm ⟨y, hy, hpast.mp hgt⟩
    rw [if_neg hend]
    refine iff_of_false (fun hx => ?_) fun hx => hm hx.1
    have hbx := hlt (hpast.mp (List.find?_some hx.1))
    rw [OrientedCmp.eq_symm hx.2] at hbx
    cases hbx

theorem rangesHold_iff (h : Ascends cmp (r :: rs)) (t : Tree) :
    (∀ x ∈ t.contents, inRanges cmp (r :: rs) x ↔ within cmp r.1 (r.2 :: endpoints rs) x ∨
      t.Strays cmp r.1 (r.2 :: endpoints rs) x) ↔ t.RangesHold cmp r rs := by
  have hone (x) : inRanges cmp (r :: rs) x ↔ within cmp r.1 [r.2] x ∨ inRanges cmp rs x := by
    rw [inRanges, any_cons, Bool.or_eq_true]
    rfl
  have hwithin : within cmp r.1 (r.2 :: endpoints rs) = within cmp r.1 [r.2] := rfl
  have hsplit {x : Bytes × Bytes} {p : Prop} (hp : within cmp r.1 [r.2] x = true → ¬ p) :
      (inRanges cmp (r :: rs) x ↔ within cmp r.1 [r.2] x ∨ p) ↔ (inRanges cmp rs x ↔ p) := by
    rw [hone]
    by_cases hx : within cmp r.1 [r.2] x = true
    · simp [hx, hp hx, not_inRanges h hx]
    · simp [hx]
  rw [Tree.RangesHold]
  simp only [Tree.Strays, hwithin]
  split_ifs with hheight
  · exact forall₂_congr fun x hx => hsplit fun hin hout => hout.1 x hx hin
  · simp only [late_iff h]
    have hpoint {x : Bytes × Bytes} (hx : ∃ front leaf back, t.leaves = front ++ leaf :: back ∧
        (∃ y ∈ front.flatten, cmp y.1 r.2 = .gt) ∧
        Reached cmp leaf ((endpoints rs).dropWhile (covers cmp front.flatten)) x) :
        inRanges cmp rs x := by
      obtain ⟨_, _, _, -, -, ys, ks, hpre, -, hall⟩ := hx
      obtain ⟨k, _, hxk, -, hks⟩ := forall₂_cons_right_iff.mp (forall₂_drop_append _ _ _ hall.flip)
      have hk : k ∈ ks := mem_of_mem_drop (hks ▸ mem_cons_self)
      exact inRanges_of_point (fun r' hr' => h.1 r' (.tail _ hr'))
        ((dropWhile_sublist _).subset (hpre.subset hk)) hxk
    refine forall₂_congr fun x hx => ?_
    rw [hsplit fun hin hx => not_inRanges h hin (hpoint hx)]
    exact ⟨Iff.mp, fun himp => ⟨himp, hpoint⟩⟩

end Ascending

section Docinfos
variable {plat : Platform} {t : Tree} {fuel : ℕ}

theorem iterateDocinfos_fold {cmp : Bytes → Bytes → Ordering} [TransCmp cmp]
    {root : Option NodePointer} {byId : Bool} {env env' : Env (List DocInfo)} {b : Bytes}
    {ks : List Bytes} {e : Errcode} (wanted : Bytes × Bytes → Bool)
    (hat : TreeAt plat env.file root t) (hwf : t.WellFormed cmp)
    (hread : ∀ x ∈ t.contents, (docOf byId x).isSome)
    (hkey : ∀ x ∈ t.contents, ∀ y ∈ t.contents, docOf byId x = docOf byId y → cmp x.1 y.1 = .eq)
    (hctx : env.ctx = []) (hfuel : t.height < fuel)
    (hl : iterateDocinfos plat fuel (b :: ks) root byId cmp recordDoc true env = (e, env'))
    (hf : env'.failed = false) :
    e = .success ∧ (env'.ctx = (t.contents.filter wanted).filterMap (docOf byId) ↔
        ∀ x ∈ t.contents, wanted x ↔ within cmp b ks x ∨ t.Strays cmp b ks x) := by
  obtain ⟨he, hcalls⟩ := iterateDocinfos_record hat hctx hfuel hread hl hf
  refine ⟨he, ?_⟩
  have hmem : found (t.calls cmp (b :: ks) .start) ⊆ t.contents := (t.found_sublist _ _).subset
  have hmem' := (filter_sublist (p := wanted) (l := t.contents)).subset
  rw [hcalls, ← hwf.fold_iff wanted]
  refine filterMap_docOf_inj (fun x hx => hread x (hmem hx)) (fun x hx => hread x (hmem' hx))
    fun x hx y hy hxy => ?_
  exact hwf.sorted.eq_of_eq (hmem hx) (hmem' hy) (hkey x (hmem hx) y (hmem' hy) hxy)

theorem id_of_docOf {x : Bytes × Bytes} {d : DocInfo} (h : docOf true x = some d) : d.id = x.1 := by
  rw [docOf, readDocinfo, if_pos rfl, byIdReadDocinfo] at h
  split_ifs at h
  · cases h
  · cases h
    rfl

theorem dbSeq_of_docOf {x : Bytes × Bytes} {d : DocInfo} (h : docOf false x = some d) :
    d.dbSeq = decodeSequenceKey x.1 := by
  rw [docOf, readDocinfo, if_neg Bool.false_ne_true, bySeqReadDocinfo] at h
  split_ifs at h
  · cases h
  · cases h
    rfl

structure DocTrees (plat : Platform) (db : Db) (idTree seqTree : Tree) : Prop where
  id_at : TreeAt plat db.file db.byIdRoot idTree
  id_wf : idTree.WellFormed ebinCmp
  id_reads : ∀ x ∈ idTree.contents, (docOf true x).isSome
  seq_at : TreeAt plat db.file db.bySeqRoot seqTree
  seq_wf : seqTree.WellFormed seqCmp
  seq_reads : ∀ x ∈ seqTree.contents, (docOf false x).isSome

def seqWanted (rs : List (ℕ × ℕ)) (x : Bytes × Bytes) : Bool :=
  rs.any fun r => r.1 ≤ decodeSequenceKey x.1 && decodeSequenceKey x.1 ≤ r.2

def seqRange (r : ℕ × ℕ) : Bytes × Bytes := (encodeRaw48 r.1, encodeRaw48 r.2)

theorem seqCmp_encodeRaw48 {n : ℕ} (hn : n < 2 ^ 48) (k : Bytes) :
    seqCmp k (encodeRaw48 n) = compare (decodeSequenceKey k) n := by
  rw [seqCmp_eq_compare, take_of_length_le (l := encodeRaw48 n) (by simp)]
  exact congrArg _ (decode_encode_of_lt (w := 6) hn)

theorem endpoints_seqRange (rs : List (ℕ × ℕ)) :
    (endpoints rs).map encodeRaw48 = endpoints (rs.map seqRange) := by
  rw [endpoints, endpoints, map_flatMap, flatMap_map]
  rfl

theorem ascends_seqRange {rs : List (ℕ × ℕ)} (h : Ascends compare rs)
    (hlt : ∀ n ∈ endpoints rs, n < 2 ^ 48) : Ascends seqCmp (rs.map seqRange) := by
  have hmem {r : ℕ × ℕ} (hr : r ∈ rs) : r.1 < 2 ^ 48 ∧ r.2 < 2 ^ 48 :=
    ⟨hlt _ (mem_flatMap.mpr ⟨r, hr, by simp⟩), hlt _ (mem_flatMap.mpr ⟨r, hr, by simp⟩)⟩
  have hcmp {a b : ℕ} (ha : a < 2 ^ 48) (hb : b < 2 ^ 48) :
      seqCmp (encodeRaw48 a) (encodeRaw48 b) = compare a b := by
    rw [seqCmp_encodeRaw48 hb, decodeSequenceKey, take_of_length_le (by simp)]
    exact congrArg (compare · b) (decode_encode_of_lt (w := 6) ha)
  refine ⟨forall_mem_map.mpr fun r hr => ?_, pairwise_map.mpr ?_⟩
  · rw [seqRange, hcmp (hmem hr).1 (hmem hr).2]
    exact h.1 r hr
  · refine List.Pairwise.imp_of_mem (fun {r r'} hr hr' hrr => ?_) h.2
    exact (hcmp (hmem hr).2 (hmem hr').1).trans hrr

theorem inRanges_seqRange {rs : List (ℕ × ℕ)} (hlt : ∀ n ∈ endpoints rs, n < 2 ^ 48)
    (x : Bytes × Bytes) : inRanges seqCmp (rs.map seqRange) x = seqWanted rs x := by
  rw [inRanges, any_map, seqWanted]
  refine any_congr fun r hr => ?_
  have h1 := seqCmp_encodeRaw48 (hlt r.1 (mem_flatMap.mpr ⟨r, hr, by simp⟩)) x.1
  have h2 := seqCmp_encodeRaw48 (hlt r.2 (mem_flatMap.mpr ⟨r, hr, by simp⟩)) x.1
  rw [Bool.eq_iff_iff]
  simp [within, seqRange, h1, h2, Nat.compare_eq_lt, Nat.compare_eq_gt]

end Docinfos

def threeDocs : List DocInfo :=
  [⟨[97], 1, 1, [], false, 0, 0, 0⟩, ⟨[98], 2, 1, [], false, 0, 0, 0⟩, ⟨[99], 3, 1, [], false, 0, 0, 0⟩]

def threeIds : Bindings := threeDocs.map fun d => (d.id, assembleIdIndexValue d)

def threeSeqs : Bindings := threeDocs.map fun d => (encodeRaw48 d.dbSeq, assembleSeqIndexValue d)

def threeFile : TreeFile :=
  (dbWriteBufCompressed bufferedPlatform (nodeBytes 0 threeSeqs)
    (dbWriteBufCompressed bufferedPlatform (nodeBytes 0 threeIds) emptyFile).2).2

def threeDb : Db where
  file := threeFile
  failed := false
  updateSeq := 3
  byIdRoot := some ⟨[99], 0, 0, []⟩
  bySeqRoot := some ⟨encodeRaw48 3, 97, 0, []⟩

theorem treeAt_leaf {its : Bindings} {key r : Bytes} {pos size subtree : ℕ} {file file' : TreeFile}
    (hlen : (nodeBytes 0 its).length ≤ chunkLimit) (hfit : ∀ e ∈ its, Fits e)
    (hw : dbWriteBufCompressed bufferedPlatform (nodeBytes 0 its) file = (.ok (pos, size), file')) :
    TreeAt bufferedPlatform file' (some ⟨key, pos, subtree, r⟩) (.root 0 its) :=
  ⟨its, (dbWriteBufCompressed_stored hlen hw).1, hfit, forall₂_same.mpr fun _ _ => rfl⟩

theorem docTrees_threeDb :
    DocTrees bufferedPlatform threeDb (.root 0 threeIds) (.root 0 threeSeqs) := by
  have hid : dbWriteBufCompressed bufferedPlatform (nodeBytes 0 threeIds) emptyFile =
      (.ok (0, 97), (dbWriteBufCompressed bufferedPlatform (nodeBytes 0 threeIds) emptyFile).2) :=
    Prod.ext (by decide) rfl
  have hseq : dbWriteBufCompressed bufferedPlatform (nodeBytes 0 threeSeqs)
      (dbWriteBufCompressed bufferedPlatform (nodeBytes 0 threeIds) emptyFile).2 =
      (.ok (97, 99), threeFile) := Prod.ext (by decide) rfl
  have hfit1 : ∀ e ∈ threeIds, e.1.length < 2 ^ 12 ∧ e.2.length < 2 ^ 28 := by decide
  have hfit2 : ∀ e ∈ threeSeqs, e.1.length < 2 ^ 12 ∧ e.2.length < 2 ^ 28 := by decide
  have hsort1 : threeIds.Pairwise fun a b => ebinCmp a.1 b.1 = .lt := by decide
  have hsort2 : threeSeqs.Pairwise fun a b => seqCmp a.1 b.1 = .lt := by decide
  have hleaf {its : Bindings} (hne : its ≠ []) (h : ℕ) (ts : List (Node h))
      (heq : Tree.root 0 its = .root h ts) : ts ≠ [] ∧ ∀ x ∈ ts, x.Proper := by
    cases heq
    exact ⟨hne, fun _ _ => trivial⟩
  exact {
    id_at := (treeAt_leaf (by decide) hfit1 hid).mono (dbWriteBuf_appends hseq).grows
    id_wf := ⟨hsort1, hleaf nofun⟩
    id_reads := by decide
    seq_at := treeAt_leaf (by decide) hfit2 hseq
    seq_wf := ⟨hsort2, hleaf nofun⟩
    seq_reads := by decide }

end Appstack.Couchstore
