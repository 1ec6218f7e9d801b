import Appstack.Couchstore.BtreeRoot

namespace Appstack.Couchstore
open Std SortedMap Function List

variable {τ β : Type*} {rq : Request τ β}

theorem flushTake_of_lt (ty : NodeType) {is : List Item} {q : UInt64} (n : ℕ)
    (h : (is.map Item.size).sum < q.toNat) : flushTake ty is q n = (is, []) := by
  induction is generalizing q n with
  | nil => rfl
  | cons i is ih =>
    rw [map_cons, sum_cons] at h
    have hq := q.toNat_lt
    have hi : (UInt64.ofNat i.size).toNat = i.size := by
      rw [UInt64.toNat_ofNat', Nat.mod_eq_of_lt (by omega)]
    have hle : UInt64.ofNat i.size ≤ q := by
      rw [UInt64.le_iff_toNat_le, hi]
      omega
    have hpos : q > 0 := by
      rw [gt_iff_lt, UInt64.lt_iff_toNat_lt]
      exact Nat.zero_lt_of_lt h
    rw [flushTake, if_pos (.inl hpos), ih (n + 1)]
    rw [UInt64.toNat_sub_of_le _ _ hle, hi]
    omega

theorem flushTake_wraps (ty : NodeType) {i : Item} {is : List Item} (hi : chunkSize < i.size)
    (h : i.size + (is.map Item.size).sum < 2 ^ 63) :
    flushTake ty (i :: is) (UInt64.ofNat chunkSize) 0 = (i :: is, []) := by
  have hq : (UInt64.ofNat chunkSize - UInt64.ofNat i.size).toNat = 2 ^ 64 + chunkSize - i.size := by
    have hc : chunkSize = 852 := rfl
    rw [UInt64.toNat_sub, UInt64.toNat_ofNat', UInt64.toNat_ofNat', hc,
      Nat.mod_eq_of_lt (show i.size < 2 ^ 64 by omega)]
    omega
  rw [flushTake, if_pos (.inl (by decide)), flushTake_of_lt]
  rw [hq]
  omega

theorem NodeType.toByte_inj {a b : NodeType} (h : a.toByte = b.toByte) : a = b := by
  cases a <;> cases b <;> first | rfl | cases h

theorem nodeBytes_inj {h h' : ℕ} {its its' : Bindings} (hfit : ∀ x ∈ its, Fits x)
    (hfit' : ∀ x ∈ its', Fits x) (heq : nodeBytes h its = nodeBytes h' its') :
    levelType h = levelType h' ∧ its = its' := by
  obtain ⟨htag, hits⟩ := List.cons.inj heq
  exact ⟨NodeType.toByte_inj htag, by rw [← readItems_flatMap hfit, hits, readItems_flatMap hfit']⟩

/-- A tree that is one leaf can be read off the file. -/
theorem TreeAt.eq_leaf {plat : Platform} {file : TreeFile} {root : Option NodePointer} {t : Tree}
    {its : Bindings} (hat : TreeAt plat file root t) (hfit : ∀ x ∈ its, Fits x)
    (hread : root.map (fun ptr => (preadCompressed plat ptr.pointer file).1) =
      some (.ok (nodeBytes 0 its))) : t = .root 0 its := by
  match root, t, hat with
  | none, _, _ => cases hread
  | some ptr, .root h ts, ⟨its', hst, hfit', hits⟩ =>
    have heq := preadCompressed_stored hst (Prod.ext (Option.some.inj hread) rfl)
    obtain ⟨hty, rfl⟩ := nodeBytes_inj hfit hfit' heq
    cases h with
    | succ h => cases hty
    | zero => rw [shows_zero (hits.imp fun _ _ hx => hx.blank)]

def leafItem (x : Bytes × Bytes) : Item := { key := x.1, data := x.2, pointer := none }

theorem flushMrPartial_all {mr : Modres} {q : UInt64} {env : Env τ} {pos size : ℕ} {file : TreeFile}
    (hne : mr.values ≠ []) (hmod : mr.modified = true)
    (ht : flushTake mr.nodeType mr.values q 0 = (mr.values, []))
    (hw : dbWriteBufCompressed rq.plat (nodeBuf mr.nodeType mr.values) env.file =
      (.ok (pos, size), file)) :
    ∃ ptr mr', ptr.pointer = pos ∧
      flushMrPartial rq mr q env = (.success, mr', { env with file := file }) ∧
      mr'.values = [] ∧ mr'.pointers = mr.pointers ++ [encodePointer ptr] ∧
      mr'.modified = true := by
  unfold flushMrPartial
  rw [if_neg (by simp [hne, hmod])]
  simp only [ht, hw]
  exact ⟨_, _, rfl, rfl, rfl, rfl, hmod⟩

theorem kvItems_below {a : Action β} {acts : List (Action β)} {its : Bindings} {res : Modres}
    (env : Env τ) (hlt : ∀ x ∈ its, rq.cmp x.1 a.key = .lt) (hmod : res.modified = false) :
    kvItems rq its (a :: acts) res env = ({ res with
          values := res.values ++ its.map leafItem
          nodeLen := res.nodeLen + ((its.map leafItem).map Item.size).sum
          count := res.count + its.length }, env, a :: acts) := by
  induction its generalizing res with
  | nil => simp [kvItems]
  | cons x its ih =>
    obtain ⟨k, v⟩ := x
    have hp : mrPushItem rq k v res env = (.success, { res with
        values := res.values ++ [leafItem (k, v)]
        nodeLen := res.nodeLen + (leafItem (k, v)).size
        count := res.count + 1 }, env) := by
      simp [mrPushItem, pushValue, maybeFlush, hmod, leafItem]
    rw [kvItems_cons, kvStep_lt (hlt (k, v) (by simp)) hp]
    rw [ih (fun y hy => hlt y (by simp [hy])) (by exact hmod)]
    simp only [map_cons, append_assoc, singleton_append, sum_cons,
      length_cons, Nat.add_assoc, Nat.cast_add, Nat.cast_one]
    congr 2
    omega

structure OneNode (mr : Modres) (q : UInt64) : Prop where
  ne_nil : mr.values ≠ []
  modified : mr.modified = true
  pointers : mr.pointers = []
  quota_all : flushTake mr.nodeType mr.values q 0 = (mr.values, [])
  all : flushTake mr.nodeType mr.values (UInt64.ofNat mr.nodeLen) 0 = (mr.values, [])

theorem flush_oneNode (hcomp : rq.compacting = false) {mr : Modres} {env : Env τ} {pos size : ℕ}
    {file : TreeFile} (h : OneNode mr (UInt64.ofNat chunkSize))
    (hw : dbWriteBufCompressed rq.plat (nodeBuf mr.nodeType mr.values) env.file =
      (.ok (pos, size), file)) :
    ∃ ptr mr', ptr.pointer = pos ∧
      flushMr rq (maybeFlush rq mr env).2.1 (maybeFlush rq mr env).2.2 =
        (.success, mr', { env with file := file }) ∧
      (maybeFlush rq mr env).2.1.modified = true ∧ mr'.modified = true ∧
      mr'.pointers = [encodePointer ptr] := by
  by_cases hfull : mr.nodeLen > chunkThreshold ∧ mr.count > 3
  · obtain ⟨ptr, mr', hptr, hfl, hv, hp, hm⟩ := flushMrPartial_all h.ne_nil h.modified h.quota_all hw
    have hmf : maybeFlush rq mr env = (.success, mr', { env with file := file }) := by
      rw [maybeFlush, hcomp, if_neg (by simp), if_pos ⟨h.modified, hfull⟩, hfl]
    refine ⟨ptr, mr', hptr, ?_, by rw [hmf]; exact hm, hm, by rw [hp, h.pointers]; rfl⟩
    simp [hmf, flushMr, flushMrPartial, hv]
  · obtain ⟨ptr, mr', hptr, hfl, -, hp, hm⟩ := flushMrPartial_all h.ne_nil h.modified h.all hw
    have hmf : maybeFlush rq mr env = (.success, mr, env) := by
      rw [maybeFlush, hcomp, if_neg (by simp), if_neg (fun hc => hfull hc.2)]
    rw [hmf]
    exact ⟨ptr, mr', hptr, hfl, h.modified, hm, by rw [hp, h.pointers]; rfl⟩

structure Appends (rq : Request τ β) (acts : List (Action β)) (k v : Bytes) : Prop where
  head : ∃ a rest, acts = a :: rest ∧ a.key = k
  tail : ∀ res env, kvTail rq acts res env = kvTail rq [⟨k, .insert v⟩] res env

theorem appends_insert (rq : Request τ β) (k v : Bytes) : Appends rq [⟨k, .insert v⟩] k v :=
  ⟨⟨_, _, rfl, rfl⟩, fun _ _ => rfl⟩

section Append
variable {its : Bindings} {k v : Bytes} {env : Env τ} {pos size : ℕ} {file : TreeFile}
  {acts : List (Action β)}

theorem modifyLeaf_append (hcomp : rq.compacting = false) (hacts : Appends rq acts k v)
    (hlt : ∀ x ∈ its, rq.cmp x.1 k = .lt)
    (hbig : ∀ x ∈ (its ++ [(k, v)]).head?, chunkSize < (leafItem x).size)
    (hsum : (((its ++ [(k, v)]).map leafItem).map Item.size).sum < 2 ^ 63)
    (hw : dbWriteBufCompressed rq.plat (nodeBytes 0 (its ++ [(k, v)])) env.file =
      (.ok (pos, size), file)) (nptr : Option NodePointer) :
    ∃ ptr mr, ptr.pointer = pos ∧ modifyLeaf rq nptr its acts (makeModres .kp) env =
        (.success, mr, { env with file := file }) ∧
      mr.modified = true ∧ mr.pointers = [] ∧ mr.values = [encodePointer ptr] ∧ mr.count = 1 := by
  obtain ⟨mr, hmr⟩ : ∃ mr : Modres, mr = { makeModres .kv with
    values := (its ++ [(k, v)]).map leafItem
    nodeLen := (((its ++ [(k, v)]).map leafItem).map Item.size).sum
    count := (its.length : ℤ) + 1
    modified := true } := ⟨_, rfl⟩
  have hpass : modifyLeaf rq nptr its acts (makeModres .kp) env =
      finishNode rq nptr (maybeFlush rq mr env).2.1 (makeModres .kp) (maybeFlush rq mr env).2.2 := by
    obtain ⟨a, rest, rfl, rfl⟩ := hacts.head
    have hbelow : kvItems rq its (a :: rest) (makeModres .kv) env = _ := kvItems_below env hlt rfl
    simp only [modifyLeaf, hbelow, hacts.tail]
    simp only [kvTail, actAbsent, mrPushItem, pushValue]
    subst hmr
    simp [makeModres, leafItem]
  have hone : OneNode mr (UInt64.ofNat chunkSize) := by
    subst hmr
    refine ⟨by simp, rfl, rfl, ?_, flushTake_all _ _ (by dsimp only; omega)⟩
    dsimp only
    cases hits : its ++ [(k, v)] with
    | nil => simp at hits
    | cons x xs =>
      rw [hits] at hbig hsum
      exact flushTake_wraps _ (hbig x rfl) (by simpa using hsum)
  have hbuf : nodeBuf mr.nodeType mr.values = nodeBytes 0 (its ++ [(k, v)]) := by
    subst hmr
    exact (nodeBuf_eq_nodeBytes 0 _).trans (by simp [leafItem, comp_def])
  obtain ⟨ptr, mr', hptr, hfl, hm, hm', hp⟩ := flush_oneNode hcomp hone (hbuf ▸ hw)
  have hmove : modifyLeaf rq nptr its acts (makeModres .kp) env = (.success, { makeModres .kp with
        values := [encodePointer ptr]
        nodeLen := (encodePointer ptr).size
        count := 1
        modified := true }, { env with file := file }) := by
    rw [hpass, finishNode_move (.inl hm) hfl (hm'.trans hm.symm), hp]
    simp [moveLoop, pushValue, maybeFlush, makeModres, hcomp]
  exact ⟨ptr, _, hptr, hmove, rfl, rfl, rfl, rfl⟩

def RootLeaf (rq : Request τ β) (root : Option NodePointer) (its : Bindings) (file₀ file : TreeFile) :
    Prop :=
  match root with
  | none => its = [] ∧ file = file₀
  | some ptr => preadCompressed rq.plat ptr.pointer file₀ = (.ok (nodeBytes 0 its), file)

theorem modifyBtree_append (hcomp : rq.compacting = false) {root : Option NodePointer}
    {file1 : TreeFile} (hacts : Appends rq acts k v) (hfit : ∀ x ∈ its, Fits x)
    (hroot : RootLeaf rq root its env.file file1)
    (hlt : ∀ x ∈ its, rq.cmp x.1 k = .lt)
    (hbig : ∀ x ∈ (its ++ [(k, v)]).head?, chunkSize < (leafItem x).size)
    (hsum : (((its ++ [(k, v)]).map leafItem).map Item.size).sum < 2 ^ 63)
    (hw : dbWriteBufCompressed rq.plat (nodeBytes 0 (its ++ [(k, v)])) file1 =
      (.ok (pos, size), file)) :
    ∃ ptr, ptr.pointer = pos ∧ modifyBtree rq 1 root acts env =
      (.success, some ptr, { env with file := file }) := by
  have hw' : dbWriteBufCompressed rq.plat (nodeBytes 0 (its ++ [(k, v)]))
    ({ env with file := file1 } : Env τ).file = (.ok (pos, size), file) := hw
  obtain ⟨ptr, mr, hptr, hleaf, hm, hp, hv, hc⟩ := modifyLeaf_append hcomp hacts hlt hbig hsum hw' root
  have hnode : modifyNode rq 1 root acts (makeModres .kp) env =
      (.success, mr, { env with file := file }) := by
    have hne : acts ≠ [] := by
      obtain ⟨a, rest, rfl, -⟩ := hacts.head
      exact cons_ne_nil a rest
    cases root with
    | none =>
      obtain ⟨rfl, rfl⟩ := hroot
      simpa [modifyNode, modifyBody, hne] using hleaf
    | some ptr0 =>
      have hread : preadCompressed rq.plat ptr0.pointer env.file = (.ok (nodeBytes 0 its), file1) :=
        hroot
      simp only [modifyNode, modifyBody, hread]
      simpa [hne, nodeBytes, levelType, NodeType.toByte, readItems_flatMap hfit] using hleaf
  refine ⟨ptr, hptr, ?_⟩
  simp [modifyBtree, hnode, hm, hp, hv, hc, encodePointer]

end Append

def plainPlatform : Platform where
  os := { outcome := fun _ => some (2 ^ 64), maxSize := 2 ^ 47, maxSize_le := le_rfl }
  snappy := .identity
  hashCrc32 := fun _ => 0

theorem plainPlatform_reliable : plainPlatform.os.Reliable := fun _ => by simp [plainPlatform]

theorem compress_plainPlatform (buf : Bytes) : plainPlatform.snappy.compress buf = buf := rfl

/-- Items in key order whose values are about as large as the format allows. -/
structure LargeItems (cmp : Bytes → Bytes → Ordering) (item : ℕ → Bytes × Bytes) : Prop where
  fits : ∀ n, Fits (item n)
  large : ∀ n, 2 ^ 28 ≤ (leafItem (item n)).size
  lt : ∀ i n, i < n → n ≤ 7 → cmp (item i).1 (item n).1 = .lt

section Large
variable {cmp : Bytes → Bytes → Ordering} {item : ℕ → Bytes × Bytes} {n : ℕ}

def firstItems (item : ℕ → Bytes × Bytes) (n : ℕ) : Bindings := (List.range n).map item

theorem firstItems_succ (item : ℕ → Bytes × Bytes) (n : ℕ) :
    firstItems item (n + 1) = firstItems item n ++ [item n] := by
  simp [firstItems, range_succ]

theorem mem_firstItems {x : Bytes × Bytes} : x ∈ firstItems item n ↔ ∃ i < n, item i = x := by
  simp [firstItems]

theorem LargeItems.fits_mem (h : LargeItems cmp item) : ∀ x ∈ firstItems item n, Fits x := by
  intro x hx
  obtain ⟨i, -, rfl⟩ := mem_firstItems.mp hx
  exact h.fits i

theorem LargeItems.sum_size (h : LargeItems cmp item) (n : ℕ) :
    n * 2 ^ 28 ≤ (((firstItems item n).map leafItem).map Item.size).sum ∧
      (((firstItems item n).map leafItem).map Item.size).sum ≤ n * (2 ^ 28 + 4100) := by
  induction n with
  | zero => simp [firstItems]
  | succ n ih =>
    have hlarge := h.large n
    have hsize : (leafItem (item n)).size ≤ 2 ^ 28 + 4100 := by
      have hfit := h.fits n
      simp only [Fits] at hfit
      simp only [leafItem, Item.size]
      omega
    rw [firstItems_succ, map_append, map_append, sum_append, Nat.succ_mul, Nat.succ_mul]
    simp only [map_cons, map_nil, sum_singleton]
    exact ⟨Nat.add_le_add ih.1 hlarge, Nat.add_le_add ih.2 hsize⟩

theorem length_leafNode (its : Bindings) :
    (nodeBytes 0 its).length = 1 + ((its.map leafItem).map Item.size).sum := by
  rw [← length_nodeBuf .kv]
  exact congrArg List.length ((nodeBuf_eq_nodeBytes 0 _).trans (by
    simp [leafItem, comp_def])).symm

theorem LargeItems.lt_mem (h : LargeItems cmp item) (hn : n ≤ 7) :
    ∀ x ∈ firstItems item n, cmp x.1 (item n).1 = .lt := by
  intro x hx
  obtain ⟨i, hi, rfl⟩ := mem_firstItems.mp hx
  exact h.lt i n hi hn

theorem LargeItems.sorted (h : LargeItems cmp item) (hn : n ≤ 8) :
    Sorted cmp (firstItems item n) := by
  induction n with
  | zero => exact .nil
  | succ n ih =>
    rw [firstItems_succ]
    refine pairwise_append.mpr ⟨ih (by omega), pairwise_singleton _ _, ?_⟩
    intro x hx y hy
    obtain rfl := mem_singleton.mp hy
    exact h.lt_mem (by omega) x hx

def LeafRoot (item : ℕ → Bytes × Bytes) (n : ℕ) (file : TreeFile) : Option NodePointer → Prop
  | none => n = 0
  | some ptr => Stored plainPlatform file ptr.pointer (nodeBytes 0 (firstItems item n))

variable {root : Option NodePointer}

theorem LeafRoot.mono {file file' : TreeFile}
    (h : LeafRoot item n file root) (hg : file.Grows file') : LeafRoot item n file' root := by
  cases root with
  | none => exact h
  | some ptr => exact Stored.mono h hg

theorem LeafRoot.treeAt {file : TreeFile}
    (h : LeafRoot item (n + 1) file root) (hitems : LargeItems cmp item) (hn : n < 8) :
    TreeAt plainPlatform file root (.root 0 (firstItems item (n + 1))) ∧
      (Tree.root 0 (firstItems item (n + 1))).WellFormed cmp := by
  cases root with
  | none => cases h
  | some ptr =>
    refine ⟨⟨_, h, hitems.fits_mem, forall₂_same.mpr fun _ _ => rfl⟩, ?_, ?_⟩
    · have hcont : (Tree.root 0 (firstItems item (n + 1))).contents = firstItems item (n + 1) :=
        flatMap_contents_zero _
      rw [hcont]
      exact hitems.sorted hn
    · rintro h ts ⟨⟩
      exact ⟨firstItems_succ item n ▸ concat_ne_nil _ _, fun _ _ => trivial⟩

theorem LeafRoot.rootLeaf {rq : Request τ β} (hplat : rq.plat = plainPlatform) {file : TreeFile}
    (h : LeafRoot item n file root) :
    ∃ file1, RootLeaf rq root (firstItems item n) file file1 ∧ file1.pos = file.pos := by
  cases root with
  | none =>
    obtain rfl : n = 0 := h
    exact ⟨file, ⟨rfl, rfl⟩, rfl⟩
  | some ptr =>
    obtain ⟨file1, hr⟩ := preadCompressed_reliable plainPlatform_reliable h
    refine ⟨file1, ?_, preadCompressed_pos hr⟩
    rw [RootLeaf, hplat]
    exact hr

/-- The write of the leaf with its first `n` items, and what a later read finds. -/
structure LeafWritten (item : ℕ → Bytes × Bytes) (n : ℕ) (ptr : NodePointer) (file : TreeFile) :
    Prop where
  write : ∃ file₁ size, dbWriteBuf plainPlatform (nodeBytes 0 (firstItems item n)) file₁ =
    (.ok (ptr.pointer, size), file)

theorem modifyBtree_large {rq : Request τ β} (hplat : rq.plat = plainPlatform)
    (hcomp : rq.compacting = false) (hitems : LargeItems rq.cmp item) {acts : List (Action β)}
    (hacts : Appends rq acts (item n).1 (item n).2) {file : TreeFile}
    (hroot : LeafRoot item n file root) (hn : n ≤ 7) (hpos : file.pos ≤ 2 ^ 40) (ctx : τ) :
    ∃ ptr file', modifyBtree rq 1 root acts ⟨file, ctx, false⟩ =
        (.success, some ptr, ⟨file', ctx, false⟩) ∧
      file'.pos ≤ file.pos + 2 ^ 34 ∧ LeafWritten item (n + 1) ptr file' := by
  obtain ⟨file1, hread, hpos1⟩ := hroot.rootLeaf hplat
  have hlen := length_leafNode (firstItems item (n + 1))
  have hsum := hitems.sum_size (n + 1)
  have hfin := BlockLayout.finish_le (B := couchBlockSize) file1.pos
    (8 + (nodeBytes 0 (firstItems item (n + 1))).length)
  have hmax : plainPlatform.os.maxSize = 2 ^ 47 := rfl
  obtain ⟨pos, size, file', hw⟩ := dbWriteBuf_reliable plainPlatform_reliable
    (nodeBytes 0 (firstItems item (n + 1))) file1 (by omega)
  have hsucc : firstItems item n ++ [((item n).1, (item n).2)] = firstItems item (n + 1) :=
    (firstItems_succ item n).symm
  have hbig : ∀ x ∈ (firstItems item n ++ [((item n).1, (item n).2)]).head?,
      chunkSize < (leafItem x).size := by
    intro x hx
    rw [hsucc] at hx
    obtain ⟨i, -, rfl⟩ := mem_firstItems.mp (mem_of_mem_head? hx)
    have hchunk : chunkSize = 852 := rfl
    have := hitems.large i
    omega
  have hm : ∃ ptr : NodePointer, ptr.pointer = pos ∧
      modifyBtree rq 1 root acts ⟨file, ctx, false⟩ = (.success, some ptr, ⟨file', ctx, false⟩) :=
    modifyBtree_append hcomp hacts hitems.fits_mem hread (hitems.lt_mem hn) hbig
      (by rw [hsucc]; omega) (by rw [hsucc, hplat]; exact hw)
  obtain ⟨ptr, rfl, hm⟩ := hm
  obtain ⟨hptr, -, hpos', -⟩ := dbWriteBuf_ok hw
  rw [hptr] at hpos'
  exact ⟨ptr, file', hm, by omega, ⟨file1, size, hw⟩⟩

theorem LeafWritten.leafRoot {ptr : NodePointer} {file : TreeFile} (h : LeafWritten item n ptr file)
    (hitems : LargeItems cmp item) (hn : n ≤ 7) : LeafRoot item n file (some ptr) := by
  obtain ⟨file1, size, hw⟩ := h.write
  obtain ⟨-, -, hpos, hsize, -, hlaid⟩ := dbWriteBuf_ok hw
  have hlen := length_leafNode (firstItems item n)
  have hsum := hitems.sum_size n
  exact ⟨by omega, by rw [compress_plainPlatform]; omega, hlaid, hpos.ge, hpos ▸ hsize⟩

theorem take_nodeBytes_cons (h : ℕ) (x : Bytes × Bytes) (xs : Bindings) :
    (nodeBytes h (x :: xs)).take 6 =
      (levelType h).toByte :: encodeKvLength x.1.length x.2.length := by
  rw [nodeBytes, flatMap_cons, writeKv, take_succ_cons, append_assoc,
    append_assoc, take_left' (length_encodeKvLength _ _)]

/-- The eighth item makes a leaf whose length field is `2 ^ 31` too small, so that there is
no tree for a reader at its place. -/
theorem LeafWritten.not_treeAt {ptr : NodePointer} {file file' : TreeFile}
    (h : LeafWritten item 8 ptr file) (hg : file.Grows file') (hitems : LargeItems cmp item)
    {t : Tree} (hat : TreeAt plainPlatform file' (some ptr) t) : ¬ t.WellFormed cmp := by
  intro hwf
  obtain ⟨file1, size, hw⟩ := h.write
  obtain ⟨-, -, hpos, -, -, hlaid⟩ := dbWriteBuf_ok hw
  have hlen := length_leafNode (firstItems item 8)
  have hsum := hitems.sum_size 8
  have hlaid' : BlockLayout.Laid couchBlockSize file'.disk.byte ptr.pointer
      (chunkHeader plainPlatform (nodeBytes 0 (firstItems item 8)) ++
        nodeBytes 0 (firstItems item 8)) := by
    apply hlaid.congr
    intro i _ hi
    apply hg.keeps.1
    rw [hpos]
    rwa [length_append, length_chunkHeader] at hi
  match t, hat with
  | .root h ts, ⟨its, hst, hfit, hits⟩ =>
    obtain ⟨hhead, hbody⟩ := (BlockLayout.laid_append _ _ _).mp hlaid'
    have hnode := hst.laid
    rw [compress_plainPlatform] at hnode
    obtain ⟨hhead', hbody'⟩ := (BlockLayout.laid_append _ _ _).mp hnode
    rw [length_chunkHeader] at hbody hbody'
    -- The two nodes have the same length field.
    have hmod : (nodeBytes h its).length % 2 ^ 31 =
        (nodeBytes 0 (firstItems item 8)).length % 2 ^ 31 := by
      rw [← chunkHeader_length_mod plainPlatform, ← chunkHeader_length_mod plainPlatform]
      rw [hhead'.eq_of_length hhead (by simp)]
    have hlt := hst.length_lt
    -- Their first items have the same lengths.
    obtain ⟨x, xs, rfl⟩ : ∃ x xs, its = x :: xs := by
      apply exists_cons_of_ne_nil
      rintro rfl
      exact (hwf.proper h ts rfl).1 (forall₂_nil_left_iff.mp hits)
    have hfirst : firstItems item 8 = item 0 :: (List.range 7).map fun i => item (i + 1) := by
      rw [firstItems, range_succ_eq_map, map_cons, map_map]
      rfl
    have hkv := (hbody'.take 6).eq_of_length (hbody.take 6) (by
      rw [hfirst, take_nodeBytes_cons, take_nodeBytes_cons]
      simp)
    rw [hfirst, take_nodeBytes_cons, take_nodeBytes_cons] at hkv
    have hx := decodeKvLength_encodeKvLength (hfit x (.head _)).1
      (hfit x (.head _)).2 []
    have h0 := decodeKvLength_encodeKvLength (hitems.fits 0).1 (hitems.fits 0).2 []
    rw [(List.cons.inj hkv).2, h0] at hx
    have hsize := hitems.large 0
    have hshort := (hitems.fits 0).1
    have hxlen : x.2.length < (nodeBytes h (x :: xs)).length := by
      rw [nodeBytes, flatMap_cons, length_cons, length_append, length_writeKv]
      omega
    rw [← (Prod.mk.inj hx).2] at hxlen
    simp only [leafItem, Item.size] at hsize
    omega

end Large

end Appstack.Couchstore
