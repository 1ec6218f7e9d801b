import Appstack.Couchstore.BtreeTree

namespace Appstack.Couchstore
open Std SortedMap List

variable {τ β : Type*} {rq : Request τ β}

/-- What every function does to its environment: data is appended to the file, and an error
stays noted. -/
structure Env.Ext (env env' : Env τ) : Prop where
  appends : env.file.Appends env'.file
  failed : env'.failed = false → env.failed = false

theorem Env.Ext.grows {env env' : Env τ} (h : env.Ext env') : env.file.Grows env'.file :=
  h.appends.grows

theorem Env.Ext.refl (env : Env τ) : env.Ext env := ⟨.refl _, id⟩

theorem Env.Ext.trans {env env' env'' : Env τ} (h : env.Ext env') (h' : env'.Ext env'') :
    env.Ext env'' :=
  ⟨h.appends.trans h'.appends, h.failed ∘ h'.failed⟩

theorem flushTake_append (ty : NodeType) (is : List Item) (q : UInt64) (n : ℕ) :
    (flushTake ty is q n).1 ++ (flushTake ty is q n).2 = is := by
  induction is generalizing q n with
  | nil => rfl
  | cons i is ih =>
    rw [flushTake]
    split_ifs
    · exact congrArg (i :: ·) (ih _ _)
    · rfl

variable {q : UInt64}

theorem flushTake_ne_nil {ty : NodeType} {is : List Item} {n : ℕ} (hq : 0 < q)
    (his : is ≠ []) : (flushTake ty is q n).1 ≠ [] := by
  obtain ⟨i, is, rfl⟩ := exists_cons_of_ne_nil his
  rw [flushTake, if_pos (.inl hq)]
  simp

theorem flushTake_all (ty : NodeType) {is : List Item} (n : ℕ)
    (hlt : (is.map Item.size).sum < 2 ^ 64) :
    flushTake ty is (UInt64.ofNat (is.map Item.size).sum) n = (is, []) := by
  induction is generalizing n with
  | nil => rfl
  | cons i is ih =>
    rw [map_cons, sum_cons] at hlt ⊢
    have hpos : UInt64.ofNat (i.size + (is.map Item.size).sum) > 0 := by
      rw [gt_iff_lt, UInt64.lt_iff_toNat_lt, UInt64.toNat_ofNat', Nat.mod_eq_of_lt hlt]
      simp only [UInt64.toNat_zero, Item.size]
      omega
    have hsub : UInt64.ofNat (i.size + (is.map Item.size).sum) - UInt64.ofNat i.size =
        UInt64.ofNat (is.map Item.size).sum := by
      rw [UInt64.ofNat_add, add_sub_cancel_left]
    rw [flushTake, if_pos (.inl hpos), hsub, ih _ (by omega)]

theorem two_le_flushTake {is : List Item} (h : 2 ≤ is.length) (q : UInt64) :
    2 ≤ (flushTake .kp is q 0).1.length := by
  match is, h with
  | i :: i' :: is, _ =>
    rw [flushTake, if_pos (.inr ⟨by omega, rfl⟩)]
    simp only [length_cons]
    rw [flushTake, if_pos (.inr ⟨by omega, rfl⟩)]
    simp

def Request.pointerTo (rq : Request τ β) (nodeType : NodeType) (written : List Item)
    (pos size : ℕ) : NodePointer where
  key := (written.getLast?.map Item.key).getD []
  pointer := pos
  subtreesize := (written.filterMap fun i => i.pointer.map NodePointer.subtreesize).sum + size
  reduceValue := rq.reduceItems nodeType written

theorem Request.length_reduceItems_le (rq : Request τ β) (nodeType : NodeType) (written : List Item) :
    (rq.reduceItems nodeType written).length ≤ 500 := by
  unfold Request.reduceItems
  cases nodeType with
  | kv => cases rq.reduce with
    | none => simp
    | some f => simpa using f.size_le written
  | kp => cases rq.rereduce with
    | none => simp
    | some f => simpa using f.size_le written

theorem flushMrPartial_cases {mr mr' : Modres} {env env' : Env τ} {e : Errcode}
    (h : flushMrPartial rq mr q env = (e, mr', env')) :
    ((mr.values = [] ∨ mr.modified = false) ∧ e = .success ∧ mr' = mr ∧ env' = env) ∨
      (env'.failed = true ∧ e = .write ∧ env.file.Appends env'.file ∧ env'.ctx = env.ctx ∧
        mr' = { mr with count := mr.count - (flushTake mr.nodeType mr.values q 0).1.length }) ∨
      ∃ written rest pos size file, mr.values ≠ [] ∧ mr.modified = true ∧
        flushTake mr.nodeType mr.values q 0 = (written, rest) ∧
        dbWriteBufCompressed rq.plat (nodeBuf mr.nodeType written) env.file =
          (.ok (pos, size), file) ∧ e = .success ∧ env' = { env with file := file } ∧
        mr' = { mr with
          count := mr.count - written.length
          pointers := mr.pointers ++ [encodePointer (rq.pointerTo mr.nodeType written pos size)]
          nodeLen := mr.nodeLen - ((nodeBuf mr.nodeType written).length - 1)
          values := rest } := by
  unfold flushMrPartial at h
  split_ifs at h with hc
  · simp only [Prod.mk.injEq] at h
    exact .inl ⟨hc, h.1.symm, h.2.1.symm, h.2.2.symm⟩
  · rw [not_or, Bool.not_eq_false] at hc
    obtain ⟨written, rest, ht⟩ : ∃ w r, flushTake mr.nodeType mr.values q 0 = (w, r) := ⟨_, _, rfl⟩
    rw [ht] at h
    dsimp only at h
    split at h
    next e file hw =>
      cases h
      exact .inr (.inl ⟨rfl, dbWriteBuf_error hw, dbWriteBuf_appends hw, rfl, by rw [ht]⟩)
    next pos size file hw =>
      cases h
      exact .inr (.inr ⟨written, rest, pos, size, file, hc.1, hc.2, ht, hw, rfl, rfl, rfl⟩)

def Made (rq : Request τ β) (file : TreeFile) (i : Item) : Prop :=
  ∃ ptr, i = encodePointer ptr ∧ ptr.pointer < file.pos ∧
    ∃ nodeType written, ptr.reduceValue = rq.reduceItems nodeType written

/-- What every function does to its environment and to the modify result it adds to: the file
grows by data, an error stays noted, and the new pointers are those of new nodes. -/
structure Advances (rq : Request τ β) (mr : Modres) (env : Env τ) (mr' : Modres) (env' : Env τ) :
    Prop where
  ext : env.Ext env'
  pointers : ∀ i ∈ mr'.pointers, i ∈ mr.pointers ∨ Made rq env'.file i

section Advances
variable {mr mr' mr'' : Modres} {env env' env'' : Env τ}

theorem Made.mono {file file' : TreeFile} {i : Item} (h : Made rq file i) (hg : file.Grows file') :
    Made rq file' i := by
  obtain ⟨ptr, hi, hpos, hred⟩ := h
  exact ⟨ptr, hi, hpos.trans_le hg.pos_le, hred⟩

theorem Advances.refl (mr : Modres) (env : Env τ) : Advances rq mr env mr env :=
  ⟨.refl env, fun _ hi => .inl hi⟩

theorem Advances.trans (h : Advances rq mr env mr' env') (h' : Advances rq mr' env' mr'' env'') :
    Advances rq mr env mr'' env'' where
  ext := h.ext.trans h'.ext
  pointers i hi := by
    obtain hi | hi := h'.pointers i hi
    · exact (h.pointers i hi).imp_right fun hm => hm.mono h'.ext.grows
    · exact .inr hi

theorem Advances.after {env0 : Env τ} (h : Advances rq mr env mr' env') (h0 : env0.Ext env) :
    Advances rq mr env0 mr' env' :=
  ⟨h0.trans h.ext, h.pointers⟩

theorem Advances.failed (h : Advances rq mr env mr' env') : env'.failed = false → env.failed = false :=
  h.ext.failed

theorem Advances.grows (h : Advances rq mr env mr' env') : env.file.Grows env'.file := h.ext.grows

end Advances

theorem flushMrPartial_advances {mr mr' : Modres} {env env' : Env τ} {e : Errcode}
    (h : flushMrPartial rq mr q env = (e, mr', env')) : Advances rq mr env mr' env' := by
  obtain ⟨-, -, rfl, rfl⟩ | ⟨hf, -, hg, -, rfl⟩ | ⟨written, _, pos, _, file, -, -, -, hw, -, rfl, rfl⟩ :=
    flushMrPartial_cases h
  · exact .refl _ _
  · exact ⟨⟨hg, fun hf' => by simp [hf] at hf'⟩, fun _ hi => .inl hi⟩
  · refine ⟨⟨dbWriteBuf_appends hw, id⟩, fun i hi => (mem_append.mp hi).imp_right fun hi => ?_⟩
    obtain ⟨rfl, -, hend, -⟩ := dbWriteBuf_ok hw
    have hle := BlockLayout.add_le_finish (B := couchBlockSize) env.file.pos
      (8 + (rq.plat.snappy.compress (nodeBuf mr.nodeType written)).length)
    exact ⟨_, mem_singleton.mp hi, by simp only [Request.pointerTo]; omega, _, _, rfl⟩

/-- What an item of a level counts for. -/
def Item.weight (i : Item) : ℕ → ℕ
  | 0 => i.size
  | _ + 1 => pointerSize i.key

/-- What a result has for its next node: the nodes of leaves are written apart. -/
def Modres.weight (mr : Modres) (h : ℕ) : ℕ :=
  (mr.values.map (Item.weight · h)).sum + if h = 0 then 0 else (mr.pointers.map (Item.weight · h)).sum

def chunkBytes (plat : Platform) (pos : ℕ) (buf : Bytes) : ℕ :=
  BlockLayout.finish couchBlockSize pos (8 + (plat.snappy.compress buf).length) - pos

/-- What an item has in memory for `t`: the binding, or the pointer to a node, noted. -/
def Carries (N : Note) (plat : Platform) (file : TreeFile) : {h : ℕ} → Item → Node h → Prop
  | 0, i, t => i.pointer = none ∧ t = (i.key, i.data)
  | _ + 1, i, t => ∃ ptr, i = encodePointer ptr ∧ ptr.pointer < 2 ^ 48 ∧
      ptr.reduceValue.length ≤ 500 ∧ NodeNoted N plat file ptr t.items

/-- The file shows `t` under an item, and the item's pointer is the one its data encodes. -/
structure ItemShows (N : Note) (plat : Platform) (file : TreeFile) {h : ℕ} (i : Item)
    (t : Node h) : Prop where
  fits : Fits (i.key, i.data)
  shown : ShowsNoted N plat file (i.key, i.data) t
  proper : t.Proper
  carried : Carries N plat file i t

/-- A note that the pointers of a request keep: it survives the encoding, and a flush makes
it for the new node out of those on the items. -/
class Note.Lawful (N : Note) (rq : Request τ β) : Prop where
  reread : ∀ {file : TreeFile} {h : ℕ} {ptr : NodePointer} {its : Bindings} {ts : List (Node h)},
    ptr.pointer < 2 ^ 48 → ptr.reduceValue.length ≤ 500 → N.Holds rq.plat file h ptr its ts →
      N.Holds rq.plat file h (readPointer ptr.key (encodeRawPointer ptr)) its ts
  flush : ∀ {file : TreeFile} {h : ℕ} {written : List Item} {ts : List (Node h)} {pos size : ℕ},
    written ≠ [] → List.Forall₂ (ItemShows N rq.plat file) written ts →
    size = chunkBytes rq.plat pos (nodeBuf (levelType h) written) →
      N.Holds rq.plat file h (rq.pointerTo (levelType h) written pos size)
        (written.map fun i => (i.key, i.data)) ts

instance (rq : Request τ β) : Note.blank.Lawful rq where
  reread _ _ _ := trivial
  flush _ _ _ := trivial

variable {N : Note}

theorem dbWriteBufCompressed_size {plat : Platform} {f f' : TreeFile} {buf : Bytes} {pos size : ℕ}
    (h : dbWriteBufCompressed plat buf f = (.ok (pos, size), f')) : size = chunkBytes plat pos buf := by
  obtain ⟨rfl, rfl, hend, -⟩ := dbWriteBuf_ok h
  rw [chunkBytes, ← hend]

theorem Carries.mono {plat : Platform} {file file' : TreeFile} {h : ℕ} {i : Item} {t : Node h}
    (hi : Carries N plat file i t) (hg : file.Grows file') : Carries N plat file' i t := by
  cases h with
  | zero => exact hi
  | succ h =>
    obtain ⟨ptr, he, hpos, hred, hnode⟩ := hi
    exact ⟨ptr, he, hpos, hred, hnode.mono hg⟩

theorem ItemShows.mono {plat : Platform} {file file' : TreeFile} {h : ℕ} {i : Item} {t : Node h}
    (hi : ItemShows N plat file i t) (hg : file.Grows file') : ItemShows N plat file' i t :=
  ⟨hi.fits, hi.shown.mono hg, hi.proper, hi.carried.mono hg⟩

/-- `mr` has gathered the bindings `m` in items of level `h` and nodes made of them. The
count is off by the items that failed writes have tried to take. -/
structure Gathers (N : Note) (plat : Platform) (file : TreeFile) (h : ℕ) (mr : Modres)
    (m : Bindings) : Prop where
  nodeType : mr.nodeType = levelType h
  nodeLen : mr.nodeLen = (mr.values.map Item.size).sum
  count_le : mr.count ≤ mr.values.length
  holds : ∃ (ps : List (Node (h + 1))) (vs : List (Node h)),
    List.Forall₂ (ItemShows N plat file) mr.pointers ps ∧
      List.Forall₂ (ItemShows N plat file) mr.values vs ∧
      m = ps.flatMap Node.contents ++ vs.flatMap Node.contents

/-- `mr` has gathered `m`, at a weight of at most `w`. -/
structure Collects (N : Note) (plat : Platform) (file : TreeFile) (h : ℕ) (mr : Modres)
    (m : Bindings) (w : ℕ) : Prop extends Gathers N plat file h mr m where
  weight : mr.weight h ≤ w

section Collects
variable {plat : Platform} {file file' : TreeFile} {h : ℕ} {mr mr' : Modres} {m : Bindings} {w : ℕ}

theorem collects_makeModres (N : Note) (plat : Platform) (file : TreeFile) (h : ℕ) :
    Collects N plat file h (makeModres (levelType h)) [] 0 where
  nodeType := rfl
  nodeLen := rfl
  count_le := le_rfl
  weight := by simp [Modres.weight, makeModres]
  holds := ⟨[], [], .nil, .nil, rfl⟩

theorem Gathers.mono (hc : Gathers N plat file h mr m) (hg : file.Grows file') :
    Gathers N plat file' h mr m := by
  obtain ⟨ps, vs, hp, hv, hm⟩ := hc.holds
  exact { hc with
    holds := ⟨ps, vs, hp.imp fun _ _ hi => hi.mono hg, hv.imp fun _ _ hi => hi.mono hg, hm⟩ }

theorem Collects.mono (hc : Collects N plat file h mr m w) (hg : file.Grows file') :
    Collects N plat file' h mr m w :=
  ⟨hc.toGathers.mono hg, hc.weight⟩

theorem Collects.mono_weight {w' : ℕ} (hc : Collects N plat file h mr m w) (hw : w ≤ w') :
    Collects N plat file h mr m w' :=
  ⟨hc.toGathers, hc.weight.trans hw⟩

theorem Gathers.setModified (hc : Gathers N plat file h mr m) :
    Gathers N plat file h { mr with modified := true } m :=
  ⟨hc.nodeType, hc.nodeLen, hc.count_le, hc.holds⟩

theorem Collects.setModified (hc : Collects N plat file h mr m w) :
    Collects N plat file h { mr with modified := true } m w :=
  ⟨hc.toGathers.setModified, hc.weight⟩

theorem Gathers.eq_nil (hc : Gathers N plat file h mr m) (hp : mr.pointers = [])
    (hv : mr.values = []) : m = [] := by
  obtain ⟨ps, vs, hps, hvs, rfl⟩ := hc.holds
  rw [hp] at hps
  rw [hv] at hvs
  rw [forall₂_nil_left_iff.mp hps, forall₂_nil_left_iff.mp hvs]
  rfl

variable {t : Node h} {i : Item}

theorem Gathers.push (hc : Gathers N plat file h mr m) (hi : ItemShows N plat file i t) :
    Gathers N plat file h
      { mr with
        values := mr.values ++ [i]
        nodeLen := mr.nodeLen + i.size
        count := mr.count + 1 } (m ++ t.contents) := by
  obtain ⟨ps, vs, hp, hv, rfl⟩ := hc.holds
  refine ⟨hc.nodeType, ?_, ?_, ps, vs ++ [t], hp, rel_append hv (.cons hi .nil), ?_⟩
  · simp [hc.nodeLen]
  · simpa using hc.count_le
  · simp

theorem Collects.push (hc : Collects N plat file h mr m w) (hi : ItemShows N plat file i t) :
    Collects N plat file h
      { mr with
        values := mr.values ++ [i]
        nodeLen := mr.nodeLen + i.size
        count := mr.count + 1 } (m ++ t.contents) (w + i.weight h) := by
  have hw := hc.weight
  refine ⟨hc.toGathers.push hi, ?_⟩
  simp only [Modres.weight, map_append, sum_append, map_cons, map_nil, sum_singleton] at hw ⊢
  omega

theorem ItemShows.size_le (hi : ItemShows N plat file i t) : i.size ≤ i.weight h := by
  cases h with
  | zero => exact le_rfl
  | succ h =>
    obtain ⟨ptr, rfl, -, hred, -⟩ := hi.carried
    simp only [Item.size, Item.weight, encodePointer, length_encodeRawPointer, pointerSize,
      maxPointerData]
    omega

theorem sum_size_le {is : List Item} {ts : List (Node h)}
    (hts : List.Forall₂ (ItemShows N plat file) is ts) :
    (is.map Item.size).sum ≤ (is.map (Item.weight · h)).sum := by
  induction hts with
  | nil => exact le_rfl
  | cons hi _ ih => exact Nat.add_le_add hi.size_le ih

theorem Collects.size_le (hc : Collects N plat file h mr m w) : (mr.values.map Item.size).sum ≤ w := by
  obtain ⟨_, _, -, hvs, -⟩ := hc.holds
  exact (sum_size_le hvs).trans ((Nat.le_add_right _ _).trans hc.weight)

/-- What the pointers to the nodes count for in the level above. -/
def handed (m : Bindings) (w : ℕ) : ℕ → ℕ
  | 0 => pointersSize m
  | _ + 1 => w

theorem pointersSize_append (m m' : Bindings) :
    pointersSize (m ++ m') = pointersSize m + pointersSize m' := by
  simp [pointersSize]

theorem Collects.handed_le (hc : Collects N plat file h mr m w) :
    (mr.pointers.map (Item.weight · (h + 1))).sum ≤ handed m w h := by
  cases h with
  | succ h => exact (Nat.le_add_left _ _).trans hc.weight
  | zero =>
    obtain ⟨ps, vs, hps, -, rfl⟩ := hc.holds
    refine Nat.le_trans ?_ ((Nat.le_add_right _ _).trans (pointersSize_append _ _).ge)
    clear hc
    generalize mr.pointers = is at hps ⊢
    induction hps with
    | nil => exact le_rfl
    | @cons i t _ _ hi _ ih =>
      -- the key of a node is that of one of its bindings
      obtain ⟨x, hx, hk⟩ := Option.map_eq_some_iff.mp hi.proper.2.2
      have hle : pointerSize x.1 ≤ pointersSize t.contents :=
        le_sum_of_mem (mem_map_of_mem (mem_of_getLast? hx))
      rw [hk, hi.shown.key_eq] at hle
      rw [flatMap_cons, pointersSize_append]
      exact Nat.add_le_add hle ih

end Collects

theorem nodeBuf_eq_nodeBytes (h : ℕ) (is : List Item) :
    nodeBuf (levelType h) is = nodeBytes h (is.map fun i => (i.key, i.data)) := by
  simp [nodeBuf, nodeBytes, flatMap_map]

theorem length_nodeBuf (ty : NodeType) (is : List Item) :
    (nodeBuf ty is).length = 1 + (is.map Item.size).sum := by
  simp only [nodeBuf, length_cons, length_flatMap, length_writeKv]
  rw [Nat.add_comm]
  rfl

theorem pointerOf_encodeRawPointer {ptr : NodePointer} (hr : ptr.reduceValue.length ≤ 500)
    (hp : ptr.pointer < 2 ^ 48) : pointerOf (encodeRawPointer ptr) = ptr.pointer := by
  rw [pointerOf, readPointer_encodeRawPointer [] (by omega)]
  exact Nat.mod_eq_of_lt hp

section
variable {plat : Platform} {file : TreeFile} {h : ℕ} {is : List Item} {ts : List (Node h)}

section
variable (hts : List.Forall₂ (ItemShows N plat file) is ts)
include hts

theorem proper_of_itemShows : ∀ t ∈ ts, t.Proper := by
  induction hts with
  | nil => simp
  | cons hi _ ih => simpa using ⟨hi.proper, ih⟩

theorem fits_of_itemShows : ∀ i ∈ is, Fits (i.key, i.data) := by
  induction hts with
  | nil => simp
  | cons hi _ ih => simpa using ⟨hi.fits, ih⟩

theorem keys_of_itemShows : is.map Item.key = ts.map Node.key := by
  induction hts with
  | nil => rfl
  | cons hi _ ih => rw [map_cons, map_cons, ih, hi.shown.key_eq]

end

end

theorem itemShows_pointerTo [N.Lawful rq] {file : TreeFile} {h pos size : ℕ} {written : List Item}
    {ts : List (Node h)} (hpos : pos < 2 ^ 48)
    (hst : Stored rq.plat file pos (nodeBuf (levelType h) written)) (hne : written ≠ [])
    (hsize : size = chunkBytes rq.plat pos (nodeBuf (levelType h) written))
    (hts : List.Forall₂ (ItemShows N rq.plat file) written ts) :
    ItemShows N rq.plat file (encodePointer (rq.pointerTo (levelType h) written pos size))
      (Node.inner (rq.pointerTo (levelType h) written pos size).key ts) := by
  obtain ⟨ptr, hp⟩ : ∃ ptr, ptr = rq.pointerTo (levelType h) written pos size := ⟨_, rfl⟩
  have hnote : N.Holds rq.plat file h ptr (written.map fun i => (i.key, i.data)) ts :=
    hp ▸ Note.Lawful.flush hne hts hsize
  have hred : ptr.reduceValue.length ≤ 500 := hp ▸ rq.length_reduceItems_le _ _
  have hptrpos : ptr.pointer = pos := hp ▸ rfl
  have hkeyeq : written.getLast?.map Item.key = some ptr.key := by
    rw [hp, Request.pointerTo, List.getLast?_eq_getLast_of_ne_nil hne]
    rfl
  rw [← hp]
  have hptr : pointerOf (encodeRawPointer ptr) = pos :=
    (pointerOf_encodeRawPointer hred (hptrpos ▸ hpos)).trans hptrpos
  have hlast : (ts.flatMap Node.contents).getLast?.map Prod.fst = some ptr.key := by
    rw [Node.getLast_flatMap (proper_of_itemShows hts), ← List.getLast?_map, ← keys_of_itemShows hts,
      List.getLast?_map, hkeyeq]
  have hkey : ptr.key.length < 2 ^ 12 := by
    obtain ⟨i, hi, hik⟩ := Option.map_eq_some_iff.mp hkeyeq
    rw [← hik]
    exact (fits_of_itemShows hts i (mem_of_getLast? hi)).1
  have hdata := length_encodeRawPointer ptr
  rw [nodeBuf_eq_nodeBytes] at hst
  have hfits : ∀ x ∈ written.map (fun i => (i.key, i.data)), Fits x := by
    simpa using fits_of_itemShows hts
  have hits : List.Forall₂ (ShowsNoted N rq.plat file) (written.map fun i => (i.key, i.data)) ts :=
    forall₂_map_left_iff.mpr (hts.imp fun _ _ hi => hi.shown)
  refine ⟨⟨hkey, by simp only [encodePointer]; omega⟩,
    ⟨rfl, ?_, _, hptr ▸ hst, hfits, Note.Lawful.reread (hptrpos ▸ hpos) hred hnote, hits⟩,
    ⟨fun hnil => hne (length_eq_zero_iff.mp ?_), proper_of_itemShows hts, hlast⟩,
    ⟨ptr, rfl, hptrpos ▸ hpos, hred, _, hptrpos ▸ hst, hfits, hnote, hits⟩⟩
  · simp only [encodePointer, maxPointerData]
    omega
  · rw [hts.length_eq, show ts = [] from hnil]
    rfl

section Spec
variable [N.Lawful rq] {h w : ℕ} {m : Bindings} {mr mr' : Modres} {env env' : Env τ} {e : Errcode}

def Passed (e : Errcode) (env : Env τ) : Prop :=
  e = .success ∨ e = .depth ∨ env.failed = false

/-- What was collected is as described, also after a write that failed; without one the call
reports success. The callback's memory and the `modified` flag are left alone. -/
structure Kept (N : Note) (rq : Request τ β) (h : ℕ) (mr mr' : Modres) (m : Bindings) (w : ℕ)
    (env env' : Env τ) (e : Errcode) : Prop where
  success : Passed e env' → e = .success
  collects : Collects N rq.plat env'.file h mr' m w
  ctx : env'.ctx = env.ctx
  modified : mr'.modified = mr.modified

omit [N.Lawful rq] in
theorem Kept.trans {mr'' : Modres} {m' : Bindings} {w' : ℕ} {env'' : Env τ} {e' : Errcode}
    (hk : Kept N rq h mr mr' m w env env' e) (hk' : Kept N rq h mr' mr'' m' w' env' env'' e') :
    Kept N rq h mr mr'' m' w' env env'' e' :=
  ⟨hk'.success, hk'.collects, hk'.ctx.trans hk.ctx, hk'.modified.trans hk.modified⟩

omit [N.Lawful rq] in
theorem not_passed_write (hf : env.failed = true) : ¬ Passed .write env := by
  simp [Passed, hf]

variable {q : UInt64} {i : Item}

theorem Gathers.flush (hc : Gathers N rq.plat env.file h mr m)
    (hlen : 1 + (mr.values.map Item.size).sum ≤ chunkLimit) (hq : mr.values ≠ [] → 0 < q)
    (hfl : flushMrPartial rq mr q env = (e, mr', env')) :
    (Passed e env' → e = .success) ∧ Gathers N rq.plat env'.file h mr' m ∧ env'.ctx = env.ctx ∧
      mr'.modified = mr.modified := by
  obtain ⟨-, rfl, rfl, rfl⟩ | ⟨hf', rfl, hg, hctx, rfl⟩ |
    ⟨written, rest, pos, size, file, hne, -, ht, hwr, rfl, rfl, rfl⟩ := flushMrPartial_cases hfl
  · exact ⟨fun _ => rfl, hc, rfl, rfl⟩
  · have hmono := hc.mono hg.grows
    have hcount := hc.count_le
    refine ⟨fun hp => absurd hp (not_passed_write hf'), { hmono with count_le := ?_ }, hctx, rfl⟩
    dsimp only
    omega
  have hgrows : env.file.Grows file := (dbWriteBuf_appends hwr).grows
  have happ : written ++ rest = mr.values := by
    simpa only [ht] using flushTake_append mr.nodeType mr.values q 0
  have hwne : written ≠ [] := by
    have htake : (flushTake mr.nodeType mr.values q 0).1 ≠ [] := flushTake_ne_nil (hq hne) hne
    rwa [ht] at htake
  rw [← happ, map_append, sum_append] at hlen
  obtain ⟨hst, hpos⟩ := dbWriteBufCompressed_stored (by rw [length_nodeBuf]; omega) hwr
  have hbytes := dbWriteBufCompressed_size hwr
  obtain ⟨ps, vs, hps, hvs, rfl⟩ := (hc.mono hgrows).holds
  rw [hc.nodeType] at hst hbytes ⊢
  have htake := forall₂_take written.length hvs
  have hdrop := forall₂_drop written.length hvs
  rw [← happ, take_left] at htake
  rw [← happ, drop_left] at hdrop
  have hitem := itemShows_pointerTo (by omega) hst hwne hbytes htake
  refine ⟨fun _ => rfl, ⟨rfl, ?_, ?_, ps ++ [.inner _ (vs.take written.length)],
    vs.drop written.length, rel_append hps (.cons hitem .nil), hdrop, ?_⟩, rfl, rfl⟩
  · dsimp only
    rw [hc.nodeLen, length_nodeBuf, ← happ, map_append, sum_append]
    omega
  · have hcount := hc.count_le
    rw [← happ, length_append] at hcount
    dsimp only
    omega
  · rw [flatMap_append, flatMap_singleton, append_assoc]
    conv_lhs => rw [← take_append_drop written.length vs, flatMap_append]
    rfl

theorem flushMrPartial_spec (hc : Collects N rq.plat env.file h mr m w)
    (hw : w < chunkLimit) (hq : mr.values ≠ [] → 0 < q)
    (hfl : flushMrPartial rq mr q env = (e, mr', env')) : Kept N rq h mr mr' m w env env' e := by
  have hweight := hc.weight
  have hsize := hc.size_le
  obtain ⟨he, hg, hctx, hmod⟩ := hc.toGathers.flush (by omega) hq hfl
  refine ⟨he, ⟨hg, ?_⟩, hctx, hmod⟩
  obtain ⟨-, -, rfl, -⟩ | ⟨-, -, -, -, rfl⟩ |
    ⟨written, rest, pos, size, file, hne, -, ht, -, -, -, rfl⟩ := flushMrPartial_cases hfl
  · exact hweight
  · exact hweight
  have happ : written ++ rest = mr.values := by
    simpa only [ht] using flushTake_append mr.nodeType mr.values q 0
  have hwne : written ≠ [] := by
    have htake : (flushTake mr.nodeType mr.values q 0).1 ≠ [] := flushTake_ne_nil (hq hne) hne
    rwa [ht] at htake
  rw [Modres.weight, ← happ, map_append, sum_append] at hweight
  cases h with
  | zero =>
    simp only [Modres.weight, if_true] at hweight ⊢
    omega
  | succ h =>
    -- the new pointer has the key of the last item below it
    have hle : pointerSize (rq.pointerTo mr.nodeType written pos size).key ≤
        (written.map (Item.weight · (h + 1))).sum := by
      rw [Request.pointerTo, List.getLast?_eq_getLast_of_ne_nil hwne]
      exact le_sum_of_mem (mem_map_of_mem (f := (Item.weight · (h + 1)))
        (getLast_mem hwne))
    simp only [Modres.weight, Nat.add_eq_zero_iff, one_ne_zero, and_false, if_false, map_append,
      sum_append, map_cons, map_nil, sum_singleton] at hweight ⊢
    change _ + (_ + pointerSize (rq.pointerTo mr.nodeType written pos size).key) ≤ _
    omega

omit [N.Lawful rq] in
theorem flushMr_eq (hc : Collects N rq.plat env.file h mr m w) (hw : w < chunkLimit) :
    UInt64.ofNat mr.nodeLen = UInt64.ofNat (mr.values.map Item.size).sum ∧
      (mr.values.map Item.size).sum < 2 ^ 64 := by
  have hsize := hc.size_le
  simp only [chunkLimit] at hw
  exact ⟨by rw [hc.nodeLen], by omega⟩

theorem flushMr_spec (hc : Collects N rq.plat env.file h mr m w) (hw : w < chunkLimit)
    (hfl : flushMr rq mr env = (e, mr', env')) :
    Kept N rq h mr mr' m w env env' e ∧ (e = .success → mr.modified = true → mr'.values = []) ∧
      (mr.modified = false → mr' = mr) ∧
      mr'.pointers.length ≤ mr.pointers.length + (if mr.values = [] then 0 else 1) := by
  obtain ⟨hq, hlt⟩ := flushMr_eq hc hw
  refine ⟨flushMrPartial_spec hc hw (fun hne => ?_) hfl, ?_⟩
  · obtain ⟨i, is, hv⟩ := exists_cons_of_ne_nil hne
    rw [hq, UInt64.lt_iff_toNat_lt, UInt64.toNat_ofNat', Nat.mod_eq_of_lt hlt, hv]
    simp [Item.size]
  obtain ⟨hn, -, rfl, -⟩ | ⟨-, rfl, -, -, rfl⟩ | ⟨written, rest, _, _, _, hne, hmod, ht, -, -, -, rfl⟩ :=
    flushMrPartial_cases hfl
  · refine ⟨fun _ hm => ?_, fun _ => rfl, by omega⟩
    simpa [hm] using hn
  · refine ⟨nofun, fun hm => ?_, Nat.le_add_right _ _⟩
    simp [flushMr, flushMrPartial, hm] at hfl
  · rw [hq, flushTake_all _ _ hlt, Prod.mk.injEq] at ht
    exact ⟨fun _ _ => ht.2.symm, fun hm => by simp [hm] at hmod, by simp [hne]⟩

theorem flushMr_advances (hfl : flushMr rq mr env = (e, mr', env')) : Advances rq mr env mr' env' :=
  flushMrPartial_advances hfl

theorem maybeFlush_advances (hfl : maybeFlush rq mr env = (e, mr', env')) :
    Advances rq mr env mr' env' := by
  unfold maybeFlush at hfl
  split_ifs at hfl
  any_goals exact flushMrPartial_advances hfl
  all_goals
    cases hfl
    exact .refl _ _

theorem pushValue_advances (hp : pushValue rq i mr env = (e, mr', env')) :
    Advances rq mr env mr' env' :=
  ⟨(maybeFlush_advances hp).ext, (maybeFlush_advances hp).pointers⟩

theorem flushMrPartial_ctx (hfl : flushMrPartial rq mr q env = (e, mr', env')) :
    env'.ctx = env.ctx := by
  obtain ⟨-, -, -, rfl⟩ | ⟨-, -, -, hctx, -⟩ | ⟨_, _, _, _, _, -, -, -, -, -, rfl, -⟩ :=
    flushMrPartial_cases hfl
  · rfl
  · exact hctx
  · rfl

theorem pushValue_ctx (hp : pushValue rq i mr env = (e, mr', env')) : env'.ctx = env.ctx := by
  unfold pushValue maybeFlush at hp
  split_ifs at hp
  any_goals exact flushMrPartial_ctx hp
  all_goals exact (Prod.mk.inj (Prod.mk.inj hp).2).2 ▸ rfl

theorem maybeFlush_spec (hc : Collects N rq.plat env.file h mr m w) (hw : w < chunkLimit)
    (hfl : maybeFlush rq mr env = (e, mr', env')) : Kept N rq h mr mr' m w env env' e := by
  have hsame : Kept N rq h mr mr m w env env .success := ⟨fun _ => rfl, hc, rfl, rfl⟩
  unfold maybeFlush at hfl
  split_ifs at hfl
  · exact (flushMr_spec hc hw hfl).1
  · cases hfl
    exact hsame
  · exact flushMrPartial_spec hc hw (fun _ => by decide) hfl
  · cases hfl
    exact hsame

theorem pushValue_spec {t : Node h} (hc : Collects N rq.plat env.file h mr m w)
    (hi : ItemShows N rq.plat env.file i t) (hw : w + i.weight h < chunkLimit)
    (hp : pushValue rq i mr env = (e, mr', env')) :
    Kept N rq h mr mr' (m ++ t.contents) (w + i.weight h) env env' e := by
  obtain ⟨hs, hc', hctx, hmod⟩ := maybeFlush_spec (hc.push hi) hw hp
  exact ⟨hs, hc', hctx, hmod⟩

theorem moveLoop_advances {is : List Item} (hm : moveLoop rq is mr env = (e, mr', env')) :
    Advances rq mr env mr' env' := by
  induction is generalizing mr env with
  | nil =>
    cases hm
    exact .refl _ _
  | cons i is ih =>
    rw [moveLoop] at hm
    rcases hp : pushValue rq i mr env with ⟨e1, mr1, env1⟩
    rw [hp] at hm
    dsimp only at hm
    split_ifs at hm
    · exact (pushValue_advances hp).trans (ih hm)
    · cases hm
      exact pushValue_advances hp

theorem moveLoop_spec {is : List Item} {ts : List (Node h)}
    (hc : Collects N rq.plat env.file h mr m w)
    (his : List.Forall₂ (ItemShows N rq.plat env.file) is ts)
    (hw : w + (is.map (Item.weight · h)).sum < chunkLimit)
    (hm : moveLoop rq is mr env = (e, mr', env')) (hpass : Passed e env') :
    Kept N rq h mr mr' (m ++ ts.flatMap Node.contents) (w + (is.map (Item.weight · h)).sum) env env'
      e := by
  induction is generalizing ts mr env m w with
  | nil =>
    obtain rfl := forall₂_nil_left_iff.mp his
    cases hm
    exact ⟨fun _ => rfl, by simpa using hc, rfl, rfl⟩
  | cons i is ih =>
    obtain ⟨t, ts, hi, hrest, rfl⟩ := forall₂_cons_left_iff.mp his
    rw [moveLoop] at hm
    rcases hp : pushValue rq i mr env with ⟨e1, mr1, env1⟩
    rw [hp] at hm
    rw [map_cons, sum_cons] at hw ⊢
    dsimp only at hm
    have hk := pushValue_spec hc hi (by omega) hp
    by_cases he : e1 = .success
    · rw [if_pos he] at hm
      have hg := (pushValue_advances hp).grows
      have hk' := hk.trans (ih hk.collects (hrest.imp fun _ _ hx => hx.mono hg) (by omega) hm)
      simpa only [flatMap_cons, append_assoc, Nat.add_assoc] using hk'
    · rw [if_neg he] at hm
      cases hm
      exact absurd (hk.success hpass) he

def Modres.Counted (mr : Modres) : Prop := mr.count = mr.values.length

omit [N.Lawful rq]

theorem flushMrPartial_counted (hc : mr.Counted)
    (hfl : flushMrPartial rq mr q env = (.success, mr', env')) : mr'.Counted := by
  obtain ⟨-, -, rfl, -⟩ | ⟨-, he, -⟩ | ⟨written, rest, _, _, _, -, -, ht, -, -, -, rfl⟩ :=
    flushMrPartial_cases hfl
  · exact hc
  · cases he
  · have happ := congrArg List.length (flushTake_append mr.nodeType mr.values q 0)
    rw [ht, length_append] at happ
    unfold Modres.Counted at hc ⊢
    dsimp only at happ ⊢
    omega

theorem pushValue_counted (hc : mr.Counted)
    (hp : pushValue rq i mr env = (.success, mr', env')) : mr'.Counted := by
  have hpush : Modres.Counted { mr with
      values := mr.values ++ [i], nodeLen := mr.nodeLen + i.size, count := mr.count + 1 } := by
    simpa [Modres.Counted] using hc
  unfold pushValue maybeFlush at hp
  split_ifs at hp
  any_goals exact flushMrPartial_counted hpush hp
  all_goals
    cases hp
    exact hpush

theorem moveLoop_counted {is : List Item} (hc : mr.Counted)
    (hm : moveLoop rq is mr env = (.success, mr', env')) : mr'.Counted := by
  induction is generalizing mr env with
  | nil => exact (Prod.mk.inj (Prod.mk.inj hm).2).1 ▸ hc
  | cons i is ih =>
    rcases hp : pushValue rq i mr env with ⟨e1, mr1, env1⟩
    simp only [moveLoop, hp] at hm
    split_ifs at hm with he
    · subst he
      exact ih (pushValue_counted hc hp) hm
    · exact absurd (Prod.mk.inj hm).1 he

end Spec

end Appstack.Couchstore
