import Appstack.Couchstore.BtreeRoot
import Appstack.Couchstore.DocInfo

namespace Appstack.Couchstore
open BigEndian List

variable {τ β : Type*}

/-- A request whose reduce functions compute `value` of the bindings below a node. -/
structure Request.Reduces (rq : Request τ β) (value : Bindings → Bytes) : Prop where
  leaf : ∀ written, rq.reduceItems .kv written = value (written.map fun i => (i.key, i.data))
  inner : ∀ (written : List Item) (ms : List Bindings),
    List.Forall₂ (fun i m => reduceValue i = value m) written ms →
      rq.reduceItems .kp written = value ms.flatten

theorem encode_sum_map {α γ : Type*} {w : ℕ} {is : List α} {ms : List γ} {read : α → ℕ} {f : γ → ℕ}
    (h : List.Forall₂ (fun i m => read i = f m % 256 ^ w) is ms) :
    encode w (is.map read).sum = encode w (ms.map f).sum := by
  have hmap : is.map read = (ms.map f).map (· % 256 ^ w) := by
    induction h with
    | nil => rfl
    | cons hi _ ih => rw [map_cons, map_cons, map_cons, hi, ih]
  rw [hmap, ← encode_mod w (List.sum _), ← sum_nat_mod, encode_mod]

def isDeleted (e : Bytes × Bytes) : Bool := decodeRaw48 ((e.2.drop 10).take 6) &&& bpDeletedFlag ≠ 0

def sizeField (e : Bytes × Bytes) : ℕ := decodeRaw32 ((e.2.drop 6).take 4)

def bySeqValue (m : Bindings) : Bytes := encodeRaw40 m.length

def byIdValue (m : Bindings) : Bytes :=
  encodeByIdReduce (m.countP fun e => !isDeleted e) (m.countP isDeleted) (m.map sizeField).sum

theorem reduces_bySeq {rq : Request τ β} (hr : rq.reduce = some bySeqReduce)
    (hrr : rq.rereduce = some bySeqRereduce) : rq.Reduces bySeqValue where
  leaf written := by
    simp [Request.reduceItems, hr, bySeqReduce, bySeqValue]
  inner written ms h := by
    simp only [Request.reduceItems, hrr, bySeqRereduce, bySeqValue, Option.map_some,
      Option.getD_some, length_flatten]
    refine encode_sum_map (h.imp fun i m him => ?_)
    rw [him, bySeqValue, take_of_length_le (by simp)]
    exact decode_encode 5 _

theorem slots_encodeByIdReduce (a b c : ℕ) :
    (encodeByIdReduce a b c).take 5 = encodeRaw40 a ∧
      ((encodeByIdReduce a b c).drop 5).take 5 = encodeRaw40 b ∧
      ((encodeByIdReduce a b c).drop 10).take 6 = encodeRaw48 c := by
  simp only [encodeByIdReduce, append_assoc, show (10 : ℕ) = 5 + 5 by norm_num,
    ← drop_drop, take_encode_append, drop_encode_append, true_and]
  exact take_of_length_le (by simp)

theorem reduces_byId {rq : Request τ β} (hr : rq.reduce = some byIdReduce)
    (hrr : rq.rereduce = some byIdRereduce) : rq.Reduces byIdValue where
  leaf written := by
    simp only [Request.reduceItems, hr, byIdReduce, byIdValue, Option.map_some, Option.getD_some,
      countP_map, map_map]
    rfl
  inner written ms h := by
    simp only [Request.reduceItems, hrr, byIdRereduce, byIdValue, Option.map_some,
      Option.getD_some, countP_flatten, map_flatten, sum_flatten, map_map]
    have hslots (m : Bindings) := slots_encodeByIdReduce (m.countP fun e => !isDeleted e)
      (m.countP isDeleted) (m.map sizeField).sum
    unfold encodeByIdReduce
    congr 1
    · congr 1
      · refine encode_sum_map (h.imp fun i m him => ?_)
        rw [him, byIdValue, (hslots m).1]
        exact decode_encode 5 _
      · refine encode_sum_map (h.imp fun i m him => ?_)
        rw [him, byIdValue, (hslots m).2.1]
        exact decode_encode 5 _
    · refine encode_sum_map (h.imp fun i m him => ?_)
      rw [him, byIdValue, (hslots m).2.2]
      exact decode_encode 6 _

section Size
variable (plat : Platform) (file : TreeFile)

def Occupies : (h pos : ℕ) → (its : Bindings) → (n : ℕ) → Prop
  | 0, pos, its, n => n = chunkBytes plat pos (nodeBytes 0 its)
  | h + 1, pos, its, n => ∃ ns : List ℕ,
      List.Forall₂ (fun e m => ∃ its', Stored plat file (pointerOf e.2) (nodeBytes h its') ∧
        (∀ x ∈ its', Fits x) ∧ Occupies h (pointerOf e.2) its' m) its ns ∧
      n = chunkBytes plat pos (nodeBytes (h + 1) its) + ns.sum

end Size

theorem Occupies.mono {plat : Platform} {file file' : TreeFile} {h pos : ℕ} {its : Bindings} {n : ℕ}
    (ho : Occupies plat file h pos its n) (hg : file.Grows file') :
    Occupies plat file' h pos its n := by
  induction h generalizing pos its n with
  | zero => exact ho
  | succ h ih =>
    obtain ⟨ns, hns, hn⟩ := ho
    refine ⟨ns, hns.imp fun e m => ?_, hn⟩
    rintro ⟨its', hst, hf, hm⟩
    exact ⟨its', hst.mono hg, hf, ih hm⟩

/-- What a pointer says of its node. A size is kept in 48 bits, so a pointer that was read
back may have less than the sum. -/
structure Sums (value : Bindings → Bytes) (plat : Platform) (file : TreeFile) (h : ℕ)
    (ptr : NodePointer) (its : Bindings) (ts : List (Node h)) : Prop where
  reduce : ptr.reduceValue = value (ts.flatMap Node.contents)
  size : ∃ n, Occupies plat file h ptr.pointer its n ∧ ptr.subtreesize ≤ n ∧
    ptr.subtreesize ≡ n [MOD 2 ^ 48]

def Note.sums (value : Bindings → Bytes) : Note where
  Holds := Sums value
  mono hg hs := by
    obtain ⟨n, ho, hn⟩ := hs.size
    exact ⟨hs.reduce, n, ho.mono hg, hn⟩

section Lawful
variable {rq : Request τ β} {value : Bindings → Bytes} {file : TreeFile} {h : ℕ}
  {written : List Item}

section
variable {ts : List (Node (h + 1))}
  (hts : List.Forall₂ (ItemShows (Note.sums value) rq.plat file) written ts)
include hts

theorem sizes_of_items : ∃ ns : List ℕ,
      List.Forall₂ (fun e m => ∃ its', Stored rq.plat file (pointerOf e.2) (nodeBytes h its') ∧
        (∀ x ∈ its', Fits x) ∧ Occupies rq.plat file h (pointerOf e.2) its' m)
        (written.map fun i => (i.key, i.data)) ns ∧
      (written.filterMap fun i => i.pointer.map NodePointer.subtreesize).sum ≤ ns.sum ∧
      (written.filterMap fun i => i.pointer.map NodePointer.subtreesize).sum ≡
        ns.sum [MOD 2 ^ 48] := by
  induction hts with
  | nil => exact ⟨[], .nil, le_rfl, .refl _⟩
  | cons hi _ ih =>
    obtain ⟨ptr, rfl, hpos, hred, its, hst, hfits, ⟨-, n, ho, hle, hmod⟩, -⟩ := hi.carried
    obtain ⟨ns, hns, hles, hmods⟩ := ih
    have hptr : pointerOf (encodePointer ptr).data = ptr.pointer :=
      pointerOf_encodeRawPointer hred hpos
    refine ⟨n :: ns, .cons ⟨its, hptr ▸ hst, hfits, hptr ▸ ho⟩ hns, ?_, ?_⟩
    · simpa [encodePointer] using Nat.add_le_add hle hles
    · simpa [encodePointer] using hmod.add hmods

theorem reduceValue_of_items :
    List.Forall₂ (fun i m => reduceValue i = value m) written (ts.map Node.contents) := by
  refine forall₂_map_right_iff.mpr (hts.imp fun i t hi => ?_)
  obtain ⟨ptr, rfl, -, -, its, -, -, hsums, -⟩ := hi.carried
  exact hsums.reduce

end

theorem leaf_of_items {ts : List (Node 0)}
    (hts : List.Forall₂ (ItemShows (Note.sums value) rq.plat file) written ts) :
    ts.flatMap Node.contents = written.map (fun i => (i.key, i.data)) ∧
      written.filterMap (fun i => i.pointer.map NodePointer.subtreesize) = [] := by
  induction hts with
  | nil => exact ⟨rfl, rfl⟩
  | @cons i t _ _ hi _ ih =>
    obtain ⟨hnone, ht⟩ := hi.carried
    rw [flatMap_cons, ih.1, map_cons, filterMap_cons, hnone]
    exact ⟨congrArg (· :: _) ht, ih.2⟩

theorem sums_lawful (hrq : rq.Reduces value) : (Note.sums value).Lawful rq where
  reread := by
    rintro file h ptr its ts hpos hred ⟨hreduce, n, ho, hle, hmod⟩
    have hread := readPointer_encodeRawPointer ptr.key (p := ptr) (by omega)
    rw [hread]
    refine ⟨hreduce, n, ?_, (Nat.mod_le _ _).trans hle, (Nat.mod_modEq _ _).trans hmod⟩
    rwa [Nat.mod_eq_of_lt hpos]
  flush := by
    rintro file (_ | h) written ts pos size - hts rfl
    · obtain ⟨hcont, hnone⟩ := leaf_of_items hts
      refine ⟨?_, _, rfl, ?_⟩
      · rw [hcont]
        exact hrq.leaf written
      · simp only [Request.pointerTo, hnone, nodeBuf_eq_nodeBytes, sum_nil, Nat.zero_add]
        exact ⟨le_rfl, .refl _⟩
    · obtain ⟨ns, hns, hle, hmod⟩ := sizes_of_items hts
      refine ⟨?_, _, ⟨ns, hns, rfl⟩, ?_⟩
      · rw [flatMap_def]
        exact hrq.inner written _ (reduceValue_of_items hts)
      · simp only [Request.pointerTo, nodeBuf_eq_nodeBytes]
        rw [Nat.add_comm]
        exact ⟨Nat.add_le_add_left hle _, hmod.add_left _⟩

end Lawful

end Appstack.Couchstore
