import Appstack.Couchstore.NodeTypes

-- `ebin_cmp` and `seq_cmp` of `util.c`.

namespace Appstack.Couchstore
open Std

def memcmp : Bytes → Bytes → Ordering
  | a :: as, b :: bs => (compare a b).then (memcmp as bs)
  | _, _ => .eq

def ebinCmp (e1 e2 : Bytes) : Ordering :=
  let size := if e2.length < e1.length then e2.length else e1.length
  match memcmp (e1.take size) (e2.take size) with
  | .eq => if size < e2.length then .lt else if size < e1.length then .gt else .eq
  | cmp => cmp

def seqCmp (k1 k2 : Bytes) : Ordering :=
  let e1val := decodeRaw48 (k1.take 6)
  let e2val := decodeRaw48 (k2.take 6)
  if e1val = e2val then .eq else if e1val < e2val then .lt else .gt

theorem memcmp_take_min (a b : Bytes) :
    memcmp (a.take (min a.length b.length)) (b.take (min a.length b.length)) = memcmp a b := by
  induction a generalizing b with
  | nil => cases b <;> simp [memcmp]
  | cons x a ih =>
    cases b with
    | nil => simp [memcmp]
    | cons y b => simp [memcmp, ih]

theorem ebinCmp_eq_compare (a b : Bytes) : ebinCmp a b = compare a b := by
  have hsize : (if b.length < a.length then b.length else a.length) = min a.length b.length := by
    split <;> omega
  simp only [ebinCmp, hsize, memcmp_take_min]
  induction a generalizing b with
  | nil => cases b <;> simp [memcmp]
  | cons x a ih =>
    cases b with
    | nil => simp [memcmp]
    | cons y b =>
      have := ih b (by split <;> omega)
      rw [memcmp, List.compare_cons_cons, ← this]
      cases hxy : compare x y
      · rfl
      · simp
      · rfl

instance : TransCmp ebinCmp := by
  have h : ebinCmp = (compare : Bytes → Bytes → Ordering) := funext₂ ebinCmp_eq_compare
  rw [h]
  infer_instance

instance : LawfulEqCmp ebinCmp := by
  have h : ebinCmp = (compare : Bytes → Bytes → Ordering) := funext₂ ebinCmp_eq_compare
  rw [h]
  infer_instance

@[simp] theorem ebinCmp_self (k : Bytes) : ebinCmp k k = .eq := ReflCmp.compare_self

theorem ebinCmp_singleton {i n : ℕ} (hn : n < 256) (hi : i < n) :
    ebinCmp [UInt8.ofNat i] [UInt8.ofNat n] = .lt := by
  have hlt : compare (UInt8.ofNat i) (UInt8.ofNat n) = .lt := by
    refine if_pos (UInt8.lt_iff_toNat_lt.mpr ?_)
    rw [UInt8.toNat_ofNat', UInt8.toNat_ofNat']
    omega
  rw [ebinCmp_eq_compare, List.compare_cons_cons, hlt]
  rfl

theorem seqCmp_eq_compare (a b : Bytes) :
    seqCmp a b = compare (decodeRaw48 (a.take 6)) (decodeRaw48 (b.take 6)) := by
  simp only [seqCmp]
  rcases Nat.lt_trichotomy (decodeRaw48 (a.take 6)) (decodeRaw48 (b.take 6)) with h | h | h
  · rw [if_neg h.ne, if_pos h, Nat.compare_eq_lt.mpr h]
  · rw [if_pos h, Nat.compare_eq_eq.mpr h]
  · rw [if_neg h.ne', if_neg h.asymm, Nat.compare_eq_gt.mpr h]

instance : TransCmp seqCmp := by
  have h : seqCmp = compareOn fun k : Bytes => decodeRaw48 (k.take 6) :=
    funext₂ seqCmp_eq_compare
  rw [h]
  infer_instance

end Appstack.Couchstore
