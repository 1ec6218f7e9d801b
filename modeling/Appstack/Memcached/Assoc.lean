import Appstack.Lib.Chains
import Appstack.Lib.Machine

-- `assoc.c`. All calls are made under the cache lock, so that they follow one another.

namespace Appstack.Memcached

open Lib.Chains Function List BitVec

/-- What C leaves undefined, and the failed assertions. -/
inductive Fault
  | undefinedShift
  | outOfBounds
  | freedTable
  | assertion
  deriving DecidableEq, Repr

/-- An allocated array of buckets. Each bucket is the chain of items along `h_next`. -/
structure Table (ι : Type) where
  size : ℕ
  bucket : ℕ → List ι

namespace Table

variable {ι : Type}

def zeroed (size : ℕ) : Table ι := ⟨size, fun _ => []⟩

def get (t : Table ι) (i : ℕ) : Except Fault (List ι) :=
  if i < t.size then .ok (t.bucket i) else .error .outOfBounds

def set (t : Table ι) (i : ℕ) (l : List ι) : Except Fault (Table ι) :=
  if i < t.size then .ok { t with bucket := update t.bucket i l }
  else .error .outOfBounds

end Table

/-- `struct assoc`. The old table is `none` when it was freed or is not in use. -/
structure Assoc (ι : Type) where
  hashpower : ℕ
  primary : Table ι
  old : Option (Table ι)
  hashItems : BitVec 32
  expanding : Bool
  expandBucket : BitVec 32

inductive Place
  | primary (bucket : ℕ)
  | old (bucket : ℕ)
  deriving DecidableEq, Repr

/-- `(uint32_t)1 << n`: a shift by the width or more is undefined. -/
def hashsize (n : ℕ) : Except Fault (BitVec 32) :=
  if n < 32 then .ok (1#32 <<< n) else .error .undefinedShift

def hashmask (n : ℕ) : Except Fault (BitVec 32) := do
  return (← hashsize n) - 1#32

namespace Assoc

variable {κ ι : Type} [DecidableEq κ] (key : ι → κ) (hash : κ → BitVec 32)

def init : Assoc ι :=
  { hashpower := 16, primary := Table.zeroed (2 ^ 16), old := none, hashItems := 0
    expanding := false, expandBucket := 0 }

/-- The bucket that `assoc_find`, `_hashitem_before` and `assoc_insert` turn to. -/
def place (a : Assoc ι) (h : BitVec 32) : Except Fault Place := do
  if a.expanding then
    let oldbucket := h &&& (← hashmask (a.hashpower - 1))
    if a.expandBucket ≤ oldbucket then return .old oldbucket.toNat
  return .primary (h &&& (← hashmask a.hashpower)).toNat

def oldTable (a : Assoc ι) : Except Fault (Table ι) :=
  match a.old with
  | some t => .ok t
  | none => .error .freedTable

def read (a : Assoc ι) : Place → Except Fault (List ι)
  | .primary b => a.primary.get b
  | .old b => do (← a.oldTable).get b

def write (a : Assoc ι) (l : List ι) : Place → Except Fault (Assoc ι)
  | .primary b => do return { a with primary := ← a.primary.set b l }
  | .old b => do return { a with old := some (← (← a.oldTable).set b l) }

def find (a : Assoc ι) (k : κ) : Except Fault (Option ι) := do
  let chain ← a.read (← a.place (hash k))
  return lookup key k chain

/-- `assoc_expand`; `memory` and `thread` tell whether `calloc` and the creation of the thread
succeed. Without a thread the new table is given up again. -/
def expand (a : Assoc ι) (memory thread : Bool) : Except Fault (Assoc ι) := do
  let size ← hashsize (a.hashpower + 1)
  if memory then
    if thread then
      return { a with
        hashpower := a.hashpower + 1, primary := Table.zeroed size.toNat, old := some a.primary
        expanding := true, expandBucket := 0 }
    else return { a with expandBucket := 0 }
  else return a

def insert (a : Assoc ι) (x : ι) (memory thread : Bool) : Except Fault (Assoc ι) := do
  if (← a.find key hash (key x)).isSome then throw .assertion
  let p ← a.place (hash (key x))
  let a ← a.write (x :: (← a.read p)) p
  let a := { a with hashItems := a.hashItems + 1#32 }
  if a.expanding then return a
  let size ← hashsize a.hashpower
  if size * 3#32 / 2#32 < a.hashItems then a.expand memory thread else return a

def delete (a : Assoc ι) (k : κ) : Except Fault (Assoc ι) := do
  let p ← a.place (hash k)
  let chain ← a.read p
  if (lookup key k chain).isNone then throw .assertion
  let a := { a with hashItems := a.hashItems - 1#32 }
  a.write (remove key k chain) p

def relink (mask : BitVec 32) (t : Table ι) (x : ι) : Except Fault (Table ι) := do
  let bucket := (hash (key x) &&& mask).toNat
  t.set bucket (x :: (← t.get bucket))

/-- One round of the maintenance thread, and the table that it frees. -/
def moveBucket (a : Assoc ι) : Except Fault (Assoc ι × Option (Table ι)) := do
  if a.expanding then
    let t ← a.oldTable
    let chain ← t.get a.expandBucket.toNat
    let primary ← chain.foldlM (relink key hash (← hashmask a.hashpower)) a.primary
    let t ← t.set a.expandBucket.toNat []
    let next := a.expandBucket + 1#32
    let size ← hashsize (a.hashpower - 1)
    if next = size then
      return ({ a with primary := primary, old := none, expanding := false, expandBucket := next },
        some t)
    else
      return ({ a with primary := primary, old := some t, expandBucket := next }, none)
  else return (a, none)

end Assoc

section
variable {n : ℕ} (h : n < 32)
include h

theorem hashsize_eq : hashsize n = .ok (1#32 <<< n) := if_pos h

theorem toNat_hashsize : (1#32 <<< n).toNat = 2 ^ n := by
  rw [toNat_shiftLeft, toNat_ofNat, Nat.one_mod_eq_one.mpr (by decide), Nat.one_shiftLeft]
  exact Nat.mod_eq_of_lt (Nat.pow_lt_pow_right (by decide) h)

theorem toNat_and_mask (x : BitVec 32) : (x &&& (1#32 <<< n - 1#32)).toNat = x.toNat % 2 ^ n := by
  have hpos : 0 < 2 ^ n := Nat.two_pow_pos n
  have hsub : (1#32 <<< n - 1#32).toNat = 2 ^ n - 1 := by
    rw [toNat_sub_of_le, toNat_hashsize h]
    · rfl
    · rw [le_def, toNat_hashsize h]
      exact hpos
  rw [toNat_and, hsub, Nat.and_two_pow_sub_one_eq_mod]

theorem hashmask_eq : hashmask n = .ok (1#32 <<< n - 1#32) := by
  rw [hashmask, hashsize_eq h]
  rfl

end

namespace Assoc

variable {κ ι : Type} (key : ι → κ) (hash : κ → BitVec 32)

def home (a : Assoc ι) (k : κ) : Place :=
  if a.expanding = true ∧ a.expandBucket.toNat ≤ (hash k).toNat % 2 ^ (a.hashpower - 1) then
    .old ((hash k).toNat % 2 ^ (a.hashpower - 1))
  else .primary ((hash k).toNat % 2 ^ a.hashpower)

def chain (a : Assoc ι) : Place → List ι
  | .primary b => a.primary.bucket b
  | .old b => if a.expanding then a.old.elim [] fun t => t.bucket b else []

structure Represents (a : Assoc ι) (l : List ι) : Prop where
  power : a.hashpower < 32
  size : a.primary.size = 2 ^ a.hashpower
  moving : a.expanding = true → 0 < a.hashpower ∧ a.expandBucket.toNat < 2 ^ (a.hashpower - 1) ∧
    ∃ t, a.old = some t ∧ t.size = 2 ^ (a.hashpower - 1)
  count : a.hashItems.toNat = l.length
  placed : Placed key (a.home hash) a.chain l

def put (a : Assoc ι) (l : List ι) : Place → Assoc ι
  | .primary b => { a with primary := { a.primary with bucket := update a.primary.bucket b l } }
  | .old b => { a with old := a.old.map fun t => { t with bucket := update t.bucket b l } }

variable {key hash} {a : Assoc ι} {l : List ι}

theorem place_eq (h : a.hashpower < 32) (k : κ) : a.place (hash k) = .ok (a.home hash k) := by
  have hlt : a.hashpower - 1 < 32 := by omega
  unfold place home
  rw [hashmask_eq h, hashmask_eq hlt]
  cases hex : a.expanding with
  | false => simp [toNat_and_mask h, pure, Except.pure, bind, Except.bind]
  | true =>
    by_cases hle : a.expandBucket.toNat ≤ (hash k).toNat % 2 ^ (a.hashpower - 1)
    · have hle' : a.expandBucket ≤ hash k &&& (1#32 <<< (a.hashpower - 1) - 1#32) := by
        rw [le_def, toNat_and_mask hlt]
        exact hle
      simp [hle, hle', toNat_and_mask hlt, pure, Except.pure, bind, Except.bind]
    · have hle' : ¬a.expandBucket ≤ hash k &&& (1#32 <<< (a.hashpower - 1) - 1#32) := by
        rw [le_def, toNat_and_mask hlt]
        exact hle
      simp [hle, hle', toNat_and_mask h, pure, Except.pure, bind, Except.bind]

section
variable (h : Represents key hash a l) (k : κ)
include h

theorem Represents.home_cases : (∃ b, a.home hash k = .primary b ∧ b < a.primary.size) ∨
      ∃ b t, a.home hash k = .old b ∧ a.expanding = true ∧ a.old = some t ∧ b < t.size := by
  unfold home
  split_ifs with hold
  · obtain ⟨_, _, t, ht, hsize⟩ := h.moving hold.1
    refine .inr ⟨_, t, rfl, hold.1, ht, ?_⟩
    rw [hsize]
    exact Nat.mod_lt _ (Nat.two_pow_pos _)
  · refine .inl ⟨_, rfl, ?_⟩
    rw [h.size]
    exact Nat.mod_lt _ (Nat.two_pow_pos _)

theorem Represents.read_home : a.read (a.home hash k) = .ok (a.chain (a.home hash k)) := by
  rcases h.home_cases k with ⟨b, hb, hlt⟩ | ⟨b, t, hb, hex, ht, hlt⟩
  · rw [hb, read, Table.get, if_pos hlt, chain]
  · rw [hb, read, oldTable, ht, chain, if_pos hex, ht]
    exact if_pos hlt

theorem Represents.write_home (m : List ι) (n : BitVec 32) :
    ({ a with hashItems := n } : Assoc ι).write m (a.home hash k) =
      .ok { a.put m (a.home hash k) with hashItems := n } := by
  rcases h.home_cases k with ⟨b, hb, hlt⟩ | ⟨b, t, hb, hex, ht, hlt⟩
  · rw [hb, write, Table.set, if_pos hlt]
    rfl
  · rw [hb, write, oldTable]
    simp only [ht, bind, Except.bind, Table.set, if_pos hlt, put]
    rfl

end

@[simp] theorem put_hashItems (m : List ι) (p : Place) : (a.put m p).hashItems = a.hashItems := by
  cases p <;> rfl

theorem put_with_hashItems (m : List ι) (p : Place) :
    ({ a.put m p with hashItems := a.hashItems } : Assoc ι) = a.put m p := by
  cases p <;> rfl

@[simp] theorem put_expanding (m : List ι) (p : Place) : (a.put m p).expanding = a.expanding := by
  cases p <;> rfl

@[simp] theorem put_hashpower (m : List ι) (p : Place) : (a.put m p).hashpower = a.hashpower := by
  cases p <;> rfl

theorem Represents.chain_put (h : Represents key hash a l) (k : κ) (m : List ι) :
    (a.put m (a.home hash k)).chain = update a.chain (a.home hash k) m := by
  funext p
  rcases h.home_cases k with ⟨b, hb, _⟩ | ⟨b, t, hb, hex, ht, _⟩
  · rw [hb]
    cases p with
    | primary c =>
      by_cases hc : c = b
      · simp [put, chain, hc]
      · simp [put, chain, hc]
    | old c =>
      rw [update_of_ne (by simp)]
      rfl
  · rw [hb]
    cases p with
    | primary c =>
      rw [update_of_ne (by simp)]
      rfl
    | old c =>
      by_cases hc : c = b
      · simp [put, chain, hc, hex, ht]
      · simp [put, chain, hc, hex, ht]

theorem Represents.put (h : Represents key hash a l) (k : κ) (m : List ι) (n : BitVec 32)
    {l' : List ι} (hn : n.toNat = l'.length)
    (hplaced : Placed key (a.home hash) (update a.chain (a.home hash k) m) l') :
    Represents key hash { a.put m (a.home hash k) with hashItems := n } l' := by
  have hchain := h.chain_put k m
  rcases h.home_cases k with ⟨b, hb, _⟩ | ⟨b, t, hb, hex, ht, _⟩
  · rw [hb] at hchain hplaced ⊢
    refine ⟨h.power, h.size, h.moving, hn, ?_⟩
    rw [← hchain] at hplaced
    exact hplaced
  · rw [hb] at hchain hplaced ⊢
    refine ⟨h.power, h.size, ?_, hn, ?_⟩
    · intro _
      obtain ⟨hpos, hlt, t', ht', hsize⟩ := h.moving hex
      exact ⟨hpos, hlt, { t' with bucket := update t'.bucket b m }, by simp [Assoc.put, ht'], hsize⟩
    · rw [← hchain] at hplaced
      exact hplaced

theorem init_represents : Represents key hash (init : Assoc ι) [] := by
  refine ⟨by simp [init], rfl, by simp [init], rfl, ?_⟩
  refine ⟨nodup_nil, ?_, ?_⟩
  · intro p
    cases p <;> simp [chain, init, Table.zeroed]
  · intro p x
    cases p <;> simp [chain, init, Table.zeroed]

theorem home_of_stable (hex : a.expanding = false) (k : κ) :
    a.home hash k = .primary ((hash k).toNat % 2 ^ a.hashpower) := by
  rw [home, if_neg (by simp [hex])]

theorem Represents.expand (h : Represents key hash a l) (hex : a.expanding = false)
    (hpower : a.hashpower < 31) (memory thread : Bool) :
    ∃ a', a.expand memory thread = .ok a' ∧ Represents key hash a' l := by
  have hlt : a.hashpower + 1 < 32 := by omega
  unfold Assoc.expand
  rw [hashsize_eq hlt]
  cases memory with
  | false => exact ⟨a, rfl, h⟩
  | true =>
    cases thread with
    | false =>
      refine ⟨_, rfl, h.power, h.size, fun hex' => by simp [hex] at hex', h.count, ?_⟩
      have hplaced := h.placed
      have hhome : a.home hash = ({ a with expandBucket := 0 } : Assoc ι).home hash := by
        funext k
        rw [home_of_stable hex, home_of_stable]
        exact hex
      rw [hhome] at hplaced
      exact hplaced
    | true =>
      set a' : Assoc ι := { a with
        hashpower := a.hashpower + 1, primary := Table.zeroed (1#32 <<< (a.hashpower + 1)).toNat
        old := some a.primary, expanding := true, expandBucket := 0 } with ha'
      have hhome : ∀ k, a'.home hash k = .old ((hash k).toNat % 2 ^ a.hashpower) := by
        intro k
        rw [home, if_pos ⟨rfl, Nat.zero_le _⟩]
        rfl
      refine ⟨a', rfl, hlt, toNat_hashsize hlt, ?_, h.count, h.placed.rehome ?_ ?_⟩
      · intro _
        exact ⟨Nat.succ_pos _, Nat.two_pow_pos _, a.primary, rfl, h.size⟩
      · intro p
        cases p with
        | primary b => exact nodup_nil
        | old b => exact h.placed.nodup (.primary b)
      · intro p x
        rw [hhome, home_of_stable hex]
        cases p with
        | primary b =>
          have hnil : a'.chain (.primary b) = [] := rfl
          simp [hnil]
        | old b =>
          have hchain : a'.chain (.old b) = a.chain (.primary b) := rfl
          rw [hchain]
          constructor
          · intro hx
            have hb := h.placed.unique hx
            rw [home_of_stable hex] at hb
            obtain rfl := Place.primary.inj hb
            exact ⟨hx, rfl⟩
          · rintro ⟨hx, hb⟩
            obtain rfl := Place.old.inj hb
            exact hx

theorem foldlM_relink (key : ι → κ) (hash : κ → BitVec 32) {n : ℕ} (hn : n < 32) (xs : List ι)
    (t : Table ι) (ht : t.size = 2 ^ n) :
    ∃ t', xs.foldlM (relink key hash (1#32 <<< n - 1#32)) t = .ok t' ∧ t'.size = t.size ∧
      ∀ b, t'.bucket b =
        (xs.filter fun x => (hash (key x)).toNat % 2 ^ n = b).reverse ++ t.bucket b := by
  induction xs generalizing t with
  | nil => exact ⟨t, rfl, rfl, fun b => rfl⟩
  | cons x xs ih =>
    set i := (hash (key x)).toNat % 2 ^ n with hi
    have hlt : i < t.size := by
      rw [ht]
      exact Nat.mod_lt _ (Nat.two_pow_pos n)
    set t1 : Table ι := { t with bucket := update t.bucket i (x :: t.bucket i) } with ht1
    have hstep : relink key hash (1#32 <<< n - 1#32) t x = .ok t1 := by
      rw [relink, toNat_and_mask hn, ← hi, Table.get, if_pos hlt]
      exact if_pos hlt
    obtain ⟨t', hfold, hsize, hbucket⟩ := ih t1 ht
    refine ⟨t', ?_, hsize, ?_⟩
    · rw [foldlM_cons, hstep]
      exact hfold
    · intro b
      rw [hbucket]
      by_cases hb : i = b
      · subst hb
        simp [ht1, ← hi]
      · have hb' : b ≠ i := fun h => hb h.symm
        simp [ht1, ← hi, hb, hb']

theorem moveBucket_eq (h : Represents key hash a l) (hex : a.expanding = true) :
    ∃ primary t, a.old = some t ∧ primary.size = a.primary.size ∧ (∀ b, primary.bucket b =
        ((a.chain (.old a.expandBucket.toNat)).filter
            fun x => (hash (key x)).toNat % 2 ^ a.hashpower = b).reverse ++ a.primary.bucket b) ∧
      a.moveBucket key hash =
        let t' : Table ι := { t with bucket := update t.bucket a.expandBucket.toNat [] }
        let a' : Assoc ι := { a with primary := primary, expandBucket := a.expandBucket + 1#32 }
        if a.expandBucket + 1#32 = 1#32 <<< (a.hashpower - 1) then
          .ok ({ a' with old := none, expanding := false }, some t')
        else .ok ({ a' with old := some t' }, none) := by
  obtain ⟨hpos, hlt, t, ht, hsize⟩ := h.moving hex
  have hlt32 : a.hashpower - 1 < 32 := by
    have := h.power
    omega
  obtain ⟨primary, hfold, hprimary, hbucket⟩ := foldlM_relink key hash h.power
    (t.bucket a.expandBucket.toNat) a.primary h.size
  have hchain : a.chain (.old a.expandBucket.toNat) = t.bucket a.expandBucket.toNat := by
    rw [chain, if_pos hex, ht]
    rfl
  refine ⟨primary, t, ht, hprimary, ?_, ?_⟩
  · rw [hchain]
    exact hbucket
  · unfold Assoc.moveBucket
    rw [if_pos hex, oldTable, ht, hashmask_eq h.power, hashsize_eq hlt32]
    have hin : a.expandBucket.toNat < t.size := by
      rw [hsize]
      exact hlt
    simp only [bind, Except.bind, Table.get, Table.set, if_pos hin, hfold]
    rfl

theorem home_advance {a' : Assoc ι} (hex : a.expanding = true) (hpower : a'.hashpower = a.hashpower)
    (hnext : a'.expanding = true ∧ a'.expandBucket.toNat = a.expandBucket.toNat + 1 ∨
      a'.expanding = false ∧ 2 ^ (a.hashpower - 1) = a.expandBucket.toNat + 1) (k : κ) :
    a'.home hash k =
      if a.home hash k = .old a.expandBucket.toNat then
        .primary ((hash k).toNat % 2 ^ a.hashpower)
      else a.home hash k := by
  have hmod : (hash k).toNat % 2 ^ (a.hashpower - 1) < 2 ^ (a.hashpower - 1) :=
    Nat.mod_lt _ (Nat.two_pow_pos _)
  unfold home
  rw [hpower]
  rcases hnext with ⟨hex', heb⟩ | ⟨hex', hlast⟩
  · simp only [hex, hex', heb, true_and]
    split_ifs <;> simp_all <;> omega
  · simp only [hex, hex', true_and, Bool.false_eq_true, false_and, if_false]
    split_ifs
    · rfl
    · simp_all
      omega
    · rfl
    · rfl

theorem Represents.placed_advance (h : Represents key hash a l) {a' : Assoc ι}
    (hhome : ∀ k, a'.home hash k =
      if a.home hash k = .old a.expandBucket.toNat then
        .primary ((hash k).toNat % 2 ^ a.hashpower)
      else a.home hash k)
    (hprimary : ∀ b, a'.chain (.primary b) = ((a.chain (.old a.expandBucket.toNat)).filter
        fun x => (hash (key x)).toNat % 2 ^ a.hashpower = b).reverse ++ a.chain (.primary b))
    (hold : ∀ b, a'.chain (.old b) =
      if b = a.expandBucket.toNat then [] else a.chain (.old b)) :
    Placed key (a'.home hash) a'.chain l := by
  apply h.placed.rehome
  · intro p
    cases p with
    | primary b =>
      rw [hprimary, map_append, nodup_append]
      refine ⟨?_, h.placed.nodup _, ?_⟩
      · rw [map_reverse, nodup_reverse]
        exact (h.placed.nodup _).sublist (filter_sublist.map key)
      · -- an item of the moved bucket is not yet in the new one
        intro k hk k' hk' heq
        obtain ⟨x, hx, rfl⟩ := mem_map.mp hk
        obtain ⟨y, hy, rfl⟩ := mem_map.mp hk'
        have hx' := h.placed.unique (mem_filter.mp (mem_reverse.mp hx)).1
        have hy' := h.placed.unique hy
        rw [heq, ← hy'] at hx'
        cases hx'
    | old b =>
      rw [hold]
      split_ifs
      · exact nodup_nil
      · exact h.placed.nodup _
  · intro p x
    rw [hhome]
    cases p with
    | primary b =>
      rw [hprimary, mem_append, mem_reverse, mem_filter, decide_eq_true_eq]
      constructor
      · rintro (⟨hx, hb⟩ | hx)
        · have hx' := h.placed.unique hx
          rw [← hx', if_pos rfl, hb]
          exact ⟨hx, rfl⟩
        · have hx' := h.placed.unique hx
          rw [← hx', if_neg (by simp)]
          exact ⟨hx, rfl⟩
      · rintro ⟨hx, hb⟩
        split_ifs at hb with hmoved
        · rw [hmoved] at hx
          exact .inl ⟨hx, Place.primary.inj hb⟩
        · rw [hb] at hx
          exact .inr hx
    | old b =>
      rw [hold]
      by_cases hb : b = a.expandBucket.toNat
      · rw [if_pos hb, hb]
        constructor
        · intro hx
          cases hx
        · rintro ⟨_, hx⟩
          split_ifs at hx with hmoved
          exact absurd hx hmoved
      · rw [if_neg hb]
        constructor
        · intro hx
          have hx' := h.placed.unique hx
          rw [← hx', if_neg (by simpa using hb)]
          exact ⟨hx, rfl⟩
        · rintro ⟨hx, hb'⟩
          split_ifs at hb' with hmoved
          rw [hb'] at hx
          exact hx

theorem Represents.chain_old_eq_nil (h : Represents key hash a l)
    (hlast : 2 ^ (a.hashpower - 1) = a.expandBucket.toNat + 1) {b : ℕ}
    (hb : b ≠ a.expandBucket.toNat) : a.chain (.old b) = [] := by
  rw [eq_nil_iff_forall_not_mem]
  intro x hx
  have hhome := h.placed.unique hx
  have hmod : (hash (key x)).toNat % 2 ^ (a.hashpower - 1) < 2 ^ (a.hashpower - 1) :=
    Nat.mod_lt _ (Nat.two_pow_pos _)
  unfold home at hhome
  split_ifs at hhome with hold
  have hidx := Place.old.inj hhome
  omega

/-- One round of the maintenance thread keeps all items, and frees only an empty table. -/
theorem Represents.moveBucket (h : Represents key hash a l) :
    ∃ a' freed, a.moveBucket key hash = .ok (a', freed) ∧ Represents key hash a' l ∧
      (∀ t ∈ freed, ∀ b, t.bucket b = []) ∧ a'.hashpower = a.hashpower ∧
      (a.expanding = true → a'.expanding = true →
        a'.expandBucket.toNat = a.expandBucket.toNat + 1) := by
  cases hex : a.expanding with
  | false =>
    refine ⟨a, none, ?_, h, by simp, rfl, by simp⟩
    rw [Assoc.moveBucket, if_neg (by simp [hex])]
    rfl
  | true =>
    obtain ⟨hpos, hlt, t0, ht0, hsize⟩ := h.moving hex
    obtain ⟨primary, t, ht, hprimary, hbucket, heq⟩ := moveBucket_eq h hex
    obtain rfl : t0 = t := Option.some.inj (ht0.symm.trans ht)
    have hlt32 : a.hashpower - 1 < 32 := by
      have := h.power
      omega
    have hpow : 2 ^ (a.hashpower - 1) < 2 ^ 32 := Nat.pow_lt_pow_right (by decide) hlt32
    have hnext : (a.expandBucket + 1#32).toNat = a.expandBucket.toNat + 1 := by
      rw [toNat_add]
      exact Nat.mod_eq_of_lt (by simp only [toNat_ofNat]; omega)
    have hchain : ∀ b, a.chain (.old b) = t0.bucket b := by
      intro b
      rw [chain, if_pos hex, ht]
      rfl
    rw [heq]
    dsimp only
    split_ifs with hdone
    · have hlast : 2 ^ (a.hashpower - 1) = a.expandBucket.toNat + 1 := by
        rw [← hnext, hdone, toNat_hashsize hlt32]
      set a' : Assoc ι := { a with
        primary := primary, expandBucket := a.expandBucket + 1#32, old := none, expanding := false }
      refine ⟨a', _, rfl, ⟨h.power, hprimary.trans h.size, by simp [a'], h.count, ?_⟩, ?_, rfl,
        by simp [a']⟩
      · refine h.placed_advance (home_advance hex rfl (.inr ⟨rfl, hlast⟩)) hbucket ?_
        intro b
        have hnil : a'.chain (.old b) = [] := rfl
        rw [hnil]
        split_ifs with hb
        · rfl
        · exact (h.chain_old_eq_nil hlast hb).symm
      · intro t ht b
        cases ht
        by_cases hb : b = a.expandBucket.toNat
        · simp [hb]
        · simp [hb, ← hchain, h.chain_old_eq_nil hlast hb]
    · have hmore : a.expandBucket.toNat + 1 ≠ 2 ^ (a.hashpower - 1) := by
        intro hlast
        apply hdone
        apply eq_of_toNat_eq
        rw [hnext, hlast, toNat_hashsize hlt32]
      set t' : Table ι := { t0 with bucket := update t0.bucket a.expandBucket.toNat [] }
        with ht'
      set a' : Assoc ι := { a with
        primary := primary, expandBucket := a.expandBucket + 1#32, old := some t' } with ha'
      refine ⟨a', none, rfl, ⟨h.power, hprimary.trans h.size, ?_, h.count, ?_⟩, by simp, rfl,
        fun _ _ => hnext⟩
      · intro _
        refine ⟨hpos, ?_, t', rfl, hsize⟩
        change (a.expandBucket + 1#32).toNat < 2 ^ (a.hashpower - 1)
        omega
      · refine h.placed_advance (home_advance hex rfl (.inl ⟨hex, hnext⟩)) hbucket ?_
        intro b
        have hold : a'.chain (.old b) = t'.bucket b := by
          rw [chain, if_pos hex]
          rfl
        rw [hold, hchain]
        by_cases hb : b = a.expandBucket.toNat
        · simp [ht', hb]
        · simp [ht', hb]

variable [DecidableEq κ]

theorem Represents.find_eq (h : Represents key hash a l) (k : κ) :
    a.find key hash k = .ok (lookup key k l) := by
  rw [find, place_eq h.power]
  simp only [bind, Except.bind, h.read_home, h.placed.lookup_home]
  rfl

section
variable (h : Represents key hash a l) {x : ι} (hx : lookup key (key x) l = none)
  (hcount : l.length + 1 < 2 ^ 32)
include h hx hcount

/-- An insertion links the item first, and then asks whether the table has to grow. -/
theorem Represents.insert_eq (memory thread : Bool) :
    ∃ a', Represents key hash a' (x :: l) ∧ a'.expanding = a.expanding ∧
      a'.hashpower = a.hashpower ∧
      a.insert key hash x memory thread =
        if a'.expanding then .ok a'
        else if 1#32 <<< a'.hashpower * 3#32 / 2#32 < a'.hashItems then a'.expand memory thread
        else .ok a' := by
  set p := a.home hash (key x) with hp
  have hitems : (a.hashItems + 1#32).toNat = (x :: l).length := by
    rw [toNat_add, h.count, length_cons]
    exact Nat.mod_eq_of_lt hcount
  have hwrite := h.write_home (key x) (x :: a.chain p) a.hashItems
  rw [← hp, put_with_hashItems] at hwrite
  have hwrite' : a.write (x :: a.chain p) p = .ok (a.put (x :: a.chain p) p) := hwrite
  refine ⟨_, h.put (key x) (x :: a.chain p) _ hitems (h.placed.insert hx), put_expanding _ _,
    put_hashpower _ _, ?_⟩
  unfold Assoc.insert
  rw [h.find_eq, hx, place_eq h.power]
  simp only [bind, Except.bind, Option.isSome_none, Bool.false_eq_true, if_false]
  rw [h.read_home]
  simp only [← hp]
  rw [hwrite']
  simp only [put_hashItems, put_hashpower, hashsize_eq h.power]
  rfl

theorem Represents.insert (hroom : a.expanding = false → a.hashpower = 31 → l.length + 1 ≤ 2 ^ 30)
    (memory thread : Bool) :
    ∃ a', a.insert key hash x memory thread = .ok a' ∧ Represents key hash a' (x :: l) := by
  obtain ⟨a1, hrep, hexpanding, hpower, heq⟩ := h.insert_eq hx hcount memory thread
  rw [heq]
  split_ifs with hex hload
  · exact ⟨a1, rfl, hrep⟩
  · have hstable : a1.expanding = false := by simpa using hex
    refine hrep.expand hstable ?_ memory thread
    -- at the last size that a word can hold the load stays below the wrapped limit
    by_contra hlarge
    have hlast : a1.hashpower = 31 := by
      have := hrep.power
      omega
    have hle := hroom (hexpanding.symm.trans hstable) (hpower.symm.trans hlast)
    rw [hlast, lt_def, hrep.count, length_cons] at hload
    have hlimit : (1#32 <<< 31 * 3#32 / 2#32).toNat = 2 ^ 30 := by decide
    omega
  · exact ⟨a1, rfl, hrep⟩

end

theorem Represents.delete (h : Represents key hash a l) {k : κ} {x : ι}
    (hk : lookup key k l = some x) :
    ∃ a', a.delete key hash k = .ok a' ∧ Represents key hash a' (remove key k l) := by
  set p := a.home hash k with hp
  have hlen := length_remove hk
  have hitems : (a.hashItems - 1#32).toNat = (remove key k l).length := by
    have hcount := h.count
    have hone : (1#32).toNat = 1 := rfl
    rw [toNat_sub_of_le]
    · omega
    · rw [le_def]
      omega
  have hfound : lookup key k (a.chain p) = some x := (h.placed.lookup_home k).trans hk
  have hwrite := h.write_home k (remove key k (a.chain p)) (a.hashItems - 1#32)
  refine ⟨_, ?_, h.put k (remove key k (a.chain p)) _ hitems (h.placed.remove k)⟩
  unfold Assoc.delete
  rw [place_eq h.power]
  simp only [bind, Except.bind]
  rw [h.read_home]
  simp only [← hp, hfound, Option.isNone_some, Bool.false_eq_true, if_false]
  exact hwrite

end Assoc

end Appstack.Memcached
