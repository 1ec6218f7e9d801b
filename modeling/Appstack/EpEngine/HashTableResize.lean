import Appstack.EpEngine.HashTableCounters

namespace Appstack.EpEngine

open Lib.Chains HashTable Function List

variable {κ : Type} [DecidableEq κ]

def primeSizeTable : List ℤ :=
  [3, 7, 13, 23, 47, 97, 193, 383, 769, 1531, 3067, 6143, 12289, 24571, 49157,
    98299, 196613, 393209, 786433, 1572869, 3145721, 6291449, 12582917,
    25165813, 50331653, 100663291, 201326611, 402653189, 805306357,
    1610612741, -1]

inductive ResizeFault
  | outOfTable | outOfBuckets | divisionByZero
  deriving DecidableEq, Repr

def primeAt (i : ℤ) : Except ResizeFault ℤ :=
  if 0 ≤ i then
    match primeSizeTable[i.toNat]? with
    | some p => .ok p
    | none => .error .outOfTable
  else .error .outOfTable

def distance (a b : ℕ) : ℕ := max a b - min a b

def nearest (n a b : ℕ) : ℕ := if distance n a < distance b n then a else b

def primeIndex (target : ℤ) : ℕ :=
  primeSizeTable.findIdx fun p : ℤ => !(decide (0 < p) && decide (p < target))

/-- The size that `resize()` goes to, with `ni` values in a table of `size` buckets. -/
def pickSize (defaultNumBuckets ni size : ℕ) : Except ResizeFault ℕ := do
  let i : ℤ := primeIndex ni
  let p ← primeAt i
  if p = -1 then
    let q ← primeAt (i - 1)
    return q.toNat
  else if p < defaultNumBuckets then
    return defaultNumBuckets
  else
    let q ← primeAt (i - 1)
    if (size : ℤ) = q ∨ (size : ℤ) = p then return size
    else return nearest ni q.toNat p.toNat

namespace Table

variable (L : Layout κ)

def resizeToFit (defaultNumBuckets : ℕ) (c : Table κ) (refused : Bool) :
    Except ResizeFault (Table κ) := do
  let newSize ← pickSize defaultNumBuckets c.table.numItems.toNat c.numBuckets
  (c.resize L newSize refused).mapError fun _ => .divisionByZero

inductive Resize
  | toFit (refused : Bool)
  | toSize (newSize : ℕ) (refused : Bool)

def resizeStep (defaultNumBuckets : ℕ) (c : Table κ) : Resize → Except ResizeFault (Table κ)
  | .toFit refused => c.resizeToFit L defaultNumBuckets refused
  | .toSize newSize refused => (c.resize L newSize refused).mapError fun _ => .divisionByZero

/-- The buckets that the inner loop of `visit` goes to from `i` on. -/
def strideFrom (size locks : ℕ) : ℕ → ℤ → Except ResizeFault (List ℕ)
  | 0, _ => .error .outOfBuckets
  | fuel + 1, i =>
    if i < asInt size then
      if i < 0 then .error .outOfBuckets
      else do
        let rest ← strideFrom size locks fuel (asInt (i + locks))
        return i.toNat :: rest
    else return []

def visit (locks : ℕ) (c : Table κ) : Except ResizeFault (List (StoredValue κ)) :=
  if c.table.numItems = 0 then return []
  else do
    let buckets ← (List.range (asInt locks).toNat).mapM fun l =>
      strideFrom c.numBuckets locks (c.numBuckets + 1) (l : ℕ)
    return buckets.flatten.flatMap c.table.values

end Table

def maxPrime : ℕ := 1610612741

theorem primeIndex_lt (target : ℤ) : primeIndex target < primeSizeTable.length := by
  refine findIdx_lt_length_of_exists ⟨-1, ?_, ?_⟩
  · simp [primeSizeTable]
  · simp

theorem primeIndex_pos {target : ℤ} (h : 3 < target) : 0 < primeIndex target := by
  simp [primeIndex, primeSizeTable, findIdx_cons, h]

theorem primeIndex_zero {target : ℤ} (h : ¬3 < target) : primeIndex target = 0 := by
  simp [primeIndex, primeSizeTable, findIdx_cons, h]

theorem primeAt_ok {i : ℕ} (hi : i < primeSizeTable.length) :
    ∃ p, primeAt i = .ok p ∧ (p = -1 ∧ i = 30 ∨ 0 < p ∧ p ≤ maxPrime) := by
  have hall : ∀ i < primeSizeTable.length, ∃ p, primeSizeTable[i]? = some p ∧
      (p = -1 ∧ i = 30 ∨ 0 < p ∧ p ≤ maxPrime) := by
    decide
  obtain ⟨p, hp, hrange⟩ := hall i hi
  refine ⟨p, ?_, hrange⟩
  rw [primeAt, if_pos (Int.natCast_nonneg i), Int.toNat_natCast, hp]

theorem pickSize_ok {d ni size : ℕ} (h : 3 < ni ∨ 3 < d) (hd : 0 < d) (hsize : 0 < size) :
    ∃ n, pickSize d ni size = .ok n ∧ 0 < n ∧ (n = size ∨ n = d ∨ n ≤ maxPrime) := by
  obtain ⟨p, hp, hrange⟩ := primeAt_ok (primeIndex_lt ni)
  simp only [pickSize, hp, bind, Except.bind, pure, Except.pure]
  rcases hrange with ⟨rfl, hi⟩ | ⟨hpos, hle⟩
  · rw [if_pos rfl, hi]
    exact ⟨maxPrime, rfl, by decide, .inr (.inr le_rfl)⟩
  rw [if_neg (by omega)]
  split_ifs with hlt
  · exact ⟨d, rfl, hd, .inr (.inl rfl)⟩
  have hindex : 0 < primeIndex ni := by
    by_contra hzero
    have hni : ¬(3 : ℤ) < ni := fun h => hzero (primeIndex_pos h)
    rw [primeIndex_zero hni] at hp
    obtain rfl : (3 : ℤ) = p := Except.ok.inj hp
    omega
  have hprev : ((primeIndex ni : ℕ) : ℤ) - 1 = ((primeIndex ni - 1 : ℕ) : ℤ) := by omega
  have hlen := primeIndex_lt ni
  obtain ⟨q, hq, hqrange⟩ := primeAt_ok (i := primeIndex ni - 1) (by omega)
  simp only [hprev, hq]
  have hq : 0 < q ∧ q ≤ maxPrime := by
    rcases hqrange with ⟨-, hi⟩ | hq
    · have hlen : primeIndex ni < 31 := hlen
      omega
    · exact hq
  split_ifs
  · exact ⟨size, rfl, hsize, .inl rfl⟩
  · refine ⟨_, rfl, ?_⟩
    unfold nearest
    split_ifs <;> omega

namespace Table

variable {size locks : ℕ}

theorem strideFrom_ok (hlocks : 0 < locks) (hsum : size + locks ≤ 2 ^ 31) {fuel i : ℕ}
    (hi : i < size + locks) (hfuel : size - i < fuel) :
    ∃ bs, strideFrom size locks fuel i = .ok bs ∧ bs.Pairwise (· < ·) ∧
      ∀ b, b ∈ bs ↔ i ≤ b ∧ b < size ∧ b % locks = i % locks := by
  induction fuel generalizing i with
  | zero => omega
  | succ fuel ih =>
    rw [strideFrom, asInt_of_lt (n := size) (by omega) (by omega)]
    by_cases hlt : i < size
    · obtain ⟨bs, hbs, hsorted, hmem⟩ := ih (i := i + locks) (by omega) (by omega)
      rw [if_pos (by omega), if_neg (by omega), asInt_of_lt (by omega) (by omega)]
      refine ⟨i :: bs, ?_, pairwise_cons.mpr ⟨fun b hb => ?_, hsorted⟩, fun b => ?_⟩
      · rw [← Nat.cast_add, hbs]
        rfl
      · have hle := ((hmem b).mp hb).1
        omega
      · rw [mem_cons, hmem, Nat.add_mod_right]
        constructor
        · rintro (rfl | ⟨h1, h2, h3⟩)
          · exact ⟨le_rfl, hlt, rfl⟩
          · exact ⟨by omega, h2, h3⟩
        · rintro ⟨h1, h2, h3⟩
          rcases eq_or_lt_of_le h1 with rfl | hgt
          · exact .inl rfl
          · refine .inr ⟨?_, h2, h3⟩
            obtain ⟨q, hq⟩ := (Nat.modEq_iff_dvd' h1).mp h3.symm
            have hq0 : q ≠ 0 := by
              rintro rfl
              omega
            have hle := Nat.le_mul_of_pos_right locks (Nat.pos_of_ne_zero hq0)
            omega
    · rw [if_neg (by omega)]
      exact ⟨[], rfl, List.Pairwise.nil, fun b => by simp; omega⟩

theorem buckets_perm (hlocks : 0 < locks) (hsum : size + locks ≤ 2 ^ 31) :
    ∃ bss, ((List.range locks).mapM fun l => strideFrom size locks (size + 1) (l : ℕ)) = .ok bss ∧
      bss.flatten.Perm (List.range size) := by
  have hall : ∀ l : ℕ, ∃ bs, l < locks → strideFrom size locks (size + 1) l = .ok bs ∧
      bs.Pairwise (· < ·) ∧ ∀ b, b ∈ bs ↔ b < size ∧ b % locks = l := by
    intro l
    by_cases hl : l < locks
    · obtain ⟨bs, hbs, hsorted, hmem⟩ := strideFrom_ok hlocks hsum (i := l)
        (by omega) (by omega : size - l < size + 1)
      refine ⟨bs, fun _ => ⟨hbs, hsorted, fun b => ?_⟩⟩
      rw [hmem, Nat.mod_eq_of_lt hl]
      refine ⟨And.right, fun h => ⟨?_, h⟩⟩
      rw [← h.2]
      exact Nat.mod_le b locks
    · exact ⟨[], fun h => absurd h hl⟩
  choose g hg using hall
  refine ⟨(List.range locks).map g, Lib.Machine.mapM_eq_ok.mpr ?_, ?_⟩
  · rw [forall₂_map_right_iff, forall₂_same]
    exact fun l hl => (hg l (mem_range.mp hl)).1
  · have hmem : ∀ b, b ∈ ((List.range locks).map g).flatten ↔ b < size := by
      intro b
      simp only [mem_flatten, mem_map, mem_range, exists_exists_and_eq_and]
      constructor
      · rintro ⟨l, hl, hb⟩
        exact (((hg l hl).2.2 b).mp hb).1
      · exact fun hb => ⟨b % locks, Nat.mod_lt b hlocks,
          ((hg _ (Nat.mod_lt b hlocks)).2.2 b).mpr ⟨hb, rfl⟩⟩
    refine (perm_ext_iff_of_nodup ?_ nodup_range).mpr fun b => by
      rw [hmem, mem_range]
    rw [← flatMap_def, nodup_flatMap]
    refine ⟨fun l hl => ((hg l (mem_range.mp hl)).2.1).imp fun h => h.ne, ?_⟩
    refine nodup_range.imp_of_mem fun hl hl' hne => disjoint_left.mpr fun b hb hb' => hne ?_
    rw [← (((hg _ (mem_range.mp hl)).2.2 b).mp hb).2,
      ← (((hg _ (mem_range.mp hl')).2.2 b).mp hb').2]

variable {L : Layout κ} {c c₀ : Table κ}

omit [DecidableEq κ] in
theorem visit_perm (hlocks : 0 < locks) (hn : 0 < c.numBuckets)
    (hsum : c.numBuckets + locks ≤ 2 ^ 31)
    (hitems : c.table.numItems = (entries c.numBuckets c.table.values).length) :
    ∃ vs, c.visit locks = .ok vs ∧ vs.Perm (entries c.numBuckets c.table.values) := by
  unfold visit
  split_ifs with hzero
  · rw [hzero] at hitems
    rw [length_eq_zero_iff.mp (Int.natCast_eq_zero.mp hitems.symm)]
    exact ⟨[], rfl, .refl _⟩
  · obtain ⟨bss, hbss, hperm⟩ := buckets_perm hlocks hsum
    have hint : asInt locks = locks := asInt_of_lt (Int.natCast_nonneg _) (by omega)
    rw [hint, Int.toNat_natCast, hbss]
    exact ⟨_, rfl, hperm.flatMap_right _⟩

theorem get_eq_some (hwf : c.table.WellFormed (c.bucket L)) (hn : asInt c.numBuckets ≠ 0) {k : κ}
    {v : StoredValue κ} : c.table.get (c.bucket L) k = some v ↔
      v ∈ entries c.numBuckets c.table.values ∧ v.key = k := by
  rw [HashTable.get, lookup_eq_some (hwf.nodup _), mem_entries]
  constructor
  · rintro ⟨hv, hk⟩
    exact ⟨⟨_, L.bucket_lt hn k, hv⟩, hk⟩
  · rintro ⟨⟨b, -, hv⟩, rfl⟩
    exact ⟨hwf.home b v hv ▸ hv, rfl⟩

/-- What holds of the tables that resizes go through. -/
structure Resizable (L : Layout κ) (locks : ℕ) (c : Table κ) : Prop where
  wellFormed : c.table.WellFormed (c.bucket L)
  pos : 0 < c.numBuckets
  small : c.numBuckets + locks ≤ 2 ^ 31
  numItems : c.table.numItems = (entries c.numBuckets c.table.values).length

omit [DecidableEq κ] in
theorem Resizable.int_ne_zero (h : Resizable L locks c) : asInt c.numBuckets ≠ 0 :=
  asInt_ne_zero h.pos (by have := h.small; omega)

structure Alike (L : Layout κ) (locks : ℕ) (c₀ c : Table κ) : Prop where
  values : (entries c.numBuckets c.table.values).Perm (entries c₀.numBuckets c₀.table.values)
  placed : ∀ b, ∀ v ∈ c.table.values b, L.bucket c.numBuckets v.key = b
  inRange : ∀ h : ℤ, (h.tmod (asInt c.numBuckets)).natAbs < c.numBuckets
  find : ∀ k wantsDeleted, c.table.unlockedFind (c.bucket L) k wantsDeleted =
    c₀.table.unlockedFind (c₀.bucket L) k wantsDeleted
  visited : ∃ vs, c.visit locks = .ok vs ∧ vs.Perm (entries c₀.numBuckets c₀.table.values)

theorem Resizable.alike (hlocks : 0 < locks) (h0 : Resizable L locks c₀) (h : Resizable L locks c)
    (hperm : (entries c.numBuckets c.table.values).Perm (entries c₀.numBuckets c₀.table.values)) :
    Alike L locks c₀ c where
  values := hperm
  placed := h.wellFormed.home
  inRange x := by
    exact Layout.bucket_lt ⟨fun _ => x, fun _ => 0, fun _ => 0⟩ h.int_ne_zero ()
  find k wantsDeleted := by
    have hget : c.table.get (c.bucket L) k = c₀.table.get (c₀.bucket L) k := by
      ext v
      rw [get_eq_some h.wellFormed h.int_ne_zero,
        get_eq_some h0.wellFormed h0.int_ne_zero, hperm.mem_iff]
    simp only [HashTable.unlockedFind, hget]
  visited := by
    obtain ⟨vs, hvs, hp⟩ := visit_perm hlocks h.pos h.small h.numItems
    exact ⟨vs, hvs, hp.trans hperm⟩

omit [DecidableEq κ] in
theorem nodup_values (hwf : c.table.WellFormed (c.bucket L)) :
    (entries c.numBuckets c.table.values).Nodup :=
  (nodup_entries hwf.home hwf.nodup fun _ _ hxy => congrArg (c.bucket L) hxy).of_map _

omit [DecidableEq κ] in
theorem resize_step (h : Resizable L locks c) {n : ℕ} (hpos : 0 < n)
    (hfit : n + locks ≤ 2 ^ 31 ∨ 2 ^ 31 ≤ n) (refused : Bool) :
    ∃ c', c.resize L n refused = .ok c' ∧ Resizable L locks c' ∧
      (entries c'.numBuckets c'.table.values).Perm (entries c.numBuckets c.table.values) ∧
      c'.table.numItems = c.table.numItems := by
  cases hres : c.resize L n refused with
  | error e =>
    rw [resize] at hres
    split_ifs at hres with _ hzero
    omega
  | ok c' =>
    refine ⟨c', rfl, ?_⟩
    have hwf := wellFormed_resize h.wellFormed hres
    rw [resize] at hres
    split_ifs at hres with hkeep hzero
    · cases hres
      exact ⟨h, .refl _, rfl⟩
    cases hres
    have hperm := (perm_ext_iff_of_nodup (nodup_values hwf) (nodup_values h.wellFormed)).mpr
      fun v => by
        rw [mem_entries]
        simp only [fill_apply, append_nil, mem_reverse, mem_filter]
        refine ⟨fun h => ?_, fun hv => ⟨L.bucket n v.key, ?_, hv, by simp⟩⟩
        · obtain ⟨_, _, hv, _⟩ := h
          exact hv
        exact L.bucket_lt (asInt_ne_zero hpos (by omega)) _
    exact ⟨⟨hwf, hpos, by dsimp only; omega, by rw [hperm.length_eq]; exact h.numItems⟩, hperm, rfl⟩

/-- A resize that stays in the prime table and goes to sizes visitors can handle. -/
def Resize.Sound (locks defaultNumBuckets : ℕ) (numItems : ℤ) : Resize → Prop
  | .toFit _ => (3 < numItems ∨ 3 < defaultNumBuckets) ∧ maxPrime + locks ≤ 2 ^ 31 ∧
      (defaultNumBuckets + locks ≤ 2 ^ 31 ∨ 2 ^ 31 ≤ defaultNumBuckets)
  | .toSize newSize _ => 1 ≤ newSize ∧ (newSize + locks ≤ 2 ^ 31 ∨ 2 ^ 31 ≤ newSize)

omit [DecidableEq κ] in
theorem resizeStep_ok {d : ℕ} (hd : 0 < d) (h : Resizable L locks c) {op : Resize}
    (hop : op.Sound locks d c.table.numItems) :
    ∃ c', c.resizeStep L d op = .ok c' ∧ Resizable L locks c' ∧
      (entries c'.numBuckets c'.table.values).Perm (entries c.numBuckets c.table.values) ∧
      c'.table.numItems = c.table.numItems := by
  cases op with
  | toSize n refused =>
    obtain ⟨c', hc', hrest⟩ := resize_step h hop.1 hop.2 refused
    exact ⟨c', by rw [resizeStep, hc', Except.mapError], hrest⟩
  | toFit refused =>
    obtain ⟨hmany, hprime, hdefault⟩ := hop
    obtain ⟨n, hn, hpos, hsize⟩ := pickSize_ok
      (by omega : 3 < c.table.numItems.toNat ∨ 3 < d) hd h.pos
    have hfit : n + locks ≤ 2 ^ 31 ∨ 2 ^ 31 ≤ n := by
      have := h.small
      omega
    obtain ⟨c', hc', hrest⟩ := resize_step h hpos hfit refused
    refine ⟨c', ?_, hrest⟩
    simp only [resizeStep, resizeToFit, hn, bind, Except.bind, hc', Except.mapError]

def negated : Layout ℕ := ⟨fun k => -k, fun _ => 1, fun _ => 40⟩

def four : StoredValue ℕ := ⟨4, some [65], 7, 0, false, 0, none⟩

def seven : StoredValue ℕ := ⟨7, some [66], 8, 0, true, 0, none⟩

/-- Both values are in one chain. -/
def pair : Table ℕ := ⟨⟨update (fun _ => []) 1 [four, seven], false, 2, 0⟩, 3, 0⟩

theorem pair_resizable : Resizable negated 2 pair where
  wellFormed := by
    constructor <;> intro b <;> by_cases hb : b = 1 <;> simp [pair, hb]
    all_goals decide
  pos := by decide
  small := by decide
  numItems := rfl

end Table

end Appstack.EpEngine
