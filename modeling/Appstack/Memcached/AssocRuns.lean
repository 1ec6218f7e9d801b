import Appstack.Memcached.Assoc

namespace Appstack.Memcached

open Lib Lib.Chains Machine

variable {κ ι : Type} [DecidableEq κ] (key : ι → κ) (hash : κ → BitVec 32)

/-- The calls, and the rounds of the maintenance thread. Calls that may allocate tell whether they
get their memory and their thread. -/
inductive Call (κ ι : Type)
  | find (k : κ)
  | insert (x : ι) (memory thread : Bool)
  | delete (k : κ)
  | expand (memory thread : Bool)
  | moveBucket

inductive Output (ι : Type)
  | found (x : Option ι)
  | done
  | freed (t : Table ι)

/-- `assoc_expand` is called while no expansion runs only. -/
def step (a : Assoc ι) : Call κ ι → Except Fault (Assoc ι × Output ι)
  | .find k => do return (a, .found (← a.find key hash k))
  | .insert x memory thread => do return (← a.insert key hash x memory thread, .done)
  | .delete k => do return (← a.delete key hash k, .done)
  | .expand memory thread =>
    if a.expanding then return (a, .done) else do return (← a.expand memory thread, .done)
  | .moveBucket => do
    let (a, freed) ← a.moveBucket key hash
    return (a, match freed with | some t => .freed t | none => .done)

/-- The finite map: the linked items, of which no two have the same key. Keys are inserted when
they are absent and deleted when they are present. -/
def mapStep (l : List ι) : Call κ ι → Except Unit (List ι × Option ι)
  | .find k => .ok (l, lookup key k l)
  | .insert x _ _ => if (lookup key (key x) l).isNone then .ok (x :: l, none) else .error ()
  | .delete k => if (lookup key k l).isSome then .ok (remove key k l, none) else .error ()
  | .expand _ _ => .ok (l, none)
  | .moveBucket => .ok (l, none)

/-- A find returns what the map holds, and a table that is freed is empty. -/
def Agrees : Output ι → Option ι → Prop
  | .found x, y => x = y
  | .done, y => y = none
  | .freed t, y => y = none ∧ ∀ b, t.bucket b = []

/-- The number of items and the size of the next table fit into 32 bits. At the last size the limit
for growing has wrapped to `2 ^ 30`. -/
def Fits (a : Assoc ι) : Call κ ι → Prop
  | .insert _ _ _ => a.hashItems.toNat + 1 < 2 ^ 32 ∧
      (a.expanding = false → a.hashpower = 31 → a.hashItems.toNat + 1 ≤ 2 ^ 30)
  | .expand _ _ => a.expanding = false → a.hashpower < 31
  | _ => True

instance (a : Assoc ι) : (c : Call κ ι) → Decidable (Fits a c)
  | .insert _ _ _ => inferInstanceAs (Decidable (_ ∧ (_ → _ → _)))
  | .expand _ _ => inferInstanceAs (Decidable (_ → _))
  | .find _ => .isTrue trivial
  | .delete _ => .isTrue trivial
  | .moveBucket => .isTrue trivial

variable {key hash}

theorem step_simulates {a : Assoc ι} {l l' : List ι} {c : Call κ ι} {o : Option ι}
    (h : Assoc.Represents key hash a l) (hfits : Fits a c) (hmap : mapStep key l c = .ok (l', o)) :
    ∃ a' out, step key hash a c = .ok (a', out) ∧ Assoc.Represents key hash a' l' ∧
      Agrees out o := by
  cases c with
  | find k =>
    cases hmap
    refine ⟨a, .found (lookup key k l), ?_, h, rfl⟩
    rw [step, h.find_eq]
    rfl
  | insert x memory thread =>
    rw [mapStep] at hmap
    split_ifs at hmap with hx
    cases hmap
    obtain ⟨hcount, hroom⟩ := hfits
    rw [h.count] at hcount hroom
    obtain ⟨a', heq, hrep⟩ := h.insert (Option.isNone_iff_eq_none.mp hx) hcount hroom memory thread
    refine ⟨a', .done, ?_, hrep, rfl⟩
    rw [step, heq]
    rfl
  | delete k =>
    rw [mapStep] at hmap
    split_ifs at hmap with hk
    cases hmap
    obtain ⟨x, hx⟩ := Option.isSome_iff_exists.mp hk
    obtain ⟨a', heq, hrep⟩ := h.delete hx
    refine ⟨a', .done, ?_, hrep, rfl⟩
    rw [step, heq]
    rfl
  | expand memory thread =>
    cases hmap
    cases hex : a.expanding with
    | true =>
      refine ⟨a, .done, ?_, h, rfl⟩
      rw [step, if_pos hex]
      rfl
    | false =>
      obtain ⟨a', heq, hrep⟩ := h.expand hex (hfits hex) memory thread
      refine ⟨a', .done, ?_, hrep, rfl⟩
      rw [step, if_neg (by simp [hex]), heq]
      rfl
  | moveBucket =>
    cases hmap
    obtain ⟨a', freed, heq, hrep, hempty, _⟩ := h.moveBucket
    cases freed with
    | none =>
      refine ⟨a', .done, ?_, hrep, rfl⟩
      rw [step, heq]
      rfl
    | some t =>
      refine ⟨a', .freed t, ?_, hrep, rfl, hempty t rfl⟩
      rw [step, heq]
      rfl

/-- The table refines a finite map. Every run of calls that the map allows and whose sizes fit
completes; finds return what the map holds, tables are empty when they are freed, and in the end
every linked item is in its one bucket once, with the counter equal to their number. -/
theorem assoc_refines_map (key : ι → κ) (hash : κ → BitVec 32) (calls : List (Call κ ι))
    {l : List ι} {outs : List (Option ι)}
    (hmap : run (mapStep key) [] calls = .ok (l, outs))
    (hfits : Along (step key hash) Fits Assoc.init calls) :
    ∃ a outputs, run (step key hash) Assoc.init calls = .ok (a, outputs) ∧
      List.Forall₂ Agrees outputs outs ∧ (∀ k, a.find key hash k = .ok (lookup key k l)) ∧
      (∀ p, (a.chain p).Nodup) ∧ (∀ x, (∃ p, x ∈ a.chain p) ↔ x ∈ l) ∧
      (∀ x p p', x ∈ a.chain p → x ∈ a.chain p' → p = p') ∧ a.hashItems.toNat = l.length := by
  have hstep : ∀ a l c l' o, Assoc.Represents key hash a l → Fits a c →
      mapStep key l c = .ok (l', o) → ∃ a' out, step key hash a c = .ok (a', out) ∧
        Assoc.Represents key hash a' l' ∧ Agrees out o :=
    fun a l c l' o h hf hm => step_simulates h hf hm
  obtain ⟨a, outputs, hrun, hrep, hagree⟩ :=
    simulates hstep Assoc.init_represents hfits hmap
  refine ⟨a, outputs, hrun, hagree, hrep.find_eq, ?_, ?_, ?_, hrep.count⟩
  · intro p
    exact List.Nodup.of_map key (hrep.placed.nodup p)
  · intro x
    constructor
    · rintro ⟨p, hx⟩
      exact ((hrep.placed.mem p x).mp hx).1
    · intro hx
      exact ⟨_, (hrep.placed.mem _ x).mpr ⟨hx, rfl⟩⟩
  · intro x p p' hx hx'
    rw [hrep.placed.unique hx, hrep.placed.unique hx']

def noHash (_ : ℕ) : BitVec 32 := 0#32

/-- Two items are linked in one bucket, one of them is deleted while an expansion runs, and the
bucket is moved. -/
def collidingCalls : List (Call ℕ ℕ) :=
  [.insert 3 true true, .insert 5 true true, .expand true true, .delete 3, .moveBucket, .find 5]

theorem assoc_refines_map_colliding :
    ∃ a outputs, run (step id noHash) Assoc.init collidingCalls = .ok (a, outputs) ∧
      (∀ k, a.find id noHash k = .ok (lookup id k [5])) ∧ a.hashItems.toNat = 1 := by
  have hmap : run (mapStep id) [] collidingCalls =
      .ok ([5], [none, none, none, none, none, some 5]) := rfl
  obtain ⟨a, outputs, hrun, _, hfind, _, _, _, hcount⟩ :=
    assoc_refines_map id noHash collidingCalls hmap (by decide)
  exact ⟨a, outputs, hrun, hfind, hcount⟩

theorem toNat_limit {p : ℕ} (hp : 0 < p) (hlt : p < 31) :
    (1#32 <<< p * 3#32 / 2#32).toNat = 3 * 2 ^ (p - 1) := by
  obtain ⟨q, rfl⟩ : ∃ q, p = q + 1 := ⟨p - 1, by omega⟩
  have hpow : 2 ^ (q + 1) ≤ 2 ^ 30 := Nat.pow_le_pow_right (by decide) (by omega)
  have hthree : (3#32).toNat = 3 := rfl
  have htwo : (2#32).toNat = 2 := rfl
  rw [BitVec.toNat_udiv, BitVec.toNat_mul, toNat_hashsize (by omega), hthree, htwo,
    Nat.mod_eq_of_lt (by omega), Nat.pow_succ, Nat.add_sub_cancel]
  omega

def keysBelow (n : ℕ) : List ℕ := (List.range n).reverse

theorem keysBelow_succ (n : ℕ) : keysBelow (n + 1) = n :: keysBelow n := by
  simp [keysBelow, List.range_succ]

theorem length_keysBelow (n : ℕ) : (keysBelow n).length = n := by simp [keysBelow]

theorem lookup_keysBelow (n : ℕ) : lookup id n (keysBelow n) = none := by
  rw [lookup_eq_none]
  intro x hx hxn
  have hlt : x < n := by simpa [keysBelow] using hx
  exact absurd hxn (Nat.ne_of_lt hlt)

/-- Calls that insert the keys below `n` lead to `a`. -/
structure Reached (n : ℕ) (a : Assoc ℕ) : Prop where
  run : ∃ calls outs outputs, run (mapStep id) [] calls = .ok (keysBelow n, outs) ∧
    run (step id noHash) Assoc.init calls = .ok (a, outputs)
  represents : Assoc.Represents id noHash a (keysBelow n)

variable {a : Assoc ℕ}

theorem Reached.concat {n m : ℕ} {a' : Assoc ℕ} {c : Call ℕ ℕ} {o : Option ℕ} {out : Output ℕ}
    (h : Reached n a) (hmap : mapStep id (keysBelow n) c = .ok (keysBelow m, o))
    (hstep : step id noHash a c = .ok (a', out))
    (hrep : Assoc.Represents id noHash a' (keysBelow m)) : Reached m a' := by
  obtain ⟨calls, outs, outputs, hm, hs⟩ := h.run
  refine ⟨⟨calls ++ [c], outs ++ [o], outputs ++ [out], ?_, ?_⟩, hrep⟩
  · exact run_append_ok.mpr ⟨_, _, _, hm, run_cons_ok.mpr
      ⟨_, o, [], hmap, rfl, rfl⟩, rfl⟩
  · exact run_append_ok.mpr ⟨_, _, _, hs, run_cons_ok.mpr
      ⟨_, out, [], hstep, rfl, rfl⟩, rfl⟩

theorem mapStep_insert (n : ℕ) :
    mapStep id (keysBelow n) (.insert n true true) = .ok (keysBelow (n + 1), none) := by
  rw [mapStep, id_eq, lookup_keysBelow, keysBelow_succ]
  rfl

section
variable {n : ℕ} (h : Reached n a)
include h

theorem Reached.insert (hn : n + 1 < 2 ^ 32) (hex : a.expanding = false) :
    ∃ a1, Assoc.Represents id noHash a1 (keysBelow (n + 1)) ∧ a1.expanding = false ∧
      a1.hashpower = a.hashpower ∧
      a.insert id noHash n true true =
        if (1#32 <<< a.hashpower * 3#32 / 2#32).toNat < n + 1 then a1.expand true true
        else .ok a1 := by
  have hcount : (keysBelow n).length + 1 < 2 ^ 32 := by
    rw [length_keysBelow]
    exact hn
  obtain ⟨a1, hrep, hexpanding, hpower, heq⟩ :=
    h.represents.insert_eq (lookup_keysBelow n) hcount true true
  rw [← keysBelow_succ] at hrep
  refine ⟨a1, hrep, hexpanding.trans hex, hpower, ?_⟩
  rw [heq, if_neg (by simp [hexpanding, hex])]
  simp only [BitVec.lt_def, hrep.count, length_keysBelow, hpower]

theorem Reached.fill (hex : a.expanding = false)
    {m : ℕ} (hm : m ≤ (1#32 <<< a.hashpower * 3#32 / 2#32).toNat) (hnm : n ≤ m) :
    ∃ a', Reached m a' ∧ a'.expanding = false ∧ a'.hashpower = a.hashpower := by
  have hword : (1#32 <<< a.hashpower * 3#32 / 2#32).toNat < 2 ^ 32 := BitVec.isLt _
  induction m, hnm using Nat.le_induction with
  | base => exact ⟨a, h, hex, rfl⟩
  | succ m hnm ih =>
    obtain ⟨a', h', hex', hpower⟩ := ih (by omega)
    obtain ⟨a1, hrep, hex1, hpower1, heq⟩ := h'.insert (by omega) hex'
    rw [hpower, if_neg (by omega)] at heq
    have hstep : step id noHash a' (.insert m true true) = .ok (a1, .done) := by
      rw [step, heq]
      rfl
    exact ⟨a1, h'.concat (mapStep_insert m) hstep hrep, hex1, hpower1.trans hpower⟩

theorem Reached.grow (hex : a.expanding = false)
    (hn : n + 1 < 2 ^ 32) (hlimit : (1#32 <<< a.hashpower * 3#32 / 2#32).toNat < n + 1)
    (hpower : a.hashpower < 31) :
    ∃ a', Reached (n + 1) a' ∧ a'.expanding = true ∧ a'.hashpower = a.hashpower + 1 ∧
      a'.expandBucket = 0#32 := by
  obtain ⟨a1, hrep, hex1, hpower1, heq⟩ := h.insert hn hex
  rw [if_pos hlimit] at heq
  obtain ⟨a', heq', hrep'⟩ := hrep.expand hex1 (by omega) true true
  have hfields : a'.expanding = true ∧ a'.hashpower = a1.hashpower + 1 ∧ a'.expandBucket = 0#32 := by
    rw [Assoc.expand, hashsize_eq (by omega)] at heq'
    cases heq'
    exact ⟨rfl, rfl, rfl⟩
  have hstep : step id noHash a (.insert n true true) = .ok (a', .done) := by
    rw [step, heq, heq']
    rfl
  exact ⟨a', h.concat (mapStep_insert n) hstep hrep', hfields.1,
    hfields.2.1.trans (congrArg (· + 1) hpower1), hfields.2.2⟩

theorem Reached.move (hex : a.expanding = true) :
    ∃ a', Reached n a' ∧ a'.expanding = false ∧ a'.hashpower = a.hashpower := by
  -- by induction on the buckets that are left
  induction hleft : 2 ^ (a.hashpower - 1) - a.expandBucket.toNat generalizing a with
  | zero =>
    obtain ⟨_, hlt, _⟩ := h.represents.moving hex
    omega
  | succ left ih =>
    obtain ⟨a', freed, heq, hrep, _, hpower, hnext⟩ := h.represents.moveBucket
    obtain ⟨out, hstep⟩ : ∃ out, step id noHash a .moveBucket = .ok (a', out) := by
      rw [step, heq]
      exact ⟨_, rfl⟩
    have h' : Reached n a' := h.concat rfl hstep hrep
    cases hex' : a'.expanding with
    | false => exact ⟨a', h', hex', hpower⟩
    | true =>
      obtain ⟨a'', h'', hstable, hpower'⟩ := ih h' hex' (by
        rw [hpower, hnext hex hex']
        omega)
      exact ⟨a'', h'', hstable, hpower'.trans hpower⟩

end

theorem reached_last_size {q : ℕ} (hq : q ≤ 15) :
    ∃ n a, Reached n a ∧ a.expanding = false ∧ a.hashpower = 16 + q ∧ n ≤ 3 * 2 ^ (14 + q) + 1 ∧
      3 * 2 ^ (14 + q) ≤ n + 3 * 2 ^ 14 := by
  induction q with
  | zero =>
    refine ⟨0, Assoc.init, ⟨⟨[], [], [], rfl, rfl⟩, Assoc.init_represents⟩, rfl, rfl, ?_, ?_⟩
    · omega
    · omega
  | succ q ih =>
    obtain ⟨n, a, h, hex, hpower, hn, _⟩ := ih (by omega)
    have hpow : 2 ^ (15 + q) = 2 * 2 ^ (14 + q) := by
      rw [show 15 + q = (14 + q) + 1 by omega, Nat.pow_succ]
      omega
    have hbound : 2 ^ (15 + q) ≤ 2 ^ 29 := Nat.pow_le_pow_right (by decide) (by omega)
    have hpos : 0 < 2 ^ (14 + q) := Nat.two_pow_pos _
    have hlimit : (1#32 <<< a.hashpower * 3#32 / 2#32).toNat = 3 * 2 ^ (15 + q) := by
      rw [hpower, toNat_limit (by omega) (by omega), show 16 + q - 1 = 15 + q by omega]
    obtain ⟨a1, h1, hex1, hpower1⟩ := h.fill hex hlimit.ge (by omega)
    obtain ⟨a2, h2, hex2, hpower2, _⟩ := h1.grow hex1 (by omega) (by rw [hpower1, hlimit]; omega)
      (by omega)
    obtain ⟨a3, h3, hex3, hpower3⟩ := h2.move hex2
    refine ⟨_, a3, h3, hex3, by omega, ?_, ?_⟩
    · rw [show 14 + (q + 1) = 15 + q by omega]
    · rw [show 14 + (q + 1) = 15 + q by omega]
      omega

/-- At the last size the next insertion asks for a table of `1 << 32` buckets. -/
theorem assoc_grows_past_word : ∃ calls l outs, run (mapStep id) [] calls = .ok (l, outs) ∧
      run (step id noHash) Assoc.init calls = .error .undefinedShift := by
  obtain ⟨n, a, h, hex, hpower, hn, hn'⟩ := reached_last_size (le_refl 15)
  have hlimit : (1#32 <<< a.hashpower * 3#32 / 2#32).toNat = 2 ^ 30 := by
    rw [hpower]
    decide
  obtain ⟨a₁, _, _, hpower₁, heq⟩ := h.insert (by omega) hex
  rw [hlimit, if_pos (by omega)] at heq
  have hshift : a₁.expand true true = .error .undefinedShift := by
    rw [Assoc.expand, hashsize, if_neg (by omega)]
    rfl
  obtain ⟨calls, outs, outputs, hm, hs⟩ := h.run
  refine ⟨calls ++ [.insert n true true], keysBelow (n + 1), outs ++ [none], ?_, ?_⟩
  · exact run_append_ok.mpr ⟨_, _, _, hm, run_cons_ok.mpr
      ⟨_, none, [], mapStep_insert n, rfl, rfl⟩, rfl⟩
  · apply run_concat_error hs
    rw [step, heq, hshift]
    rfl

end Appstack.Memcached
