import Appstack.EpEngine.HashTable
import Appstack.Lib.ChainSums
import Appstack.Lib.Machine

namespace Appstack.EpEngine

open Lib.Chains HashTable Function List Option Bool Lib.Machine

variable {κ : Type} [DecidableEq κ]

/-- The hash of a key, its length, and the size of a value without its key (`sizeOf`). -/
structure Layout (κ : Type) where
  hash : κ → ℤ
  keyLen : κ → ℕ
  sizeOf : Bool → ℕ

/-- A number cast to `int`. -/
def asInt (n : ℤ) : ℤ := (BitVec.ofInt 32 n).toInt

theorem asInt_of_lt {n : ℤ} (h : 0 ≤ n) (h' : n < 2 ^ 31) : asInt n = n := by
  rw [asInt, BitVec.toInt_ofInt, Int.bmod_eq_of_le] <;> omega

theorem asInt_ne_zero {n : ℕ} (h : 0 < n) (h' : n < 2 ^ 32) : asInt n ≠ 0 := by
  rw [asInt, BitVec.toInt_ofInt, Int.bmod_def]
  split_ifs <;> omega

variable (L : Layout κ)

def Layout.bucket (size : ℕ) (k : κ) : ℕ := ((L.hash k).tmod (asInt size)).natAbs

omit [DecidableEq κ] in
theorem Layout.bucket_lt {size : ℕ} (h : asInt size ≠ 0) (k : κ) : L.bucket size k < size := by
  have hle : (asInt size).natAbs ≤ size := by
    rw [asInt, BitVec.toInt_ofInt, Int.bmod_def]
    split_ifs <;> omega
  rw [bucket, Int.natAbs_tmod]
  exact (Nat.mod_lt _ (Int.natAbs_pos.mpr h)).trans_le hle

namespace StoredValue

/-- Lengths are rounded up to the size of a pointer. -/
def align (len : ℕ) : ℕ := if len % 8 ≠ 0 then 8 - len % 8 else 0

/-- The memory of a value with the part of its body that is there. -/
def size (v : StoredValue κ) : ℕ :=
  let vallen := match v.value with
    | none => 0
    | some b => b.length
  L.sizeOf v.feature.isNone + L.keyLen v.key + vallen + align vallen + align (L.keyLen v.key)

def restoreValue (v : StoredValue κ) (value : Blob) : StoredValue κ :=
  if v.isResident then v
  else { v with value := some value, feature := v.feature.map fun f => { f with resident := true } }

end StoredValue

open StoredValue

/-- `setValue` takes the old size off and adds the new one. -/
def rewritten (old new : ℕ) : ℤ := -old + new

def resized (old new : ℕ) : ℤ :=
  if old < new then ((new - old : ℕ) : ℤ) else if new < old then -((old - new : ℕ) : ℤ) else 0

def ejectMem (v : StoredValue κ) : ℤ :=
  if v.eligibleForEviction then resized (size L v) (size L v.ejectValue) else 0

def setMem (small : Bool) (item : Item κ) (space : Bool) (fresh : BitVec 64) (clock : Clock) :
    Option (StoredValue κ) → ℤ
  | some v =>
    let r := setOver v item clock fresh
    if !space then 0 else if r.2.2 then rewritten (size L v) (size L r.2.1) else 0
  | none =>
    if !space then 0
    else if item.cas ≠ 0 then 0
    else size L (.new small { item with cas := fresh } true clock.currentTime)

def addMem (small : Bool) (item : Item κ) (isDirty storeVal space : Bool) (fresh : BitVec 64)
    (clock : Clock) : Option (StoredValue κ) → ℤ
  | some v =>
    if !v.isDeleted && !v.isExpired clock.realTime then 0
    else if space then
      let v' := v.setValue item.value item.flags item.exptime fresh clock.currentTime
      let v'' := if isDirty then v'.markDirty clock.currentTime else v'.markClean clock.currentTime
      rewritten (size L v) (size L v') + (if storeVal then 0 else ejectMem L v'')
    else 0
  | none =>
    if space then
      let v := StoredValue.new small { item with cas := fresh } isDirty clock.currentTime
      size L v + (if storeVal then 0 else ejectMem L v)
    else 0

def softDeleteMem (cas : BitVec 64) (clock : Clock) : Option (StoredValue κ) → ℤ
  | some v =>
    if v.isExpired clock.realTime then resized (size L v) (size L (v.del clock.currentTime))
    else
      let l := v.isLocked clock.currentTime
      if l.1 then 0
      else if cas ≠ 0 && cas ≠ l.2.cas then 0
      else resized (size L l.2.unlock) (size L (l.2.unlock.del clock.currentTime))
  | none => 0

structure Table (κ : Type) where
  table : HashTable κ ℕ
  numBuckets : ℕ
  memSize : ℤ

namespace Table

def bucket (c : Table κ) : κ → ℕ := L.bucket c.numBuckets

def opMem (c : Table κ) (clock : Clock) : Op κ → ℤ
  | .set item space fresh =>
    setMem L c.table.small item space fresh clock (c.table.unlockedFind (c.bucket L) item.key true)
  | .add item isDirty storeVal space fresh =>
    addMem L c.table.small item isDirty storeVal space fresh clock
      (c.table.unlockedFind (c.bucket L) item.key true)
  | .softDelete k cas => softDeleteMem L cas clock (c.table.unlockedFind (c.bucket L) k false)
  | .del k =>
    match c.table.get (c.bucket L) k with
    | some v => if (c.table.del (c.bucket L) k clock).2 then -(size L v) else 0
    | none => 0
  | .addUnlessThere item op =>
    match c.table.unlockedFind (c.bucket L) item.key true with
    | some _ => 0
    | none =>
      let v := StoredValue.new c.table.small item true clock.currentTime
      size L v +
        match op with
        | .del => softDeleteMem L item.cas clock
            ((c.table.push (c.bucket L) v).unlockedFind (c.bucket L) item.key false)
        | .set => 0

/-- The operations on a table. A resize is refused while the table is visited, or if there is no
memory for it. -/
inductive Call (κ : Type)
  | op (o : Op κ)
  | ejectValue (key : κ)
  | restoreValue (key : κ) (value : Blob)
  | clear
  | resize (newSize : ℕ) (refused : Bool)

/-- No bucket can be found among none. -/
inductive Fault
  | divisionByZero
  deriving DecidableEq, Repr

def ejectValue (c : Table κ) (k : κ) : Table κ × Bool :=
  match c.table.get (c.bucket L) k with
  | some v =>
    if v.eligibleForEviction then
      ({ c with
        table := (c.table.countNonResident false true).put (c.bucket L) v.ejectValue
        memSize := c.memSize + resized (size L v) (size L v.ejectValue) }, true)
    else (c, false)
  | none => (c, false)

def restoreValue (c : Table κ) (k : κ) (value : Blob) : Table κ × Bool :=
  match c.table.unlockedFind (c.bucket L) k false with
  | some v =>
    if v.isResident then (c, false)
    else
      ({ c with
        table := (c.table.countNonResident true false).put (c.bucket L) (v.restoreValue value)
        memSize := c.memSize + resized (size L v) (size L (v.restoreValue value)) }, true)
  | none => (c, false)

/-- `clear`: its loop goes as far as an `int` does. -/
def clear (c : Table κ) : Table κ :=
  { c with
    table := { c.table with
      values := fun b => if (b : ℤ) < asInt c.numBuckets then [] else c.table.values b
      numItems := 0
      numNonResidentItems := 0 }
    memSize := 0 }

/-- `resize`: the values of each bucket go, from its head on, to the heads of their new ones. -/
def resize (c : Table κ) (newSize : ℕ) (refused : Bool) : Except Fault (Table κ) :=
  if 2 ^ 31 - 1 < newSize ∨ newSize = c.numBuckets ∨ refused then .ok c
  else if newSize = 0 ∧ entries c.numBuckets c.table.values ≠ [] then .error .divisionByZero
  else .ok { c with
    table := { c.table with
      values := fill (fun v => L.bucket newSize v.key) (entries c.numBuckets c.table.values)
        fun _ => [] }
    numBuckets := newSize }

def step (c : Table κ) (i : Clock × Call κ) : Except Fault (Table κ × Unit) :=
  match i.2 with
  | .op o =>
    if asInt c.numBuckets = 0 then .error .divisionByZero
    else .ok ({ c with
      table := (c.table.perform (c.bucket L) i.1 o).1
      memSize := c.memSize + c.opMem L i.1 o }, ())
  | .ejectValue k =>
    if asInt c.numBuckets = 0 then .error .divisionByZero else .ok ((c.ejectValue L k).1, ())
  | .restoreValue k value =>
    if asInt c.numBuckets = 0 then .error .divisionByZero
    else .ok ((c.restoreValue L k value).1, ())
  | .clear => .ok (c.clear, ())
  | .resize newSize refused => do
    let c ← c.resize L newSize refused
    .ok (c, ())

def new (small : Bool) (numBuckets : ℕ) : Table κ := ⟨⟨fun _ => [], small, 0, 0⟩, numBuckets, 0⟩

def nonResident (v : StoredValue κ) : ℤ := if !v.isDeleted && !v.isResident then 1 else 0

def sum (w : StoredValue κ → ℤ) (c : Table κ) : ℤ := total w c.numBuckets c.table.values

structure Exact (c : Table κ) : Prop where
  numItems : c.table.numItems = c.sum fun _ => 1
  numNonResidentItems : c.table.numNonResidentItems = c.sum nonResident
  memSize : c.memSize = c.sum fun v => size L v

/-- What the counters miss: that an expired value which is not resident is added anew, that a
live value which is not resident is removed, and values that a clearing leaves. -/
def Tracked (c : Table κ) (i : Clock × Call κ) : Prop :=
  match i.2 with
  | .op (.add item _ _ space _) => ∀ v, c.table.get (c.bucket L) item.key = some v →
      space = true → v.isExpired i.1.realTime = true → nonResident v = 0
  | .op (.del k) => ∀ v first rest, c.table.get (c.bucket L) k = some v →
      c.table.values (c.bucket L k) = first :: rest →
      refuses (guardOf k first rest) v i.1.currentTime = false → nonResident v = 0
  | .clear => ∀ b < c.numBuckets, asInt c.numBuckets ≤ b → c.table.values b = []
  | _ => True

end Table

namespace StoredValue

structure Alike (u v : StoredValue κ) : Prop where
  key : u.key = v.key
  value : u.value = v.value
  resident : u.feature.map FeatureData.resident = v.feature.map FeatureData.resident

variable {L} {u v x : StoredValue κ} {t : ℕ}

omit [DecidableEq κ]

theorem Alike.refl (v : StoredValue κ) : Alike v v := ⟨rfl, rfl, rfl⟩

section
variable (h : Alike u v)
include h

theorem Alike.trans (h' : Alike v x) : Alike u x :=
  ⟨h.key.trans h'.key, h.value.trans h'.value, h.resident.trans h'.resident⟩

theorem Alike.isNone : u.feature.isNone = v.feature.isNone := by
  have hmap := congrArg Option.isNone h.resident
  rwa [isNone_map, isNone_map] at hmap

theorem Alike.isResident : u.isResident = v.isResident := by
  have hmap := h.resident
  unfold StoredValue.isResident
  cases hu : u.feature <;> cases hv : v.feature <;> simp_all

theorem Alike.nonResident : Table.nonResident u = Table.nonResident v := by
  rw [Table.nonResident, Table.nonResident, isDeleted, isDeleted, h.value, h.isResident]

theorem Alike.size : size L u = size L v := by
  rw [StoredValue.size, StoredValue.size, h.isNone, h.key, h.value]

end

theorem alike_isLocked : Alike (v.isLocked t).2 v := by
  unfold isLocked
  split
  next f hf =>
    split_ifs
    · exact ⟨rfl, rfl, by rw [hf]; rfl⟩
    · exact Alike.refl v
  · exact Alike.refl v

theorem alike_unlock : Alike v.unlock v := by
  refine ⟨rfl, rfl, ?_⟩
  rw [unlock]
  cases v.feature <;> rfl

theorem alike_markDirty : Alike (v.markDirty t) v := ⟨rfl, rfl, rfl⟩

theorem alike_markClean : Alike (v.markClean t) v := ⟨rfl, rfl, rfl⟩

theorem nonResident_of_resident (h : v.isResident = true) : Table.nonResident v = 0 := by
  simp [Table.nonResident, h]

theorem nonResident_setValue {b : Blob} {f e : ℕ} {cas : BitVec 64} :
    Table.nonResident (v.setValue b f e cas t) = 0 := by
  apply nonResident_of_resident
  unfold setValue markDirty isResident
  cases v.feature <;> rfl

theorem nonResident_new {small dirty : Bool} {item : Item κ} :
    Table.nonResident (new small item dirty t) = 0 := by
  apply nonResident_of_resident
  cases small <;> cases dirty <;> rfl

theorem nonResident_del : Table.nonResident (v.del t) = 0 := rfl

theorem nonResident_ejectValue : Table.nonResident v.ejectValue =
    Table.nonResident v + if v.eligibleForEviction then 1 else 0 := by
  unfold ejectValue
  split_ifs with h
  · simp only [eligibleForEviction, and_eq_true, not_eq_true'] at h
    obtain ⟨⟨⟨hres, -⟩, hdel⟩, hfeature⟩ := h
    obtain ⟨f, hf⟩ := isSome_iff_exists.mp hfeature
    obtain ⟨b, hb⟩ : ∃ b, v.value = some b := by
      cases hv : v.value with
      | none => simp [isDeleted, hv] at hdel
      | some b => exact ⟨b, rfl⟩
    rw [nonResident_of_resident hres]
    simp [Table.nonResident, isDeleted, isResident, hb, hf]
  · simp

theorem nonResident_restoreValue {b : Blob} : Table.nonResident (v.restoreValue b) = 0 := by
  apply nonResident_of_resident
  unfold restoreValue
  split_ifs with h
  · exact h
  · unfold isResident
    cases v.feature <;> rfl

end StoredValue

omit [DecidableEq κ] in
theorem rewritten_eq (old new : ℕ) : rewritten old new = new - old := by
  rw [rewritten]
  ring

omit [DecidableEq κ] in
theorem resized_eq (old new : ℕ) : resized old new = new - old := by
  rw [resized]
  split_ifs <;> omega

omit [DecidableEq κ] in
theorem ejectMem_eq (v : StoredValue κ) : ejectMem L v = (size L v.ejectValue : ℤ) - size L v := by
  rw [ejectMem, resized_eq]
  split_ifs with h
  · rfl
  · rw [ejectValue, if_neg h, sub_self]

namespace HashTable

def Write.gain (w : StoredValue κ → ℤ) (found : Option (StoredValue κ)) : Write κ → ℤ
  | .keep => 0
  | .put _ _ v => w v - (found.map w).getD 0
  | .push _ v => w v

def Write.counted : Write κ → ℤ
  | .keep => 0
  | .put dropped ejected _ => -(if dropped then 1 else 0) + if ejected then 1 else 0
  | .push ejected _ => if ejected then 1 else 0

variable {L} {bucket : κ → ℕ} {t : HashTable κ ℕ} {n : ℕ} {k : κ} {write : Write κ}
  {wantsDeleted : Bool} (w : StoredValue κ → ℤ)

theorem total_put (ht : t.WellFormed bucket) {v u : StoredValue κ} (hb : bucket v.key < n)
    (hu : t.get bucket v.key = some u) :
    total w n (t.put bucket v).values = total w n t.values + (w v - w u) := by
  rw [values_put, total_update w hb, sum_modify w (ht.nodup _) hu]
  ring

omit [DecidableEq κ] in
theorem total_push {v : StoredValue κ} (hb : bucket v.key < n) :
    total w n (t.push bucket v).values = total w n t.values + w v := by
  rw [values_push, total_update w hb, map_cons, sum_cons]
  ring

theorem total_apply (ht : t.WellFormed bucket) (hb : bucket k < n)
    (hfor : write.For k (t.unlockedFind bucket k wantsDeleted)) :
    total w n (t.apply bucket write).values =
      total w n t.values + write.gain w (t.unlockedFind bucket k wantsDeleted) := by
  cases write with
  | keep => exact (add_zero _).symm
  | put d e v =>
    obtain ⟨rfl, hsome⟩ := hfor
    obtain ⟨u, hu⟩ := isSome_iff_exists.mp hsome
    rw [Write.gain, hu]
    exact total_put w (ht.countNonResident d e) hb (get_of_unlockedFind hu)
  | push e v =>
    obtain ⟨rfl, -⟩ := hfor
    exact total_push w hb

theorem numItems_apply (found : Option (StoredValue κ)) (hfor : write.For k found) :
    (t.apply bucket write).numItems = t.numItems + write.gain (fun _ => 1) found := by
  cases write with
  | keep => exact (add_zero _).symm
  | put d e v =>
    obtain ⟨u, hu⟩ := isSome_iff_exists.mp hfor.2
    rw [Write.gain, hu]
    exact (add_zero _).symm
  | push e v => rfl

theorem numNonResidentItems_apply :
    (t.apply bucket write).numNonResidentItems = t.numNonResidentItems + write.counted := by
  cases write with
  | keep => exact (add_zero _).symm
  | put d e v =>
    change t.numNonResidentItems - _ + _ = t.numNonResidentItems + (-_ + _)
    ring
  | push e v =>
    change t.numNonResidentItems - 0 + _ = _
    rw [sub_zero, Write.counted]

omit [DecidableEq κ]

theorem alike_setOver {v : StoredValue κ} {item : Item κ} {clock : Clock} {fresh : BitVec 64}
    (h : (setOver v item clock fresh).2.2 = false) :
    Alike (setOver v item clock fresh).2.1 v := by
  unfold setOver at h ⊢
  dsimp only at h ⊢
  generalize hu : (if v.isExpired clock.realTime = true then
    if (v.isLocked clock.currentTime).1 = true then (v.isLocked clock.currentTime).2.unlock
    else (v.isLocked clock.currentTime).2 else v) = u at h ⊢
  have hlike : Alike u v := by
    rw [← hu]
    split_ifs
    · exact alike_unlock.trans alike_isLocked
    · exact alike_isLocked
    · exact Alike.refl v
  split_ifs at h ⊢
  · exact hlike
  · exact alike_isLocked.trans hlike
  · exact alike_isLocked.trans hlike

theorem nonResident_setOver {v : StoredValue κ} {item : Item κ} {clock : Clock} {fresh : BitVec 64}
    (h : (setOver v item clock fresh).2.2 = true) :
    Table.nonResident (setOver v item clock fresh).2.1 = 0 := by
  unfold setOver at h ⊢
  dsimp only at h ⊢
  generalize (if v.isExpired clock.realTime = true then
    if (v.isLocked clock.currentTime).1 = true then (v.isLocked clock.currentTime).2.unlock
    else (v.isLocked clock.currentTime).2 else v) = u at h ⊢
  split_ifs at h ⊢ <;> exact nonResident_setValue

section
variable (small : Bool) (item : Item κ) (space : Bool) (fresh : BitVec 64) (clock : Clock)
  (found : Option (StoredValue κ))

theorem setFound_counted : (setFound small item space fresh clock found).1.counted =
      (setFound small item space fresh clock found).1.gain Table.nonResident found := by
  unfold setFound
  cases found with
  | none =>
    split_ifs
    · rfl
    · rfl
    · exact nonResident_new.symm
  | some v =>
    dsimp only
    split_ifs with _ hwritten
    · rfl
    · rw [Write.counted, Write.gain, nonResident_setOver hwritten, map_some,
        getD_some, Table.nonResident, Bool.and_comm]
      simp
    · rw [Write.gain, (alike_setOver (by simpa using hwritten)).nonResident]
      simp [Write.counted]

theorem setFound_mem : setMem L small item space fresh clock found =
      (setFound small item space fresh clock found).1.gain (fun v => size L v) found := by
  unfold setFound setMem
  cases found with
  | none => split_ifs <;> rfl
  | some v =>
    dsimp only
    split_ifs with _ hwritten
    · rfl
    · exact rewritten_eq _ _
    · rw [Write.gain, (alike_setOver (by simpa using hwritten)).size]
      simp

end

section
variable (small : Bool) (item : Item κ) (isDirty storeVal space : Bool) (fresh : BitVec 64)
  (clock : Clock) (found : Option (StoredValue κ))

theorem addFound_counted :
    (addFound small item isDirty storeVal space fresh clock found).1.counted =
      (addFound small item isDirty storeVal space fresh clock found).1.gain Table.nonResident found +
        (if space then (found.map fun v =>
          if v.isExpired clock.realTime then Table.nonResident v else 0).getD 0 else 0) := by
  have heject : ∀ u : StoredValue κ, Table.nonResident u = 0 →
      Table.nonResident (if storeVal then u else u.ejectValue) =
        if (!storeVal && u.eligibleForEviction) = true then 1 else 0 := by
    intro u hu
    cases storeVal with
    | true => exact hu
    | false =>
      rw [if_neg Bool.false_ne_true, nonResident_ejectValue, hu, zero_add]
      rfl
  unfold addFound
  cases found with
  | none =>
    cases space with
    | false => rfl
    | true =>
      rw [if_pos rfl, if_pos rfl, Write.counted, Write.gain, heject _ nonResident_new]
      simp
  | some v =>
    dsimp only
    by_cases hthere : (!v.isDeleted && !v.isExpired clock.realTime) = true
    · rw [if_pos hthere]
      simp only [and_eq_true, not_eq_true'] at hthere
      simp [Write.counted, Write.gain, hthere.2]
    · rw [if_neg hthere]
      cases space with
      | false => rfl
      | true =>
        have hold : (if v.isExpired clock.realTime then Table.nonResident v else 0) =
            Table.nonResident v := by
          split_ifs with hexp
          · rfl
          · have hdel : v.isDeleted = true := by simpa [hexp] using hthere
            simp [Table.nonResident, hdel]
        have hmarked : ∀ u : StoredValue κ, Table.nonResident u = 0 →
            Table.nonResident (if isDirty then u.markDirty clock.currentTime
              else u.markClean clock.currentTime) = 0 := by
          intro u hu
          split_ifs
          · rw [alike_markDirty.nonResident, hu]
          · rw [alike_markClean.nonResident, hu]
        rw [if_pos rfl, if_pos rfl, Write.counted, Write.gain,
          heject _ (hmarked _ nonResident_setValue), map_some, getD_some,
          map_some, getD_some, hold]
        simp

theorem addFound_mem : addMem L small item isDirty storeVal space fresh clock found =
      (addFound small item isDirty storeVal space fresh clock found).1.gain (fun v => size L v)
        found := by
  have heject : ∀ u : StoredValue κ, (if storeVal then 0 else ejectMem L u) =
      (size L (if storeVal then u else u.ejectValue) : ℤ) - size L u := by
    intro u
    rw [ejectMem_eq]
    cases storeVal <;> simp
  unfold addFound addMem
  cases found with
  | none =>
    cases space with
    | false => rfl
    | true =>
      dsimp only
      rw [if_pos rfl, if_pos rfl, Write.gain, heject]
      ring
  | some v =>
    have hmarked : ∀ u : StoredValue κ, size L (if isDirty then u.markDirty clock.currentTime
        else u.markClean clock.currentTime) = size L u := by
      intro u
      split_ifs
      · exact alike_markDirty.size
      · exact alike_markClean.size
    dsimp only
    by_cases hthere : (!v.isDeleted && !v.isExpired clock.realTime) = true
    · rw [if_pos hthere, if_pos hthere]
      rfl
    · rw [if_neg hthere, if_neg hthere]
      cases space with
      | false => rfl
      | true =>
        rw [if_pos rfl, if_pos rfl, heject, hmarked, Write.gain, map_some, getD_some, rewritten_eq]
        ring

end

theorem softDeleteFound_counted (cas : BitVec 64) (clock : Clock) (found : Option (StoredValue κ))
    (hlive : ∀ v ∈ found, v.isDeleted = false) :
    (softDeleteFound cas clock found).1.counted =
      (softDeleteFound cas clock found).1.gain Table.nonResident found := by
  unfold softDeleteFound
  cases found with
  | none => rfl
  | some v =>
    have hnonResident : Table.nonResident v = if (!v.isResident) = true then 1 else 0 := by
      simp [Table.nonResident, hlive v rfl]
    have hlocked : (v.isLocked clock.currentTime).2.isResident = v.isResident :=
      alike_isLocked.isResident
    dsimp only
    split_ifs
    · rw [Write.counted, Write.gain, nonResident_del, map_some, getD_some, hnonResident]
      simp
    · rw [Write.gain, alike_isLocked.nonResident]
      simp [Write.counted]
    · rw [Write.gain, alike_isLocked.nonResident]
      simp [Write.counted]
    all_goals
      rw [Write.counted, Write.gain, nonResident_del, map_some, getD_some, hnonResident, hlocked]
      simp

theorem softDeleteFound_mem (cas : BitVec 64) (clock : Clock) (found : Option (StoredValue κ)) :
    softDeleteMem L cas clock found =
      (softDeleteFound cas clock found).1.gain (fun v => size L v) found := by
  unfold softDeleteFound softDeleteMem
  cases found with
  | none => rfl
  | some v =>
    dsimp only
    split_ifs
    · exact resized_eq _ _
    · rw [Write.gain, alike_isLocked.size]
      simp
    · rw [Write.gain, alike_isLocked.size]
      simp
    all_goals
      rw [resized_eq, Write.gain, (alike_unlock.trans alike_isLocked).size]
      rfl

end HashTable

namespace Table

/-- The counters change as the sums do, but for `missed` more values that are not resident. -/
structure Follows (missed : ℤ) (c c' : Table κ) : Prop where
  numItems : c'.table.numItems - c'.sum (fun _ => 1) = c.table.numItems - c.sum fun _ => 1
  numNonResidentItems : c'.table.numNonResidentItems - c'.sum nonResident =
    c.table.numNonResidentItems - c.sum nonResident + missed
  memSize : c'.memSize - c'.sum (fun v => size L v) = c.memSize - c.sum fun v => size L v

variable {L} {c c' c'' : Table κ} {missed : ℤ}

omit [DecidableEq κ] in
theorem Follows.refl (c : Table κ) : Follows L 0 c c := ⟨rfl, (add_zero _).symm, rfl⟩

omit [DecidableEq κ] in
theorem Follows.trans (h : Follows L 0 c c') (h' : Follows L 0 c' c'') : Follows L 0 c c'' := by
  refine ⟨h'.numItems.trans h.numItems, ?_, h'.memSize.trans h.memSize⟩
  rw [h'.numNonResidentItems, h.numNonResidentItems]
  ring

omit [DecidableEq κ] in
theorem Follows.exact_iff (h : Follows L missed c c') (hc : Exact L c) :
    Exact L c' ↔ missed = 0 := by
  have h1 := h.numItems
  have h2 := h.numNonResidentItems
  have h3 := h.memSize
  rw [hc.numItems, sub_self, sub_eq_zero] at h1
  rw [hc.numNonResidentItems, sub_self, zero_add] at h2
  rw [hc.memSize, sub_self, sub_eq_zero] at h3
  constructor
  · intro hc'
    rw [← h2, hc'.numNonResidentItems, sub_self]
  · intro hzero
    exact ⟨h1, sub_eq_zero.mp (h2.trans hzero), h3⟩

theorem follows_apply (hwf : c.table.WellFormed (c.bucket L)) (hn : asInt c.numBuckets ≠ 0) {k : κ}
    {wantsDeleted : Bool} {write : Write κ}
    (hfor : write.For k (c.table.unlockedFind (c.bucket L) k wantsDeleted))
    (hcounted : write.counted =
      write.gain nonResident (c.table.unlockedFind (c.bucket L) k wantsDeleted) + missed)
    {mem : ℤ} (hmem : mem =
      write.gain (fun v => size L v) (c.table.unlockedFind (c.bucket L) k wantsDeleted)) :
    Follows L missed c
      { c with table := c.table.apply (c.bucket L) write, memSize := c.memSize + mem } := by
  have hsum : ∀ w, total w c.numBuckets (c.table.apply (c.bucket L) write).values =
      c.sum w + write.gain w (c.table.unlockedFind (c.bucket L) k wantsDeleted) :=
    fun w => total_apply w hwf (L.bucket_lt hn k) hfor
  refine ⟨?_, ?_, ?_⟩
  · rw [numItems_apply _ hfor, sum, hsum]
    ring
  · rw [numNonResidentItems_apply, sum, hsum, hcounted]
    ring
  · rw [sum, hsum, hmem]
    ring

omit [DecidableEq κ] in
theorem countNonResident_none (t : HashTable κ ℕ) : t.countNonResident false false = t := by
  simp [countNonResident]

theorem unlockedFind_true (t : HashTable κ ℕ) (bucket : κ → ℕ) (k : κ) :
    t.unlockedFind bucket k true = t.get bucket k := by
  unfold unlockedFind
  cases t.get bucket k <;> rfl

theorem live_of_unlockedFind {t : HashTable κ ℕ} {bucket : κ → ℕ} {k : κ} :
    ∀ v ∈ t.unlockedFind bucket k false, v.isDeleted = false := by
  intro v hv
  rw [mem_def, unlockedFind] at hv
  split at hv
  · split_ifs at hv with hlive
    cases hv
    simpa using hlive
  · cases hv

section
variable (hwf : c.table.WellFormed (c.bucket L)) (hn : asInt c.numBuckets ≠ 0)
include hwf hn

theorem follows_softDelete (k : κ) (cas : BitVec 64) (clock : Clock) : Follows L 0 c { c with
      table := (c.table.unlockedSoftDelete (c.bucket L) k cas clock).1
      memSize := c.memSize +
        softDeleteMem L cas clock (c.table.unlockedFind (c.bucket L) k false) } := by
  refine follows_apply hwf hn (softDeleteFound_for cas clock key_of_unlockedFind) ?_
    (softDeleteFound_mem cas clock _)
  rw [add_zero]
  exact softDeleteFound_counted cas clock _ live_of_unlockedFind

theorem follows_push
    {v : StoredValue κ} (hnone : c.table.unlockedFind (c.bucket L) v.key true = none)
    (hv : nonResident v = 0) :
    Follows L 0 c { c with
      table := c.table.push (c.bucket L) v
      memSize := c.memSize + size L v } := by
  have hfor : (Write.push false v).For v.key (c.table.unlockedFind (c.bucket L) v.key true) :=
    ⟨rfl, hnone⟩
  have hcounted : (Write.push false v).counted = (Write.push false v).gain nonResident
      (c.table.unlockedFind (c.bucket L) v.key true) + 0 := by
    simp [Write.counted, Write.gain, hv]
  have hfollows := follows_apply hwf hn hfor hcounted rfl
  rwa [HashTable.apply, countNonResident_none] at hfollows

theorem follows_addUnlessThere (item : Item κ) (op : QueueOperation) (clock : Clock) :
    Follows L 0 c { c with
      table := (c.table.addUnlessThere (c.bucket L) item op clock).1
      memSize := c.memSize + c.opMem L clock (.addUnlessThere item op) } := by
  rw [addUnlessThere, opMem]
  cases hfind : c.table.unlockedFind (c.bucket L) item.key true with
  | some v =>
    dsimp only
    rw [add_zero]
    exact Follows.refl c
  | none =>
    dsimp only
    set v := StoredValue.new c.table.small item true clock.currentTime with hv
    have hkey : v.key = item.key := by rw [hv, key_new]
    have hpush := follows_push hwf hn (v := v) (by rw [hkey]; exact hfind) nonResident_new
    cases op with
    | set =>
      dsimp only
      rw [add_zero]
      exact hpush
    | del =>
      dsimp only
      rw [← add_assoc]
      refine hpush.trans (follows_softDelete
        (c := ⟨c.table.push (c.bucket L) v, c.numBuckets, c.memSize + size L v⟩) ?_ hn item.key
        item.cas clock)
      apply hwf.push
      rw [hkey]
      exact get_of_unlockedFind_none hfind

end

/-- A value that is removed is not taken off the values that are not resident. -/
theorem follows_del (hn : asInt c.numBuckets ≠ 0) (k : κ) (clock : Clock) :
    ∃ missed, Follows L missed c { c with
        table := (c.table.del (c.bucket L) k clock).1
        memSize := c.memSize + c.opMem L clock (.del k) } ∧
      (missed = 0 ↔ Tracked L c (clock, .op (.del k))) := by
  rw [opMem]
  cases hget : c.table.get (c.bucket L) k with
  | none =>
    refine ⟨0, ?_, ⟨fun _ => ?_, fun _ => rfl⟩⟩
    · rw [del_of_none hget]
      dsimp only
      rw [add_zero]
      exact Follows.refl c
    · intro v first rest hv
      rw [hget] at hv
      cases hv
  | some v =>
    have hlookup := hget
    rw [HashTable.get] at hlookup
    obtain ⟨first, rest, hchain⟩ : ∃ first rest, c.table.values (c.bucket L k) = first :: rest := by
      cases hvalues : c.table.values (c.bucket L k) with
      | nil =>
        rw [hvalues] at hlookup
        cases hlookup
      | cons first rest => exact ⟨first, rest, rfl⟩
    have htracked : Tracked L c (clock, .op (.del k)) ↔
        (refuses (guardOf k first rest) v clock.currentTime = false → nonResident v = 0) := by
      constructor
      · intro h hrefuses
        exact h v first rest hget hchain hrefuses
      · intro h v' first' rest' hv' hchain' hrefuses
        rw [hget] at hv'
        rw [hchain] at hchain'
        cases hv'
        cases hchain'
        exact h hrefuses
    have hdel : delChain k clock.currentTime (c.table.values (c.bucket L k)) =
        if refuses (guardOf k first rest) v clock.currentTime then none
        else some (remove StoredValue.key k (c.table.values (c.bucket L k))) := by
      rw [hchain] at hlookup ⊢
      rw [delChain_cons, hlookup, bind_some]
    rw [htracked, HashTable.del, hdel]
    cases hrefuses : refuses (guardOf k first rest) v clock.currentTime with
    | true =>
      refine ⟨0, ?_, by simp⟩
      simp only [if_true, false_eq_true, if_false, add_zero]
      exact Follows.refl c
    | false =>
      refine ⟨nonResident v, ?_, by simp⟩
      simp only [false_eq_true, if_false, if_true]
      have hsum : ∀ w, total w c.numBuckets (update c.table.values (c.bucket L k)
          (remove StoredValue.key k (c.table.values (c.bucket L k)))) = c.sum w - w v := by
        intro w
        rw [total_update w (b := c.bucket L k) (L.bucket_lt hn k), sum_remove w hlookup, sum]
        ring
      refine ⟨?_, ?_, ?_⟩
      · rw [sum, hsum]
        ring
      · rw [sum, hsum]
        ring
      · rw [sum, hsum]
        ring

section
variable (hwf : c.table.WellFormed (c.bucket L)) (hn : asInt c.numBuckets ≠ 0)
include hwf hn

theorem follows_op (clock : Clock) (o : Op κ) : ∃ missed, Follows L missed c { c with
        table := (c.table.perform (c.bucket L) clock o).1
        memSize := c.memSize + c.opMem L clock o } ∧
      (missed = 0 ↔ Tracked L c (clock, .op o)) := by
  cases o with
  | set item space fresh =>
    refine ⟨0, ?_, ⟨fun _ => trivial, fun _ => rfl⟩⟩
    refine follows_apply hwf hn (setFound_for _ item space fresh clock key_of_unlockedFind) ?_
      (setFound_mem _ item space fresh clock _)
    rw [add_zero]
    exact setFound_counted _ item space fresh clock _
  | add item isDirty storeVal space fresh =>
    refine ⟨_, follows_apply hwf hn
      (addFound_for _ item isDirty storeVal space fresh clock key_of_unlockedFind)
      (addFound_counted _ item isDirty storeVal space fresh clock _)
      (addFound_mem _ item isDirty storeVal space fresh clock _), ?_⟩
    rw [unlockedFind_true]
    change _ ↔ ∀ v, c.table.get (c.bucket L) item.key = some v → _
    cases hget : c.table.get (c.bucket L) item.key with
    | none => simp
    | some v => cases space <;> simp
  | softDelete k cas =>
    exact ⟨0, follows_softDelete hwf hn k cas clock, ⟨fun _ => trivial, fun _ => rfl⟩⟩
  | del k => exact follows_del hn k clock
  | addUnlessThere item op =>
    exact ⟨0, follows_addUnlessThere hwf hn item op clock, ⟨fun _ => trivial, fun _ => rfl⟩⟩

theorem follows_ejectValue (k : κ) : Follows L 0 c (c.ejectValue L k).1 := by
  rw [ejectValue]
  cases hget : c.table.get (c.bucket L) k with
  | none => exact Follows.refl c
  | some v =>
    dsimp only
    split_ifs with heligible
    · have hfind : c.table.unlockedFind (c.bucket L) k true = some v := by
        rw [unlockedFind_true, hget]
      have hfor : (Write.put false true v.ejectValue).For k
          (c.table.unlockedFind (c.bucket L) k true) := by
        rw [hfind]
        exact ⟨by rw [key_ejectValue, key_of_get hget], rfl⟩
      refine follows_apply hwf hn hfor ?_ ?_
      · rw [hfind, Write.counted, Write.gain, nonResident_ejectValue, if_pos heligible]
        simp
      · rw [hfind, resized_eq]
        rfl
    · exact Follows.refl c

theorem follows_restoreValue (k : κ)
    (value : Blob) : Follows L 0 c (c.restoreValue L k value).1 := by
  rw [restoreValue]
  cases hfind : c.table.unlockedFind (c.bucket L) k false with
  | none => exact Follows.refl c
  | some v =>
    dsimp only
    split_ifs with hresident
    · exact Follows.refl c
    · have hfor : (Write.put true false (v.restoreValue value)).For k
          (c.table.unlockedFind (c.bucket L) k false) := by
        rw [hfind, StoredValue.restoreValue, if_neg hresident]
        exact ⟨key_of_unlockedFind v hfind, rfl⟩
      refine follows_apply hwf hn hfor ?_ ?_
      · have hlive := live_of_unlockedFind v hfind
        have hold : nonResident v = 1 := by simp [nonResident, hlive, hresident]
        rw [hfind, Write.counted, Write.gain, nonResident_restoreValue, map_some, getD_some, hold]
        simp
      · rw [hfind, resized_eq]
        rfl

end

section
omit [DecidableEq κ]

theorem values_clear (b : ℕ) : c.clear.table.values b =
    if (b : ℤ) < asInt c.numBuckets then [] else c.table.values b := rfl

theorem wellFormed_clear (hwf : c.table.WellFormed (c.bucket L)) :
    c.clear.table.WellFormed (c.clear.bucket L) := by
  constructor
  all_goals
    intro b
    rw [values_clear]
    split_ifs
  · simp
  · exact hwf.home b
  · exact nodup_nil
  · exact hwf.nodup b

theorem exact_clear_iff : Exact L c.clear ↔
    ∀ b < c.numBuckets, asInt c.numBuckets ≤ b → c.table.values b = [] := by
  constructor
  · intro h b hb hint
    have hnil : entries c.clear.numBuckets c.clear.table.values = [] := by
      have hlen : (0 : ℤ) = _ := h.numItems
      rw [sum, total_eq_sum_entries, map_const', sum_replicate, eq_comm] at hlen
      simpa using hlen
    rw [eq_nil_iff_forall_not_mem] at hnil ⊢
    intro v hv
    refine hnil v (mem_entries.mpr ⟨b, hb, ?_⟩)
    rwa [values_clear, if_neg (not_lt.mpr hint)]
  · intro h
    have hsum : ∀ w, c.clear.sum w = 0 := by
      intro w
      rw [sum, total]
      refine Finset.sum_eq_zero fun b hb => ?_
      rw [values_clear]
      split_ifs with hint
      · rfl
      · rw [h b (Finset.mem_range.mp hb) (not_lt.mp hint)]
        rfl
    exact ⟨(hsum _).symm, (hsum _).symm, (hsum _).symm⟩

variable {refused : Bool} {newSize : ℕ}

theorem resize_ok (h : c.resize L newSize refused = .ok c') :
    c' = c ∨ (asInt newSize ≠ 0 ∨ entries c.numBuckets c.table.values = []) ∧ c' = { c with
        table := { c.table with
          values := fill (fun v => L.bucket newSize v.key) (entries c.numBuckets c.table.values)
            fun _ => [] }
        numBuckets := newSize } := by
  rw [resize] at h
  split_ifs at h with hkeep hzero
  · exact .inl (Except.ok.inj h).symm
  · refine .inr ⟨?_, (Except.ok.inj h).symm⟩
    exact (not_and_or.mp hzero).imp (fun hpos => asInt_ne_zero (by omega) (by omega)) not_not.mp

theorem wellFormed_resize (hwf : c.table.WellFormed (c.bucket L))
    (h : c.resize L newSize refused = .ok c') : c'.table.WellFormed (c'.bucket L) := by
  obtain rfl | ⟨-, rfl⟩ := resize_ok h
  · exact hwf
  · have hnodup : ((entries c.numBuckets c.table.values).map StoredValue.key).Nodup :=
      nodup_entries hwf.home hwf.nodup fun x y hxy => congrArg (c.bucket L) hxy
    constructor
    · intro b v hv
      dsimp only at hv
      rw [fill_apply, append_nil, mem_reverse, mem_filter] at hv
      exact of_decide_eq_true hv.2
    · intro b
      dsimp only
      rw [fill_apply, append_nil, map_reverse, nodup_reverse]
      exact hnodup.sublist (filter_sublist.map _)

theorem follows_resize (h : c.resize L newSize refused = .ok c') : Follows L 0 c c' := by
  obtain rfl | ⟨hzero, rfl⟩ := resize_ok h
  · exact Follows.refl c'
  · have hsum : ∀ w, total w newSize (fill (fun v => L.bucket newSize v.key)
        (entries c.numBuckets c.table.values) fun _ => []) = c.sum w := by
      intro w
      rw [total_fill, total_empty, zero_add, ← total_eq_sum_entries, sum]
      intro v hv
      obtain hzero | hnil := hzero
      · exact L.bucket_lt hzero _
      · rw [hnil] at hv
        cases hv
    refine ⟨?_, ?_, ?_⟩
    · rw [sum, hsum]
    · rw [sum, hsum, add_zero]
    · rw [sum, hsum]

end

variable {i : Clock × Call κ}

/-- A call keeps the counters exact if and only if it is one that they follow. -/
theorem step_exact_iff (hwf : c.table.WellFormed (c.bucket L)) (hc : Exact L c) {u : Unit}
    (h : step L c i = .ok (c', u)) :
    c'.table.WellFormed (c'.bucket L) ∧ (Exact L c' ↔ Tracked L c i) := by
  obtain ⟨clock, call⟩ := i
  cases call with
  | op o =>
    simp only [step] at h
    split_ifs at h with hn
    cases h
    obtain ⟨missed, hfollows, hmissed⟩ := follows_op hwf hn clock o
    exact ⟨hwf.perform clock o, (hfollows.exact_iff hc).trans hmissed⟩
  | ejectValue k =>
    simp only [step] at h
    split_ifs at h with hn
    cases h
    refine ⟨?_, ((follows_ejectValue hwf hn k).exact_iff hc).trans (by simp [Tracked])⟩
    rw [ejectValue]
    split
    · split_ifs
      · exact (hwf.countNonResident _ _).put _
      · exact hwf
    · exact hwf
  | restoreValue k value =>
    simp only [step] at h
    split_ifs at h with hn
    cases h
    refine ⟨?_, ((follows_restoreValue hwf hn k value).exact_iff hc).trans (by simp [Tracked])⟩
    rw [restoreValue]
    split
    · split_ifs
      · exact hwf
      · exact (hwf.countNonResident _ _).put _
    · exact hwf
  | clear =>
    simp only [step] at h
    cases h
    exact ⟨wellFormed_clear hwf, exact_clear_iff⟩
  | resize newSize refused =>
    simp only [step] at h
    obtain ⟨c1, h1, h⟩ := bind_eq_ok.mp h
    cases h
    exact ⟨wellFormed_resize hwf h1, ((follows_resize h1).exact_iff hc).trans (by simp [Tracked])⟩

/-- A table without buckets holds nothing. -/
def Backed (c : Table κ) : Prop := asInt c.numBuckets = 0 → ∀ b, c.table.values b = []

theorem step_backed (hc : Backed c) {u : Unit} (h : step L c i = .ok (c', u)) : Backed c' := by
  obtain ⟨clock, call⟩ := i
  have hkept : ∀ (t : HashTable κ ℕ) m, asInt c.numBuckets ≠ 0 → Backed ⟨t, c.numBuckets, m⟩ := by
    intro t m hn hzero
    exact absurd hzero hn
  cases call with
  | op o =>
    simp only [step] at h
    split_ifs at h with hn
    cases h
    exact hkept _ _ hn
  | ejectValue k =>
    simp only [step] at h
    split_ifs at h with hn
    cases h
    rw [ejectValue]
    split
    · split_ifs
      · exact hkept _ _ hn
      · exact hc
    · exact hc
  | restoreValue k value =>
    simp only [step] at h
    split_ifs at h with hn
    cases h
    rw [restoreValue]
    split
    · split_ifs
      · exact hc
      · exact hkept _ _ hn
    · exact hc
  | clear =>
    simp only [step] at h
    cases h
    intro hn b
    rw [values_clear, hc hn b, ite_self]
  | resize newSize refused =>
    simp only [step] at h
    obtain ⟨c1, h1, h⟩ := bind_eq_ok.mp h
    cases h
    obtain rfl | ⟨hzero, rfl⟩ := resize_ok h1
    · exact hc
    · intro hn b
      obtain hzero | hnil := hzero
      · exact (hzero hn).elim
      · dsimp only
        rw [hnil]
        rfl

theorem tracked_of_error (hc : Backed c) {e : Fault}
    (h : step L c i = .error e) : Tracked L c i := by
  obtain ⟨clock, call⟩ := i
  cases call with
  | op o =>
    simp only [step] at h
    split_ifs at h with hn
    have hget : ∀ k, c.table.get (c.bucket L) k = none := by
      intro k
      rw [HashTable.get, hc hn]
      rfl
    cases o <;> simp [Tracked, hget]
  | ejectValue k => trivial
  | restoreValue k value => trivial
  | clear => trivial
  | resize newSize refused => trivial

/-- The three counters are exact in every state of a run if and only if no add meets an expired
value that is not resident, no removal meets a live one and no clearing leaves values. -/
theorem counters_exact_iff (L : Layout κ) (small : Bool) (numBuckets : ℕ)
    (calls : List (Clock × Call κ)) :
    Throughout (step L) (Exact L) (new small numBuckets) calls ↔
      Along (step L) (Tracked L) (new small numBuckets) calls := by
  refine throughout_iff (fun c => c.table.WellFormed (c.bucket L) ∧ Backed c)
    ?_ ?_ ⟨⟨fun _ _ h => (nomatch h), fun _ => nodup_nil⟩, fun _ _ => rfl⟩ ?_
  · rintro c i c' u ⟨hwf, hback⟩ hc h
    obtain ⟨hwf', hiff⟩ := step_exact_iff hwf hc h
    exact ⟨⟨hwf', step_backed hback h⟩, hiff⟩
  · rintro c i e ⟨-, hback⟩ h
    exact tracked_of_error hback h
  · exact ⟨(total_empty _).symm, (total_empty _).symm, (total_empty _).symm⟩

/-- Clean items are added without their values, one that expires and one that does not. The first
one is added again once it has expired, the second one is removed. -/
def warmup : List (Clock × Call ℕ) :=
  let item : ℕ → ℕ → Item ℕ := fun k exptime => ⟨k, 0, exptime, [1, 2, 3], 0, -1⟩
  [(⟨1, 1⟩, .op (.add (item 4 5) false false true 1)),
   (⟨1, 1⟩, .op (.add (item 5 0) false false true 2)),
   (⟨10, 10⟩, .op (.add (item 4 0) true true true 3)),
   (⟨10, 10⟩, .op (.del 5))]

/-- In the end two values are counted as not resident, and the only one there is resident. -/
theorem warmup_miscounts : let L : Layout ℕ := ⟨fun k => k, fun _ => 1, fun _ => 40⟩
    ∃ c os, run (step L) (new false 3) warmup = .ok (c, os) ∧
      c.table.numItems = 1 ∧ c.table.numNonResidentItems = 2 ∧ c.sum nonResident = 0 ∧
      ¬ Throughout (step L) (Exact L) (new false 3) warmup := by
  intro L
  refine ⟨_, _, rfl, by decide, by decide, by decide, ?_⟩
  intro hall
  have hexact := hall warmup [] _ _ (append_nil _).symm rfl
  exact absurd hexact.numNonResidentItems (by decide)

end Table

end Appstack.EpEngine
