import Appstack.Lib.Chains

-- `StoredValue` in `stored-value.hh`.

namespace Appstack.EpEngine

structure Clock where
  realTime : ℕ
  currentTime : ℕ
  deriving DecidableEq, Repr

abbrev Blob := List UInt8

structure FeatureData where
  cas : BitVec 64
  exptime : ℕ
  lockExpiry : ℕ := 0
  locked : Bool := false
  resident : Bool := true
  deriving DecidableEq, Repr

structure StoredValue (κ : Type) where
  key : κ
  value : Option Blob
  id : ℤ
  dirtiness : ℕ
  isDirty : Bool
  flags : ℕ
  /-- Absent in small values. -/
  feature : Option FeatureData
  deriving DecidableEq, Repr

structure Item (κ : Type) where
  key : κ
  flags : ℕ
  exptime : ℕ
  value : Blob
  cas : BitVec 64
  id : ℤ := -1
  deriving DecidableEq, Repr

namespace StoredValue

variable {κ : Type} (v : StoredValue κ)

def isDeleted : Bool := v.value.isNone

def isClean : Bool := !v.isDirty

def isResident : Bool :=
  match v.feature with
  | some f => f.resident
  | none => true

def exptime : ℕ :=
  match v.feature with
  | some f => f.exptime
  | none => 0

def cas : BitVec 64 :=
  match v.feature with
  | some f => f.cas
  | none => 0

def isExpired (asOf : ℕ) : Bool := v.exptime ≠ 0 && v.exptime < asOf

def lockHolds (curtime : ℕ) : Bool :=
  match v.feature with
  | some f => f.locked && !(f.lockExpiry < curtime)
  | none => false

/-- `isLocked`: a lock that has run out is dropped on the way. -/
def isLocked (curtime : ℕ) : Bool × StoredValue κ :=
  match v.feature with
  | some f =>
    if f.locked && f.lockExpiry < curtime then
      (false, { v with feature := some { f with locked := false } })
    else (f.locked, v)
  | none => (false, v)

def unlock : StoredValue κ :=
  { v with feature := v.feature.map fun f => { f with locked := false, lockExpiry := 0 } }

/-- The time is kept in 30 bits, in units of four seconds. -/
def dirtinessAt (curtime : ℕ) : ℕ := curtime / 4 % 2 ^ 30

def touch (curtime : ℕ) : StoredValue κ :=
  if v.isDirty then v else { v with dirtiness := dirtinessAt curtime }

def markDirty (curtime : ℕ) : StoredValue κ :=
  { v with dirtiness := dirtinessAt curtime, isDirty := true }

def markClean (curtime : ℕ) : StoredValue κ := touch { v with isDirty := false } curtime

def setCas (c : BitVec 64) : StoredValue κ :=
  { v with feature := v.feature.map fun f => { f with cas := c } }

def setValue (value : Blob) (flags exptime : ℕ) (cas : BitVec 64) (curtime : ℕ) : StoredValue κ :=
  markDirty
    { v with
      value := some value
      flags := flags
      feature := v.feature.map fun f => { f with resident := true, cas := cas, exptime := exptime } }
    curtime

def del (curtime : ℕ) : StoredValue κ :=
  let v := markDirty { v with value := none } curtime
  v.setCas (v.cas + 1)

def eligibleForEviction : Bool :=
  v.isResident && v.isClean && !v.isDeleted && v.feature.isSome

def lengthBlob (n : ℕ) : Blob :=
  [n, n / 2 ^ 8, n / 2 ^ 16, n / 2 ^ 24].map UInt8.ofNat

def ejectValue : StoredValue κ :=
  if v.eligibleForEviction then
    { v with
      value := v.value.map fun b => lengthBlob b.length
      feature := v.feature.map fun f => { f with resident := false } }
  else v

def new (small : Bool) (item : Item κ) (setDirty : Bool) (curtime : ℕ) : StoredValue κ :=
  let v : StoredValue κ :=
    { key := item.key, value := some item.value, id := item.id, dirtiness := 0, isDirty := false
      flags := item.flags
      feature := if small then none else some { cas := item.cas, exptime := item.exptime } }
  if setDirty then v.markDirty curtime else v.markClean curtime

section
variable {v} {t : ℕ}

theorem isLocked_fst : (v.isLocked t).1 = v.lockHolds t := by
  obtain ⟨k, val, id, d, dirty, flags, f⟩ := v
  cases f with
  | none => rfl
  | some f => cases hl : f.locked <;> by_cases he : f.lockExpiry < t <;> simp [isLocked, lockHolds, hl, he]

theorem isLocked_snd (h : v.lockHolds t = true) : (v.isLocked t).2 = v := by
  obtain ⟨k, val, id, d, dirty, flags, f⟩ := v
  cases f with
  | none => rfl
  | some f =>
    have hexp : ¬f.lockExpiry < t := by simp_all [lockHolds]
    simp [isLocked, hexp]

@[simp] theorem key_isLocked : (v.isLocked t).2.key = v.key := by
  unfold isLocked
  split
  · split <;> rfl
  · rfl

@[simp] theorem key_unlock : v.unlock.key = v.key := rfl

@[simp] theorem key_markDirty : (v.markDirty t).key = v.key := rfl

@[simp] theorem key_markClean : (v.markClean t).key = v.key := rfl

@[simp] theorem key_setValue (b : Blob) (f e : ℕ) (c : BitVec 64) :
    (v.setValue b f e c t).key = v.key := rfl

@[simp] theorem key_del : (v.del t).key = v.key := rfl

@[simp] theorem key_ejectValue : v.ejectValue.key = v.key := by
  unfold ejectValue
  split <;> rfl

@[simp] theorem key_new (small : Bool) (item : Item κ) (dirty : Bool) :
    (new small item dirty t).key = item.key := by
  cases dirty <;> rfl

end

end StoredValue

end Appstack.EpEngine
