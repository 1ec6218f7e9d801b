import Appstack.EpEngine.StoredValue

-- `HashTable` in `stored-value.hh`, with any assignment of buckets to keys, so that any keys may share
-- a chain.

namespace Appstack.EpEngine

open Lib.Chains Function Option

inductive MutationType
  | invalidVbucket | notFound | invalidCas | wasClean | wasDirty | isLocked | nomem
  deriving DecidableEq, Repr

inductive AddType
  | success | nomem | exists_ | undel
  deriving DecidableEq, Repr

inductive QueueOperation
  | set | del
  deriving DecidableEq, Repr

/-- The chains and the counters of a table whose keys `κ` are assigned to buckets `β`. -/
structure HashTable (κ β : Type) where
  values : β → List (StoredValue κ)
  small : Bool
  numItems : ℤ
  numNonResidentItems : ℤ

namespace HashTable

variable {κ β : Type} [DecidableEq κ] [DecidableEq β] (bucket : κ → β)

def get (t : HashTable κ β) (k : κ) : Option (StoredValue κ) :=
  lookup StoredValue.key k (t.values (bucket k))

def unlockedFind (t : HashTable κ β) (k : κ) (wantsDeleted : Bool) : Option (StoredValue κ) :=
  match t.get bucket k with
  | some v => if wantsDeleted || !v.isDeleted then some v else none
  | none => none

def put (t : HashTable κ β) (v : StoredValue κ) : HashTable κ β :=
  { t with
    values := update t.values (bucket v.key)
      (modify StoredValue.key v.key (fun _ => v) (t.values (bucket v.key))) }

def push (t : HashTable κ β) (v : StoredValue κ) : HashTable κ β :=
  { t with
    values := update t.values (bucket v.key) (v :: t.values (bucket v.key))
    numItems := t.numItems + 1 }

/-- A value leaves the set of those whose bodies are on disk only, and one joins it. -/
def countNonResident (t : HashTable κ β) (dropped ejected : Bool) : HashTable κ β :=
  { t with
    numNonResidentItems :=
      t.numNonResidentItems - (if dropped then 1 else 0) + (if ejected then 1 else 0) }

/-- What an operation does with the value it found: leave the table, change the value, or store a
new one at the head of the bucket. -/
inductive Write (κ : Type)
  | keep
  | put (dropped ejected : Bool) (v : StoredValue κ)
  | push (ejected : Bool) (v : StoredValue κ)

def apply (t : HashTable κ β) : Write κ → HashTable κ β
  | .keep => t
  | .put dropped ejected v => (t.countNonResident dropped ejected).put bucket v
  | .push ejected v => (t.countNonResident false ejected).push bucket v

/-- `set` of an item over a stored value: the result, the value afterwards, and whether it was
written. -/
def setOver (v : StoredValue κ) (item : Item κ) (clock : Clock) (fresh : BitVec 64) :
    MutationType × StoredValue κ × Bool :=
  let expired := v.isExpired clock.realTime
  let v :=
    if expired then
      let l := v.isLocked clock.currentTime
      if l.1 then l.2.unlock else l.2
    else v
  if expired && item.cas ≠ 0 then (.notFound, v, false)
  else
    let l := v.isLocked clock.currentTime
    if l.1 && item.cas ≠ l.2.cas then (.isLocked, l.2, false)
    else if !l.1 && item.cas ≠ 0 && item.cas ≠ l.2.cas then (.invalidCas, l.2, false)
    else
      let v := if l.1 then l.2.unlock else l.2
      (if v.isClean then .wasClean else .wasDirty,
        v.setValue item.value item.flags item.exptime fresh clock.currentTime, true)

/-- What `set` makes of the value it found. The memory check and the next CAS identifier come from
outside. The row id is returned when the stored value is written over. -/
def setFound (small : Bool) (item : Item κ) (space : Bool) (fresh : BitVec 64) (clock : Clock) :
    Option (StoredValue κ) → Write κ × MutationType × Option ℤ
  | some v =>
    let r := setOver v item clock fresh
    if !space then (.keep, .nomem, none)
    else if r.2.2 then (.put (!v.isResident && !v.isDeleted) false r.2.1, r.1, some v.id)
    else (.put false false r.2.1, r.1, none)
  | none =>
    if !space then (.keep, .nomem, none)
    else if item.cas ≠ 0 then (.keep, .notFound, none)
    else
      (.push false (.new small { item with cas := fresh } true clock.currentTime), .notFound, none)

def set (t : HashTable κ β) (item : Item κ) (space : Bool) (fresh : BitVec 64) (clock : Clock) :
    HashTable κ β × MutationType × Option ℤ :=
  let r := setFound t.small item space fresh clock (t.unlockedFind bucket item.key true)
  (t.apply bucket r.1, r.2)

def addFound (small : Bool) (item : Item κ) (isDirty storeVal space : Bool) (fresh : BitVec 64)
    (clock : Clock) : Option (StoredValue κ) → Write κ × AddType
  | some v =>
    if !v.isDeleted && !v.isExpired clock.realTime then (.keep, .exists_)
    else if space then
      let v := v.setValue item.value item.flags item.exptime fresh clock.currentTime
      let v := if isDirty then v.markDirty clock.currentTime else v.markClean clock.currentTime
      (.put false (!storeVal && v.eligibleForEviction) (if storeVal then v else v.ejectValue),
        .undel)
    else (.keep, .nomem)
  | none =>
    if space then
      let v := StoredValue.new small { item with cas := fresh } isDirty clock.currentTime
      (.push (!storeVal && v.eligibleForEviction) (if storeVal then v else v.ejectValue), .success)
    else (.keep, .nomem)

def add (t : HashTable κ β) (item : Item κ) (isDirty storeVal space : Bool) (fresh : BitVec 64)
    (clock : Clock) : HashTable κ β × AddType :=
  let r := addFound t.small item isDirty storeVal space fresh clock
    (t.unlockedFind bucket item.key true)
  (t.apply bucket r.1, r.2)

def softDeleteFound (cas : BitVec 64) (clock : Clock) :
    Option (StoredValue κ) → Write κ × MutationType
  | some v =>
    if v.isExpired clock.realTime then
      (.put (!v.isResident) false (v.del clock.currentTime), .notFound)
    else
      let l := v.isLocked clock.currentTime
      if l.1 then (.put false false l.2, .isLocked)
      else if cas ≠ 0 && cas ≠ l.2.cas then (.put false false l.2, .notFound)
      else (.put (!l.2.isResident) false (l.2.unlock.del clock.currentTime),
        if l.2.isClean then .wasClean else .wasDirty)
  | none => (.keep, .notFound)

def unlockedSoftDelete (t : HashTable κ β) (k : κ) (cas : BitVec 64) (clock : Clock) :
    HashTable κ β × MutationType :=
  let r := softDeleteFound cas clock (t.unlockedFind bucket k false)
  (t.apply bucket r.1, r.2)

def softDelete (t : HashTable κ β) (k : κ) (cas : BitVec 64) (clock : Clock) :
    HashTable κ β × MutationType × Option ℤ :=
  let rowId := (t.unlockedFind bucket k false).map StoredValue.id
  let r := t.unlockedSoftDelete bucket k cas clock
  (r.1, r.2, rowId)

def addUnlessThere (t : HashTable κ β) (item : Item κ) (op : QueueOperation) (clock : Clock) :
    HashTable κ β × Bool :=
  match t.unlockedFind bucket item.key true with
  | some _ => (t, false)
  | none =>
    let t := t.push bucket (.new t.small item true clock.currentTime)
    match op with
    | .del => ((t.unlockedSoftDelete bucket item.key item.cas clock).1, true)
    | .set => (t, true)

/-- The walk of `unlocked_del` behind the first value `prev` of the chain: the rest of the chain
without the value of `k`. The lock is asked for only if the value before is not deleted. -/
def delAfter (k : κ) (curtime : ℕ) (prev : StoredValue κ) :
    List (StoredValue κ) → Option (List (StoredValue κ))
  | [] => none
  | v :: rest =>
    if v.key = k then
      if !prev.isDeleted && (v.isLocked curtime).1 then none else some rest
    else (delAfter k curtime v rest).map (v :: ·)

def delChain (k : κ) (curtime : ℕ) : List (StoredValue κ) → Option (List (StoredValue κ))
  | [] => none
  | v :: rest =>
    if v.key = k then
      if !v.isDeleted && (v.isLocked curtime).1 then none else some rest
    else (delAfter k curtime v rest).map (v :: ·)

def del (t : HashTable κ β) (k : κ) (clock : Clock) : HashTable κ β × Bool :=
  match delChain k clock.currentTime (t.values (bucket k)) with
  | some chain =>
    ({ t with values := update t.values (bucket k) chain, numItems := t.numItems - 1 }, true)
  | none => (t, false)

/-- The operations on one key, with what they take from outside. -/
inductive Op (κ : Type)
  | set (item : Item κ) (space : Bool) (fresh : BitVec 64)
  | add (item : Item κ) (isDirty storeVal space : Bool) (fresh : BitVec 64)
  | softDelete (key : κ) (cas : BitVec 64)
  | del (key : κ)
  | addUnlessThere (item : Item κ) (op : QueueOperation)

inductive Result
  | mutation (r : MutationType) (rowId : Option ℤ)
  | added (r : AddType)
  | done (b : Bool)
  deriving DecidableEq, Repr

def Op.key : Op κ → κ
  | .set item _ _ => item.key
  | .add item _ _ _ _ => item.key
  | .softDelete k _ => k
  | .del k => k
  | .addUnlessThere item _ => item.key

def perform (t : HashTable κ β) (clock : Clock) : Op κ → HashTable κ β × Result
  | .set item space fresh =>
    let r := t.set bucket item space fresh clock
    (r.1, .mutation r.2.1 r.2.2)
  | .add item isDirty storeVal space fresh =>
    let r := t.add bucket item isDirty storeVal space fresh clock
    (r.1, .added r.2)
  | .softDelete k cas =>
    let r := t.softDelete bucket k cas clock
    (r.1, .mutation r.2.1 r.2.2)
  | .del k =>
    let r := t.del bucket k clock
    (r.1, .done r.2)
  | .addUnlessThere item op =>
    let r := t.addUnlessThere bucket item op clock
    (r.1, .done r.2)

/-- Every key is in its own bucket and has one value at most. -/
structure WellFormed (t : HashTable κ β) : Prop where
  home : ∀ b, ∀ v ∈ t.values b, bucket v.key = b
  nodup : ∀ b, ((t.values b).map StoredValue.key).Nodup

def only (t : HashTable κ β) (k : κ) : HashTable κ β :=
  { t with values := update (fun _ => []) (bucket k) (t.get bucket k).toList }

/-- A value that clients can see, under a lock that has not run out. -/
def LiveLocked (v : StoredValue κ) (clock : Clock) : Prop :=
  v.isDeleted = false ∧ v.isExpired clock.realTime = false ∧ v.lockHolds clock.currentTime = true

def Op.respectsLock (v : StoredValue κ) : Op κ → Prop
  | .set item _ _ => item.cas ≠ v.cas
  | .add _ _ _ _ _ => True
  | .softDelete _ _ => True
  | .del _ => True
  | .addUnlessThere _ _ => False

/-- The operation does what it would do if its key were alone in the table, leaves all other keys,
and keeps to locks. -/
structure PerKey (t : HashTable κ β) (op : Op κ) (clock : Clock) : Prop where
  result : (t.perform bucket clock op).2 = ((t.only bucket op.key).perform bucket clock op).2
  own : (t.perform bucket clock op).1.get bucket op.key =
    ((t.only bucket op.key).perform bucket clock op).1.get bucket op.key
  others : ∀ k, k ≠ op.key → (t.perform bucket clock op).1.get bucket k = t.get bucket k
  locked : ∀ v, t.get bucket op.key = some v → LiveLocked v clock → op.respectsLock v →
    (t.perform bucket clock op).1.get bucket op.key = some v

/-- A deletion whose value is locked finds no value before it in its chain that is deleted and it
is not, or the other way round. -/
def Unhindered (t : HashTable κ β) (clock : Clock) : Op κ → Prop
  | .del k => ∀ front back u v, t.values (bucket k) = front ++ u :: v :: back → v.key = k →
      v.lockHolds clock.currentTime = true → u.isDeleted = v.isDeleted
  | _ => True

section
variable {bucket} {t t' : HashTable κ β} {k k' : κ} {v : StoredValue κ}

theorem values_put : (t.put bucket v).values = update t.values (bucket v.key)
    (modify StoredValue.key v.key (fun _ => v) (t.values (bucket v.key))) := rfl

omit [DecidableEq κ] in
theorem values_push : (t.push bucket v).values =
    update t.values (bucket v.key) (v :: t.values (bucket v.key)) := rfl

theorem values_only : (t.only bucket k).values =
    update (fun _ => []) (bucket k) (t.get bucket k).toList := rfl

theorem get_put_self (h : (t.get bucket v.key).isSome) :
    (t.put bucket v).get bucket v.key = some v := by
  obtain ⟨u, hu⟩ := isSome_iff_exists.mp h
  rw [get] at hu
  rw [get, values_put, update_self, lookup_modify_self fun _ _ => rfl, hu]
  rfl

theorem get_put_of_ne (h : k ≠ v.key) : (t.put bucket v).get bucket k = t.get bucket k := by
  rw [get, values_put, get]
  by_cases hb : bucket k = bucket v.key
  · rw [hb, update_self, lookup_modify_of_ne (fun _ _ => rfl) h]
  · rw [update_of_ne hb]

theorem get_push_self : (t.push bucket v).get bucket v.key = some v := by
  rw [get, values_push, update_self, lookup_cons_self]

theorem get_push_of_ne (h : k ≠ v.key) : (t.push bucket v).get bucket k = t.get bucket k := by
  rw [get, values_push, get]
  by_cases hb : bucket k = bucket v.key
  · rw [hb, update_self, lookup_cons_of_ne h.symm]
  · rw [update_of_ne hb]

omit [DecidableEq β] in
@[simp] theorem get_countNonResident (d e : Bool) :
    (t.countNonResident d e).get bucket k = t.get bucket k := rfl

theorem get_only_self : (t.only bucket k).get bucket k = t.get bucket k := by
  rw [get, values_only, update_self]
  cases h : t.get bucket k with
  | none => rfl
  | some v => simp [lookup, key_of_lookup h]

omit [DecidableEq β]

theorem unlockedFind_congr (h : t.get bucket k = t'.get bucket k) (w : Bool) :
    t.unlockedFind bucket k w = t'.unlockedFind bucket k w := by
  rw [unlockedFind, unlockedFind, h]

theorem get_of_unlockedFind {w : Bool} (h : t.unlockedFind bucket k w = some v) :
    t.get bucket k = some v := by
  unfold unlockedFind at h
  cases hg : t.get bucket k with
  | none => simp [hg] at h
  | some u =>
    rw [hg] at h
    dsimp only at h
    split_ifs at h
    exact h

theorem key_of_get (h : t.get bucket k = some v) : v.key = k := key_of_lookup h

end

/-- The function reads and writes the value of `k` only. -/
structure Local {ρ : Type} (k : κ) (f : HashTable κ β → HashTable κ β × ρ) : Prop where
  same : ∀ t t', t.get bucket k = t'.get bucket k → t.small = t'.small →
    (f t).2 = (f t').2 ∧ (f t).1.get bucket k = (f t').1.get bucket k
  others : ∀ t k', k' ≠ k → (f t).1.get bucket k' = t.get bucket k'

def Write.after : Write κ → Option (StoredValue κ) → Option (StoredValue κ)
  | .keep, own => own
  | .put _ _ v, _ => some v
  | .push _ v, _ => some v

/-- A write for `k` that changes a value where one was found, and adds one where none was. -/
def Write.For (k : κ) (found : Option (StoredValue κ)) : Write κ → Prop
  | .keep => True
  | .put _ _ v => v.key = k ∧ found.isSome
  | .push _ v => v.key = k ∧ found = none

section
variable {bucket} {t t' : HashTable κ β} {k k' : κ} {w : Write κ} {wantsDeleted : Bool}

theorem get_apply_self (h : w.For k (t.unlockedFind bucket k wantsDeleted)) :
    (t.apply bucket w).get bucket k = w.after (t.get bucket k) := by
  cases w with
  | keep => rfl
  | put d e v =>
    obtain ⟨rfl, hv⟩ := h
    obtain ⟨u, hu⟩ := isSome_iff_exists.mp hv
    apply get_put_self
    rw [get_countNonResident, get_of_unlockedFind hu]
    rfl
  | push e v =>
    obtain ⟨rfl, _⟩ := h
    exact get_push_self

theorem get_apply_of_ne {found : Option (StoredValue κ)} (h : w.For k found) (hk : k' ≠ k) :
    (t.apply bucket w).get bucket k' = t.get bucket k' := by
  cases w with
  | keep => rfl
  | put d e v =>
    obtain ⟨rfl, _⟩ := h
    exact (get_put_of_ne hk).trans (get_countNonResident d e)
  | push e v =>
    obtain ⟨rfl, _⟩ := h
    exact get_push_of_ne hk

theorem Local.of_found {ρ : Type} (g : Bool → Option (StoredValue κ) → Write κ × ρ)
    (hg : ∀ small found, (∀ v ∈ found, StoredValue.key v = k) → (g small found).1.For k found) :
    Local bucket k fun t => (t.apply bucket (g t.small (t.unlockedFind bucket k wantsDeleted)).1,
      (g t.small (t.unlockedFind bucket k wantsDeleted)).2) := by
  have hfor : ∀ t : HashTable κ β, (g t.small (t.unlockedFind bucket k wantsDeleted)).1.For k
      (t.unlockedFind bucket k wantsDeleted) := by
    intro t
    apply hg
    intro v hv
    exact key_of_get (get_of_unlockedFind hv)
  constructor
  · intro t t' hget hsmall
    have hfind := unlockedFind_congr hget wantsDeleted
    refine ⟨by rw [hfind, hsmall], ?_⟩
    rw [get_apply_self (hfor t), get_apply_self (hfor t'), hfind, hsmall, hget]
  · intro t k' hk
    exact get_apply_of_ne (hfor t) hk

end

omit [DecidableEq κ] in
theorem key_setOver (v : StoredValue κ) (item : Item κ) (clock : Clock) (fresh : BitVec 64) :
    (setOver v item clock fresh).2.1.key = v.key := by
  unfold setOver
  dsimp only
  split_ifs <;> simp

section
variable {found : Option (StoredValue κ)} {k : κ}

omit [DecidableEq κ]

theorem setFound_for (small : Bool) (item : Item κ) (space : Bool) (fresh : BitVec 64)
    (clock : Clock) (h : ∀ v ∈ found, StoredValue.key v = item.key) :
    (setFound small item space fresh clock found).1.For item.key found := by
  unfold setFound
  cases found with
  | none => split_ifs <;> simp [Write.For]
  | some v =>
    have hv := h v rfl
    dsimp only
    split_ifs <;> simp [Write.For, key_setOver, hv]

theorem addFound_for (small : Bool) (item : Item κ) (isDirty storeVal space : Bool)
    (fresh : BitVec 64) (clock : Clock) (h : ∀ v ∈ found, StoredValue.key v = item.key) :
    (addFound small item isDirty storeVal space fresh clock found).1.For item.key found := by
  unfold addFound
  cases found with
  | none => split_ifs <;> simp [Write.For]
  | some v =>
    have hv := h v rfl
    dsimp only
    split_ifs <;> simp [Write.For, hv]

theorem softDeleteFound_for (cas : BitVec 64) (clock : Clock)
    (h : ∀ v ∈ found, StoredValue.key v = k) : (softDeleteFound cas clock found).1.For k found := by
  unfold softDeleteFound
  cases found with
  | none => trivial
  | some v =>
    have hv := h v rfl
    dsimp only
    split_ifs <;> simp [Write.For, hv]

end

theorem set_local (item : Item κ) (space : Bool) (fresh : BitVec 64) (clock : Clock) :
    Local bucket item.key fun t => t.set bucket item space fresh clock :=
  Local.of_found (fun small => setFound small item space fresh clock)
    fun small _ h => setFound_for small item space fresh clock h

theorem add_local (item : Item κ) (isDirty storeVal space : Bool) (fresh : BitVec 64)
    (clock : Clock) :
    Local bucket item.key fun t => t.add bucket item isDirty storeVal space fresh clock :=
  Local.of_found (fun small => addFound small item isDirty storeVal space fresh clock)
    fun small _ h => addFound_for small item isDirty storeVal space fresh clock h

theorem unlockedSoftDelete_local (k : κ) (cas : BitVec 64) (clock : Clock) :
    Local bucket k fun t => t.unlockedSoftDelete bucket k cas clock :=
  Local.of_found (fun _ => softDeleteFound cas clock) fun _ _ h => softDeleteFound_for cas clock h

theorem softDelete_local (k : κ) (cas : BitVec 64) (clock : Clock) :
    Local bucket k fun t => t.softDelete bucket k cas clock := by
  have hlocal := unlockedSoftDelete_local bucket k cas clock
  refine ⟨?_, hlocal.others⟩
  intro t t' hget hsmall
  obtain ⟨hres, hown⟩ := hlocal.same t t' hget hsmall
  refine ⟨?_, hown⟩
  simp only [softDelete, hres, unlockedFind_congr hget]

theorem addUnlessThere_local (item : Item κ) (op : QueueOperation) (clock : Clock) :
    Local bucket item.key fun t => t.addUnlessThere bucket item op clock := by
  have hlocal := unlockedSoftDelete_local bucket item.key item.cas clock
  constructor
  · intro t t' hget hsmall
    unfold addUnlessThere
    rw [unlockedFind_congr hget, hsmall]
    cases t'.unlockedFind bucket item.key true with
    | some v => exact ⟨rfl, hget⟩
    | none =>
      -- both tables hold the same new value for the key
      set v := StoredValue.new t'.small item true clock.currentTime with hv
      have hkey : item.key = v.key := by rw [hv, StoredValue.key_new]
      have hnew : (t.push bucket v).get bucket item.key = (t'.push bucket v).get bucket item.key := by
        rw [hkey, get_push_self, get_push_self]
      cases op with
      | set => exact ⟨rfl, hnew⟩
      | del => exact ⟨rfl, (hlocal.same _ _ hnew hsmall).2⟩
  · intro t k' hk
    unfold addUnlessThere
    cases t.unlockedFind bucket item.key true with
    | some v => rfl
    | none =>
      have hpush : (t.push bucket (.new t.small item true clock.currentTime)).get bucket k' =
          t.get bucket k' := get_push_of_ne (by rwa [StoredValue.key_new])
      cases op with
      | set => exact hpush
      | del => exact (hlocal.others _ k' hk).trans hpush

section
variable {bucket} {t : HashTable κ β} {v : StoredValue κ} {clock : Clock}

theorem get_apply_put_same {k : κ} {d e : Bool} (h : t.get bucket k = some v) :
    (t.apply bucket (.put d e v)).get bucket k = some v := by
  have hfind : t.unlockedFind bucket k true = some v := by simp [unlockedFind, h]
  have hfor : (Write.put d e v).For k (t.unlockedFind bucket k true) := by
    rw [hfind]
    exact ⟨key_of_get h, rfl⟩
  exact get_apply_self hfor

theorem set_of_locked {item : Item κ} (h : t.get bucket item.key = some v)
    (hv : LiveLocked v clock) (hcas : item.cas ≠ v.cas) (space : Bool) (fresh : BitVec 64) :
    (t.set bucket item space fresh clock).1.get bucket item.key = some v := by
  obtain ⟨_, hexp, hlock⟩ := hv
  have hover : setOver v item clock fresh = (.isLocked, v, false) := by
    unfold setOver
    simp [hexp, StoredValue.isLocked_fst, hlock, StoredValue.isLocked_snd hlock, hcas]
  have hfind : t.unlockedFind bucket item.key true = some v := by simp [unlockedFind, h]
  unfold set setFound
  rw [hfind]
  cases space with
  | false => exact h
  | true =>
    simp only [hover, Bool.not_true, Bool.false_eq_true, if_false]
    exact get_apply_put_same h

theorem add_of_locked {item : Item κ} (h : t.get bucket item.key = some v)
    (hv : LiveLocked v clock) (isDirty storeVal space : Bool) (fresh : BitVec 64) :
    (t.add bucket item isDirty storeVal space fresh clock).1.get bucket item.key = some v := by
  obtain ⟨hdel, hexp, _⟩ := hv
  have hfind : t.unlockedFind bucket item.key true = some v := by simp [unlockedFind, h]
  unfold add addFound
  rw [hfind]
  simp only [hdel, hexp, Bool.not_false, Bool.and_self, if_true]
  exact h

theorem softDelete_of_locked {k : κ} (h : t.get bucket k = some v) (hv : LiveLocked v clock)
    (cas : BitVec 64) : (t.softDelete bucket k cas clock).1.get bucket k = some v := by
  obtain ⟨hdel, hexp, hlock⟩ := hv
  have hfind : t.unlockedFind bucket k false = some v := by simp [unlockedFind, h, hdel]
  unfold softDelete unlockedSoftDelete softDeleteFound
  rw [hfind]
  simp only [hexp, StoredValue.isLocked_fst, hlock, StoredValue.isLocked_snd hlock, if_true,
    Bool.false_eq_true, if_false]
  exact get_apply_put_same h

end

/-- The value whose deletion the walk asks about behind `prev`: the one before that of `k`. -/
def guardAfter (k : κ) (prev : StoredValue κ) : List (StoredValue κ) → StoredValue κ
  | [] => prev
  | v :: rest => if v.key = k then prev else guardAfter k v rest

/-- At the head of the chain it is the value itself. -/
def guardOf (k : κ) (v : StoredValue κ) (rest : List (StoredValue κ)) : StoredValue κ :=
  if v.key = k then v else guardAfter k v rest

def refuses (guard v : StoredValue κ) (curtime : ℕ) : Bool :=
  !guard.isDeleted && v.lockHolds curtime

omit [DecidableEq β] in
theorem delAfter_eq (k : κ) (curtime : ℕ) (prev : StoredValue κ) (rest : List (StoredValue κ)) :
    delAfter k curtime prev rest = (lookup StoredValue.key k rest).bind fun v =>
        if refuses (guardAfter k prev rest) v curtime then none
        else some (remove StoredValue.key k rest) := by
  induction rest generalizing prev with
  | nil => rfl
  | cons v rest ih =>
    rw [delAfter, guardAfter]
    by_cases hv : v.key = k
    · subst hv
      rw [if_pos rfl, if_pos rfl, lookup_cons_self, StoredValue.isLocked_fst]
      simp [refuses, remove]
    · rw [if_neg hv, if_neg hv, ih, lookup_cons_of_ne hv]
      cases lookup StoredValue.key k rest with
      | none => rfl
      | some u =>
        simp only [bind_some]
        split_ifs
        · rfl
        · simp [remove, hv]

theorem delChain_cons (k : κ) (curtime : ℕ) (v : StoredValue κ) (rest : List (StoredValue κ)) :
    delChain k curtime (v :: rest) = (lookup StoredValue.key k (v :: rest)).bind fun u =>
        if refuses (guardOf k v rest) u curtime then none
        else some (remove StoredValue.key k (v :: rest)) := by
  rw [delChain, guardOf]
  by_cases hv : v.key = k
  · subst hv
    rw [if_pos rfl, if_pos rfl, lookup_cons_self, StoredValue.isLocked_fst]
    simp [refuses, remove]
  · rw [if_neg hv, if_neg hv, delAfter_eq, lookup_cons_of_ne hv]
    cases lookup StoredValue.key k rest with
    | none => rfl
    | some u =>
      simp only [bind_some]
      split_ifs
      · rfl
      · simp [remove, hv]

variable {rest : List (StoredValue κ)}

omit [DecidableEq β] in
theorem guardAfter_split {k : κ} (prev : StoredValue κ) {v : StoredValue κ}
    (h : lookup StoredValue.key k rest = some v) :
    ∃ front back, prev :: rest = front ++ guardAfter k prev rest :: v :: back := by
  induction rest generalizing prev with
  | nil => cases h
  | cons u rest ih =>
    by_cases hu : u.key = k
    · subst hu
      rw [lookup_cons_self] at h
      cases h
      exact ⟨[], rest, by simp [guardAfter]⟩
    · rw [lookup_cons_of_ne hu] at h
      obtain ⟨front, back, heq⟩ := ih u h
      refine ⟨prev :: front, back, ?_⟩
      rw [guardAfter, if_neg hu, List.cons_append, ← heq]

omit [DecidableEq β] in
theorem guardAfter_eq {k : κ} {prev u v : StoredValue κ} {front back : List (StoredValue κ)}
    (hnodup : ((prev :: rest).map StoredValue.key).Nodup)
    (heq : prev :: rest = front ++ u :: v :: back) (hv : v.key = k) : guardAfter k prev rest = u := by
  induction front generalizing prev rest with
  | nil =>
    cases heq
    rw [guardAfter, if_pos hv]
  | cons f front ih =>
    rw [List.cons_append] at heq
    cases heq
    rw [List.map_cons, List.nodup_cons] at hnodup
    obtain ⟨r, rest', hr⟩ : ∃ r rest', front ++ u :: v :: back = r :: rest' := by
      cases front <;> simp
    rw [hr] at hnodup ⊢
    have hne : r.key ≠ k := by
      -- `v` comes after `r`
      intro hrk
      have hmem : v ∈ rest' := by
        cases front with
        | nil =>
          obtain ⟨_, rfl⟩ := List.cons.inj hr
          exact .head _
        | cons f' front' =>
          obtain ⟨_, rfl⟩ := List.cons.inj hr
          simp
      have hnot := (List.nodup_cons.mp hnodup.2).1
      exact hnot (List.mem_map.mpr ⟨v, hmem, hv.trans hrk.symm⟩)
    rw [guardAfter, if_neg hne]
    exact ih hnodup.2 hr.symm

omit [DecidableEq β] in
theorem unhindered_iff {t : HashTable κ β} {k : κ} {clock : Clock} {w v : StoredValue κ}
    (ht : t.WellFormed bucket)
    (hchain : t.values (bucket k) = w :: rest) (hget : t.get bucket k = some v) :
    Unhindered bucket t clock (.del k) ↔
      (v.lockHolds clock.currentTime = true → (guardOf k w rest).isDeleted = v.isDeleted) := by
  have hnodup := ht.nodup (bucket k)
  rw [get, hchain] at hget
  rw [hchain] at hnodup
  rw [Unhindered, hchain, guardOf]
  by_cases hw : w.key = k
  · subst hw
    rw [lookup_cons_self] at hget
    cases hget
    rw [if_pos rfl]
    refine ⟨fun _ _ => rfl, ?_⟩
    -- the value is at the head, and no other one has its key
    intro _ front back u v' heq hv' _
    exfalso
    have hmem : v' ∈ rest := by
      cases front with
      | nil =>
        obtain ⟨_, rfl⟩ := List.cons.inj heq
        exact .head _
      | cons f front =>
        obtain ⟨_, rfl⟩ := List.cons.inj heq
        simp
    exact (List.nodup_cons.mp hnodup).1 (List.mem_map.mpr ⟨v', hmem, hv'⟩)
  · rw [if_neg hw]
    rw [lookup_cons_of_ne hw] at hget
    constructor
    · intro h hlock
      obtain ⟨front, back, heq⟩ := guardAfter_split w hget
      exact h front back _ v heq (key_of_lookup hget) hlock
    · intro h front back u v' heq hv' hlock
      have hguard := guardAfter_eq hnodup heq hv'
      have hmem : v' ∈ w :: rest := by
        rw [heq]
        simp
      have hsame : v' = v := by
        have hfound := (lookup_eq_some hnodup).mpr ⟨hmem, hv'⟩
        rw [lookup_cons_of_ne hw, hget] at hfound
        exact (Option.some.inj hfound).symm
      subst hsame
      rw [← hguard]
      exact h hlock

section
variable {bucket} {t : HashTable κ β} {k : κ} {v : StoredValue κ} {clock : Clock}

theorem del_of_none (h : t.get bucket k = none) : t.del bucket k clock = (t, false) := by
  rw [get] at h
  unfold del
  cases hchain : t.values (bucket k) with
  | nil => rfl
  | cons w rest =>
    rw [hchain] at h
    rw [delChain_cons, h]
    rfl

theorem del_of_get (clock : Clock) (ht : t.WellFormed bucket) (h : t.get bucket k = some v) :
    ∃ w rest, t.values (bucket k) = w :: rest ∧
      (t.del bucket k clock).2 = !refuses (guardOf k w rest) v clock.currentTime ∧
      (t.del bucket k clock).1.get bucket k =
        if refuses (guardOf k w rest) v clock.currentTime then some v else none := by
  have hlookup := h
  rw [get] at hlookup
  cases hchain : t.values (bucket k) with
  | nil =>
    rw [hchain] at hlookup
    cases hlookup
  | cons w rest =>
    refine ⟨w, rest, rfl, ?_⟩
    rw [hchain] at hlookup
    unfold del
    rw [hchain, delChain_cons, hlookup, bind_some]
    cases hr : refuses (guardOf k w rest) v clock.currentTime with
    | true => exact ⟨rfl, h⟩
    | false =>
      refine ⟨rfl, ?_⟩
      simp only [Bool.false_eq_true, if_false, get, update_self]
      apply lookup_remove_self
      rw [← hchain]
      exact ht.nodup _

omit [DecidableEq β] in
theorem remove_of_delChain {curtime : ℕ} {values chain : List (StoredValue κ)}
    (h : delChain k curtime values = some chain) : chain = remove StoredValue.key k values := by
  cases values with
  | nil => cases h
  | cons w rest =>
    rw [delChain_cons] at h
    obtain ⟨v, _, hv⟩ := bind_eq_some_iff.mp h
    split_ifs at hv
    exact (Option.some.inj hv).symm

theorem del_others (ht : t.WellFormed bucket) {k' : κ} (hk : k' ≠ k) :
    (t.del bucket k clock).1.get bucket k' = t.get bucket k' := by
  cases hchain : delChain k clock.currentTime (t.values (bucket k)) with
  | none => simp only [del, hchain]
  | some chain =>
    simp only [del, hchain, get]
    by_cases hb : bucket k' = bucket k
    · rw [hb, update_self, remove_of_delChain hchain, lookup_remove_of_ne (ht.nodup _) hk]
    · rw [update_of_ne hb]

theorem only_wellFormed : (t.only bucket k).WellFormed bucket := by
  constructor
  · intro b v hv
    rw [values_only] at hv
    by_cases hb : b = bucket k
    · subst hb
      rw [update_self, mem_toList] at hv
      rw [key_of_get hv]
    · rw [update_of_ne hb] at hv
      cases hv
  · intro b
    rw [values_only]
    by_cases hb : b = bucket k
    · subst hb
      rw [update_self]
      cases t.get bucket k <;> simp
    · rw [update_of_ne hb]
      exact List.nodup_nil

theorem del_only (clock : Clock) (h : t.get bucket k = some v) :
    ((t.only bucket k).del bucket k clock).2 = !refuses v v clock.currentTime ∧
      ((t.only bucket k).del bucket k clock).1.get bucket k =
        if refuses v v clock.currentTime then some v else none := by
  have hown : (t.only bucket k).get bucket k = some v := get_only_self.trans h
  obtain ⟨w, rest, hchain, hres, hafter⟩ := del_of_get clock only_wellFormed hown
  rw [values_only, update_self, h, toList_some] at hchain
  cases hchain
  have hguard : guardOf k v [] = v := by rw [guardOf, if_pos (key_of_get h)]
  rw [hguard] at hres hafter
  exact ⟨hres, hafter⟩

theorem del_perKey_iff (ht : t.WellFormed bucket) :
    PerKey bucket t (.del k) clock ↔ Unhindered bucket t clock (.del k) := by
  cases hget : t.get bucket k with
  | none =>
    have hfree : Unhindered bucket t clock (.del k) := by
      intro front back u v heq hv _
      exfalso
      rw [get, lookup_eq_none] at hget
      exact hget v (by rw [heq]; simp) hv
    have honly : (t.only bucket k).get bucket k = none := get_only_self.trans hget
    refine ⟨fun _ => hfree, fun _ => ⟨?_, ?_, ?_, ?_⟩⟩
    · simp only [perform, Op.key, del_of_none hget, del_of_none honly]
    · simp only [perform, Op.key, del_of_none hget, del_of_none honly, get_only_self]
    · intro k' _
      simp only [perform, del_of_none hget]
    · intro v hv
      rw [Op.key, hget] at hv
      cases hv
  | some v =>
    obtain ⟨w, rest, hchain, hres, hafter⟩ := del_of_get clock ht hget
    obtain ⟨hres', hafter'⟩ := del_only clock hget
    rw [unhindered_iff bucket ht hchain hget]
    constructor
    · intro h hlock
      have hsame := h.result
      simp only [perform, Op.key, hres, hres', Result.done.injEq, refuses, hlock, Bool.and_true,
        Bool.not_not] at hsame
      exact hsame
    · intro h
      -- with the same answer about deletion the walk refuses as it would for the value alone
      have hrefuses : refuses (guardOf k w rest) v clock.currentTime =
          refuses v v clock.currentTime := by
        cases hlock : v.lockHolds clock.currentTime with
        | false => simp [refuses, hlock]
        | true => simp [refuses, h hlock]
      rw [hrefuses] at hres hafter
      refine ⟨?_, hafter.trans hafter'.symm, fun k' hk => del_others ht hk, ?_⟩
      · simp only [perform, Op.key, hres, hres']
      · intro v' hv' hlive _
        rw [Op.key, hget] at hv'
        cases hv'
        have hkept : refuses v v clock.currentTime = true := by
          simp [refuses, hlive.1, hlive.2.2]
        exact hafter.trans (if_pos hkept)

theorem Local.perKey {ρ : Type} {op : Op κ} {f : HashTable κ β → HashTable κ β × ρ}
    (result : ρ → Result) (hlocal : Local bucket op.key f)
    (hf : ∀ t : HashTable κ β, t.perform bucket clock op = ((f t).1, result (f t).2))
    (hlocked : ∀ v, t.get bucket op.key = some v → LiveLocked v clock → op.respectsLock v →
      (f t).1.get bucket op.key = some v) : PerKey bucket t op clock := by
  obtain ⟨hres, hown⟩ := hlocal.same t (t.only bucket op.key) get_only_self.symm rfl
  refine ⟨?_, ?_, ?_, ?_⟩
  · rw [hf, hf, hres]
  · rw [hf, hf]
    exact hown
  · intro k' hk
    rw [hf]
    exact hlocal.others t k' hk
  · intro v hv hlive hrespects
    rw [hf]
    exact hlocked v hv hlive hrespects

end

/-- Every operation on a key is independent of the other keys of its bucket and keeps to the key's
lock, but for deletions, which ask the value before theirs whether it is deleted. -/
theorem perform_perKey_iff (t : HashTable κ β) (ht : t.WellFormed bucket) (op : Op κ)
    (clock : Clock) : PerKey bucket t op clock ↔ Unhindered bucket t clock op := by
  cases op with
  | del k => exact del_perKey_iff ht
  | set item space fresh =>
    refine ⟨fun _ => trivial, fun _ => ?_⟩
    exact Local.perKey (fun r => .mutation r.1 r.2) (set_local bucket item space fresh clock)
      (fun _ => rfl)
      fun v hv hlive hcas => set_of_locked hv hlive hcas space fresh
  | add item isDirty storeVal space fresh =>
    refine ⟨fun _ => trivial, fun _ => ?_⟩
    exact Local.perKey .added (add_local bucket item isDirty storeVal space fresh clock)
      (fun _ => rfl)
      fun v hv hlive _ => add_of_locked hv hlive isDirty storeVal space fresh
  | softDelete k cas =>
    refine ⟨fun _ => trivial, fun _ => ?_⟩
    exact Local.perKey (fun r => .mutation r.1 r.2) (softDelete_local bucket k cas clock)
      (fun _ => rfl)
      fun v hv hlive _ => softDelete_of_locked hv hlive cas
  | addUnlessThere item op =>
    refine ⟨fun _ => trivial, fun _ => ?_⟩
    exact Local.perKey .done (addUnlessThere_local bucket item op clock) (fun _ => rfl)
      fun v hv hlive hno => hno.elim

/-- All keys in one bucket: an item, and behind it another one under a lock until time 20. -/
def lockedBehind (value : Option Blob) : HashTable ℕ Unit :=
  { values := fun _ =>
      [⟨1, value, 7, 0, true, 0, some { cas := 3, exptime := 0 }⟩, ⟨2, some [65], 8, 0, false, 0,
          some { cas := 4, exptime := 0, lockExpiry := 20, locked := true }⟩]
    small := false, numItems := 2, numNonResidentItems := 0 }

theorem lockedBehind_wellFormed (value : Option Blob) :
    (lockedBehind value).WellFormed fun _ => () := by
  refine ⟨fun _ _ _ => rfl, ?_⟩
  intro _
  simp [lockedBehind]

/-- Behind a live value the lock holds. -/
theorem perform_perKey_iff_live :
    PerKey (fun _ => ()) (lockedBehind (some [64])) (.del 2) ⟨10, 10⟩ ∧
      ((lockedBehind (some [64])).del (fun _ => ()) 2 ⟨10, 10⟩).2 = false := by
  refine ⟨(perform_perKey_iff _ _ (lockedBehind_wellFormed _) _ _).mpr ?_, by decide⟩
  intro front back u v heq hv _
  have hguard := guardAfter_eq (k := 2) (lockedBehind_wellFormed (some [64]) |>.nodup ()) heq hv
  rw [← hguard]
  have hmem : v ∈ (lockedBehind (some [64])).values () := by
    rw [heq]
    simp
  simp only [lockedBehind, List.mem_cons, List.not_mem_nil, or_false] at hmem
  rcases hmem with rfl | rfl <;> rfl

/-- Behind a deleted value a live item is deleted in spite of its lock. -/
theorem del_behind_deleted : ((lockedBehind none).del (fun _ => ()) 2 ⟨10, 10⟩).2 = true ∧
      ¬PerKey (fun _ => ()) (lockedBehind none) (.del 2) ⟨10, 10⟩ := by
  refine ⟨by decide, ?_⟩
  intro h
  have hresult := h.result
  exact absurd hresult (by decide)

section
variable {bucket} {t : HashTable κ β} {k : κ} {v : StoredValue κ}

omit [DecidableEq κ] in
theorem WellFormed.update (ht : t.WellFormed bucket) {t' : HashTable κ β} {b : β}
    {chain : List (StoredValue κ)} (hvalues : t'.values = update t.values b chain)
    (hhome : ∀ v ∈ chain, bucket v.key = b) (hnodup : (chain.map StoredValue.key).Nodup) :
    t'.WellFormed bucket := by
  constructor
  · intro c v hv
    rw [hvalues] at hv
    by_cases hc : c = b
    · subst hc
      rw [update_self] at hv
      exact hhome v hv
    · rw [update_of_ne hc] at hv
      exact ht.home c v hv
  · intro c
    rw [hvalues]
    by_cases hc : c = b
    · subst hc
      rw [update_self]
      exact hnodup
    · rw [update_of_ne hc]
      exact ht.nodup c

theorem WellFormed.put (ht : t.WellFormed bucket) (v : StoredValue κ) :
    (t.put bucket v).WellFormed bucket := by
  have hmap := map_key_modify (l := t.values (bucket v.key)) (f := fun _ => v)
    fun (x : StoredValue κ) (_ : x.key = v.key) => rfl
  refine ht.update values_put ?_ ?_
  · intro u hu
    obtain ⟨x, hx, rfl⟩ := List.mem_map.mp hu
    dsimp only
    split_ifs
    · rfl
    · exact ht.home _ x hx
  · rw [hmap]
    exact ht.nodup _

theorem WellFormed.push (ht : t.WellFormed bucket) (h : t.get bucket v.key = none) :
    (t.push bucket v).WellFormed bucket := by
  refine ht.update values_push ?_ ?_
  · intro u hu
    rcases List.mem_cons.mp hu with rfl | hu
    · rfl
    · exact ht.home _ u hu
  · rw [List.map_cons, List.nodup_cons]
    refine ⟨?_, ht.nodup _⟩
    intro hmem
    obtain ⟨u, hu, hkey⟩ := List.mem_map.mp hmem
    exact lookup_eq_none.mp h u hu hkey

omit [DecidableEq β] in
theorem key_of_unlockedFind {wantsDeleted : Bool} :
    ∀ v ∈ t.unlockedFind bucket k wantsDeleted, StoredValue.key v = k :=
  fun _ hv => key_of_get (get_of_unlockedFind hv)

omit [DecidableEq β] in
theorem get_of_unlockedFind_none (h : t.unlockedFind bucket k true = none) :
    t.get bucket k = none := by
  unfold unlockedFind at h
  cases hg : t.get bucket k with
  | none => rfl
  | some v => simp [hg] at h

section
variable (ht : t.WellFormed bucket)
include ht

omit [DecidableEq κ] [DecidableEq β] in
theorem WellFormed.countNonResident (d e : Bool) :
    (t.countNonResident d e).WellFormed bucket := ⟨ht.home, ht.nodup⟩

theorem WellFormed.apply {w : Write κ}
    (h : w.For k (t.unlockedFind bucket k true)) : (t.apply bucket w).WellFormed bucket := by
  cases w with
  | keep => exact ht
  | put d e v => exact (ht.countNonResident d e).put v
  | push e v =>
    obtain ⟨rfl, hnone⟩ := h
    exact (ht.countNonResident false e).push (get_of_unlockedFind_none hnone)

theorem WellFormed.unlockedSoftDelete (k : κ) (cas : BitVec 64)
    (clock : Clock) : (t.unlockedSoftDelete bucket k cas clock).1.WellFormed bucket := by
  unfold HashTable.unlockedSoftDelete softDeleteFound
  cases t.unlockedFind bucket k false with
  | none => exact ht
  | some v =>
    dsimp only
    split_ifs <;> exact (ht.countNonResident _ _).put _

theorem WellFormed.del (k : κ) (clock : Clock) : (t.del bucket k clock).1.WellFormed bucket := by
  unfold HashTable.del
  cases hchain : delChain k clock.currentTime (t.values (bucket k)) with
  | none => exact ht
  | some chain =>
    have hremove := remove_of_delChain hchain
    refine ht.update rfl ?_ ?_
    · intro v hv
      rw [hremove] at hv
      exact ht.home _ v (List.eraseP_subset hv)
    · rw [hremove]
      exact nodup_remove k (ht.nodup _)

theorem WellFormed.perform (clock : Clock) (op : Op κ) :
    (t.perform bucket clock op).1.WellFormed bucket := by
  cases op with
  | set item space fresh =>
    exact ht.apply (setFound_for t.small item space fresh clock key_of_unlockedFind)
  | add item isDirty storeVal space fresh =>
    exact ht.apply (addFound_for t.small item isDirty storeVal space fresh clock
      key_of_unlockedFind)
  | softDelete k cas => exact ht.unlockedSoftDelete k cas clock
  | del k => exact ht.del k clock
  | addUnlessThere item op =>
    simp only [HashTable.perform, addUnlessThere]
    cases hfind : t.unlockedFind bucket item.key true with
    | some v => exact ht
    | none =>
      have hpush : (t.push bucket (.new t.small item true clock.currentTime)).WellFormed bucket := by
        apply ht.push
        rw [StoredValue.key_new]
        exact get_of_unlockedFind_none hfind
      cases op with
      | set => exact hpush
      | del => exact hpush.unlockedSoftDelete item.key item.cas clock

end

end

end HashTable

end Appstack.EpEngine
