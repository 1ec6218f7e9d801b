import Mathlib

-- `sync_registry.cc`.

namespace Appstack.EpEngine.Sync

open Function List

structure KeySpec where
  cas : UInt64
  vbucketid : UInt16
  key : String
  deriving DecidableEq

abbrev Id := String × UInt16

/-- What `operator<` compares; the CAS is no part of it. -/
def KeySpec.id (k : KeySpec) : Id := (k.key, k.vbucketid)

abbrev KeySet := List KeySpec

def KeySet.ids (s : KeySet) : List Id := s.map KeySpec.id

def KeySet.insert (s : KeySet) (k : KeySpec) : KeySet := if k.id ∈ s.ids then s else k :: s

def KeySet.erase (s : KeySet) (k : KeySpec) : KeySet := s.filter fun x => x.id ≠ k.id

def KeySet.find (s : KeySet) (k : KeySpec) : Option KeySpec := s.find? fun x => x.id = k.id

inductive SyncType
  | persist
  | mutation
  | rep
  | repOrPersist
  | repAndPersist
  deriving DecidableEq

/-- `completions` counts the `notifyIOComplete` calls for the listener's cookie, and a count that
is not in `replicaCounts` reads as 0. -/
structure SyncListener where
  keySpecs : KeySet
  syncType : SyncType
  replicasPerKey : ℕ
  persistedOrReplicated : ℕ := 0
  persistedKeys : KeySet := []
  modifiedKeys : KeySet := []
  deletedKeys : KeySet := []
  replicatedKeys : KeySet := []
  replicaCounts : Id → ℕ := fun _ => 0
  finished : Bool := false
  allowNotify : Bool := false
  completions : ℕ := 0

namespace SyncListener

def keySynced (l : SyncListener) (keyspec : KeySpec) (deleted : Bool) : SyncListener :=
  match l.keySpecs.find keyspec with
  | none => l
  | some it =>
    let key := { keyspec with cas := it.cas }
    match l.syncType with
    | .persist =>
      let persistedKeys := l.persistedKeys.insert key
      { l with persistedKeys, finished := persistedKeys.length = l.keySpecs.length }
    | .mutation =>
      let l := if deleted then { l with deletedKeys := l.deletedKeys.insert keyspec }
        else { l with modifiedKeys := l.modifiedKeys.insert keyspec }
      { l with finished := l.modifiedKeys.length + l.deletedKeys.length = l.keySpecs.length }
    | .repOrPersist =>
      let n := if key.id ∉ l.persistedKeys.ids ∧ key.id ∉ l.replicatedKeys.ids then
        l.persistedOrReplicated + 1 else l.persistedOrReplicated
      { l with
        persistedOrReplicated := n
        persistedKeys := (l.persistedKeys.erase key).insert key
        finished := n = l.keySpecs.length }
    | .repAndPersist =>
      let persistedKeys := l.persistedKeys.insert key
      { l with
        persistedKeys
        finished := persistedKeys.length = l.keySpecs.length ∧
          l.replicatedKeys.length = l.keySpecs.length }
    | .rep => l

/-- What the replication overload does before its switch; `replicasDone` is a `uint8_t`. -/
def countReplicas (l : SyncListener) (keyspec : KeySpec) (numReplicas : ℕ) : SyncListener :=
  let replicasDone := (numReplicas + l.replicaCounts keyspec.id) % 256
  let counted := { l with replicaCounts := update l.replicaCounts keyspec.id replicasDone }
  if l.replicasPerKey ≤ replicasDone then
    { counted with
      persistedOrReplicated :=
        if keyspec.id ∉ l.replicatedKeys.ids ∧ l.syncType = .repOrPersist ∧
          keyspec.id ∉ l.persistedKeys.ids then l.persistedOrReplicated + 1
        else l.persistedOrReplicated
      replicatedKeys := (l.replicatedKeys.erase keyspec).insert keyspec }
  else counted

def keyReplicated (l : SyncListener) (keyspec : KeySpec) (numReplicas : ℕ) : SyncListener :=
  match l.keySpecs.find keyspec with
  | none => l
  | some _ =>
    let l := l.countReplicas keyspec numReplicas
    match l.syncType with
    | .rep => { l with finished := l.replicatedKeys.length = l.keySpecs.length }
    | .repOrPersist => { l with finished := l.persistedOrReplicated = l.keySpecs.length }
    | .repAndPersist =>
      { l with finished := l.persistedKeys.length = l.keySpecs.length ∧
          l.replicatedKeys.length = l.keySpecs.length }
    | .persist => l
    | .mutation => l

def maybeNotifyIOComplete (l : SyncListener) : SyncListener :=
  if l.allowNotify then { l with completions := l.completions + 1, allowNotify := false } else l

end SyncListener

/-- What a registered listener is told; `itemPersisted` builds its `key_spec_t` with CAS 0. -/
inductive Notification
  | itemPersisted (vbucketid : UInt16) (key : String)
  | itemModified (keyspec : KeySpec)
  | itemDeleted (keyspec : KeySpec)
  | itemReplicated (keyspec : KeySpec) (replicaCount : ℕ)

def SyncListener.told (l : SyncListener) : Notification → SyncListener
  | .itemPersisted vbucketid key => l.keySynced ⟨0, vbucketid, key⟩ false
  | .itemModified keyspec => l.keySynced keyspec false
  | .itemDeleted keyspec => l.keySynced keyspec true
  | .itemReplicated keyspec replicaCount => l.keyReplicated keyspec replicaCount

inductive Kind
  | persistence
  | mutation
  | replication
  deriving DecidableEq

def Notification.kind : Notification → Kind
  | .itemPersisted .. => .persistence
  | .itemModified _ => .mutation
  | .itemDeleted _ => .mutation
  | .itemReplicated .. => .replication

/-- The listener objects, and the sets that hold pointers to them. -/
structure SyncRegistry where
  listeners : ℕ → SyncListener
  sets : Kind → List ℕ

/-- One round of the loop: the listener, and whether its pointer is erased. -/
def SyncListener.visit (e : Notification) (l : SyncListener) : SyncListener × Bool :=
  if l.finished then (l, false)
  else if (l.told e).finished then ((l.told e).maybeNotifyIOComplete, true) else (l.told e, false)

def notifyListeners (e : Notification) :
    List ℕ → (ℕ → SyncListener) → List ℕ × (ℕ → SyncListener)
  | [], objs => ([], objs)
  | p :: ps, objs =>
    let (l, erased) := (objs p).visit e
    let (ps', objs') := notifyListeners e ps (update objs p l)
    (if erased then ps' else p :: ps', objs')

namespace SyncRegistry

def notify (r : SyncRegistry) (e : Notification) : SyncRegistry :=
  let (ps, listeners) := notifyListeners e (r.sets e.kind) r.listeners
  ⟨listeners, update r.sets e.kind ps⟩

def run (r : SyncRegistry) (es : List Notification) : SyncRegistry := es.foldl notify r

end SyncRegistry

def Persisted (es : List Notification) (i : Id) : Prop := .itemPersisted i.2 i.1 ∈ es

def Modified (es : List Notification) (i : Id) : Prop := ∃ k, k.id = i ∧ .itemModified k ∈ es

def Deleted (es : List Notification) (i : Id) : Prop := ∃ k, k.id = i ∧ .itemDeleted k ∈ es

def Notification.replicas (i : Id) : Notification → ℕ
  | .itemReplicated k n => if k.id = i then n else 0
  | _ => 0

def replicas (es : List Notification) (i : Id) : ℕ := (es.map (Notification.replicas i)).sum

/-- The condition of a key, by the type of the listener: the keys with `P` are persisted, those
with `M` modified, those with `D` deleted, and `c` counts the replicas. -/
def Reached (t : SyncType) (n : ℕ) (P M D : Id → Prop) (c : Id → ℕ) (i : Id) : Prop :=
  match t with
  | .persist => P i
  | .mutation => M i ∨ D i
  | .rep => n ≤ c i
  | .repOrPersist => P i ∨ n ≤ c i
  | .repAndPersist => P i ∧ n ≤ c i

def Met (t : SyncType) (n : ℕ) (es : List Notification) : Id → Prop :=
  Reached t n (Persisted es) (Modified es) (Deleted es) (replicas es)

/-- The sets that `EventuallyPersistentEngine::sync` adds a listener to. -/
def SyncType.hears : SyncType → Kind → Bool
  | .persist, .persistence => true
  | .mutation, .mutation => true
  | .rep, .replication => true
  | .repOrPersist, .persistence => true
  | .repOrPersist, .replication => true
  | .repAndPersist, .persistence => true
  | .repAndPersist, .replication => true
  | _, _ => false

variable {keys s s' : KeySet} {k x : KeySpec} {p q : Id → Prop} {i : Id}

/-- `s` holds the keys of `keys` with the property `p`, each once. -/
structure Tracks (s keys : KeySet) (p : Id → Prop) : Prop where
  nodup : s.ids.Nodup
  mem : ∀ i, i ∈ s.ids ↔ i ∈ keys.ids ∧ p i

@[simp] theorem KeySet.mem_ids_insert : i ∈ (s.insert k).ids ↔ i = k.id ∨ i ∈ s.ids := by
  unfold insert
  split_ifs with h
  · exact ⟨Or.inr, fun hi => hi.elim (fun he => he ▸ h) id⟩
  · simp [ids]

theorem KeySet.ids_erase : (s.erase k).ids = s.ids.filter (· ≠ k.id) := by
  simp only [ids, erase, filter_map]
  rfl

@[simp] theorem KeySet.mem_ids_erase : i ∈ (s.erase k).ids ↔ i ∈ s.ids ∧ i ≠ k.id := by
  simp [ids_erase]

theorem KeySet.nodup_insert (h : s.ids.Nodup) : (s.insert k).ids.Nodup := by
  unfold insert
  split_ifs with hk
  · exact h
  · exact nodup_cons.mpr ⟨hk, h⟩

theorem KeySet.find_isSome : (s.find k).isSome ↔ k.id ∈ s.ids := by
  simp [find, ids]

namespace Tracks

theorem congr (h : Tracks s keys p) (hpq : ∀ i ∈ keys.ids, p i ↔ q i) : Tracks s keys q :=
  ⟨h.nodup, fun i => (h.mem i).trans (and_congr_right (hpq i))⟩

theorem length_iff (h : Tracks s keys p) (hkeys : keys.ids.Nodup) :
    s.length = keys.length ↔ ∀ i ∈ keys.ids, p i := by
  have hlen : ∀ s : KeySet, s.ids.length = s.length := fun s => length_map _
  rw [← hlen s, ← hlen keys]
  constructor
  · intro heq i hi
    have hsub := h.nodup.subperm fun i hi => ((h.mem i).mp hi).1
    have hperm := hsub.perm_of_length_le (Nat.le_of_eq heq.symm)
    exact ((h.mem i).mp (hperm.mem_iff.mpr hi)).2
  · intro hall
    refine ((perm_ext_iff_of_nodup h.nodup hkeys).mpr fun i => ?_).length_eq
    exact (h.mem i).trans ⟨And.left, fun hi => ⟨hi, hall i hi⟩⟩

section
variable (h : Tracks s keys p) (hk : k.id ∈ keys.ids) (hq : ∀ i ∈ keys.ids, q i ↔ i = k.id ∨ p i)
include h hk hq

theorem insert : Tracks (s.insert k) keys q := by
  refine ⟨KeySet.nodup_insert h.nodup, fun i => ?_⟩
  rw [KeySet.mem_ids_insert, h.mem]
  constructor
  · rintro (rfl | ⟨hi, hp⟩)
    · exact ⟨hk, (hq _ hk).mpr (.inl rfl)⟩
    · exact ⟨hi, (hq i hi).mpr (.inr hp)⟩
  · rintro ⟨hi, hqi⟩
    exact ((hq i hi).mp hqi).imp_right fun hp => ⟨hi, hp⟩

theorem reinsert : Tracks ((s.erase k).insert k) keys q := by
  have herase : Tracks (s.erase k) keys fun i => p i ∧ i ≠ k.id := by
    refine ⟨KeySet.ids_erase ▸ h.nodup.filter _, fun i => ?_⟩
    rw [KeySet.mem_ids_erase, h.mem, and_assoc]
  refine herase.insert hk fun i hi => (hq i hi).trans ?_
  by_cases hik : i = k.id <;> simp [hik]

end

theorem append (h : Tracks s keys p) (h' : Tracks s' keys q)
    (hne : ∀ i ∈ keys.ids, ¬(p i ∧ q i)) : Tracks (s ++ s') keys fun i => p i ∨ q i := by
  have hids : KeySet.ids (s ++ s') = s.ids ++ s'.ids := map_append
  refine ⟨?_, fun i => ?_⟩
  · rw [hids, nodup_append']
    refine ⟨h.nodup, h'.nodup, fun i hi hi' => ?_⟩
    exact hne i ((h.mem i).mp hi).1 ⟨((h.mem i).mp hi).2, ((h'.mem i).mp hi').2⟩
  · rw [hids, mem_append, h.mem, h'.mem, and_or_left]

theorem count {a : ℕ} (h : Tracks s keys p) (hlen : s.length = a)
    (hk : k.id ∈ keys.ids) (hq : ∀ i ∈ keys.ids, q i ↔ i = k.id ∨ p i) {b : Prop} [Decidable b]
    (hb : b ↔ ¬p k.id) : ∃ s, Tracks s keys q ∧ s.length = if b then a + 1 else a := by
  refine ⟨s.insert k, h.insert hk hq, ?_⟩
  rw [KeySet.insert]
  have hmem := h.mem k.id
  split_ifs with h1 h2 h2
  · exact absurd (hmem.mp h1).2 (hb.mp h2)
  · exact hlen
  · rw [length_cons, hlen]
  · exact absurd (hmem.mpr ⟨hk, not_not.mp fun hp => h2 (hb.mpr hp)⟩) h1

end Tracks

variable {l : SyncListener} {t : SyncType} {m n : ℕ} {P M D P' M' D' : Id → Prop} {c c' : Id → ℕ}

/-- The sets of a listener, in the terms of `Reached`, as far as its type looks at them. -/
structure Reflects (l : SyncListener) (keys : KeySet) (t : SyncType) (n : ℕ) (P M D : Id → Prop)
    (c : Id → ℕ) : Prop where
  keySpecs : l.keySpecs = keys
  syncType : l.syncType = t
  replicasPerKey : l.replicasPerKey = n
  persisted : t.hears .persistence → Tracks l.persistedKeys keys P
  modified : t.hears .mutation → Tracks l.modifiedKeys keys M
  deleted : t.hears .mutation → Tracks l.deletedKeys keys D
  counts : t.hears .replication → ∀ i ∈ keys.ids, l.replicaCounts i = c i
  replicated : t.hears .replication → Tracks l.replicatedKeys keys (n ≤ c ·)
  either : t = .repOrPersist →
    ∃ s, Tracks s keys (fun i => P i ∨ n ≤ c i) ∧ s.length = l.persistedOrReplicated

/-- Two readings of the notifications that a listener of type `t` cannot tell apart. -/
def Same (t : SyncType) (P M D : Id → Prop) (c : Id → ℕ) (P' M' D' : Id → Prop) (c' : Id → ℕ)
    (i : Id) : Prop :=
  (t.hears .persistence → (P i ↔ P' i)) ∧
    (t.hears .mutation → (M i ↔ M' i) ∧ (D i ↔ D' i)) ∧ (t.hears .replication → c i = c' i)

theorem Reached.congr (h : Same t P M D c P' M' D' c' i) :
    Reached t n P M D c i ↔ Reached t n P' M' D' c' i := by
  obtain ⟨hp, hm, hr⟩ := h
  cases t <;> simp only [SyncType.hears, forall_const] at hp hm hr <;> simp only [Reached, *]

theorem Reflects.congr (hr : Reflects l keys t n P M D c)
    (h : ∀ i ∈ keys.ids, Same t P M D c P' M' D' c' i) : Reflects l keys t n P' M' D' c' :=
  { hr with
    persisted := fun ht => (hr.persisted ht).congr fun i hi => (h i hi).1 ht
    modified := fun ht => (hr.modified ht).congr fun i hi => ((h i hi).2.1 ht).1
    deleted := fun ht => (hr.deleted ht).congr fun i hi => ((h i hi).2.1 ht).2
    counts := fun ht i hi => (hr.counts ht i hi).trans ((h i hi).2.2 ht)
    replicated := fun ht => (hr.replicated ht).congr fun i hi => by rw [(h i hi).2.2 ht]
    either := fun ht => by
      obtain ⟨s, hs, hlen⟩ := hr.either ht
      subst ht
      exact ⟨s, hs.congr fun i hi => by rw [(h i hi).1 rfl, (h i hi).2.2 rfl], hlen⟩ }

theorem SyncListener.keySpecs_find (hk : k.id ∈ l.keySpecs.ids) :
    ∃ it, l.keySpecs.find k = some it :=
  Option.isSome_iff_exists.mp (KeySet.find_isSome.mpr hk)

theorem SyncListener.keySpecs_find_none (hk : k.id ∉ l.keySpecs.ids) :
    l.keySpecs.find k = none := by
  rw [← Option.not_isSome_iff_eq_none, KeySet.find_isSome]
  exact hk

theorem Reflects.persist (hr : Reflects l keys t n P M D c) (hkeys : keys.ids.Nodup)
    (hk : k.id ∈ keys.ids) (ht : t.hears .persistence) :
    Reflects (l.keySynced k false) keys t n (fun i => i = k.id ∨ P i) M D c ∧
      ((l.keySynced k false).finished ↔
        ∀ i ∈ keys.ids, Reached t n (fun i => i = k.id ∨ P i) M D c i) := by
  obtain ⟨it, hit⟩ := l.keySpecs_find (hr.keySpecs ▸ hk)
  have hq : ∀ i ∈ keys.ids, (i = k.id ∨ P i) ↔ i = k.id ∨ P i := fun _ _ => Iff.rfl
  have htr := (hr.persisted ht).insert (k := { k with cas := it.cas }) hk hq
  rw [SyncListener.keySynced, hit]
  obtain rfl := hr.syncType
  cases hty : l.syncType <;> simp only [hty] at hr ht <;> try cases ht
  case persist =>
    refine ⟨{ hr with syncType := rfl, persisted := fun _ => htr, either := nofun }, ?_⟩
    simp only [decide_eq_true_eq, hr.keySpecs]
    exact htr.length_iff hkeys
  case repOrPersist =>
    obtain ⟨s, hs, hlen⟩ := hr.either rfl
    have hcount := hs.count hlen hk (k := k) (q := fun i => (i = k.id ∨ P i) ∨ n ≤ c i)
      (fun i _ => or_assoc) (b := k.id ∉ l.persistedKeys.ids ∧ k.id ∉ l.replicatedKeys.ids) (by
        rw [(hr.persisted rfl).mem, (hr.replicated rfl).mem]
        simp [hk])
    refine ⟨{ hr with
      syncType := rfl
      persisted := fun _ => (hr.persisted rfl).reinsert (k := { k with cas := it.cas }) hk hq
      either := fun _ => hcount }, ?_⟩
    obtain ⟨s', hs', hlen'⟩ := hcount
    simp only [decide_eq_true_eq, hr.keySpecs]
    exact hlen' ▸ hs'.length_iff hkeys
  case repAndPersist =>
    refine ⟨{ hr with syncType := rfl, persisted := fun _ => htr, either := nofun }, ?_⟩
    simp only [decide_eq_true_eq, hr.keySpecs]
    rw [htr.length_iff hkeys, (hr.replicated rfl).length_iff hkeys]
    exact forall₂_and.symm

/-- A key of a `MUTATION` listener is modified or deleted. The two sets are counted together, so
a key must not be in both. -/
theorem Reflects.mutate (hr : Reflects l keys .mutation n P M D c) (hkeys : keys.ids.Nodup)
    (hk : k.id ∈ keys.ids) {b : Bool} (hM : ∀ i, M' i ↔ (i = k.id ∧ b = false) ∨ M i)
    (hD : ∀ i, D' i ↔ (i = k.id ∧ b = true) ∨ D i) (hne : ∀ i ∈ keys.ids, ¬(M' i ∧ D' i)) :
    Reflects (l.keySynced k b) keys .mutation n P M' D' c ∧
      ((l.keySynced k b).finished ↔ ∀ i ∈ keys.ids, M' i ∨ D' i) := by
  obtain ⟨it, hit⟩ := l.keySpecs_find (hr.keySpecs ▸ hk)
  have hr' : Reflects (l.keySynced k b) keys .mutation n P M' D' c := by
    rw [SyncListener.keySynced, hit, hr.syncType]
    cases b
    · exact { hr with
        syncType := rfl
        modified := fun h => (hr.modified h).insert hk fun i _ => by simp [hM]
        deleted := fun h => (hr.deleted h).congr fun i _ => by simp [hD] }
    · exact { hr with
        syncType := rfl
        modified := fun h => (hr.modified h).congr fun i _ => by simp [hM]
        deleted := fun h => (hr.deleted h).insert hk fun i _ => by simp [hD] }
  refine ⟨hr', ?_⟩
  rw [← ((hr'.modified rfl).append (hr'.deleted rfl) hne).length_iff hkeys, length_append,
    SyncListener.keySynced, hit, hr.syncType]
  cases b <;> simp [hr.keySpecs]

theorem Reflects.countReplicas (hr : Reflects l keys t n P M D c) (ht : t.hears .replication)
    (hk : k.id ∈ keys.ids) (hm : c k.id + m ≤ 255)
    (hc : ∀ i, c' i = if k.id = i then c i + m else c i) :
    Reflects (l.countReplicas k m) keys t n P M D c' := by
  have hdone : (m + l.replicaCounts k.id) % 256 = c k.id + m := by
    rw [hr.counts ht _ hk]
    omega
  have hcounts : ∀ i ∈ keys.ids, update l.replicaCounts k.id (c k.id + m) i = c' i := by
    intro i hi
    rw [hc]
    rcases eq_or_ne k.id i with rfl | hne
    · rw [update_self, if_pos rfl]
    · rw [update_of_ne hne.symm, if_neg hne, hr.counts ht i hi]
  unfold SyncListener.countReplicas
  rw [hdone]
  by_cases hge : n ≤ c k.id + m
  · -- the key has enough replicas now
    rw [if_pos (hr.replicasPerKey ▸ hge)]
    have hq : ∀ i ∈ keys.ids, n ≤ c' i ↔ i = k.id ∨ n ≤ c i := by
      intro i _
      rw [hc]
      rcases eq_or_ne k.id i with rfl | hne
      · simpa using hge
      · simp [hne, hne.symm]
    refine { hr with
      counts := fun _ => hcounts
      replicated := fun _ => (hr.replicated ht).reinsert hk hq
      either := fun hor => ?_ }
    obtain ⟨s, hs, hlen⟩ := hr.either hor
    refine hs.count hlen hk (fun i hi => by rw [hq i hi, or_left_comm]) ?_
    rw [(hr.persisted (hor ▸ rfl)).mem, (hr.replicated ht).mem]
    simp only [hk, hr.syncType, hor, true_and]
    exact and_comm.trans not_or.symm
  · rw [if_neg (hr.replicasPerKey ▸ hge)]
    have hq : ∀ i ∈ keys.ids, n ≤ c i ↔ n ≤ c' i := by
      intro i _
      rw [hc]
      rcases eq_or_ne k.id i with rfl | hne
      · rw [if_pos rfl]
        exact ⟨Nat.le_add_right_of_le, fun h => absurd h hge⟩
      · rw [if_neg hne]
    refine { hr with
      counts := fun _ => hcounts
      replicated := fun _ => (hr.replicated ht).congr hq
      either := fun hor => ?_ }
    obtain ⟨s, hs, hlen⟩ := hr.either hor
    exact ⟨s, hs.congr fun i hi => or_congr_right (hq i hi), hlen⟩

theorem Reflects.replicate (hr : Reflects l keys t n P M D c) (hkeys : keys.ids.Nodup)
    (hk : k.id ∈ keys.ids) (ht : t.hears .replication) (hm : c k.id + m ≤ 255)
    (hc : ∀ i, c' i = if k.id = i then c i + m else c i) :
    Reflects (l.keyReplicated k m) keys t n P M D c' ∧
      ((l.keyReplicated k m).finished ↔ ∀ i ∈ keys.ids, Reached t n P M D c' i) := by
  obtain ⟨it, hit⟩ := l.keySpecs_find (hr.keySpecs ▸ hk)
  have hr' := hr.countReplicas ht hk hm hc
  rw [SyncListener.keyReplicated, hit]
  generalize l.countReplicas k m = l' at hr'
  obtain rfl := hr'.syncType
  dsimp only
  cases hty : l'.syncType <;> simp only [hty] at hr' ht <;> try cases ht
  case rep =>
    refine ⟨{ hr' with syncType := rfl, either := nofun }, ?_⟩
    simp only [decide_eq_true_eq, hr'.keySpecs]
    exact (hr'.replicated rfl).length_iff hkeys
  case repOrPersist =>
    refine ⟨{ hr' with syncType := rfl }, ?_⟩
    obtain ⟨s, hs, hlen⟩ := hr'.either rfl
    simp only [decide_eq_true_eq, hr'.keySpecs]
    exact hlen ▸ hs.length_iff hkeys
  case repAndPersist =>
    refine ⟨{ hr' with syncType := rfl, either := nofun }, ?_⟩
    simp only [decide_eq_true_eq, hr'.keySpecs]
    rw [(hr'.persisted rfl).length_iff hkeys, (hr'.replicated rfl).length_iff hkeys]
    exact forall₂_and.symm

variable {es : List Notification} {e : Notification}

def Notification.id : Notification → Id
  | .itemPersisted vbucketid key => (key, vbucketid)
  | .itemModified k => k.id
  | .itemDeleted k => k.id
  | .itemReplicated k _ => k.id

theorem persisted_snoc : Persisted (es ++ [e]) i ↔ e = .itemPersisted i.2 i.1 ∨ Persisted es i := by
  simp [Persisted, or_comm, eq_comm]

theorem modified_snoc :
    Modified (es ++ [e]) i ↔ (∃ k, k.id = i ∧ e = .itemModified k) ∨ Modified es i := by
  simp [Modified, and_or_left, exists_or, or_comm, eq_comm]

theorem deleted_snoc :
    Deleted (es ++ [e]) i ↔ (∃ k, k.id = i ∧ e = .itemDeleted k) ∨ Deleted es i := by
  simp [Deleted, and_or_left, exists_or, or_comm, eq_comm]

theorem replicas_snoc : replicas (es ++ [e]) i = replicas es i + e.replicas i := by
  simp [replicas]

abbrev SameAs (t : SyncType) (P M D : Id → Prop) (c : Id → ℕ) (es : List Notification) :
    Id → Prop :=
  Same t P M D c (Persisted es) (Modified es) (Deleted es) (replicas es)

theorem sameAs_snoc (h : t.hears e.kind → e.id ≠ i) :
    SameAs t (Persisted es) (Modified es) (Deleted es) (replicas es) (es ++ [e]) i := by
  refine ⟨fun ht => ?_, fun ht => ⟨?_, ?_⟩, fun ht => ?_⟩
  · rw [persisted_snoc, or_iff_right]
    rintro rfl
    exact h ht rfl
  · rw [modified_snoc, or_iff_right]
    rintro ⟨k, hk, rfl⟩
    exact h ht hk
  · rw [deleted_snoc, or_iff_right]
    rintro ⟨k, hk, rfl⟩
    exact h ht hk
  · cases e with
    | itemReplicated k m => simp [replicas_snoc, Notification.replicas, show k.id ≠ i from h ht]
    | _ => simp [replicas_snoc, Notification.replicas]

abbrev SyncListener.After (l : SyncListener) (keys : KeySet) (t : SyncType) (n : ℕ)
    (es : List Notification) : Prop :=
  Reflects l keys t n (Persisted es) (Modified es) (Deleted es) (replicas es)

theorem SyncType.eq_mutation (h : t.hears .mutation) : t = .mutation := by
  cases t <;> first | rfl | cases h

/-- A notification for one of the keys of a listener: whether all of them have met their condition
is worked out again. -/
theorem SyncListener.After.told (hr : l.After keys t n es) (hkeys : keys.ids.Nodup)
    (hhear : t.hears e.kind) (hk : e.id ∈ keys.ids)
    (hsum : ∀ i ∈ keys.ids, replicas (es ++ [e]) i ≤ 255)
    (hmix : t = .mutation → ∀ i ∈ keys.ids, ¬(Modified (es ++ [e]) i ∧ Deleted (es ++ [e]) i)) :
    (l.told e).After keys t n (es ++ [e]) ∧
      ((l.told e).finished ↔ ∀ i ∈ keys.ids, Met t n (es ++ [e]) i) := by
  have hafter : ∀ {l' : SyncListener} {P M D : Id → Prop} {c : Id → ℕ},
      (∀ i, SameAs t P M D c (es ++ [e]) i) → (Reflects l' keys t n P M D c ∧
        (l'.finished ↔ ∀ i ∈ keys.ids, Reached t n P M D c i)) →
      l'.After keys t n (es ++ [e]) ∧ (l'.finished ↔ ∀ i ∈ keys.ids, Met t n (es ++ [e]) i) :=
    fun hsame h => ⟨h.1.congr fun i _ => hsame i,
      h.2.trans (forall₂_congr fun i _ => Reached.congr (hsame i))⟩
  cases e with
  | itemPersisted vbucketid key =>
    refine hafter (fun i => ?_) (hr.persist (k := ⟨0, vbucketid, key⟩) hkeys hk hhear)
    refine ⟨fun _ => ?_, by simp [modified_snoc, deleted_snoc],
      by simp [replicas_snoc, Notification.replicas]⟩
    rw [persisted_snoc]
    exact or_congr_left (by simp [KeySpec.id, Prod.ext_iff, eq_comm, and_comm])
  | itemModified k =>
    obtain rfl := SyncType.eq_mutation hhear
    refine hafter (fun i => ?_) (hr.mutate hkeys hk (fun i => ?_) (fun i => ?_) (hmix rfl))
    all_goals simp [Same, modified_snoc, deleted_snoc, eq_comm, SyncType.hears]
  | itemDeleted k =>
    obtain rfl := SyncType.eq_mutation hhear
    refine hafter (fun i => ?_) (hr.mutate hkeys hk (fun i => ?_) (fun i => ?_) (hmix rfl))
    all_goals simp [Same, modified_snoc, deleted_snoc, eq_comm, SyncType.hears]
  | itemReplicated k m =>
    have hc : ∀ i, replicas (es ++ [.itemReplicated k m]) i =
        if k.id = i then replicas es i + m else replicas es i := by
      intro i
      rw [replicas_snoc, Notification.replicas]
      split_ifs <;> rfl
    have hm := hsum _ hk
    rw [hc, Notification.id, if_pos rfl] at hm
    refine hafter (fun i => ?_) (hr.replicate hkeys hk hhear hm hc)
    simp [Same, persisted_snoc, modified_snoc, deleted_snoc]

theorem SyncListener.told_of_not_mem (hk : e.id ∉ l.keySpecs.ids) : l.told e = l := by
  cases e <;> simp only [told, keySynced, keyReplicated] <;> rw [keySpecs_find_none hk]

theorem SyncListener.told_keeps :
    (l.told e).allowNotify = l.allowNotify ∧ (l.told e).completions = l.completions := by
  cases e <;> simp only [told, keySynced, keyReplicated, countReplicas] <;> split <;>
    first | exact ⟨rfl, rfl⟩ | (split_ifs <;> split <;> exact ⟨rfl, rfl⟩)

variable {objs : ℕ → SyncListener} {ps : List ℕ} {j : ℕ} {r : SyncRegistry} {b : Bool}

theorem notifyListeners_sublist : (notifyListeners e ps objs).1.Sublist ps := by
  induction ps generalizing objs with
  | nil => exact .refl _
  | cons p ps ih =>
    simp only [notifyListeners]
    split_ifs
    · exact ih.cons p
    · exact ih.cons_cons p

theorem notifyListeners_spec (hps : ps.Nodup) :
    (notifyListeners e ps objs).2 j = (if j ∈ ps then ((objs j).visit e).1 else objs j) ∧
      (j ∈ (notifyListeners e ps objs).1 ↔ j ∈ ps ∧ ((objs j).visit e).2 = false) := by
  induction ps generalizing objs with
  | nil => simp [notifyListeners]
  | cons p ps ih =>
    obtain ⟨hp, hps⟩ := nodup_cons.mp hps
    obtain ⟨hobj, hmem⟩ := @ih (update objs p ((objs p).visit e).1) hps
    simp only [notifyListeners]
    rcases eq_or_ne j p with rfl | hne
    · rw [if_neg hp, update_self] at hobj
      simp only [hp, false_and, iff_false] at hmem
      refine ⟨hobj.trans (if_pos (.head _)).symm, ?_⟩
      cases hv : ((objs j).visit e).2 <;> simp [hmem]
    · rw [update_of_ne hne] at hobj hmem
      refine ⟨hobj.trans (by simp [hne]), ?_⟩
      cases hv : ((objs p).visit e).2 <;> simp [hmem, hne]

namespace SyncRegistry

structure Registered (r : SyncRegistry) (j : ℕ) (keys : KeySet) (t : SyncType) (n : ℕ) (b : Bool) :
    Prop where
  listener : r.listeners j =
    { keySpecs := keys, syncType := t, replicasPerKey := n, allowNotify := b }
  sets : ∀ kind, j ∈ r.sets kind ↔ t.hears kind
  nodup : ∀ kind, (r.sets kind).Nodup

structure Waiting (r : SyncRegistry) (j : ℕ) (keys : KeySet) (t : SyncType) (n : ℕ) (b : Bool)
    (es : List Notification) : Prop where
  after : (r.listeners j).After keys t n es
  finished : (r.listeners j).finished = false
  allowNotify : (r.listeners j).allowNotify = b
  completions : (r.listeners j).completions = 0
  sets : ∀ kind, j ∈ r.sets kind ↔ t.hears kind
  nodup : ∀ kind, (r.sets kind).Nodup
  unmet : ¬∀ i ∈ keys.ids, Met t n es i

/-- A listener whose keys have all met their condition, for good. -/
def Finished (r : SyncRegistry) (j : ℕ) (keys : KeySet) (t : SyncType) (n : ℕ)
    (es : List Notification) : Prop :=
  (r.listeners j).finished ∧ (∀ kind, (r.sets kind).Nodup) ∧ ∀ i ∈ keys.ids, Met t n es i

section
variable (hr : ∀ kind, (r.sets kind).Nodup)
include hr

theorem notify_listeners : (r.notify e).listeners j =
    if j ∈ r.sets e.kind then ((r.listeners j).visit e).1 else r.listeners j :=
  (notifyListeners_spec (hr _)).1

theorem mem_notify_sets (kind : Kind) : j ∈ (r.notify e).sets kind ↔
      j ∈ r.sets kind ∧ (kind = e.kind → ((r.listeners j).visit e).2 = false) := by
  rcases eq_or_ne kind e.kind with rfl | hne
  · simp only [notify, update_self, true_implies]
    exact (notifyListeners_spec (hr _)).2
  · simp [notify, hne]

theorem nodup_notify (kind : Kind) : ((r.notify e).sets kind).Nodup := by
  rcases eq_or_ne kind e.kind with rfl | hne
  · simp only [notify, update_self]
    exact (hr _).sublist notifyListeners_sublist
  · simpa [notify, hne] using hr kind

end

theorem Finished.notify (h : r.Finished j keys t n es) :
    (r.notify e).Finished j keys t n (es ++ [e]) := by
  obtain ⟨hfin, hr, hmet⟩ := h
  refine ⟨?_, nodup_notify hr, fun i hi => ?_⟩
  · rw [notify_listeners hr, SyncListener.visit, if_pos hfin]
    simpa using hfin
  · have hi := hmet i hi
    cases t <;> simp only [Met, Reached, persisted_snoc, modified_snoc, deleted_snoc, replicas_snoc]
      at hi ⊢ <;> grind

theorem Waiting.notify (hw : r.Waiting j keys t n b es) (hkeys : keys.ids.Nodup)
    (hsum : ∀ i ∈ keys.ids, replicas (es ++ [e]) i ≤ 255)
    (hmix : t = .mutation → ∀ i ∈ keys.ids, ¬(Modified (es ++ [e]) i ∧ Deleted (es ++ [e]) i)) :
    (r.notify e).Waiting j keys t n b (es ++ [e]) ∨ (r.notify e).Finished j keys t n (es ++ [e]) ∧
      ((r.notify e).listeners j).completions = b.toNat ∧ j ∉ (r.notify e).sets e.kind := by
  have hobj := notify_listeners (e := e) (j := j) hw.nodup
  have hsets := mem_notify_sets (e := e) (j := j) hw.nodup
  obtain ⟨hallow, hcompl⟩ := SyncListener.told_keeps (l := r.listeners j) (e := e)
  simp only [SyncListener.visit, hw.finished, Bool.false_eq_true, if_false] at hobj hsets
  by_cases hour : t.hears e.kind ∧ e.id ∈ keys.ids
  · obtain ⟨hafter, hfin⟩ := hw.after.told hkeys hour.1 hour.2 hsum hmix
    rw [if_pos ((hw.sets _).mpr hour.1)] at hobj
    by_cases hdone : ((r.listeners j).told e).finished
    · rw [if_pos hdone] at hobj hsets
      refine .inr ⟨⟨?_, nodup_notify hw.nodup, hfin.mp hdone⟩, ?_, by simp [hsets]⟩
      all_goals rw [hobj, SyncListener.maybeNotifyIOComplete, hallow, hw.allowNotify]
      · split_ifs <;> exact hdone
      · cases b <;> simp [hcompl, hw.completions]
    · rw [if_neg hdone] at hobj hsets
      refine .inl ⟨hobj ▸ hafter, ?_, ?_, ?_, ?_, nodup_notify hw.nodup,
        fun h => hdone (hfin.mpr h)⟩
      · rw [hobj]
        exact eq_false_of_ne_true hdone
      · rw [hobj, hallow, hw.allowNotify]
      · rw [hobj, hcompl, hw.completions]
      · simpa [hsets] using hw.sets
  · -- the listener is not told, or of a key that is none of its own
    have htold : j ∈ r.sets e.kind → ((r.listeners j).told e).finished = false ∧
        (r.listeners j).told e = r.listeners j := fun hmem => by
      rw [SyncListener.told_of_not_mem fun hk =>
        hour ⟨(hw.sets _).mp hmem, hw.after.keySpecs ▸ hk⟩]
      exact ⟨hw.finished, rfl⟩
    have hobj' : (r.notify e).listeners j = r.listeners j := by
      rw [hobj]
      split_ifs with hmem hfin
      · rw [(htold hmem).1] at hfin
        cases hfin
      · exact (htold hmem).2
      · rfl
    have hsame : ∀ i ∈ keys.ids, SameAs t _ _ _ _ (es ++ [e]) i := fun i hi =>
      sameAs_snoc fun ht he => hour ⟨ht, he ▸ hi⟩
    refine .inl ⟨?_, ?_, ?_, ?_, fun kind => ?_, nodup_notify hw.nodup, fun hall => ?_⟩
    · rw [hobj']
      exact hw.after.congr hsame
    · rw [hobj', hw.finished]
    · rw [hobj', hw.allowNotify]
    · rw [hobj', hw.completions]
    · rw [hsets, hw.sets, and_iff_left_iff_imp]
      rintro ht rfl
      rw [if_neg (by simp [htold ((hw.sets _).mpr ht), hw.finished])]
    · exact hw.unmet fun i hi => (Reached.congr (hsame i hi)).mpr (hall i hi)

theorem run_snoc : r.run (es ++ [e]) = (r.run es).notify e := by
  simp [run]

theorem Registered.waiting (hr : r.Registered j keys t n b) (hne : keys ≠ [])
    (hn : t.hears .replication → 0 < n) : r.Waiting j keys t n b [] := by
  have hnone : ∀ {p : Id → Prop}, (∀ i, ¬p i) → Tracks [] keys p := fun hp =>
    ⟨nodup_nil, fun i => by simp [KeySet.ids, hp i]⟩
  have hm : ∀ i, ¬Modified [] i := by simp [Modified]
  have hd : ∀ i, ¬Deleted [] i := by simp [Deleted]
  have hzero : t.hears .replication → ∀ i, ¬n ≤ replicas [] i := fun h _ => Nat.not_le.mpr (hn h)
  refine ⟨?_, ?_, ?_, ?_, hr.sets, hr.nodup, fun hall => ?_⟩
  · rw [hr.listener]
    refine ⟨rfl, rfl, rfl, fun _ => hnone nofun, fun _ => hnone hm, fun _ => hnone hd,
      fun _ _ _ => rfl, fun h => hnone (hzero h), fun h => ⟨[], hnone fun i => ?_, rfl⟩⟩
    subst h
    exact not_or.mpr ⟨nofun, hzero rfl i⟩
  all_goals try rw [hr.listener]
  obtain ⟨k, ks, rfl⟩ := exists_cons_of_ne_nil hne
  have hk := hall k.id (.head _)
  cases t with
  | persist => cases hk
  | mutation => exact hk.elim (hm _) (hd _)
  | rep => exact hzero rfl _ hk
  | repOrPersist => exact hk.elim nofun (hzero rfl _)
  | repAndPersist => exact hzero rfl _ hk.2

theorem before (hsum : ∀ i ∈ keys.ids, replicas (es ++ [e]) i ≤ 255)
    (hmix : t = .mutation → ∀ i ∈ keys.ids, ¬(Modified (es ++ [e]) i ∧ Deleted (es ++ [e]) i)) :
    (∀ i ∈ keys.ids, replicas es i ≤ 255) ∧
      (t = .mutation → ∀ i ∈ keys.ids, ¬(Modified es i ∧ Deleted es i)) := by
  refine ⟨fun i hi => ?_, fun ht i hi h => hmix ht i hi ?_⟩
  · have hle := hsum i hi
    rw [replicas_snoc] at hle
    omega
  · exact ⟨modified_snoc.mpr (.inr h.1), deleted_snoc.mpr (.inr h.2)⟩

theorem run_cases (hr : r.Registered j keys t n b) (hkeys : keys.ids.Nodup) (hne : keys ≠ [])
    (hn : t.hears .replication → 0 < n) (hsum : ∀ i ∈ keys.ids, replicas es i ≤ 255)
    (hmix : t = .mutation → ∀ i ∈ keys.ids, ¬(Modified es i ∧ Deleted es i)) :
    (r.run es).Waiting j keys t n b es ∨ (r.run es).Finished j keys t n es := by
  induction es using List.reverseRecOn with
  | nil => exact .inl (hr.waiting hne hn)
  | append_singleton es e ih =>
    rw [run_snoc]
    obtain ⟨hsum', hmix'⟩ := before hsum hmix
    rcases ih hsum' hmix' with hw | hf
    · exact (hw.notify hkeys hsum hmix).imp_right And.left
    · exact .inr hf.notify

/-- A registered listener is finished just when all its keys have met their condition; with the
notification that makes it so it is erased from the set the notification went to, and its client
is notified if that was allowed. -/
theorem sync_completes (hr : r.Registered j keys t n b) (hkeys : keys.ids.Nodup) (hne : keys ≠ [])
    (hn : t.hears .replication → 0 < n) (hsum : ∀ i ∈ keys.ids, replicas es i ≤ 255)
    (hmix : t = .mutation → ∀ i ∈ keys.ids, ¬(Modified es i ∧ Deleted es i)) :
    (((r.run es).listeners j).finished ↔ ∀ i ∈ keys.ids, Met t n es i) ∧
      ∀ es' e, es = es' ++ [e] → ((r.run es').listeners j).finished = false →
        ((r.run es).listeners j).finished →
        ((r.run es).listeners j).completions = b.toNat ∧ j ∉ (r.run es).sets e.kind := by
  constructor
  · rcases run_cases hr hkeys hne hn hsum hmix with hw | ⟨hfin, -, hmet⟩
    · exact iff_of_false (by simp [hw.finished]) hw.unmet
    · exact iff_of_true hfin hmet
  · rintro es' e rfl hbefore hfin
    obtain ⟨hsum', hmix'⟩ := before hsum hmix
    rw [run_snoc] at hfin ⊢
    rcases run_cases hr hkeys hne hn hsum' hmix' with hw | hf
    · rcases hw.notify hkeys hsum hmix with hw' | hf'
      · rw [hw'.finished] at hfin
        cases hfin
      · exact hf'.2
    · rw [hf.1] at hbefore
      cases hbefore

theorem sync_completes_both :
    let k : KeySpec := ⟨7, 0, "a"⟩
    let r : SyncRegistry :=
      ⟨fun _ =>
        { keySpecs := [k]
          syncType := .repAndPersist
          replicasPerKey := 2
          allowNotify := true }, fun | .mutation => [] | _ => [0]⟩
    let es := [.itemReplicated k 2, .itemPersisted 0 "a"]
    ((r.run es).listeners 0).finished ∧ ((r.run es).listeners 0).completions = 1 := by
  intro k r es
  have hspec := @sync_completes [k] .repAndPersist 2 es 0 r true
    ⟨rfl, fun kind => by cases kind <;> decide, fun kind => by cases kind <;> decide⟩
    (by decide) (by decide) (by decide) (by decide) nofun
  have hfin : ((r.run es).listeners 0).finished := by decide
  exact ⟨hfin, (hspec.2 [.itemReplicated k 2] (.itemPersisted 0 "a") rfl (by decide) hfin).1⟩

/-- Two keys, one of them modified and then deleted. -/
theorem mutation_counts_twice :
    let a : KeySpec := ⟨0, 0, "a"⟩
    let r : SyncRegistry :=
      ⟨fun _ => { keySpecs := [a, ⟨0, 0, "b"⟩], syncType := .mutation, replicasPerKey := 0 },
        fun | .mutation => [0] | _ => []⟩
    let es := [.itemModified a, .itemDeleted a]
    ((r.run es).listeners 0).finished = true ∧ ¬Met .mutation 0 es ("b", 0) := by
  refine ⟨by decide, ?_⟩
  rintro (⟨k, hk, hmem⟩ | ⟨k, hk, hmem⟩) <;> simp at hmem <;> subst hmem <;> simp [KeySpec.id] at hk

end SyncRegistry

end Appstack.EpEngine.Sync
