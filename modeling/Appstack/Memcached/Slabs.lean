import Appstack.Lib.Areas
import Appstack.Lib.Machine

-- `slabs.c`. Pointers are addresses, with 0 for `NULL`, and the outcome of a `malloc` comes with the
-- call that makes it.

namespace Appstack.Memcached

open Lib.Areas Function List Lib.Machine

inductive SlabFault
  | enomem | divisionByZero | listLost | invalidClass
  deriving DecidableEq, Repr

/-- `slabclass_t`. The slot that was freed last comes first. -/
structure SlabClass where
  size : ℕ
  perslab : ℕ
  slots : List ℕ := []
  slTotal : ℕ := 0
  endPagePtr : ℕ := 0
  endPageFree : ℕ := 0
  slabList : List ℕ := []
  listSize : ℕ := 0
  requested : ℕ := 0

structure Slabs where
  slabclass : ℕ → SlabClass
  powerLargest : ℕ
  memLimit : ℕ
  memMalloced : ℕ := 0
  memBase : ℕ := 0
  memCurrent : ℕ := 0
  memAvail : ℕ := 0

/-- What `slabs_init` reads. The two uses of the floating-point `factor` are parameters:
`size <= item_size_max / factor`, and `size *= factor`. -/
structure SlabConfig where
  sizeofHashItem : ℕ
  chunkSize : ℕ
  itemSizeMax : ℕ
  fits : ℕ → Bool
  times : ℕ → ℕ

/-- Rounded up to `CHUNK_ALIGN_BYTES`. -/
def align8 (n : ℕ) : ℕ := if n % 8 ≠ 0 then n + (8 - n % 8) else n

/-- The classes below the largest one, with `left` more to come at most. -/
def SlabConfig.chunkSizes (cfg : SlabConfig) : ℕ → ℕ → Except SlabFault (List (ℕ × ℕ))
  | 0, _ => .ok []
  | left + 1, size =>
    if cfg.fits size then
      let size := align8 size % 2 ^ 32
      if size = 0 then .error .divisionByZero
      else do
        let rest ← cfg.chunkSizes left (cfg.times size)
        return (size, cfg.itemSizeMax / size % 2 ^ 32) :: rest
    else .ok []

namespace Slabs

/-- `slabs_init`, with what `malloc` gives for the block if all is allocated at the start. -/
def slabsInit (cfg : SlabConfig) (limit : ℕ) (prealloc : Bool) (block : ℕ) :
    Except SlabFault Slabs :=
  if prealloc ∧ block = 0 then .error .enomem
  else do
    let sizes ← cfg.chunkSizes 199 ((cfg.sizeofHashItem + cfg.chunkSize) % 2 ^ 32)
    let classes := (0, 0) :: (sizes ++ [(cfg.itemSizeMax % 2 ^ 32, 1)])
    return {
      slabclass := fun id =>
        { size := (classes.getD id (0, 0)).1, perslab := (classes.getD id (0, 0)).2 }
      powerLargest := sizes.length + 1
      memLimit := limit
      memBase := if prealloc then block else 0
      memCurrent := if prealloc then block else 0
      memAvail := if prealloc then limit else 0 }

def clsidFrom (s : Slabs) (size : ℕ) : ℕ → ℕ → ℕ
  | 0, _ => 0
  | left + 1, res =>
    if (s.slabclass res).size < size then
      if res = s.powerLargest then 0 else s.clsidFrom size left (res + 1)
    else res

def slabsClsid (s : Slabs) (size : ℕ) : ℕ :=
  if size = 0 then 0 else s.clsidFrom size s.powerLargest 1

def setClass (s : Slabs) (id : ℕ) (p : SlabClass) : Slabs :=
  { s with slabclass := update s.slabclass id p }

end Slabs

/-- The `int len` of a page, as the `size_t` that it is added and allocated as. -/
def SlabClass.pageLen (p : SlabClass) : ℕ :=
  (((p.size * p.perslab : ℕ) : ℤ).bmod (2 ^ 32) % 2 ^ 64).toNat

def SlabClass.newListSize (p : SlabClass) : ℕ :=
  if p.listSize ≠ 0 then p.listSize * 2 % 2 ^ 32 else 16

/-- `grow_slab_list`. At 2³¹ pages the new size wraps around to 0, and `realloc` frees the list. -/
def SlabClass.growSlabList (p : SlabClass) (grown : Bool) : Except SlabFault (Option SlabClass) :=
  if p.slabList.length = p.listSize then
    if p.newListSize = 0 then .error .listLost
    else if grown then .ok (some { p with listSize := p.newListSize }) else .ok none
  else .ok (some p)

namespace Slabs

def memoryAllocate (s : Slabs) (size malloced : ℕ) : Slabs × ℕ :=
  if s.memBase = 0 then (s, malloced)
  else if s.memAvail < size then (s, 0)
  else
    ({ s with
      memCurrent := s.memCurrent + align8 size
      memAvail := if align8 size < s.memAvail then s.memAvail - align8 size else 0 },
      s.memCurrent)

def withPage (s : Slabs) (id ptr : ℕ) (p : SlabClass) : Slabs :=
  { s with
    slabclass := update s.slabclass id { p with
      endPagePtr := ptr
      endPageFree := p.perslab
      slabList := p.slabList ++ [ptr] }
    memMalloced := s.memMalloced + p.pageLen }

def doSlabsNewslab (s : Slabs) (id malloced : ℕ) (grown : Bool) : Except SlabFault (Slabs × Bool) :=
  let p := s.slabclass id
  if s.memLimit ≠ 0 ∧ s.memLimit < s.memMalloced + p.pageLen ∧ 0 < p.slabList.length then
    .ok (s, false)
  else do
    match ← p.growSlabList grown with
    | none => return (s, false)
    | some p =>
      let r := (s.setClass id p).memoryAllocate p.pageLen malloced
      if r.2 = 0 then return (r.1, false) else return (r.1.withPage id r.2 p, true)

def take (s : Slabs) (size id : ℕ) : Slabs × ℕ :=
  let p := s.slabclass id
  match p.slots with
  | ret :: slots =>
    (s.setClass id { p with
      slots := slots
      requested := if ret ≠ 0 then p.requested + size else p.requested }, ret)
  | [] =>
    let free := (p.endPageFree + (2 ^ 32 - 1)) % 2 ^ 32
    (s.setClass id { p with
      endPageFree := free
      endPagePtr := if free ≠ 0 then p.endPagePtr + p.size else 0
      requested := if p.endPagePtr ≠ 0 then p.requested + size else p.requested }, p.endPagePtr)

def doSlabsAlloc (s : Slabs) (size id malloced : ℕ) (grown : Bool) :
    Except SlabFault (Slabs × ℕ) :=
  if id < 1 ∨ s.powerLargest < id then .ok (s, 0)
  else if (s.slabclass id).endPagePtr ≠ 0 ∨ (s.slabclass id).slots ≠ [] then .ok (s.take size id)
  else do
    match ← s.doSlabsNewslab id malloced grown with
    | (s, false) => return (s, 0)
    | (s, true) => return s.take size id

/-- `do_slabs_free`. More slots than an `int` counts ask for more memory than there is. -/
def doSlabsFree (s : Slabs) (ptr size id : ℕ) (grown : Bool) : Slabs :=
  if id < 1 ∨ s.powerLargest < id then s
  else
    let p := s.slabclass id
    let p' := { p with slots := ptr :: p.slots, requested := p.requested - size }
    if p.slots.length = p.slTotal then
      let newSize := if p.slTotal ≠ 0 then p.slTotal * 2 else 16
      if grown ∧ newSize < 2 ^ 31 then s.setClass id { p' with slTotal := newSize } else s
    else s.setClass id p'

def slabsAdjustMemRequested (s : Slabs) (id old ntotal : ℕ) : Except SlabFault Slabs :=
  if id < 1 ∨ s.powerLargest < id then .error .invalidClass
  else .ok (s.setClass id { s.slabclass id with
    requested := (s.slabclass id).requested - old + ntotal })

end Slabs

structure Chunk where
  ptr : ℕ
  size : ℕ
  id : ℕ
  deriving DecidableEq, Repr

structure SlabHeap where
  slabs : Slabs
  live : List Chunk

inductive SlabCall
  | alloc (size malloced : ℕ) (grown : Bool)
  | free (c : Chunk) (grown : Bool)
  | adjust (c : Chunk) (ntotal : ℕ)

namespace SlabHeap

def step (h : SlabHeap) : SlabCall → Except SlabFault (SlabHeap × ℕ)
  | .alloc size malloced grown =>
    let id := h.slabs.slabsClsid size
    if id = 0 then .ok (h, 0)
    else do
      let r ← h.slabs.doSlabsAlloc size id malloced grown
      if r.2 = 0 then return (⟨r.1, h.live⟩, 0)
      else return (⟨r.1, ⟨r.2, size, id⟩ :: h.live⟩, r.2)
  | .free c grown => .ok (⟨h.slabs.doSlabsFree c.ptr c.size c.id grown, h.live.erase c⟩, 0)
  | .adjust c ntotal => do
    let s ← h.slabs.slabsAdjustMemRequested c.id c.size ntotal
    return (⟨s, ⟨c.ptr, ntotal, c.id⟩ :: h.live.erase c⟩, c.ptr)

/-- What the callers do, and `malloc`: a new page lies apart from those there are, only live chunks
are freed or reused, and these for a size of their class. The array of free slots can be grown, and
a class has less than 2³¹ pages. -/
def Allowed (h : SlabHeap) : SlabCall → Prop
  | .alloc size malloced _ =>
    let id := h.slabs.slabsClsid size
    (h.slabs.slabclass id).slabList.length < 2 ^ 31 ∧
      (h.slabs.memBase = 0 → malloced ≠ 0 → ∀ j, 1 ≤ j → j ≤ h.slabs.powerLargest →
        ∀ a ∈ (h.slabs.slabclass j).slabList,
          Apart malloced (h.slabs.slabclass id).pageLen a (h.slabs.slabclass j).pageLen)
  | .free c grown =>
    let p := h.slabs.slabclass c.id
    c ∈ h.live ∧ (p.slots.length = p.slTotal → grown = true ∧ p.slTotal < 2 ^ 30)
  | .adjust c ntotal => c ∈ h.live ∧ h.slabs.slabsClsid ntotal = c.id

end SlabHeap

namespace SlabClass

variable {p : SlabClass}

def span (p : SlabClass) : ℕ := p.perslab * p.size

theorem toNat_bmod {n : ℕ} (h : n < 2 ^ 31) : ((n : ℤ).bmod (2 ^ 32) % 2 ^ 64).toNat = n := by
  rw [Int.bmod_eq_of_le] <;> omega

theorem pageLen_eq (h : p.span < 2 ^ 31) : p.pageLen = p.span := by
  have hcomm : p.size * p.perslab = p.span := mul_comm _ _
  unfold pageLen
  rw [hcomm]
  exact toNat_bmod h

theorem growSlabList_ok (h : p.slabList.length < 2 ^ 31) (grown : Bool) :
    p.growSlabList grown = .ok none ∨
      ∃ n, p.growSlabList grown = .ok (some { p with listSize := n }) := by
  unfold growSlabList
  split_ifs with hfull hzero hgrown
  · rw [newListSize] at hzero
    split_ifs at hzero with hold
    omega
  · exact .inr ⟨_, rfl⟩
  · exact .inl rfl
  · exact .inr ⟨p.listSize, rfl⟩

def chunks (p : SlabClass) : List ℕ := p.slabList.flatMap (cells p.perslab p.size)

/-- The cells at the end of the newest page that were not handed out yet. -/
def endPage (p : SlabClass) : List ℕ := cells p.endPageFree p.size p.endPagePtr

end SlabClass

namespace Slabs

def Valid (s : Slabs) (id : ℕ) : Prop := 1 ≤ id ∧ id ≤ s.powerLargest

def firstPage (s : Slabs) (id : ℕ) : ℕ :=
  if (s.slabclass id).slabList = [] then 0 else (s.slabclass id).span

def firstPages (s : Slabs) : ℕ := ∑ id ∈ Finset.Icc 1 s.powerLargest, s.firstPage id

structure Paged (s : Slabs) : Prop where
  room : ∀ id, s.Valid id → 0 < (s.slabclass id).perslab ∧ (s.slabclass id).perslab < 2 ^ 32 ∧
    (s.slabclass id).span < 2 ^ 31
  sorted : ∀ i j, 1 ≤ i → i ≤ j → j ≤ s.powerLargest → (s.slabclass i).size ≤ (s.slabclass j).size
  unused : ∀ id, ¬s.Valid id → (s.slabclass id).slabList = []
  nonnull : ∀ id, ∀ a ∈ (s.slabclass id).slabList, a ≠ 0
  apart : ∀ id, (s.slabclass id).slabList.Pairwise
    (Apart · (s.slabclass id).span · (s.slabclass id).span)
  across : ∀ i j, i ≠ j → ∀ a ∈ (s.slabclass i).slabList, ∀ b ∈ (s.slabclass j).slabList,
    Apart a (s.slabclass i).span b (s.slabclass j).span
  current : s.memBase ≠ 0 → s.memCurrent ≠ 0 ∧
    ∀ id, ∀ a ∈ (s.slabclass id).slabList, a + (s.slabclass id).span ≤ s.memCurrent
  malloced : s.memLimit ≠ 0 → s.memMalloced ≤ s.memLimit + s.firstPages

variable {s s' : Slabs} {id : ℕ} {a : ℕ}

theorem Paged.valid (h : s.Paged) (ha : a ∈ (s.slabclass id).slabList) : s.Valid id := by
  by_contra hid
  rw [h.unused id hid] at ha
  cases ha

theorem Paged.congr (h : s.Paged) (hlargest : s'.powerLargest = s.powerLargest)
    (hsize : ∀ j, (s'.slabclass j).size = (s.slabclass j).size)
    (hper : ∀ j, (s'.slabclass j).perslab = (s.slabclass j).perslab)
    (hlist : ∀ j, (s'.slabclass j).slabList = (s.slabclass j).slabList)
    (hbase : s'.memBase = s.memBase) (hcur : s.memCurrent ≤ s'.memCurrent)
    (hlimit : s'.memLimit = s.memLimit) (hmall : s'.memMalloced = s.memMalloced) : s'.Paged := by
  have hspan : ∀ j, (s'.slabclass j).span = (s.slabclass j).span := fun j => by
    rw [SlabClass.span, hsize, hper, SlabClass.span]
  have hfirst : s'.firstPages = s.firstPages := by
    simp only [firstPages, firstPage, hlargest, hlist, hspan]
  constructor
  · simpa only [Valid, hlargest, hper, hspan] using h.room
  · simpa only [hlargest, hsize] using h.sorted
  · simpa only [Valid, hlargest, hlist] using h.unused
  · simpa only [hlist] using h.nonnull
  · simpa only [hlist, hspan] using h.apart
  · simpa only [hlist, hspan] using h.across
  · rw [hbase]
    intro hb
    obtain ⟨hne, hle⟩ := h.current hb
    refine ⟨by omega, fun j a ha => ?_⟩
    rw [hlist] at ha
    rw [hspan]
    exact (hle j a ha).trans hcur
  · rw [hlimit, hmall, hfirst]
    exact h.malloced

theorem Paged.add (h : s.Paged) (hid : s.Valid id) (ha : a ≠ 0)
    (hapart : ∀ j, ∀ b ∈ (s.slabclass j).slabList,
      Apart a (s.slabclass id).span b (s.slabclass j).span)
    (hlargest : s'.powerLargest = s.powerLargest)
    (hsize : ∀ j, (s'.slabclass j).size = (s.slabclass j).size)
    (hper : ∀ j, (s'.slabclass j).perslab = (s.slabclass j).perslab)
    (hlist : ∀ j, (s'.slabclass j).slabList =
      if j = id then (s.slabclass id).slabList ++ [a] else (s.slabclass j).slabList)
    (hbase : s'.memBase = s.memBase) (hcur : s.memCurrent ≤ s'.memCurrent)
    (hend : s.memBase ≠ 0 → a + (s.slabclass id).span ≤ s'.memCurrent)
    (hlimit : s'.memLimit = s.memLimit)
    (hmall : s'.memMalloced = s.memMalloced + (s.slabclass id).span)
    (hfull : s.memLimit ≠ 0 → (s.slabclass id).slabList ≠ [] →
      s.memMalloced + (s.slabclass id).span ≤ s.memLimit) : s'.Paged := by
  have hspan : ∀ j, (s'.slabclass j).span = (s.slabclass j).span := fun j => by
    rw [SlabClass.span, hsize, hper, SlabClass.span]
  have hmem : ∀ j b, b ∈ (s'.slabclass j).slabList →
      b ∈ (s.slabclass j).slabList ∨ j = id ∧ b = a := by
    intro j b hb
    rw [hlist] at hb
    split_ifs at hb with hj
    · subst hj
      simpa using hb
    · exact .inl hb
  constructor
  · simpa only [Valid, hlargest, hper, hspan] using h.room
  · simpa only [hlargest, hsize] using h.sorted
  · intro j hj
    rw [Valid, hlargest] at hj
    rw [hlist, if_neg (by rintro rfl; exact hj hid)]
    exact h.unused j hj
  · intro j b hb
    obtain hb | ⟨-, rfl⟩ := hmem j b hb
    exacts [h.nonnull j b hb, ha]
  · intro j
    rw [hspan, hlist]
    split_ifs with hj
    · subst hj
      exact pairwise_append.mpr ⟨h.apart j, by simp, fun b hb c hc => by
        rw [mem_singleton.mp hc]
        exact (hapart j b hb).symm⟩
    · exact h.apart j
  · intro i j hij b hb c hc
    rw [hspan, hspan]
    obtain hb | ⟨rfl, rfl⟩ := hmem i b hb <;> obtain hc | ⟨rfl, rfl⟩ := hmem j c hc
    · exact h.across i j hij b hb c hc
    · exact (hapart i b hb).symm
    · exact hapart j c hc
    · exact absurd rfl hij
  · rw [hbase]
    intro hb
    obtain ⟨hne, hle⟩ := h.current hb
    refine ⟨by omega, fun j c hc => ?_⟩
    rw [hspan]
    obtain hc | ⟨rfl, rfl⟩ := hmem j c hc
    · exact (hle j c hc).trans hcur
    · exact hend hb
  · rw [hlimit, hmall]
    intro hl
    have hold := h.malloced hl
    have hat : id ∈ Finset.Icc 1 s.powerLargest := Finset.mem_Icc.mpr hid
    have hrest : ∑ j ∈ (Finset.Icc 1 s.powerLargest).erase id, s'.firstPage j =
        ∑ j ∈ (Finset.Icc 1 s.powerLargest).erase id, s.firstPage j := by
      refine Finset.sum_congr rfl fun j hj => ?_
      rw [firstPage, hlist, if_neg (Finset.ne_of_mem_erase hj), hspan, firstPage]
    have hnew : s'.firstPage id = (s.slabclass id).span := by
      rw [firstPage, hlist, if_pos rfl, if_neg (by simp), hspan]
    have hsum' := Finset.add_sum_erase _ s'.firstPage hat
    have hsum := Finset.add_sum_erase _ s.firstPage hat
    rw [firstPages, hlargest, ← hsum', hrest, hnew]
    rw [firstPages, ← hsum] at hold
    by_cases hnil : (s.slabclass id).slabList = []
    · have hzero : s.firstPage id = 0 := if_pos hnil
      omega
    · have := hfull hl hnil
      omega

@[simp] theorem setClass_self (p : SlabClass) : (s.setClass id p).slabclass id = p :=
  update_self ..

theorem setClass_of_ne (p : SlabClass) {j : ℕ} (hj : j ≠ id) :
    (s.setClass id p).slabclass j = s.slabclass j :=
  update_of_ne hj ..

theorem Paged.setClass (h : s.Paged) {p : SlabClass} (hsize : p.size = (s.slabclass id).size)
    (hper : p.perslab = (s.slabclass id).perslab) (hlist : p.slabList = (s.slabclass id).slabList) :
    (s.setClass id p).Paged := by
  have hat : ∀ {β : Type} (f : SlabClass → β), f p = f (s.slabclass id) →
      ∀ j, f ((s.setClass id p).slabclass j) = f (s.slabclass j) := by
    intro β f hf j
    by_cases hj : j = id
    · rw [hj, setClass_self, hf]
    · rw [setClass_of_ne p hj]
  exact h.congr rfl (hat _ hsize) (hat _ hper) (hat _ hlist) rfl le_rfl rfl rfl

theorem le_align8 (n : ℕ) : n ≤ align8 n := by
  unfold align8
  split_ifs <;> omega

def Fresh (s : Slabs) (len a : ℕ) : Prop :=
  s.memBase = 0 → a ≠ 0 → ∀ j, 1 ≤ j → j ≤ s.powerLargest →
    ∀ b ∈ (s.slabclass j).slabList, Apart a len b (s.slabclass j).pageLen

theorem memoryAllocate_ok (h : s.Paged) {len malloced : ℕ} (hmalloc : s.Fresh len malloced) :
    ∃ cur avail a, s.memoryAllocate len malloced =
        ({ s with memCurrent := cur, memAvail := avail }, a) ∧ s.memCurrent ≤ cur ∧
      (a ≠ 0 → (∀ j, ∀ b ∈ (s.slabclass j).slabList, Apart a len b (s.slabclass j).span) ∧
        (s.memBase ≠ 0 → a + len ≤ cur)) := by
  unfold memoryAllocate
  by_cases hbase : s.memBase = 0
  · rw [if_pos hbase]
    refine ⟨_, _, _, rfl, le_rfl, fun ha => ⟨fun j b hb => ?_, fun hne => absurd hbase hne⟩⟩
    have hj := h.valid hb
    rw [← SlabClass.pageLen_eq (h.room j hj).2.2]
    exact hmalloc hbase ha j hj.1 hj.2 b hb
  rw [if_neg hbase]
  by_cases havail : s.memAvail < len
  · rw [if_pos havail]
    exact ⟨_, _, 0, rfl, le_rfl, fun ha => absurd rfl ha⟩
  · rw [if_neg havail]
    refine ⟨_, _, _, rfl, Nat.le_add_right .., fun _ => ⟨fun j b hb => ?_, fun _ => ?_⟩⟩
    · exact .inr ((h.current hbase).2 j b hb)
    · exact Nat.add_le_add_left (le_align8 len) _

theorem Paged.withPage (h : s.Paged) (hid : s.Valid id) (cur avail : ℕ) (ha : a ≠ 0)
    (hapart : ∀ j, ∀ b ∈ (s.slabclass j).slabList,
      Apart a (s.slabclass id).span b (s.slabclass j).span)
    (hcur : s.memCurrent ≤ cur) (hend : s.memBase ≠ 0 → a + (s.slabclass id).span ≤ cur)
    (hfull : s.memLimit ≠ 0 → (s.slabclass id).slabList ≠ [] →
      s.memMalloced + (s.slabclass id).span ≤ s.memLimit) :
    ({ s with memCurrent := cur, memAvail := avail }.withPage id a (s.slabclass id)).Paged := by
  have hpage := SlabClass.pageLen_eq (h.room id hid).2.2
  refine h.add hid ha hapart rfl (fun j => ?_) (fun j => ?_) (fun j => ?_) rfl hcur hend rfl
    (congrArg (s.memMalloced + ·) hpage) hfull <;>
  · by_cases hj : j = id
    · subst hj
      simp [Slabs.withPage]
    · simp [Slabs.withPage, hj]

theorem doSlabsNewslab_ok (h : s.Paged) (hid : s.Valid id)
    (hlen : (s.slabclass id).slabList.length < 2 ^ 31) {malloced : ℕ}
    (hmalloc : s.Fresh (s.slabclass id).pageLen malloced) (grown : Bool) :
    ∃ s' ok, s.doSlabsNewslab id malloced grown = .ok (s', ok) ∧ s'.Paged ∧
      s'.powerLargest = s.powerLargest ∧ (∀ j ≠ id, s'.slabclass j = s.slabclass j) ∧ ∃ n,
        ok = false ∧ s'.slabclass id = { s.slabclass id with listSize := n } ∨
        ∃ a, ok = true ∧ a ≠ 0 ∧ s'.slabclass id = { s.slabclass id with
          endPagePtr := a
          endPageFree := (s.slabclass id).perslab
          slabList := (s.slabclass id).slabList ++ [a]
          listSize := n } := by
  unfold doSlabsNewslab
  dsimp only
  split_ifs with hfull
  · exact ⟨s, _, rfl, h, rfl, fun _ _ => rfl, (s.slabclass id).listSize, .inl ⟨rfl, rfl⟩⟩
  obtain hgrow | ⟨n, hgrow⟩ := SlabClass.growSlabList_ok hlen grown
  · rw [hgrow]
    exact ⟨s, _, rfl, h, rfl, fun _ _ => rfl, (s.slabclass id).listSize, .inl ⟨rfl, rfl⟩⟩
  rw [hgrow]
  set p := { s.slabclass id with listSize := n } with hp
  have hs1 : (s.setClass id p).Paged := h.setClass rfl rfl rfl
  have hfresh : (s.setClass id p).Fresh p.pageLen malloced := by
    intro hbase ha j hj hj' b hb
    by_cases hne : j = id
    · subst hne
      rw [setClass_self] at hb ⊢
      exact hmalloc hbase ha j hj hj' b hb
    · rw [setClass_of_ne p hne] at hb ⊢
      exact hmalloc hbase ha j hj hj' b hb
  obtain ⟨cur, avail, a, halloc, hcur, ha⟩ := memoryAllocate_ok hs1 hfresh
  simp only [bind, Except.bind, halloc, pure, Except.pure]
  split_ifs with hzero
  · exact ⟨_, _, rfl, hs1.congr rfl (fun _ => rfl) (fun _ => rfl) (fun _ => rfl) rfl hcur rfl rfl,
      rfl, fun j hj => setClass_of_ne p hj, n, .inl ⟨rfl, setClass_self p⟩⟩
  obtain ⟨hapart, hend⟩ := ha hzero
  refine ⟨_, _, rfl, ?_, rfl, fun j hj => ?_, n, .inr ⟨a, rfl, hzero, update_self ..⟩⟩
  · have hspan : p.pageLen = p.span := SlabClass.pageLen_eq (h.room id hid).2.2
    have hnew := hs1.withPage hid cur avail hzero
    rw [setClass_self] at hnew
    rw [hspan] at hapart hend
    refine hnew hapart hcur hend fun hl hne => ?_
    have hcons := length_pos_iff.mpr hne
    exact not_lt.mp fun hlt => hfull ⟨hl, hspan.symm ▸ hlt, hcons⟩
  · exact (update_of_ne hj ..).trans (setClass_of_ne p hj)

end Slabs

/-- The cells of the pages are the chunks that callers hold, the free slots, and the end of the
newest page. -/
structure SlabClass.Holds (p : SlabClass) (held : List Chunk) : Prop where
  chunks : (held.map Chunk.ptr ++ (p.slots ++ p.endPage)).Perm p.chunks
  requested : p.requested = (held.map Chunk.size).sum
  large : ∀ c ∈ held, c.size ≤ p.size
  ends : p.endPagePtr = 0 ↔ p.endPageFree = 0
  free : p.endPageFree ≤ p.perslab

theorem SlabClass.Holds.perm {p : SlabClass} {held held' : List Chunk} (h : p.Holds held)
    (hperm : held'.Perm held) : p.Holds held' where
  chunks := ((hperm.map _).append_right _).trans h.chunks
  requested := by rw [h.requested, (hperm.map Chunk.size).sum_eq]
  large c hc := h.large c (hperm.mem_iff.mp hc)
  ends := h.ends
  free := h.free

namespace SlabHeap

def held (live : List Chunk) (id : ℕ) : List Chunk := live.filter (·.id = id)

structure Inv (h : SlabHeap) : Prop where
  paged : h.slabs.Paged
  own : ∀ c ∈ h.live, h.slabs.Valid c.id
  holds : ∀ id, h.slabs.Valid id → (h.slabs.slabclass id).Holds (held h.live id)

variable {s : Slabs} {live live' : List Chunk} {id : ℕ}

theorem Inv.setClass (h : Inv ⟨s, live⟩) {p : SlabClass} (hsize : p.size = (s.slabclass id).size)
    (hper : p.perslab = (s.slabclass id).perslab) (hlist : p.slabList = (s.slabclass id).slabList)
    (hown : ∀ c ∈ live', s.Valid c.id) (hother : ∀ j ≠ id, (held live' j).Perm (held live j))
    (hat : p.Holds (held live' id)) : Inv ⟨s.setClass id p, live'⟩ where
  paged := h.paged.setClass hsize hper hlist
  own := hown
  holds j hj := by
    by_cases hne : j = id
    · subst hne
      rw [Slabs.setClass_self]
      exact hat
    · rw [Slabs.setClass_of_ne p hne]
      exact (h.holds j hj).perm (hother j hne)

variable {c : Chunk}

theorem held_cons_self : held (c :: live) c.id = c :: held live c.id := by
  simp [held]

theorem held_cons_of_ne (h : id ≠ c.id) : held (c :: live) id = held live id := by
  simp [held, h.symm]

theorem Inv.nonnull (h : Inv ⟨s, live⟩) {a : ℕ} (ha : a ∈ (s.slabclass id).chunks) : a ≠ 0 := by
  obtain ⟨b, hb, hab⟩ := mem_flatMap.mp ha
  have hpos := h.paged.nonnull id b hb
  have hle := (within_of_mem_cells hab).1
  omega

section
variable (h : Inv ⟨s, live⟩) (hid : s.Valid id)
include h hid

theorem take_ok {size : ℕ} (hsize : size ≤ (s.slabclass id).size)
    (hfree : (s.slabclass id).endPagePtr ≠ 0 ∨ (s.slabclass id).slots ≠ []) :
    (s.take size id).2 ≠ 0 ∧ Inv ⟨(s.take size id).1, ⟨(s.take size id).2, size, id⟩ :: live⟩ := by
  have hold : (s.slabclass id).Holds (held live id) := h.holds id hid
  have hchunk : ∀ (ret : ℕ) {p : SlabClass}, p.size = (s.slabclass id).size →
      p.perslab = (s.slabclass id).perslab → p.slabList = (s.slabclass id).slabList →
      p.Holds (⟨ret, size, id⟩ :: held live id) →
      Inv ⟨s.setClass id p, ⟨ret, size, id⟩ :: live⟩ := by
    intro ret p h1 h2 h3 hp
    refine h.setClass h1 h2 h3 ?_ (fun j hj => ?_) ?_
    · exact forall_mem_cons.mpr ⟨hid, h.own⟩
    · rw [held_cons_of_ne hj]
    · rwa [held_cons_self (c := ⟨ret, size, id⟩)]
  unfold Slabs.take
  dsimp only
  split
  next ret slots hslots =>
    have hperm := hold.chunks
    rw [hslots, cons_append] at hperm
    have hret : ret ≠ 0 := h.nonnull (hperm.mem_iff.mp (by simp))
    refine ⟨hret, hchunk ret rfl rfl rfl
      ⟨perm_middle.symm.trans hperm, ?_, ?_, hold.ends, hold.free⟩⟩
    · simp only [if_pos hret, map_cons, sum_cons, hold.requested, add_comm]
    · exact forall_mem_cons.mpr ⟨hsize, hold.large⟩
  next hslots =>
    have hptr : (s.slabclass id).endPagePtr ≠ 0 := hfree.resolve_right (not_not_intro hslots)
    obtain ⟨n, hn⟩ := Nat.exists_eq_succ_of_ne_zero fun hz => hptr (hold.ends.mpr hz)
    have hleft : ((s.slabclass id).endPageFree + (2 ^ 32 - 1)) % 2 ^ 32 = n := by
      have hle := hold.free
      have hper : (s.slabclass id).perslab < 2 ^ 32 := (h.paged.room id hid).2.1
      omega
    have hperm := hold.chunks
    rw [hslots, nil_append, SlabClass.endPage, hn, Nat.succ_eq_add_one, cells_succ] at hperm
    refine ⟨hptr, hchunk _ rfl rfl rfl ⟨?_, ?_, ?_, ?_, ?_⟩⟩
    · simp only [SlabClass.endPage, hleft, hslots, nil_append]
      refine List.Perm.trans ?_ (perm_middle.symm.trans hperm)
      by_cases hz : n = 0
      · simp [hz]
      · rw [if_pos hz]
        rfl
    · simp only [if_pos hptr, map_cons, sum_cons, hold.requested, add_comm]
    · exact forall_mem_cons.mpr ⟨hsize, hold.large⟩
    · simp only [hleft]
      split_ifs with hz <;> simp_all
    · simp only [hleft]
      have := hold.free
      omega

variable {malloced : ℕ}

theorem newslab_inv (hlen : (s.slabclass id).slabList.length < 2 ^ 31)
    (hmalloc : s.Fresh (s.slabclass id).pageLen malloced) (grown : Bool)
    (hptr : (s.slabclass id).endPagePtr = 0) (hslots : (s.slabclass id).slots = []) :
    ∃ s' ok, s.doSlabsNewslab id malloced grown = .ok (s', ok) ∧ Inv ⟨s', live⟩ ∧ s'.Valid id ∧
      (s'.slabclass id).size = (s.slabclass id).size ∧
      (ok = true → (s'.slabclass id).endPagePtr ≠ 0) := by
  obtain ⟨s', ok, hnew, hpaged, hlargest, hother, n, hcase⟩ :=
    Slabs.doSlabsNewslab_ok h.paged hid hlen hmalloc grown
  have hvalid : ∀ j, s'.Valid j ↔ s.Valid j := fun j => by rw [Slabs.Valid, hlargest, Slabs.Valid]
  have hold : (s.slabclass id).Holds (held live id) := h.holds id hid
  have hinv : (s'.slabclass id).Holds (held live id) → Inv ⟨s', live⟩ := by
    refine fun hat => ⟨hpaged, fun c hc => (hvalid _).mpr (h.own c hc), fun j hj => ?_⟩
    by_cases hne : j = id
    · subst hne
      exact hat
    · have hj' := h.holds j ((hvalid j).mp hj)
      dsimp only
      rw [hother j hne]
      exact hj'
  refine ⟨s', ok, hnew, ?_, (hvalid id).mpr hid, ?_⟩
  · refine hinv ?_
    obtain ⟨-, hclass⟩ | ⟨a, -, ha, hclass⟩ := hcase
    · rw [hclass]
      exact ⟨hold.chunks, hold.requested, hold.large, hold.ends, hold.free⟩
    · rw [hclass]
      have hper : 0 < (s.slabclass id).perslab := (h.paged.room id hid).1
      have hperm := hold.chunks
      rw [hslots, SlabClass.endPage, hold.ends.mp hptr, cells_zero, append_nil, append_nil] at hperm
      refine ⟨?_, hold.requested, hold.large, ?_, le_rfl⟩
      · simp only [SlabClass.endPage, SlabClass.chunks, hslots, nil_append,
          flatMap_append, flatMap_singleton]
        exact hperm.append_right _
      · simp only [ha, hper.ne']
  · obtain ⟨rfl, hclass⟩ | ⟨a, rfl, ha, hclass⟩ := hcase
    · rw [hclass]
      exact ⟨rfl, nofun⟩
    · rw [hclass]
      exact ⟨rfl, fun _ => ha⟩

theorem alloc_inv {size : ℕ}
    (hsize : size ≤ (s.slabclass id).size) (hlen : (s.slabclass id).slabList.length < 2 ^ 31)
    (hmalloc : s.Fresh (s.slabclass id).pageLen malloced) (grown : Bool) :
    ∃ s' ret, s.doSlabsAlloc size id malloced grown = .ok (s', ret) ∧
      Inv ⟨s', if ret = 0 then live else ⟨ret, size, id⟩ :: live⟩ := by
  unfold Slabs.doSlabsAlloc
  rw [if_neg (by have := hid.1; have := hid.2; omega)]
  split_ifs with hfree
  · obtain ⟨hne, hinv⟩ := take_ok h hid hsize hfree
    exact ⟨(s.take size id).1, (s.take size id).2, rfl, by rwa [if_neg hne]⟩
  obtain ⟨hptr, hslots⟩ := not_or.mp hfree
  obtain ⟨s', ok, hnew, hinv, hid', hsame, hend⟩ :=
    newslab_inv h hid hlen hmalloc grown (not_not.mp hptr) (not_not.mp hslots)
  rw [hnew]
  cases ok with
  | false => exact ⟨s', 0, rfl, hinv⟩
  | true =>
    obtain ⟨hne, hinv⟩ := take_ok hinv hid' (hsame ▸ hsize) (.inl (hend rfl))
    exact ⟨(s'.take size id).1, (s'.take size id).2, rfl, by rwa [if_neg hne]⟩

end

theorem held_erase (hc : c ∈ live) : (held live c.id).Perm (c :: held (live.erase c) c.id) ∧
      ∀ j ≠ c.id, (held (live.erase c) j).Perm (held live j) := by
  have hperm := perm_cons_erase hc
  constructor
  · rw [← held_cons_self]
    exact hperm.filter _
  · intro j hj
    rw [← held_cons_of_ne hj]
    exact (hperm.filter _).symm

theorem free_inv (h : Inv ⟨s, live⟩) (hc : c ∈ live) {grown : Bool}
    (hgrown : (s.slabclass c.id).slots.length = (s.slabclass c.id).slTotal →
      grown = true ∧ (s.slabclass c.id).slTotal < 2 ^ 30) :
    Inv ⟨s.doSlabsFree c.ptr c.size c.id grown, live.erase c⟩ := by
  have hid : s.Valid c.id := h.own c hc
  obtain ⟨hperm, hother⟩ := held_erase hc
  have hold := (h.holds c.id hid).perm hperm.symm
  have hset : ∀ n, Inv ⟨s.setClass c.id { s.slabclass c.id with
      slots := c.ptr :: (s.slabclass c.id).slots
      slTotal := n
      requested := (s.slabclass c.id).requested - c.size }, live.erase c⟩ := by
    intro n
    refine h.setClass rfl rfl rfl (fun d hd => h.own d (mem_of_mem_erase hd)) hother
      ⟨perm_middle.trans hold.chunks, ?_, fun d hd => hold.large d (.tail c hd),
        hold.ends, hold.free⟩
    have hsum := hold.requested
    rw [map_cons, sum_cons] at hsum
    dsimp only at hsum ⊢
    omega
  unfold Slabs.doSlabsFree
  rw [if_neg (by have := hid.1; have := hid.2; omega)]
  dsimp only
  split_ifs with hfull hnew hsmall hsmall
  · exact hset _
  · obtain ⟨hgrown, hlt⟩ := hgrown hfull
    exact absurd ⟨hgrown, by omega⟩ hsmall
  · exact hset _
  · obtain ⟨hgrown, hlt⟩ := hgrown hfull
    exact absurd ⟨hgrown, by omega⟩ hsmall
  · exact hset _

theorem adjust_inv (h : Inv ⟨s, live⟩) (hc : c ∈ live) {ntotal : ℕ}
    (hfit : ntotal ≤ (s.slabclass c.id).size) :
    ∃ s', s.slabsAdjustMemRequested c.id c.size ntotal = .ok s' ∧
      Inv ⟨s', ⟨c.ptr, ntotal, c.id⟩ :: live.erase c⟩ := by
  have hid : s.Valid c.id := h.own c hc
  obtain ⟨hperm, hother⟩ := held_erase hc
  have hold := (h.holds c.id hid).perm hperm.symm
  unfold Slabs.slabsAdjustMemRequested
  rw [if_neg (by have := hid.1; have := hid.2; omega)]
  refine ⟨_, rfl, h.setClass rfl rfl rfl ?_ (fun j hj => ?_) ?_⟩
  · exact forall_mem_cons.mpr ⟨hid, fun d hd => h.own d (mem_of_mem_erase hd)⟩
  · rw [held_cons_of_ne (c := ⟨c.ptr, ntotal, c.id⟩) hj]
    exact hother j hj
  · rw [held_cons_self (c := ⟨c.ptr, ntotal, c.id⟩)]
    refine ⟨hold.chunks, ?_, ?_, hold.ends, hold.free⟩
    · have hsum := hold.requested
      rw [map_cons, sum_cons] at hsum
      rw [map_cons, sum_cons]
      dsimp only at hsum ⊢
      omega
    · exact forall_mem_cons.mpr ⟨hfit, fun d hd => hold.large d (.tail c hd)⟩

end SlabHeap

namespace Slabs

variable {s : Slabs} {size : ℕ}

theorem clsidFrom_spec : ∀ {left res : ℕ}, res + left = s.powerLargest + 1 → 1 ≤ res →
    (∀ j, 1 ≤ j → j < res → (s.slabclass j).size < size) →
    s.clsidFrom size left res = 0 ∧
        (∀ j, 1 ≤ j → j ≤ s.powerLargest → (s.slabclass j).size < size) ∨
      s.Valid (s.clsidFrom size left res) ∧ size ≤ (s.slabclass (s.clsidFrom size left res)).size ∧
        ∀ j, 1 ≤ j → j < s.clsidFrom size left res → (s.slabclass j).size < size
  | 0, res, hsum, _, hbelow => .inl ⟨rfl, fun j hj hj' => hbelow j hj (by omega)⟩
  | left + 1, res, hsum, hres, hbelow => by
    rw [clsidFrom]
    split_ifs with hlt hlast
    · refine .inl ⟨rfl, fun j hj hj' => ?_⟩
      obtain hj' | rfl := Nat.lt_or_eq_of_le (hlast ▸ hj' : j ≤ res)
      exacts [hbelow j hj hj', hlt]
    · refine clsidFrom_spec (by omega) (by omega) fun j hj hj' => ?_
      obtain hj' | rfl := Nat.lt_or_eq_of_le (Nat.le_of_lt_succ hj')
      exacts [hbelow j hj hj', hlt]
    · exact .inr ⟨⟨hres, by omega⟩, not_lt.mp hlt, hbelow⟩

theorem slabsClsid_spec (hsize : size ≠ 0) :
    s.slabsClsid size = 0 ∧ (∀ j, 1 ≤ j → j ≤ s.powerLargest → (s.slabclass j).size < size) ∨
      s.Valid (s.slabsClsid size) ∧ size ≤ (s.slabclass (s.slabsClsid size)).size ∧
        ∀ j, 1 ≤ j → j < s.slabsClsid size → (s.slabclass j).size < size := by
  rw [slabsClsid, if_neg hsize]
  exact clsidFrom_spec (by omega) le_rfl fun j hj hj' => by omega

theorem slabsClsid_fits (h : s.slabsClsid size ≠ 0) :
    s.Valid (s.slabsClsid size) ∧ size ≤ (s.slabclass (s.slabsClsid size)).size := by
  have hsize : size ≠ 0 := by
    rintro rfl
    exact h rfl
  obtain ⟨hzero, -⟩ | ⟨hid, hle, -⟩ := slabsClsid_spec (s := s) hsize
  exacts [absurd hzero h, ⟨hid, hle⟩]

end Slabs

/-- From `size` on, the chunk sizes are not below the last one, and fit a page. -/
def SlabConfig.Climbs (cfg : SlabConfig) : ℕ → ℕ → ℕ → Prop
  | 0, _, _ => True
  | left + 1, last, size => cfg.fits size = true → last ≤ align8 size ∧
      align8 size ≤ cfg.itemSizeMax ∧ cfg.Climbs left (align8 size) (cfg.times (align8 size))

instance (cfg : SlabConfig) : ∀ left last size, Decidable (cfg.Climbs left last size)
  | 0, _, _ => .isTrue trivial
  | left + 1, last, size => by
    have := instDecidableClimbs cfg left (align8 size) (cfg.times (align8 size))
    unfold SlabConfig.Climbs
    infer_instance

/-- The chunk sizes that `slabs_init` comes to do not shrink, and fit a page that an `int` can
measure. -/
structure SlabConfig.Sane (cfg : SlabConfig) : Prop where
  small : cfg.itemSizeMax < 2 ^ 31
  climbs : cfg.Climbs 199 0 ((cfg.sizeofHashItem + cfg.chunkSize) % 2 ^ 32)

theorem SlabConfig.chunkSizes_ok {cfg : SlabConfig} (hsmall : cfg.itemSizeMax < 2 ^ 31)
    {left last size : ℕ} (hclimbs : cfg.Climbs left last size) {l : List (ℕ × ℕ)}
    (h : cfg.chunkSizes left size = .ok l) :
    l.Pairwise (·.1 ≤ ·.1) ∧ ∀ e ∈ l, last ≤ e.1 ∧ 0 < e.1 ∧ e.1 ≤ cfg.itemSizeMax ∧
      e.2 = cfg.itemSizeMax / e.1 := by
  induction left generalizing last size l with
  | zero =>
    cases h
    exact ⟨.nil, nofun⟩
  | succ left ih =>
    rw [chunkSizes] at h
    dsimp only at h
    split_ifs at h with hfits hzero
    · obtain ⟨hlast, hround, hclimbs⟩ := hclimbs hfits
      have hmod : align8 size % 2 ^ 32 = align8 size := Nat.mod_eq_of_lt (by omega)
      simp only [hmod] at h hzero
      obtain ⟨rest, hrest, hl⟩ := bind_eq_ok.mp h
      cases hl
      obtain ⟨hsorted, hall⟩ := ih hclimbs hrest
      have hdiv : cfg.itemSizeMax / align8 size % 2 ^ 32 = cfg.itemSizeMax / align8 size :=
        Nat.mod_eq_of_lt (lt_of_le_of_lt (Nat.div_le_self _ _) (by omega))
      refine ⟨.cons (fun e he => (hall e he).1) hsorted, forall_mem_cons.mpr
        ⟨⟨hlast, Nat.pos_of_ne_zero hzero, hround, hdiv⟩, fun e he => ?_⟩⟩
      exact ⟨hlast.trans (hall e he).1, (hall e he).2⟩
    · cases h
      exact ⟨.nil, nofun⟩

namespace SlabHeap

structure Sound (h : SlabHeap) : Prop where
  disjoint : h.live.Pairwise fun c d =>
    Apart c.ptr (h.slabs.slabclass c.id).size d.ptr (h.slabs.slabclass d.id).size
  inPage : ∀ c ∈ h.live, ∃ a ∈ (h.slabs.slabclass c.id).slabList,
    a ≤ c.ptr ∧ c.ptr + (h.slabs.slabclass c.id).size ≤ a + (h.slabs.slabclass c.id).span
  large : ∀ c ∈ h.live, c.size ≤ (h.slabs.slabclass c.id).size
  smallest : ∀ size ≠ 0,
    h.slabs.slabsClsid size = 0 ∧ (∀ j, h.slabs.Valid j → (h.slabs.slabclass j).size < size) ∨
    h.slabs.Valid (h.slabs.slabsClsid size) ∧
      size ≤ (h.slabs.slabclass (h.slabs.slabsClsid size)).size ∧
      ∀ j, h.slabs.Valid j → size ≤ (h.slabs.slabclass j).size → h.slabs.slabsClsid size ≤ j ∧
        (h.slabs.slabclass (h.slabs.slabsClsid size)).size ≤ (h.slabs.slabclass j).size
  counted : ∀ id, h.slabs.Valid id →
    (h.slabs.slabclass id).slabList.length * (h.slabs.slabclass id).perslab =
      (held h.live id).length + (h.slabs.slabclass id).slots.length +
        (h.slabs.slabclass id).endPageFree
  requested : ∀ id, h.slabs.Valid id →
    (h.slabs.slabclass id).requested = ((held h.live id).map Chunk.size).sum
  limited : h.slabs.memLimit ≠ 0 → h.slabs.memMalloced ≤ h.slabs.memLimit + h.slabs.firstPages

variable {h : SlabHeap}

theorem mem_held {c : Chunk} {live : List Chunk} (hc : c ∈ live) : c ∈ held live c.id :=
  mem_filter.mpr ⟨hc, by simp⟩

theorem Inv.inPage (hinv : Inv h) {c : Chunk} (hc : c ∈ h.live) :
    ∃ a ∈ (h.slabs.slabclass c.id).slabList,
      a ≤ c.ptr ∧ c.ptr + (h.slabs.slabclass c.id).size ≤ a + (h.slabs.slabclass c.id).span := by
  have hptr : c.ptr ∈ (h.slabs.slabclass c.id).chunks :=
    (hinv.holds c.id (hinv.own c hc)).chunks.subset
      (mem_append_left _ (mem_map_of_mem (mem_held hc)))
  obtain ⟨a, ha, hin⟩ := mem_flatMap.mp hptr
  exact ⟨a, ha, within_of_mem_cells hin⟩

theorem Inv.disjoint (hinv : Inv h) : h.live.Pairwise fun c d =>
    Apart c.ptr (h.slabs.slabclass c.id).size d.ptr (h.slabs.slabclass d.id).size := by
  refine pairwise_of_filter Chunk.id (fun id => ?_) fun c hc d hd hne => ?_
  · by_cases hid : h.slabs.Valid id
    · -- The chunks of one class are cells of its pages.
      have hcells : (h.slabs.slabclass id).chunks.Pairwise (Apart · (h.slabs.slabclass id).size ·
          (h.slabs.slabclass id).size) := pairwise_flatMap_cells (hinv.paged.apart id)
      have hall := (hinv.holds id hid).chunks.symm.pairwise hcells fun h => h.symm
      have hheld := (pairwise_append.mp hall).1
      rw [pairwise_map] at hheld
      refine hheld.imp_of_mem fun hc hd hcd => ?_
      rwa [of_decide_eq_true (mem_filter.mp hc).2, of_decide_eq_true (mem_filter.mp hd).2]
    · have hnil : h.live.filter (·.id = id) = [] := by
        refine filter_eq_nil_iff.mpr fun c hc hcid => hid ?_
        rw [← of_decide_eq_true hcid]
        exact hinv.own c hc
      rw [hnil]
      exact .nil
  · obtain ⟨a, ha, hca⟩ := hinv.inPage hc
    obtain ⟨b, hb, hdb⟩ := hinv.inPage hd
    exact (hinv.paged.across c.id d.id hne a ha b hb).within hca hdb

theorem Inv.sound (hinv : Inv h) : Sound h where
  disjoint := hinv.disjoint
  inPage _ := hinv.inPage
  large c hc := (hinv.holds c.id (hinv.own c hc)).large c (mem_held hc)
  smallest size hsize := by
    refine (Slabs.slabsClsid_spec hsize).imp (fun ⟨h0, hall⟩ => ⟨h0, fun j hj => hall j hj.1 hj.2⟩)
      fun ⟨hid, hle, hbelow⟩ => ⟨hid, hle, fun j hj hfit => ?_⟩
    have hge : h.slabs.slabsClsid size ≤ j := by
      by_contra hlt
      exact absurd (hbelow j hj.1 (not_le.mp hlt)) (not_lt.mpr hfit)
    exact ⟨hge, hinv.paged.sorted _ j hid.1 hge hj.2⟩
  counted id hid := by
    have hlen := (hinv.holds id hid).chunks.length_eq
    simp only [length_append, length_map, SlabClass.endPage, SlabClass.chunks,
      length_flatMap, length_cells, map_const', sum_replicate, smul_eq_mul] at hlen
    omega
  requested id hid := (hinv.holds id hid).requested
  limited := hinv.paged.malloced

theorem step_inv (hinv : Inv h) {call : SlabCall} (hcall : h.Allowed call) :
    ∃ h' ret, h.step call = .ok (h', ret) ∧ Inv h' := by
  obtain ⟨s, live⟩ := h
  cases call with
  | alloc size malloced grown =>
    rw [step]
    dsimp only
    split_ifs with hzero
    · exact ⟨_, _, rfl, hinv⟩
    obtain ⟨hid, hsize⟩ := Slabs.slabsClsid_fits hzero
    obtain ⟨s', ret, halloc, hinv'⟩ := alloc_inv hinv hid hsize hcall.1 hcall.2 grown
    rw [halloc]
    simp only [bind, Except.bind, pure, Except.pure]
    split_ifs with hret
    · rw [if_pos hret] at hinv'
      exact ⟨_, _, rfl, hinv'⟩
    · rw [if_neg hret] at hinv'
      exact ⟨_, _, rfl, hinv'⟩
  | free c grown => exact ⟨_, _, rfl, free_inv hinv hcall.1 hcall.2⟩
  | adjust c ntotal =>
    obtain ⟨hc, hcls⟩ := hcall
    have hne : s.slabsClsid ntotal ≠ 0 := hcls ▸ Nat.ne_of_gt (hinv.own c hc).1
    obtain ⟨s', hadj, hinv'⟩ := adjust_inv hinv hc (hcls ▸ (Slabs.slabsClsid_fits hne).2)
    refine ⟨_, c.ptr, ?_, hinv'⟩
    rw [step]
    dsimp only
    rw [hadj]
    rfl

theorem init_inv {cfg : SlabConfig} (hcfg : cfg.Sane) {limit block : ℕ} {prealloc : Bool} {s : Slabs}
    (hinit : Slabs.slabsInit cfg limit prealloc block = .ok s) : Inv ⟨s, []⟩ := by
  unfold Slabs.slabsInit at hinit
  split at hinit
  · cases hinit
  obtain ⟨sizes, hsizes, hs⟩ := bind_eq_ok.mp hinit
  cases hs
  have hsmall := hcfg.small
  obtain ⟨hsorted, hall⟩ := SlabConfig.chunkSizes_ok hsmall hcfg.climbs hsizes
  rw [Nat.mod_eq_of_lt (by omega : cfg.itemSizeMax < 2 ^ 32)]
  set all := sizes ++ [(cfg.itemSizeMax, 1)] with hdef
  have hlen : all.length = sizes.length + 1 := by simp [hdef]
  have hclass : ∀ id, 1 ≤ id → id ≤ sizes.length + 1 →
      ∃ hlt : id - 1 < all.length, ((0, 0) :: all).getD id (0, 0) = all[id - 1] := by
    intro id hid hid'
    obtain ⟨i, rfl⟩ := Nat.exists_eq_succ_of_ne_zero (Nat.ne_of_gt hid)
    exact ⟨by omega, by simp [List.getD, hlen, hid']⟩
  have hroom : ∀ e ∈ all, 0 < e.2 ∧ e.2 < 2 ^ 32 ∧ e.2 * e.1 < 2 ^ 31 := by
    intro e he
    obtain he | he := mem_append.mp he
    · obtain ⟨-, hpos, hle, hper⟩ := hall e he
      have hdiv := Nat.div_mul_le_self cfg.itemSizeMax e.1
      have hself := Nat.div_le_self cfg.itemSizeMax e.1
      have hone := Nat.div_pos hle hpos
      rw [hper]
      omega
    · rw [mem_singleton.mp he]
      omega
  have hpair : all.Pairwise (·.1 ≤ ·.1) :=
    pairwise_append.mpr ⟨hsorted, by simp, fun e he f hf => by
      rw [mem_singleton.mp hf]
      exact (hall e he).2.2.1⟩
  refine ⟨⟨?_, ?_, fun _ _ => rfl, nofun, fun _ => .nil, nofun, ?_, fun _ => Nat.zero_le _⟩, nofun,
    fun id _ => ⟨.refl _, rfl, nofun, Iff.rfl, Nat.zero_le _⟩⟩
  · rintro id ⟨hid, hid'⟩
    obtain ⟨hlt, hget⟩ := hclass id hid hid'
    have hr := hroom _ (getElem_mem hlt)
    simpa only [SlabClass.span, hget] using hr
  · intro i j hi hij hj
    obtain ⟨hlt, hget⟩ := hclass i hi (hij.trans hj)
    obtain ⟨hlt', hget'⟩ := hclass j (hi.trans hij) hj
    simp only [hget, hget']
    obtain hij | rfl := Nat.lt_or_eq_of_le hij
    · exact pairwise_iff_getElem.mp hpair _ _ hlt hlt' (by omega)
    · exact le_rfl
  · exact fun hbase => ⟨hbase, nofun⟩

/-- Whatever is allocated, freed and reused, the allocator keeps its promises. -/
theorem slabs_sound (cfg : SlabConfig) (hcfg : cfg.Sane) (limit block : ℕ) (prealloc : Bool)
    (s : Slabs) (hinit : Slabs.slabsInit cfg limit prealloc block = .ok s) (calls : List SlabCall)
    (hcalls : Along step Allowed ⟨s, []⟩ calls) :
    ∃ h rets, run step ⟨s, []⟩ calls = .ok (h, rets) ∧ Sound h := by
  obtain ⟨h, rets, hrun, hinv⟩ := run_total
    (fun _ _ hinv hcall => step_inv hinv hcall) (init_inv hcfg hinit) hcalls
  exact ⟨h, rets, hrun, hinv.sound⟩

/-- Pages of 1024 bytes, and a factor of 5/4. -/
def quarterSteps : SlabConfig := ⟨48, 48, 1024, fun size => size * 5 ≤ 4 * 1024, (· * 5 / 4)⟩

/-- Two chunks from a block at 64, one that is freed and one that is reused. -/
theorem slabs_sound_quarterSteps : ∃ s h rets, Slabs.slabsInit quarterSteps 4096 true 64 = .ok s ∧
      run step ⟨s, []⟩ [.alloc 90 0 true, .alloc 100 0 true, .free ⟨64, 90, 1⟩ true,
        .adjust ⟨1024, 100, 2⟩ 110] = .ok (h, rets) ∧ Sound h := by
  obtain ⟨s, hs⟩ : ∃ s, Slabs.slabsInit quarterSteps 4096 true 64 = .ok s := ⟨_, rfl⟩
  obtain ⟨h, rets, hrun, hsound⟩ := slabs_sound quarterSteps ⟨by decide, by decide⟩ 4096 64 true s hs
    [.alloc 90 0 true, .alloc 100 0 true, .free ⟨64, 90, 1⟩ true, .adjust ⟨1024, 100, 2⟩ 110] (by
      cases hs
      refine .cons rfl ⟨by decide, fun h => absurd h (by decide)⟩ ?_
      refine .cons rfl ⟨by decide, fun h => absurd h (by decide)⟩ ?_
      refine .cons rfl ⟨by decide, by decide⟩ ?_
      exact .cons rfl ⟨by decide, by decide⟩ trivial)
  exact ⟨s, h, rets, hs, hrun, hsound⟩

/-- Pages of 103 bytes, and a factor of 1.02: 98 bytes are rounded up to 104. -/
def overRounded : SlabConfig := ⟨48, 50, 103, fun size => size * 102 ≤ 100 * 103, (· * 102 / 100)⟩

/-- No chunk fits a page, and the number of those left wraps around. -/
theorem chunk_larger_than_page : ∃ s h rets, Slabs.slabsInit overRounded 0 false 0 = .ok s ∧
      Along step Allowed ⟨s, []⟩ [.alloc 90 4096 true] ∧
      run step ⟨s, []⟩ [.alloc 90 4096 true] = .ok (h, rets) ∧
      h.live = [⟨4096, 90, 1⟩] ∧ (h.slabs.slabclass 1).perslab = 0 ∧
      (h.slabs.slabclass 1).endPageFree = 2 ^ 32 - 1 ∧ ¬Sound h := by
  refine ⟨_, _, _, rfl, .cons rfl ⟨by decide, ?_⟩ trivial, rfl, rfl, rfl, rfl, fun hsound => ?_⟩
  · intro _ _ j hj hj' a ha
    cases ha
  · have hcount := hsound.counted 1 ⟨le_rfl, by decide⟩
    exact absurd hcount (by decide)

end SlabHeap

end Appstack.Memcached
