import Appstack.Lib.DoublyLinked
import Appstack.Lib.Machine

-- The LRU lists of `items.c`. All calls hold the lock of the cache, so what is interleaved are whole
-- calls. Here a walk is cut further, into the rounds of its loop.

namespace Appstack.Memcached

open Lib.DoublyLinked Function List Lib.Machine

/-- The fields of the items and cursors by their address, and the lists of the classes. -/
structure Lru where
  next : ℕ → Option ℕ
  prev : ℕ → Option ℕ
  clsid : ℕ → ℕ
  /-- `ITEM_LINKED` -/
  linked : ℕ → Bool
  heads : ℕ → Option ℕ
  tails : ℕ → Option ℕ
  sizes : ℕ → BitVec 32

inductive LruFault
  | nullPointer
  deriving DecidableEq, Repr

namespace Lru

def itemLinkQ (s : Lru) (it : ℕ) : Lru :=
  let cls := s.clsid it
  { s with
    prev := put (update s.prev it none) (s.heads cls) (some it)
    next := update s.next it (s.heads cls)
    heads := update s.heads cls (some it)
    tails := update s.tails cls ((s.tails cls).or (some it))
    sizes := update s.sizes cls (s.sizes cls + 1) }

def itemUnlinkQ (s : Lru) (it : ℕ) : Lru :=
  let cls := s.clsid it
  { s with
    heads := update s.heads cls (if s.heads cls = some it then s.next it else s.heads cls)
    tails := update s.tails cls (if s.tails cls = some it then s.prev it else s.tails cls)
    prev := put s.prev (s.next it) (s.prev it)
    next := put s.next (s.prev it) (s.next it)
    sizes := update s.sizes cls (s.sizes cls - 1) }

def doItemLink (s : Lru) (it cls : ℕ) : Lru :=
  { s with
    clsid := update s.clsid it cls
    linked := update s.linked it true }.itemLinkQ it

def doItemUnlink (s : Lru) (it : ℕ) : Lru :=
  if s.linked it then { s with linked := update s.linked it false }.itemUnlinkQ it else s

/-- `do_item_update`, once the item is old enough. -/
def doItemUpdate (s : Lru) (it : ℕ) : Lru :=
  if s.linked it then (s.itemUnlinkQ it).itemLinkQ it else s

def doItemLinkCursor (s : Lru) (cursor cls : ℕ) : Except LruFault Lru :=
  match s.tails cls with
  | none => .error .nullPointer
  | some _ => .ok { s with
    clsid := update s.clsid cursor cls
    next := put (update s.next cursor none) (s.tails cls) (some cursor)
    prev := update s.prev cursor (s.tails cls)
    tails := update s.tails cls (some cursor)
    sizes := update s.sizes cls (s.sizes cls + 1) }

/-- The cursor in front of `ptr`. The element count is not changed. -/
def resplice (s : Lru) (cursor ptr : ℕ) : Except LruFault Lru :=
  match s.prev ptr with
  | none => .error .nullPointer
  | some before => .ok { s with
    next := update (update s.next cursor (some ptr)) before (some cursor)
    prev := update (update s.prev cursor (some before)) ptr (some cursor) }

/-- A round of the loop of `do_item_walk_cursor`: the element that the cursor goes past, if any, and
whether the walk goes on. -/
def walkRound (s : Lru) (cursor : ℕ) : Except LruFault (Lru × Option ℕ × Bool) :=
  match s.prev cursor with
  | none => .ok (s, none, false)
  | some ptr =>
    let s := s.itemUnlinkQ cursor
    if s.heads (s.clsid cursor) = some ptr then
      .ok ({ s with prev := update s.prev cursor none }, some ptr, false)
    else do
      let s ← s.resplice cursor ptr
      return (s, some ptr, true)

end Lru

/-- The lists, the cursors that are on a walk, and how often one was put back into the list of a
class. -/
structure Walks where
  lru : Lru
  walking : ℕ → Bool
  moves : ℕ → BitVec 32

inductive LruCall
  | link (it cls : ℕ)
  | unlink (it : ℕ)
  | update (it : ℕ)
  | linkCursor (cursor cls : ℕ)
  | walk (cursor : ℕ)
  deriving DecidableEq, Repr

/-- Whom a call links, moves or removes. -/
def LruCall.subject : LruCall → ℕ
  | .link x _ | .unlink x | .update x | .linkCursor x _ | .walk x => x

namespace Walks

variable (isCursor : ℕ → Bool)

def afterRound (s : Walks) (c : ℕ) (lru : Lru) (more : Bool) : Walks where
  lru := lru
  walking := update s.walking c more
  moves := if more then
    update s.moves (s.lru.clsid c) (s.moves (s.lru.clsid c) + 1) else s.moves

/-- A call, with the item that the callback of a walk gets. Evictions and flushes are unlinks. -/
def step (s : Walks) : LruCall → Except LruFault (Walks × Option (ℕ × ℕ))
  | .link it cls => .ok ({ s with lru := s.lru.doItemLink it cls }, none)
  | .unlink it => .ok ({ s with lru := s.lru.doItemUnlink it }, none)
  | .update it => .ok ({ s with lru := s.lru.doItemUpdate it }, none)
  | .linkCursor c cls =>
    if s.lru.heads cls = none then .ok (s, none)
    else do
      let lru ← s.lru.doItemLinkCursor c cls
      return ({ s with lru := lru, walking := update s.walking c true }, none)
  | .walk c => do
    let r ← s.lru.walkRound c
    return (s.afterRound c r.1 r.2.2, (r.2.1.filter fun ptr => !isCursor ptr).map (c, ·))

/-- Items are linked when they are not, cursors when their walk is over, and no walk goes on with
its cursor at the head of a list. -/
def Allowed (s : Walks) : LruCall → Prop
  | .link it _ => isCursor it = false ∧ s.lru.linked it = false
  | .unlink it | .update it => isCursor it = false
  | .linkCursor c _ => isCursor c = true ∧ s.walking c = false
  | .walk c => isCursor c = true ∧ (s.walking c = true → s.lru.heads (s.lru.clsid c) ≠ some c)

/-- A walk goes past no element but the head. -/
def Steady (s : Walks) : LruCall → Prop
  | .walk c => s.lru.prev c = s.lru.heads (s.lru.clsid c)
  | _ => True

/-- Who belongs into the list of a class. -/
def Member (s : Walks) (cls x : ℕ) : Prop :=
  s.lru.clsid x = cls ∧ (if isCursor x then s.walking x else s.lru.linked x) = true

structure Empty (s : Walks) : Prop where
  heads : ∀ cls, s.lru.heads cls = none
  tails : ∀ cls, s.lru.tails cls = none
  sizes : ∀ cls, s.lru.sizes cls = 0
  linked : ∀ x, s.lru.linked x = false
  prev : ∀ x, s.lru.prev x = none
  walking : ∀ x, s.walking x = false
  moves : ∀ cls, s.moves cls = 0

end Walks

namespace Lru

structure Lists (s : Lru) (lists : ℕ → List ℕ) : Prop where
  linked : ∀ cls, Linked s.next s.prev (s.heads cls) (s.tails cls) (lists cls)
  home : ∀ cls, ∀ x ∈ lists cls, s.clsid x = cls

variable {s s' : Lru} {lists : ℕ → List ℕ} {cls x : ℕ}

section
variable {y : ℕ} (h : s.Lists lists)
include h

theorem Lists.not_mem {j : ℕ} (hj : j ≠ cls) (hy : y ∈ lists j) :
    y ∉ lists cls := fun hy' => hj ((h.home j y hy).symm.trans (h.home cls y hy'))

theorem Lists.set {l : List ℕ} (hnew : Linked s'.next s'.prev (s'.heads cls) (s'.tails cls) l)
    (hhome : ∀ x ∈ l, s'.clsid x = cls)
    (hheads : ∀ j ≠ cls, s'.heads j = s.heads j) (htails : ∀ j ≠ cls, s'.tails j = s.tails j)
    (hother : ∀ j ≠ cls, ∀ y ∈ lists j,
      s'.next y = s.next y ∧ s'.prev y = s.prev y ∧ s'.clsid y = s.clsid y) :
    s'.Lists (update lists cls l) where
  linked j := by
    by_cases hj : j = cls
    · subst hj
      rwa [update_self]
    · rw [update_of_ne hj, hheads j hj, htails j hj]
      exact (h.linked j).congr (fun y hy => (hother j hj y hy).1) fun y hy => (hother j hj y hy).2.1
  home j x hx := by
    by_cases hj : j = cls
    · subst hj
      rw [update_self] at hx
      exact hhome x hx
    · rw [update_of_ne hj] at hx
      rw [(hother j hj x hx).2.2, h.home j x hx]

theorem Lists.itemLinkQ (hx : ∀ j, x ∉ lists j) :
    (s.itemLinkQ x).Lists (update lists (s.clsid x) (x :: lists (s.clsid x))) := by
  have hl := h.linked (s.clsid x)
  have hins := Linked.insert (p := []) hl (hx (s.clsid x))
  refine h.set ?_ ?_ (fun j hj => update_of_ne hj ..)
    (fun j hj => update_of_ne hj ..) fun j hj y hy => ?_
  · simp only [Lru.itemLinkQ, update_self]
    rw [hl.head, hl.tail]
    exact hins
  · exact forall_mem_cons.mpr ⟨rfl, fun y hy => h.home _ y hy⟩
  · have hne : y ≠ x := ne_of_mem_of_not_mem hy (hx j)
    refine ⟨update_of_ne hne .., ?_, rfl⟩
    refine (put_of_ne fun hhead => ?_).trans (update_of_ne hne ..)
    rw [hl.head] at hhead
    exact h.not_mem hj hy (mem_of_mem_head? hhead)

theorem Lists.itemUnlinkQ {p q : List ℕ} (hl : lists (s.clsid x) = p ++ x :: q) :
    (s.itemUnlinkQ x).Lists (update lists (s.clsid x) (p ++ q)) := by
  have hlinked := h.linked (s.clsid x)
  rw [hl] at hlinked
  obtain ⟨hprev, hnext⟩ := hlinked.around
  have hmem : ∀ y ∈ p ++ q, y ∈ lists (s.clsid x) := fun y hy => by
    rw [hl]
    exact (sublist_cons_self x q).append_left p |>.subset hy
  refine h.set ?_ (fun y hy => h.home _ y (hmem y hy)) (fun j hj => update_of_ne hj ..)
    (fun j hj => update_of_ne hj ..) fun j hj y hy => ⟨?_, ?_, rfl⟩
  · simp only [Lru.itemUnlinkQ, update_self, hprev, hnext]
    exact hlinked.remove
  · refine put_of_ne fun hlast => h.not_mem hj hy (hmem y (mem_append_left _ ?_))
    exact mem_of_getLast? (hprev ▸ hlast)
  · refine put_of_ne fun hhead => h.not_mem hj hy (hmem y (mem_append_right _ ?_))
    exact mem_of_mem_head? (hnext ▸ hhead)

theorem Lists.clsid (hx : ∀ j, x ∉ lists j) (cls : ℕ) (linked : ℕ → Bool) :
    { s with clsid := update s.clsid x cls, linked := linked }.Lists lists where
  linked := h.linked
  home j y hy := (update_of_ne (ne_of_mem_of_not_mem hy (hx j)) ..).trans (h.home j y hy)

theorem Lists.prev_itemLinkQ (hyx : y ≠ x)
    (hy : y ∉ lists (s.clsid x)) : (s.itemLinkQ x).prev y = s.prev y := by
  refine (put_of_ne fun hhead => ?_).trans (update_of_ne hyx ..)
  rw [(h.linked _).head] at hhead
  exact hy (mem_of_mem_head? hhead)

theorem Lists.prev_itemUnlinkQ (hx : x ∈ lists (s.clsid x))
    (hy : y ∉ lists (s.clsid x)) : (s.itemUnlinkQ x).prev y = s.prev y := by
  obtain ⟨p, q, hl⟩ := append_of_mem hx
  refine put_of_ne fun hh => hy ?_
  have hlinked := h.linked (s.clsid x)
  rw [hl] at hlinked ⊢
  rw [hlinked.around.2] at hh
  exact mem_append_right _ (.tail _ (mem_of_mem_head? hh))

end

@[simp] theorem clsid_itemLinkQ : (s.itemLinkQ x).clsid = s.clsid := rfl

@[simp] theorem linked_itemLinkQ : (s.itemLinkQ x).linked = s.linked := rfl

@[simp] theorem clsid_itemUnlinkQ : (s.itemUnlinkQ x).clsid = s.clsid := rfl

@[simp] theorem linked_itemUnlinkQ : (s.itemUnlinkQ x).linked = s.linked := rfl

@[simp] theorem clsid_doItemLink : (s.doItemLink x cls).clsid = update s.clsid x cls := rfl

@[simp] theorem linked_doItemLink : (s.doItemLink x cls).linked = update s.linked x true :=
  rfl

theorem sizes_doItemLink : (s.doItemLink x cls).sizes = update s.sizes cls (s.sizes cls + 1) := by
  simp [doItemLink, Lru.itemLinkQ]

section
variable (h : s.Lists lists)
include h

theorem Lists.doItemLink (hx : ∀ j, x ∉ lists j) :
    (s.doItemLink x cls).Lists (update lists cls (x :: lists cls)) := by
  have hlink := (h.clsid hx cls (update s.linked x true)).itemLinkQ hx
  simp only [update_self] at hlink
  exact hlink

theorem Lists.prev_doItemLink (hx : ∀ j, x ∉ lists j) {y : ℕ} (hyx : y ≠ x)
    (hy : y ∉ lists cls) : (s.doItemLink x cls).prev y = s.prev y := by
  refine (h.clsid hx cls (update s.linked x true)).prev_itemLinkQ hyx ?_
  simp only [update_self]
  exact hy

variable {p q : List ℕ}

theorem Lists.doItemUnlink (hlinked : s.linked x = true) (hl : lists (s.clsid x) = p ++ x :: q) :
    (s.doItemUnlink x).Lists (update lists (s.clsid x) (p ++ q)) := by
  rw [Lru.doItemUnlink, if_pos hlinked]
  exact Lists.itemUnlinkQ (s := { s with linked := update s.linked x false })
    ⟨h.linked, h.home⟩ hl

theorem Lists.doItemUpdate (hlinked : s.linked x = true) (hl : lists (s.clsid x) = p ++ x :: q) :
    (s.doItemUpdate x).Lists (update lists (s.clsid x) (x :: (p ++ q))) := by
  have hx : ∀ j, x ∉ update lists (s.clsid x) (p ++ q) j := by
    intro j
    by_cases hj : j = s.clsid x
    · rw [hj, update_self]
      have hnodup := (h.linked (s.clsid x)).nodup
      rw [hl, nodup_middle] at hnodup
      exact (nodup_cons.mp hnodup).1
    · rw [update_of_ne hj]
      exact fun hxj => hj (h.home j x hxj).symm
  have hlink := (h.itemUnlinkQ hl).itemLinkQ hx
  rw [clsid_itemUnlinkQ, update_self, update_idem] at hlink
  rwa [Lru.doItemUpdate, if_pos hlinked]

theorem Lists.doItemLinkCursor (hx : ∀ j, x ∉ lists j) (hne : s.heads cls ≠ none) :
    ∃ s', s.doItemLinkCursor x cls = .ok s' ∧ s'.Lists (update lists cls (lists cls ++ [x])) ∧
      s'.clsid = update s.clsid x cls ∧ s'.linked = s.linked ∧
      s'.sizes = update s.sizes cls (s.sizes cls + 1) ∧
      (∀ y ≠ x, s'.prev y = s.prev y) := by
  have hl := h.linked cls
  obtain ⟨t, ht⟩ : ∃ t, s.tails cls = some t := by
    rw [← Option.ne_none_iff_exists', hl.tail, ne_eq, List.getLast?_eq_none_iff]
    rwa [hl.head, ne_eq, List.head?_eq_none_iff] at hne
  have hlnil : lists cls ++ [] = lists cls := append_nil _
  have hins := Linked.insert (x := x) (q := []) (hlnil.symm ▸ hl) (hlnil.symm ▸ hx cls)
  unfold Lru.doItemLinkCursor
  rw [ht]
  refine ⟨_, rfl, h.set ?_ ?_ (fun _ _ => rfl) (fun j hj => update_of_ne hj ..)
    fun j hj y hy => ?_, rfl, rfl, rfl, fun y hy => update_of_ne hy ..⟩
  · simp only [update_self]
    rw [← ht, hl.tail, hl.head]
    have hhead : (lists cls).head?.or (some x) = (lists cls).head? := by
      rw [hl.head] at hne
      cases hh : (lists cls).head? with
      | none => exact absurd hh hne
      | some y => rfl
    rw [hhead] at hins
    exact hins
  · intro y hy
    obtain hy | hy := mem_append.mp hy
    · exact (update_of_ne (ne_of_mem_of_not_mem hy (hx cls)) ..).trans (h.home cls y hy)
    · rw [mem_singleton.mp hy]
      exact update_self ..
  · have hyx : y ≠ x := ne_of_mem_of_not_mem hy (hx j)
    refine ⟨?_, update_of_ne hyx .., update_of_ne hyx ..⟩
    refine (put_of_ne (f := update s.next x none) (i := some t) fun hlast => ?_).trans
      (update_of_ne hyx ..)
    rw [← ht, hl.tail] at hlast
    exact h.not_mem hj hy (mem_of_getLast? hlast)

theorem Lists.prev (hx : ∀ j, x ∉ lists j) (v : Option ℕ) :
    { s with prev := update s.prev x v }.Lists lists where
  linked j := (h.linked j).congr (fun _ _ => rfl) fun _ hy =>
    update_of_ne (ne_of_mem_of_not_mem hy (hx j)) ..
  home := h.home

theorem Lists.resplice {ptr c : ℕ} (hcls : s.clsid c = cls)
    (hl : lists cls = p ++ ptr :: q) (hp : p ≠ []) (hc : ∀ j, c ∉ lists j) :
    ∃ s', s.resplice c ptr = .ok s' ∧ s'.Lists (update lists cls (p ++ c :: ptr :: q)) ∧
      s'.clsid = s.clsid ∧ s'.linked = s.linked ∧ s'.sizes = s.sizes ∧
      (∀ y, y ≠ c → y ≠ ptr → s'.prev y = s.prev y) := by
  have hlinked := h.linked cls
  rw [hl] at hlinked
  obtain ⟨b, hb⟩ : ∃ b, p.getLast? = some b := ⟨_, List.getLast?_eq_some_getLast hp⟩
  have hbefore : s.prev ptr = some b := hlinked.around.1.trans hb
  have hins := hlinked.insert (hl ▸ hc cls)
  have hmem : ∀ y ∈ p ++ ptr :: q, y ∈ lists cls := fun y hy => hl ▸ hy
  rw [hb] at hins
  unfold Lru.resplice
  rw [hbefore]
  refine ⟨_, rfl, h.set ?_ (fun y hy => ?_) (fun _ _ => rfl) (fun _ _ => rfl) fun j hj y hy => ?_,
    rfl, rfl, rfl, fun y hyc hyp => ?_⟩
  · have hhead : s.heads cls = p.head?.or (some c) := by
      rw [hlinked.head]
      cases p with
      | nil => exact absurd rfl hp
      | cons y p => rfl
    have htail : s.tails cls = (ptr :: q).getLast?.or (some c) := by
      rw [hlinked.tail, List.getLast?_append, List.getLast?_cons]
      rfl
    rw [hhead, htail]
    exact hins
  · obtain hy | hy := mem_append.mp hy
    · exact h.home cls y (hmem y (mem_append_left _ hy))
    obtain rfl | hy := mem_cons.mp hy
    · exact hcls
    · exact h.home cls y (hmem y (mem_append_right _ hy))
  · have hyc : y ≠ c := ne_of_mem_of_not_mem hy (hc j)
    have hyl : ∀ z ∈ p ++ ptr :: q, y ≠ z := fun z hz hyz => h.not_mem hj hy (hmem y (hyz ▸ hz))
    have hyb := hyl b (mem_append_left _ (mem_of_getLast? hb))
    have hyp := hyl ptr (mem_append_right _ (.head _))
    exact ⟨(update_of_ne hyb ..).trans (update_of_ne hyc ..),
      (update_of_ne hyp ..).trans (update_of_ne hyc ..), rfl⟩
  · exact (update_of_ne hyp ..).trans (update_of_ne hyc ..)

theorem Lists.walkRound {ptr c : ℕ} (hl : lists (s.clsid c) = p ++ ptr :: c :: q) :
    ∃ s', s.walkRound c = .ok (s', some ptr, decide (p ≠ [])) ∧ s'.Lists (update lists (s.clsid c)
        (if p = [] then ptr :: q else p ++ c :: ptr :: q)) ∧
      s'.clsid = s.clsid ∧ s'.linked = s.linked ∧
      s'.sizes = update s.sizes (s.clsid c) (s.sizes (s.clsid c) - 1) ∧
      (p = [] → s'.prev c = none) ∧ (∀ y, y ∉ lists (s.clsid c) → s'.prev y = s.prev y) := by
  have hlinked := h.linked (s.clsid c)
  have hnodup := hlinked.nodup
  have happ : lists (s.clsid c) = (p ++ [ptr]) ++ c :: q := by rw [hl, append_cons]
  rw [happ] at hlinked
  have hprev : s.prev c = some ptr := by rw [hlinked.around.1, List.getLast?_concat]
  have hs1 := h.itemUnlinkQ happ
  have hl1 := hs1.linked (s.clsid c)
  rw [update_self, append_assoc, singleton_append] at hl1
  have hc : c ∈ lists (s.clsid c) := by rw [hl]; simp
  have hout : ∀ y, y ∉ lists (s.clsid c) → (s.itemUnlinkQ c).prev y = s.prev y :=
    fun y hy => h.prev_itemUnlinkQ hc hy
  have hcls : (s.itemUnlinkQ c).clsid = s.clsid := rfl
  unfold Lru.walkRound
  rw [hprev]
  dsimp only
  rw [hcls, hl1.head]
  have hgone : c ∉ p ++ ptr :: q := by
    have hmid := nodup_middle.mp (happ ▸ hnodup)
    rw [append_assoc, singleton_append] at hmid
    exact (nodup_cons.mp hmid).1
  have hgone' : ∀ j, c ∉ update lists (s.clsid c) (p ++ [ptr] ++ q) j := by
    intro j
    by_cases hj : j = s.clsid c
    · rw [hj, update_self, append_assoc, singleton_append]
      exact hgone
    · rw [update_of_ne hj]
      exact fun hcj => h.not_mem hj hcj hc
  by_cases hp : p = []
  · subst hp
    rw [if_pos (by rfl)]
    refine ⟨_, rfl, ?_, rfl, rfl, rfl, fun _ => update_self .., fun y hy => ?_⟩
    · exact hs1.prev hgone' none
    · exact (update_of_ne (ne_of_mem_of_not_mem hc hy).symm ..).trans (hout y hy)
  · have hhead : (p ++ ptr :: q).head? ≠ some ptr := fun hh => by
      rw [List.head?_append_of_ne_nil _ hp] at hh
      rw [hl, nodup_append] at hnodup
      exact hnodup.2.2 ptr (mem_of_mem_head? hh) ptr (.head _) rfl
    have hl2 : update lists (s.clsid c) (p ++ [ptr] ++ q) (s.clsid c) = p ++ ptr :: q := by
      simp
    obtain ⟨s', hs', hlists, h1, h2, h3, h4⟩ := hs1.resplice rfl hl2 hp hgone'
    rw [if_neg hhead, hs', if_neg hp]
    rw [clsid_itemUnlinkQ, update_idem] at hlists
    refine ⟨s', by simp [hp, bind, Except.bind, pure, Except.pure], hlists, h1, h2, h3,
      fun h => absurd h hp, fun y hy => ?_⟩
    rw [h4 y (ne_of_mem_of_not_mem hc hy).symm, hout y hy]
    rintro rfl
    exact hy (by simp [hl])

end

end Lru

namespace Walks

variable {isCursor : ℕ → Bool} {s s' : Walks} {lists lists' : ℕ → List ℕ} {x c cls : ℕ}

structure Inv (isCursor : ℕ → Bool) (s : Walks) (lists : ℕ → List ℕ) : Prop where
  linked : s.lru.Lists lists
  mem : ∀ cls x, x ∈ lists cls ↔ s.Member isCursor cls x
  rest : ∀ c, isCursor c = true → s.walking c = false → s.lru.prev c = none
  sizes : ∀ cls, s.lru.sizes cls + s.moves cls = ((lists cls).length : BitVec 32)

/-- Nothing but `d` was linked, moved or removed. -/
structure Only (d : ℕ) (s s' : Walks) (lists lists' : ℕ → List ℕ) : Prop where
  erase : ∀ j, (lists' j).erase d = (lists j).erase d
  walking : ∀ y ≠ d, s'.walking y = s.walking y
  clsid : ∀ y ≠ d, s'.lru.clsid y = s.lru.clsid y
  linked : ∀ y ≠ d, s'.lru.linked y = s.lru.linked y

variable {outs : List (Option (ℕ × ℕ))} {l : List ℕ} {calls : List LruCall} {d : ℕ}

theorem Only.refl : Only d s s lists lists := ⟨fun _ => rfl, fun _ _ => rfl, fun _ _ => rfl,
  fun _ _ => rfl⟩

theorem erase_middle {p q : List ℕ} (h : (p ++ x :: q).Nodup) : (p ++ x :: q).erase x = p ++ q := by
  have hx : x ∉ p := fun hp => (nodup_append.mp h).2.2 x hp x (.head _) rfl
  rw [erase_append_right _ hx, erase_cons_head]

theorem erase_update (h : l.erase d = (lists cls).erase d) (j : ℕ) :
    (update lists cls l j).erase d = (lists j).erase d := by
  by_cases hj : j = cls
  · rw [hj, update_self, h]
  · rw [update_of_ne hj]

theorem Inv.not_mem (h : Inv isCursor s lists) (hx : ¬s.Member isCursor (s.lru.clsid x) x) (j : ℕ) :
    x ∉ lists j := fun hj => hx ⟨rfl, ((h.mem j x).mp hj).2⟩

theorem member_item (hx : isCursor x = false) :
    s.Member isCursor cls x ↔ s.lru.clsid x = cls ∧ s.lru.linked x = true := by
  rw [Member, hx]
  rfl

theorem member_cursor (hx : isCursor x = true) :
    s.Member isCursor cls x ↔ s.lru.clsid x = cls ∧ s.walking x = true := by
  rw [Member, hx]
  rfl

theorem Inv.set (h : Inv isCursor s lists) (hlists : s'.lru.Lists (update lists cls l))
    (honly : Only x s s' lists (update lists cls l))
    (hx : ∀ j, x ∈ update lists cls l j ↔ s'.Member isCursor j x)
    (hrest : isCursor x = true → s'.walking x = false → s'.lru.prev x = none)
    (hprev : ∀ y, y ≠ x → y ∉ lists cls → s'.lru.prev y = s.lru.prev y)
    (hsize : s'.lru.sizes cls + s'.moves cls = (l.length : BitVec 32))
    (hsizes : ∀ j ≠ cls, s'.lru.sizes j + s'.moves j = s.lru.sizes j + s.moves j) :
    Inv isCursor s' (update lists cls l) where
  linked := hlists
  mem j y := by
    by_cases hy : y = x
    · rw [hy, hx j]
    · have hmem : y ∈ update lists cls l j ↔ y ∈ lists j := by
        rw [← mem_erase_of_ne hy, honly.erase j, mem_erase_of_ne hy]
      rw [hmem, h.mem j y, Member, Member, honly.walking y hy, honly.clsid y hy, honly.linked y hy]
  rest d hd hw := by
    by_cases hdx : d = x
    · subst hdx
      exact hrest hd hw
    · rw [honly.walking d hdx] at hw
      have hout := h.not_mem (x := d) (fun hm => by simp [member_cursor hd, hw] at hm)
      rw [hprev d hdx (hout cls)]
      exact h.rest d hd hw
  sizes j := by
    by_cases hj : j = cls
    · rw [hj, update_self, hsize]
    · rw [hsizes j hj, update_of_ne hj, h.sizes j]

theorem update_mem (hl : x ∈ l) (hout : ∀ j, x ∉ lists j) (j : ℕ) :
    x ∈ update lists cls l j ↔ cls = j := by
  by_cases hj : j = cls
  · simp [hj, hl]
  · simp [update_of_ne hj, hout j, Ne.symm hj]

section
variable (h : Inv isCursor s lists)
include h

theorem link_inv (cls : ℕ) (hx : isCursor x = false) (hnot : s.lru.linked x = false) :
    Inv isCursor { s with lru := s.lru.doItemLink x cls }
        (update lists cls (x :: lists cls)) ∧
      Only x s { s with lru := s.lru.doItemLink x cls } lists
        (update lists cls (x :: lists cls)) := by
  have hout := h.not_mem (x := x) fun hm => by simp [member_item hx, hnot] at hm
  have honly : Only x s { s with lru := s.lru.doItemLink x cls } lists
      (update lists cls (x :: lists cls)) :=
    ⟨erase_update (by simp [erase_of_not_mem (hout cls)]), fun _ _ => rfl,
      fun y hy => update_of_ne hy .., fun y hy => update_of_ne hy ..⟩
  refine ⟨h.set (h.linked.doItemLink hout) honly (fun j => ?_) (fun hx' => ?_)
    (fun y hyx hy => h.linked.prev_doItemLink hout hyx hy) ?_ (fun j hj => ?_), honly⟩
  · rw [update_mem (.head _) hout, member_item hx]
    simp
  · simp [hx] at hx'
  · simp only [Lru.sizes_doItemLink, update_self, length_cons, Nat.cast_succ, ← h.sizes cls]
    ring
  · simp only [Lru.sizes_doItemLink, update_of_ne hj]

theorem Inv.split (hx : isCursor x = false) (hlinked : s.lru.linked x = true) :
    ∃ p q, lists (s.lru.clsid x) = p ++ x :: q ∧ (p ++ x :: q).Nodup ∧ ∀ j, j ≠ s.lru.clsid x →
      x ∉ lists j := by
  obtain ⟨p, q, hl⟩ := append_of_mem ((h.mem _ x).mpr ((member_item hx).mpr ⟨rfl, hlinked⟩))
  exact ⟨p, q, hl, hl ▸ (h.linked.linked _).nodup, fun j hj hxj => hj (h.linked.home j x hxj).symm⟩

theorem unlink_inv (hx : isCursor x = false) :
    Inv isCursor { s with lru := s.lru.doItemUnlink x } (fun j => (lists j).erase x) ∧
      Only x s { s with lru := s.lru.doItemUnlink x } lists (fun j => (lists j).erase x) := by
  cases hlinked : s.lru.linked x with
  | false =>
    have hsame : s.lru.doItemUnlink x = s.lru := by simp [Lru.doItemUnlink, hlinked]
    have hout := h.not_mem (x := x) fun hm => by simp [member_item hx, hlinked] at hm
    have hlists : (fun j => (lists j).erase x) = lists :=
      funext fun j => erase_of_not_mem (hout j)
    rw [hsame, hlists]
    exact ⟨h, .refl⟩
  | true =>
    obtain ⟨p, q, hl, hnodup, hother⟩ := h.split hx hlinked
    have hdo : s.lru.doItemUnlink x =
        { s.lru with linked := update s.lru.linked x false }.itemUnlinkQ x := by
      rw [Lru.doItemUnlink, if_pos hlinked]
    have hgone : x ∉ p ++ q := (nodup_cons.mp (nodup_middle.mp hnodup)).1
    have hlists : (fun j => (lists j).erase x) = update lists (s.lru.clsid x) (p ++ q) := by
      funext j
      by_cases hj : j = s.lru.clsid x
      · rw [hj, update_self, hl, erase_middle hnodup]
      · rw [update_of_ne hj, erase_of_not_mem (hother j hj)]
    rw [hlists]
    have honly : Only x s { s with lru := s.lru.doItemUnlink x } lists
        (update lists (s.lru.clsid x) (p ++ q)) := by
      rw [hdo]
      exact ⟨erase_update (by rw [erase_of_not_mem hgone, hl, erase_middle hnodup]),
        fun _ _ => rfl, fun _ _ => rfl, fun y hy => update_of_ne hy ..⟩
    refine ⟨h.set (h.linked.doItemUnlink hlinked hl) honly (fun j => ?_) (fun hx' => ?_)
      (fun y hyx hy => ?_) ?_ (fun j hj => ?_), honly⟩
    · rw [member_item hx, hdo]
      have hout : x ∉ update lists (s.lru.clsid x) (p ++ q) j := by
        by_cases hj : j = s.lru.clsid x
        · rwa [hj, update_self]
        · rw [update_of_ne hj]
          exact hother j hj
      simp [hout]
    · simp [hx] at hx'
    · rw [hdo]
      exact Lru.Lists.prev_itemUnlinkQ (s := { s.lru with linked := _ })
        ⟨h.linked.linked, h.linked.home⟩ (hl ▸ by simp) hy
    · have hsize := h.sizes (s.lru.clsid x)
      rw [hl] at hsize
      simp only [hdo, Lru.itemUnlinkQ, update_self]
      simp only [length_append, length_cons, Nat.cast_add, Nat.cast_succ] at hsize ⊢
      linear_combination hsize
    · simp [hdo, Lru.itemUnlinkQ, update_of_ne hj]

theorem update_inv (hx : isCursor x = false) (hlinked : s.lru.linked x = true) :
    Inv isCursor { s with lru := s.lru.doItemUpdate x }
        (update lists (s.lru.clsid x) (x :: (lists (s.lru.clsid x)).erase x)) ∧
      Only x s { s with lru := s.lru.doItemUpdate x } lists
        (update lists (s.lru.clsid x) (x :: (lists (s.lru.clsid x)).erase x)) := by
  obtain ⟨p, q, hl, hnodup, hother⟩ := h.split hx hlinked
  have hdo : s.lru.doItemUpdate x = (s.lru.itemUnlinkQ x).itemLinkQ x := by
    rw [Lru.doItemUpdate, if_pos hlinked]
  rw [hl, erase_middle hnodup]
  have honly : Only x s { s with lru := s.lru.doItemUpdate x } lists
      (update lists (s.lru.clsid x) (x :: (p ++ q))) := by
    rw [hdo]
    exact ⟨erase_update (by rw [erase_cons_head, hl, erase_middle hnodup]),
      fun _ _ => rfl, fun _ _ => rfl, fun _ _ => rfl⟩
  refine ⟨h.set (h.linked.doItemUpdate hlinked hl) honly (fun j => ?_) (fun hx' => ?_)
    (fun y hyx hy => ?_) ?_ (fun j hj => ?_), honly⟩
  · rw [member_item hx, hdo]
    by_cases hj : j = s.lru.clsid x
    · simp [hj, hlinked]
    · simp [update_of_ne hj, hother j hj, Ne.symm hj]
  · simp [hx] at hx'
  · have hmem : x ∈ lists (s.lru.clsid x) := hl ▸ by simp
    have hunlink := h.linked.prev_itemUnlinkQ hmem hy
    rw [hdo, (h.linked.itemUnlinkQ hl).prev_itemLinkQ hyx, hunlink]
    rw [Lru.clsid_itemUnlinkQ, update_self]
    intro hy'
    exact hy (hl ▸ (sublist_cons_self x q).append_left p |>.subset hy')
  · have hsize := h.sizes (s.lru.clsid x)
    rw [hl] at hsize
    simp only [hdo, Lru.itemUnlinkQ, Lru.itemLinkQ, update_self]
    simp only [length_append, length_cons, Nat.cast_add, Nat.cast_succ] at hsize ⊢
    linear_combination hsize
  · simp [hdo, Lru.itemUnlinkQ, Lru.itemLinkQ]

theorem linkCursor_inv (cls : ℕ) (hc : isCursor c = true) (hw : s.walking c = false) :
    ∃ s' lists', step isCursor s (.linkCursor c cls) = .ok (s', none) ∧ Inv isCursor s' lists' ∧
      Only c s s' lists lists' ∧ s'.moves = s.moves ∧
      (s.lru.heads cls ≠ none → s'.walking c = true ∧ s'.lru.clsid c = cls ∧
        lists' cls = lists cls ++ [c]) := by
  have hout := h.not_mem (x := c) fun hm => by simp [member_cursor hc, hw] at hm
  rw [step]
  split_ifs with hnone
  · exact ⟨s, lists, rfl, h, .refl, rfl, fun hne => absurd hnone hne⟩
  obtain ⟨lru, hdo, hlists, hcls, hlinked, hsizes, hprev⟩ := h.linked.doItemLinkCursor hout hnone
  rw [hdo]
  have honly : Only c s { s with lru := lru, walking := update s.walking c true } lists
      (update lists cls (lists cls ++ [c])) := by
    refine ⟨erase_update ?_, fun y hy => update_of_ne hy .., fun y hy => ?_, fun y hy => ?_⟩
    · rw [erase_append_right _ (hout cls), erase_of_not_mem (hout cls)]
      simp
    · simp only [hcls, update_of_ne hy]
    · simp only [hlinked]
  refine ⟨_, _, rfl, h.set hlists honly (fun j => ?_) (fun _ hw' => ?_) (fun y hy _ => hprev y hy)
    ?_ (fun j hj => ?_), honly, rfl, fun _ => ⟨update_self .., ?_, update_self ..⟩⟩
  · rw [update_mem (by simp) hout, member_cursor hc]
    simp [hcls]
  · simp at hw'
  · simp only [hsizes, update_self, length_append, length_singleton,
      Nat.cast_add, Nat.cast_one, ← h.sizes cls]
    ring
  · simp only [hsizes, update_of_ne hj]
  · simp only [hcls, update_self]

theorem walk_rest (hc : isCursor c = true) (hw : s.walking c = false) :
    step isCursor s (.walk c) = .ok (s, none) := by
  have hsame : s.afterRound c s.lru false = s := by
    have hupd : update s.walking c false = s.walking := by
      rw [← hw, update_eq_self]
    rw [afterRound, hupd]
    rfl
  rw [step, Lru.walkRound, h.rest c hc hw]
  exact congrArg (fun t => Except.ok (t, none)) hsame

theorem walk_inv (hc : isCursor c = true) (hw : s.walking c = true)
    (hhead : s.lru.heads (s.lru.clsid c) ≠ some c) :
    ∃ p ptr q s', lists (s.lru.clsid c) = p ++ ptr :: c :: q ∧
      step isCursor s (.walk c) = .ok (s', if isCursor ptr then none else some (c, ptr)) ∧
      Inv isCursor s' (update lists (s.lru.clsid c)
        (if p = [] then ptr :: q else p ++ c :: ptr :: q)) ∧
      Only c s s' lists (update lists (s.lru.clsid c)
        (if p = [] then ptr :: q else p ++ c :: ptr :: q)) ∧
      s'.walking c = decide (p ≠ []) ∧ s'.lru.clsid c = s.lru.clsid c ∧
      (p = [] → s'.moves = s.moves) := by
  obtain ⟨p0, q, hl⟩ := append_of_mem ((h.mem _ c).mpr ((member_cursor hc).mpr ⟨rfl, hw⟩))
  have hp0 : p0 ≠ [] := by
    rintro rfl
    rw [(h.linked.linked _).head, hl] at hhead
    exact hhead rfl
  obtain ⟨p, ptr, rfl⟩ := (eq_nil_or_concat p0).resolve_left hp0
  rw [concat_eq_append, append_assoc, singleton_append] at hl
  have hnodup : (p ++ ptr :: c :: q).Nodup := hl ▸ (h.linked.linked _).nodup
  have hmid : (p ++ [ptr] ++ c :: q).Nodup := by simpa using hnodup
  have hgone : c ∉ p ++ [ptr] ++ q := (nodup_cons.mp (nodup_middle.mp hmid)).1
  have herase : (p ++ ptr :: c :: q).erase c = p ++ ptr :: q := by
    simpa using erase_middle hmid
  obtain ⟨lru, hround, hlists, hcls, hlinked, hsizes, hrest, hprev⟩ := h.linked.walkRound hl
  have hl' : (if p = [] then ptr :: q else p ++ c :: ptr :: q).erase c = p ++ ptr :: q := by
    split_ifs with hp
    · subst hp
      exact erase_of_not_mem hgone
    · refine erase_middle (nodup_middle.mpr (nodup_cons.mpr ⟨by simpa using hgone, ?_⟩))
      rw [← herase]
      exact hnodup.erase c
  set s' := s.afterRound c lru (decide (p ≠ [])) with hs'
  have honly : Only c s s' lists (update lists (s.lru.clsid c)
      (if p = [] then ptr :: q else p ++ c :: ptr :: q)) := by
    refine ⟨erase_update (by rw [hl', hl, herase]), fun y hy => update_of_ne hy ..,
      fun y _ => congrFun hcls y, fun y _ => congrFun hlinked y⟩
  refine ⟨p, ptr, q, s', hl, ?_, h.set hlists honly (fun j => ?_) (fun _ hw' => hrest ?_)
    (fun y _ hy => hprev y hy) ?_ (fun j hj => ?_), honly, update_self ..,
    congrFun hcls c, fun hp => ?_⟩
  · rw [step, hround]
    cases hptr : isCursor ptr <;>
      simp [bind, Except.bind, pure, Except.pure, hs', hptr, Option.filter]
  · have hother : ∀ j, j ≠ s.lru.clsid c → c ∉ lists j := fun j hj hcj =>
      hj (h.linked.home j c hcj).symm
    rw [member_cursor hc]
    by_cases hj : j = s.lru.clsid c
    · by_cases hp : p = []
      · subst hp
        simpa [hj, hs', afterRound] using hgone
      · simp [hj, hs', afterRound, hp, hcls]
    · simp [update_of_ne hj, hother j hj, hs', afterRound, hcls, Ne.symm hj]
  · simpa [hs', afterRound] using hw'
  · have hsize := h.sizes (s.lru.clsid c)
    rw [hl] at hsize
    change lru.sizes _ + s'.moves _ = _
    rw [hsizes, update_self]
    by_cases hp : p = []
    · have hmoves : s'.moves = s.moves := by simp [hs', afterRound, hp]
      rw [hmoves, if_pos hp]
      simp only [hp, nil_append, length_cons, Nat.cast_succ] at hsize ⊢
      linear_combination hsize
    · have hmoves : s'.moves (s.lru.clsid c) = s.moves (s.lru.clsid c) + 1 := by
        simp [hs', afterRound, hp]
      rw [hmoves, if_neg hp]
      simp only [length_append, length_cons, Nat.cast_add, Nat.cast_succ] at hsize ⊢
      linear_combination hsize
  · by_cases hp : p = [] <;> simp [hs', afterRound, hp, hsizes, hj]
  · simp [hs', afterRound, hp]

theorem step_inv {call : LruCall} (hcall : Allowed isCursor s call) :
    ∃ s' out lists', step isCursor s call = .ok (s', out) ∧ Inv isCursor s' lists' ∧
      Only call.subject s s' lists lists' ∧ (Steady s call → s'.moves = s.moves) ∧
      (∀ e, out = some e → e.1 = call.subject) := by
  cases call with
  | link x cls =>
    obtain ⟨hinv, honly⟩ := link_inv h cls hcall.1 hcall.2
    exact ⟨_, none, _, rfl, hinv, honly, fun _ => rfl, nofun⟩
  | unlink x =>
    obtain ⟨hinv, honly⟩ := unlink_inv h hcall
    exact ⟨_, none, _, rfl, hinv, honly, fun _ => rfl, nofun⟩
  | update x =>
    cases hlinked : s.lru.linked x with
    | true =>
      obtain ⟨hinv, honly⟩ := update_inv h hcall hlinked
      exact ⟨_, none, _, rfl, hinv, honly, fun _ => rfl, nofun⟩
    | false =>
      have hsame : s.lru.doItemUpdate x = s.lru := by simp [Lru.doItemUpdate, hlinked]
      exact ⟨_, none, lists, rfl, by rw [hsame]; exact h, by rw [hsame]; exact .refl,
        fun _ => rfl, nofun⟩
  | linkCursor c cls =>
    obtain ⟨s', lists', hstep, hinv, honly, hmoves, -⟩ := linkCursor_inv h cls hcall.1 hcall.2
    exact ⟨s', none, lists', hstep, hinv, honly, fun _ => hmoves, nofun⟩
  | walk c =>
    obtain ⟨hc, hhead⟩ := hcall
    cases hw : s.walking c with
    | false => exact ⟨s, none, lists, walk_rest h hc hw, h, .refl, fun _ => rfl, nofun⟩
    | true =>
      obtain ⟨p, ptr, q, s', hl, hstep, hinv, honly, -, -, hmoves⟩ := walk_inv h hc hw (hhead hw)
      refine ⟨s', _, _, hstep, hinv, honly, fun hsteady => hmoves ?_, fun e he => ?_⟩
      · have hlinked := h.linked.linked (s.lru.clsid c)
        have happ : lists (s.lru.clsid c) = (p ++ [ptr]) ++ c :: q := by rw [hl, append_cons]
        have hprev := (happ ▸ hlinked).around.1
        rw [Steady, hprev, List.getLast?_concat, hlinked.head, hl] at hsteady
        have hnodup := hlinked.nodup
        rw [hl] at hnodup
        cases p with
        | nil => rfl
        | cons y p =>
          obtain rfl : ptr = y := Option.some.inj hsteady
          simp at hnodup
      · split_ifs at he
        cases he
        rfl

end

theorem before_iff {a b : List ℕ} (h : (a ++ c :: b).Nodup) :
    [x, c].Sublist (a ++ c :: b) ↔ x ∈ a := by
  refine ⟨fun hsub => ?_, fun hx => (singleton_sublist.mpr hx).append
    (singleton_sublist.mpr (.head _))⟩
  obtain ⟨r1, r2, heq, hx, hc⟩ := cons_sublist_iff.mp hsub
  rw [singleton_sublist] at hc
  obtain ⟨t, rfl, -⟩ | ⟨t, rfl, ht⟩ := append_eq_append_iff.mp heq.symm
  · exact mem_append_left _ hx
  · cases t with
    | nil => simpa using hx
    | cons y t =>
      cases ht
      exact absurd hc (disjoint_of_nodup_append (heq ▸ h) (by simp))

theorem after_iff {a b : List ℕ} (h : (a ++ c :: b).Nodup) :
    [c, x].Sublist (a ++ c :: b) ↔ x ∈ b := by
  refine ⟨fun hsub => ?_, fun hx => ((singleton_sublist.mpr hx).cons_cons c).trans
    (sublist_append_right a _)⟩
  have hca : c ∉ a := fun hc => disjoint_of_nodup_append h hc (.head _)
  obtain ⟨r1, r2, heq, hc, hx⟩ := cons_sublist_iff.mp hsub
  rw [singleton_sublist] at hx
  obtain ⟨t, rfl, -⟩ | ⟨t, rfl, ht⟩ := append_eq_append_iff.mp heq.symm
  · exact absurd (mem_append_left _ hc) hca
  · cases t with
    | nil => exact absurd (by simpa using hc) hca
    | cons y t =>
      cases ht
      exact mem_append_right _ hx

theorem Only.sublist {y z : ℕ} (h : Only d s s' lists lists') (hy : y ≠ d) (hz : z ≠ d)
    (hsub : [y, z].Sublist (lists cls)) : [y, z].Sublist (lists' cls) := by
  have herase := hsub.erase d
  rw [erase_of_not_mem (by simp [hy.symm, hz.symm]), ← h.erase] at herase
  exact herase.trans erase_sublist

/-- Calls while `c` walks that leave `x` where it is. -/
def Leaves (c x : ℕ) (call : LruCall) : Prop := call.subject ≠ x ∧ ∀ cls, call ≠ .linkCursor c cls

theorem walk_of_subject {call : LruCall} (hcall : Allowed isCursor s call) (hc : isCursor c = true)
    (hleaves : Leaves c x call) (hsub : call.subject = c) : call = .walk c := by
  cases call with
  | link y cls =>
    obtain rfl : y = c := hsub
    simp [hcall.1] at hc
  | unlink y | update y =>
    obtain rfl : y = c := hsub
    simp [show isCursor y = false from hcall] at hc
  | linkCursor d cls =>
    obtain rfl : d = c := hsub
    exact absurd rfl (hleaves.2 cls)
  | walk d =>
    obtain rfl : d = c := hsub
    rfl

/-- What a cursor has gone past is not presented again. -/
theorem passed_run (hc : isCursor c = true) (h : Inv isCursor s lists)
    (hpassed : s.walking c = true → [c, x].Sublist (lists (s.lru.clsid c)))
    (hcalls : Along (step isCursor) (Allowed isCursor) s calls)
    (hleaves : ∀ call ∈ calls, Leaves c x call)
    (hrun : run (step isCursor) s calls = .ok (s', outs)) :
    outs.count (some (c, x)) = 0 := by
  induction calls generalizing s lists outs with
  | nil =>
    cases hrun
    rfl
  | cons call calls ih =>
    rw [forall_mem_cons] at hleaves
    obtain ⟨s1, out, outs, hstep, hrest, rfl⟩ := run_cons_ok.mp hrun
    suffices hone : out ≠ some (c, x) ∧ ∃ lists1, Inv isCursor s1 lists1 ∧
        (s1.walking c = true → [c, x].Sublist (lists1 (s1.lru.clsid c))) by
      obtain ⟨hout, lists1, h1, hpassed1⟩ := hone
      rw [count_cons_of_ne hout]
      exact ih h1 hpassed1 (hcalls.2 s1 out hstep) hleaves.2 hrest
    by_cases hsub : call.subject = c
    · obtain rfl := walk_of_subject hcalls.1 hc hleaves.1 hsub
      cases hw : s.walking c with
      | false =>
        rw [walk_rest h hc hw] at hstep
        cases hstep
        exact ⟨nofun, lists, h, hpassed⟩
      | true =>
        obtain ⟨p, ptr, q, s2, hl, hstep2, h2, -, hwalk, hcls, -⟩ :=
          walk_inv h hc hw (hcalls.1.2 hw)
        rw [hstep2] at hstep
        cases hstep
        have happ : lists (s.lru.clsid c) = (p ++ [ptr]) ++ c :: q := by rw [hl, append_cons]
        have hnodup := (h.linked.linked (s.lru.clsid c)).nodup
        have hx : x ∈ q := by
          have hsub := hpassed hw
          rw [happ] at hsub hnodup
          exact (after_iff hnodup).mp hsub
        rw [hl] at hnodup
        refine ⟨fun hout => ?_, _, h2, fun hwalking => ?_⟩
        · split_ifs at hout
          obtain rfl : ptr = x := congrArg Prod.snd (Option.some.inj hout)
          exact (nodup_cons.mp (nodup_append.mp hnodup).2.1).1 (.tail c hx)
        · have hp : p ≠ [] := by simpa [hwalk] using hwalking
          rw [hcls, update_self, if_neg hp]
          exact (((singleton_sublist.mpr hx).cons ptr).cons_cons c).trans
            (sublist_append_right p _)
    · obtain ⟨s2, out2, lists2, hstep2, h2, honly, -, hout⟩ := step_inv h hcalls.1
      rw [hstep2] at hstep
      cases hstep
      refine ⟨fun hsome => hsub (hout _ hsome).symm, lists2, h2, fun hw => ?_⟩
      rw [honly.walking c (Ne.symm hsub)] at hw
      rw [honly.clsid c (Ne.symm hsub)]
      exact honly.sublist (Ne.symm hsub) hleaves.1.1.symm (hpassed hw)

/-- What stays in front of a cursor is presented once until its walk ends. -/
theorem pending_run (hc : isCursor c = true) (hx : isCursor x = false) (h : Inv isCursor s lists)
    (hw : s.walking c = true)
    (hpending : [x, c].Sublist (lists (s.lru.clsid c)))
    (hcalls : Along (step isCursor) (Allowed isCursor) s calls)
    (hleaves : ∀ call ∈ calls, Leaves c x call)
    (hrun : run (step isCursor) s calls = .ok (s', outs))
    (hend : s'.walking c = false) : outs.count (some (c, x)) = 1 := by
  induction calls generalizing s lists outs with
  | nil =>
    cases hrun
    simp [hw] at hend
  | cons call calls ih =>
    rw [forall_mem_cons] at hleaves
    obtain ⟨s1, out, outs, hstep, hrest, rfl⟩ := run_cons_ok.mp hrun
    by_cases hsub : call.subject = c
    · obtain rfl := walk_of_subject hcalls.1 hc hleaves.1 hsub
      obtain ⟨p, ptr, q, s2, hl, hstep2, h2, -, hwalk, hcls, -⟩ :=
        walk_inv h hc hw (hcalls.1.2 hw)
      have halong := hcalls.2 s1 out hstep
      rw [hstep2] at hstep
      cases hstep
      have happ : lists (s.lru.clsid c) = (p ++ [ptr]) ++ c :: q := by rw [hl, append_cons]
      have hnodup := (h.linked.linked (s.lru.clsid c)).nodup
      rw [happ] at hpending hnodup
      obtain hxp | hxptr := mem_append.mp ((before_iff hnodup).mp hpending)
      · -- The cursor goes past another element, and `x` is still in front of it.
        have hp : p ≠ [] := ne_nil_of_mem hxp
        have hne : (if isCursor ptr = true then none else some (c, ptr)) ≠ some (c, x) := by
          intro hout
          split_ifs at hout
          obtain rfl : ptr = x := congrArg Prod.snd (Option.some.inj hout)
          have hleft := (nodup_append.mp hnodup).1
          exact disjoint_of_nodup_append hleft hxp (mem_singleton_self ptr)
        rw [count_cons_of_ne hne]
        refine ih h2 (by simp [hwalk, hp]) ?_ halong hleaves.2 hrest
        rw [hcls, update_self, if_neg hp]
        exact (singleton_sublist.mpr hxp).append
          (singleton_sublist.mpr (.head _))
      · obtain rfl := mem_singleton.mp hxptr
        rw [if_neg (by simp [hx]), count_cons_self,
          passed_run hc h2 (fun hwalking => ?_) halong hleaves.2 hrest]
        have hp : p ≠ [] := by simpa [hwalk] using hwalking
        rw [hcls, update_self, if_neg hp]
        exact ((singleton_sublist.mpr (.head _)).cons_cons c).trans
          (sublist_append_right p _)
    · obtain ⟨s2, out2, lists2, hstep2, h2, honly, -, hout⟩ := step_inv h hcalls.1
      have halong := hcalls.2 s1 out hstep
      rw [hstep2] at hstep
      cases hstep
      rw [count_cons_of_ne fun hsome => hsub (hout _ hsome).symm]
      refine ih h2 ?_ ?_ halong hleaves.2 hrest
      · rw [honly.walking c (Ne.symm hsub), hw]
      · rw [honly.clsid c (Ne.symm hsub)]
        exact honly.sublist hleaves.1.1.symm (Ne.symm hsub) hpending

theorem Empty.inv (h : s.Empty) : Inv isCursor s fun _ => [] where
  linked := ⟨fun cls => ⟨h.heads cls, h.tails cls, .nil, trivial⟩, nofun⟩
  mem cls x := by simp [Member, h.walking, h.linked]
  rest c _ _ := h.prev c
  sizes cls := by simp [h.sizes, h.moves]

/-- The lists stay linked through all walks and hold their elements, a cursor is in one while it
walks, and a walk presents each item that stays once. The counts lose one with every element that a
cursor goes past, but for the head. -/
theorem walks_exact (isCursor : ℕ → Bool) (s₀ : Walks) (h₀ : s₀.Empty) (calls : List LruCall)
    (hcalls : Along (step isCursor) (Allowed isCursor) s₀ calls) :
    ∃ s outs, run (step isCursor) s₀ calls = .ok (s, outs) ∧
      (∀ cls, ∃ l, Linked s.lru.next s.lru.prev (s.lru.heads cls) (s.lru.tails cls) l ∧
        (∀ x, x ∈ l ↔ s.Member isCursor cls x) ∧
        s.lru.sizes cls + s.moves cls = (l.length : BitVec 32)) ∧
      (Along (step isCursor) Steady s₀ calls → ∀ cls, s.moves cls = 0) ∧
      ∀ before c cls during s₁ outs₁ x, calls = before ++ .linkCursor c cls :: during →
        run (step isCursor) s₀ before = .ok (s₁, outs₁) → isCursor x = false →
        s₁.lru.linked x = true → s₁.lru.clsid x = cls → (∀ call ∈ during, Leaves c x call) →
        s.walking c = false →
        ∃ outs₂, outs = outs₁ ++ none :: outs₂ ∧ outs₂.count (some (c, x)) = 1 := by
  have hstep : ∀ s call, (∃ lists, Inv isCursor s lists) → Allowed isCursor s call →
      ∃ s' out, step isCursor s call = .ok (s', out) ∧ ∃ lists, Inv isCursor s' lists := by
    rintro s call ⟨lists, h⟩ hcall
    obtain ⟨s', out, lists', hs', h', -⟩ := step_inv h hcall
    exact ⟨s', out, hs', lists', h'⟩
  obtain ⟨s, outs, hrun, lists, h⟩ := run_total hstep ⟨_, h₀.inv⟩ hcalls
  refine ⟨s, outs, hrun, fun cls => ⟨lists cls, h.linked.linked cls, h.mem cls, h.sizes cls⟩,
    fun hsteady => ?_, ?_⟩
  · refine (run_inv (I := fun s => (∃ lists, Inv isCursor s lists) ∧ ∀ cls,
      s.moves cls = 0) ?_ ⟨⟨_, h₀.inv⟩, h₀.moves⟩ (hcalls.and hsteady) hrun).2
    rintro s call s' out ⟨⟨lists, h⟩, hmoves⟩ ⟨hcall, hst⟩ hs'
    obtain ⟨s₂, out₂, lists', hs₂, h', -, hsame, -⟩ := step_inv h hcall
    rw [hs₂] at hs'
    cases hs'
    exact ⟨⟨lists', h'⟩, fun cls => by rw [hsame hst, hmoves cls]⟩
  · rintro before c cls during s₁ outs₁ x rfl hbefore hx hlinked hcls hleaves hend
    obtain ⟨s₁', outs₁', outs₂, hrun₁, hrun₂, rfl⟩ := run_append_ok.mp hrun
    rw [hbefore] at hrun₁
    cases hrun₁
    have hafter := hcalls.append hbefore
    obtain ⟨lists₁, h₁⟩ := run_inv (I := fun s => ∃ lists, Inv isCursor s lists)
      (fun s call s' out h hcall hs' => by
        obtain ⟨s₂, out₂, hs₂, h'⟩ := hstep s call h hcall
        rw [hs₂] at hs'
        cases hs'
        exact h') ⟨_, h₀.inv⟩ hcalls.left hbefore
    obtain ⟨s₂, out, outs, hs₂, hrest, rfl⟩ := run_cons_ok.mp hrun₂
    obtain ⟨s₃, lists₃, hs₃, h₃, -, -, hlink⟩ := linkCursor_inv h₁ cls hafter.1.1 hafter.1.2
    have halong := hafter.2 s₂ out hs₂
    rw [hs₃] at hs₂
    cases hs₂
    have hxl : x ∈ lists₁ cls := (h₁.mem cls x).mpr ((member_item hx).mpr ⟨hcls, hlinked⟩)
    obtain ⟨hw, hcls', hlists⟩ := hlink (by
      rw [(h₁.linked.linked cls).head, ne_eq, List.head?_eq_none_iff]
      exact ne_nil_of_mem hxl)
    refine ⟨outs, rfl, pending_run hafter.1.1 hx h₃ hw ?_ halong hleaves hrest hend⟩
    rw [hcls', hlists]
    exact (singleton_sublist.mpr hxl).append (List.Sublist.refl _)

def unlinked : Walks :=
  ⟨⟨fun _ => none, fun _ => none, fun _ => 0, fun _ => false, fun _ => none, fun _ => none,
    fun _ => 0⟩, fun _ => false, fun _ => 0⟩

theorem unlinked_empty : unlinked.Empty :=
  ⟨fun _ => rfl, fun _ => rfl, fun _ => rfl, fun _ => rfl, fun _ => rfl, fun _ => rfl, fun _ => rfl⟩

/-- The walk of cursor 9 over items 1 and 2, with item 3 linked on the way. -/
theorem walks_exact_two :
    ∃ s outs, run (step (· == 9)) unlinked [.link 1 5, .link 2 5, .linkCursor 9 5,
        .walk 9, .link 3 5, .walk 9, .walk 9] = .ok (s, none :: none :: none :: outs) ∧
      s.walking 9 = false ∧ outs.count (some (9, 1)) = 1 := by
  obtain ⟨s, outs, hrun, -, -, hwalk⟩ := walks_exact (· == 9) unlinked unlinked_empty
    [.link 1 5, .link 2 5, .linkCursor 9 5, .walk 9, .link 3 5, .walk 9, .walk 9] (by
      refine .cons rfl ⟨rfl, rfl⟩ ?_
      refine .cons rfl ⟨rfl, rfl⟩ ?_
      refine .cons rfl ⟨rfl, rfl⟩ ?_
      refine .cons rfl ⟨rfl, fun _ => by decide⟩ ?_
      refine .cons rfl ⟨rfl, rfl⟩ ?_
      refine .cons rfl ⟨rfl, fun _ => by decide⟩ ?_
      exact .cons rfl ⟨rfl, fun _ => by decide⟩ trivial)
  have hend : s.walking 9 = false := by
    cases hrun
    rfl
  obtain ⟨outs₂, rfl, hcount⟩ := hwalk [.link 1 5, .link 2 5] 9 5
    [.walk 9, .link 3 5, .walk 9, .walk 9] _ _ 1 rfl rfl rfl rfl rfl (by simp [Leaves, LruCall.subject])
    hend
  exact ⟨s, outs₂, hrun, hend, hcount⟩

/-- A round takes one off the count of three elements. And a cursor in front of which the items are
unlinked stays in the list when its walk ends, and is then linked into another one. -/
theorem walk_miscounts_and_leaves_cursor :
    (∃ s outs, run (step (· == 9)) unlinked [.link 1 5, .link 2 5, .linkCursor 9 5,
        .walk 9] = .ok (s, outs) ∧
      Linked s.lru.next s.lru.prev (s.lru.heads 5) (s.lru.tails 5) [2, 9, 1] ∧
      s.lru.sizes 5 = 2) ∧
    ∃ s outs, run (step (· == 9)) unlinked [.link 1 5, .link 2 6, .linkCursor 9 5,
        .unlink 1, .walk 9, .linkCursor 9 6] = .ok (s, outs) ∧
      s.lru.heads 5 = some 9 ∧ s.lru.tails 5 = some 9 ∧ s.lru.heads 6 = some 2 ∧
      s.lru.tails 6 = some 9 :=
  ⟨⟨_, _, rfl, ⟨rfl, rfl, by decide, rfl, rfl, rfl, rfl, rfl, rfl, trivial⟩, rfl⟩,
    _, _, rfl, rfl, rfl, rfl, rfl⟩

end Walks

end Appstack.Memcached
