import Appstack.Couchstore.MultiGet

namespace Appstack.Couchstore
open Std SortedMap Function List

def hit (e : Bytes × Bytes) : Call := (e.1, some e.2)

abbrev Flags.on : Flags := ⟨true, true⟩

abbrev Flags.start : Flags := ⟨true, false⟩

@[simp] theorem found_map_hit (m : Bindings) : found (m.map hit) = m := by
  simp [found, hit, filterMap_map, comp_def]

section Range
variable (cmp : Bytes → Bytes → Ordering)

/-- An item from `b` on, up to the first of the keys `ks`. -/
def within (b : Bytes) (ks : List Bytes) (e : Bytes × Bytes) : Bool :=
  cmp e.1 b != .lt && ks.head?.all fun k => cmp e.1 k != .gt

def past (ks : List Bytes) (e : Bytes × Bytes) : Bool := ks.head?.any fun k => cmp e.1 k == .gt

/-- There is an item at `k` or behind it. -/
def covers (m : Bindings) (k : Bytes) : Bool := m.any fun e => cmp e.1 k != .lt

/-- A fold from `b` goes as far as these items, and its range ends there. -/
def ended (b : Bytes) (ks : List Bytes) (m : Bindings) : Bool := covers cmp m b && m.any (past cmp ks)

/-- The item with which a range ends is still compared with the first key. -/
def atEnd (b : Bytes) (ks : List Bytes) (its : Bindings) : Bindings :=
  ((its.find? (past cmp ks)).filter fun e => cmp e.1 b == .eq).toList

/-- The items of a leaf that single lookups find, as the two lists are gone through. -/
def hits : Bindings → List Bytes → Bindings
  | [], _ => []
  | _ :: _, [] => []
  | e :: its, key :: keys =>
    if cmp e.1 key = .eq then e :: hits its keys else hits its (key :: keys)

/-- What single lookups find in leaf after leaf. -/
def leafHits : List Bindings → List Bytes → Bindings
  | [], _ => []
  | leaf :: leaves, keys =>
    hits cmp leaf keys ++ leafHits leaves (keys.dropWhile (covers cmp leaf))

/-- What a fold from `b` calls back for after its range. -/
def lateHits (b : Bytes) (ks : List Bytes) : List Bindings → Bindings
  | [] => []
  | leaf :: leaves =>
    if ended cmp b ks leaf then
      atEnd cmp b ks leaf ++ leafHits cmp leaves (ks.dropWhile (covers cmp leaf))
    else lateHits b ks leaves

/-- What a root that is a leaf calls back for besides the items of the range. -/
def leafStrays (b : Bytes) (ks : List Bytes) (its : Bindings) : Bindings :=
  if its.any (within cmp b ks) then [] else (its.find? fun e => cmp e.1 b != .lt).toList

end Range

def leafCalls (cmp : Bytes → Bytes → Ordering) (its : Bindings) (keys : List Bytes) (fl : Flags) :
    List Call × Flags :=
  nodeCalls cmp (h := 0) its keys fl

section Leaf
variable {cmp : Bytes → Bytes → Ordering} {b : Bytes} {ks : List Bytes} {its : Bindings}

variable (cmp) in
theorem leafCalls_off_found (its : Bindings) (keys : List Bytes) :
    found (leafCalls cmp its keys .off).1 = hits cmp its keys ∧
      (leafCalls cmp its keys .off).2 = .off := by
  simp only [leafCalls, nodeCalls, found_append, found_restCalls, append_nil]
  induction its generalizing keys with
  | nil => exact ⟨by simp [kvCalls, hits, found], rfl⟩
  | cons e its ih =>
    obtain ⟨k, v⟩ := e
    cases keys with
    | nil => exact ⟨by simp [kvCalls, hits, found], rfl⟩
    | cons key keys =>
      rw [kvCalls_off_cons, hits]
      split_ifs with hcmp
      · exact ⟨congrArg ((k, v) :: ·) (ih keys).1, (ih keys).2⟩
      · exact ih (key :: keys)

theorem hits_nil (its : Bindings) : hits cmp its [] = [] := by
  cases its <;> rfl

theorem atItem_on (k v b : Bytes) (ks : List Bytes) :
    atItem cmp k b ks .on = if past cmp ks (k, v) then ([], .off) else (b :: ks, .on) := by
  cases ks <;> simp [atItem, past]

variable {e : Bytes × Bytes}

theorem not_within_of_past (h : past cmp ks e = true) : within cmp b ks e = false := by
  cases ks with
  | nil => cases h
  | cons k ks =>
    have hgt : cmp e.1 k = .gt := by simpa [past] using h
    simp [within, hgt]

theorem within_eq_of_not_past (h : past cmp ks e = false) :
    within cmp b ks e = (cmp e.1 b != .lt) := by
  cases ks with
  | nil => simp [within]
  | cons k ks =>
    have hgt : cmp e.1 k ≠ .gt := by simpa [past] using h
    simp [within, hgt]

variable [TransCmp cmp]

theorem past_of_lt {e' : Bytes × Bytes} (h : past cmp ks e = true) (hlt : cmp e.1 e'.1 = .lt) :
    past cmp ks e' = true := by
  cases ks with
  | nil => cases h
  | cons k ks =>
    have hgt : cmp e.1 k = .gt := by simpa [past] using h
    have hlt' : cmp k e'.1 = .lt := TransCmp.lt_trans (OrientedCmp.lt_of_gt hgt) hlt
    simp [past, OrientedCmp.gt_of_lt hlt']

theorem past_lt (hb : ∀ k ∈ ks.head?, cmp b k ≠ .gt)
    (h : past cmp ks e = true) : cmp b e.1 = .lt := by
  cases ks with
  | nil => cases h
  | cons k ks =>
    have hgt : cmp e.1 k = .gt := by simpa [past] using h
    have hbk : (cmp b k).isLE := Ordering.isLE_iff_ne_gt.mpr (hb k rfl)
    exact TransCmp.lt_of_isLE_of_lt hbk (OrientedCmp.lt_of_gt hgt)

theorem filter_within_of_past (hs : Sorted cmp (e :: its))
    (hpast : past cmp ks e = true) : (e :: its).filter (within cmp b ks) = [] := by
  refine filter_eq_nil_iff.mpr fun x hx => ?_
  have hx' : past cmp ks x = true := by
    obtain rfl | hx := mem_cons.mp hx
    · exact hpast
    · exact past_of_lt hpast ((pairwise_cons.mp hs).1 x hx)
  simp [not_within_of_past hx']

theorem kvCalls_on (hs : Sorted cmp its) : kvCalls cmp its (b :: ks) .on =
      ((its.filter (within cmp b ks) ++ atEnd cmp b ks its).map hit,
        if its.any (past cmp ks) then ([], .off) else (b :: ks, .on)) := by
  induction its with
  | nil => rfl
  | cons e its ih =>
    obtain ⟨k, v⟩ := e
    rw [kvCalls, atItem_on k v]
    cases hpast : past cmp ks (k, v) with
    | true =>
      rw [filter_within_of_past hs hpast]
      by_cases heq : cmp k b = .eq <;> cases its <;>
        simp [kvCalls, atEnd, heq, hpast, hit, Option.filter]
    | false =>
      have hwithin := within_eq_of_not_past (b := b) hpast
      have hend : atEnd cmp b ks ((k, v) :: its) = atEnd cmp b ks its := by simp [atEnd, hpast]
      simp only [Bool.false_eq_true, if_false, if_true, ih (pairwise_cons.mp hs).2,
        filter_cons, hwithin, any_cons, hpast, Bool.false_or, hend]
      cases hcmp : cmp k b <;> simp [hit]

theorem leafCalls_on (hs : Sorted cmp its) : leafCalls cmp its (b :: ks) .on =
      ((its.filter (within cmp b ks) ++ atEnd cmp b ks its).map hit,
        if its.any (past cmp ks) then .off else .on) := by
  simp only [leafCalls, nodeCalls, kvCalls_on hs]
  split_ifs <;> simp [restCalls]

/-- A leaf begins the fold with the first item that is not in front of the range, also when
that item lies behind it. -/
theorem leafCalls_start (hs : Sorted cmp its) : (leafCalls cmp its (b :: ks) .start).1 =
      (its.filter (within cmp b ks) ++ leafStrays cmp b ks its).map hit := by
  induction its with
  | nil => rfl
  | cons e its ih =>
    obtain ⟨k, v⟩ := e
    obtain ⟨hlt, hs'⟩ := pairwise_cons.mp hs
    by_cases hfront : cmp k b = .lt
    · have hskip : leafCalls cmp ((k, v) :: its) (b :: ks) .start =
          leafCalls cmp its (b :: ks) .start := by
        simp [leafCalls, nodeCalls, kvCalls, atItem, hfront]
      have hwithin : within cmp b ks (k, v) = false := by simp [within, hfront]
      rw [hskip, ih hs']
      simp only [leafStrays, any_cons, filter_cons, hwithin, Bool.false_or]
      simp [hfront]
    · have hcall : cmp k b = .eq ∨ cmp k b = .gt := by
        cases hcmp : cmp k b
        · exact absurd hcmp hfront
        · exact .inl rfl
        · exact .inr rfl
      have hfirst : (leafCalls cmp ((k, v) :: its) (b :: ks) .start).1 =
          hit (k, v) :: (leafCalls cmp its (b :: ks) .on).1 := by
        simp [leafCalls, nodeCalls, kvCalls, atItem, hfront, hcall, hit]
      -- the items after the first one lie behind `b`
      have hend : atEnd cmp b ks its = [] := by
        rw [atEnd, Option.toList_eq_nil_iff, Option.filter_eq_none_iff]
        intro x hx
        have hkx : cmp k x.1 = .lt := hlt x (mem_of_find?_eq_some hx)
        have hbx : cmp x.1 b ≠ .eq := fun heq => hfront (TransCmp.lt_of_lt_of_eq hkx heq)
        simpa using hbx
      rw [hfirst, leafCalls_on hs', hend, append_nil]
      cases hpast : past cmp ks (k, v) with
      | true =>
        have hnone := filter_within_of_past (b := b) hs hpast
        have hany : ((k, v) :: its).any (within cmp b ks) = false := by
          simpa [filter_eq_nil_iff] using hnone
        rw [hnone, leafStrays, hany, List.find?_cons_of_pos (by simpa using hfront)]
        rw [filter_cons, not_within_of_past hpast] at hnone
        simp [show its.filter (within cmp b ks) = [] from hnone]
      | false =>
        have hwithin : within cmp b ks (k, v) = true := by
          rw [within_eq_of_not_past hpast]
          simpa using hfront
        simp [leafStrays, hwithin]

end Leaf

/-- The leaves below a node, from left to right. -/
def leaves : {h : ℕ} → List (Node h) → List Bindings
  | 0, ts => [ts]
  | _ + 1, ts => ts.flatMap fun t => leaves t.items

section Cut
variable {cmp : Bytes → Bytes → Ordering} {b K : Bytes} {ks : List Bytes}

theorem cut_of_imp {α : Type*} {p q : α → Bool} (h : ∀ x, p x = true → q x = true) (l : List α) :
    (l.takeWhile q).dropWhile p = (l.dropWhile p).takeWhile q ∧
      (l.dropWhile p).dropWhile q = l.dropWhile q := by
  induction l with
  | nil => simp
  | cons x l ih =>
    cases hp : p x with
    | false => cases hq : q x <;> simp [hp, hq]
    | true => simp [hp, h x hp, ih]

theorem any_congr {α : Type*} {m : List α} {f g : α → Bool} (h : ∀ e ∈ m, f e = g e) :
    m.any f = m.any g := by
  rw [Bool.eq_iff_iff, any_eq_true, any_eq_true]
  exact exists_congr fun e => and_congr_right fun he => by rw [h e he]

theorem leaves_flatten {h : ℕ} (ts : List (Node h)) :
    (leaves ts).flatten = ts.flatMap Node.contents := by
  induction h with
  | zero =>
    have hts : ts.flatMap Node.contents = ts := flatMap_singleton' ts
    rw [hts]
    exact append_nil ts
  | succ h ih =>
    rw [leaves, flatMap_def, flatten_flatten, map_map, flatMap_def]
    exact congrArg _ (map_congr_left fun t _ => ih t.items)

theorem leafHits_nil (ls : List Bindings) : leafHits cmp ls [] = [] := by
  induction ls with
  | nil => rfl
  | cons leaf ls ih => simp [leafHits, hits_nil, ih]

theorem hits_eq_nil {its : Bindings} {key : Bytes} (h : ∀ e ∈ its, cmp e.1 key ≠ .eq)
    (keys : List Bytes) : hits cmp its (key :: keys) = [] := by
  induction its with
  | nil => rfl
  | cons e its ih =>
    rw [hits, if_neg (h e (.head _))]
    exact ih fun x hx => h x (.tail _ hx)

theorem dropWhile_covers_nil (keys : List Bytes) : keys.dropWhile (covers cmp []) = keys := by
  cases keys <;> rfl

variable {m : Bindings} {ls : List Bindings}

theorem ended_mono {m' : Bindings} (hsub : m ⊆ m') (h : ended cmp b ks m = true) :
    ended cmp b ks m' = true := by
  simp only [ended, covers, Bool.and_eq_true, any_eq_true] at h ⊢
  exact ⟨h.1.imp fun e he => ⟨hsub he.1, he.2⟩, h.2.imp fun e he => ⟨hsub he.1, he.2⟩⟩

theorem lateHits_of_not_ended (h : ended cmp b ks ls.flatten = false) :
    lateHits cmp b ks ls = [] := by
  induction ls with
  | nil => rfl
  | cons leaf ls ih =>
    have hnot {m : Bindings} (hsub : m ⊆ (leaf :: ls).flatten) : ¬ ended cmp b ks m = true := fun hm => by
      rw [ended_mono hsub hm] at h
      cases h
    rw [lateHits, if_neg (hnot (subset_append_left ..))]
    exact ih (by simpa using hnot (subset_append_right ..))

variable [TransCmp cmp]

section
variable {m' : Bindings} (hs : Sorted cmp (m ++ m'))
include hs

omit [TransCmp cmp] in
/-- The last of two parts decides about what holds of all items from some place on. -/
theorem any_append_of_up (hne : m' ≠ [])
    {f : Bytes × Bytes → Bool} (hup : ∀ e e', f e = true → cmp e.1 e'.1 = .lt → f e' = true) :
    (m ++ m').any f = m'.any f := by
  obtain ⟨e', he'⟩ := exists_mem_of_ne_nil _ hne
  have himp : m.any f = true → m'.any f = true := by
    intro h
    obtain ⟨e, he, hf⟩ := any_eq_true.mp h
    exact any_eq_true.mpr ⟨e', he', hup e e' hf ((pairwise_append.mp hs).2.2 e he e' he')⟩
  rw [any_append]
  cases h : m.any f with
  | false => rfl
  | true => rw [himp h, Bool.true_or]

theorem covers_append (hne : m' ≠ []) : covers cmp (m ++ m') = covers cmp m' := by
  funext k
  refine any_append_of_up hs hne fun e e' he hlt => ?_
  simpa using fun hlt' => (by simpa using he : cmp e.1 k ≠ .lt) (TransCmp.lt_trans hlt hlt')

theorem dropWhile_covers (keys : List Bytes) :
    (keys.dropWhile (covers cmp m)).dropWhile (covers cmp m') =
      keys.dropWhile (covers cmp (m ++ m')) := by
  by_cases hne : m' = []
  · rw [hne, append_nil, dropWhile_covers_nil]
  · rw [covers_append hs hne]
    refine (cut_of_imp (fun k hk => ?_) keys).2
    rw [← covers_append hs hne, covers, any_append]
    exact Bool.or_eq_true_iff.mpr (.inl hk)

theorem ended_append : ended cmp b ks (m ++ m') = (ended cmp b ks m || ended cmp b ks m') := by
  by_cases hne : m' = []
  · have hnil : ended cmp b ks [] = false := rfl
    rw [hne, append_nil, hnil, Bool.or_false]
  · have hsame : ended cmp b ks (m ++ m') = ended cmp b ks m' := by
      rw [ended, covers_append hs hne, any_append_of_up hs hne fun e e' => past_of_lt, ended]
    cases hm : ended cmp b ks m with
    | false => rw [hsame, Bool.false_or]
    | true => rw [ended_mono (subset_append_left ..) hm, Bool.true_or]

end

theorem leafHits_append {l1 l2 : List Bindings} (hs : Sorted cmp l1.flatten) (keys : List Bytes) :
    leafHits cmp (l1 ++ l2) keys =
      leafHits cmp l1 keys ++ leafHits cmp l2 (keys.dropWhile (covers cmp l1.flatten)) := by
  induction l1 generalizing keys with
  | nil =>
    rw [flatten_nil, dropWhile_covers_nil]
    rfl
  | cons leaf l1 ih =>
    rw [flatten_cons] at hs ⊢
    rw [cons_append, leafHits, leafHits, ih (pairwise_append.mp hs).2.1,
      dropWhile_covers hs, append_assoc]

theorem lateHits_append {l1 l2 : List Bindings} (hs : Sorted cmp l1.flatten) :
    lateHits cmp b ks (l1 ++ l2) =
      if ended cmp b ks l1.flatten then
        lateHits cmp b ks l1 ++ leafHits cmp l2 (ks.dropWhile (covers cmp l1.flatten))
      else lateHits cmp b ks l2 := by
  induction l1 with
  | nil => rfl
  | cons leaf l1 ih =>
    rw [flatten_cons] at hs ⊢
    have hs' := (pairwise_append.mp hs).2.1
    rw [cons_append, lateHits, lateHits, ended_append hs, leafHits_append hs', ih hs',
      dropWhile_covers hs]
    cases ended cmp b ks leaf with
    | true => simp
    | false =>
      simp only [Bool.false_eq_true, if_false, Bool.false_or]
      split_ifs with hend
      · have hne : l1.flatten ≠ [] := by
          rintro hnil
          rw [hnil] at hend
          cases hend
        rw [covers_append hs hne]
      · rfl

theorem window {e : Bytes × Bytes} (he : (cmp e.1 K).isLE) :
    within cmp b (ks.takeWhile fun x => cmp K x != .lt) e = within cmp b ks e ∧
      past cmp (ks.takeWhile fun x => cmp K x != .lt) e = past cmp ks e := by
  cases ks with
  | nil => exact ⟨rfl, rfl⟩
  | cons x ks =>
    cases hx : cmp K x with
    | lt => simp [within, past, hx, TransCmp.lt_of_isLE_of_lt he hx]
    | eq => simp [within, past, hx]
    | gt => simp [within, past, hx]

theorem covers_le (hK : ∀ e ∈ m, (cmp e.1 K).isLE) (k : Bytes)
    (hk : covers cmp m k = true) : (cmp K k != .lt) = true := by
  obtain ⟨e, he, hek⟩ := any_eq_true.mp hk
  have hek' : cmp e.1 k ≠ .lt := by simpa using hek
  simpa using fun hlt => hek' (TransCmp.lt_of_isLE_of_lt (hK e he) hlt)

theorem hits_window {its : Bindings} (hK : ∀ e ∈ its, (cmp e.1 K).isLE) (keys : List Bytes) :
    hits cmp its (keys.takeWhile fun x => cmp K x != .lt) = hits cmp its keys := by
  induction its generalizing keys with
  | nil => cases keys <;> rfl
  | cons e its ih =>
    have ih' := ih fun x hx => hK x (.tail _ hx)
    cases keys with
    | nil => rfl
    | cons key keys =>
      by_cases hkey : cmp K key = .lt
      · have hnone : ∀ x ∈ e :: its, cmp x.1 key ≠ .eq := fun x hx heq => by
          rw [TransCmp.lt_of_isLE_of_lt (hK x hx) hkey] at heq
          cases heq
        rw [takeWhile_cons_of_neg (by simp [hkey]), hits_eq_nil hnone, hits_nil]
      · have hcut : (key :: keys).takeWhile (fun x => cmp K x != .lt) =
            key :: keys.takeWhile (fun x => cmp K x != .lt) := by simp [hkey]
        rw [hcut, hits, hits, ← hcut, ih', ih']

/-- The keys up to `K` are as good as all keys where no item lies behind `K`. -/
theorem leafHits_window (hK : ∀ e ∈ ls.flatten, (cmp e.1 K).isLE) (keys : List Bytes) :
    leafHits cmp ls (keys.takeWhile fun x => cmp K x != .lt) = leafHits cmp ls keys := by
  induction ls generalizing keys with
  | nil => rfl
  | cons leaf ls ih =>
    rw [flatten_cons, forall_mem_append] at hK
    rw [leafHits, leafHits, hits_window hK.1, (cut_of_imp (covers_le hK.1) keys).1, ih hK.2]

theorem lateHits_window (hK : ∀ e ∈ ls.flatten, (cmp e.1 K).isLE) :
    lateHits cmp b (ks.takeWhile fun x => cmp K x != .lt) ls = lateHits cmp b ks ls := by
  induction ls with
  | nil => rfl
  | cons leaf ls ih =>
    rw [flatten_cons, forall_mem_append] at hK
    have hpast (e) (he : e ∈ leaf) : past cmp (ks.takeWhile fun x => cmp K x != .lt) e =
        past cmp ks e := (window (b := b) (hK.1 e he)).2
    rw [lateHits, lateHits, ended, ended, any_congr hpast, atEnd, atEnd, List.find?_congr hpast,
      (cut_of_imp (covers_le hK.1) ks).1, leafHits_window hK.2, ih hK.2]

end Cut

section Fold
variable {cmp : Bytes → Bytes → Ordering} {b : Bytes} {ks : List Bytes} {h : ℕ}

/-- How a fold goes on below a node: it calls back for the items of the range, and after that for
the late hits and for keys that it does not find. -/
structure Folds (cmp : Bytes → Bytes → Ordering) (b : Bytes) (ks : List Bytes) (ls : List Bindings)
    (calls : List Call) (fl : Flags) : Prop where
  calls : ∃ extra, calls = (ls.flatten.filter (within cmp b ks)).map hit ++ extra ∧
    found extra = lateHits cmp b ks ls ∧
    (ks.length ≤ 1 ∨ ended cmp b ks ls.flatten = false → extra = (lateHits cmp b ks ls).map hit)
  flags : fl = if ended cmp b ks ls.flatten then .off else .on

theorem nodeCalls_start (ts : List (Node (h + 1))) :
    (nodeCalls cmp ts (b :: ks) .start).1 = (nodeCalls cmp ts (b :: ks) .on).1 := by
  have hkp : kpCalls cmp (nodeCalls cmp) ts (b :: ks) .start =
        kpCalls cmp (nodeCalls cmp) ts (b :: ks) .on ∨
      kpCalls cmp (nodeCalls cmp) ts (b :: ks) .start = ([], b :: ks, .start) ∧
        kpCalls cmp (nodeCalls cmp) ts (b :: ks) .on = ([], b :: ks, .on) := by
    induction ts with
    | nil => exact .inr ⟨rfl, rfl⟩
    | cons t ts ih =>
      by_cases hcmp : cmp t.key b = .lt
      · simpa only [kpCalls, if_pos hcmp] using ih
      · exact .inl (by simp only [kpCalls, if_neg hcmp, Bool.false_or, Bool.true_or])
  obtain hkp | ⟨hstart, hon⟩ := hkp
  · simp only [nodeCalls, hkp]
  · simp only [nodeCalls, hstart, hon]
    rfl

theorem dropWhile_of_past {its : Bindings} (hlen : ks.length ≤ 1)
    (hpast : its.any (past cmp ks) = true) : ks.dropWhile (covers cmp its) = [] := by
  match ks, hlen with
  | [], _ => rfl
  | [x], _ =>
    obtain ⟨e, he, hgt⟩ := any_eq_true.mp hpast
    have hcov : covers cmp its x = true := by
      refine any_eq_true.mpr ⟨e, he, ?_⟩
      rw [show cmp e.1 x = .gt by simpa [past] using hgt]
      rfl
    simp [hcov]

variable [TransCmp cmp]

theorem covers_contents {t : Node h} (ht : t.Proper) (hs : Sorted cmp t.contents) :
    covers cmp t.contents = fun k => cmp t.key k != .lt := by
  funext k
  rw [Bool.eq_iff_iff]
  refine ⟨covers_le (Node.isLE_getLast hs ht.getLast) k, fun hk => ?_⟩
  obtain ⟨e, he, hkey⟩ := Option.map_eq_some_iff.mp ht.getLast
  exact any_eq_true.mpr ⟨e, mem_of_getLast? he, hkey ▸ hk⟩

theorem kpCalls_off_found {ts : List (Node (h + 1))}
    (hd : ∀ t ∈ ts, ∀ keys, found (nodeCalls cmp t.items keys .off).1 = leafHits cmp (leaves t.items) keys ∧
      (nodeCalls cmp t.items keys .off).2 = .off)
    (hp : ∀ t ∈ ts, t.Proper) (hs : Sorted cmp (ts.flatMap Node.contents)) (keys : List Bytes) :
    found (kpCalls cmp (nodeCalls cmp) ts keys .off).1 = leafHits cmp (leaves ts) keys ∧
      (kpCalls cmp (nodeCalls cmp) ts keys .off).2.2 = .off := by
  induction ts generalizing keys with
  | nil => exact ⟨rfl, rfl⟩
  | cons t ts ih =>
    have ht := hp t (.head _)
    have hs1 := (pairwise_flatMap.mp hs).1 t (.head _)
    have ih' := ih (fun x hx => hd x (.tail _ hx)) (fun x hx => hp x (.tail _ hx))
      (pairwise_append.mp (flatMap_cons ▸ hs)).2.1
    have hflat : (leaves t.items).flatten = t.contents := leaves_flatten t.items
    have hle := Node.isLE_getLast hs1 ht.getLast
    have hsplit : leafHits cmp (leaves (t :: ts)) keys = leafHits cmp (leaves t.items) keys ++
        leafHits cmp (leaves ts) (keys.dropWhile fun k => cmp t.key k != .lt) := by
      rw [← covers_contents ht hs1, ← hflat]
      exact leafHits_append (hflat ▸ hs1) keys
    rw [hsplit, ← leafHits_window (hflat ▸ hle)]
    cases keys with
    | nil => exact ⟨by simp [kpCalls, leafHits_nil, found], rfl⟩
    | cons key keys =>
      rw [kpCalls]
      by_cases hlt : cmp t.key key = .lt
      · simpa [hlt, leafHits_nil] using ih' (key :: keys)
      · obtain ⟨hf, hoff⟩ := hd t (.head _) (key :: keys.takeWhile fun x => cmp t.key x != .lt)
        simp [hlt, hf, hoff, ih']

theorem nodeCalls_off_found {ts : List (Node h)} (hp : ∀ t ∈ ts, t.Proper)
    (hs : Sorted cmp (ts.flatMap Node.contents)) (keys : List Bytes) :
    found (nodeCalls cmp ts keys .off).1 = leafHits cmp (leaves ts) keys ∧
      (nodeCalls cmp ts keys .off).2 = .off := by
  induction h generalizing keys with
  | zero =>
    obtain ⟨hf, hoff⟩ := leafCalls_off_found cmp ts keys
    exact ⟨hf.trans (append_nil _).symm, hoff⟩
  | succ h ih =>
    have hchild := (pairwise_flatMap.mp hs).1
    simpa only [nodeCalls, found_append, found_restCalls, append_nil] using
      kpCalls_off_found (fun t ht keys => ih (hp t ht).2.1 (hchild t ht) keys) hp hs keys

theorem folds_leaf {its : Bindings} (hs : Sorted cmp its) (hcov : covers cmp its b = true) :
    Folds cmp b ks [its] (leafCalls cmp its (b :: ks) .on).1 (leafCalls cmp its (b :: ks) .on).2 := by
  have hflat : [its].flatten = its := append_nil its
  have hlate : lateHits cmp b ks [its] = atEnd cmp b ks its := by
    rw [lateHits, ended, hcov, Bool.true_and]
    split_ifs with hpast
    · exact append_nil _
    · rw [atEnd, List.find?_eq_none.mpr (by simpa using hpast)]
      rfl
  rw [leafCalls_on hs]
  refine ⟨⟨(atEnd cmp b ks its).map hit, ?_, ?_, fun _ => by rw [hlate]⟩, ?_⟩
  · rw [hflat, map_append]
  · rw [hlate, found_map_hit]
  · rw [hflat, ended, hcov, Bool.true_and]

theorem folds_interior {ts : List (Node (h + 1))}
    (hd : ∀ t ∈ ts, cmp t.key b ≠ .lt → ∀ ks', Folds cmp b ks' (leaves t.items)
      (nodeCalls cmp t.items (b :: ks') .on).1 (nodeCalls cmp t.items (b :: ks') .on).2)
    (hp : ∀ t ∈ ts, t.Proper) (hs : Sorted cmp (ts.flatMap Node.contents)) :
    Folds cmp b ks (leaves ts) (nodeCalls cmp ts (b :: ks) .on).1
      (nodeCalls cmp ts (b :: ks) .on).2 := by
  rw [nodeCalls]
  induction ts with
  | nil => exact ⟨⟨[], rfl, rfl, fun _ => rfl⟩, rfl⟩
  | cons t ts ih =>
    have ht := hp t (.head _)
    have hp' : ∀ x ∈ ts, x.Proper := fun x hx => hp x (.tail _ hx)
    have hchild := (pairwise_flatMap.mp hs).1
    have hs1 := hchild t (.head _)
    have hle := Node.isLE_getLast hs1 ht.getLast
    have hcov := covers_contents ht hs1
    have hflat : (leaves t.items).flatten = t.contents := leaves_flatten t.items
    have hsplit : leaves (t :: ts) = leaves t.items ++ leaves ts := flatMap_cons
    rw [flatMap_cons] at hs
    obtain ⟨-, hs', hcross⟩ := pairwise_append.mp hs
    obtain ⟨⟨extra, hcalls, hfound, hone⟩, hflags⟩ := ih (fun x hx => hd x (.tail _ hx)) hp' hs'
    have hend : ended cmp b ks (t.contents ++ ts.flatMap Node.contents) = _ := ended_append hs
    rw [← leaves_flatten ts] at hend
    have hlate : lateHits cmp b ks (leaves t.items ++ leaves ts) = _ := lateHits_append (hflat ▸ hs1)
    rw [hflat] at hlate
    by_cases hcmp : cmp t.key b = .lt
    · -- all of the first child lies in front of the range
      have hnone : t.contents.filter (within cmp b ks) = [] :=
        filter_eq_nil_iff.mpr fun e he => by
          simp [within, TransCmp.lt_of_isLE_of_lt (hle e he) hcmp]
      have hfalse : ended cmp b ks t.contents = false := by simp [ended, hcov, hcmp]
      rw [hfalse, Bool.false_or] at hend
      rw [hfalse, if_neg Bool.false_ne_true] at hlate
      simp only [kpCalls, if_pos hcmp, hsplit]
      refine ⟨⟨extra, ?_, hlate ▸ hfound, ?_⟩, ?_⟩
      · rw [flatten_append, hflat, filter_append, hnone, nil_append]
        exact hcalls
      · rw [flatten_append, hflat, hend, hlate]
        exact hone
      · rw [flatten_append, hflat, hend]
        exact hflags
    · obtain ⟨⟨extra1, hcalls1, hfound1, hone1⟩, hflags1⟩ :=
        hd t (.head _) hcmp (ks.takeWhile fun x => cmp t.key x != .lt)
      have hpast (e) (he : e ∈ t.contents) : past cmp (ks.takeWhile fun x => cmp t.key x != .lt) e =
          past cmp ks e := (window (b := b) (hle e he)).2
      rw [hflat, filter_congr fun e he => (window (hle e he)).1] at hcalls1
      rw [lateHits_window (hflat ▸ hle)] at hfound1 hone1
      rw [hflat, ended, any_congr hpast, ← ended] at hflags1 hone1
      simp only [kpCalls, if_neg hcmp, Bool.true_or, hflags1, hsplit]
      cases hended : ended cmp b ks t.contents with
      | false =>
        have hnone : lateHits cmp b ks (leaves t.items) = [] := lateHits_of_not_ended (hflat ▸ hended)
        rw [hnone] at hone1
        obtain rfl := hone1 (.inr hended)
        rw [hended, Bool.false_or] at hend
        rw [hended, if_neg Bool.false_ne_true] at hlate
        simp only [Bool.false_eq_true, if_false, if_true]
        refine ⟨⟨extra, ?_, hlate ▸ hfound, ?_⟩, ?_⟩
        · rw [hcalls1, flatten_append, hflat, filter_append, map_append, map_nil,
            append_nil, append_assoc, append_assoc]
          exact congrArg _ hcalls
        · rw [flatten_append, hflat, hend, hlate]
          exact hone
        · rw [flatten_append, hflat, hend]
          exact hflags
      | true =>
        -- the range ends in the first child, and single lookups go on behind it
        have hpast1 := (Bool.and_eq_true_iff.mp hended).2
        obtain ⟨e0, he0, hpast0⟩ := any_eq_true.mp hpast1
        have hbehind : (ts.flatMap Node.contents).filter (within cmp b ks) = [] :=
          filter_eq_nil_iff.mpr fun e he => by
            simp [not_within_of_past (past_of_lt hpast0 (hcross e0 he0 e he))]
        obtain ⟨hf, hoff⟩ := kpCalls_off_found (fun x hx _ => nodeCalls_off_found (hp' x hx).2.1
          (hchild x (.tail _ hx)) _) hp' hs' (ks.dropWhile fun x => cmp t.key x != .lt)
        rw [hended, Bool.true_or] at hend
        rw [hended, if_pos rfl, hcov] at hlate
        rcases hrun : kpCalls cmp (nodeCalls cmp) ts (ks.dropWhile fun x => cmp t.key x != .lt) .off with
          ⟨calls, rest, fl⟩
        rw [hrun] at hf hoff
        simp only [if_true, Bool.false_eq_true, if_false, hrun]
        refine ⟨⟨extra1 ++ (calls ++ restCalls rest fl), ?_, ?_, ?_⟩, ?_⟩
        · rw [hcalls1, flatten_append, hflat, filter_append, leaves_flatten, hbehind]
          simp only [append_nil, append_assoc]
        · rw [hlate, found_append, found_append, hfound1, hf, found_restCalls, append_nil]
        · rintro (hlen | hfalse)
          · have hlen1 := (takeWhile_sublist fun x => cmp t.key x != .lt).length_le.trans hlen
            have hdrop := dropWhile_of_past hlen hpast1
            rw [hcov] at hdrop
            rw [hlate, hone1 (.inl hlen1), hdrop, leafHits_nil, append_nil]
            rw [hdrop] at hrun
            cases ts <;> cases hrun <;> exact append_nil _
          · rw [flatten_append, hflat, hend] at hfalse
            cases hfalse
        · rw [flatten_append, hflat, hend]
          exact hoff

theorem folds_node {ts : List (Node h)} (hp : ∀ t ∈ ts, t.Proper)
    (hs : Sorted cmp (ts.flatMap Node.contents))
    (hcov : h = 0 → covers cmp (ts.flatMap Node.contents) b = true) :
    Folds cmp b ks (leaves ts) (nodeCalls cmp ts (b :: ks) .on).1
      (nodeCalls cmp ts (b :: ks) .on).2 := by
  induction h generalizing ks with
  | zero =>
    have hts : ts.flatMap Node.contents = ts := flatMap_singleton' ts
    rw [hts] at hs hcov
    exact folds_leaf hs (hcov rfl)
  | succ h ih =>
    have hchild := (pairwise_flatMap.mp hs).1
    refine folds_interior (fun t ht hkey _ => ih (hp t ht).2.1 (hchild t ht) fun _ => ?_) hp hs
    have hcov' : covers cmp t.contents b = _ := congrFun (covers_contents (hp t ht) (hchild t ht)) b
    exact hcov'.trans (by simpa using hkey)

end Fold

def Tree.leaves : Tree → List Bindings
  | .empty => []
  | .root _ ts => Couchstore.leaves ts

/-- What a fold calls back for besides the items of its range. -/
def Tree.strays (cmp : Bytes → Bytes → Ordering) (b : Bytes) (ks : List Bytes) (t : Tree) : Bindings :=
  if t.height = 0 then leafStrays cmp b ks t.contents else lateHits cmp b ks t.leaves

section Scan
variable {cmp : Bytes → Bytes → Ordering} [TransCmp cmp] {t : Tree} {b : Bytes} {ks : List Bytes}

theorem Tree.WellFormed.calls_fold (hwf : t.WellFormed cmp) :
    found (t.calls cmp (b :: ks) .start) = t.contents.filter (within cmp b ks) ++ t.strays cmp b ks ∧
      (ks.length ≤ 1 → t.calls cmp (b :: ks) .start =
        (t.contents.filter (within cmp b ks) ++ t.strays cmp b ks).map hit) := by
  match t, hwf with
  | .empty, _ => exact ⟨rfl, fun _ => rfl⟩
  | .root 0 its, hwf =>
    have hcontents : (Tree.root 0 its).contents = its := flatMap_singleton' its
    have hcalls : (Tree.root 0 its).calls cmp (b :: ks) .start =
        ((Tree.root 0 its).contents.filter (within cmp b ks) ++
          (Tree.root 0 its).strays cmp b ks).map hit := by
      have hs := hwf.sorted
      rw [Tree.strays, if_pos (by rfl)]
      rw [hcontents] at hs ⊢
      exact leafCalls_start hs
    refine ⟨?_, fun _ => hcalls⟩
    rw [hcalls, found_map_hit]
  | .root (h + 1) ts, hwf =>
    have hp := (hwf.proper (h + 1) ts rfl).2
    have hcontents : (Tree.root (h + 1) ts).contents = (Couchstore.leaves ts).flatten :=
      (leaves_flatten ts).symm
    obtain ⟨extra, hfold, hfound, hone⟩ := (folds_node (b := b) hp hwf.sorted nofun).calls
    have hcalls : (Tree.root (h + 1) ts).calls cmp (b :: ks) .start =
        ((Tree.root (h + 1) ts).contents.filter (within cmp b ks)).map hit ++ extra := by
      rw [Tree.calls, nodeCalls_start, hfold, hcontents]
    rw [hcalls, Tree.strays, if_neg (by exact Nat.succ_ne_zero h)]
    refine ⟨?_, fun hlen => ?_⟩
    · rw [found_append, found_map_hit, hfound]
      rfl
    · rw [hone (.inl hlen), map_append]
      rfl

/-- The root is a leaf that has nothing in the range, and something behind it. -/
def Tree.Overshoots (cmp : Bytes → Bytes → Ordering) (t : Tree) (b : Bytes) (ks : List Bytes) :
    Prop :=
  t.height = 0 ∧ (∀ e ∈ t.contents, ¬ within cmp b ks e) ∧ ∃ e ∈ t.contents, past cmp ks e

theorem leafStrays_eq_nil {its : Bindings} (hb : ∀ e ∈ its, past cmp ks e = true → cmp b e.1 = .lt) :
    leafStrays cmp b ks its = [] ↔
      ¬ ((∀ e ∈ its, ¬ within cmp b ks e) ∧ ∃ e ∈ its, past cmp ks e) := by
  rw [leafStrays]
  split_ifs with hany
  · obtain ⟨x, hx, hin⟩ := any_eq_true.mp hany
    exact iff_of_true rfl fun h => h.1 x hx hin
  · have hout : ∀ e ∈ its, ¬ within cmp b ks e := by simpa using hany
    rw [and_iff_right hout, Option.toList_eq_nil_iff, List.find?_eq_none, not_exists]
    refine forall_congr' fun e => ?_
    rw [not_and]
    refine imp_congr_right fun he => not_congr ?_
    constructor
    · intro hbe
      by_contra hpast
      exact hout e he ((within_eq_of_not_past (by simpa using hpast)).trans hbe)
    · intro hpast
      simp [OrientedCmp.gt_of_lt (hb e he hpast)]

theorem lateHits_eq_nil (hb : ∀ e ∈ ks.head?, cmp b e ≠ .gt) (hone : ks.length ≤ 1)
    (leaves : List Bindings) : lateHits cmp b ks leaves = [] := by
  induction leaves with
  | nil => rfl
  | cons leaf leaves ih =>
    rw [lateHits]
    split_ifs with hend
    · have hpast := (Bool.and_eq_true_iff.mp hend).2
      rw [dropWhile_of_past hone hpast, leafHits_nil, append_nil, atEnd,
        Option.toList_eq_nil_iff, Option.filter_eq_none_iff]
      intro e he
      simp [OrientedCmp.gt_of_lt (past_lt hb (List.find?_some he))]
    · exact ih

theorem strays_eq_nil (hb : ∀ e ∈ ks.head?, cmp b e ≠ .gt) (hone : ks.length ≤ 1) :
    t.strays cmp b ks = [] ↔ ¬ t.Overshoots cmp b ks := by
  rw [Tree.strays, Tree.Overshoots]
  split_ifs with hheight
  · rw [leafStrays_eq_nil fun e _ => past_lt hb, and_iff_right hheight]
  · exact iff_of_true (lateHits_eq_nil hb hone t.leaves) fun h => hheight h.1

/-- A fold over one range that meets no read error succeeds. It calls back once for each item
of the range, in order and for nothing else, exactly when the root is no leaf that overshoots. -/
theorem btreeLookup_fold_iff {plat : Platform} {ptr : NodePointer} {env env' : Env (List Call)}
    {fuel : ℕ} {e : Errcode} {k₀ : Bytes} (k₁ : Option Bytes)
    (hat : TreeAt plat env.file (some ptr) t) (hwf : t.WellFormed cmp)
    (hk : ∀ k ∈ k₁, cmp k₀ k ≠ .gt) (hctx : env.ctx = []) (hfuel : t.height < fuel)
    (hl : btreeLookup (recordRequest plat cmp) fuel ptr.pointer (k₀ :: k₁.toList) true env = (e, env'))
    (hf : env'.failed = false) :
    e = .success ∧ (env'.ctx = (t.contents.filter (within cmp k₀ k₁.toList)).map hit ↔
        ¬ t.Overshoots cmp k₀ k₁.toList) := by
  obtain ⟨he, hcalls⟩ := btreeLookup_record hat hctx hfuel hl hf
  have hb : ∀ k ∈ k₁.toList.head?, cmp k₀ k ≠ .gt := by rwa [Option.head?_toList]
  have hone : k₁.toList.length ≤ 1 := by cases k₁ <;> simp
  refine ⟨he, ?_⟩
  rw [hcalls, hwf.calls_fold.2 hone, map_append, append_right_eq_self, map_eq_nil_iff]
  exact strays_eq_nil hb hone

end Scan

/-- The range has the first item of the leaf. -/
theorem btreeLookup_fold_one_item :
    ∃ env', btreeLookup (recordRequest bufferedPlatform ebinCmp) 1 0 [[1], [2]] true
        ⟨pairFile, [], false⟩ = (.success, env') ∧ env'.ctx = [([1], some [10])] := by
  have hos : bufferedPlatform.os.Reliable := fun n h => by cases h
  obtain ⟨env', hl, hf⟩ := btreeLookup_reliable hos [[1], [2]] true treeAt_pairRoot Nat.zero_lt_one
  obtain ⟨-, hiff⟩ := btreeLookup_fold_iff (some [2]) treeAt_pairRoot wellFormed_pairLeaf
    (by rintro k ⟨⟩; decide) rfl Nat.zero_lt_one hl hf
  refine ⟨env', hl, hiff.mpr ?_⟩
  rintro ⟨-, hnone, -⟩
  exact hnone ([1], [10]) (.head _) (by decide)

/-- The range lies between the two items of the leaf, and the second one is called back for. -/
theorem btreeLookup_fold_overshoots :
    ∃ env', btreeLookup (recordRequest bufferedPlatform ebinCmp) 1 0 [[2], [2]] true
        ⟨pairFile, [], false⟩ = (.success, env') ∧ env'.failed = false ∧
      TreeAt bufferedPlatform pairFile (some pairRoot) (.root 0 pairLeaf) ∧
      (Tree.root 0 pairLeaf).WellFormed ebinCmp ∧ env'.ctx = [([3], some [30])] ∧
      (Tree.root 0 pairLeaf).contents.filter (within ebinCmp [2] [[2]]) = [] := by
  have hos : bufferedPlatform.os.Reliable := fun n h => by cases h
  obtain ⟨env', hl, hf⟩ := btreeLookup_reliable hos [[2], [2]] true treeAt_pairRoot Nat.zero_lt_one
  obtain ⟨-, hcalls⟩ := btreeLookup_record treeAt_pairRoot rfl Nat.zero_lt_one hl hf
  exact ⟨env', hl, hf, treeAt_pairRoot, wellFormed_pairLeaf, hcalls.trans (by decide), by decide⟩

end Appstack.Couchstore
