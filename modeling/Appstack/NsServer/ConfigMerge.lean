import Appstack.Lib.Dict

-- `ns_config.erl` and `vclock.erl`.

namespace Appstack.NsServer.ConfigMerge

open List

/-- `vclock()`: for every node its counter and the time of its last change. -/
abbrev VClock (ν : Type) := List (ν × ℤ × ℤ)

namespace VClock

variable {ν : Type} [DecidableEq ν]

def getValue (node : ν) (c : VClock ν) : Option (ℤ × ℤ) := c.lookup node

def simplifyInto : VClock ν → VClock ν → VClock ν
  | [], acc => acc
  | (node, ctr₁, ts₁) :: c, acc =>
    let (ctr₂, ts₂) := (getValue node acc).getD (ctr₁, ts₁)
    let entry := if ctr₂ < ctr₁ then (ctr₁, ts₁) else (ctr₂, ts₂)
    simplifyInto c ((node, entry) :: acc.filter fun x => x.1 ≠ node)

def simplify (c : VClock ν) : VClock ν := simplifyInto c []

def extend (entry : ν × ℤ × ℤ) (c : VClock ν) : VClock ν := simplify (entry :: c)

def increment (node : ν) (now : ℤ) (c : VClock ν) : VClock ν :=
  match getValue node c with
  | none => extend (node, 1, now) c
  | some (ctr, _) => extend (node, ctr + 1, now) c

def merge (cs : List (VClock ν)) : VClock ν :=
  cs.foldl (fun acc c => c.foldl (fun acc entry => extend entry acc) acc) []

def descends (a : VClock ν) : VClock ν → Bool
  | [] => true
  | (node, ctr, _) :: b =>
    match getValue node a with
    | none => false
    | some (ctrA, _) => if ctrA < ctr then false else descends a b

def likelyNewer (a b : VClock ν) : Bool :=
  a.any fun (node, _, ts) =>
    match b.lookup node with
    | none => false
    | some (_, tsB) => tsB < ts

end VClock

open VClock

inductive Elem (ν τ : Type)
  | vclock (c : VClock ν)
  | term (t : τ)
  deriving DecidableEq, Repr

/-- A value: the elements of a list and what stands behind them, which is `none` for a proper
list. A term that is no list has no elements. -/
structure Value (ν τ : Type) where
  items : List (Elem ν τ)
  tail : Option τ
  deriving DecidableEq, Repr

variable {ν τ : Type}

namespace Value

def isList (v : Value ν τ) : Bool := v.tail.isNone || !v.items.isEmpty

def stripMetadata (v : Value ν τ) : Value ν τ :=
  match v.items with
  | .vclock _ :: rest => { v with items := rest }
  | _ => v

def extractVclock (v : Value ν τ) : VClock ν :=
  match v.items with
  | .vclock c :: _ => c
  | _ => []

def withClock (c : VClock ν) (v : Value ν τ) : Value ν τ :=
  { v.stripMetadata with items := .vclock c :: v.stripMetadata.items }

theorem stripMetadata_withClock (c : VClock ν) (v : Value ν τ) :
    (v.withClock c).stripMetadata = v.stripMetadata := rfl

end Value

open Value

/-- What a node adds to a merge: its name, its time and the order of terms. -/
structure Node (ν τ : Type) where
  name : ν
  now : ℤ
  sortClock : VClock ν → VClock ν
  lt : Value ν τ → Value ν τ → Bool

variable [DecidableEq ν] [DecidableEq τ]

def incrementVclock (n : Node ν τ) (new old : Value ν τ) : Value ν τ :=
  new.withClock (n.sortClock (increment n.name n.now old.extractVclock))

def mergeVclocks (n : Node ν τ) (new old : Value ν τ) : Value ν τ :=
  if new.extractVclock = [] ∧ old.extractVclock = [] then new
  else new.withClock (n.sortClock (merge [old.extractVclock, new.extractVclock]))

def maxValue (n : Node ν τ) (l r : Value ν τ) : Value ν τ := if n.lt l r then r else l

/-- `merge_list_values` on the node `n`, for the remote value `r` and the local value `l` of one
key. -/
def mergeListValues (n : Node ν τ) (r l : Value ν τ) : Value ν τ :=
  if r = l then r
  else
    match descends r.extractVclock l.extractVclock, descends l.extractVclock r.extractVclock with
    | true, false => r
    | false, true => l
    | _, _ =>
      if r.stripMetadata = l.stripMetadata then maxValue n l r
      else
        let v := if likelyNewer l.extractVclock r.extractVclock then l else r
        incrementVclock n v (mergeVclocks n r l)

theorem stripMetadata_mergeListValues (n : Node ν τ) (r l : Value ν τ) :
    (mergeListValues n r l).stripMetadata =
      if descends r.extractVclock l.extractVclock = descends l.extractVclock r.extractVclock then
        if likelyNewer l.extractVclock r.extractVclock then l.stripMetadata else r.stripMetadata
      else if descends r.extractVclock l.extractVclock then r.stripMetadata
      else l.stripMetadata := by
  unfold mergeListValues
  by_cases hrl : r = l
  · subst hrl
    simp
  rw [if_neg hrl]
  -- both clocks descend from each other, or none from the other
  have hsame : (if r.stripMetadata = l.stripMetadata then maxValue n l r
      else incrementVclock n (if likelyNewer l.extractVclock r.extractVclock then l else r)
        (mergeVclocks n r l)).stripMetadata =
      if likelyNewer l.extractVclock r.extractVclock then l.stripMetadata
      else r.stripMetadata := by
    by_cases hs : r.stripMetadata = l.stripMetadata
    · rw [if_pos hs, hs, ite_self]
      unfold maxValue
      split_ifs
      · exact hs
      · rfl
    · rw [if_neg hs, incrementVclock, stripMetadata_withClock]
      split_ifs <;> rfl
  cases descends r.extractVclock l.extractVclock with
  | true =>
    cases descends l.extractVclock r.extractVclock with
    | true => exact hsame
    | false => rfl
  | false =>
    cases descends l.extractVclock r.extractVclock with
    | true => rfl
    | false => exact hsame

/-- The clocks decide between two values: one is strictly newer, or they are on a par and exactly
one of them has a later timestamp. -/
def Decides (a b : VClock ν) : Prop :=
  descends a b ≠ descends b a ∨ likelyNewer a b ≠ likelyNewer b a

/-- A merge keeps the same value whichever of the two is the remote one exactly if the values are
equal up to their clocks or the clocks decide between them. -/
theorem mergeListValues_comm_iff (n n' : Node ν τ) (v w : Value ν τ) :
    (mergeListValues n v w).stripMetadata = (mergeListValues n' w v).stripMetadata ↔
      v.stripMetadata = w.stripMetadata ∨ Decides v.extractVclock w.extractVclock := by
  rw [stripMetadata_mergeListValues, stripMetadata_mergeListValues]
  unfold Decides
  cases descends v.extractVclock w.extractVclock <;>
    cases descends w.extractVclock v.extractVclock <;>
    cases likelyNewer v.extractVclock w.extractVclock <;>
    cases likelyNewer w.extractVclock v.extractVclock <;>
    simp [eq_comm]

section

variable {κ β : Type} [LinearOrder κ]

def ukeymergewith (f : κ → β → β → β) : List (κ × β) → List (κ × β) → List (κ × β)
  | [], l₂ => l₂
  | l₁, [] => l₁
  | (k₁, a) :: r₁, (k₂, b) :: r₂ =>
    if k₁ = k₂ then (k₁, f k₁ a b) :: ukeymergewith f r₁ r₂
    else if k₁ < k₂ then (k₁, a) :: ukeymergewith f r₁ ((k₂, b) :: r₂)
    else (k₂, b) :: ukeymergewith f ((k₁, a) :: r₁) r₂
  termination_by l₁ l₂ => l₁.length + l₂.length

def mergeOption (f : κ → β → β → β) (k : κ) : Option β → Option β → Option β
  | some a, some b => some (f k a b)
  | some a, none => some a
  | none, b => b

def Ascending (l : List (κ × β)) : Prop := l.Pairwise fun x y => x.1 < y.1

variable {l : List (κ × β)}

theorem lookup_of_lt {k k' : κ} {a : β} (hl : Ascending ((k', a) :: l))
    (hk : k ≤ k') : l.lookup k = none := by
  rw [lookup_eq_none_iff]
  intro x hx
  have hlt : k' < x.1 := rel_of_pairwise_cons hl hx
  simpa using (hk.trans_lt hlt).ne

theorem lookup_ukeymergewith (f : κ → β → β → β) (k : κ) {l1 l2 : List (κ × β)}
    (h1 : Ascending l1) (h2 : Ascending l2) :
    (ukeymergewith f l1 l2).lookup k = mergeOption f k (l1.lookup k) (l2.lookup k) := by
  induction l1, l2 using ukeymergewith.induct with
  | case1 l2 => simp [ukeymergewith, mergeOption]
  | case2 l1 hne =>
    cases l1 with
    | nil => exact absurd rfl hne
    | cons x r1 =>
      rw [ukeymergewith]
      · cases List.lookup k (x :: r1) <;> rfl
      · simp
  | case3 a r1 k1 b r2 ih =>
    rw [ukeymergewith, if_pos rfl]
    by_cases hk : k = k1
    · subst hk
      simp [mergeOption]
    · have hkb : (k == k1) = false := by simpa using hk
      simp only [lookup_cons, hkb]
      exact ih (List.Pairwise.of_cons h1) (List.Pairwise.of_cons h2)
  | case4 k1 a r1 k2 b r2 hne hlt ih =>
    rw [ukeymergewith, if_neg hne, if_pos hlt]
    by_cases hk : k = k1
    · subst hk
      have hnone : List.lookup k ((k2, b) :: r2) = none := by
        have hkb : (k == k2) = false := by simpa using hne
        rw [lookup_cons, hkb]
        exact lookup_of_lt h2 hlt.le
      simp [hnone, mergeOption]
    · have hkb : (k == k1) = false := by simpa using hk
      rw [lookup_cons, lookup_cons, hkb]
      exact ih (List.Pairwise.of_cons h1) h2
  | case5 k1 a r1 k2 b r2 hne hge ih =>
    rw [ukeymergewith, if_neg hne, if_neg hge]
    have hlt : k2 < k1 := lt_of_le_of_ne (not_lt.mp hge) (Ne.symm hne)
    by_cases hk : k = k2
    · subst hk
      have hnone : List.lookup k ((k1, a) :: r1) = none := by
        have hkb : (k == k1) = false := by simpa using hlt.ne
        rw [lookup_cons, hkb]
        exact lookup_of_lt h1 hlt.le
      rw [hnone, lookup_cons_self, lookup_cons_self]
      rfl
    · have hkb : (k == k2) = false := by simpa using hk
      have hskip : ∀ l, List.lookup k ((k2, b) :: l) = List.lookup k l := by
        intro l
        rw [lookup_cons, hkb]
      rw [hskip, hskip]
      exact ih h1 (List.Pairwise.of_cons h2)

def sortByKey (l : List (κ × β)) : List (κ × β) := l.mergeSort fun x y => x.1 ≤ y.1

theorem sortByKey_ascending (h : (l.map Prod.fst).Nodup) : Ascending (sortByKey l) := by
  have hsorted : (sortByKey l).Pairwise fun x y => x.1 ≤ y.1 := by
    have htrans : ∀ a b c : κ × β, decide (a.1 ≤ b.1) → decide (b.1 ≤ c.1) →
        decide (a.1 ≤ c.1) := by
      intro a b c hab hbc
      exact decide_eq_true ((of_decide_eq_true hab).trans (of_decide_eq_true hbc))
    have htotal : ∀ a b : κ × β, decide (a.1 ≤ b.1) || decide (b.1 ≤ a.1) := by
      intro a b
      simpa using le_total a.1 b.1
    simpa [sortByKey] using pairwise_mergeSort htrans htotal l
  have hnodup : ((sortByKey l).map Prod.fst).Nodup :=
    ((mergeSort_perm l _).map Prod.fst).nodup_iff.mpr h
  rw [List.Nodup, pairwise_map] at hnodup
  apply (hsorted.and hnodup).imp
  intro x y hxy
  exact lt_of_le_of_ne hxy.1 hxy.2

theorem lookup_sortByKey (h : (l.map Prod.fst).Nodup) (k : κ) :
    (sortByKey l).lookup k = l.lookup k := by
  have hperm := mergeSort_perm l fun x y => decide (x.1 ≤ y.1)
  have hnodup : ((sortByKey l).map Prod.fst).Nodup := (hperm.map Prod.fst).nodup_iff.mpr h
  ext b
  rw [Lib.lookup_eq_some_iff hnodup, Lib.lookup_eq_some_iff h]
  exact hperm.mem_iff

/-- `merge_kv_pairs` on the node `n`, where `directory` is the key of the node's own directory. -/
def mergeKvPairs (directory : κ) (n : Node ν τ) (remote loc : List (κ × Value ν τ)) :
    List (κ × Value ν τ) :=
  if remote = loc then loc
  else ukeymergewith
    (fun k r l =>
      if k = directory then l
      else if r.isList || l.isList then mergeListValues n r l
      else r)
    (sortByKey remote) (sortByKey loc)

theorem lookup_mergeKvPairs {directory k : κ} (n : Node ν τ) {remote loc : List (κ × Value ν τ)}
    (hr : (remote.map Prod.fst).Nodup) (hl : (loc.map Prod.fst).Nodup) (hk : k ≠ directory)
    {v w : Value ν τ} (hv : remote.lookup k = some v) (hw : loc.lookup k = some w)
    (hlist : v.isList) :
    (mergeKvPairs directory n remote loc).lookup k = some (mergeListValues n v w) := by
  unfold mergeKvPairs
  split_ifs with heq
  · subst heq
    obtain rfl : v = w := Option.some.inj (hv.symm.trans hw)
    rw [hv, mergeListValues, if_pos rfl]
  · rw [lookup_ukeymergewith _ _ (sortByKey_ascending hr) (sortByKey_ascending hl),
      lookup_sortByKey hr, lookup_sortByKey hl, hv, hw]
    simp [mergeOption, hk, hlist]

/-- What two nodes keep for a key when each merges the other's value into its own: they agree
exactly if the values are equal up to their clocks or the clocks decide between them. It is the
same whether single values are merged or the configurations that they stand in. -/
theorem merge_agrees_iff (n n' : Node ν τ) (v w : Value ν τ) :
    ((mergeListValues n v w).stripMetadata = (mergeListValues n' w v).stripMetadata ↔
      v.stripMetadata = w.stripMetadata ∨ Decides v.extractVclock w.extractVclock) ∧
    ∀ (directory k : κ) (a b : List (κ × Value ν τ)), (a.map Prod.fst).Nodup →
      (b.map Prod.fst).Nodup → k ≠ directory → a.lookup k = some v → b.lookup k = some w →
      v.isList → w.isList →
      (((mergeKvPairs directory n a b).lookup k).map stripMetadata =
          ((mergeKvPairs directory n' b a).lookup k).map stripMetadata ↔
        v.stripMetadata = w.stripMetadata ∨ Decides v.extractVclock w.extractVclock) := by
  refine ⟨mergeListValues_comm_iff n n' v w, ?_⟩
  intro directory k a b ha hb hk hv hw hlv hlw
  rw [lookup_mergeKvPairs n ha hb hk hv hw hlv, lookup_mergeKvPairs n' hb ha hk hw hv hlw,
    Option.map_some, Option.map_some, Option.some.injEq]
  exact mergeListValues_comm_iff n n' v w

end

def setBy (node : ℕ) (ctr ts : ℤ) (t : ℕ) : Value ℕ ℕ :=
  ⟨[.vclock [(node, ctr, ts)], .term t], none⟩

def plainNode (name : ℕ) : Node ℕ ℕ where
  name := name
  now := 100
  sortClock := fun c => c.mergeSort fun x y => x.1 ≤ y.1
  lt := fun v w => v.items.length < w.items.length

/-- The same node changed the value again: both sides keep the later one. -/
theorem merge_agrees_later :
    (mergeListValues (plainNode 1) (setBy 1 1 10 5) (setBy 1 2 20 6)).stripMetadata =
        (mergeListValues (plainNode 2) (setBy 1 2 20 6) (setBy 1 1 10 5)).stripMetadata ∧
      ((mergeKvPairs 0 (plainNode 1) [(1, setBy 1 1 10 5)] [(1, setBy 1 2 20 6)]).lookup 1).map
          stripMetadata =
        ((mergeKvPairs 0 (plainNode 2) [(1, setBy 1 2 20 6)] [(1, setBy 1 1 10 5)]).lookup 1).map
          stripMetadata := by
  have hdec : Decides (setBy 1 1 10 5).extractVclock (setBy 1 2 20 6).extractVclock :=
    .inl (by decide)
  obtain ⟨hvalue, hconfig⟩ := merge_agrees_iff (κ := ℕ) (plainNode 1) (plainNode 2)
    (setBy 1 1 10 5) (setBy 1 2 20 6)
  exact ⟨hvalue.mpr (.inr hdec), (hconfig 0 1 _ _ (by decide) (by decide) (by decide) rfl rfl rfl
    rfl).mpr (.inr hdec)⟩

/-- Neither node has seen the change of the other one: each of them keeps what it receives. -/
theorem merge_swaps :
    (mergeListValues (plainNode 1) (setBy 2 1 20 6) (setBy 1 1 10 5)).stripMetadata ≠
      (mergeListValues (plainNode 2) (setBy 1 1 10 5) (setBy 2 1 20 6)).stripMetadata := by
  rw [stripMetadata_mergeListValues, stripMetadata_mergeListValues]
  decide

end Appstack.NsServer.ConfigMerge
