import Appstack.Couchstore.BtreeCollect
import Appstack.Couchstore.Compare
import Appstack.Couchstore.Framing

namespace Appstack.Couchstore

open List

variable {τ β : Type*}

/-- The first `n` items reach the quota, and are two or all of them in an interior node. -/
def Reaches (nodeType : NodeType) (values : List Item) (mrQuota n : ℕ) : Prop :=
  mrQuota ≤ ((values.take n).map Item.size).sum ∧ (nodeType = .kp → n < 2 → values.length ≤ n)

/-- The loop ends behind `n` items, `itmcount` of which were written before. -/
def Stops (nodeType : NodeType) (is : List Item) (mrQuota : UInt64) (itmcount n : ℕ) : Prop :=
  mrQuota = UInt64.ofNat ((is.take n).map Item.size).sum ∧ ¬ (itmcount + n < 2 ∧ nodeType = .kp)

theorem stops_cons {ty : NodeType} {i : Item} {is : List Item} {q : UInt64} {c n : ℕ} :
    Stops ty (i :: is) q c (n + 1) ↔ Stops ty is (q - UInt64.ofNat i.size) (c + 1) n := by
  rw [Stops, Stops, take_succ_cons, map_cons, sum_cons, UInt64.ofNat_add,
    show c + (n + 1) = c + 1 + n by omega, sub_eq_iff_eq_add']

theorem flushTake_stops (ty : NodeType) (is : List Item) (q : UInt64) (c : ℕ) :
    ∃ n ≤ is.length, flushTake ty is q c = (is.take n, is.drop n) ∧
      (∀ k < n, ¬ Stops ty is q c k) ∧ (n = is.length ∨ Stops ty is q c n) := by
  induction is generalizing q c with
  | nil => exact ⟨0, le_rfl, rfl, fun k hk => absurd hk (Nat.not_lt_zero k), .inl rfl⟩
  | cons i is ih =>
    have hzero : (q > 0 ∨ c < 2 ∧ ty = .kp) ↔ ¬ Stops ty (i :: is) q c 0 := by
      rw [Stops, take_zero, map_nil, sum_nil, not_and_or, not_not, Nat.add_zero]
      exact or_congr_left UInt64.pos_iff_ne_zero
    rw [flushTake]
    by_cases hgo : q > 0 ∨ c < 2 ∧ ty = .kp
    · obtain ⟨n, hle, htake, hbefore, hstop⟩ := ih (q - UInt64.ofNat i.size) (c + 1)
      rw [if_pos hgo, htake]
      refine ⟨n + 1, by simpa using hle, rfl, fun k hk => ?_, ?_⟩
      · cases k with
        | zero => exact hzero.mp hgo
        | succ k => exact stops_cons.not.mpr (hbefore k (by omega))
      · exact hstop.imp (fun h => by simp [h]) stops_cons.mpr
    · rw [if_neg hgo]
      exact ⟨0, Nat.zero_le _, rfl, fun k hk => absurd hk (Nat.not_lt_zero k),
        .inr (not_not.mp (hzero.not.mp hgo))⟩

section Quota
variable {rq : Request τ β} {res res' : Modres} {env env' : Env τ} {mrQuota : UInt64} {n : ℕ}

/-- A flush that succeeds writes a first part of the values list and keeps the rest, with the
length and count that belong to it. The part is the shortest that reaches the quota exactly
when that is all items or meets the quota to the byte. -/
theorem flushMrPartial_shortest_iff (hmod : res.modified = true)
    (hlen : res.nodeLen = (res.values.map Item.size).sum) (hcount : res.count = res.values.length)
    (hsize : res.nodeLen < 2 ^ 64) (hpos : 0 < mrQuota.toNat) (hle : mrQuota.toNat ≤ res.nodeLen)
    (hn : IsLeast {k | k ≤ res.values.length ∧ Reaches res.nodeType res.values mrQuota.toNat k} n)
    (h : flushMrPartial rq res mrQuota env = (.success, res', env')) :
    ∃ written pos size, res.values = written ++ res'.values ∧
      dbWriteBufCompressed rq.plat (nodeBuf res.nodeType written) env.file =
        (.ok (pos, size), env'.file) ∧
      res'.nodeLen = (res'.values.map Item.size).sum ∧ res'.count = res'.values.length ∧
      (written = res.values.take n ↔
        n = res.values.length ∨ ((res.values.take n).map Item.size).sum = mrQuota.toNat) := by
  obtain ⟨m, hm, htake, hbefore, hstop⟩ := flushTake_stops res.nodeType res.values mrQuota 0
  have hne : res.values ≠ [] := by
    intro hnil
    rw [hlen, hnil] at hle
    exact Nat.not_lt.mpr hle hpos
  -- the quota is met where the sizes add up to it: the sums do not wrap around
  have hstops (k : ℕ) : Stops res.nodeType res.values mrQuota 0 k ↔
      ((res.values.take k).map Item.size).sum = mrQuota.toNat ∧ ¬ (k < 2 ∧ res.nodeType = .kp) := by
    have hsum : ((res.values.take k).map Item.size).sum < 2 ^ 64 := by
      have hsplit := congrArg (fun l => (l.map Item.size).sum) (take_append_drop k res.values)
      simp only [map_append, sum_append] at hsplit
      omega
    rw [Stops, Nat.zero_add, ← UInt64.toNat_inj, UInt64.toNat_ofNat', Nat.mod_eq_of_lt hsum, eq_comm]
  have hreach {k : ℕ} (hk : k ≤ res.values.length) (hs : Stops res.nodeType res.values mrQuota 0 k) :
      n ≤ k := by
    obtain ⟨heq, hnot⟩ := (hstops k).mp hs
    exact hn.2 ⟨hk, heq.ge, fun hkp hlt => absurd ⟨hlt, hkp⟩ hnot⟩
  have hiff : res.values.take m = res.values.take n ↔
      n = res.values.length ∨ ((res.values.take n).map Item.size).sum = mrQuota.toNat := by
    have hinj : res.values.take m = res.values.take n ↔ m = n := by
      refine ⟨fun h => ?_, fun h => h ▸ rfl⟩
      have := congrArg List.length h
      rwa [length_take_of_le hm, length_take_of_le hn.1.1] at this
    rw [hinj]
    constructor
    · rintro rfl
      exact hstop.imp_right fun hs => ((hstops m).mp hs).1
    · intro h
      by_cases hall : n = res.values.length
      · exact hstop.elim (·.trans hall.symm) fun hs => le_antisymm (hm.trans hall.ge) (hreach hm hs)
      · have hsn : Stops res.nodeType res.values mrQuota 0 n := (hstops n).mpr
          ⟨h.resolve_left hall, fun hlt => hall (le_antisymm hn.1.1 (hn.1.2.2 hlt.2 hlt.1))⟩
        have hle' : m ≤ n := Nat.not_lt.mp fun hlt => hbefore n hlt hsn
        exact hstop.elim (fun hlen' => absurd (le_antisymm hn.1.1 (hlen' ▸ hle')) hall)
          fun hs => le_antisymm hle' (hreach hm hs)
  unfold flushMrPartial at h
  rw [if_neg (by simp [hne, hmod]), htake] at h
  dsimp only at h
  split at h
  next e file hw =>
    cases h
    cases dbWriteBuf_error hw
  next pos size file hw =>
    cases h
    have hsplit := congrArg (fun l => (l.map Item.size).sum) (take_append_drop m res.values)
    simp only [map_append, sum_append] at hsplit
    refine ⟨res.values.take m, pos, size, (take_append_drop m res.values).symm, hw, ?_, ?_, hiff⟩
    · dsimp only
      rw [length_nodeBuf, hlen]
      omega
    · dsimp only
      rw [hcount, length_take_of_le hm, length_drop]
      omega

end Quota

def quotaRequest : Request Unit Unit where
  cmp := ebinCmp
  plat := bufferedPlatform
  fetchCallback := none
  reduce := none
  rereduce := none
  compacting := false

def threeItems : Modres where
  values := [⟨[1], [1], none⟩, ⟨[2], [2], none⟩, ⟨[3], [3], none⟩]
  nodeLen := 21
  count := 3
  pointers := []
  modified := true
  nodeType := .kv

theorem isLeast_two {q : ℕ} (hlow : 7 < q) (hhigh : q ≤ 14) :
    IsLeast {k | k ≤ threeItems.values.length ∧ Reaches threeItems.nodeType threeItems.values q k} 2 := by
  refine ⟨⟨by decide, hhigh, nofun⟩, ?_⟩
  rintro k ⟨-, hk, -⟩
  match k, hk with
  | 0, hk => exact absurd (hk.trans (by decide)) (Nat.not_le.mpr hlow)
  | 1, hk => exact absurd (hk.trans (by decide)) (Nat.not_le.mpr hlow)
  | k + 2, _ => omega

/-- A quota of two items is met exactly. -/
theorem flushMrPartial_shortest_two :
    ∃ res' env', flushMrPartial quotaRequest threeItems 14 ⟨emptyFile, (), false⟩ =
      (.success, res', env') ∧ res'.values = threeItems.values.drop 2 := by
  obtain ⟨res', env', hrun⟩ : ∃ res' env', flushMrPartial quotaRequest threeItems 14
      ⟨emptyFile, (), false⟩ = (.success, res', env') := ⟨_, _, Prod.ext (by decide) rfl⟩
  obtain ⟨written, pos, size, hsplit, -, -, -, hiff⟩ :=
    flushMrPartial_shortest_iff rfl rfl rfl (by decide) (by decide) (by decide)
      (isLeast_two (by decide) (by decide)) hrun
  have hwritten : written = threeItems.values.take 2 := hiff.mpr (.inr (by decide))
  rw [hwritten] at hsplit
  exact ⟨res', env', hrun,
    append_cancel_left (hsplit.symm.trans (take_append_drop 2 threeItems.values).symm)⟩

/-- Two items reach the quota of ten bytes, and all three are written. -/
theorem flushMrPartial_writes_all :
    IsLeast {k | k ≤ threeItems.values.length ∧ Reaches threeItems.nodeType threeItems.values 10 k} 2 ∧
      (flushMrPartial quotaRequest threeItems 10 ⟨emptyFile, (), false⟩).1 = .success ∧
      (flushMrPartial quotaRequest threeItems 10 ⟨emptyFile, (), false⟩).2.1.values.map Item.key = [] ∧
      (threeItems.values.drop 2).map Item.key = [[3]] :=
  ⟨isLeast_two (by decide) (by decide), by decide, by decide, by decide⟩

end Appstack.Couchstore
