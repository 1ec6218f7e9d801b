import Appstack.NsServer.MapBalance

namespace Appstack.NsServer.MapBalance

open Function List

variable {α : Type} [LinearOrder α] {nodes rest rev : List α} {node prev : α} {k copies : ℕ}

section Slaves
variable {dict : α → Option (List α)}

theorem slavesLoop_of_notMem (h : node ∉ nodes) :
    slavesLoop nodes rest k dict node = dict node := by
  induction nodes generalizing rest dict with
  | nil => rfl
  | cons n nodes ih =>
    rw [mem_cons, not_or] at h
    rw [slavesLoop, ih h.2, update_of_ne h.1]

variable {before after : List α}

theorem slavesLoop_append (h : node ∉ after) :
    slavesLoop (before ++ node :: after) rest k dict node =
      some ((after ++ (rest ++ before)).take k) := by
  induction before generalizing rest dict with
  | nil =>
    rw [nil_append, slavesLoop, slavesLoop_of_notMem h, update_self, append_nil]
  | cons n before ih =>
    rw [cons_append, slavesLoop, ih]
    simp

/-- The nodes that `slaves` has for a node. -/
def slavesOf (nodes : List α) (k : ℕ) (node : α) : List α :=
  (slaves nodes k node).getD []

theorem slaves_append (hnd : (before ++ node :: after).Nodup) :
    slaves (before ++ node :: after) k node = some ((after ++ before).take k) := by
  have hnot : node ∉ after := (nodup_cons.mp hnd.of_append_right).1
  rw [slaves, slavesLoop_append hnot, nil_append]

theorem slavesOf_append (hnd : (before ++ node :: after).Nodup) :
    slavesOf (before ++ node :: after) k node = (after ++ before).take k := by
  rw [slavesOf, slaves_append hnd, Option.getD_some]

/-- The list of the nodes goes round: it does not matter where it starts. -/
theorem slavesOf_append_comm {l1 l2 : List α} (hnd : (l1 ++ l2).Nodup) (h : node ∈ l1 ++ l2) :
    slavesOf (l1 ++ l2) k node = slavesOf (l2 ++ l1) k node := by
  have hnd' : (l2 ++ l1).Nodup := perm_append_comm.nodup_iff.mp hnd
  obtain h | h := mem_append.mp h
  · obtain ⟨before, after, rfl⟩ := append_of_mem h
    rw [← append_assoc] at hnd'
    rw [append_assoc, cons_append] at hnd ⊢
    rw [slavesOf_append hnd, ← append_assoc, slavesOf_append hnd', append_assoc]
  · obtain ⟨before, after, rfl⟩ := append_of_mem h
    rw [← append_assoc] at hnd
    rw [append_assoc, cons_append] at hnd' ⊢
    rw [← append_assoc, slavesOf_append hnd, slavesOf_append hnd', append_assoc]

end Slaves

/-- Distinct nodes, the last one first, each among the next ones of the one before it. -/
structure Walk (nodes : List α) (next : α → List α) (rev : List α) : Prop where
  nodup : rev.Nodup
  mem : ∀ n ∈ rev, n ∈ nodes
  isChain : rev.IsChain fun n prev => n ∈ next prev

omit [LinearOrder α] in
theorem Walk.tail {next : α → List α} (h : Walk nodes next (node :: rev)) : Walk nodes next rev :=
  ⟨h.nodup.of_cons, fun n hn => h.mem n (.tail _ hn), h.isChain.tail⟩

/-- A walk that cannot go on, since it has been at all the next nodes of its last one. -/
def DeadEnd (nodes : List α) (next : α → List α) (rev : List α) : Prop :=
  Walk nodes next rev ∧ ∃ last ∈ rev.head?, next last ⊆ rev

section Bound

/-- A step of the walk goes on by at most `k` places, or round to one of the first `k`. -/
theorem idxOf_le_of_mem_slavesOf (hnd : nodes.Nodup) (hprev : prev ∈ nodes)
    (h : node ∈ slavesOf nodes k prev) (hfirst : node ∉ nodes.take k) :
    nodes.idxOf node ≤ nodes.idxOf prev + k := by
  obtain ⟨before, after, rfl⟩ := append_of_mem hprev
  rw [slavesOf_append hnd, take_append, mem_append] at h
  obtain h | h := h
  · have hdisj := (nodup_append.mp hnd).2.2
    have hin : node ∈ after := mem_of_mem_take h
    have hbefore : node ∉ before := fun hb => hdisj node hb node (.tail _ hin) rfl
    have hprevBefore : prev ∉ before := fun hb => hdisj prev hb prev (mem_cons_self ..) rfl
    have hne : prev ≠ node := fun heq => (nodup_cons.mp hnd.of_append_right).1 (heq ▸ hin)
    rw [idxOf_append_of_notMem hbefore, idxOf_append_of_notMem hprevBefore,
      idxOf_cons_self, idxOf_cons_ne _ hne]
    have hlt := (mem_take_iff_idxOf_lt hin).mp h
    omega
  · refine absurd ?_ hfirst
    rw [take_append]
    exact mem_append_left _ ((take_subset_take_left _ (Nat.sub_le ..)) h)

theorem Walk.append_comm {l1 l2 : List α} (hnd : (l1 ++ l2).Nodup)
    (h : Walk (l1 ++ l2) (slavesOf (l1 ++ l2) k) rev) :
    Walk (l2 ++ l1) (slavesOf (l2 ++ l1) k) rev := by
  refine ⟨h.nodup, fun n hn => perm_append_comm.subset (h.mem n hn), ?_⟩
  refine h.isChain.imp_of_mem_imp fun n prev hn hprev hstep => ?_
  rwa [← slavesOf_append_comm hnd (h.mem prev hprev)]

theorem Walk.idxOf_le (hnd : nodes.Nodup) {away before : List α} {first last : α}
    (h : Walk nodes (slavesOf nodes k) (away ++ first :: before))
    (haway : ∀ n ∈ away, n ∉ nodes.take k)
    (hlast : last ∈ (away ++ first :: before).head?) :
    nodes.idxOf last ≤ nodes.idxOf first + away.length * k := by
  induction away generalizing last with
  | nil =>
    cases hlast
    simp
  | cons n away ih =>
    cases hlast
    obtain ⟨prev, t, ht⟩ : ∃ prev t, away ++ first :: before = prev :: t :=
      exists_cons_of_ne_nil (by simp)
    rw [cons_append, ht] at h
    have hstep := idxOf_le_of_mem_slavesOf hnd (h.mem prev (by simp))
      (isChain_cons_cons.mp h.isChain).1 (haway _ (mem_cons_self ..))
    have hrest := ih (ht ▸ h.tail) (fun m hm => haway m (.tail _ hm)) (by rw [ht]; rfl)
    rw [length_cons, Nat.succ_mul]
    omega

/-- A walk to a dead end has been at the `k` slaves of its last node, and from the first of these
that it comes back to it went round the nodes. -/
theorem DeadEnd.length_le (hnd : nodes.Nodup) (hk : 1 ≤ k)
    (h : DeadEnd nodes (slavesOf nodes k) rev) :
    nodes.length ≤ rev.length ∨ nodes.length ≤ (rev.length + 1 - k) * k := by
  obtain ⟨hw, last, hlast, hsub⟩ := h
  have hlastMem : last ∈ rev := mem_of_mem_head? hlast
  obtain ⟨before, after, rfl⟩ := append_of_mem (hw.mem last hlastMem)
  rw [slavesOf_append hnd] at hsub
  rw [append_cons] at hnd hw ⊢
  -- the nodes from the one after `last` on
  have hnd' : (after ++ (before ++ [last])).Nodup := perm_append_comm.nodup_iff.mp hnd
  have hw' := hw.append_comm hnd
  rw [perm_append_comm.length_eq]
  rw [← append_assoc] at hnd' hw' ⊢
  set others := after ++ before
  have hlen : (others ++ [last]).length = others.length + 1 := by simp
  have hndOthers := hnd'.of_append_left
  obtain hall | hsome := Nat.lt_or_ge others.length k
  · left
    rw [take_of_length_le hall.le] at hsub
    refine (subperm_of_subset hnd' ?_).length_le
    exact append_subset.mpr ⟨hsub, by simpa using hlastMem⟩
  · right
    have htake : (others ++ [last]).take k = others.take k := take_append_of_le_length hsome
    obtain ⟨first, hfirst⟩ : ∃ first, rev.find? (· ∈ others.take k) = some first := by
      rw [← Option.isSome_iff_exists, List.find?_isSome]
      obtain ⟨n, hn⟩ := exists_mem_of_length_pos
        (show 0 < (others.take k).length by rw [length_take]; omega)
      exact ⟨n, hsub hn, by simpa using hn⟩
    obtain ⟨hin, away, back, rfl, haway⟩ := List.find?_eq_some_iff_append.mp hfirst
    have haway' (n) (hn : n ∈ away) : n ∉ others.take k := by simpa using haway n hn
    have hidx := hw'.idxOf_le hnd' (by rwa [htake]) hlast
    have hlastIdx : (others ++ [last]).idxOf last = others.length := by
      have hnot : last ∉ others := fun hm =>
        (nodup_append.mp hnd').2.2 last hm last (by simp) rfl
      rw [idxOf_append_of_notMem hnot, idxOf_cons_self, Nat.add_zero]
    have hfirstIdx : (others ++ [last]).idxOf first < k := by
      have hmem : first ∈ (others ++ [last]).take k := by rw [htake]; simpa using hin
      exact (mem_take_iff_idxOf_lt (mem_of_mem_take hmem)).mp hmem
    have hback : k ≤ back.length + 1 := by
      have hsub' : others.take k ⊆ first :: back := by
        intro n hn
        obtain h | h := mem_append.mp (hsub hn)
        · exact absurd hn (haway' n h)
        · exact h
      have hle := (subperm_of_subset hndOthers.take hsub').length_le
      rw [length_take, length_cons] at hle
      omega
    have hround : (others ++ [last]).length ≤ (away.length + 1) * k := by
      rw [Nat.succ_mul]
      omega
    refine hround.trans (Nat.mul_le_mul_right k ?_)
    rw [length_append, length_cons]
    omega

end Bound

section Round

variable {a j : ℕ}

theorem slavesOf_getElem (hnd : nodes.Nodup) (ha : a < nodes.length) :
    slavesOf nodes k nodes[a] = (nodes.drop (a + 1) ++ nodes.take a).take k := by
  have hsplit : nodes.take a ++ nodes[a] :: nodes.drop (a + 1) = nodes := by
    rw [getElem_cons_drop, take_append_drop]
  have h := slavesOf_append (k := k) (hsplit.symm ▸ hnd)
  rwa [hsplit] at h

theorem getElem_mem_slavesOf (hnd : nodes.Nodup) {b : ℕ} (hab : a < b) (hb : b < nodes.length)
    (hk : b ≤ a + k) : nodes[b] ∈ slavesOf nodes k nodes[a] := by
  have hlen : b - (a + 1) < (nodes.drop (a + 1)).length := by
    rw [length_drop]
    omega
  rw [slavesOf_getElem hnd, mem_take_iff_getElem]
  refine ⟨b - (a + 1), by rw [length_append]; omega, ?_⟩
  rw [getElem_append_left hlen, getElem_drop]
  congr 1
  omega

theorem getElem_zero_mem_slavesOf (hnd : nodes.Nodup) (hpos : 0 < a) (ha : a < nodes.length)
    (hk : nodes.length ≤ a + k) : nodes[0] ∈ slavesOf nodes k nodes[a] := by
  rw [slavesOf_getElem hnd, mem_take_iff_getElem]
  refine ⟨nodes.length - (a + 1), ?_, ?_⟩
  · rw [length_append, length_drop, length_take]
    omega
  · rw [getElem_append_right (by rw [length_drop]), getElem_take]
    congr 1
    rw [length_drop, Nat.sub_self]

/-- The places of a short walk to a dead end: one by one to place `k`, and from there on in steps of
`k`. -/
def place (k i : ℕ) : ℕ :=
  if i < k then i + 1 else (i + 2 - k) * k

theorem place_succ (k i : ℕ) : place k (i + 1) = place k i + if i + 1 < k then 1 else k := by
  unfold place
  obtain h | rfl | h := Nat.lt_trichotomy (i + 1) k
  · rw [if_pos h, if_pos (by omega), if_pos h]
  · rw [if_neg (by omega), if_pos (by omega), if_neg (by omega)]
    rw [show i + 1 + 2 - (i + 1) = 2 by omega, Nat.two_mul]
  · rw [if_neg (by omega), if_neg (by omega), if_neg (by omega)]
    rw [show i + 1 + 2 - k = (i + 2 - k) + 1 by omega, Nat.succ_mul]

theorem strictMono_place (hk : 1 ≤ k) : StrictMono (place k) := by
  refine strictMono_nat_of_lt_succ fun i => ?_
  rw [place_succ]
  split_ifs <;> omega

theorem place_last (hk : 1 ≤ k) (hj : 1 ≤ j) : place k (k + j - 2) = j * k := by
  unfold place
  split_ifs with h
  · obtain rfl : j = 1 := by omega
    omega
  · rw [show k + j - 2 + 2 - k = j by omega]

theorem place_pos (hk : 1 ≤ k) (i : ℕ) : 0 < place k i := by
  have hone : place k 0 = 1 := by rw [place, if_pos (by omega)]
  have hfirst := (strictMono_place hk).monotone (Nat.zero_le i)
  omega

theorem place_lt (hk : 1 ≤ k) {i n : ℕ} (hi : i < k + j - 1) (hj : 1 ≤ j) (hlow : j * k < n) :
    place k i < n := by
  have hle := (strictMono_place hk).monotone (show i ≤ k + j - 2 by omega)
  rw [place_last hk hj] at hle
  omega

/-- After place `j * k` the walk comes back to place 0. -/
def stop (k j i : ℕ) : ℕ :=
  if i < k + j - 1 then place k i else 0

theorem stop_lt (hk : 1 ≤ k) {n : ℕ} (hj : 1 ≤ j) (hlow : j * k < n) (i : ℕ) : stop k j i < n := by
  unfold stop
  split_ifs with hi
  · exact place_lt hk hi hj hlow
  · omega

theorem stop_injOn (hk : 1 ≤ k) {b : ℕ} (ha : a < k + j) (hb : b < k + j)
    (hab : stop k j a = stop k j b) : a = b := by
  unfold stop at hab
  split_ifs at hab
  · exact (strictMono_place hk).injective hab
  · exact absurd hab (place_pos hk a).ne'
  · exact absurd hab.symm (place_pos hk b).ne'
  · omega

theorem stop_mem_slavesOf (hnd : nodes.Nodup) (hk : 1 ≤ k) {i : ℕ} (hj : 1 ≤ j)
    (hhigh : nodes.length ≤ j * k + k) (hi : i < k + j - 1)
    (hfrom : stop k j i < nodes.length) (hto : stop k j (i + 1) < nodes.length) :
    nodes[stop k j (i + 1)] ∈ slavesOf nodes k nodes[stop k j i] := by
  have hstop : stop k j i = place k i := if_pos hi
  by_cases hnext : i + 1 < k + j - 1
  · have hstop' : stop k j (i + 1) = place k (i + 1) := if_pos hnext
    refine getElem_mem_slavesOf hnd ?_ hto ?_
    · rw [hstop, hstop']
      exact strictMono_place hk (Nat.lt_add_one i)
    · rw [hstop, hstop', place_succ]
      split_ifs <;> omega
  · have hstop' : stop k j (i + 1) = 0 := if_neg hnext
    simp only [hstop, hstop']
    refine getElem_zero_mem_slavesOf hnd (place_pos hk i) _ ?_
    rw [show i = k + j - 2 by omega, place_last hk hj]
    exact hhigh

/-- The walk ends at place 0, whose slaves are at the places 1 to `k`. -/
theorem exists_deadEnd (hnd : nodes.Nodup) (hk : 1 ≤ k) (hj : 1 ≤ j)
    (hlow : j * k < nodes.length) (hhigh : nodes.length ≤ j * k + k) :
    ∃ rev, DeadEnd nodes (slavesOf nodes k) rev ∧ rev.length = k + j := by
  obtain ⟨origin, tail, hnodes⟩ := exists_cons_of_length_pos (Nat.zero_lt_of_lt hlow)
  have horigin : nodes[0] = origin := by simp [hnodes]
  have hat (i) : nodes.getD (stop k j i) origin = nodes.get ⟨stop k j i, stop_lt hk hj hlow i⟩ :=
    getD_eq_getElem ..
  refine ⟨((List.range (k + j)).map fun i => nodes.getD (stop k j i) origin).reverse,
    ⟨⟨?_, ?_, ?_⟩, origin, ?_, ?_⟩, by simp⟩
  · rw [nodup_reverse]
    refine List.Nodup.map_on (fun a ha b hb hab => ?_) nodup_range
    rw [hat, hat, get_eq_getElem, get_eq_getElem, hnd.getElem_inj_iff] at hab
    exact stop_injOn hk (mem_range.mp ha) (mem_range.mp hb) hab
  · intro n hn
    obtain ⟨i, -, rfl⟩ := mem_map.mp (mem_reverse.mp hn)
    rw [hat]
    exact get_mem ..
  · rw [isChain_reverse, isChain_map, isChain_range]
    intro i hi
    rw [hat, hat]
    exact stop_mem_slavesOf hnd hk hj hhigh hi _ _
  · have hlast : stop k j (k + j - 1) = 0 := if_neg (lt_irrefl _)
    rw [List.head?_reverse, List.getLast?_map, List.getLast?_range, if_neg (by omega)]
    rw [Option.map_some, hlast, hnodes]
    rfl
  · intro n hn
    rw [← horigin, slavesOf_getElem hnd (by omega), take_zero, append_nil,
      mem_take_iff_getElem] at hn
    obtain ⟨i, hi, rfl⟩ := hn
    have hstop : stop k j i = 0 + 1 + i := by
      rw [stop, if_pos (by omega), place, if_pos (by omega)]
      omega
    refine mem_reverse.mpr (mem_map.mpr ⟨i, mem_range.mpr (by omega), ?_⟩)
    rw [hat]
    simp only [get_eq_getElem, hstop, getElem_drop]

end Round

/-- The slaves have a dead end for chains of `copies` nodes exactly when such a chain is long enough
to go round all the nodes. -/
theorem exists_deadEnd_iff (hnd : nodes.Nodup) (hk : 1 ≤ k ∨ nodes.length = 1) (hnodes : nodes ≠ [])
    (hcopies : copies ≤ nodes.length) :
    (∃ rev, DeadEnd nodes (slavesOf nodes k) rev ∧ rev.length < copies) ↔
      nodes.length ≤ (copies - k) * k := by
  have hpos := length_pos_iff.mpr hnodes
  constructor
  · rintro ⟨rev, hdead, hlt⟩
    have hne : rev ≠ [] := by
      obtain ⟨-, last, hlast, -⟩ := hdead
      exact ne_nil_of_mem (mem_of_mem_head? hlast)
    have hrev := length_pos_iff.mpr hne
    obtain hle | hle := hdead.length_le hnd (by omega)
    · omega
    · exact hle.trans (Nat.mul_le_mul_right k (by omega))
  · intro hle
    have hk' : 1 ≤ k := by
      refine Nat.pos_of_ne_zero ?_
      rintro rfl
      omega
    have hlt : k < copies := by
      by_contra hge
      rw [Nat.sub_eq_zero_of_le (Nat.le_of_not_lt hge), Nat.zero_mul] at hle
      omega
    have hround := Nat.div_add_mod' (nodes.length - 1) k
    have hmod := Nat.mod_lt (nodes.length - 1) hk'
    obtain ⟨rev, hdead, hlen⟩ := exists_deadEnd hnd hk' (j := (nodes.length - 1) / k)
      (Nat.div_pos (by omega) hk') (by omega) (by omega)
    refine ⟨rev, hdead, ?_⟩
    have hdiv : (nodes.length - 1) / k < copies - k := (Nat.div_lt_iff_lt_mul hk').mpr (by omega)
    omega

end Appstack.NsServer.MapBalance
