import Appstack.Lib.Machine
import Appstack.NsServer.SlaveWalks

namespace Appstack.NsServer.MapBalance

open Lib.Machine List

variable {α : Type} [LinearOrder α]

section Merge
variable {γ δ : Type} {cmp : γ → δ → Ordering} {l₁ r₁ : List γ} {l₂ r₂ : List δ} {r : List (γ × δ)}

theorem genmerge_perm (h : genmerge cmp l₁ l₂ = (r, r₁, r₂)) :
    (r.map Prod.fst ++ r₁).Perm l₁ ∧ (r.map Prod.snd ++ r₂).Perm l₂ := by
  fun_induction genmerge cmp l₁ l₂ generalizing r r₁ r₂ with
  | case1 h1 t1 h2 t2 hcmp s s1 s2 hrec ih =>
    cases h
    obtain ⟨hp1, hp2⟩ := ih hrec
    exact ⟨perm_middle.trans (hp1.cons h1), hp2⟩
  | case2 h1 t1 h2 t2 hcmp s s1 s2 hrec ih =>
    cases h
    obtain ⟨hp1, hp2⟩ := ih hrec
    exact ⟨hp1.cons h1, hp2.cons h2⟩
  | case3 h1 t1 h2 t2 hcmp s s1 s2 hrec ih =>
    cases h
    obtain ⟨hp1, hp2⟩ := ih hrec
    exact ⟨hp1, perm_middle.trans (hp2.cons h2)⟩
  | case4 l₁ l₂ =>
    cases h
    exact ⟨.refl _, .refl _⟩

theorem genmerge_all (hcmp : ∀ a ∈ l₁, ∀ b, cmp a b = .eq) (hlen : l₁.length = l₂.length)
    (h : genmerge cmp l₁ l₂ = (r, r₁, r₂)) : r₁ = [] ∧ r₂ = [] := by
  induction l₁ generalizing l₂ r r₁ r₂ with
  | nil =>
    obtain rfl := length_eq_zero_iff.mp hlen.symm
    rw [genmerge] at h
    · cases h
      exact ⟨rfl, rfl⟩
    · simp
  | cons a l₁ ih =>
    obtain ⟨b, l₂, rfl⟩ := exists_cons_of_length_eq_add_one hlen.symm
    rw [genmerge, hcmp a (mem_cons_self ..) b] at h
    cases h
    exact ih (fun c hc => hcmp c (.tail _ hc)) (by simpa using hlen) rfl

end Merge

section Rounds
variable {m m' numbered : List (ℕ × Chain α)} {c c' chains : List (Chain α)}
  {r r' pairs : List (Pair α)} {shift numCopies : ℕ}

/-- What the rounds keep: the vbuckets and the chains, handed out or left over. -/
structure Handed (numbered : List (ℕ × Chain α)) (chains : List (Chain α))
    (s : List (Pair α) × List (ℕ × Chain α) × List (Chain α)) : Prop where
  vbuckets : (s.1.map Prod.fst ++ s.2.1).Perm numbered
  chains : (s.1.map Prod.snd ++ s.2.2).Perm chains

theorem balance1_perm (h : balance1 m c shift = .ok (r, m', c')) :
    (r.map Prod.fst ++ m').Perm m ∧ (r.map Prod.snd ++ c').Perm c := by
  unfold balance1 at h
  split_ifs at h
  obtain ⟨hp1, hp2⟩ := genmerge_perm (Except.ok.inj h)
  exact ⟨hp1.trans (mergeSort_perm _ _), hp2⟩

theorem Handed.round (hs : Handed numbered chains (r, m, c))
    (h : balance1 m c shift = .ok (r', m', c')) : Handed numbered chains (r' ++ r, m', c') := by
  obtain ⟨hp1, hp2⟩ := balance1_perm h
  constructor
  · refine List.Perm.trans ?_ hs.vbuckets
    rw [map_append, append_assoc]
    refine (perm_append_comm_assoc ..).trans ?_
    exact hp1.append_left _
  · refine List.Perm.trans ?_ hs.chains
    rw [map_append, append_assoc]
    refine (perm_append_comm_assoc ..).trans ?_
    exact hp2.append_left _

theorem Handed.balance1_ok (hs : Handed numbered chains (r, m, c))
    (hlen : ∀ e ∈ numbered, e.2.length = numCopies) (hshift : shift ≤ numCopies) :
    balance1 m c shift = .ok (genmerge (fun e candidate => listcmp (e.2.drop shift) candidate)
      (m.mergeSort fun a b => a.2.drop shift ≤ b.2.drop shift) c) := by
  rw [balance1, if_neg]
  rw [Bool.not_eq_true, any_eq_false]
  intro e he
  have hmem := hs.vbuckets.subset (mem_append_right _ he)
  rw [hlen e hmem, decide_eq_true_eq]
  omega

theorem rounds_ok (hlen : ∀ e ∈ numbered, e.2.length = numCopies) (shifts : List ℕ)
    (hshifts : ∀ shift ∈ shifts, shift ≤ numCopies)
    {s : List (Pair α) × List (ℕ × Chain α) × List (Chain α)} (hs : Handed numbered chains s) :
    ∃ s', shifts.foldlM (fun (r, m, c) shift => do
        let (r1, m1, c1) ← balance1 m c shift
        Except.ok (r1 ++ r, m1, c1)) s = .ok s' ∧ Handed numbered chains s' := by
  induction shifts generalizing s with
  | nil => exact ⟨s, rfl, hs⟩
  | cons shift shifts ih =>
    obtain ⟨r, m, c⟩ := s
    have hround := hs.balance1_ok hlen (hshifts shift (mem_cons_self ..))
    obtain ⟨s', hfold, hs'⟩ := ih (fun t ht => hshifts t (.tail _ ht))
      (hs.round hround)
    refine ⟨s', ?_, hs'⟩
    rw [foldlM_cons]
    simp only [hround]
    exact hfold

theorem balanceRounds_ok (hlen : ∀ e ∈ numbered, e.2.length = numCopies)
    (hcount : numbered.length = chains.length) :
    ∃ pairs, balanceRounds numbered chains numCopies = .ok (pairs, [], []) ∧
      (pairs.map Prod.fst).Perm numbered ∧ (pairs.map Prod.snd).Perm chains := by
  have hstart : Handed numbered chains ([], numbered, chains) := ⟨.refl _, .refl _⟩
  obtain ⟨⟨r, m, c⟩, hfold, hs⟩ := rounds_ok hlen (List.range numCopies)
    (fun shift h => (mem_range.mp h).le) hstart
  have hround := hs.balance1_ok hlen le_rfl
  rcases hmerge : genmerge (fun e candidate => listcmp (e.2.drop numCopies) candidate) (m.mergeSort
    fun a b => a.2.drop numCopies ≤ b.2.drop numCopies) c with ⟨r', m', c'⟩
  rw [hmerge] at hround
  -- nothing is left of an old chain to be compared
  have hempty (e) (he : e ∈ m.mergeSort fun a b => a.2.drop numCopies ≤ b.2.drop numCopies)
      (b : Chain α) : listcmp (e.2.drop numCopies) b = .eq := by
    have hmem := hs.vbuckets.subset (mem_append_right _ (mem_mergeSort.mp he))
    rw [drop_eq_nil_of_le (hlen e hmem).le, listcmp]
    simp
  have hleft : m.length = c.length := by
    have h1 := hs.vbuckets.length_eq
    have h2 := hs.chains.length_eq
    simp only [length_append, length_map] at h1 h2
    omega
  obtain ⟨rfl, rfl⟩ := genmerge_all hempty (by rwa [length_mergeSort]) hmerge
  have hend := hs.round hround
  refine ⟨r' ++ r, ?_, by simpa using hend.vbuckets, by simpa using hend.chains⟩
  rw [balanceRounds, range_succ, foldlM_append, hfold]
  exact bind_eq_ok.mpr ⟨_, rfl, bind_eq_ok.mpr ⟨_, bind_eq_ok.mpr ⟨_, hround, rfl⟩, rfl⟩⟩

end Rounds

section Chains
variable {undefined prev node : α} {nodes rev : List α} {sl : α → Option (List α)}
  {numCopies turn left v k : ℕ} {counts counts' : Counts α} {chain : Chain α}

/-- The nodes that may follow `prev` in a turn. -/
def followers (nodes : List α) (sl : α → Option (List α)) (prev : α) (turn : ℕ) : List α :=
  if turn = 1 then nodes else (sl prev).getD []

/-- The places that `chains2` looks up: the first node comes after `undefined`. -/
def Slot (undefined : α) (nodes : List α) (numCopies : ℕ) (prev : α) (turn : ℕ) : Prop :=
  prev = undefined ∧ turn = 1 ∨ prev ∈ nodes ∧ 2 ≤ turn ∧ turn ≤ numCopies

/-- The counts have an entry for every place and every node that can come there. -/
structure Counts.Ready (counts : Counts α) (undefined : α) (nodes : List α)
    (sl : α → Option (List α)) (numCopies : ℕ) : Prop where
  listed : ∀ prev turn, Slot undefined nodes numCopies prev turn →
    ∃ l, counts.nodeCounts prev turn = some l ∧ l.map Prod.snd = followers nodes sl prev turn
  total : ∀ node ∈ nodes, ∀ turn, 1 ≤ turn → turn ≤ numCopies → counts.total node turn ≠ none

theorem map_snd_replaceF {l : List (ℕ × α)} {e : ℕ × α} :
    (l.replaceF fun x => if x.2 = e.2 then some e else none).map Prod.snd = l.map Prod.snd := by
  induction l with
  | nil => rfl
  | cons x l ih =>
    rw [replaceF_cons]
    by_cases hx : x.2 = e.2
    · simp [hx]
    · simp [hx, ih]

/-- The nodes of a cluster with the slaves of each. -/
def SlavesIn (nodes : List α) (sl : α → Option (List α)) : Prop :=
  ∀ node ∈ nodes, ∃ ns, sl node = some ns ∧ ∀ n ∈ ns, n ∈ nodes

omit [LinearOrder α] in
theorem followers_subset (hsl : SlavesIn nodes sl) (hslot : Slot undefined nodes numCopies prev turn) :
    ∀ n ∈ followers nodes sl prev turn, n ∈ nodes := by
  intro n hn
  rw [followers] at hn
  obtain ⟨-, rfl⟩ | ⟨hprev, hturn, -⟩ := hslot
  · exact hn
  · obtain ⟨ns, hns, hsub⟩ := hsl prev hprev
    rw [if_neg (by omega), hns] at hn
    exact hsub n hn

omit [LinearOrder α] in
theorem Slot.turn_pos (hslot : Slot undefined nodes numCopies prev turn) : 1 ≤ turn := by
  obtain ⟨-, rfl⟩ | ⟨-, hturn, -⟩ := hslot <;> omega

theorem bestNode_spec {l : List (ℕ × α)} (htotal : ∀ e ∈ l, counts.total e.2 turn ≠ none)
    (rev : List α) :
    (bestNode l turn counts rev = .error .functionClause ∧ ∀ e ∈ l, e.2 ∈ rev) ∨
      ∃ count node, bestNode l turn counts rev = .ok (count, node) ∧ (count, node) ∈ l ∧
        node ∉ rev := by
  have hmap : (l.filter fun e => e.2 ∉ rev).mapM (withTotal counts turn) =
      .ok ((l.filter fun e => e.2 ∉ rev).map fun e =>
        toLex (e.1, toLex ((counts.total e.2 turn).getD 0, e.2))) := by
    rw [mapM_eq_ok, forall₂_map_right_iff, forall₂_same]
    intro e he
    obtain ⟨total, ht⟩ := Option.ne_none_iff_exists'.mp (htotal e (mem_of_mem_filter he))
    simp [withTotal, ht]
  unfold bestNode
  rw [hmap]
  simp only [bind, Except.bind]
  cases hmin : ((l.filter fun e => e.2 ∉ rev).map fun e =>
      toLex (e.1, toLex ((counts.total e.2 turn).getD 0, e.2))).min? with
  | none =>
    left
    have hnil := map_eq_nil_iff.mp (List.min?_eq_none_iff.mp hmin)
    refine ⟨rfl, fun e he => ?_⟩
    simpa using filter_eq_nil_iff.mp hnil e he
  | some best =>
    right
    obtain ⟨e, he, rfl⟩ := mem_map.mp (List.min?_mem hmin)
    exact ⟨e.1, e.2, rfl, mem_of_mem_filter he, by simpa using of_mem_filter he⟩

theorem takeTurn_spec (hsl : SlavesIn nodes sl) (hc : counts.Ready undefined nodes sl numCopies)
    (hslot : Slot undefined nodes numCopies prev turn) (hturn : turn ≤ numCopies) (rev : List α) :
    (takeTurn counts prev turn rev = .error .functionClause ∧
        ∀ n ∈ followers nodes sl prev turn, n ∈ rev) ∨
      ∃ node counts', takeTurn counts prev turn rev = .ok (node, counts') ∧
        node ∈ followers nodes sl prev turn ∧ node ∉ rev ∧
        counts'.Ready undefined nodes sl numCopies := by
  obtain ⟨l, hl, hfollow⟩ := hc.listed prev turn hslot
  have hmem (e) (he : e ∈ l) : e.2 ∈ followers nodes sl prev turn :=
    hfollow ▸ mem_map_of_mem he
  have htotal (e) (he : e ∈ l) : counts.total e.2 turn ≠ none :=
    hc.total e.2 (followers_subset hsl hslot e.2 (hmem e he)) turn hslot.turn_pos hturn
  obtain ⟨hbest, hall⟩ | ⟨count, node, hbest, hin, hnot⟩ := bestNode_spec htotal rev
  · left
    refine ⟨?_, fun n hn => ?_⟩
    · simp only [takeTurn, hl, hbest]
      rfl
    · obtain ⟨e, he, rfl⟩ := mem_map.mp (hfollow ▸ hn)
      exact hall e he
  · right
    have heq : takeTurn counts prev turn rev = .ok (node,
        (counts.updateTotal node turn).storeNodes prev turn
          (l.replaceF fun e => if e.2 = node then some (count + 1, node) else none)) := by
      simp only [takeTurn, hl, hbest]
      rfl
    refine ⟨node, _, heq, hmem _ hin, hnot, ?_, ?_⟩
    · intro p t hpt
      simp only [Counts.storeNodes, Counts.updateTotal]
      split_ifs with hsame
      · obtain ⟨rfl, rfl⟩ := hsame
        exact ⟨_, rfl, (map_snd_replaceF (e := (count + 1, node))).trans hfollow⟩
      · exact hc.listed p t hpt
    · intro n hn t h1 h2
      simp only [Counts.storeNodes, Counts.updateTotal]
      split_ifs
      · exact Option.some_ne_none _
      · exact hc.total n hn t h1 h2

/-- The state of `chains2`: the counts, and the chain in the making from its last node on. -/
structure Sound (undefined : α) (nodes : List α) (sl : α → Option (List α)) (numCopies : ℕ)
    (counts : Counts α) (prev : α) (rev : List α) : Prop where
  ready : counts.Ready undefined nodes sl numCopies
  prev : rev.head?.getD undefined = prev
  walk : Walk nodes (fun p => (sl p).getD []) rev

omit [LinearOrder α] in
theorem sound_start (hc : counts.Ready undefined nodes sl numCopies) :
    Sound undefined nodes sl numCopies counts undefined [] :=
  ⟨hc, rfl, nodup_nil, fun _ h => absurd h not_mem_nil, isChain_nil⟩

omit [LinearOrder α] in
theorem Sound.slot (hs : Sound undefined nodes sl numCopies counts prev rev)
    (hlt : rev.length < numCopies) : Slot undefined nodes numCopies prev (rev.length + 1) := by
  cases rev with
  | nil => exact .inl ⟨hs.prev.symm, rfl⟩
  | cons n rev =>
    obtain rfl : n = prev := hs.prev
    refine .inr ⟨hs.walk.mem n (mem_cons_self ..), ?_, hlt⟩
    rw [length_cons]
    omega

/-- A turn adds a node to the chain, unless the chain has come to a dead end. -/
theorem Sound.takeTurn_ok (hsl : SlavesIn nodes sl) (hnodes : nodes ≠ [])
    (hs : Sound undefined nodes sl numCopies counts prev rev) (hlt : rev.length < numCopies)
    (hopen : ¬DeadEnd nodes (fun p => (sl p).getD []) rev) :
    ∃ node counts', takeTurn counts prev (rev.length + 1) rev = .ok (node, counts') ∧
      Sound undefined nodes sl numCopies counts' node (node :: rev) := by
  obtain ⟨-, hall⟩ | ⟨node, counts', hturn, hmem, hnot, hready⟩ :=
    takeTurn_spec hsl hs.ready (hs.slot hlt) hlt rev
  · exfalso
    cases rev with
    | nil =>
      -- the first turn has every node to choose from
      obtain ⟨n, hn⟩ := exists_mem_of_ne_nil _ hnodes
      exact not_mem_nil (hall n hn)
    | cons n rev =>
      obtain rfl : n = prev := hs.prev
      exact hopen ⟨hs.walk, n, rfl, hall⟩
  · refine ⟨node, counts', hturn, hready, rfl, nodup_cons.mpr ⟨hnot, hs.walk.nodup⟩, ?_, ?_⟩
    · intro n hn
      obtain rfl | hn := mem_cons.mp hn
      · exact followers_subset hsl (hs.slot hlt) _ hmem
      · exact hs.walk.mem n hn
    · cases rev with
      | nil => exact isChain_singleton _
      | cons n rev =>
        obtain rfl : n = prev := hs.prev
        exact isChain_cons_cons.mpr ⟨hmem, hs.walk.isChain⟩

section
variable (hsl : SlavesIn nodes sl) (hnodes : nodes ≠ [])
  (hopen : ∀ rev, DeadEnd nodes (fun p => (sl p).getD []) rev → numCopies ≤ rev.length)
include hsl hnodes hopen

/-- Without a dead end on the way `chains2` makes a chain of distinct nodes. -/
theorem chains2_ok (hs : Sound undefined nodes sl numCopies counts prev rev)
    (hleft : rev.length + left = numCopies) :
    ∃ chain counts', chains2 counts prev (rev.length + 1) left rev = .ok (chain, counts') ∧
      counts'.Ready undefined nodes sl numCopies ∧ chain.length = numCopies ∧ chain.Nodup ∧
      ∀ n ∈ chain, n ∈ nodes := by
  induction left generalizing counts prev rev with
  | zero =>
    exact ⟨_, _, rfl, hs.ready, by simpa using hleft, nodup_reverse.mpr hs.walk.nodup,
      by simpa using hs.walk.mem⟩
  | succ left ih =>
    have hlt : rev.length < numCopies := by omega
    obtain ⟨node, c, hturn, hs'⟩ := hs.takeTurn_ok hsl hnodes hlt fun hdead =>
      absurd (hopen rev hdead) (Nat.not_le_of_lt hlt)
    obtain ⟨chain, c', h, hprops⟩ := ih hs' (by rw [length_cons]; omega)
    exact ⟨chain, c', bind_eq_ok.mpr ⟨_, hturn, h⟩, hprops⟩

theorem chains1_ok (hc : counts.Ready undefined nodes sl numCopies) :
    ∃ cs, chains1 undefined numCopies counts v = .ok cs ∧ cs.length = v ∧
      ∀ chain ∈ cs, chain.length = numCopies ∧ chain.Nodup ∧ ∀ n ∈ chain, n ∈ nodes := by
  induction v generalizing counts with
  | zero => exact ⟨[], rfl, rfl, by simp⟩
  | succ v ih =>
    obtain ⟨chain, c, h, hready, hprops⟩ :=
      chains2_ok hsl hnodes hopen (sound_start hc) (Nat.zero_add _)
    obtain ⟨rest, hrest, hlen, hall⟩ := ih hready
    refine ⟨chain :: rest, bind_eq_ok.mpr ⟨_, h, bind_eq_ok.mpr ⟨_, hrest, rfl⟩⟩, ?_, ?_⟩
    · rw [length_cons, hlen]
    · exact forall_mem_cons.mpr ⟨hprops, hall⟩

end

theorem storeTurns_ok {ns : List α} (hns : sl node = some ns) (ts : List ℕ) (d : Counts α) :
    ∃ d', ts.foldlM (fun (d2 : Counts α) turn =>
        match sl node with
        | none => Except.error Fault.badarg
        | some ns => .ok (d2.storeNodes node turn (ns.map fun n => (0, n)))) d = .ok d' ∧
      d'.total = d.total ∧ ∀ p t, d'.nodeCounts p t =
        if p = node ∧ t ∈ ts then some (ns.map fun n => (0, n)) else d.nodeCounts p t := by
  induction ts generalizing d with
  | nil => exact ⟨d, rfl, rfl, by simp⟩
  | cons t ts ih =>
    obtain ⟨d', hfold, htotal, hnodes⟩ := ih (d.storeNodes node t (ns.map fun n => (0, n)))
    refine ⟨d', ?_, htotal, fun p u => ?_⟩
    · rw [foldlM_cons, hns]
      rw [hns] at hfold
      exact hfold
    · rw [hnodes, Counts.storeNodes]
      dsimp only
      by_cases hp : p = node <;> by_cases hu : u ∈ ts <;> by_cases hut : u = t <;> simp [hp, hu, hut]

theorem storeNodes_ok {list : List α} (hsl : ∀ n ∈ list, ∃ ns, sl n = some ns) (ts : List ℕ)
    (d : Counts α) :
    ∃ d', list.foldlM (fun d1 node => ts.foldlM (fun (d2 : Counts α) turn =>
        match sl node with
        | none => Except.error Fault.badarg
        | some ns => .ok (d2.storeNodes node turn (ns.map fun n => (0, n)))) d1) d = .ok d' ∧
      d'.total = d.total ∧ ∀ p t, d'.nodeCounts p t =
        if p ∈ list ∧ t ∈ ts then some (((sl p).getD []).map fun n => (0, n))
        else d.nodeCounts p t := by
  induction list generalizing d with
  | nil => exact ⟨d, rfl, rfl, by simp⟩
  | cons n list ih =>
    obtain ⟨ns, hns⟩ := hsl n (mem_cons_self ..)
    obtain ⟨d₁, hturns, htotal1, hnodes1⟩ := storeTurns_ok hns ts d
    obtain ⟨d', hfold, htotal, hnodes⟩ := ih (fun m hm => hsl m (.tail _ hm)) d₁
    refine ⟨d', ?_, htotal.trans htotal1, fun p t => ?_⟩
    · rw [foldlM_cons]
      exact bind_eq_ok.mpr ⟨d₁, hturns, hfold⟩
    · rw [hnodes, hnodes1]
      by_cases hp : p ∈ list <;> by_cases ht : t ∈ ts <;> by_cases hpn : p = n <;>
        simp [hp, ht, hpn, hns]

theorem initialCounts_ok (undefined : α) (hsl : SlavesIn nodes sl) (hcopies : numCopies ≠ 0) :
    ∃ counts, initialCounts undefined nodes numCopies sl = .ok counts ∧
      counts.Ready undefined nodes sl numCopies := by
  have hsome (n) (hn : n ∈ nodes) : ∃ ns, sl n = some ns := (hsl n hn).imp fun _ h => h.1
  rw [initialCounts, if_neg hcopies]
  obtain ⟨d, hfold, htotal, hnodes⟩ := storeNodes_ok hsome (List.range' 2 (numCopies - 1))
    { nodeCounts := fun p t => if p = undefined ∧ t = 1 then some (nodes.map fun n => (0, n)) else none
      total := fun n t => if n ∈ nodes ∧ 1 ≤ t ∧ t ≤ numCopies then some 0 else none }
  refine ⟨d, hfold, fun p t hslot => ?_, fun n hn t h1 h2 => ?_⟩
  · rw [hnodes]
    obtain ⟨rfl, rfl⟩ | ⟨hp, h1, h2⟩ := hslot
    · refine ⟨nodes.map fun n => (0, n), by simp, ?_⟩
      simp [followers]
    · refine ⟨((sl p).getD []).map fun n => (0, n), ?_, ?_⟩
      · rw [if_pos ⟨hp, by rw [mem_range'_1]; omega⟩]
      · simp [followers, show t ≠ 1 by omega]
  · rw [htotal]
    simp [hn, h1, h2]

end Chains

section Balance
variable {undefined : α} {map map' : List (Chain α)} {keepNodes : List α} {maxSlaves : Option ℕ}
  {copies : ℕ}

theorem slavesIn_slaves (k : ℕ) (hnd : keepNodes.Nodup) :
    SlavesIn keepNodes (slaves keepNodes k) := by
  intro node hnode
  obtain ⟨before, after, rfl⟩ := append_of_mem hnode
  refine ⟨_, slaves_append hnd, fun n hn => ?_⟩
  obtain h | h := mem_append.mp (mem_of_mem_take hn)
  · exact mem_append_right _ (.tail _ h)
  · exact mem_append_left _ h

/-- The number of slaves of a node that `balance` asks for. -/
def numSlaves (keepNodes : List α) (maxSlaves : Option ℕ) : ℕ :=
  maxSlaves.getD (keepNodes.length - 1)

/-- The chains of a map over the nodes of a list: distinct nodes as far as there are nodes, and
then `undefined`. -/
def ValidChains (undefined : α) (keepNodes : List α) (copies : ℕ) (map : List (Chain α)) : Prop :=
  ∀ chain ∈ map, ∃ c, chain = c ++ List.replicate (copies - min keepNodes.length copies) undefined ∧
      c.length = min keepNodes.length copies ∧ c.Nodup ∧ ∀ n ∈ c, n ∈ keepNodes

theorem balance_of_chains (hlen : ∀ chain ∈ map, chain.length = copies) (hmap : map ≠ [])
    {cs : List (Chain α)}
    (hcs : chains undefined keepNodes map.length (min keepNodes.length copies)
      (slaves keepNodes (numSlaves keepNodes maxSlaves)) = .ok cs)
    (hcount : cs.length = map.length) :
    ∃ cs' : List (Chain α), balance undefined map keepNodes maxSlaves =
        .ok (cs'.map (· ++ List.replicate (copies - min keepNodes.length copies) undefined)) ∧
      cs'.Perm cs := by
  obtain ⟨first, rest, rfl⟩ := exists_cons_of_ne_nil hmap
  have hfirst : first.length = copies := hlen first (mem_cons_self ..)
  set numCopies := min keepNodes.length copies with hnum
  have hstrip (e) (he : e ∈ (List.range (first :: rest).length).zip
      (mapStrip undefined (first :: rest) numCopies keepNodes)) : e.2.length = numCopies := by
    obtain ⟨chain, hchain, hmap⟩ := mem_map.mp (of_mem_zip he).2
    rw [← hmap, length_map, length_take, hlen chain hchain]
    omega
  have hpaired : ((List.range (first :: rest).length).zip
      (mapStrip undefined (first :: rest) numCopies keepNodes)).length =
        (cs.mergeSort (· ≤ ·)).length := by
    simp [mapStrip, hcount]
  obtain ⟨pairs, hrounds, -, hperm⟩ := balanceRounds_ok hstrip hpaired
  refine ⟨(pairs.mergeSort fun p q => toLex (toLex p.1, p.2) ≤ toLex (toLex q.1, q.2)).map Prod.snd,
    ?_, ?_⟩
  · rw [balance, hfirst]
    refine bind_eq_ok.mpr ⟨cs, hcs, bind_eq_ok.mpr ⟨_, hrounds, ?_⟩⟩
    dsimp only
    split_ifs with hlt
    · rfl
    · rw [Nat.sub_eq_zero_of_le (Nat.le_of_not_lt hlt)]
      simp
  · exact ((mergeSort_perm _ _).map _).trans (hperm.trans (mergeSort_perm _ _))

end Balance

end Appstack.NsServer.MapBalance
