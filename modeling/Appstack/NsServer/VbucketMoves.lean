import Appstack.Lib.Yields
import Appstack.NsServer.VbucketMover

namespace Appstack.NsServer.VbucketMover

open Appstack.Lib Janitor Function List Machine

variable {α : Type} [DecidableEq α] {o : Dict.Order (Option α)}

def target (m : Move α) : Option α := m.newChain.head?.join

omit [DecidableEq α] in
theorem head?_join_cons (n : Option α) (c : Chain α) : (n :: c).head?.join = n := by simp

theorem foldlM_countTarget {ms : List (Move α)} (d : Dict (Option α) ℕ)
    (h : ∀ m ∈ ms, m.newChain ≠ []) :
    ms.foldlM countTarget d = .ok ((ms.map target).foldl Dict.bump d) := by
  induction ms generalizing d with
  | nil => rfl
  | cons m ms ih =>
    obtain ⟨n, c, hm⟩ := exists_cons_of_ne_nil (h m (.head _))
    have hone : countTarget d m = .ok (d.bump (target m)) := by
      simp only [countTarget, target, hm, head?_join_cons]
    rw [foldlM_cons, hone, map_cons, foldl_cons]
    exact ih _ fun m' hm' => h m' (.tail _ hm')

theorem countMoves_eq {moves : Dict (Option α) (List (Move α))}
    (h : ∀ n ms, moves.lookup n = some ms → ∀ m ∈ ms, m.newChain ≠ []) :
    countMoves o moves = .ok ((((moves.inOrder o).flatMap Prod.snd).map target).foldl Dict.bump
      (moves.map fun _ ms => ms.length)) := by
  have hentries : ∀ e ∈ moves.inOrder o, ∀ m ∈ e.2, m.newChain ≠ [] := by
    intro e he
    exact h e.1 e.2 (Dict.mem_inOrder.mp he)
  rw [countMoves]
  generalize moves.inOrder o = es at hentries
  generalize moves.map (fun _ ms => ms.length) = d
  induction es generalizing d with
  | nil => rfl
  | cons e es ih =>
    rw [foldlM_cons, foldlM_countTarget _ (hentries e (.head _)),
      flatMap_cons, map_append, foldl_append]
    exact ih (fun e' he' => hentries e' (.tail _ he')) _

theorem foldlM_planMove {xs : List (ℕ × Chain α × Chain α)}
    (d : Dict (Option α) (List (Move α))) (h : ∀ x ∈ xs, x.2.1 ≠ []) :
    xs.foldlM planMove d = .ok ((xs.filterMap moverOf).foldl Dict.append d) := by
  induction xs generalizing d with
  | nil => rfl
  | cons x xs ih =>
    obtain ⟨n, c, hx⟩ := exists_cons_of_ne_nil (h x (.head _))
    have hrest := fun d => ih d fun x' hx' => h x' (.tail _ hx')
    have hone : planMove d x = .ok (((moverOf x).toList).foldl Dict.append d) := by
      simp only [planMove, moverOf, hx]
      split_ifs with heq
      · rfl
      · simp
    rw [foldlM_cons, hone]
    refine (hrest _).trans ?_
    cases hm : moverOf x with
    | none => rw [filterMap_cons_none hm]; rfl
    | some m => rw [filterMap_cons_some hm]; rfl

variable {oldMap newMap : List (Chain α)}

theorem mem_plan (hlen : oldMap.length = newMap.length) {x : Mover α} :
    x ∈ plan oldMap newMap ↔
      oldMap[x.2.vbucket]? = some x.2.oldChain ∧ newMap[x.2.vbucket]? = some x.2.newChain ∧
        x.2.oldChain ≠ x.2.newChain ∧ x.1 = x.2.oldChain.head?.join := by
  rw [plan, mem_filterMap]
  constructor
  · rintro ⟨⟨v, c, c'⟩, hmem, hx⟩
    obtain ⟨i, hi, heq⟩ := getElem_of_mem hmem
    simp only [getElem_zip, getElem_range] at heq
    cases heq
    rw [moverOf] at hx
    split_ifs at hx with hne
    cases hx
    refine ⟨?_, ?_, hne, rfl⟩
    · exact List.getElem?_eq_getElem _
    · exact List.getElem?_eq_getElem _
  · obtain ⟨n, v, c, c'⟩ := x
    rintro ⟨hold, hnew, hne, hn⟩
    dsimp only at hold hnew hne hn
    obtain ⟨hi, rfl⟩ := List.getElem?_eq_some_iff.mp hold
    obtain ⟨hi', rfl⟩ := List.getElem?_eq_some_iff.mp hnew
    refine ⟨(v, oldMap[v], newMap[v]), ?_, ?_⟩
    · refine mem_iff_getElem.mpr ⟨v, ?_, ?_⟩
      · simp only [length_zip, length_range]
        omega
      · simp
    · rw [moverOf, if_neg hne, hn]

theorem nodup_plan (hlen : oldMap.length = newMap.length) :
    ((plan oldMap newMap).map (·.2.vbucket)).Nodup := by
  have hsub : ((plan oldMap newMap).map (·.2.vbucket)).Sublist
      (((List.range oldMap.length).zip (oldMap.zip newMap)).map Prod.fst) := by
    rw [plan]
    generalize (List.range oldMap.length).zip (oldMap.zip newMap) = xs
    induction xs with
    | nil => exact .slnil
    | cons x xs ih =>
      rw [filterMap_cons, moverOf]
      split_ifs
      · exact ih.cons _
      · exact ih.cons_cons _
  refine hsub.nodup ?_
  rw [map_fst_zip (by simp [hlen])]
  exact nodup_range

/-- Every node that a move starts from or leads to has a count, and it is not zero. -/
def Counted (oldMap newMap : List (Chain α)) (d : Dict (Option α) ℕ) : Prop :=
  ∀ x ∈ plan oldMap newMap, ∀ n, n = x.1 ∨ n = target x.2 → ∃ c, d.lookup n = some c ∧ 0 < c

section
omit [DecidableEq α]

section
variable (hlen : oldMap.length = newMap.length)
include hlen

theorem mapAfter_nil : mapAfter oldMap newMap [] = oldMap := by
  apply ext_getElem
  · simp [mapAfter, hlen]
  · intro i h1 h2
    simp [mapAfter]

theorem length_mapAfter (done : List ℕ) : (mapAfter oldMap newMap done).length = oldMap.length := by
  simp [mapAfter, hlen]

theorem mapAfter_set (done : List ℕ) {v : ℕ} {c : Chain α} (hv : newMap[v]? = some c) :
    (mapAfter oldMap newMap done).set v c = mapAfter oldMap newMap (done ++ [v]) := by
  obtain ⟨hlt, rfl⟩ := List.getElem?_eq_some_iff.mp hv
  apply ext_getElem
  · rw [length_set, length_mapAfter hlen, length_mapAfter hlen]
  · intro i h1 h2
    rw [getElem_set]
    by_cases hi : v = i
    · subst hi
      simp [mapAfter]
    · simp [mapAfter, hi, Ne.symm hi]

theorem mapAfter_eq_new {done : List ℕ}
    (h : ∀ v, oldMap[v]? ≠ newMap[v]? → v ∈ done) : mapAfter oldMap newMap done = newMap := by
  apply ext_getElem
  · rw [length_mapAfter hlen, hlen]
  · intro i h1 h2
    have hi : i < oldMap.length := by omega
    simp only [mapAfter, getElem_map, getElem_zip, getElem_range]
    split_ifs with hmem
    · rfl
    · by_contra hne
      apply hmem
      apply h
      rw [List.getElem?_eq_getElem hi, List.getElem?_eq_getElem h2]
      simpa using hne

end

end

def load (d : Dict (Option α) ℤ) (n : Option α) : ℤ := (d.lookup n).getD 0

def left (d : Dict (Option α) (List (Move α))) (n : Option α) : List (Move α) :=
  (d.lookup n).getD []

def batch (maxPerNode k : ℤ) (ms : List (Move α)) : List (Move α) :=
  if k < maxPerNode then ms.take (maxPerNode - k).toNat else []

omit [DecidableEq α] in
theorem load_add_batch_le {maxPerNode k : ℤ} (hk : k ≤ maxPerNode) (ms : List (Move α)) :
    k + (batch maxPerNode k ms).length ≤ maxPerNode := by
  rw [batch]
  split_ifs with h
  · rw [length_take]
    omega
  · simpa using hk

omit [DecidableEq α] in
theorem load_add_batch_eq {maxPerNode k : ℤ} (hk : k ≤ maxPerNode) {ms rest : List (Move α)}
    (h : ms = batch maxPerNode k ms ++ rest) (hrest : rest ≠ []) :
    k + (batch maxPerNode k ms).length = maxPerNode := by
  have hlen := congrArg List.length h
  have hpos := length_pos_of_ne_nil hrest
  rw [length_append] at hlen
  rw [batch] at *
  split_ifs at * with hlt
  · rw [length_take] at *
    omega
  · simp only [length_nil]
    omega

abbrev starts (as : List (Action α)) : List (Mover α) := as.filterMap Action.mover?

/-- From `w` to `w'` the moves `b n` of every node `n` have been started. -/
structure Started (w w' : Spawned α) (b : Option α → List (Move α)) : Prop where
  mem_movers : ∀ n, n ∈ w'.movers ↔ n ∈ w.movers
  mem_moves : ∀ n, n ∈ w'.moves ↔ n ∈ w.moves
  movers : ∀ n, load w'.movers n = load w.movers n + (b n).length
  moves : ∀ n, left w.moves n = b n ++ left w'.moves n
  spawned : ∀ n, (starts w'.actions).filter (·.1 = n) =
    (starts w.actions).filter (·.1 = n) ++ (b n).map (n, ·)
  maps : w'.actions.filterMap Action.map? = w.actions.filterMap Action.map?

theorem Started.refl (w : Spawned α) : Started w w fun _ => [] :=
  ⟨fun _ => Iff.rfl, fun _ => Iff.rfl, fun _ => by simp, fun _ => rfl, fun _ => by simp, rfl⟩

theorem Started.trans {w1 w2 w3 : Spawned α} {b b' : Option α → List (Move α)}
    (h : Started w1 w2 b) (h' : Started w2 w3 b') : Started w1 w3 fun n => b n ++ b' n where
  mem_movers n := (h'.mem_movers n).trans (h.mem_movers n)
  mem_moves n := (h'.mem_moves n).trans (h.mem_moves n)
  movers n := by
    rw [h'.movers, h.movers, length_append]
    push_cast
    ring
  moves n := by rw [h.moves, h'.moves, append_assoc]
  spawned n := by rw [h'.spawned, h.spawned, map_append, append_assoc]
  maps := h'.maps.trans h.maps

omit [DecidableEq α] in
@[simp]
theorem syncReplicas_mover? (l : List (ReplicaChange α)) :
    (syncReplicas l).filterMap Action.mover? = [] := by
  cases l <;> rfl

omit [DecidableEq α] in
@[simp]
theorem syncReplicas_map? (l : List (ReplicaChange α)) :
    (syncReplicas l).filterMap Action.map? = [] := by
  cases l <;> rfl

theorem foldl_spawnMover (n : Option α) (ms : List (Move α)) (w : Spawned α) :
    (ms.foldl (spawnMover n) w).movers = w.movers ∧ (ms.foldl (spawnMover n) w).moves = w.moves ∧
      starts (ms.foldl (spawnMover n) w).actions = starts w.actions ++ ms.map (n, ·) ∧
      (ms.foldl (spawnMover n) w).actions.filterMap Action.map? =
        w.actions.filterMap Action.map? := by
  induction ms generalizing w with
  | nil => simp
  | cons m ms ih =>
    obtain ⟨h1, h2, h3, h4⟩ := ih (spawnMover n w m)
    rw [foldl_cons]
    refine ⟨h1, h2, ?_, ?_⟩
    · rw [h3, spawnMover, starts, filterMap_append, filterMap_append, syncReplicas_mover?]
      simp [Action.mover?]
    · rw [h4, spawnMover, filterMap_append, filterMap_append, syncReplicas_map?]
      simp [Action.map?]

theorem filter_map_pair (n n' : Option α) (b : List (Move α)) :
    (b.map fun m => (n, m)).filter (fun x => x.1 = n') =
      (if n' = n then b else []).map (n', ·) := by
  split_ifs with h
  · subst h
    simp
  · rw [map_nil, filter_eq_nil_iff]
    intro x hx
    obtain ⟨m, -, rfl⟩ := mem_map.mp hx
    simpa using Ne.symm h

theorem spawnFrom_started {movers : Dict (Option α) ℤ} {maxPerNode k : ℤ} {w : Spawned α}
    {e : Option α × List (Move α)} (hk : movers.lookup e.1 = some k)
    (hw : w.movers.lookup e.1 = some k) (hm : w.moves.lookup e.1 = some e.2) :
    Yields (fun w' => Started w w' fun n => if n = e.1 then batch maxPerNode k e.2 else [])
      (spawnFrom movers maxPerNode w e) := by
  obtain ⟨n, ms⟩ := e
  dsimp only at *
  simp only [spawnFrom, hk]
  split_ifs with hlt
  · have hb : batch maxPerNode k ms = ms.take (maxPerNode - k).toNat := by rw [batch, if_pos hlt]
    rw [← hb]
    obtain ⟨h1, h2, h3, h4⟩ := foldl_spawnMover n (batch maxPerNode k ms) w
    apply Yields.ok
    constructor
    · intro n'
      rw [AList.mem_insert, h1, or_iff_right_of_imp]
      rintro rfl
      exact AList.lookup_isSome.mp (by rw [hw]; rfl)
    · intro n'
      rw [AList.mem_insert, h2, or_iff_right_of_imp]
      rintro rfl
      exact AList.lookup_isSome.mp (by rw [hm]; rfl)
    · intro n'
      dsimp only [load]
      rw [h1]
      split_ifs with hn
      · subst hn
        rw [AList.lookup_insert, hw, Option.getD_some, Option.getD_some, add_comm]
      · rw [AList.lookup_insert_ne hn, length_nil, Nat.cast_zero, add_zero]
    · intro n'
      dsimp only [left]
      rw [h2]
      split_ifs with hn
      · subst hn
        rw [AList.lookup_insert, hm, Option.getD_some, Option.getD_some, hb, length_take]
        rcases le_total (maxPerNode - k).toNat ms.length with hle | hle
        · rw [min_eq_left hle, take_append_drop]
        · rw [min_eq_right hle, take_of_length_le hle, drop_length, append_nil]
      · rw [AList.lookup_insert_ne hn, nil_append]
    · intro n'
      dsimp only
      rw [h3, filter_append, filter_map_pair]
    · exact h4
  · have hb : batch maxPerNode k ms = [] := by rw [batch, if_neg hlt]
    rw [hb]
    apply Yields.ok
    simpa using Started.refl w

theorem foldlM_spawnFrom {movers : Dict (Option α) ℤ} {maxPerNode : ℤ}
    {es : List (Option α × List (Move α))} (hes : (es.map Prod.fst).Nodup) {w : Spawned α}
    (hk : ∀ e ∈ es, ∃ k, movers.lookup e.1 = some k ∧ w.movers.lookup e.1 = some k)
    (hm : ∀ e ∈ es, w.moves.lookup e.1 = some e.2) :
    Yields (fun w' => Started w w' fun n =>
        if n ∈ es.map Prod.fst then batch maxPerNode (load movers n) (left w.moves n) else [])
      (es.foldlM (spawnFrom movers maxPerNode) w) := by
  induction es generalizing w with
  | nil => exact Yields.ok (by simpa using Started.refl w)
  | cons e es ih =>
    rw [map_cons, nodup_cons] at hes
    obtain ⟨k, hke, hwe⟩ := hk e (.head _)
    have hme := hm e (.head _)
    rw [foldlM_cons]
    refine Yields.bind (spawnFrom_started hke hwe hme) ?_
    intro w1 h1
    have hother : ∀ n, n ≠ e.1 → load w1.movers n = load w.movers n ∧
        left w1.moves n = left w.moves n := by
      intro n hn
      have h2 := h1.movers n
      have h3 := h1.moves n
      rw [if_neg hn] at h2 h3
      exact ⟨by simpa using h2, h3.symm⟩
    have hne : ∀ e' ∈ es, e'.1 ≠ e.1 := by
      intro e' he' heq
      exact hes.1 (heq ▸ mem_map_of_mem he')
    -- the other nodes still have what the fold found for them
    have hlookup : ∀ {β : Type} {d d' : Dict (Option α) β} {z : β} {n : Option α} {b : β},
        n ∈ d' → (d'.lookup n).getD z = (d.lookup n).getD z → d.lookup n = some b →
        d'.lookup n = some b := by
      intro β d d' z n b hmem heq hb
      obtain ⟨b', hb'⟩ := Option.isSome_iff_exists.mp (AList.lookup_isSome.mpr hmem)
      rw [hb', hb, Option.getD_some, Option.getD_some] at heq
      rw [hb', heq]
    refine (ih hes.2 ?_ ?_).mono ?_
    · intro e' he'
      obtain ⟨k', hk', hw'⟩ := hk e' (.tail _ he')
      refine ⟨k', hk', hlookup ?_ (hother e'.1 (hne e' he')).1 hw'⟩
      exact (h1.mem_movers e'.1).mpr (AList.lookup_isSome.mp (by rw [hw']; rfl))
    · intro e' he'
      have hm' := hm e' (.tail _ he')
      refine hlookup ?_ (hother e'.1 (hne e' he')).2 hm'
      exact (h1.mem_moves e'.1).mpr (AList.lookup_isSome.mp (by rw [hm']; rfl))
    · intro w' h'
      convert h1.trans h' using 1
      funext n
      by_cases hn : n = e.1
      · subst hn
        rw [if_pos (by simp), if_pos rfl, if_neg hes.1, append_nil, load, hke, left, hme]
        rfl
      · rw [if_neg hn, nil_append, (hother n hn).2, map_cons]
        simp only [mem_cons, hn, false_or]

/-- What holds between two messages and inside of `move_done`, when the movers `st` have been
spawned and those of `fin` have reported. -/
structure Sound (oldMap newMap : List (Chain α)) (maxPerNode : ℤ) (s : State α)
    (outstanding st fin : List (Mover α)) : Prop where
  maxPerNode_eq : s.maxPerNode = maxPerNode
  mem_moves : ∀ n, n ∈ s.moves ↔ n ∈ (plan oldMap newMap).map Prod.fst
  mem_movers : ∀ n, n ∈ s.movers ↔ n ∈ (plan oldMap newMap).map Prod.fst
  counted : Counted oldMap newMap s.initialCounts
  planned : ∀ n, (plan oldMap newMap).filter (·.1 = n) =
    st.filter (·.1 = n) ++ (left s.moves n).map (n, ·)
  loads : ∀ n, load s.movers n = (outstanding.filter (·.1 = n)).length
  bound : ∀ n, load s.movers n ≤ maxPerNode
  perm : st.Perm (outstanding ++ fin)
  map_eq : s.map = mapAfter oldMap newMap (fin.map (·.2.vbucket))

/-- Between two messages, moreover, no node has less to do than it may as long as it has moves to
start, so the server runs exactly if it has movers. -/
structure Inv (oldMap newMap : List (Chain α)) (maxPerNode : ℤ) (c : Rebalance α)
    (st fin : List (Mover α)) : Prop where
  sound : Sound oldMap newMap maxPerNode c.server c.outstanding st fin
  full : c.spawned → ∀ n, left c.server.moves n ≠ [] → load c.server.movers n = maxPerNode
  idle : c.spawned = false → st = []
  status_eq : c.status = if c.spawned ∧ c.outstanding = [] then .stoppedNormal else .running

variable {maxPerNode : ℤ} {s : State α} {out st fin : List (Mover α)} {c : Rebalance α}

section
variable (h : Sound oldMap newMap maxPerNode s out st fin)
include h

theorem Sound.mem_plan_of_left {n : Option α}
    {ms : List (Move α)} (hms : s.moves.lookup n = some ms) {m : Move α} (hm : m ∈ ms) :
    (n, m) ∈ plan oldMap newMap := by
  have hleft : left s.moves n = ms := by rw [left, hms, Option.getD_some]
  have hmem : (n, m) ∈ (plan oldMap newMap).filter (·.1 = n) := by
    rw [h.planned n, hleft]
    exact mem_append_right _ (mem_map_of_mem hm)
  exact mem_of_mem_filter hmem

theorem Sound.started_subset : st ⊆ plan oldMap newMap := by
  intro x hx
  have hmem : x ∈ (plan oldMap newMap).filter (·.1 = x.1) := by
    rw [h.planned x.1]
    exact mem_append_left _ (mem_filter.mpr ⟨hx, by simp⟩)
  exact mem_of_mem_filter hmem

theorem Sound.started_nodup
    (hlen : oldMap.length = newMap.length) : (st.map (·.2.vbucket)).Nodup := by
  have hplan : (plan oldMap newMap).Nodup := (nodup_plan hlen).of_map _
  have hst : st.Nodup := by
    rw [nodup_iff_count_le_one]
    intro x
    have hone : (plan oldMap newMap).count x ≤ 1 := nodup_iff_count_le_one.mp hplan x
    have hcount : ∀ l : List (Mover α), (l.filter (·.1 = x.1)).count x = l.count x := by
      intro l
      exact count_filter (by simp)
    rw [← hcount, h.planned x.1, count_append, hcount] at hone
    omega
  refine hst.map_on ?_
  intro x hx y hy heq
  exact inj_on_of_nodup_map (nodup_plan hlen) (h.started_subset hx) (h.started_subset hy) heq

theorem Sound.reportProgress_yields
    (hlen : oldMap.length = newMap.length) (hnew : ∀ c ∈ newMap, c ≠ []) :
    Yields (fun a => ∃ p, a = .reportProgress p) (reportProgress o s) := by
  have hchains : ∀ n ms, s.moves.lookup n = some ms → ∀ m ∈ ms, m.newChain ≠ [] := by
    intro n ms hms m hm
    exact hnew _ (mem_of_getElem? ((mem_plan hlen).mp (h.mem_plan_of_left hms hm)).2.1)
  rw [reportProgress, countMoves_eq hchains]
  refine Yields.bind (Yields.ok (P := fun d => d = _) rfl) ?_
  rintro d rfl
  refine Yields.bind (P := fun _ => True) ?_ fun p _ => Yields.ok ⟨p, rfl⟩
  apply Yields.foldlM _ _ trivial
  intro d e he _
  have hmem := AList.lookup_isSome.mp (Option.isSome_iff_exists.mpr ⟨_, Dict.mem_inOrder.mp he⟩)
  obtain ⟨t, ht, hpos⟩ : ∃ t, s.initialCounts.lookup e.1 = some t ∧ 0 < t := by
    rw [Dict.mem_foldl_bump, Dict.mem_map, h.mem_moves] at hmem
    rcases hmem with hkey | htarget
    · obtain ⟨x, hx, hxe⟩ := mem_map.mp hkey
      exact h.counted x hx e.1 (.inl hxe.symm)
    · obtain ⟨m, hm, hme⟩ := mem_map.mp htarget
      obtain ⟨e', he', hme'⟩ := mem_flatMap.mp hm
      have hx := h.mem_plan_of_left (Dict.mem_inOrder.mp he') hme'
      exact h.counted _ hx e.1 (.inr hme.symm)
  simp only [ht, if_neg hpos.ne']
  exact Yields.ok trivial

end

theorem any_load_ne {d : Dict (Option α) ℤ} :
    ((d.inOrder o).map Prod.snd).any (· ≠ 0) ↔ ∃ n, load d n ≠ 0 := by
  rw [any_eq_true]
  constructor
  · rintro ⟨k, hk, hne⟩
    obtain ⟨e, he, rfl⟩ := mem_map.mp hk
    refine ⟨e.1, ?_⟩
    rw [load, Dict.mem_inOrder.mp he]
    simpa using hne
  · rintro ⟨n, hne⟩
    cases hd : d.lookup n with
    | none => simp [load, hd] at hne
    | some k =>
      refine ⟨k, mem_map.mpr ⟨(n, k), Dict.mem_inOrder.mpr hd, rfl⟩, ?_⟩
      simpa [load, hd] using hne

/-- `spawn_workers` fills up every node, and goes on exactly if a mover is outstanding. -/
theorem Sound.spawn (h : Sound oldMap newMap maxPerNode s out st fin)
    (hlen : oldMap.length = newMap.length) (hnew : ∀ c ∈ newMap, c ≠ []) :
    Yields (fun r => r.2.2.filterMap Action.map? = [] ∧
        Sound oldMap newMap maxPerNode r.2.1 (out ++ starts r.2.2) (st ++ starts r.2.2) fin ∧
        (∀ n, left r.2.1.moves n ≠ [] → load r.2.1.movers n = maxPerNode) ∧
        (r.1 = if out ++ starts r.2.2 = [] then .stopNormal else .noreply))
      (spawnWorkers o s) := by
  rw [spawnWorkers]
  refine (h.reportProgress_yields hlen hnew).bind ?_
  rintro - ⟨p, rfl⟩
  have hlookup : ∀ e ∈ s.moves.inOrder o, ∃ k, s.movers.lookup e.1 = some k ∧
      s.movers.lookup e.1 = some k := by
    intro e he
    have hmem : e.1 ∈ s.moves := AList.lookup_isSome.mp (by rw [Dict.mem_inOrder.mp he]; rfl)
    rw [h.mem_moves, ← h.mem_movers, ← AList.lookup_isSome] at hmem
    obtain ⟨k, hk⟩ := Option.isSome_iff_exists.mp hmem
    exact ⟨k, hk, hk⟩
  refine (foldlM_spawnFrom (Dict.nodup_inOrder o s.moves) hlookup
    fun e he => Dict.mem_inOrder.mp he).bind ?_
  intro w hw
  -- nodes without moves start none, so the fold has visited every node
  have hb : (fun n => if n ∈ (s.moves.inOrder o).map Prod.fst then
      batch s.maxPerNode (load s.movers n) (left s.moves n) else []) =
      fun n => batch maxPerNode (load s.movers n) (left s.moves n) := by
    funext n
    rw [h.maxPerNode_eq]
    split_ifs with hn
    · rfl
    · have hnone : s.moves.lookup n = none := by
        cases hl : s.moves.lookup n with
        | none => rfl
        | some ms =>
          exact absurd (mem_map.mpr ⟨(n, ms), Dict.mem_inOrder.mpr hl, rfl⟩) hn
      simp [batch, left, hnone]
  rw [hb] at hw
  have hstarts : ∀ n, (starts w.actions).filter (·.1 = n) =
      (batch maxPerNode (load s.movers n) (left s.moves n)).map (n, ·) := by
    intro n
    exact (hw.spawned n).trans (nil_append _)
  have hmaps : w.actions.filterMap Action.map? = [] := hw.maps
  have hloads : ∀ n, load w.movers n = ((out ++ starts w.actions).filter (·.1 = n)).length := by
    intro n
    rw [hw.movers, filter_append, length_append, hstarts, length_map, Nat.cast_add, ← h.loads]
  have hsound : Sound oldMap newMap maxPerNode
      { s with movers := w.movers, moves := w.moves, replicasChanges := w.replicasChanges }
      (out ++ starts w.actions) (st ++ starts w.actions) fin := by
    refine ⟨h.maxPerNode_eq, ?_, ?_, h.counted, ?_, hloads, ?_, ?_, h.map_eq⟩
    · intro n
      exact (hw.mem_moves n).trans (h.mem_moves n)
    · intro n
      exact (hw.mem_movers n).trans (h.mem_movers n)
    · intro n
      have hleft := hw.moves n
      dsimp only at hleft
      rw [h.planned, hleft, map_append, filter_append, hstarts, append_assoc]
    · intro n
      rw [hw.movers]
      exact load_add_batch_le (h.bound n) _
    · have hperm := h.perm.append_right (starts w.actions)
      refine hperm.trans ?_
      rw [append_assoc, append_assoc]
      exact perm_append_comm.append_left out
  have hfull : ∀ n, left w.moves n ≠ [] → load w.movers n = maxPerNode := by
    intro n hn
    rw [hw.movers]
    exact load_add_batch_eq (h.bound n) (hw.moves n) hn
  have hany : ((w.movers.inOrder o).map Prod.snd).any (· ≠ 0) ↔ out ++ starts w.actions ≠ [] := by
    rw [any_load_ne]
    constructor
    · rintro ⟨n, hn⟩ hnil
      rw [hloads, hnil] at hn
      exact hn rfl
    · intro hne
      obtain ⟨x, l, hx⟩ := exists_cons_of_ne_nil hne
      refine ⟨x.1, ?_⟩
      rw [hloads, hx]
      simp only [decide_true, filter_cons_of_pos, length_cons]
      omega
  dsimp only
  split_ifs with hcond
  · refine Yields.ok ⟨hmaps, hsound, hfull, ?_⟩
    rw [if_neg (hany.mp hcond)]
  · refine Yields.ok ⟨hmaps, hsound, hfull, ?_⟩
    rw [if_pos (not_not.mp fun hne => hcond (hany.mpr hne))]

theorem init_yields (hlen : oldMap.length = newMap.length) (hold : ∀ c ∈ oldMap, c ≠ [])
    (hnew : ∀ c ∈ newMap, c ≠ []) (hmax : 1 ≤ maxPerNode) :
    Yields (fun s => Inv oldMap newMap maxPerNode (start s) [] [])
      (init o maxPerNode oldMap newMap) := by
  have hchains : ∀ x ∈ (List.range oldMap.length).zip (oldMap.zip newMap), x.2.1 ≠ [] := by
    intro x hx
    exact hold _ (of_mem_zip (of_mem_zip hx).2).1
  rw [init, if_neg (not_not.mpr hlen), foldlM_planMove _ hchains]
  refine Yields.bind (Yields.ok (P := fun d => d = _) rfl) ?_
  rintro d rfl
  -- the dictionary of moves is the plan, node by node
  have hmem : ∀ n, n ∈ (plan oldMap newMap).foldl Dict.append ∅ ↔
      n ∈ (plan oldMap newMap).map Prod.fst := by
    intro n
    rw [Dict.mem_foldl_append]
    simp
  have hleft : ∀ n, left ((plan oldMap newMap).foldl Dict.append ∅) n =
      ((plan oldMap newMap).filter (·.1 = n)).map Prod.snd := by
    intro n
    rw [left, Dict.lookup_foldl_append]
    simp
  have hentry : ∀ n ms, ((plan oldMap newMap).foldl Dict.append ∅).lookup n = some ms →
      ms = ((plan oldMap newMap).filter (·.1 = n)).map Prod.snd := by
    intro n ms hms
    rw [← hleft, left, hms, Option.getD_some]
  have htargets : ∀ n ms, ((plan oldMap newMap).foldl Dict.append ∅).lookup n = some ms →
      ∀ m ∈ ms, m.newChain ≠ [] := by
    intro n ms hms m hm
    rw [hentry n ms hms] at hm
    obtain ⟨x, hx, rfl⟩ := mem_map.mp hm
    exact hnew _ (mem_of_getElem? ((mem_plan hlen).mp (mem_of_mem_filter hx)).2.1)
  rw [← plan, countMoves_eq htargets]
  refine Yields.ok ⟨⟨rfl, hmem, ?_, ?_, ?_, ?_, ?_, .nil, (mapAfter_nil hlen).symm⟩, ?_, ?_, ?_⟩
  · intro n
    exact Dict.mem_map.trans (hmem n)
  · -- the masters of both chains of a move are counted
    intro x hx n hn
    have hpos : ∀ n c, ((((plan oldMap newMap).foldl Dict.append ∅).map
        fun _ ms => ms.length)).lookup n = some c → 0 < c := by
      intro n c hc
      rw [Dict.lookup_map] at hc
      obtain ⟨ms, hms, rfl⟩ := Option.map_eq_some_iff.mp hc
      rw [hentry n ms hms]
      have hn' := (hmem n).mp (AList.lookup_isSome.mp (by rw [hms]; rfl))
      obtain ⟨y, hy, rfl⟩ := mem_map.mp hn'
      exact length_pos_of_mem
        (mem_map_of_mem (mem_filter.mpr ⟨hy, decide_eq_true rfl⟩))
    have hin : n ∈ (((((plan oldMap newMap).foldl Dict.append ∅).inOrder o).flatMap Prod.snd).map
        target).foldl Dict.bump (((plan oldMap newMap).foldl Dict.append ∅).map
          fun _ ms => ms.length) := by
      have hx1 := (hmem x.1).mpr (mem_map_of_mem hx)
      rw [Dict.mem_foldl_bump, Dict.mem_map]
      rcases hn with rfl | rfl
      · exact .inl hx1
      · right
        obtain ⟨ms, hms⟩ := Option.isSome_iff_exists.mp (AList.lookup_isSome.mpr hx1)
        refine mem_map_of_mem (mem_flatMap.mpr ⟨(x.1, ms), Dict.mem_inOrder.mpr hms, ?_⟩)
        dsimp only
        rw [hentry _ _ hms]
        exact mem_map_of_mem (mem_filter.mpr ⟨hx, decide_eq_true rfl⟩)
    obtain ⟨c, hc⟩ := Option.isSome_iff_exists.mp (AList.lookup_isSome.mpr hin)
    exact ⟨c, hc, Dict.pos_foldl_bump _ hpos hc⟩
  · intro n
    dsimp only [start]
    rw [hleft, map_map]
    refine ((map_id _).symm.trans (map_congr_left ?_)).trans (nil_append _).symm
    intro x hx
    have hn : x.1 = n := by simpa using (mem_filter.mp hx).2
    simp [← hn]
  · intro n
    dsimp only [start, load]
    rw [Dict.lookup_map]
    cases ((plan oldMap newMap).foldl Dict.append ∅).lookup n <;> rfl
  · intro n
    dsimp only [start, load]
    rw [Dict.lookup_map]
    cases ((plan oldMap newMap).foldl Dict.append ∅).lookup n with
    | none => simpa using hmax.trans' zero_le_one
    | some _ => simpa using hmax.trans' zero_le_one
  · intro h
    cases h
  · intro _
    rfl
  · rfl

theorem Inv.spawn {q : Rebalance α}
    (h : Sound oldMap newMap maxPerNode q.server q.outstanding st fin)
    (hspawned : q.spawned = true) (hlen : oldMap.length = newMap.length)
    (hnew : ∀ c ∈ newMap, c ≠ []) :
    Yields (fun r => r.2.2.filterMap Action.map? = [] ∧
        Inv oldMap newMap maxPerNode (q.reply r).1 (st ++ starts r.2.2) fin)
      (spawnWorkers o q.server) := by
  apply (h.spawn hlen hnew).mono
  rintro ⟨r, s', as⟩ ⟨hmaps, hsound, hfull, hr⟩
  refine ⟨hmaps, hsound, fun _ => hfull, ?_, ?_⟩
  · intro hnot
    have hno : q.spawned = false := hnot
    rw [hspawned] at hno
    cases hno
  · dsimp only at hr
    by_cases hout : q.outstanding ++ starts as = []
    · rw [if_pos hout] at hr
      rw [if_pos ⟨hspawned, hout⟩, hr]
      rfl
    · rw [if_neg hout] at hr
      rw [if_neg fun hand => hout hand.2, hr]
      rfl

section
variable (h : Inv oldMap newMap maxPerNode c st fin) (hlen : oldMap.length = newMap.length)
include h hlen

theorem Inv.moveDone (hnew : ∀ c ∈ newMap, c ≠ []) {x : Mover α} (hx : x ∈ c.outstanding) :
    Yields (fun r =>
        r.2.2.filterMap Action.map? = [mapAfter oldMap newMap ((fin ++ [x]).map (·.2.vbucket))] ∧
        Inv oldMap newMap maxPerNode (({ c with outstanding := c.outstanding.erase x }).reply r).1
          (st ++ starts r.2.2) (fin ++ [x]))
      (VbucketMover.moveDone o c.server x) := by
  have hxst : x ∈ st := h.sound.perm.mem_iff.mpr (mem_append_left _ hx)
  have hplan := (mem_plan hlen).mp (h.sound.started_subset hxst)
  have hspawned : c.spawned = true := by
    by_contra hnot
    rw [h.idle (by simpa using hnot)] at hxst
    cases hxst
  obtain ⟨k, hk⟩ : ∃ k, c.server.movers.lookup x.1 = some k := by
    apply Option.isSome_iff_exists.mp
    rw [AList.lookup_isSome, h.sound.mem_movers]
    exact mem_map_of_mem (h.sound.started_subset hxst)
  have hlt : x.2.vbucket < c.server.map.length := by
    rw [h.sound.map_eq, length_mapAfter hlen]
    exact (List.getElem?_eq_some_iff.mp hplan.1).1
  have hmap : c.server.map.set x.2.vbucket x.2.newChain =
      mapAfter oldMap newMap ((fin ++ [x]).map (·.2.vbucket)) := by
    rw [h.sound.map_eq, mapAfter_set hlen _ hplan.2.1, map_append]
    rfl
  have herase : c.outstanding.Perm (x :: c.outstanding.erase x) := perm_cons_erase hx
  have hload : ∀ n, load (c.server.movers.insert x.1 (k - 1)) n =
      ((c.outstanding.erase x).filter (·.1 = n)).length := by
    intro n
    have hlen' := (herase.filter (·.1 = n)).length_eq
    have hold := h.sound.loads n
    rw [hlen'] at hold
    by_cases hn : n = x.1
    · subst hn
      rw [load, hk, Option.getD_some, filter_cons_of_pos (by simp), length_cons] at hold
      rw [load, AList.lookup_insert, Option.getD_some]
      omega
    · rw [filter_cons_of_neg (by simpa using Ne.symm hn)] at hold
      rw [load, AList.lookup_insert_ne hn]
      exact hold
  have hsound : Sound oldMap newMap maxPerNode
      { c.server with
        movers := c.server.movers.insert x.1 (k - 1)
        map := c.server.map.set x.2.vbucket x.2.newChain
        replicasChanges := [] } (c.outstanding.erase x) st (fin ++ [x]) := by
    refine ⟨h.sound.maxPerNode_eq, h.sound.mem_moves, ?_, h.sound.counted, h.sound.planned, hload,
      ?_, ?_, hmap⟩
    · intro n
      rw [AList.mem_insert, h.sound.mem_movers, or_iff_right_of_imp]
      rintro rfl
      exact mem_map_of_mem (h.sound.started_subset hxst)
    · intro n
      have hlen' := (herase.filter (·.1 = n)).length_eq
      have hbound := h.sound.bound n
      have hle : ((c.outstanding.erase x).filter (·.1 = n)).length ≤
          ((x :: c.outstanding.erase x).filter (·.1 = n)).length :=
        ((sublist_cons_self _ _).filter _).length_le
      rw [h.sound.loads] at hbound
      rw [hload]
      omega
    · refine h.sound.perm.trans ((herase.append_right fin).trans ?_)
      rw [← append_assoc, cons_append]
      exact (perm_append_singleton x _).symm
  simp only [VbucketMover.moveDone, hk, if_pos hlt]
  refine (Inv.spawn (q := ⟨_, c.status, c.spawned, c.outstanding.erase x⟩) hsound hspawned hlen
    hnew).bind ?_
  rintro ⟨r, s', as⟩ ⟨hmaps, hinv⟩
  apply Yields.ok
  have hdeletes : ∀ l : List α, (l.map fun n => Action.deleteVbucket n x.2.vbucket).filterMap
      Action.map? = [] ∧ (l.map fun n => Action.deleteVbucket n x.2.vbucket).filterMap
      Action.mover? = [] := by
    intro l
    constructor
    · simp [filterMap_map, comp_def, Action.map?]
    · simp [filterMap_map, comp_def, Action.mover?]
  have hstarts : ([Action.setMap (c.server.map.set x.2.vbucket x.2.newChain)] ++
      syncReplicas ((postMoveChanges x.2).reverse ++ c.server.replicasChanges) ++
      ((x.2.oldChain.diff x.2.newChain).filterMap id).map
        (fun n => Action.deleteVbucket n x.2.vbucket) ++ as).filterMap Action.mover? =
      as.filterMap Action.mover? := by
    rw [filterMap_append, filterMap_append, filterMap_append, syncReplicas_mover?, (hdeletes _).2]
    rfl
  constructor
  · dsimp only
    rw [filterMap_append, filterMap_append, filterMap_append, syncReplicas_map?,
      (hdeletes _).1, hmaps, ← hmap]
    rfl
  · dsimp only [Rebalance.reply, starts] at hinv ⊢
    rw [hstarts]
    exact hinv

/-- One message, with the maps that it makes the server publish. -/
theorem Inv.step (hnew : ∀ c ∈ newMap, c ≠ []) {e : Event α} (he : Possible c e) :
    Yields (fun r => Inv oldMap newMap maxPerNode r.1 (st ++ starts r.2) (fin ++ reports [e]) ∧
        r.2.filterMap Action.map? = (reports [e]).map
          fun x => mapAfter oldMap newMap ((fin ++ [x]).map (·.2.vbucket)))
      (VbucketMover.step o c e) := by
  have hrunning : c.status = .running := by
    cases e with
    | spawnInitial | moveDone x => exact he.1
    | exitFailed => exact he.elim
    | maybeSyncChanges | logTapStats | exitNormal | unhandled => exact he
  -- messages that touch neither the moves nor the map
  have hquiet : ∀ c' : Rebalance α, c'.server.initialCounts = c.server.initialCounts →
      c'.server.maxPerNode = c.server.maxPerNode → c'.server.map = c.server.map →
      c'.server.moves = c.server.moves → c'.server.movers = c.server.movers →
      c'.status = c.status → c'.spawned = c.spawned → c'.outstanding = c.outstanding →
      Inv oldMap newMap maxPerNode c' (st ++ []) (fin ++ []) := by
    intro c' h1 h2 h3 h4 h5 h6 h7 h8
    rw [append_nil, append_nil]
    obtain ⟨⟨g1, g2, g3, g4, g5, g6, g7, g8, g9⟩, hfull, hidle, hstatus⟩ := h
    rw [← h1] at g4
    rw [← h2] at g1
    rw [← h3] at g9
    rw [← h4] at g2 g5 hfull
    rw [← h5] at g3 g6 g7 hfull
    rw [← h7] at hfull hidle
    rw [← h8] at g6 g8
    refine ⟨⟨g1, g2, g3, g4, g5, g6, g7, g8, g9⟩, hfull, hidle, ?_⟩
    rw [h6, hstatus]
    simp only [h7, h8]
  simp only [VbucketMover.step, hrunning]
  cases e with
  | spawnInitial =>
    refine (Inv.spawn (q := { c with spawned := true }) h.sound rfl hlen hnew).bind ?_
    rintro ⟨r, s', as⟩ ⟨hmaps, hinv⟩
    apply Yields.ok
    rw [show reports [Event.spawnInitial (α := α)] = [] from rfl, append_nil]
    exact ⟨hinv, hmaps⟩
  | moveDone x =>
    refine (h.moveDone hlen hnew he.2).bind ?_
    rintro ⟨r, s', as⟩ ⟨hmaps, hinv⟩
    exact Yields.ok ⟨hinv, hmaps⟩
  | maybeSyncChanges =>
    dsimp only
    split_ifs with hc
    · exact Yields.ok ⟨hquiet _ rfl rfl rfl rfl rfl hrunning.symm rfl rfl, rfl⟩
    · refine Yields.ok ⟨?_, syncReplicas_map? _⟩
      rw [starts, syncReplicas_mover?]
      exact hquiet _ rfl rfl rfl rfl rfl hrunning.symm rfl rfl
  | exitFailed => exact he.elim
  | logTapStats | exitNormal | unhandled =>
    exact Yields.ok ⟨hquiet c rfl rfl rfl rfl rfl rfl rfl rfl, rfl⟩

theorem Inv.run (hnew : ∀ c ∈ newMap, c ≠ []) {es : List (Event α)}
    (hes : Along (VbucketMover.step o) Possible c es) :
    ∃ c' os, run (VbucketMover.step o) c es = .ok (c', os) ∧
      Inv oldMap newMap maxPerNode c' (st ++ spawnedMovers os) (fin ++ reports es) ∧
      publishedMaps os = (reports es).inits.tail.map
        fun xs => mapAfter oldMap newMap ((fin ++ xs).map (·.2.vbucket)) := by
  induction es generalizing c st fin with
  | nil =>
    refine ⟨c, [], rfl, ?_, rfl⟩
    simpa [spawnedMovers, reports] using h
  | cons e es ih =>
    obtain ⟨⟨c1, as⟩, hstep, h1, hmaps⟩ := h.step (o := o) hlen hnew hes.1
    obtain ⟨c', os, hrun, h', hpub⟩ := ih h1 (hes.2 c1 as hstep)
    have hreports : reports (e :: es) = reports [e] ++ reports es :=
      filterMap_append (l := [e])
    have hspawned : spawnedMovers (as :: os) = starts as ++ spawnedMovers os := by
      rw [spawnedMovers, flatten_cons, filterMap_append]
      rfl
    refine ⟨c', as :: os, run_cons_ok.mpr ⟨c1, as, os, hstep, hrun, rfl⟩, ?_, ?_⟩
    · rw [hreports, hspawned, ← append_assoc, ← append_assoc]
      exact h'
    · rw [publishedMaps, flatten_cons, filterMap_append, hreports]
      dsimp only at hmaps
      rw [hmaps]
      rw [publishedMaps] at hpub
      rw [hpub]
      -- a report makes one longer list of reports, any other message none
      cases e with
      | moveDone x =>
        rw [show reports [Event.moveDone x] = [x] from rfl, singleton_append, inits_cons,
          tail_cons, map_map]
        cases reports es with
        | nil => simp
        | cons y ys => simp [comp_def]
      | spawnInitial | maybeSyncChanges | logTapStats | exitNormal | exitFailed | unhandled =>
        rw [show reports [_] = [] from rfl, append_nil, nil_append]
        rfl

theorem Inv.stopped_iff (hmax : 1 ≤ maxPerNode) :
    c.status = .stoppedNormal ↔ c.spawned ∧ ∀ x ∈ plan oldMap newMap, x ∈ fin := by
  have hstatus := h.status_eq
  have hst : (c.outstanding ++ fin).Nodup :=
    h.sound.perm.nodup_iff.mp ((h.sound.started_nodup hlen).of_map _)
  constructor
  · intro hstop
    rw [hstop] at hstatus
    split_ifs at hstatus with hcond
    obtain ⟨hspawned, hout⟩ := hcond
    refine ⟨hspawned, ?_⟩
    intro x hx
    have hload : load c.server.movers x.1 = 0 := by
      rw [h.sound.loads, hout]
      rfl
    have hleft : left c.server.moves x.1 = [] := by
      by_contra hne
      have := h.full hspawned x.1 hne
      omega
    have hx' : x ∈ (plan oldMap newMap).filter (·.1 = x.1) := mem_filter.mpr ⟨hx, by simp⟩
    rw [h.sound.planned, hleft, map_nil, append_nil] at hx'
    have hperm := h.sound.perm
    rw [hout, nil_append] at hperm
    exact hperm.mem_iff.mp (mem_of_mem_filter hx')
  · rintro ⟨hspawned, hall⟩
    have hout : c.outstanding = [] := by
      apply eq_nil_iff_forall_not_mem.mpr
      intro x hx
      have hplan := h.sound.started_subset (h.sound.perm.mem_iff.mpr (mem_append_left _ hx))
      exact (nodup_append.mp hst).2.2 x hx x (hall x hplan) rfl
    rw [hstatus, if_pos ⟨hspawned, hout⟩]

end

/-- A rebalance moves what is planned, whatever the order in which the movers report: movers are
only spawned for vbuckets that differ, each once and with its chains, no node has more than
`maxPerNode` of them outstanding, every report publishes the map with the vbuckets moved so far, and
the server stops, with the new map, when and only when all of them have been moved. Until then
`spawn_initial` is to come or a mover is outstanding. -/
theorem rebalance_moves_planned (o : Dict.Order (Option α)) {oldMap newMap : List (Chain α)}
    (hlen : oldMap.length = newMap.length)
    (hold : ∀ c ∈ oldMap, ∃ n rest, c = some n :: rest)
    (hnew : ∀ c ∈ newMap, ∃ n rest, c = some n :: rest) {maxPerNode : ℤ} (hmax : 1 ≤ maxPerNode) :
    ∃ s, init o maxPerNode oldMap newMap = .ok s ∧
      ∀ es, Along (VbucketMover.step o) Possible (start s) es →
      ∃ c os, run (VbucketMover.step o) (start s) es = .ok (c, os) ∧
        (∀ x ∈ spawnedMovers os, oldMap[x.2.vbucket]? = some x.2.oldChain ∧
          newMap[x.2.vbucket]? = some x.2.newChain ∧ x.1 = x.2.oldChain.head?.join) ∧
        (∀ v, ((spawnedMovers os).map (·.2.vbucket)).count v ≤
          if oldMap[v]? = newMap[v]? then 0 else 1) ∧
        (spawnedMovers os).Perm (c.outstanding ++ reports es) ∧
        (∀ n, ((c.outstanding.filter (·.1 = n)).length : ℤ) ≤ maxPerNode) ∧
        publishedMaps os = (reports es).inits.tail.map
          (fun xs => mapAfter oldMap newMap (xs.map (·.2.vbucket))) ∧
        (c.status = .stoppedNormal ↔ c.spawned ∧
          ∀ v, oldMap[v]? ≠ newMap[v]? → v ∈ (reports es).map (·.2.vbucket)) ∧
        (c.status = .stoppedNormal → c.server.map = newMap ∧
          ∀ v, ((spawnedMovers os).map (·.2.vbucket)).count v =
            if oldMap[v]? = newMap[v]? then 0 else 1) ∧
        (c.status ≠ .stoppedNormal → c.status = .running ∧
          (c.spawned = false ∨ c.outstanding ≠ [])) := by
  have hne : ∀ {m : List (Chain α)}, (∀ c ∈ m, ∃ n rest, c = some n :: rest) → ∀ c ∈ m, c ≠ [] := by
    intro m hm c hc heq
    obtain ⟨n, rest, rfl⟩ := hm c hc
    cases heq
  obtain ⟨s, hs, hinit⟩ := init_yields (o := o) hlen (hne hold) (hne hnew) hmax
  refine ⟨s, hs, ?_⟩
  intro es hes
  obtain ⟨c, os, hrun, hinv, hpub⟩ := hinit.run hlen (hne hnew) hes
  rw [nil_append, nil_append] at hinv
  simp only [nil_append] at hpub
  have hsub := hinv.sound.started_subset
  have hnodup := hinv.sound.started_nodup hlen
  -- the vbuckets of the plan are those that differ
  have hdiffer : ∀ v, oldMap[v]? ≠ newMap[v]? ↔ v ∈ (plan oldMap newMap).map (·.2.vbucket) := by
    intro v
    rw [mem_map]
    constructor
    · intro hv
      have hlt : v < oldMap.length := by
        by_contra hge
        rw [List.getElem?_eq_none (by omega), List.getElem?_eq_none (by omega)] at hv
        exact hv rfl
      have hlt' : v < newMap.length := hlen ▸ hlt
      refine ⟨(oldMap[v].head?.join, ⟨v, oldMap[v], newMap[v]⟩), (mem_plan hlen).mpr ?_, rfl⟩
      rw [List.getElem?_eq_getElem hlt, List.getElem?_eq_getElem hlt'] at hv
      exact ⟨List.getElem?_eq_getElem hlt, List.getElem?_eq_getElem hlt',
        fun h => hv (congrArg some h), rfl⟩
    · rintro ⟨x, hx, rfl⟩
      obtain ⟨h₁, h₂, h₃, -⟩ := (mem_plan hlen).mp hx
      rw [h₁, h₂]
      exact fun h => h₃ (Option.some.inj h)
  have hcount : ∀ v, ((spawnedMovers os).map (·.2.vbucket)).count v ≤
      if oldMap[v]? = newMap[v]? then 0 else 1 := by
    intro v
    split_ifs with hv
    · rw [Nat.le_zero, count_eq_zero]
      intro hmem
      exact (hdiffer v).mpr (map_subset _ hsub hmem) hv
    · exact nodup_iff_count_le_one.mp hnodup v
  have hstop : c.status = .stoppedNormal ↔ c.spawned ∧
      ∀ v, oldMap[v]? ≠ newMap[v]? → v ∈ (reports es).map (·.2.vbucket) := by
    rw [hinv.stopped_iff hlen hmax]
    refine and_congr_right fun _ => ?_
    have hreports : reports es ⊆ plan oldMap newMap := fun x hx =>
      hsub (hinv.sound.perm.mem_iff.mpr (mem_append_right _ hx))
    constructor
    · intro hall v hv
      obtain ⟨x, hx, rfl⟩ := mem_map.mp ((hdiffer v).mp hv)
      exact mem_map_of_mem (hall x hx)
    · intro hall x hx
      have hv := hall x.2.vbucket ((hdiffer _).mpr (mem_map_of_mem hx))
      obtain ⟨y, hy, hyx⟩ := mem_map.mp hv
      rwa [inj_on_of_nodup_map (nodup_plan hlen) (hreports hy) hx hyx] at hy
  refine ⟨c, os, hrun, ?_, hcount, hinv.sound.perm, ?_, hpub, hstop, ?_, ?_⟩
  · intro x hx
    obtain ⟨h₁, h₂, -, h₄⟩ := (mem_plan hlen).mp (hsub hx)
    exact ⟨h₁, h₂, h₄⟩
  · intro n
    rw [← hinv.sound.loads]
    exact hinv.sound.bound n
  · intro hst
    have hall := (hstop.mp hst).2
    refine ⟨by rw [hinv.sound.map_eq, mapAfter_eq_new hlen hall], ?_⟩
    intro v
    apply le_antisymm (hcount v)
    split_ifs with hv
    · exact Nat.zero_le _
    · obtain ⟨x, hx, rfl⟩ := mem_map.mp (hall v hv)
      exact count_pos_iff.mpr (mem_map_of_mem
        (hinv.sound.perm.mem_iff.mpr (mem_append_right _ hx)))
  · intro hnot
    have hstatus := hinv.status_eq
    split_ifs at hstatus with hcond
    · exact absurd hstatus hnot
    · refine ⟨hstatus, ?_⟩
      cases hsp : c.spawned with
      | false => exact .inl rfl
      | true => exact .inr fun hout => hcond ⟨hsp, hout⟩

def listOrder : Dict.Order (Option ℕ) := ⟨id, fun l => List.Perm.refl l⟩

/-- Vbuckets 0 and 2 leave node 1, one at a time, and vbucket 1 gets another replica. -/
def planBefore : List (Chain ℕ) := [[some 1, some 2], [some 2, none], [some 1, some 2]]

def planAfter : List (Chain ℕ) := [[some 3, some 2], [some 2, some 3], [some 2, some 1]]

def planEvents : List (Event ℕ) :=
  [.spawnInitial, .moveDone (some 2, ⟨1, [some 2, none], [some 2, some 3]⟩), .exitNormal,
    .moveDone (some 1, ⟨0, [some 1, some 2], [some 3, some 2]⟩),
    .moveDone (some 1, ⟨2, [some 1, some 2], [some 2, some 1]⟩)]

theorem rebalance_moves_planned_three :
    ∃ s, init listOrder 1 planBefore planAfter = .ok s ∧
      ∃ c os, run (VbucketMover.step listOrder) (start s) planEvents = .ok (c, os) ∧
        c.status = .stoppedNormal ∧ c.server.map = planAfter ∧
        publishedMaps os = [[[some 1, some 2], [some 2, some 3], [some 1, some 2]],
            [[some 3, some 2], [some 2, some 3], [some 1, some 2]], planAfter] := by
  have hlen : planBefore.length = planAfter.length := rfl
  obtain ⟨s, hs, hruns⟩ := rebalance_moves_planned listOrder hlen (by simp [planBefore])
    (by simp [planAfter]) (le_refl (1 : ℤ))
  have hall : (init listOrder 1 planBefore planAfter).toOption.all fun s =>
      decide (Along (VbucketMover.step listOrder) Possible (start s) planEvents) := by
    decide
  have hrun : (init listOrder 1 planBefore planAfter).toOption.all fun s =>
      ((run (VbucketMover.step listOrder) (start s) planEvents).toOption.all
        fun r => r.1.spawned) := by
    decide
  rw [hs] at hall hrun
  obtain ⟨c, os, hc, -, -, -, -, hpub, hstop, hdone, -⟩ := hruns planEvents (of_decide_eq_true hall)
  rw [Except.toOption, Option.all_some, hc] at hrun
  have hstatus := hstop.mpr ⟨hrun, by
    intro v hv
    have hlt : v < 3 := by
      by_contra hge
      rw [List.getElem?_eq_none (by simpa [planBefore] using hge),
        List.getElem?_eq_none (by simpa [planAfter] using hge)] at hv
      exact hv rfl
    interval_cases v <;> decide⟩
  refine ⟨s, hs, c, os, hc, hstatus, (hdone hstatus).1, ?_⟩
  rw [hpub]
  decide

end Appstack.NsServer.VbucketMover
