import Appstack.Lib.Yields
import Appstack.Pc.Quorum
import Appstack.Lib.Machine

namespace Appstack.Pc

open List Lib.Machine

/-- The primary views one after the other, the last one that each node has installed, and what
the nodes recorded. -/
structure History where
  views : List View
  installed : Uuid → Option ℕ
  records : Uuid → NodeMap

namespace History

/-- The views have increasing identifiers, and each has the majority of the one before. -/
structure Valid (h : History) : Prop where
  increasing : h.views.Pairwise fun v v' => v.id < v'.id
  prim : ∀ v ∈ h.views, ViewId.nonPrim < v.id
  majority : ∀ k v v', h.views[k]? = some v → h.views[k + 1]? = some v' →
    v.members.card < 2 * (v.members ∩ v'.members).card
  installs : ∀ u k, h.installed u = some k → ∃ v ∈ h.views[k]?, u ∈ v.members
  records : ∀ u k v, h.installed u = some k → h.views[k]? = some v → ∀ x ∈ v.members,
    ∃ node ∈ (h.records u).lookup x, v.id ≤ node.lastPrim

/-- No member is recorded in a later view than the members have installed. A record that was taken
over from the state of a node that is gone can be ahead. -/
def NotAhead (h : History) (members : Finset Uuid) : Prop :=
  ∀ u ∈ members, ∀ e ∈ h.records u, e.1 ∈ members → e.2.lastPrim ≠ .nonPrim →
    ∃ w ∈ members, ∃ k ∈ h.installed w, ∃ v ∈ h.views[k]?, e.2.lastPrim ≤ v.id

/-- The group has all of the `k`th view. Some of them have installed it, nobody has installed a
later one, and of no absent node do they know that it has it. -/
structure Holds (h : History) (members : Finset Uuid) (k : ℕ) (v : View) : Prop where
  view : h.views[k]? = some v
  all : v.members ⊆ members
  installed : ∃ u ∈ members, h.installed u = some k
  last : ∀ u ∈ members, ∀ j, h.installed u = some j → j ≤ k
  unaware : ∀ u ∈ members, ∀ e ∈ h.records u, v.id ≤ e.2.lastPrim → e.1 ∈ members

/-- The first group has all of a view although the history went on: a node that is in the next
view too has not installed that. The second group has all of a later view. -/
def Stranded (h : History) (members members' : Finset Uuid) : Prop :=
  ∃ j v v', h.Holds members j v ∧ h.views[j + 1]? = some v' ∧
    (∃ u ∈ v.members ∩ v'.members, ∀ i, h.installed u = some i → i ≤ j) ∧
    ∃ k w, j < k ∧ h.Holds members' k w

/-- All members of a regular view have sent their records, none claims to be in prim, and
nothing is unknown. -/
structure Regroups (h : History) (p : Proto) : Prop where
  stateMsgs : ∀ e, e ∈ p.stateMsgs ↔ e.1 ∈ p.currentView.members ∧ e.2 = .state (h.records e.1)
  nonPrim : ∀ u ∈ p.currentView.members, ∃ node ∈ (h.records u).lookup u, node.prim = false
  known : ∀ u ∈ p.currentView.members, ∀ e ∈ h.records u, e.2.un = false
  knownHere : ∀ e ∈ p.instances, e.2.un = false

variable {h : History} {p p₁ p₂ : Proto}

theorem Valid.le_of_id_le (hv : h.Valid) {j k : ℕ} {v v' : View} (hj : h.views[j]? = some v)
    (hk : h.views[k]? = some v') (hid : v.id ≤ v'.id) : j ≤ k := by
  by_contra hlt
  rw [not_le] at hlt
  obtain ⟨hj', rfl⟩ := List.getElem?_eq_some_iff.mp hj
  obtain ⟨hk', rfl⟩ := List.getElem?_eq_some_iff.mp hk
  have := pairwise_iff_getElem.mp hv.increasing k j hk' hj' hlt
  exact absurd hid (not_le.mpr this)

theorem Valid.lt_of_id_lt (hv : h.Valid) {j k : ℕ} {v v' : View} (hj : h.views[j]? = some v)
    (hk : h.views[k]? = some v') (hid : v.id < v'.id) : j < k := by
  refine lt_of_le_of_ne (hv.le_of_id_le hj hk hid.le) ?_
  rintro rfl
  obtain rfl : v = v' := Option.some.inj (hj.symm.trans hk)
  exact lt_irrefl _ hid

/-- Of a view that is not the last one more than half of the nodes were to go on. -/
theorem Valid.stranded (hv : h.Valid) {members members' : Finset Uuid} {j k : ℕ} {v w : View}
    (hlt : j < k) (hj : h.Holds members j v) (hk : h.Holds members' k w) :
    h.Stranded members members' := by
  have hlen : j + 1 < h.views.length := by
    have := (List.getElem?_eq_some_iff.mp hk.view).1
    omega
  have hnext : h.views[j + 1]? = some h.views[j + 1] := List.getElem?_eq_getElem hlen
  have hmaj := hv.majority j v _ hj.view hnext
  obtain ⟨u, hu⟩ := Finset.card_pos.mp (by omega : 0 < (v.members ∩ h.views[j + 1].members).card)
  have hmem := hj.all (Finset.mem_inter.mp hu).1
  exact ⟨j, v, _, hj, hnext, ⟨u, hu, hj.last u hmem⟩, k, w, hlt, hk⟩

end History

namespace Proto

open History

variable {h : History} {p p₁ p₂ : Proto} {stateMsgs : Map Message} {r : ViewId × Uuid}

theorem mem_lastPrimUuids : r ∈ lastPrimUuids stateMsgs ↔
      r.1 ≠ .nonPrim ∧ ∃ e ∈ stateMsgs, ∃ s ∈ e.2.nodeMap, s.2.lastPrim = r.1 ∧ s.1 = r.2 := by
  simp only [lastPrimUuids, mem_filter, mem_flatMap, mem_map, decide_eq_true_eq,
    ne_eq, Prod.ext_iff]
  tauto

theorem node_of_mem_ownStates {states : List (Uuid × Node)}
    (hok : ownStates stateMsgs = .ok states) {s : Uuid × Node} (hs : s ∈ states) :
    ∃ e ∈ stateMsgs, e.1 = s.1 ∧ e.2.node e.1 = .ok s.2 := by
  induction stateMsgs generalizing states with
  | nil =>
    cases hok
    cases hs
  | cons e stateMsgs ih =>
    unfold ownStates at hok
    rw [mapM_cons] at hok
    obtain ⟨first, hfirst, hok⟩ := bind_eq_ok.mp hok
    obtain ⟨node, hnode, hpair⟩ := bind_eq_ok.mp hfirst
    obtain ⟨rest, hrest, hok⟩ := bind_eq_ok.mp hok
    cases hpair
    cases hok
    rcases mem_cons.mp hs with rfl | hs
    · exact ⟨e, .head _, rfl, hnode⟩
    · obtain ⟨e', he', hse⟩ := ih hrest hs
      exact ⟨e', mem_cons_of_mem _ he', hse⟩

/-- Nobody is in prim, so the last known component decides. -/
theorem isPrim_eq_canRebootstrap (hr : h.Regroups p) : p.isPrim = .ok p.canRebootstrap := by
  have hnode : ∀ e ∈ p.stateMsgs, ∃ node : Node, e.2.node e.1 = .ok node ∧ node.prim = false := by
    intro e he
    obtain ⟨hmem, hstate⟩ := (hr.stateMsgs e).mp he
    obtain ⟨node, hlookup, hprim⟩ := hr.nonPrim e.1 hmem
    exact ⟨node, by rw [hstate]; exact Map.findChecked_eq_ok.mpr hlookup, hprim⟩
  obtain ⟨states, hstates⟩ : ∃ states, ownStates p.stateMsgs = .ok states := by
    apply mapM_ok
    intro e he
    obtain ⟨node, hok, -⟩ := hnode e he
    exact ⟨(e.1, node), bind_eq_ok.mpr ⟨node, hok, rfl⟩⟩
  have hfind : states.find? (·.2.prim) = none := by
    rw [List.find?_eq_none]
    intro s hs
    obtain ⟨e, he, -, hok⟩ := node_of_mem_ownStates hstates hs
    obtain ⟨node, hok', hprim⟩ := hnode e he
    rw [Except.ok.inj (hok.symm.trans hok'), hprim]
    decide
  unfold isPrim
  rw [bind_eq_ok]
  exact ⟨states, hstates, by rw [hfind]⟩

/-- What `is_prim` has found: a recorded view that is not below any other, with all the nodes
that are recorded for it. -/
theorem exists_greatest (hc : p.canRebootstrap) :
    ∃ g : ViewId, (∃ u, (g, u) ∈ lastPrimUuids p.stateMsgs) ∧
      (∀ r ∈ lastPrimUuids p.stateMsgs, r.1 ≤ g) ∧
      ∀ u, (g, u) ∈ lastPrimUuids p.stateMsgs → u ∈ p.currentView.members := by
  unfold canRebootstrap at hc
  split_ifs at hc
  cases hmax : ((lastPrimUuids p.stateMsgs).map Prod.fst).max? with
  | none =>
    rw [hmax] at hc
    cases hc
  | some g =>
    rw [hmax] at hc
    simp only [decide_eq_true_eq, mem_map, mem_filter] at hc
    obtain ⟨hg, hle⟩ := List.max?_eq_some_iff.mp hmax
    obtain ⟨r, hr, rfl⟩ := mem_map.mp hg
    refine ⟨r.1, ⟨r.2, hr⟩, ?_, ?_⟩
    · intro r' hr'
      exact hle r'.1 (mem_map_of_mem hr')
    · intro u hu
      exact hc u ⟨(r.1, u), ⟨hu, rfl⟩, rfl⟩

theorem canRebootstrap_of_greatest (hknown : ∀ e ∈ p.instances, e.2.un = false) {g : ViewId}
    {u : Uuid} (hg : (g, u) ∈ lastPrimUuids p.stateMsgs)
    (hmax : ∀ r ∈ lastPrimUuids p.stateMsgs, r.1 ≤ g)
    (hsub : ∀ u, (g, u) ∈ lastPrimUuids p.stateMsgs → u ∈ p.currentView.members) :
    p.canRebootstrap := by
  have hun : ¬p.instances.any fun e => e.2.un ∧ e.1 ∉ p.currentView.members := by
    simp only [any_eq_true, decide_eq_true_eq, not_exists, not_and]
    intro e he hune
    rw [hknown e he] at hune
    cases hune
  have hmax? : ((lastPrimUuids p.stateMsgs).map Prod.fst).max? = some g := by
    rw [List.max?_eq_some_iff]
    refine ⟨mem_map.mpr ⟨_, hg, rfl⟩, ?_⟩
    intro id hid
    obtain ⟨r, hr, rfl⟩ := mem_map.mp hid
    exact hmax r hr
  unfold canRebootstrap
  rw [if_neg hun, hmax?]
  simp only [decide_eq_true_eq, mem_map, mem_filter]
  rintro x ⟨r, ⟨hr, rfl⟩, rfl⟩
  exact hsub r.2 hr

theorem mem_lastPrimUuids_regroups (hr : h.Regroups p) :
    r ∈ lastPrimUuids p.stateMsgs ↔ r.1 ≠ .nonPrim ∧
      ∃ u ∈ p.currentView.members, ∃ e ∈ h.records u, e.2.lastPrim = r.1 ∧ e.1 = r.2 := by
  rw [mem_lastPrimUuids]
  refine and_congr_right fun _ => ?_
  constructor
  · rintro ⟨e, he, s, hs, hrs⟩
    obtain ⟨hmem, hstate⟩ := (hr.stateMsgs e).mp he
    rw [hstate] at hs
    exact ⟨e.1, hmem, s, hs, hrs⟩
  · rintro ⟨u, hu, s, hs, hrs⟩
    exact ⟨(u, .state (h.records u)), (hr.stateMsgs _).mpr ⟨hu, rfl⟩, s, hs, hrs⟩

section
variable (hv : h.Valid) (hr : h.Regroups p)
include hv hr

/-- Whatever a member has installed is recorded. -/
theorem exists_recorded {w : Uuid}
    (hw : w ∈ p.currentView.members) {j : ℕ} {v : View} (hj : h.installed w = some j)
    (hview : h.views[j]? = some v) {x : Uuid} (hx : x ∈ v.members) :
    ∃ id, v.id ≤ id ∧ (id, x) ∈ lastPrimUuids p.stateMsgs := by
  obtain ⟨node, hlookup, hid⟩ := hv.records w j v hj hview x hx
  have hnode : ViewId.nonPrim < node.lastPrim :=
    (hv.prim v (mem_of_getElem? hview)).trans_le hid
  obtain ⟨l1, l2, hsplit, -⟩ := lookup_eq_some_iff.mp hlookup
  refine ⟨node.lastPrim, hid, (mem_lastPrimUuids_regroups hr).mpr
    ⟨hnode.ne', w, hw, (x, node), ?_, rfl, rfl⟩⟩
  simp [hsplit]

/-- The group has all of the greatest primary view that a member installed. -/
theorem exists_holds (hahead : h.NotAhead p.currentView.members) (hprim : p.isPrim = .ok true) :
    ∃ k v, h.Holds p.currentView.members k v := by
  rw [isPrim_eq_canRebootstrap hr] at hprim
  obtain ⟨g, ⟨u, hgu⟩, hmax, hsub⟩ := exists_greatest (Except.ok.inj hprim)
  -- a node recorded for the greatest view is there, so a member has installed that view
  have hu := hsub u hgu
  obtain ⟨hne, w, hw, s, hs, rfl, rfl⟩ := (mem_lastPrimUuids_regroups hr).mp hgu
  obtain ⟨x, hx, k, hk, v, hview, hle⟩ := hahead w hw s hs hu hne
  have hall : v.members ⊆ p.currentView.members := by
    intro y hy
    obtain ⟨id, hid, hrec⟩ := exists_recorded hv hr hx hk hview hy
    have heq : id = s.2.lastPrim := le_antisymm (hmax _ hrec) (hle.trans hid)
    exact hsub y (heq ▸ hrec)
  refine ⟨k, v, hview, hall, ⟨x, hx, hk⟩, ?_, ?_⟩
  · intro y hy j hj
    obtain ⟨v', hv', hmem⟩ := hv.installs y j hj
    obtain ⟨id, hid, hrec⟩ := exists_recorded hv hr hy hj hv' hmem
    exact hv.le_of_id_le hv' hview ((hid.trans (hmax _ hrec)).trans hle)
  · intro y hy e he hid
    have hnode : ViewId.nonPrim < e.2.lastPrim :=
      (hv.prim v (mem_of_getElem? hview)).trans_le hid
    have hrec : (e.2.lastPrim, e.1) ∈ lastPrimUuids p.stateMsgs :=
      (mem_lastPrimUuids_regroups hr).mpr ⟨hnode.ne', y, hy, e, he, rfl, rfl⟩
    have heq : e.2.lastPrim = s.2.lastPrim := le_antisymm (hmax _ hrec) (hle.trans hid)
    exact hsub e.1 (heq ▸ hrec)

theorem isPrim_of_holds (hahead : h.NotAhead p.currentView.members) {k : ℕ} {v : View}
    (hk : h.Holds p.currentView.members k v) : p.isPrim = .ok true := by
  obtain ⟨u, hu, hi⟩ := hk.installed
  obtain ⟨v', hv', hmem⟩ := hv.installs u k hi
  obtain rfl : v = v' := Option.some.inj (hk.view.symm.trans hv')
  have hmax : ∀ r ∈ lastPrimUuids p.stateMsgs, r.1 ≤ v.id := by
    intro r hrec
    obtain ⟨hne, w, hw, e, he, hid, hkey⟩ := (mem_lastPrimUuids_regroups hr).mp hrec
    by_contra hlt
    rw [not_le, ← hid] at hlt
    obtain ⟨x, hx, j, hj, v', hview, hle⟩ :=
      hahead w hw e he (hk.unaware w hw e he hlt.le) (hid ▸ hne)
    exact absurd (hk.last x hx j hj) (not_le.mpr (hv.lt_of_id_lt hk.view hview (hlt.trans_le hle)))
  obtain ⟨id, hid, hrec⟩ := exists_recorded hv hr hu hi hk.view hmem
  obtain rfl : id = v.id := le_antisymm (hmax _ hrec) hid
  rw [isPrim_eq_canRebootstrap hr, canRebootstrap_of_greatest hr.knownHere hrec hmax]
  intro x hx
  obtain ⟨-, w, hw, e, he, hid, rfl⟩ := (mem_lastPrimUuids_regroups hr).mp hx
  exact hk.unaware w hw e he hid.ge

end

end Proto

open Proto

def History.of (views : List View) (installed : List (Uuid × ℕ)) (records : Map Message) :
    History where
  views := views
  installed u := installed.lookup u
  records u := ((records.lookup u).map Message.nodeMap).getD []

/-- The decidable part of `Valid` for a history that is given by lists. -/
def History.Fits (h : History) (installed : List (Uuid × ℕ)) : Prop :=
  h.views.Pairwise (fun v v' => v.id < v'.id) ∧ (∀ v ∈ h.views, ViewId.nonPrim < v.id) ∧
    (∀ k < h.views.length, ∀ v ∈ h.views[k]?, ∀ v' ∈ h.views[k + 1]?,
      v.members.card < 2 * (v.members ∩ v'.members).card) ∧
    ∀ e ∈ installed, ∃ v ∈ h.views[e.2]?, e.1 ∈ v.members ∧ ∀ x ∈ v.members,
      ∃ node ∈ (h.records e.1).lookup x, v.id ≤ node.lastPrim

instance (h : History) (installed : List (Uuid × ℕ)) : Decidable (h.Fits installed) :=
  inferInstanceAs (Decidable (_ ∧ _))

theorem History.of_valid {views : List View} {installed : List (Uuid × ℕ)} {records : Map Message}
    (hfits : (History.of views installed records).Fits installed) :
    (History.of views installed records).Valid where
  increasing := hfits.1
  prim := hfits.2.1
  majority k v v' hv hv' := hfits.2.2.1 k (List.getElem?_eq_some_iff.mp hv).1 v hv v' hv'
  installs := by
    intro u k hu
    obtain ⟨l1, l2, hsplit, -⟩ := lookup_eq_some_iff.mp hu
    obtain ⟨v, hv, hmem, -⟩ := hfits.2.2.2 (u, k) (by simp [hsplit])
    exact ⟨v, hv, hmem⟩
  records := by
    intro u k v hu hv x hx
    obtain ⟨l1, l2, hsplit, -⟩ := lookup_eq_some_iff.mp hu
    obtain ⟨v', hv', -, hrec⟩ := hfits.2.2.2 (u, k) (by simp [hsplit])
    obtain rfl : v' = v := Option.some.inj (hv'.symm.trans hv)
    exact hrec x hx

theorem History.regroups_iff {h : History} {p : Proto} :
    h.Regroups p ↔ (p.stateMsgs.map Prod.fst).toFinset = p.currentView.members ∧
      (∀ e ∈ p.stateMsgs, e.2 = .state (h.records e.1)) ∧
      (∀ u ∈ p.currentView.members, ∃ node ∈ (h.records u).lookup u, node.prim = false) ∧
      (∀ u ∈ p.currentView.members, ∀ e ∈ h.records u, e.2.un = false) ∧
      ∀ e ∈ p.instances, e.2.un = false := by
  constructor
  · rintro ⟨hmsgs, hprim, hun, hhere⟩
    refine ⟨?_, fun e he => ((hmsgs e).mp he).2, hprim, hun, hhere⟩
    ext u
    simp only [mem_toFinset, mem_map]
    constructor
    · rintro ⟨e, he, rfl⟩
      exact ((hmsgs e).mp he).1
    · intro hu
      exact ⟨_, (hmsgs (u, .state (h.records u))).mpr ⟨hu, rfl⟩, rfl⟩
  · rintro ⟨hkeys, hrec, hprim, hun, hhere⟩
    refine ⟨?_, hprim, hun, hhere⟩
    rintro ⟨u, m⟩
    simp only [← hkeys, mem_toFinset, mem_map]
    constructor
    · intro he
      exact ⟨⟨_, he, rfl⟩, hrec _ he⟩
    · rintro ⟨⟨e, he, rfl⟩, rfl⟩
      rw [← hrec e he]
      exact he

instance (h : History) (p : Proto) : Decidable (h.Regroups p) :=
  decidable_of_iff _ History.regroups_iff.symm

instance (h : History) (members : Finset Uuid) : Decidable (h.NotAhead members) :=
  inferInstanceAs (Decidable (∀ u ∈ members, ∀ e ∈ h.records u, _))

namespace Proto

def among (ps : List Proto) (members : Finset Uuid) : List Proto :=
  ps.filter fun p => p.uuid ∈ members

/-- Each process is left alone. -/
def fallApart (ps : List Proto) : Except Fatal (List Proto) :=
  ps.mapM fun p => do
    let id := p.currentView.id
    let (p, _) ← p.handleUp (.view (.of ⟨.trans, id.uuid, id.seq⟩ {p.uuid}))
    .ok p

/-- `pc.bootstrap` is set at one process. -/
def bootstrap (ps : List Proto) (u : Uuid) : Except Fatal (List (Uuid × Message)) := do
  let outs ← (among ps {u}).mapM setBootstrap
  .ok ((outs.flatten.filterMap sent).map fun m => (u, m))

/-- Process 3 starts a component, processes 4 and 5 join it. -/
def startTriple : Except Fatal (List Proto) := do
  let ps ← boot 3 true
  let ps ← installAll ps (.of ⟨.reg, 3, 1⟩ {3})
  let ps ← fallApart ps
  let fourth ← boot 4 false
  let fifth ← boot 5 false
  installAll (ps ++ fourth ++ fifth) (.of ⟨.reg, 3, 2⟩ {3, 4, 5})

end Proto

/-- What the members of a view have sent. -/
def Proto.received (ps : List Proto) : Map Message := (ps.head?.map stateMsgs).getD []

/-- The last two of three processes go on without the first. Then they fall apart and meet again. -/
def goOnAndMeet : Except Fatal (List Proto × List Proto) := do
  let old ← startTriple
  let (ps, _) ← handleAll (among old {4, 5}) (.view (.of ⟨.trans, 3, 2⟩ {4, 5}))
  let ps ← installAll ps (.of ⟨.reg, 4, 3⟩ {4, 5})
  let ps ← fallApart ps
  let (ps, _) ← exchangeStates ps (.of ⟨.reg, 4, 4⟩ {4, 5})
  let qs ← fallApart (among old {3})
  let (qs, _) ← exchangeStates qs (.of ⟨.reg, 3, 3⟩ {3})
  .ok (ps, qs)

def meetHistory (ps qs : List Proto) : History :=
  .of [.of ⟨.prim, 3, 1⟩ {3}, .of ⟨.prim, 3, 2⟩ {3, 4, 5}, .of ⟨.prim, 4, 3⟩ {4, 5}]
    [(3, 1), (4, 2), (5, 2)] (received ps ++ received qs)

theorem meetHistory_not_holds (ps qs : List Proto) (k : ℕ) (v : View) :
    ¬(meetHistory ps qs).Holds {3} k v := by
  intro hk
  obtain ⟨u, hu, hi⟩ := hk.installed
  obtain rfl := Finset.mem_singleton.mp hu
  cases hi
  cases hk.view
  exact absurd hk.all (by decide)

/-- Processes 3, 4 and 5 lose their component, and 3 and 4 meet 1, 2 and 6. At process 1
`pc.bootstrap` is set: 1, 2 and 6 install the component, 3 and 4 receive the message in the
transitional view and drop it. Then 1, 2 and 6 go on and fall apart. -/
def dropBootstrap : Except Fatal (List Proto × List Proto) := do
  let old ← startTriple
  let old ← fallApart old
  let first ← boot 1 false
  let second ← boot 2 false
  let sixth ← boot 6 false
  let (ps, _) ← exchangeStates (first ++ second ++ among old {3, 4} ++ sixth)
    (.of ⟨.reg, 1, 3⟩ {1, 2, 3, 4, 6})
  let (fifth, _) ← exchangeStates (among old {5}) (.of ⟨.reg, 5, 3⟩ {5})
  let fifth ← fallApart fifth
  let install ← bootstrap ps 1
  let (qs, _) ← handleAll (among ps {3, 4}) (.view (.of ⟨.trans, 1, 3⟩ {3, 4}))
  let (qs, _) ← deliverAll qs install
  let (ps, _) ← deliverAll (among ps {1, 2, 6}) install
  let (ps, _) ← handleAll ps (.view (.of ⟨.trans, 1, 3⟩ {1, 2, 6}))
  let ps ← installAll ps (.of ⟨.reg, 1, 4⟩ {1, 2, 6})
  let ps ← fallApart ps
  .ok (ps, qs ++ fifth)

/-- The states of both groups are exchanged. -/
def dropAndMeet : Except Fatal (List Proto × List Proto) := do
  let (ps, qs) ← dropBootstrap
  let (ps, _) ← exchangeStates ps (.of ⟨.reg, 1, 5⟩ {1, 2, 6})
  let (qs, _) ← exchangeStates qs (.of ⟨.reg, 3, 5⟩ {3, 4, 5})
  .ok (ps, qs)

def dropAndInstall : Except Fatal (List Proto) := do
  let (ps, qs) ← dropBootstrap
  let ps ← installAll ps (.of ⟨.reg, 1, 5⟩ {1, 2, 6})
  let qs ← installAll qs (.of ⟨.reg, 3, 5⟩ {3, 4, 5})
  .ok (ps ++ qs)

def dropHistory (ps qs : List Proto) : History :=
  .of [.of ⟨.prim, 3, 1⟩ {3}, .of ⟨.prim, 3, 2⟩ {3, 4, 5}, .of ⟨.prim, 1, 3⟩ {1, 2, 3, 4, 6},
      .of ⟨.prim, 1, 4⟩ {1, 2, 6}]
    [(3, 1), (4, 1), (5, 1), (1, 3), (2, 3), (6, 3)] (received ps ++ received qs)

end Appstack.Pc
