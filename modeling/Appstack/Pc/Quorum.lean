import Appstack.Pc.Proto

namespace Appstack.Pc

open Finset

namespace Proto

/-- Two transitional views of one regular view, with the same nodes that left, and in each of
them a member of the primary component. -/
structure Split (P R : Finset Uuid) (view₁ view₂ : View) : Prop where
  sub₁ : view₁.members ⊆ R
  sub₂ : view₂.members ⊆ R
  subLeft : view₁.left ⊆ R
  left : view₁.left = view₂.left
  disjoint : Disjoint view₁.members view₂.members
  left₁ : Disjoint view₁.members view₁.left
  left₂ : Disjoint view₂.members view₁.left
  prim₁ : (view₁.members ∩ P).Nonempty
  prim₂ : (view₂.members ∩ P).Nonempty

/-- A member of the primary component `P` that has recorded the nodes of `D` with their
weights. -/
structure Weighs (P D : Finset Uuid) (w : Uuid → ℕ) (p : Proto) : Prop where
  pcView : p.pcView.members = P
  recorded : ∀ u, (p.instances.lookup u).map Node.weight = if u ∈ D then some (some (w u)) else none

/-- A member of the primary component `P` that does not know the weights. -/
structure Counts (P D : Finset Uuid) (p : Proto) : Prop where
  pcView : p.pcView.members = P
  recorded : ∀ u, (p.instances.lookup u).map Node.weight = if u ∈ D then some none else none

/-- Both sides go on as primary. -/
def SplitBrain (p₁ p₂ : Proto) (view₁ view₂ : View) : Prop :=
  p₁.haveQuorum view₁ p₁.pcView ∧ p₂.haveQuorum view₂ p₂.pcView

variable {P R D D₁ D₂ : Finset Uuid} {w : Uuid → ℕ} {p p₁ p₂ : Proto} {view view₁ view₂ : View}

theorem Split.symm (h : Split P R view₁ view₂) : Split P R view₂ view₁ where
  sub₁ := h.sub₂
  sub₂ := h.sub₁
  subLeft := h.left ▸ h.subLeft
  left := h.left.symm
  disjoint := h.disjoint.symm
  left₁ := h.left ▸ h.left₂
  left₂ := h.left ▸ h.left₁
  prim₁ := h.prim₂
  prim₂ := h.prim₁

theorem Split.sum_le (h : Split P R view₁ view₂) (f : Uuid → ℕ) :
    ∑ u ∈ view₁.members, f u + ∑ u ∈ view₂.members, f u + ∑ u ∈ view₁.left, f u ≤ ∑ u ∈ R, f u := by
  rw [← sum_union h.disjoint, ← sum_union]
  · apply sum_le_sum_of_subset
    exact union_subset (union_subset h.sub₁ h.sub₂) h.subLeft
  · rw [disjoint_union_left]
    exact ⟨h.left₁, h.left₂⟩

def sent : Output → Option Message
  | .send m => some m
  | _ => none

def handleAll (ps : List Proto) (i : Input) :
    Except Fatal (List Proto × List (Uuid × Message)) := do
  let rs ← ps.mapM fun p => p.handleUp i
  .ok (rs.map Prod.fst, rs.flatMap fun r => (r.2.filterMap sent).map fun m => (r.1.uuid, m))

def deliverAll (ps : List Proto) :
    List (Uuid × Message) → Except Fatal (List Proto × List (Uuid × Message))
  | [] => .ok (ps, [])
  | (source, m) :: ms => do
    let (ps, new) ← handleAll ps (.msg m source true)
    let (ps, later) ← deliverAll ps ms
    .ok (ps, new ++ later)

def boot (uuid : Uuid) (first : Bool) : Except Fatal (List Proto) := do
  let p ← (init uuid (some 1)).connect first
  let (ps, _) ← handleAll [p] (.view (.of ⟨.trans, uuid, 0⟩ {uuid}))
  .ok ps

def exchangeStates (ps : List Proto) (view : View) :
    Except Fatal (List Proto × List (Uuid × Message)) := do
  let (ps, states) ← handleAll ps (.view view)
  deliverAll ps states

def installAll (ps : List Proto) (view : View) : Except Fatal (List Proto) := do
  let (ps, install) ← exchangeStates ps view
  let (ps, _) ← deliverAll ps install
  .ok ps

/-- Process 1 starts a component, process 2 joins it. -/
def startPair : Except Fatal (List Proto) := do
  let ps ← boot 1 true
  let ps ← installAll ps (.of ⟨.reg, 1, 1⟩ {1})
  let (ps, _) ← handleAll ps (.view (.of ⟨.trans, 1, 1⟩ {1}))
  let joiner ← boot 2 false
  installAll (ps ++ joiner) (.of ⟨.reg, 1, 2⟩ {1, 2})

/-- Processes 3 and 4 join as well: the states are exchanged and nothing is installed. -/
def joinPair : Except Fatal (List Proto) := do
  let ps ← startPair
  let (ps, _) ← handleAll ps (.view (.of ⟨.trans, 1, 2⟩ {1, 2}))
  let third ← boot 3 false
  let fourth ← boot 4 false
  let (ps, _) ← exchangeStates (ps ++ third ++ fourth) (.of ⟨.reg, 1, 3⟩ {1, 2, 3, 4})
  .ok ps

/-- One side of a partition goes on alone. -/
def goOn (ps : List Proto) (members : Finset Uuid) (repr : Uuid) : Except Fatal (List Proto) := do
  let side := ps.filter fun p => p.uuid ∈ members
  let (side, _) ← handleAll side (.view (.of ⟨.trans, 1, 3⟩ members))
  installAll side (.of ⟨.reg, repr, 4⟩ members)

theorem Weighs.lookup_weight (h : Weighs P D w p) (u : Uuid) :
    (p.instances.lookup u).bind Node.weight = if u ∈ D then some (w u) else none := by
  calc (p.instances.lookup u).bind Node.weight
      = ((p.instances.lookup u).map Node.weight).bind id := by rw [Option.bind_map, Function.id_comp]
    _ = if u ∈ D then some (w u) else none := by rw [h.recorded u]; split_ifs <;> rfl

theorem Weighs.weightedSum (h : Weighs P D w p) (nodeList : Finset Uuid) :
    weightedSum nodeList p.instances = ∑ u ∈ nodeList ∩ D, w u := by
  unfold Proto.weightedSum
  rw [← filter_mem_eq_inter, sum_filter]
  apply sum_congr rfl
  intro u _
  rw [h.lookup_weight]
  split_ifs <;> rfl

theorem Weighs.haveWeights (h : Weighs P D w p) (nodeList : Finset Uuid) :
    haveWeights nodeList p.instances := by
  simp only [Proto.haveWeights, decide_eq_true_eq]
  intro u _ node hnode
  have hu := h.recorded u
  rw [hnode, Option.map_some] at hu
  by_cases hD : u ∈ D
  · rw [if_pos hD] at hu
    rw [Option.some.inj hu]
    rfl
  · rw [if_neg hD] at hu
    cases hu

theorem Weighs.haveQuorum_iff (h : Weighs P D w p) (hPD : P ⊆ D) :
    p.haveQuorum view p.pcView ↔
      ∑ u ∈ P, w u < (∑ u ∈ view.members ∩ D, w u) * 2 + ∑ u ∈ view.left ∩ D, w u := by
  unfold haveQuorum
  rw [if_pos ⟨h.haveWeights _, h.haveWeights _, h.haveWeights _⟩, h.weightedSum, h.weightedSum,
    h.weightedSum, h.pcView, inter_eq_left.mpr hPD]
  simp

theorem Counts.not_haveWeights (h : Counts P D p) (hP : P.Nonempty) (hPD : P ⊆ D) :
    ¬haveWeights p.pcView.members p.instances := by
  obtain ⟨u, hu⟩ := hP
  have hrec := h.recorded u
  rw [if_pos (hPD hu)] at hrec
  obtain ⟨node, hnode, hw⟩ := Option.map_eq_some_iff.mp hrec
  simp only [haveWeights, decide_eq_true_eq, not_forall]
  exact ⟨u, h.pcView ▸ hu, node, hnode, by simp [hw]⟩

theorem Counts.haveQuorum_iff (h : Counts P D p) (hP : P.Nonempty) (hPD : P ⊆ D) :
    p.haveQuorum view p.pcView ↔ P.card < view.members.card * 2 + view.left.card := by
  unfold haveQuorum
  rw [if_neg fun hc => h.not_haveWeights hP hPD hc.2.2, h.pcView]
  simp

/-- What a side counts is part of the weight of the primary component. -/
theorem Weighs.not_splitBrain (h1 : Weighs P D₁ w p₁) (h2 : Weighs P D₂ w p₂) (hP1 : P ⊆ D₁)
    (hP2 : P ⊆ D₂) (hs : Split P R view₁ view₂)
    (hc1 : (view₁.members ∪ view₁.left) ∩ D₁ ⊆ P) (hc2 : (view₂.members ∪ view₂.left) ∩ D₂ ⊆ P) :
    ¬SplitBrain p₁ p₂ view₁ view₂ := by
  rintro ⟨hq1, hq2⟩
  rw [h1.haveQuorum_iff hP1] at hq1
  rw [h2.haveQuorum_iff hP2, ← hs.left] at hq2
  rw [union_inter_distrib_right, union_subset_iff] at hc1 hc2
  have counted : ∀ nl D' : Finset Uuid, nl ∩ D' ⊆ P → ∑ u ∈ nl ∩ D', w u ≤ ∑ u ∈ nl ∩ P, w u :=
    fun nl D' hsub =>
      sum_le_sum_of_subset (subset_inter inter_subset_left hsub)
  have hsum := hs.sum_le fun u => if u ∈ P then w u else 0
  simp only [← sum_filter, filter_mem_eq_inter] at hsum
  have hle : ∑ u ∈ R ∩ P, w u ≤ ∑ u ∈ P, w u :=
    sum_le_sum_of_subset inter_subset_right
  have hm1 := counted _ _ hc1.1
  have hm2 := counted _ _ hc2.1
  have hl1 := counted _ _ hc1.2
  have hl2 := counted _ _ (hs.left ▸ hc2.2)
  omega

/-- A member with the given records. -/
def recording (P : Finset Uuid) (nodes : List Uuid) (weight : Uuid → Option ℕ) : Proto :=
  { init 0 none with
    instances := nodes.map fun u => (u, { Node.init with weight := weight u })
    pcView := .of ⟨.prim, 0, 0⟩ P }

theorem recording_lookup (P : Finset Uuid) (nodes : List Uuid) (weight : Uuid → Option ℕ)
    (u : Uuid) :
    ((recording P nodes weight).instances.lookup u).map Node.weight =
      if u ∈ nodes then some (weight u) else none := by
  unfold recording
  rw [lookup_map_pair]
  split_ifs <;> rfl

theorem weighs_recording (P D : Finset Uuid) (w : Uuid → ℕ) :
    Weighs P D w (recording P D.toList fun u => some (w u)) := by
  refine ⟨rfl, ?_⟩
  intro u
  rw [recording_lookup]
  simp

def transView (members left : Finset Uuid) : View :=
  { View.of ⟨.trans, 0, 0⟩ members with left := left }

/-- A joiner that the first side counts outweighs the component, and so does a member of the
component on the second side. -/
theorem exists_weights (hs : Split P R view₁ view₂) (hP1 : P ⊆ D₁) (hP2 : P ⊆ D₂)
    (hc1 : ¬(view₁.members ∪ view₁.left) ∩ D₁ ⊆ P) :
    ∃ (w : Uuid → ℕ) (p₁ p₂ : Proto), (∀ u, w u ≤ 255) ∧ Weighs P D₁ w p₁ ∧ Weighs P D₂ w p₂ ∧
      SplitBrain p₁ p₂ view₁ view₂ := by
  obtain ⟨x, hx, hxP⟩ := not_subset.mp hc1
  obtain ⟨b, hb⟩ := hs.prim₂
  simp only [mem_inter, mem_union] at hx hb
  have hxb : x ≠ b := fun h => hxP (h ▸ hb.2)
  let w : Uuid → ℕ := fun u => if u = x then 255 else if u = b then 1 else 0
  have hsum : ∑ u ∈ P, w u = 1 := by
    rw [sum_eq_single b]
    · simp [w, hxb.symm]
    · intro u hu hub
      have hux : u ≠ x := fun h => hxP (h ▸ hu)
      simp [w, hub, hux]
    · exact fun h => absurd hb.2 h
  have counts : ∀ (nl D' : Finset Uuid) (u : Uuid), u ∈ nl → u ∈ D' → w u ≤ ∑ v ∈ nl ∩ D', w v :=
    fun nl D' u hu hD => single_le_sum (fun _ _ => Nat.zero_le _)
      (mem_inter.mpr ⟨hu, hD⟩)
  have hwx : w x = 255 := if_pos rfl
  have hwb : w b = 1 := by simp [w, hxb.symm]
  have hw1 := weighs_recording P D₁ w
  have hw2 := weighs_recording P D₂ w
  refine ⟨w, _, _, ?_, hw1, hw2, ?_, ?_⟩
  · intro u
    simp only [w]
    split_ifs <;> omega
  · rw [hw1.haveQuorum_iff hP1, hsum]
    rcases hx with ⟨hx | hx, hD⟩
    · have := counts _ _ _ hx hD
      omega
    · have := counts _ _ _ hx hD
      omega
  · rw [hw2.haveQuorum_iff hP2, hsum]
    have := counts _ _ _ hb.1 (hP2 hb.2)
    omega

end Proto

open Proto

/-- Two sides of a partition do not both have a quorum of `P`, whatever the weights, exactly if
neither counts a recorded node besides those of `P`, among its members or among those that left.
If the weights are not known it takes the numbers of nodes. -/
theorem noSplitBrain_iff (P R D₁ D₂ : Finset Uuid) (view₁ view₂ : View) (hP₁ : P ⊆ D₁)
    (hP₂ : P ⊆ D₂) (hs : Split P R view₁ view₂) :
    ((∀ (w : Uuid → ℕ) (p₁ p₂ : Proto), (∀ u, w u ≤ 255) → Weighs P D₁ w p₁ → Weighs P D₂ w p₂ →
        ¬SplitBrain p₁ p₂ view₁ view₂) ↔
      (view₁.members ∪ view₁.left) ∩ D₁ ⊆ P ∧ (view₂.members ∪ view₂.left) ∩ D₂ ⊆ P) ∧
    ∀ p₁ p₂ : Proto, Counts P D₁ p₁ → Counts P D₂ p₂ → (¬SplitBrain p₁ p₂ view₁ view₂ ↔
        2 * min view₁.members.card view₂.members.card + view₁.left.card ≤ P.card) := by
  refine ⟨⟨?_, ?_⟩, ?_⟩
  · intro h
    constructor
    · by_contra hc
      obtain ⟨w, p₁, p₂, hw, h₁, h₂, hbrain⟩ := exists_weights hs hP₁ hP₂ hc
      exact h w p₁ p₂ hw h₁ h₂ hbrain
    · by_contra hc
      obtain ⟨w, p₂, p₁, hw, h₂, h₁, hbrain⟩ := exists_weights hs.symm hP₂ hP₁ hc
      exact h w p₁ p₂ hw h₁ h₂ ⟨hbrain.2, hbrain.1⟩
  · rintro ⟨hc₁, hc₂⟩ w p₁ p₂ _ h₁ h₂
    exact h₁.not_splitBrain h₂ hP₁ hP₂ hs hc₁ hc₂
  · intro p₁ p₂ h₁ h₂
    have hP : P.Nonempty := hs.prim₁.mono inter_subset_right
    unfold SplitBrain
    rw [h₁.haveQuorum_iff hP hP₁, h₂.haveQuorum_iff hP hP₂, ← hs.left]
    omega

/-- A component of two nodes that nobody joins. -/
theorem noSplitBrain_iff_pair :
    ∃ a b, startPair = .ok [a, b] ∧ a.state = .prim ∧ b.state = .prim ∧
      ¬SplitBrain a b (transView {1} ∅) (transView {2} ∅) := by
  refine ⟨_, _, rfl, rfl, rfl, ?_⟩
  have hsplit : Split {1, 2} {1, 2} (transView {1} ∅) (transView {2} ∅) := by
    constructor <;> decide
  refine ((noSplitBrain_iff {1, 2} {1, 2} {1, 2} {1, 2} _ _ (by decide) (by decide) hsplit).1.mpr
    ⟨by decide, by decide⟩) (fun _ => 1) _ _ (fun _ => by decide) ⟨rfl, ?_⟩ ⟨rfl, ?_⟩
  · intro u
    match u with
    | 0 | 1 | 2 => rfl
    | u + 3 => rfl
  · intro u
    match u with
    | 0 | 1 | 2 => rfl
    | u + 3 => rfl

/-- Each side has one of two members and one of two joiners: both go on and are primary. -/
theorem joiners_split_brain :
    ∃ ps a b c d, joinPair = .ok ps ∧ ps = [a, b, c, d] ∧
      a.pcView.members = {1, 2} ∧ b.pcView.members = {1, 2} ∧
      Split {1, 2} {1, 2, 3, 4} (.of ⟨.trans, 1, 3⟩ {1, 3}) (.of ⟨.trans, 1, 3⟩ {2, 4}) ∧
      SplitBrain a b (.of ⟨.trans, 1, 3⟩ {1, 3}) (.of ⟨.trans, 1, 3⟩ {2, 4}) ∧
      ∃ a' c' b' d', goOn ps {1, 3} 1 = .ok [a', c'] ∧ goOn ps {2, 4} 2 = .ok [b', d'] ∧
        (a'.state = .prim ∧ a'.pcView.members = {1, 3}) ∧
        b'.state = .prim ∧ b'.pcView.members = {2, 4} := by
  refine ⟨_, _, _, _, _, rfl, rfl, rfl, rfl, ?_, ⟨rfl, rfl⟩, _, _, _, _, rfl, rfl, ⟨rfl, rfl⟩,
    rfl, rfl⟩
  constructor <;> decide

end Appstack.Pc
