import Appstack.Couchstore.BtreeRoot
import Appstack.Couchstore.DbHeader

namespace Appstack.Couchstore
open Std List

variable {τ β : Type*} {rq : Request τ β} {mr mr' : Modres} {env env' : Env τ} {e : Errcode}

theorem flushMrPartial_values {q : UInt64} (hfl : flushMrPartial rq mr q env = (e, mr', env')) :
    ∀ i ∈ mr'.values, i ∈ mr.values := by
  obtain ⟨-, -, rfl, -⟩ | ⟨-, -, -, -, rfl⟩ | ⟨written, rest, _, _, _, -, -, ht, -, -, -, rfl⟩ :=
    flushMrPartial_cases hfl
  · exact fun _ hi => hi
  · exact fun _ hi => hi
  · intro i hi
    have happ : written ++ rest = mr.values := by
      simpa only [ht] using flushTake_append mr.nodeType mr.values q 0
    exact happ ▸ mem_append_right _ hi

theorem pushValue_values {i : Item} (hp : pushValue rq i mr env = (e, mr', env')) :
    ∀ x ∈ mr'.values, x ∈ mr.values ∨ x = i := by
  have hpushed : ∀ x ∈ mr'.values, x ∈ mr.values ++ [i] := by
    unfold pushValue maybeFlush at hp
    split_ifs at hp
    any_goals exact flushMrPartial_values hp
    all_goals
      cases hp
      exact fun _ hx => hx
  intro x hx
  simpa using hpushed x hx

theorem moveLoop_values {is : List Item} (hm : moveLoop rq is mr env = (e, mr', env')) :
    ∀ x ∈ mr'.values, x ∈ mr.values ∨ x ∈ is := by
  induction is generalizing mr env with
  | nil =>
    cases hm
    exact fun _ hx => .inl hx
  | cons i is ih =>
    rw [moveLoop] at hm
    rcases hp : pushValue rq i mr env with ⟨e1, mr1, env1⟩
    rw [hp] at hm
    dsimp only at hm
    intro x hx
    have hfirst (hx1 : x ∈ mr1.values) : x ∈ mr.values ∨ x ∈ i :: is :=
      (pushValue_values hp x hx1).imp_right (mem_cons.mpr ∘ .inl)
    split_ifs at hm
    · obtain hx1 | hx1 := ih hm x hx
      · exact hfirst hx1
      · exact .inr (.tail _ hx1)
    · cases hm
      exact hfirst hx

/-- All pointers that a modify result has are those of new nodes. -/
def AllMade (rq : Request τ β) (mr : Modres) (env : Env τ) : Prop :=
  ∀ i ∈ mr.pointers, Made rq env.file i

theorem Advances.allMade (h : Advances rq mr env mr' env') (hm : AllMade rq mr env) :
    AllMade rq mr' env' := fun i hi =>
  (h.pointers i hi).elim (fun hi => (hm i hi).mono h.grows) id

theorem allMade_makeModres (nodeType : NodeType) (env : Env τ) :
    AllMade rq (makeModres nodeType) env := fun _ hi => absurd hi not_mem_nil

section Node
variable {nptr : Option NodePointer} {loc dst dst' : Modres} {acts : List (Action β)}

/-- What a node hands to its parent: the items of new nodes, or its own. -/
def Handed (rq : Request τ β) (nptr : Option NodePointer) (dst : Modres) (file : TreeFile)
    (i : Item) : Prop :=
  i ∈ dst.values ∨ Made rq file i ∨ ∃ ptr, nptr = some ptr ∧ i = encodePointer ptr

theorem finishNode_values (hloc : AllMade rq loc env)
    (hn : finishNode rq nptr loc dst env = (e, dst', env')) :
    ∀ i ∈ dst'.values, Handed rq nptr dst env'.file i := by
  rcases hfl : flushMr rq loc env with ⟨e1, loc1, env1⟩
  have hmade := (flushMr_advances hfl).allMade hloc
  simp only [finishNode, hfl] at hn
  split_ifs at hn
  · cases hn
    exact fun _ hi => .inl hi
  split at hn
  next ptr _ =>
    cases hn
    intro i hi
    exact (pushValue_values rfl i hi).imp_right fun h => .inr ⟨_, rfl, h⟩
  next =>
    rcases hmv : moveLoop rq loc1.pointers { dst with modified := true } env1 with ⟨e2, dst2, env2⟩
    rw [mrMovePointers, hmv] at hn
    cases hn
    intro i hi
    exact (moveLoop_values hmv i hi).imp_right fun h =>
      .inl ((hmade i h).mono (moveLoop_advances hmv).grows)

theorem modifyLeaf_values {its : Bindings}
    (hm : modifyLeaf rq nptr its acts dst env = (e, dst', env')) :
    ∀ i ∈ dst'.values, Handed rq nptr dst env'.file i := by
  rcases hk : kvItems rq its acts (makeModres .kv) env with ⟨res1, env1, acts1⟩
  rw [modifyLeaf, hk] at hm
  exact finishNode_values ((kvTail_advances rfl).allMade
    ((kvItems_advances hk).allMade (allMade_makeModres _ _))) hm

theorem modifyNode_values [OrientedCmp rq.cmp] {fuel : ℕ}
    (hm : modifyNode rq fuel nptr acts dst env = (e, dst', env')) :
    ∀ i ∈ dst'.values, Handed rq nptr dst env'.file i := by
  have hstop {e1 : Errcode} {env1 : Env τ} (heq : (e1, dst, env1) = (e, dst', env')) :
      ∀ i ∈ dst'.values, Handed rq nptr dst env'.file i := by
    cases heq
    exact fun _ hi => .inl hi
  cases fuel with
  | zero => exact hstop hm
  | succ fuel =>
    rw [modifyNode] at hm
    unfold modifyBody at hm
    split_ifs at hm
    · exact hstop hm
    split at hm
    · exact modifyLeaf_values hm
    split at hm
    · exact hstop hm
    · exact hstop hm
    next ptr _ tag nodebuf file hr =>
      split_ifs at hm
      · exact modifyLeaf_values hm
      · rcases hk : kpItems rq (fun desc => modifyNode rq fuel (some desc)) (readItems nodebuf)
          acts (makeModres .kp) { env with file := file } with ⟨e1, res1, env1⟩
        simp only [modifyInterior, hk] at hm
        split_ifs at hm
        · exact hstop hm
        · exact finishNode_values ((kpItems_advances
            (fun _ _ _ _ => modifyNode_advances fuel rfl) hk).allMade (allMade_makeModres _ _)) hm
      · exact hstop hm

end Node

def RootMade (rq : Request τ β) (file : TreeFile) (root : Option NodePointer) : Prop :=
  ∀ ptr, root = some ptr → ptr.pointer < file.pos ∧
    ∃ nodeType written, ptr.reduceValue = rq.reduceItems nodeType written

theorem Made.root {file : TreeFile} {i : Item} (h : Made rq file i) : RootMade rq file i.pointer := by
  obtain ⟨ptr, rfl, hpos, hred⟩ := h
  rintro _ ⟨rfl⟩
  exact ⟨hpos, hred⟩

variable {root : Option NodePointer} {fuel : ℕ}

theorem rootLoop_made {collector : Modres}
    (hmr : AllMade rq mr env) (hcol : AllMade rq collector env)
    (hr : rootLoop rq fuel mr collector env = (.success, root, env')) :
    RootMade rq env'.file root := by
  induction fuel generalizing mr collector env with
  | zero => cases hr
  | succ fuel ih =>
    rw [rootLoop] at hr
    split at hr
    next i hi =>
      cases hr
      exact (hmr i (by rw [hi]; exact mem_singleton_self i)).root
    next =>
      rcases hm : moveLoop rq mr.pointers collector env with ⟨e1, col1, env1⟩
      rcases hfl : flushMr rq col1 env1 with ⟨e2, col2, env2⟩
      simp only [mrMovePointers, hm, hfl] at hr
      split_ifs at hr with he1 he2
      · exact absurd (Prod.mk.inj hr).1 he1
      · exact absurd (Prod.mk.inj hr).1 he2
      · exact ih ((flushMr_advances hfl).allMade ((moveLoop_advances hm).allMade hcol))
          (fun _ hi => absurd hi not_mem_nil) hr

theorem finishRoot_made (hmr : AllMade rq mr env)
    (hr : finishRoot rq mr env = (.success, root, env')) : RootMade rq env'.file root :=
  rootLoop_made ((flushMr_advances rfl).allMade hmr) (fun _ hi => absurd hi not_mem_nil) hr

theorem modifyBtree_root [OrientedCmp rq.cmp] {root' : Option NodePointer}
    {acts : List (Action β)} (hm : modifyBtree rq fuel root acts env = (.success, root', env')) :
    root' = root ∨ RootMade rq env'.file root' := by
  rcases hn : modifyNode rq fuel root acts (makeModres .kp) env with ⟨e1, res, env1⟩
  simp only [modifyBtree, hn] at hm
  split_ifs at hm with he hmod hmany
  · exact absurd (Prod.mk.inj hm).1 he
  · exact .inr (finishRoot_made ((modifyNode_advances fuel hn).allMade (allMade_makeModres _ _)) hm)
  · cases hm
    cases hlast : res.values.getLast? with
    | none => exact .inr fun ptr hp => by cases hp
    | some i =>
      obtain hi | hi | ⟨ptr, rfl, rfl⟩ := modifyNode_values hn i (mem_of_getLast? hlast)
      · exact absurd hi not_mem_nil
      · exact .inr hi.root
      · exact .inl rfl
  · simp only [Prod.mk.injEq, true_and] at hm
    exact .inl hm.1.symm

def Request.Brief (rq : Request τ β) : Prop :=
  ∀ nodeType written, (rq.reduceItems nodeType written).length ≤ 16

theorem brief_idRequest (plat : Platform) : (idRequest plat).Brief := by
  rintro (_ | _) written <;>
    simp [Request.reduceItems, idRequest, byIdReduce, byIdRereduce, encodeByIdReduce]

theorem brief_seqRequest (plat : Platform) : (seqRequest plat).Brief := by
  rintro (_ | _) written <;>
    simp [Request.reduceItems, seqRequest, bySeqReduce, bySeqRereduce]

theorem brief_localRequest (plat : Platform) : (localRequest plat).Brief := by
  rintro (_ | _) written <;> simp [Request.reduceItems, localRequest]

theorem modifyBtree_below [OrientedCmp rq.cmp] (hrq : rq.Brief)
    {root' : Option NodePointer} {acts : List (Action β)}
    (hroot : RootBelow env.file.pos root)
    (hm : modifyBtree rq fuel root acts env = (.success, root', env')) :
    RootBelow env'.file.pos root' := by
  obtain rfl | hmade := modifyBtree_root hm
  · exact hroot.mono (modifyBtree_frame hm).appends.pos_le
  · intro ptr hp
    obtain ⟨hpos, nodeType, written, hred⟩ := hmade ptr hp
    exact ⟨hpos, hred ▸ hrq nodeType written⟩

end Appstack.Couchstore
