import Appstack.Couchstore.BtreePass

namespace Appstack.Couchstore
open Std SortedMap List

variable {τ β : Type*} {rq : Request τ β} {N : Note} {h w : ℕ} {m : Bindings}
  {mr mr' : Modres} {env env' : Env τ} {e : Errcode}

/-- Two items for each node that was written: what a list of items can shrink to. -/
def Modres.span (mr : Modres) : ℕ := 2 * mr.pointers.length + mr.values.length

/-- Pointers, of which not more are counted than there are. -/
structure Modres.Loose (mr : Modres) : Prop where
  nodeType : mr.nodeType = .kp
  count_le : mr.count ≤ mr.values.length

theorem pushValue_span (hcomp : rq.compacting = false) {i : Item} (hl : mr.Loose)
    (hp : pushValue rq i mr env = (e, mr', env')) :
    mr'.Loose ∧ mr'.span ≤ mr.span + 1 := by
  obtain ⟨htype, hcount⟩ := hl
  simp only [pushValue, maybeFlush, hcomp, Bool.false_eq_true, if_false] at hp
  split_ifs at hp with hfull
  · have happ := congrArg List.length
      (flushTake_append .kp (mr.values ++ [i]) (UInt64.ofNat chunkSize) 0)
    obtain ⟨-, -, rfl, -⟩ | ⟨-, -, -, -, rfl⟩ | ⟨written, rest, _, _, _, -, -, ht, -, -, -, rfl⟩ :=
      flushMrPartial_cases hp
    · refine ⟨⟨htype, ?_⟩, ?_⟩ <;>
        simp only [Modres.span, length_append, length_singleton] <;> omega
    · refine ⟨⟨htype, ?_⟩, ?_⟩ <;>
        simp only [Modres.span, length_append, length_singleton] <;> omega
    · have htwo : 2 ≤ (flushTake .kp (mr.values ++ [i]) (UInt64.ofNat chunkSize) 0).1.length :=
        two_le_flushTake (by rw [length_append, length_singleton]; omega) _
      dsimp only at ht
      rw [htype] at ht
      simp only [ht, length_append, length_singleton] at htwo happ
      refine ⟨⟨htype, ?_⟩, ?_⟩ <;>
        simp only [Modres.span, length_append, length_singleton] <;> omega
  · cases hp
    refine ⟨⟨htype, ?_⟩, ?_⟩ <;>
      simp only [Modres.span, length_append, length_singleton] <;> omega

theorem moveLoop_span (hcomp : rq.compacting = false) {is : List Item} (hl : mr.Loose)
    (hm : moveLoop rq is mr env = (e, mr', env')) :
    mr'.span ≤ mr.span + is.length := by
  induction is generalizing mr env with
  | nil =>
    cases hm
    exact le_rfl
  | cons i is ih =>
    rcases hp : pushValue rq i mr env with ⟨e₁, mr1, env₁⟩
    obtain ⟨hl', hstep⟩ := pushValue_span hcomp hl hp
    simp only [moveLoop, hp] at hm
    rw [length_cons]
    split_ifs at hm
    · have htail := ih hl' hm
      omega
    · cases hm
      omega

theorem flushMrPartial_error {q : UInt64} (hfl : flushMrPartial rq mr q env = (e, mr', env')) :
    e = .success ∨ e = .write := by
  obtain ⟨-, he, -⟩ | ⟨-, he, -⟩ | ⟨_, _, _, _, _, -, -, -, -, he, -⟩ := flushMrPartial_cases hfl
  · exact .inl he
  · exact .inr he
  · exact .inl he

theorem moveLoop_error {is : List Item} (hm : moveLoop rq is mr env = (e, mr', env')) :
    (e = .success ∨ e = .write) ∧ env'.ctx = env.ctx := by
  induction is generalizing mr env with
  | nil =>
    cases hm
    exact ⟨.inl rfl, rfl⟩
  | cons i is ih =>
    rcases hp : pushValue rq i mr env with ⟨e₁, mr1, env₁⟩
    have hctx := pushValue_ctx hp
    simp only [moveLoop, hp] at hm
    split_ifs at hm
    · exact ⟨(ih hm).1, (ih hm).2.trans hctx⟩
    · cases hm
      simp only [pushValue, maybeFlush] at hp
      split_ifs at hp
      all_goals first
        | exact ⟨flushMrPartial_error hp, hctx⟩
        | exact ⟨.inl (Prod.mk.inj hp).1.symm, hctx⟩

theorem treeNoted_of_item {plat : Platform} {file : TreeFile} {i : Item} {t : Node (h + 1)}
    (hi : ItemShows N plat file i t) :
    TreeNoted N plat file i.pointer (.root h t.items) ∧ t.items ≠ [] ∧ ∀ x ∈ t.items, x.Proper := by
  obtain ⟨ptr, rfl, -, -, hnode⟩ := hi.carried
  exact ⟨hnode, hi.proper.1, hi.proper.2.1⟩

def RootShows (N : Note) (plat : Platform) (file : TreeFile) (root : Option NodePointer)
    (m : Bindings) : Prop :=
  ∃ t : Tree, TreeNoted N plat file root t ∧ t.contents = m ∧
    ∀ h ts, t = .root h ts → ts ≠ [] ∧ ∀ x ∈ ts, x.Proper

theorem rootShows_of_item {plat : Platform} {file : TreeFile} {i : Item} {t : Node (h + 1)}
    (hi : ItemShows N plat file i t) : RootShows N plat file i.pointer t.contents := by
  obtain ⟨hat, hne, hp⟩ := treeNoted_of_item hi
  refine ⟨_, hat, rfl, fun h' ts hroot => ?_⟩
  cases hroot
  exact ⟨hne, hp⟩

theorem rootShows_none (plat : Platform) (file : TreeFile) : RootShows N plat file none [] :=
  ⟨.empty, trivial, rfl, fun _ _ hroot => by cases hroot⟩

section Gathers
variable {plat : Platform} {file : TreeFile} {i : Item}

theorem Gathers.rootShows_pointer (hg : Gathers N plat file h mr m) (hv : mr.values = [])
    (hp : mr.pointers = [i]) : RootShows N plat file i.pointer m := by
  obtain ⟨ps, vs, hps, hvs, rfl⟩ := hg.holds
  rw [hv] at hvs
  rw [hp] at hps
  obtain ⟨t, ts, ht, hts, rfl⟩ := forall₂_cons_left_iff.mp hps
  obtain rfl := forall₂_nil_left_iff.mp hts
  obtain rfl := forall₂_nil_left_iff.mp hvs
  simpa using rootShows_of_item ht

theorem Gathers.rootShows_value (hg : Gathers N plat file (h + 1) mr m) (hp : mr.pointers = [])
    (hcd : mr.Counted) (hcount : ¬ mr.count > 1) :
    RootShows N plat file (mr.values.getLast?.bind Item.pointer) m := by
  obtain ⟨ps, vs, hps, hvs, hm⟩ := hg.holds
  rw [hcd] at hcount
  match hv : mr.values with
  | [] =>
    rw [hg.eq_nil hp hv]
    exact rootShows_none _ _
  | [i] =>
    rw [hp] at hps
    rw [hv] at hvs
    obtain ⟨t, ts, ht, hts, rfl⟩ := forall₂_cons_left_iff.mp hvs
    obtain rfl := forall₂_nil_left_iff.mp hts
    obtain rfl := forall₂_nil_left_iff.mp hps
    rw [hm]
    simpa using rootShows_of_item ht
  | i :: i' :: is =>
    rw [hv] at hcount
    simp only [length_cons] at hcount
    omega

end Gathers

structure Fresh (mr : Modres) : Prop where
  modified : mr.modified = true
  nodeType : mr.nodeType = .kp
  values : mr.values = []
  pointers : mr.pointers = []
  nodeLen : mr.nodeLen = 0
  count : mr.count = 0

theorem Fresh.collects (hfr : Fresh mr) (N : Note) (plat : Platform) (file : TreeFile) (h : ℕ) :
    Collects N plat file (h + 1) mr [] 0 where
  nodeType := hfr.nodeType
  nodeLen := by rw [hfr.nodeLen, hfr.values]; rfl
  count_le := by rw [hfr.count, hfr.values]; rfl
  weight := by simp [Modres.weight, hfr.values, hfr.pointers]
  holds := ⟨[], [], by rw [hfr.pointers]; exact .nil, by rw [hfr.values]; exact .nil, rfl⟩

theorem Fresh.loose (hfr : Fresh mr) : mr.Loose :=
  ⟨hfr.nodeType, by rw [hfr.count]; exact Int.natCast_nonneg _⟩

theorem Fresh.counted (hfr : Fresh mr) : mr.Counted := by
  rw [Modres.Counted, hfr.count, hfr.values]
  rfl

/-- A finished level: all its items are in nodes, and there is at least one. -/
structure Level (N : Note) (plat : Platform) (file : TreeFile) (h : ℕ) (mr : Modres) (m : Bindings)
    (w : ℕ) : Prop extends Collects N plat file (h + 1) mr m w where
  modified : mr.modified = true
  counted : mr.Counted
  values : mr.values = []
  ne_nil : mr.pointers ≠ []

theorem Level.fresh {plat : Platform} {file : TreeFile} (hl : Level N plat file h mr m w) :
    Fresh { mr with pointers := [] } where
  modified := hl.modified
  nodeType := hl.nodeType
  values := hl.values
  pointers := rfl
  nodeLen := by simp [hl.nodeLen, hl.values]
  count := hl.counted.trans (by simp [hl.values])

variable [N.Lawful rq]

section LevelUp
variable {collector col₁ col₂ : Modres} {env₁ env₂ : Env τ} {e₁ e₂ : Errcode}

section
variable (hcomp : rq.compacting = false) (hl : Level N rq.plat env.file h mr m w)
  (hw : w < chunkLimit) (hfr : Fresh collector)
include hcomp hl hw hfr

theorem level_move
    (hm : moveLoop rq mr.pointers collector env = (e₁, col₁, env₁)) (hpass : Passed e₁ env₁) :
    Kept N rq (h + 2) collector col₁ m w env env₁ e₁ ∧ m ≠ [] ∧ col₁.span ≤ mr.pointers.length := by
  obtain ⟨ps, vs, hps, hvs, hcont⟩ := hl.holds
  rw [hl.values] at hvs
  rw [forall₂_nil_left_iff.mp hvs, flatMap_nil, append_nil] at hcont
  have hweight : (mr.pointers.map (Item.weight · (h + 1 + 1))).sum ≤ w := hl.handed_le
  have hc := hfr.collects N rq.plat env.file (h + 1)
  have hk := moveLoop_spec hc hps (by omega) hm hpass
  have hspan := moveLoop_span hcomp hfr.loose hm
  rw [nil_append, ← hcont, Nat.zero_add] at hk
  refine ⟨⟨hk.success, hk.collects.mono_weight (by omega), hk.ctx, hk.modified⟩, ?_, ?_⟩
  · obtain ⟨i, is, hi⟩ := exists_cons_of_ne_nil hl.ne_nil
    rw [hi] at hps
    obtain ⟨t, ts, ht, -, rfl⟩ := forall₂_cons_left_iff.mp hps
    rw [hcont, flatMap_cons]
    exact fun hnil => ht.proper.contents_ne_nil (append_eq_nil_iff.mp hnil).1
  · simpa [Modres.span, hfr.values, hfr.pointers] using hspan

theorem level_step (hm : moveLoop rq mr.pointers collector env = (.success, col₁, env₁))
    (hfl : flushMr rq col₁ env₁ = (e₂, col₂, env₂)) (hpass : Passed e₂ env₂) :
    e₂ = .success ∧ env₂.ctx = env.ctx ∧ Level N rq.plat env₂.file (h + 1) col₂ m w ∧
      (2 ≤ mr.pointers.length → col₂.pointers.length < mr.pointers.length) := by
  obtain ⟨hkm, hne, hspan⟩ := level_move hcomp hl hw hfr hm (.inl rfl)
  obtain ⟨hk, hval, -, hlen⟩ := flushMr_spec hkm.collects hw hfl
  obtain rfl := hk.success hpass
  have hmod : col₁.modified = true := hkm.modified.trans hfr.modified
  have hcounted : col₂.Counted := flushMrPartial_counted (moveLoop_counted hfr.counted hm) hfl
  refine ⟨rfl, hk.ctx.trans hkm.ctx, ⟨hk.collects, hk.modified.trans hmod, hcounted, hval rfl hmod,
    fun hnil => hne (hk.collects.eq_nil hnil (hval rfl hmod))⟩, fun htwo => ?_⟩
  unfold Modres.span at hspan
  split_ifs at hlen with hnil
  · omega
  · have := length_pos_of_ne_nil hnil
    omega

end

end LevelUp

section
variable {fuel : ℕ} {collector : Modres} {root : Option NodePointer}

theorem rootLoop_ext (hl : rootLoop rq fuel mr collector env = (e, root, env')) : env.Ext env' := by
  induction fuel generalizing mr collector env with
  | zero => exact (Prod.mk.inj (Prod.mk.inj hl).2).2 ▸ .refl _
  | succ fuel ih =>
    rw [rootLoop] at hl
    split at hl
    · exact (Prod.mk.inj (Prod.mk.inj hl).2).2 ▸ .refl _
    · dsimp only [mrMovePointers] at hl
      split_ifs at hl
      · exact (Prod.mk.inj (Prod.mk.inj hl).2).2 ▸ (moveLoop_advances rfl).ext
      · exact (Prod.mk.inj (Prod.mk.inj hl).2).2 ▸
          (moveLoop_advances rfl).ext.trans (flushMr_advances rfl).ext
      · exact (moveLoop_advances rfl).ext.trans ((flushMr_advances rfl).ext.trans (ih hl))

/-- One round of a loop that meets no error: it ends with a single pointer, or a level is moved
and flushed and the loop goes on. -/
theorem rootLoop_step
    (hr : rootLoop rq (fuel + 1) mr collector env = (e, root, env')) (he : e ≠ .write) :
    (e = .success ∧ ∃ i, mr.pointers = [i] ∧ root = i.pointer ∧ env' = env) ∨
      (∀ i, mr.pointers ≠ [i]) ∧ ∃ col₁ env₁ col₂ env₂,
        moveLoop rq mr.pointers collector env = (.success, col₁, env₁) ∧
        flushMr rq col₁ env₁ = (.success, col₂, env₂) ∧
        rootLoop rq fuel col₂ { mr with pointers := [] } env₂ = (e, root, env') := by
  rw [rootLoop] at hr
  split at hr
  next i hi =>
    cases hr
    exact .inl ⟨rfl, i, hi, rfl, rfl⟩
  next hmany =>
    obtain ⟨e₁, col₁, env₁, hm⟩ : ∃ e₁ col₁ env₁,
      moveLoop rq mr.pointers collector env = (e₁, col₁, env₁) := ⟨_, _, _, rfl⟩
    obtain ⟨e₂, col₂, env₂, hfl⟩ : ∃ e₂ col₂ env₂, flushMr rq col₁ env₁ = (e₂, col₂, env₂) :=
      ⟨_, _, _, rfl⟩
    simp only [mrMovePointers, hm, hfl] at hr
    split_ifs at hr with he1 he2
    · exact absurd ((Prod.mk.inj hr).1 ▸ (moveLoop_error hm).1.resolve_left he1) he
    · exact absurd ((Prod.mk.inj hr).1 ▸ (flushMrPartial_error hfl).resolve_left he2) he
    · obtain rfl := not_not.mp he1
      obtain rfl := not_not.mp he2
      exact .inr ⟨hmany, col₁, env₁, col₂, env₂, hm, hfl, hr⟩

theorem rootLoop_ctx (hr : rootLoop rq fuel mr collector env = (e, root, env')) (he : e ≠ .write) :
    env'.ctx = env.ctx := by
  induction fuel generalizing mr collector env with
  | zero => exact (Prod.mk.inj (Prod.mk.inj hr).2).2 ▸ rfl
  | succ fuel ih =>
    obtain ⟨-, _, -, -, rfl⟩ | ⟨-, _, _, _, _, hm, hfl, hr⟩ := rootLoop_step hr he
    · rfl
    · exact (ih hr).trans ((flushMrPartial_ctx hfl).trans (moveLoop_error hm).2)

end

theorem rootLoop_spec (hcomp : rq.compacting = false) {fuel : ℕ} {collector : Modres}
    {root : Option NodePointer} (hl : Level N rq.plat env.file h mr m w) (hw : w < chunkLimit)
    (hfr : Fresh collector) (hfuel : mr.pointers.length ≤ fuel)
    (hr : rootLoop rq fuel mr collector env = (e, root, env')) (hpass : Passed e env') :
    e = .success ∧ env'.ctx = env.ctx ∧ RootShows N rq.plat env'.file root m := by
  induction fuel generalizing h mr collector env with
  | zero => exact absurd (length_eq_zero_iff.mp (by omega)) hl.ne_nil
  | succ fuel ih =>
    rw [rootLoop] at hr
    split at hr
    next i hi =>
      cases hr
      exact ⟨rfl, rfl, hl.toGathers.rootShows_pointer hl.values hi⟩
    next hmany =>
      have htwo : 2 ≤ mr.pointers.length := by
        match hp : mr.pointers with
        | [] => exact absurd hp hl.ne_nil
        | [i] => exact absurd hp (hmany i)
        | _ :: _ :: _ => simp
      rcases hm : moveLoop rq mr.pointers collector env with ⟨e₁, col₁, env₁⟩
      rcases hfl : flushMr rq col₁ env₁ with ⟨e₂, col₂, env₂⟩
      simp only [mrMovePointers, hm, hfl] at hr
      split_ifs at hr with he1 he2
      · cases hr
        exact absurd ((level_move hcomp hl hw hfr hm hpass).1.success hpass) he1
      all_goals obtain rfl := not_not.mp he1
      · cases hr
        exact absurd (level_step hcomp hl hw hfr hm hfl hpass).1 he2
      · obtain ⟨-, hctx, hl', hlt⟩ := level_step hcomp hl hw hfr hm hfl (.inl (not_not.mp he2))
        have hlt := hlt htwo
        obtain ⟨he, hctx', hroot⟩ := ih hl' hl.fresh (by omega) hr
        exact ⟨he, hctx'.trans hctx, hroot⟩

theorem flushMr_of_nil (hv : mr.values = []) : flushMr rq mr env = (.success, mr, env) := by
  simp [flushMr, flushMrPartial, hv]

theorem rootLoop_nil {fuel : ℕ} {collector col : Modres} {env₁ : Env τ} {e₁ : Errcode}
    (hp : mr.pointers = []) (hfl : flushMr rq collector env = (e₁, col, env₁)) :
    rootLoop rq (fuel + 1) mr collector env =
      if e₁ ≠ .success then (e₁, none, env₁) else rootLoop rq fuel col mr env₁ := by
  have hsame : { mr with pointers := [] } = mr := by rw [← hp]
  simp only [rootLoop, mrMovePointers, hp, moveLoop, hsame, hfl, ne_eq, not_true_eq_false, if_false]

/-- A first flush that failed is made up for as long as no node was written before it: the
second round writes the values list again. -/
theorem rootLoop_retry {fuel : ℕ} {collector : Modres} {root : Option NodePointer}
    (hc : Collects N rq.plat env.file (h + 1) mr m w) (hw : w < chunkLimit)
    (hmod : mr.modified = true) (hne : m ≠ []) (hp : mr.pointers = []) (hfr : Fresh collector)
    (hr : rootLoop rq (fuel + 3) mr collector env = (e, root, env')) (hpass : Passed e env') :
    e = .success ∧ env'.ctx = env.ctx ∧ RootShows N rq.plat env'.file root m := by
  rcases hfl : flushMr rq mr env with ⟨e₁, mr1, env₁⟩
  rw [rootLoop_nil hp (flushMr_of_nil hfr.values), if_neg (by simp), rootLoop_nil hfr.pointers hfl] at hr
  obtain ⟨hk, hval, -, hlen⟩ := flushMr_spec hc hw hfl
  split_ifs at hr with he1
  · cases hr
    exact absurd (hk.success hpass) he1
  · have hv := hval (not_not.mp he1) hmod
    rw [hp] at hlen
    obtain ⟨i, hi⟩ : ∃ i, mr1.pointers = [i] := by
      match hps : mr1.pointers with
      | [] => exact absurd (hk.collects.eq_nil hps hv) hne
      | [i] => exact ⟨i, rfl⟩
      | _ :: _ :: _ =>
        rw [hps] at hlen
        split_ifs at hlen <;> simp at hlen
    rw [rootLoop, hi] at hr
    cases hr
    exact ⟨rfl, hk.ctx, hk.collects.toGathers.rootShows_pointer hv hi⟩

/-- The first flush of `finish_root`, the result of which is dropped: no node of the level is
written yet, so that the loop can make up for it, or there is nothing to write, or the disk takes
the node. -/
def RootFlushed (rq : Request τ β) (mr : Modres) (env : Env τ) : Prop :=
  mr.pointers = [] ∨ (mr.values = [] ∨ mr.modified = false) ∨ ∃ pos file, dbWriteBufCompressed rq.plat
    (nodeBuf mr.nodeType (flushTake mr.nodeType mr.values (UInt64.ofNat mr.nodeLen) 0).1) env.file =
      (.ok pos, file)

theorem rootFlushed_iff :
    RootFlushed rq mr env ↔ mr.pointers = [] ∨ (flushMr rq mr env).1 = .success := by
  refine or_congr_right ?_
  rw [flushMr, flushMrPartial]
  split_ifs with hnone
  · exact iff_of_true (.inl hnone) rfl
  · rw [or_iff_right hnone]
    dsimp only
    split
    next e file hwr =>
      refine iff_of_false ?_ fun he => ?_
      · rintro ⟨_, _, hok⟩
        cases hwr.symm.trans hok
      · cases (dbWriteBuf_error hwr).symm.trans he
    next pos size file hwr => exact iff_of_true ⟨_, _, hwr⟩ rfl

theorem finishRoot_spec (hcomp : rq.compacting = false) {root : Option NodePointer}
    (hc : Collects N rq.plat env.file (h + 1) mr m w) (hw : w < chunkLimit) (hcd : mr.Counted)
    (hmod : mr.modified = true) (hne : m ≠ []) (hflush : RootFlushed rq mr env)
    (hr : finishRoot rq mr env = (e, root, env')) (hpass : Passed e env') :
    e = .success ∧ env'.ctx = env.ctx ∧ RootShows N rq.plat env'.file root m := by
  rcases hfl : flushMr rq mr env with ⟨e₁, mr1, env₁⟩
  simp only [finishRoot, hfl] at hr
  obtain ⟨hk, hval, -, -⟩ := flushMr_spec hc hw hfl
  have hfr : Fresh { makeModres .kp with modified := true } := ⟨rfl, rfl, rfl, rfl, rfl, rfl⟩
  suffices hend : e = .success ∧ env'.ctx = env₁.ctx ∧ RootShows N rq.plat env'.file root m from
    ⟨hend.1, hend.2.1.trans hk.ctx, hend.2.2⟩
  by_cases he1 : e₁ = .success
  · subst he1
    have hl : Level N rq.plat env₁.file h mr1 m w := ⟨hk.collects, hk.modified.trans hmod,
      flushMrPartial_counted hcd hfl, hval rfl hmod,
      fun hnil => hne (hk.collects.eq_nil hnil (hval rfl hmod))⟩
    exact rootLoop_spec hcomp hl hw hfr (by omega) hr hpass
  · have hp : mr.pointers = [] := (rootFlushed_iff.mp hflush).resolve_right (by rw [hfl]; exact he1)
    obtain ⟨-, he, -⟩ | ⟨-, -, -, -, hmr⟩ | ⟨_, _, _, _, _, -, -, -, -, he, -⟩ := flushMrPartial_cases hfl
    · exact absurd he he1
    · exact rootLoop_retry hk.collects hw (hk.modified.trans hmod) hne (hmr ▸ hp) hfr hr hpass
    · exact absurd he he1

theorem pushValue_unmodified {i : Item} (hmod : mr.modified = false)
    (hp : pushValue rq i mr env = (e, mr', env')) : mr'.modified = false := by
  simp only [pushValue, maybeFlush, hmod, Bool.false_eq_true, false_and, if_false, ite_self,
    Prod.mk.injEq] at hp
  rw [← hp.2.1]

theorem root_spec (hcomp : rq.compacting = false) {root : Option NodePointer}
    (hc : Collects N rq.plat env.file (h + 1) mr m w) (hw : w < chunkLimit) (hcd : mr.Counted)
    (hmod : mr.modified = true) (hflush : RootFlushed rq mr env)
    (hr : (if mr.count > 1 ∨ mr.pointers ≠ [] then finishRoot rq mr env
      else (.success, mr.values.getLast?.bind Item.pointer, env)) = (e, root, env'))
    (hpass : Passed e env') :
    e = .success ∧ env'.ctx = env.ctx ∧ RootShows N rq.plat env'.file root m := by
  obtain ⟨ps, vs, hps, hvs, hm⟩ := hc.holds
  split_ifs at hr with hmany
  · refine finishRoot_spec hcomp hc hw hcd hmod (fun hnil => ?_) hflush hr hpass
    -- every item has something below it
    rw [hnil] at hm
    obtain ⟨hpn, hvn⟩ := append_eq_nil_iff.mp hm.symm
    have hempty {k : ℕ} {is : List Item} {ts : List (Node k)}
        (hits : List.Forall₂ (ItemShows N rq.plat env.file) is ts)
        (hn : ts.flatMap Node.contents = []) : is = [] := by
      cases hits with
      | nil => rfl
      | cons ht _ => exact absurd (append_eq_nil_iff.mp hn).1 ht.proper.contents_ne_nil
    have hcount : mr.count = mr.values.length := hcd
    rw [hempty hvs hvn, length_nil] at hcount
    obtain hmany | hmany := hmany
    · omega
    · exact hmany (hempty hps hpn)
  · obtain ⟨hcount, hpn⟩ := not_or.mp hmany
    rw [not_not] at hpn
    cases hr
    exact ⟨rfl, rfl, hc.toGathers.rootShows_value hpn hcd hcount⟩

section Top
variable {fuel : ℕ} {root root' : Option NodePointer} {t : Tree} {acts : List (Action β)}

theorem finishRoot_ext (hr : finishRoot rq mr env = (e, root, env')) : env.Ext env' :=
  (flushMr_advances rfl).ext.trans (rootLoop_ext hr)

theorem modifyBtree_ext [OrientedCmp rq.cmp] {env₁ : Env τ} {e₁ : Errcode}
    (hn : modifyNode rq fuel root acts (makeModres .kp) env = (e₁, mr, env₁))
    (hm : modifyBtree rq fuel root acts env = (e, root', env')) : env₁.Ext env' := by
  simp only [modifyBtree, hn] at hm
  split_ifs at hm
  · exact (Prod.mk.inj (Prod.mk.inj hm).2).2 ▸ .refl _
  · exact finishRoot_ext hm
  all_goals exact (Prod.mk.inj (Prod.mk.inj hm).2).2 ▸ .refl _

theorem modifyTop_spec [TransCmp rq.cmp] (hat : TreeNoted N rq.plat env.file root t)
    (hwf : t.WellFormed rq.cmp) (hb : Ordered rq.cmp acts)
    (hlight : t.Light rq.cmp acts) (hfuel : t.height < fuel)
    (hn : modifyNode rq fuel root acts (makeModres .kp) env = (e, mr, env'))
    (hpass : Passed e env') :
    e = .success ∧ (Strict rq.cmp acts → env'.ctx = fetchAll rq t.contents acts env.ctx) ∧
      ((mr.modified = true ∧ mr.Counted ∧ ∃ h, Collects N rq.plat env'.file (h + 1) mr
          (edit rq.cmp t.contents (acts.map Action.edit)) (t.load rq.cmp acts)) ∨
        mr.modified = false ∧ edit rq.cmp t.contents (acts.map Action.edit) = t.contents) := by
  obtain ⟨fuel, rfl⟩ := Nat.exists_eq_succ_of_ne_zero (Nat.ne_zero_of_lt hfuel)
  by_cases hacts : acts = []
  · subst hacts
    cases hn
    exact ⟨rfl, fun _ => rfl, .inr ⟨rfl, by simp⟩⟩
  rcases root with _ | ptr <;> rcases t with _ | ⟨h, ts⟩
  · simp only [modifyNode, modifyBody, List.isEmpty_iff, hacts, if_false] at hn
    obtain ⟨he, hctx, ⟨hmod, hcd, hc⟩ | ⟨-, ptr, _, _, hptr, -⟩⟩ :=
      modifyLeaf_spec (by simp) .nil hb (collects_makeModres N _ _ 1)
        hlight.leaves (by rw [Nat.zero_add]; exact hlight.pointers) (fun _ => rfl) hn hpass
    · rw [Nat.zero_add] at hc
      exact ⟨he, hctx, .inl ⟨hmod, hcd rfl, 0, hc⟩⟩
    · simp at hptr
  · exact hat.elim
  · exact hat.elim
  · obtain ⟨hne, hp⟩ := hwf.proper h ts rfl
    have hheight : h < fuel.succ := hfuel
    obtain ⟨he, hctx, ⟨hmod, hcd, hc⟩ | ⟨hsame, e₁, env₁, -, hpush⟩⟩ :=
      modifyNode_spec hheight hacts ⟨hat, hne, hp, hwf.sorted, hb, hlight.leaves⟩
        (collects_makeModres N _ _ (h + 1)) (by simpa [Tree.load] using hlight.pointers) hn hpass
    · exact ⟨he, hctx, .inl ⟨hmod, hcd rfl, h, by simpa [Tree.load, Tree.contents] using hc⟩⟩
    · exact ⟨he, hctx, .inr ⟨pushValue_unmodified rfl hpush, hsame⟩⟩

theorem modifyBtree_frame [OrientedCmp rq.cmp]
    (hm : modifyBtree rq fuel root acts env = (e, root', env')) : env.Ext env' := by
  rcases hn : modifyNode rq fuel root acts (makeModres .kp) env with ⟨e₁, res, env₁⟩
  exact (modifyNode_advances fuel hn).ext.trans (modifyBtree_ext hn hm)

theorem TreeAt.mono {plat : Platform} {file file' : TreeFile} (hat : TreeAt plat file root t)
    (hg : file.Grows file') : TreeAt plat file' root t := by
  match root, t, hat with
  | none, .empty, _ => trivial
  | some _, .root _ _, hat => exact NodeAt.mono hat hg

def TopFlushed (rq : Request τ β) (fuel : ℕ) (root : Option NodePointer) (acts : List (Action β))
    (env : Env τ) : Prop :=
  ∀ mr env₁, modifyNode rq fuel root acts (makeModres .kp) env = (.success, mr, env₁) →
    RootFlushed rq mr env₁

theorem topFlushed_of_not_failed (hm : modifyBtree rq fuel root acts env = (e, root', env'))
    (hf : env'.failed = false) : TopFlushed rq fuel root acts env := by
  intro mr env₁ hn
  rcases hfl : flushMr rq mr env₁ with ⟨e₂, mr2, env₂⟩
  simp only [modifyBtree, hn, ne_eq, not_true_eq_false, if_false] at hm
  rw [rootFlushed_iff]
  split_ifs at hm with hmod hmany
  · right
    simp only [finishRoot, hfl] at hm
    rw [hfl]
    obtain ⟨-, he, -⟩ | ⟨hf', -⟩ | ⟨_, _, _, _, _, -, -, -, -, he, -⟩ := flushMrPartial_cases hfl
    · exact he
    · simp [(rootLoop_ext hm).failed hf] at hf'
    · exact he
  · exact .inl (not_not.mp (not_or.mp hmany).2)
  · right
    rw [flushMr_of_unmodified (Bool.not_eq_true _ ▸ hmod)]

/-- `modify_btree` takes a well-formed tree to a tree with the edited bindings, and keeps the
notes on its pointers. Writes that failed on the way do not matter when the call reports
success. -/
theorem modifyBtree_shows [TransCmp rq.cmp] (hcomp : rq.compacting = false)
    (hat : TreeNoted N rq.plat env.file root t) (hwf : t.WellFormed rq.cmp)
    (hb : Ordered rq.cmp acts) (hlight : t.Light rq.cmp acts) (hfuel : t.height < fuel)
    (hflush : TopFlushed rq fuel root acts env)
    (hm : modifyBtree rq fuel root acts env = (e, root', env')) (hpass : Passed e env') :
    e = .success ∧ (Strict rq.cmp acts → env'.ctx = fetchAll rq t.contents acts env.ctx) ∧
      RootShows N rq.plat env'.file root' (edit rq.cmp t.contents (acts.map Action.edit)) := by
  rcases hn : modifyNode rq fuel root acts (makeModres .kp) env with ⟨e₁, res, env₁⟩
  have hpass1 : Passed e₁ env₁ := by
    by_cases he : e₁ = .success
    · exact .inl he
    · simp only [modifyBtree, hn, ne_eq, he, not_false_eq_true, if_true] at hm
      cases hm
      exact hpass
  obtain ⟨rfl, hctx, ⟨hmod, hcd, h, hc⟩ | ⟨hmod, hsame⟩⟩ :=
    modifyTop_spec hat hwf hb hlight hfuel hn hpass1
  · simp only [modifyBtree, hn, hmod, ne_eq, not_true_eq_false, if_false, if_true] at hm
    obtain ⟨he, hctx', hroot⟩ := root_spec hcomp hc hlight.pointers hcd hmod (hflush _ _ hn) hm hpass
    exact ⟨he, fun hst => hctx'.trans (hctx hst), hroot⟩
  · simp only [modifyBtree, hn, hmod, ne_eq, not_true_eq_false, if_false, Bool.false_eq_true] at hm
    cases hm
    exact ⟨rfl, hctx, t, hat.mono (modifyNode_advances fuel hn).grows, hsame.symm, hwf.proper⟩

theorem modifyBtree_passed [TransCmp rq.cmp] (hcomp : rq.compacting = false)
    (hat : TreeNoted N rq.plat env.file root t) (hwf : t.WellFormed rq.cmp)
    (hb : Batch rq.cmp acts) (hlight : t.Light rq.cmp acts) (hfuel : t.height < fuel)
    (hflush : TopFlushed rq fuel root acts env)
    (hm : modifyBtree rq fuel root acts env = (e, root', env')) (hpass : Passed e env') :
    e = .success ∧ env'.ctx = fetchAll rq t.contents acts env.ctx ∧
      ∃ t', TreeNoted N rq.plat env'.file root' t' ∧ t'.WellFormed rq.cmp ∧
        t'.contents = edit rq.cmp t.contents (acts.map Action.edit) := by
  obtain ⟨he, hctx, t', hat', hcont, hp⟩ :=
    modifyBtree_shows hcomp hat hwf hb.ordered hlight hfuel hflush hm hpass
  exact ⟨he, hctx hb.order, t', hat', ⟨hcont ▸ sorted_edit hwf.sorted hb.order, hp⟩, hcont⟩

theorem modifyBtree_noted [TransCmp rq.cmp] (hcomp : rq.compacting = false)
    (hat : TreeNoted N rq.plat env.file root t) (hwf : t.WellFormed rq.cmp)
    (hb : Batch rq.cmp acts) (hlight : t.Light rq.cmp acts) (hfuel : t.height < fuel)
    (hm : modifyBtree rq fuel root acts env = (e, root', env')) (hf : env'.failed = false) :
    e = .success ∧ env'.ctx = fetchAll rq t.contents acts env.ctx ∧
      ∃ t', TreeNoted N rq.plat env'.file root' t' ∧ t'.WellFormed rq.cmp ∧
        t'.contents = edit rq.cmp t.contents (acts.map Action.edit) :=
  modifyBtree_passed hcomp hat hwf hb hlight hfuel (topFlushed_of_not_failed hm hf) hm (.inr (.inr hf))

omit [N.Lawful rq] in
theorem modifyBtree_spec [TransCmp rq.cmp] (hcomp : rq.compacting = false)
    (hat : TreeAt rq.plat env.file root t) (hwf : t.WellFormed rq.cmp) (hb : Batch rq.cmp acts)
    (hlight : t.Light rq.cmp acts) (hfuel : t.height < fuel)
    (hm : modifyBtree rq fuel root acts env = (e, root', env')) (hf : env'.failed = false) :
    e = .success ∧ env'.ctx = fetchAll rq t.contents acts env.ctx ∧
      ∃ t', TreeAt rq.plat env'.file root' t' ∧ t'.WellFormed rq.cmp ∧
        t'.contents = edit rq.cmp t.contents (acts.map Action.edit) := by
  obtain ⟨he, hctx, t', hat', hrest⟩ := modifyBtree_noted hcomp hat.blank hwf hb hlight hfuel hm hf
  exact ⟨he, hctx, t', hat'.treeAt, hrest⟩

end Top

section Fuel
variable {descend descend' :
    NodePointer → List (Action β) → Modres → Env τ → Errcode × Modres × Env τ}

def Agrees (descend descend' :
    NodePointer → List (Action β) → Modres → Env τ → Errcode × Modres × Env τ) : Prop :=
  ∀ ptr acts res env, (descend ptr acts res env).1 ≠ .depth →
    descend' ptr acts res env = descend ptr acts res env

theorem visit_agrees (hd : Agrees descend descend') {x : Bytes × Bytes} {acts : List (Action β)}
    (h : (visit rq descend x acts mr env).1 ≠ .depth) :
    visit rq descend' x acts mr env = visit rq descend x acts mr env := by
  unfold visit at h ⊢
  split_ifs at h ⊢
  · rfl
  · exact hd _ _ _ _ h

theorem kpItems_agrees [OrientedCmp rq.cmp] (hd : Agrees descend descend') {its : Bindings}
    {acts : List (Action β)} (h : (kpItems rq descend its acts mr env).1 ≠ .depth) :
    kpItems rq descend' its acts mr env = kpItems rq descend its acts mr env := by
  induction its generalizing acts mr env with
  | nil => cases acts <;> rfl
  | cons x its ih =>
    cases its with
    | nil =>
      rw [kpItems_singleton] at h ⊢
      rw [kpItems_singleton, visit_agrees hd h]
    | cons x' its =>
      rcases hv : visit rq descend x (acts.takeWhile (upTo rq x.1)) mr env with ⟨e, mr', env'⟩
      rw [kpItems_cons_cons hv] at h ⊢
      have he : e ≠ .depth := by
        rintro rfl
        simp at h
      have hv' : visit rq descend' x (acts.takeWhile (upTo rq x.1)) mr env = (e, mr', env') := by
        rw [visit_agrees hd (by rw [hv]; exact he), hv]
      rw [kpItems_cons_cons hv']
      split_ifs at h ⊢
      · exact ih h
      · rfl

theorem modifyBody_agrees [OrientedCmp rq.cmp] (hd : Agrees descend descend')
    {nptr : Option NodePointer} {acts : List (Action β)}
    (h : (modifyBody rq descend nptr acts mr env).1 ≠ .depth) :
    modifyBody rq descend' nptr acts mr env = modifyBody rq descend nptr acts mr env := by
  unfold modifyBody at h ⊢
  split_ifs at h ⊢
  · rfl
  split
  · rfl
  split
  · rfl
  · rfl
  next hr =>
    simp only [hr] at h
    split_ifs at h ⊢
    · rfl
    · unfold modifyInterior at h ⊢
      rw [kpItems_agrees hd]
      intro hdepth
      simp [hdepth] at h
    · rfl

theorem modifyNode_fuel [OrientedCmp rq.cmp] {fuel : ℕ} {nptr : Option NodePointer}
    {acts : List (Action β)} (h : (modifyNode rq fuel nptr acts mr env).1 ≠ .depth) :
    modifyNode rq (fuel + 1) nptr acts mr env = modifyNode rq fuel nptr acts mr env := by
  induction fuel generalizing nptr acts mr env with
  | zero => exact absurd rfl h
  | succ fuel ih => exact modifyBody_agrees (fun _ _ _ _ hne => ih hne) h

theorem modifyBtree_fuel [OrientedCmp rq.cmp] {fuel fuel' : ℕ} {root root' : Option NodePointer}
    {acts : List (Action β)} (hle : fuel ≤ fuel')
    (h : modifyBtree rq fuel root acts env = (.success, root', env')) :
    modifyBtree rq fuel' root acts env = (.success, root', env') := by
  induction hle with
  | refl => exact h
  | @step fuel' _ ih =>
    rw [← ih]
    have hne : (modifyNode rq fuel' root acts (makeModres .kp) env).1 ≠ .depth := by
      intro hdepth
      simp [modifyBtree, hdepth] at ih
    simp only [modifyBtree, modifyNode_fuel hne]

end Fuel

end Appstack.Couchstore
