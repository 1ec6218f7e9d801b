import Appstack.Couchstore.BtreeCollect

namespace Appstack.Couchstore
open Std SortedMap List

variable {τ β : Type*} {rq : Request τ β} {N : Note}

/-- What a part of a pass does: it collects `x`, and as long as nothing is modified that
is the old contents `old`. -/
structure Collected (N : Note) (rq : Request τ β) (h : ℕ) (res res' : Modres) (c x old : Bindings) (w : ℕ)
    (env' : Env τ) : Prop where
  collects : Collects N rq.plat env'.file h res' (c ++ x) w
  modified : res'.modified = false → res.modified = false ∧ x = old

section Collected
variable {h w : ℕ} {c x : Bindings} {res res' : Modres} {env env' : Env τ} {e : Errcode}

theorem Collected.trans {res'' : Modres} {x' old old' : Bindings} {w' : ℕ} {env'' : Env τ}
    (hx : Collected N rq h res res' c x old w env')
    (hx' : Collected N rq h res' res'' (c ++ x) x' old' w' env'') :
    Collected N rq h res res'' c (x ++ x') (old ++ old') w' env'' where
  collects := by simpa only [append_assoc] using hx'.collects
  modified hm := by
    obtain ⟨hm', rfl⟩ := hx'.modified hm
    obtain ⟨hm, rfl⟩ := hx.modified hm'
    exact ⟨hm, rfl⟩

theorem Kept.collected (hk : Kept N rq h res res' (c ++ x) w env env' e) :
    Collected N rq h res res' c x x w env' :=
  ⟨hk.collects, fun hm => ⟨hk.modified ▸ hm, rfl⟩⟩

end Collected

theorem itemShows_leaf (N : Note) (plat : Platform) (file : TreeFile) {k v : Bytes} (hf : Fits (k, v)) :
    ItemShows N (h := 0) plat file { key := k, data := v, pointer := none } (k, v) :=
  ⟨hf, rfl, trivial, rfl, rfl⟩

section Leaf
variable [N.Lawful rq] {w : ℕ} {c m : Bindings} {res res' : Modres} {env env' : Env τ} {a : Action β}
  {acts acts' : List (Action β)} {k v : Bytes} {e : Errcode}

theorem mrPushItem_spec (hc : Collects N rq.plat env.file 0 res c w) (hfit : Fits (k, v))
    (hw : w + leafSize [(k, v)] < chunkLimit) (hp : mrPushItem rq k v res env = (e, res', env')) :
    Kept N rq 0 res res' (c ++ [(k, v)]) (w + leafSize [(k, v)]) env env' e :=
  pushValue_spec (i := { key := k, data := v, pointer := none }) hc (itemShows_leaf _ _ _ hfit) hw hp

theorem exists_push (rq : Request τ β) (k v : Bytes) (res : Modres) (env : Env τ) :
    ∃ e res' env', mrPushItem rq k v res env = (e, res', env') :=
  ⟨_, _, _, rfl⟩

theorem leafSize_cons (e : Bytes × Bytes) (m : Bindings) :
    leafSize (e :: m) = leafSize [e] + leafSize m := by
  simp [leafSize]

theorem leafSize_inserted_cons (a : Action β) (acts : List (Action β)) :
    leafSize (inserted (a :: acts)) = leafSize (inserted [a]) + leafSize (inserted acts) := by
  simp [leafSize, inserted]

theorem actAbsent_advances (h : actAbsent rq a res env = (res', env')) :
    Advances rq res env res' env' := by
  unfold actAbsent at h
  split at h
  next data _ =>
    obtain ⟨e, res1, env₁, hp⟩ := exists_push rq a.key data { res with modified := true } env
    rw [hp] at h
    cases h
    exact ⟨(pushValue_advances hp).ext, (pushValue_advances hp).pointers⟩
  · cases h
    exact ⟨.refl _, fun _ hi => .inl hi⟩
  · split at h <;>
    · cases h
      exact ⟨⟨.refl _, id⟩, fun _ hi => .inl hi⟩

theorem actAbsent_spec (hc : Collects N rq.plat env.file 0 res c w)
    (hfit : ∀ data, a.type = .insert data → Fits (a.key, data))
    (hw : w + leafSize (inserted [a]) < chunkLimit) (hm : get rq.cmp m a.key = none)
    (h : actAbsent rq a res env = (res', env')) :
    Collected N rq 0 res res' c (Edit.fresh a.edit) [] (w + leafSize (inserted [a])) env' ∧
      env'.ctx = fetchAll rq m [a] env.ctx := by
  obtain ⟨key, arg | _ | data⟩ := a
  · -- a fetch only calls back
    have hres : res' = res ∧ env'.file = env.file ∧
        env'.ctx = fetchAll rq m [⟨key, .fetch arg⟩] env.ctx := by
      simp only [actAbsent] at h
      split at h <;> obtain ⟨rfl, rfl⟩ := Prod.mk.inj h <;>
        simp_all [fetchAll]
    obtain ⟨rfl, hfile, hctx⟩ := hres
    refine ⟨⟨?_, fun hm => ⟨hm, rfl⟩⟩, hctx⟩
    simpa [Edit.fresh, Action.edit, inserted, leafSize, hfile] using hc
  · cases h
    refine ⟨⟨?_, fun hm => by simp at hm⟩, rfl⟩
    simpa [Edit.fresh, Action.edit, inserted, leafSize] using hc.setModified
  · obtain ⟨e, hp⟩ : ∃ e, mrPushItem rq key data { res with modified := true } env =
        (e, res', env') := ⟨_, Prod.ext rfl h⟩
    have hk := mrPushItem_spec hc.setModified (hfit data rfl) hw hp
    refine ⟨⟨hk.collects, fun hm => ?_⟩, hk.ctx⟩
    simp [hk.modified] at hm

theorem kvTail_advances (h : kvTail rq acts res env = (res', env')) :
    Advances rq res env res' env' := by
  induction acts generalizing res env with
  | nil =>
    cases h
    exact .refl _ _
  | cons a acts ih =>
    rw [kvTail] at h
    exact (actAbsent_advances rfl).trans (ih h)

theorem kvTail_spec (hc : Collects N rq.plat env.file 0 res c w) (hb : Ordered rq.cmp acts)
    (hw : w + leafSize (inserted acts) < chunkLimit) (h : kvTail rq acts res env = (res', env')) :
    Collected N rq 0 res res' c (edit rq.cmp [] (acts.map Action.edit)) []
    (w + leafSize (inserted acts)) env' ∧
      env'.ctx = fetchAll rq [] acts env.ctx := by
  induction acts generalizing res env c w with
  | nil =>
    cases h
    exact ⟨⟨by simpa [inserted, leafSize] using hc, fun hm => ⟨hm, by simp⟩⟩, rfl⟩
  | cons a acts ih =>
    rw [kvTail] at h
    have hsum := leafSize_inserted_cons a acts
    obtain ⟨hstep, hctx⟩ := actAbsent_spec (m := []) hc (hb.fits a (by simp)) (by omega) rfl rfl
    obtain ⟨htail, hctx'⟩ := ih hstep.collects (hb.of_sublist (sublist_cons_self a acts))
      (by omega) h
    rw [map_cons, edit_nil_cons, fetchAll_cons, ← hctx, hsum, ← Nat.add_assoc]
    exact ⟨hstep.trans htail, hctx'⟩

def kvStep (rq : Request τ β) (k v : Bytes) (acts : List (Action β)) (res : Modres)
    (env : Env τ) : Modres × Env τ × List (Action β) :=
  let (res, env, acts, advance) := kvItem rq k v acts res env
  if acts.isEmpty ∧ advance = false then
    let (_, res, env) := mrPushItem rq k v res env
    (res, env, acts)
  else (res, env, acts)

theorem kvItems_cons (items : Bindings) : kvItems rq ((k, v) :: items) acts res env =
      kvItems rq items (kvStep rq k v acts res env).2.2 (kvStep rq k v acts res env).1
        (kvStep rq k v acts res env).2.1 := by
  rw [kvItems, kvStep]
  dsimp only
  split_ifs <;> rfl

section Step
attribute [local simp] kvStep kvItem

theorem kvStep_nil (hp : mrPushItem rq k v res env = (e, res', env')) :
    kvStep rq k v [] res env = (res', env', []) := by
  simp [hp]

theorem kvStep_lt (h : rq.cmp k a.key = .lt) (hp : mrPushItem rq k v res env = (e, res', env')) :
    kvStep rq k v (a :: acts) res env = (res', env', a :: acts) := by
  simp [h, hp]

theorem kvStep_gt (h : rq.cmp k a.key = .gt) : kvStep rq k v (a :: acts) res env =
      kvStep rq k v acts (actAbsent rq a res env).1 (actAbsent rq a res env).2 := by
  simp [h]

theorem kvStep_fetch {arg : β} (h : rq.cmp k a.key = .eq) (ha : a.type = .fetch arg)
    (hm : get rq.cmp m a.key = some v) :
    kvStep rq k v (a :: acts) res env =
      kvStep rq k v acts res { env with ctx := fetchAll rq m [a] env.ctx } := by
  simp only [kvStep, kvItem, h, ha, fetchAll, foldl_cons, foldl_nil, hm]
  cases rq.fetchCallback <;> rfl

theorem kvStep_remove (h : rq.cmp k a.key = .eq) (ha : a.type = .remove) :
    kvStep rq k v (a :: acts) res env = ({ res with modified := true }, env, acts) := by
  simp [h, ha]

theorem kvStep_insert {data : Bytes} (h : rq.cmp k a.key = .eq) (ha : a.type = .insert data)
    (hp : mrPushItem rq a.key data { res with modified := true } env = (e, res', env')) :
    kvStep rq k v (a :: acts) res env = (res', env', acts) := by
  simp [h, ha, hp]

end Step

theorem kvStep_advances (h : kvStep rq k v acts res env = (res', env', acts')) :
    Advances rq res env res' env' := by
  have hpush {e : Errcode} {k v : Bytes} {res1 : Modres} {env₁ : Env τ} {as : List (Action β)}
      {res : Modres} {env : Env τ} (hp : mrPushItem rq k v res env = (e, res1, env₁))
      (heq : (res1, env₁, as) = (res', env', acts')) : Advances rq res env res' env' := by
    cases heq
    exact pushValue_advances hp
  induction acts generalizing res env with
  | nil =>
    obtain ⟨e, res1, env₁, hp⟩ := exists_push rq k v res env
    exact hpush hp (kvStep_nil hp ▸ h)
  | cons a acts ih =>
    cases hcmp : rq.cmp k a.key with
    | lt =>
      obtain ⟨e, res1, env₁, hp⟩ := exists_push rq k v res env
      exact hpush hp (kvStep_lt hcmp hp ▸ h)
    | gt =>
      rw [kvStep_gt hcmp] at h
      exact (actAbsent_advances rfl).trans (ih h)
    | eq =>
      cases hty : a.type with
      | fetch arg =>
        rw [kvStep_fetch (m := [(k, v)]) hcmp hty (by simp [get_cons, hcmp])] at h
        exact (ih h).after ⟨.refl _, id⟩
      | remove =>
        rw [kvStep_remove hcmp hty] at h
        cases h
        exact ⟨.refl _, fun _ hi => .inl hi⟩
      | insert data =>
        obtain ⟨e, res1, env₁, hp⟩ := exists_push rq a.key data { res with modified := true } env
        have hadv := hpush hp (kvStep_insert hcmp hty hp ▸ h)
        exact ⟨hadv.ext, hadv.pointers⟩

theorem fetchAll_skip (ctx : τ) (h : ∀ b ∈ acts, b.edit.2 = .keep → rq.cmp k b.key = .lt) :
    fetchAll rq ((k, v) :: m) acts ctx = fetchAll rq m acts ctx :=
  fetchAll_congr ctx fun b hb hk => by rw [get_cons, if_neg (by simp [h b hb hk])]

theorem lt_of_strict_cons [TransCmp rq.cmp] (hb : Strict rq.cmp (a :: acts))
    (ha : a.edit.2 ≠ .keep) (hk : rq.cmp k a.key = .eq) :
    ∀ b ∈ acts, b.edit.2 = .keep → rq.cmp k b.key = .lt := by
  intro b hmem hkeep
  have hpre := (pairwise_cons.mp hb).1 b.edit (mem_map_of_mem hmem)
  exact TransCmp.lt_of_eq_of_lt hk (hpre.lt_of_keep ha hkeep)

theorem kvStep_spec [TransCmp rq.cmp] (hc : Collects N rq.plat env.file 0 res c w)
    (hfit : Fits (k, v)) (hs : Sorted rq.cmp ((k, v) :: m)) (hb : Ordered rq.cmp acts)
    (hw : w + leafSize [(k, v)] + leafSize (inserted acts) < chunkLimit)
    (h : kvStep rq k v acts res env = (res', env', acts')) :
    ∃ x w', Collected N rq 0 res res' c x [(k, v)] w' env' ∧ acts'.Sublist acts ∧
      w' + leafSize (inserted acts') ≤ w + leafSize [(k, v)] + leafSize (inserted acts) ∧
      edit rq.cmp ((k, v) :: m) (acts.map Action.edit) =
        x ++ edit rq.cmp m (acts'.map Action.edit) ∧
      (Strict rq.cmp acts →
        fetchAll rq ((k, v) :: m) acts env.ctx = fetchAll rq m acts' env'.ctx) := by
  induction acts generalizing res env c w with
  | nil =>
    obtain ⟨e, res1, env₁, hp⟩ := exists_push rq k v res env
    rw [kvStep_nil hp] at h
    cases h
    have hk := mrPushItem_spec hc hfit (by omega) hp
    exact ⟨_, _, hk.collected, .refl _, le_rfl, by simp, fun _ => hk.ctx.symm⟩
  | cons a acts ih =>
    have hb' := hb.of_sublist (sublist_cons_self a acts)
    rw [leafSize_inserted_cons] at hw ⊢
    cases hcmp : rq.cmp k a.key with
    | lt =>
      obtain ⟨e, res1, env₁, hp⟩ := exists_push rq k v res env
      rw [kvStep_lt hcmp hp] at h
      cases h
      have hk := mrPushItem_spec hc hfit (by omega) hp
      refine ⟨_, _, hk.collected, .refl _, by rw [leafSize_inserted_cons], ?_, fun _ => ?_⟩
      · exact edit_cons_lt (e := (k, v)) hcmp m (acts.map Action.edit)
      · rw [hk.ctx]
        refine fetchAll_skip _ fun b hmem _ => ?_
        exact lt_of_lt_inOrder (a := a.edit) hcmp hb.order b.edit
          (mem_map_of_mem (f := Action.edit) hmem)
    | gt =>
      rw [kvStep_gt hcmp] at h
      have hnone : get rq.cmp ((k, v) :: m) a.key = none := by
        refine get_eq_none fun e he => ?_
        obtain rfl | he := mem_cons.mp he
        · simp [hcmp]
        · have hle : (rq.cmp a.key k).isLE := by simp [OrientedCmp.lt_of_gt hcmp]
          simp [gt_of_sorted (e := (k, v)) hle hs e he]
      obtain ⟨hstep, hctx⟩ := actAbsent_spec hc (hb.fits a (by simp)) (by omega) hnone rfl
      obtain ⟨x, w', hcol, hsub, hw', hedit, hfetch⟩ := ih hstep.collects hb' (by omega) h
      refine ⟨Edit.fresh a.edit ++ x, w', hstep.trans hcol, hsub.cons a, by omega, ?_, fun hst => ?_⟩
      · rw [map_cons, edit_cons_gt hcmp, hedit, append_assoc]
      · rw [fetchAll_cons, ← hctx, hfetch (hst.of_sublist (sublist_cons_self a acts))]
    | eq =>
      cases hty : a.type with
      | fetch arg =>
        have hkeep : a.edit.2 = .keep := by simp [Action.edit, hty]
        have hget : get rq.cmp ((k, v) :: m) a.key = some v := by simp [get_cons, hcmp]
        rw [kvStep_fetch hcmp hty hget] at h
        have hc' : Collects N rq.plat
            ({ env with ctx := fetchAll rq ((k, v) :: m) [a] env.ctx } : Env τ).file 0 res c w := hc
        obtain ⟨x, w', hcol, hsub, hw', hedit, hfetch⟩ := ih hc' hb' (by omega) h
        refine ⟨x, w', hcol, hsub.cons a, by omega, ?_, fun hst =>
          hfetch (hst.of_sublist (sublist_cons_self a acts))⟩
        rw [map_cons, edit_cons_keep hcmp hkeep, hedit]
      | remove =>
        have hera : a.edit.2 = .erase := by simp [Action.edit, hty]
        rw [kvStep_remove hcmp hty] at h
        obtain ⟨rfl, rfl, rfl⟩ : _ ∧ _ ∧ _ := by simpa only [Prod.mk.injEq] using h
        refine ⟨[], w, ⟨by simpa using hc.setModified, fun hm => by simp at hm⟩,
          sublist_cons_self a acts, by omega, ?_, fun hst => ?_⟩
        · rw [map_cons, edit_cons_erase hcmp hera, nil_append]
        · rw [fetchAll_cons, fetchAll_skip _ (lt_of_strict_cons hst (by simp [hera]) hcmp)]
          simp [fetchAll, hty]
      | insert data =>
        have hput : a.edit.2 = .put data := by simp [Action.edit, hty]
        have hwt : leafSize (inserted [a]) = leafSize [(a.key, data)] := by
          simp [inserted, Edit.fresh, leafSize, Action.edit, hty]
        obtain ⟨e, res1, env₁, hp⟩ := exists_push rq a.key data { res with modified := true } env
        rw [kvStep_insert hcmp hty hp] at h
        obtain ⟨rfl, rfl, rfl⟩ : _ ∧ _ ∧ _ := by simpa only [Prod.mk.injEq] using h
        have hk := mrPushItem_spec hc.setModified (hb.fits a (by simp) data hty) (by omega) hp
        refine ⟨[(a.key, data)], _, ⟨hk.collects, fun hm => by simp [hk.modified] at hm⟩,
          sublist_cons_self a acts, by omega, ?_, fun hst => ?_⟩
        · rw [map_cons, edit_cons_put hcmp hput]
          rfl
        · rw [fetchAll_cons, fetchAll_skip _ (lt_of_strict_cons hst (by simp [hput]) hcmp), hk.ctx]
          simp [fetchAll, hty]

variable {items : Bindings}

theorem kvItems_advances
    (h : kvItems rq items acts res env = (res', env', acts')) : Advances rq res env res' env' := by
  induction items generalizing acts res env with
  | nil =>
    cases h
    exact .refl _ _
  | cons e items ih =>
    rw [kvItems_cons] at h
    have hstep : kvStep rq e.1 e.2 acts res env = (_, _, _) := rfl
    exact (kvStep_advances hstep).trans (ih h)

theorem kvItems_spec [TransCmp rq.cmp]
    (hc : Collects N rq.plat env.file 0 res c w) (hfit : ∀ e ∈ items, Fits e)
    (hs : Sorted rq.cmp items) (hb : Ordered rq.cmp acts)
    (hw : w + leafSize items + leafSize (inserted acts) < chunkLimit)
    (h : kvItems rq items acts res env = (res', env', acts')) :
    ∃ x w', Collected N rq 0 res res' c x items w' env' ∧ acts'.Sublist acts ∧
      w' + leafSize (inserted acts') ≤ w + leafSize items + leafSize (inserted acts) ∧
      edit rq.cmp items (acts.map Action.edit) = x ++ edit rq.cmp [] (acts'.map Action.edit) ∧
      (Strict rq.cmp acts → fetchAll rq items acts env.ctx = fetchAll rq [] acts' env'.ctx) := by
  induction items generalizing acts res env c w with
  | nil =>
    cases h
    exact ⟨[], w, ⟨by simpa using hc, fun hm => ⟨hm, rfl⟩⟩, .refl _, by simp, rfl, fun _ => rfl⟩
  | cons e items ih =>
    obtain ⟨k, v⟩ := e
    rw [kvItems_cons] at h
    rw [leafSize_cons] at hw ⊢
    obtain ⟨x, w1, hcol, hsub, hw1, hedit, hfetch⟩ :=
      kvStep_spec hc (hfit _ (by simp)) hs hb (by omega) rfl
    obtain ⟨x', w', hcol', hsub', hw', hedit', hfetch'⟩ :=
      ih hcol.collects (fun e he => hfit e (by simp [he])) (pairwise_cons.mp hs).2
        (hb.of_sublist hsub) (by omega) h
    refine ⟨x ++ x', w', hcol.trans hcol', hsub'.trans hsub, by omega, ?_, fun hst => ?_⟩
    · rw [hedit, hedit', append_assoc]
    · rw [hfetch hst, hfetch' (hst.of_sublist hsub)]

theorem leaf_spec [TransCmp rq.cmp] {res1 : Modres} {env₁ : Env τ}
    (hfit : ∀ e ∈ items, Fits e) (hs : Sorted rq.cmp items) (hb : Ordered rq.cmp acts)
    (hw : leafSize items + leafSize (inserted acts) < chunkLimit)
    (h : kvItems rq items acts (makeModres .kv) env = (res1, env₁, acts'))
    (h' : kvTail rq acts' res1 env₁ = (res', env')) :
    Collected N rq 0 (makeModres .kv) res' [] (edit rq.cmp items (acts.map Action.edit)) items
        (leafSize items + leafSize (inserted acts)) env' ∧
      (Strict rq.cmp acts → env'.ctx = fetchAll rq items acts env.ctx) := by
  obtain ⟨x, w1, hcol, hsub, hw1, hedit, hfetch⟩ :=
    kvItems_spec (collects_makeModres N _ _ 0) hfit hs hb (by omega) h
  obtain ⟨htail, hctx⟩ := kvTail_spec hcol.collects (hb.of_sublist hsub) (by omega) h'
  have hall := hcol.trans htail
  rw [← hedit, append_nil] at hall
  exact ⟨⟨hall.collects.mono_weight (by omega), hall.modified⟩,
    fun hst => hctx.trans (hfetch hst).symm⟩

end Leaf

def visit (rq : Request τ β)
    (descend : NodePointer → List (Action β) → Modres → Env τ → Errcode × Modres × Env τ)
    (x : Bytes × Bytes) (acts : List (Action β)) (res : Modres) (env : Env τ) :
    Errcode × Modres × Env τ :=
  if acts.isEmpty then mrPushPointerinfo rq (readPointer x.1 x.2) res env
  else descend (readPointer x.1 x.2) acts res env

section Interior
variable [N.Lawful rq] {h w : ℕ} {c m : Bindings} {res res' : Modres} {env env' : Env τ} {e : Errcode}
  {acts : List (Action β)} {x x' : Bytes × Bytes} {its : Bindings}
  {descend : NodePointer → List (Action β) → Modres → Env τ → Errcode × Modres × Env τ}

theorem kpItems_singleton : kpItems rq descend [x] acts res env = visit rq descend x acts res env := by
  cases acts with
  | nil =>
    simp only [kpItems, kpTail, visit, isEmpty_nil, if_true]
    split_ifs with he
    · exact Prod.ext he.symm rfl
    · rfl
  | cons a acts => simp [kpItems, visit]

theorem kpItems_cons_cons [OrientedCmp rq.cmp] (hv : visit rq descend x
      (acts.takeWhile (upTo rq x.1)) res env = (e, res', env')) :
    kpItems rq descend (x :: x' :: its) acts res env =
      if e = .success then
        kpItems rq descend (x' :: its) (acts.dropWhile (upTo rq x.1)) res' env'
      else (e, res', env') := by
  cases acts with
  | nil =>
    simp only [takeWhile_nil, visit, isEmpty_nil, if_true] at hv
    rw [kpItems, kpTail, hv, dropWhile_nil, kpItems]
  | cons a acts =>
    by_cases hlt : rq.cmp x.1 a.key = .lt
    · -- the first action is above the key: the child is passed by
      have hgt : rq.cmp a.key x.1 = .gt := OrientedCmp.gt_of_lt hlt
      have hno : upTo rq x.1 a = false := by simp [upTo, hgt]
      rw [takeWhile_cons_of_neg (by simp [hno]), visit, isEmpty_nil, if_pos rfl] at hv
      rw [kpItems, if_pos hlt, hv, dropWhile_cons_of_neg (by simp [hno])]
    · have hle : rq.cmp a.key x.1 ≠ .gt := fun hgt => hlt (OrientedCmp.lt_of_gt hgt)
      have hyes : upTo rq x.1 a = true := by simp [upTo, hle]
      have hne : ((a :: acts).takeWhile (upTo rq x.1)).isEmpty = false := by
        rw [takeWhile_cons_of_pos hyes]
        rfl
      rw [visit, hne, if_neg (by simp)] at hv
      have hupTo : (fun b : Action β => rq.cmp b.key x.1 != .gt) = upTo rq x.1 := rfl
      simp only [kpItems, if_neg hlt, hupTo, hv]

theorem itemShows_readPointer {file : TreeFile} {t : Node (h + 1)}
    (hf : Fits x) (hs : ShowsNoted N rq.plat file x t) (ht : t.Proper) :
    ItemShows N rq.plat file (encodePointer (readPointer x.1 x.2)) t := by
  obtain ⟨hk, hl, its, hst, hfits, hnote, hits⟩ := hs
  have hred : (readPointer x.1 x.2).reduceValue.length ≤ 500 := by
    simp only [readPointer, length_take, length_drop, maxPointerData] at hl ⊢
    omega
  have hlen := length_encodeRawPointer (readPointer x.1 x.2)
  have hdec : (readPointer x.1 x.2).pointer < 2 ^ 48 := by
    have hlt := BigEndian.decode_lt (x.2.take 6)
    have hle : 256 ^ (x.2.take 6).length ≤ 256 ^ 6 :=
      Nat.pow_le_pow_right (by omega) (by rw [length_take]; omega)
    exact hlt.trans_le (hle.trans (by norm_num))
  have hptr := pointerOf_encodeRawPointer hred hdec
  refine ⟨⟨hf.1, ?_⟩, ⟨hk, ?_, its, ?_, hfits, Note.Lawful.reread hdec hred hnote, hits⟩, ht,
    ⟨_, rfl, hdec, hred, its, hst, hfits, hnote, hits⟩⟩
  · simp only [encodePointer]
    omega
  · simp only [encodePointer, maxPointerData]
    omega
  · rw [show pointerOf (encodePointer (readPointer x.1 x.2)).data = pointerOf x.2 from hptr]
    exact hst

/-- What `modify_node` does with a node that has the items `ts`: either the edited bindings
have gone to the parent in new nodes, with no write of the parent's that failed, or nothing
changed and the old pointer was pushed, whatever came of that. -/
structure NodeDone (N : Note) (rq : Request τ β) (ptr : NodePointer) (ts : List (Node h))
    (acts : List (Action β)) (dst dst' : Modres) (c : Bindings) (w : ℕ) (env env' : Env τ)
    (e : Errcode) : Prop where
  success : e = .success
  ctx : Strict rq.cmp acts → env'.ctx = fetchAll rq (ts.flatMap Node.contents) acts env.ctx
  result :
    dst'.modified = true ∧ (dst.Counted → dst'.Counted) ∧ Collects N rq.plat env'.file (h + 1) dst'
        (c ++ edit rq.cmp (ts.flatMap Node.contents) (acts.map Action.edit))
        (w + load rq.cmp ts acts) ∨
      edit rq.cmp (ts.flatMap Node.contents) (acts.map Action.edit) = ts.flatMap Node.contents ∧
        ∃ e₁ env₁, env.Ext env₁ ∧ mrPushPointerinfo rq ptr dst env₁ = (e₁, dst', env')

structure Ready (N : Note) (rq : Request τ β) (file : TreeFile) (ptr : NodePointer) (ts : List (Node h))
    (acts : List (Action β)) : Prop where
  node : NodeNoted N rq.plat file ptr ts
  ne_nil : ts ≠ []
  proper : ∀ t ∈ ts, t.Proper
  sorted : Sorted rq.cmp (ts.flatMap Node.contents)
  ordered : Ordered rq.cmp acts
  leaves : LeavesFit rq.cmp ts acts

def Descends (N : Note) (rq : Request τ β) (h : ℕ)
    (descend : NodePointer → List (Action β) → Modres → Env τ → Errcode × Modres × Env τ) : Prop :=
  ∀ {ptr : NodePointer} {ts : List (Node h)} {acts : List (Action β)} {dst dst' : Modres}
    {c : Bindings} {w : ℕ} {env env' : Env τ} {e : Errcode}, acts ≠ [] →
    Ready N rq env.file ptr ts acts → Collects N rq.plat env.file (h + 1) dst c w →
    w + load rq.cmp ts acts < chunkLimit → descend ptr acts dst env = (e, dst', env') →
    Passed e env' → NodeDone N rq ptr ts acts dst dst' c w env env' e

def childLoad (cmp : Bytes → Bytes → Ordering) (t : Node (h + 1)) (acts : List (Action β)) : ℕ :=
  if acts.isEmpty then pointerSize t.key else load cmp t.items acts

theorem load_singleton (cmp : Bytes → Bytes → Ordering) (t : Node (h + 1)) (acts : List (Action β)) :
    load cmp [t] acts = childLoad cmp t acts := by
  simp [load, route, childLoad]

theorem load_cons_cons (t t' : Node (h + 1)) (ts : List (Node (h + 1))) :
    load rq.cmp (t :: t' :: ts) acts = childLoad rq.cmp t (acts.takeWhile (upTo rq t.key)) +
        load rq.cmp (t' :: ts) (acts.dropWhile (upTo rq t.key)) := by
  simp only [load, map_cons, route, zipWith_cons_cons, sum_cons]
  rfl

theorem leavesFit_singleton (cmp : Bytes → Bytes → Ordering) (t : Node (h + 1))
    (acts : List (Action β)) :
    LeavesFit cmp [t] acts ↔ (acts ≠ [] → LeavesFit cmp t.items acts) := by
  simp [LeavesFit, route]

theorem leavesFit_cons_cons (t t' : Node (h + 1)) (ts : List (Node (h + 1))) :
    LeavesFit rq.cmp (t :: t' :: ts) acts ↔ (acts.takeWhile (upTo rq t.key) ≠ [] →
        LeavesFit rq.cmp t.items (acts.takeWhile (upTo rq t.key))) ∧
      LeavesFit rq.cmp (t' :: ts) (acts.dropWhile (upTo rq t.key)) := by
  simp only [LeavesFit, map_cons, route, zip_cons_cons, forall_mem_cons]
  rfl

/-- The pointer to a node that stays is one of those that its items can come to. -/
theorem pointerSize_le_load {ts : List (Node h)} {k : Bytes} (ht : ∀ t ∈ ts, t.Proper)
    (hk : ts.getLast?.map Node.key = some k) : pointerSize k ≤ load rq.cmp ts acts := by
  induction h generalizing acts with
  | zero =>
    obtain ⟨t, hlast, rfl⟩ := Option.map_eq_some_iff.mp hk
    have hle : pointerSize t.key ≤ pointersSize ts :=
      le_sum_of_mem (mem_map_of_mem (f := fun e : Bytes × Bytes => pointerSize e.1)
        (mem_of_getLast? hlast))
    exact hle.trans (Nat.le_add_right _ _)
  | succ h ih =>
    induction ts generalizing acts with
    | nil => cases hk
    | cons t ts ihs =>
      cases ts with
      | nil =>
        obtain rfl : t.key = k := Option.some.inj hk
        have htt := ht t (.head _)
        rw [load_singleton, childLoad]
        split_ifs
        · exact le_rfl
        · exact ih htt.2.1 (Node.getLast_flatMap htt.2.1 ▸ htt.2.2)
      | cons t' ts =>
        rw [load_cons_cons]
        exact (ihs (fun t h => ht t (.tail _ h)) hk).trans (Nat.le_add_left _ _)

theorem visit_spec {t : Node (h + 1)} (hd : Descends N rq h descend)
    (hf : Fits x) (hs : ShowsNoted N rq.plat env.file x t) (ht : t.Proper)
    (hsort : Sorted rq.cmp t.contents) (hb : Ordered rq.cmp acts)
    (hc : Collects N rq.plat env.file (h + 1) res c w)
    (hw : w + childLoad rq.cmp t acts < chunkLimit)
    (hl : acts ≠ [] → LeavesFit rq.cmp t.items acts)
    (hv : visit rq descend x acts res env = (e, res', env')) (hpass : Passed e env') :
    e = .success ∧ (Strict rq.cmp acts → env'.ctx = fetchAll rq t.contents acts env.ctx) ∧
      Collected N rq (h + 1) res res' c (edit rq.cmp t.contents (acts.map Action.edit)) t.contents
        (w + childLoad rq.cmp t acts) env' := by
  unfold visit at hv
  unfold childLoad at hw ⊢
  split_ifs at hv with hne
  · obtain rfl := isEmpty_iff.mp hne
    rw [if_pos hne, hs.key_eq] at hw ⊢
    have hk := pushValue_spec hc (itemShows_readPointer hf hs ht) hw hv
    simp only [map_nil, edit_nil]
    exact ⟨hk.success hpass, fun _ => hk.ctx, hk.collected⟩
  · rw [if_neg hne] at hw ⊢
    have hnode : NodeNoted N rq.plat env.file (readPointer x.1 x.2) t.items := hs.2.2
    have hready : Ready N rq env.file (readPointer x.1 x.2) t.items acts :=
      ⟨hnode, ht.1, ht.2.1, hsort, hb, hl fun hn => hne (by simp [hn])⟩
    obtain ⟨hsucc, hctx, ⟨hmod, -, hcol⟩ | ⟨hsame, e₁, env₁, hext, hp⟩⟩ :=
      hd (fun hn => hne (by simp [hn])) hready hc hw hv hpass
    · exact ⟨hsucc, hctx, hcol, fun hm => by simp [hmod] at hm⟩
    · -- nothing below changed: the old pointer goes back into this node
      have hi := itemShows_readPointer hf (hs.mono hext.grows) ht
      have hle : pointerSize t.key ≤ load rq.cmp t.items acts :=
        pointerSize_le_load ht.2.1 (Node.getLast_flatMap ht.2.1 ▸ ht.2.2)
      rw [hs.key_eq] at hle
      have hwt : (encodePointer (readPointer x.1 x.2)).weight (h + 1) = pointerSize x.1 := rfl
      have hk := pushValue_spec (hc.mono hext.grows) hi (by omega) hp
      refine ⟨hsucc, hctx, ?_, fun hm => ⟨hk.modified ▸ hm, hsame⟩⟩
      rw [show edit rq.cmp t.contents (acts.map Action.edit) = t.contents from hsame]
      exact hk.collects.mono_weight (by omega)

def Extending (rq : Request τ β)
    (descend : NodePointer → List (Action β) → Modres → Env τ → Errcode × Modres × Env τ) : Prop :=
  ∀ (ptr : NodePointer) (acts : List (Action β)) (res : Modres) (env : Env τ),
    Advances rq res env (descend ptr acts res env).2.1 (descend ptr acts res env).2.2

theorem visit_advances (hd : Extending rq descend)
    (hv : visit rq descend x acts res env = (e, res', env')) : Advances rq res env res' env' := by
  unfold visit at hv
  split_ifs at hv
  · exact pushValue_advances hv
  · have hadv := hd (readPointer x.1 x.2) acts res env
    rwa [hv] at hadv

theorem kpItems_advances [OrientedCmp rq.cmp] (hd : Extending rq descend)
    (hk : kpItems rq descend its acts res env = (e, res', env')) :
    Advances rq res env res' env' := by
  induction its generalizing acts res env with
  | nil =>
    have hsame : kpItems rq descend [] acts res env = (.success, res, env) := by cases acts <;> rfl
    rw [hsame] at hk
    cases hk
    exact .refl _ _
  | cons x its ih =>
    cases its with
    | nil =>
      rw [kpItems_singleton] at hk
      exact visit_advances hd hk
    | cons x' its =>
      rcases hv : visit rq descend x (acts.takeWhile (upTo rq x.1)) res env with ⟨e₁, res1, env₁⟩
      rw [kpItems_cons_cons hv] at hk
      split_ifs at hk
      · exact (visit_advances hd hv).trans (ih hk)
      · cases hk
        exact visit_advances hd hv

theorem kpItems_spec [TransCmp rq.cmp] {ts : List (Node (h + 1))} (hd : Descends N rq h descend)
    (hext : Extending rq descend)
    (hfit : ∀ y ∈ its, Fits y) (hits : List.Forall₂ (ShowsNoted N rq.plat env.file) its ts)
    (hne : ts ≠ []) (ht : ∀ t ∈ ts, t.Proper) (hs : Sorted rq.cmp (ts.flatMap Node.contents))
    (hb : Ordered rq.cmp acts) (hc : Collects N rq.plat env.file (h + 1) res c w)
    (hw : w + load rq.cmp ts acts < chunkLimit) (hl : LeavesFit rq.cmp ts acts)
    (hk : kpItems rq descend its acts res env = (e, res', env')) (hpass : Passed e env') :
    e = .success ∧
      (Strict rq.cmp acts → env'.ctx = fetchAll rq (ts.flatMap Node.contents) acts env.ctx) ∧
      Collected N rq (h + 1) res res' c
        (edit rq.cmp (ts.flatMap Node.contents) (acts.map Action.edit))
        (ts.flatMap Node.contents) (w + load rq.cmp ts acts) env' := by
  induction ts generalizing its acts res env c w with
  | nil => exact absurd rfl hne
  | cons t ts ih =>
    obtain ⟨x, its, hx, hrest, rfl⟩ := forall₂_cons_right_iff.mp hits
    have hfx := hfit x (by simp)
    have htt := ht t (by simp)
    cases ts with
    | nil =>
      obtain rfl := forall₂_nil_right_iff.mp hrest
      rw [kpItems_singleton] at hk
      rw [load_singleton] at hw ⊢
      rw [leavesFit_singleton] at hl
      simp only [flatMap_cons, flatMap_nil, append_nil] at hs ⊢
      exact visit_spec hd hfx hx htt hs hb hc hw hl hk hpass
    | cons t' ts =>
      obtain ⟨x', its, hx', hrest', rfl⟩ := forall₂_cons_right_iff.mp hrest
      obtain ⟨hle, hlt⟩ := Node.cut_at_key htt hs
      rw [load_cons_cons] at hw ⊢
      rw [leavesFit_cons_cons] at hl
      rw [flatMap_cons, edit_upTo hle hlt hb, fetchAll_upTo hle hlt hb]
      obtain ⟨hs1, hs2, -⟩ := pairwise_append.mp (flatMap_cons ▸ hs)
      rcases hv : visit rq descend x (acts.takeWhile (upTo rq x.1)) res env with ⟨e₁, res1, env₁⟩
      rw [kpItems_cons_cons hv] at hk
      rw [← hx.key_eq] at hv hk
      have hb1 := hb.of_sublist (takeWhile_sublist (upTo rq t.key))
      have hb2 := hb.of_sublist (dropWhile_sublist (upTo rq t.key))
      have hpass1 : Passed e₁ env₁ := by
        split_ifs at hk with he
        · exact .inl he
        · cases hk
          exact hpass
      obtain ⟨rfl, hctx, hcol⟩ := visit_spec hd hfx hx htt hs1 hb1 hc (by omega) hl.1 hv hpass1
      rw [if_pos rfl] at hk
      have hg := (visit_advances hext hv).grows
      obtain ⟨hsucc, hctx', hcol'⟩ := ih (fun y hy => hfit y (.tail _ hy))
        (.cons (hx'.mono hg) (hrest'.imp fun _ _ hy => hy.mono hg)) (by simp)
        (fun y hy => ht y (.tail _ hy)) hs2 hb2 hcol.collects (by omega) hl.2 hk
      refine ⟨hsucc, fun hst => ?_, by simpa only [Nat.add_assoc] using hcol.trans hcol'⟩
      rw [hctx' (hst.of_sublist (dropWhile_sublist _)), hctx (hst.of_sublist (takeWhile_sublist _))]

theorem flushMr_of_unmodified {mr : Modres} (hm : mr.modified = false) :
    flushMr rq mr env = (.success, mr, env) := by
  simp [flushMr, flushMrPartial, hm]

section Finish
variable {nptr : Option NodePointer} {loc loc' dst dst' : Modres} {env₁ : Env τ} {e₁ : Errcode}
  {d : Bindings} {wd : ℕ}

theorem finishNode_keep {ptr : NodePointer} (hm : loc.modified = false) :
    finishNode rq (some ptr) loc dst env = (.success, (mrPushPointerinfo rq ptr dst env).2) := by
  simp [finishNode, flushMr_of_unmodified hm, hm]

theorem finishNode_move (hm : loc.modified = true ∨ nptr = none)
    (hfl : flushMr rq loc env = (.success, loc', env₁)) (hloc : loc'.modified = loc.modified) :
    finishNode rq nptr loc dst env = moveLoop rq loc'.pointers { dst with modified := true } env₁ := by
  obtain hm | rfl := hm
  · simp [finishNode, hfl, hloc, hm, mrMovePointers]
  · cases h : loc.modified <;> simp [finishNode, hfl, hloc, h, mrMovePointers]

theorem finishNode_flush_advances (hfl : flushMr rq loc env = (e₁, loc', env₁))
    (hn : finishNode rq nptr loc dst env = (e, dst', env')) : Advances rq dst env₁ dst' env' := by
  simp only [finishNode, hfl] at hn
  split_ifs at hn
  · cases hn
    exact .refl _ _
  split at hn
  · cases hn
    exact pushValue_advances rfl
  · rcases hmv : moveLoop rq loc'.pointers { dst with modified := true } env₁ with ⟨e2, dst2, env2⟩
    rw [mrMovePointers, hmv] at hn
    cases hn
    exact ⟨(moveLoop_advances hmv).ext, (moveLoop_advances hmv).pointers⟩

theorem finishNode_advances (hn : finishNode rq nptr loc dst env = (e, dst', env')) :
    Advances rq dst env dst' env' := by
  rcases hfl : flushMr rq loc env with ⟨e₁, loc1, env₁⟩
  exact (finishNode_flush_advances hfl hn).after (flushMr_advances hfl).ext

theorem finishNode_spec (hc : Collects N rq.plat env.file h loc c w)
    (hd : Collects N rq.plat env.file (h + 1) dst d wd) (hw : w < chunkLimit)
    (hwd : wd + handed c w h < chunkLimit)
    (hm : loc.modified = true ∨ nptr = none) (hnil : loc.modified = false → c = [])
    (hn : finishNode rq nptr loc dst env = (e, dst', env')) (hpass : Passed e env') :
    e = .success ∧ env'.ctx = env.ctx ∧ dst'.modified = true ∧ (dst.Counted → dst'.Counted) ∧
      Collects N rq.plat env'.file (h + 1) dst' (d ++ c) (wd + handed c w h) := by
  rcases hfl : flushMr rq loc env with ⟨e₁, loc1, env₁⟩
  obtain ⟨hk, hval, -, -⟩ := flushMr_spec hc hw hfl
  obtain rfl : e₁ = .success := by
    by_contra he
    simp only [finishNode, hfl, ne_eq, he, not_false_eq_true, if_true] at hn
    cases hn
    exact he (hk.success hpass)
  rw [finishNode_move hm hfl hk.modified] at hn
  obtain ⟨ps, vs, hps, hvs, hcont⟩ := hk.collects.holds
  -- nothing is left in the values list, so the pointers hold it all
  have hcs : c = ps.flatMap Node.contents := by
    cases hlm : loc.modified with
    | true =>
      rw [hval rfl hlm] at hvs
      rw [hcont, forall₂_nil_left_iff.mp hvs, flatMap_nil, append_nil]
    | false =>
      have happ := hcont.symm.trans (hnil hlm)
      rw [hnil hlm, (append_eq_nil_iff.mp happ).1]
  have hweight := hk.collects.handed_le
  have hkm := moveLoop_spec (hd.mono (flushMr_advances hfl).grows).setModified hps (by omega) hn hpass
  obtain rfl := hkm.success hpass
  have hcol : Collects N rq.plat env'.file (h + 1) dst' (d ++ ps.flatMap Node.contents)
    (wd + handed c w h) := hkm.collects.mono_weight (by omega)
  exact ⟨rfl, hkm.ctx.trans hk.ctx, hkm.modified, fun hcd => moveLoop_counted (by exact hcd) hn,
    by rwa [← hcs] at hcol⟩

end Finish

section ModifyNode
variable {nptr : Option NodePointer} {dst dst' : Modres} {d : Bindings} {wd : ℕ}

theorem modifyLeaf_advances (hm : modifyLeaf rq nptr its acts dst env = (e, dst', env')) :
    Advances rq dst env dst' env' := by
  rcases hk : kvItems rq its acts (makeModres .kv) env with ⟨res1, env₁, acts1⟩
  rw [modifyLeaf, hk] at hm
  exact (finishNode_advances hm).after ((kvItems_advances hk).ext.trans (kvTail_advances rfl).ext)

variable {ptr : NodePointer}

theorem modifyInterior_advances [OrientedCmp rq.cmp] (hd : Extending rq descend)
    (hm : modifyInterior rq descend ptr its acts dst env = (e, dst', env')) :
    Advances rq dst env dst' env' := by
  rcases hk : kpItems rq descend its acts (makeModres .kp) env with ⟨e₁, res1, env₁⟩
  simp only [modifyInterior, hk] at hm
  split_ifs at hm
  · cases hm
    exact (Advances.refl _ _).after (kpItems_advances hd hk).ext
  · exact (finishNode_advances hm).after (kpItems_advances hd hk).ext

theorem advances_stop {e₁ : Errcode} {env₁ : Env τ} (hext : env.Ext env₁)
    (heq : (e₁, dst, env₁) = (e, dst', env')) : Advances rq dst env dst' env' := by
  cases heq
  exact (Advances.refl _ _).after hext

theorem modifyNode_advances [OrientedCmp rq.cmp] (fuel : ℕ)
    (hm : modifyNode rq fuel nptr acts dst env = (e, dst', env')) :
    Advances rq dst env dst' env' := by
  induction fuel generalizing nptr acts dst dst' env env' e with
  | zero => exact advances_stop (.refl _) hm
  | succ fuel ih =>
    rw [modifyNode] at hm
    unfold modifyBody at hm
    split_ifs at hm
    · exact advances_stop (.refl _) hm
    split at hm
    · exact modifyLeaf_advances hm
    split at hm
    next hr =>
      refine advances_stop ?_ hm
      exact ⟨preadCompressed_appends hr, fun hf => by simp at hf⟩
    next hr =>
      refine advances_stop ?_ hm
      exact ⟨preadCompressed_appends hr, id⟩
    next ptr _ tag nodebuf file hr =>
      have hread : env.Ext { env with file := file } := ⟨preadCompressed_appends hr, id⟩
      split_ifs at hm
      · exact (modifyLeaf_advances hm).after hread
      · exact (modifyInterior_advances (fun _ _ _ _ => ih rfl) hm).after hread
      · exact advances_stop hread hm

theorem modifyLeaf_spec [TransCmp rq.cmp] (hfit : ∀ x ∈ its, Fits x) (hs : Sorted rq.cmp its)
    (hb : Ordered rq.cmp acts) (hd : Collects N rq.plat env.file 1 dst d wd)
    (hl : LeavesFit (h := 0) rq.cmp its acts) (hw : wd + load (h := 0) rq.cmp its acts < chunkLimit)
    (hnone : nptr = none → its = [])
    (hm : modifyLeaf rq nptr its acts dst env = (e, dst', env')) (hpass : Passed e env') :
    e = .success ∧ (Strict rq.cmp acts → env'.ctx = fetchAll rq its acts env.ctx) ∧
      (dst'.modified = true ∧ (dst.Counted → dst'.Counted) ∧ Collects N rq.plat env'.file 1 dst'
          (d ++ edit rq.cmp its (acts.map Action.edit))
          (wd + load (h := 0) rq.cmp its acts) ∨
        edit rq.cmp its (acts.map Action.edit) = its ∧ ∃ ptr e₁ env₁, nptr = some ptr ∧
          env.Ext env₁ ∧ mrPushPointerinfo rq ptr dst env₁ = (e₁, dst', env')) := by
  rcases hk : kvItems rq its acts (makeModres .kv) env with ⟨res1, env₁, acts1⟩
  rcases ht : kvTail rq acts1 res1 env₁ with ⟨res2, env2⟩
  simp only [modifyLeaf, hk, ht] at hm
  obtain ⟨hcol, hctx⟩ := leaf_spec (N := N) hfit hs hb hl hk ht
  have hext := (kvItems_advances hk).trans (kvTail_advances ht)
  by_cases hcase : res2.modified = true ∨ nptr = none
  · have hnil (hun : res2.modified = false) : edit rq.cmp its (acts.map Action.edit) = [] := by
      obtain hcase | hcase := hcase
      · simp [hun] at hcase
      · rw [(hcol.modified hun).2, hnone hcase]
    have hle : pointersSize (edit rq.cmp its (acts.map Action.edit)) ≤ load (h := 0) rq.cmp its acts :=
      sum_edit_le _ _ _
    obtain ⟨he, hctx', hmod, hcd, hres⟩ := finishNode_spec hcol.collects (hd.mono hext.grows) hl
      ((Nat.add_le_add_left hle _).trans_lt hw) hcase hnil hm hpass
    exact ⟨he, fun hst => hctx'.trans (hctx hst),
      .inl ⟨hmod, hcd, hres.mono_weight (Nat.add_le_add_left hle _)⟩⟩
  · obtain ⟨hun, hsome⟩ := not_or.mp hcase
    obtain ⟨ptr, rfl⟩ := Option.ne_none_iff_exists'.mp hsome
    rw [Bool.not_eq_true] at hun
    rw [finishNode_keep hun] at hm
    obtain ⟨rfl, hp⟩ := Prod.mk.inj hm
    have hpush : mrPushPointerinfo rq ptr dst env2 = (_, dst', env') := Prod.ext rfl hp
    exact ⟨rfl, fun hst => (pushValue_ctx hpush).trans (hctx hst),
      .inr ⟨(hcol.modified hun).2, ptr, _, env2, rfl, hext.ext, hpush⟩⟩

theorem modifyInterior_spec [TransCmp rq.cmp] {ts : List (Node (h + 1))}
    (hdesc : Descends N rq h descend) (hext : Extending rq descend)
    (hfit : ∀ x ∈ its, Fits x) (hits : List.Forall₂ (ShowsNoted N rq.plat env.file) its ts)
    (hne : ts ≠ []) (ht : ∀ t ∈ ts, t.Proper) (hs : Sorted rq.cmp (ts.flatMap Node.contents))
    (hb : Ordered rq.cmp acts) (hd : Collects N rq.plat env.file (h + 1 + 1) dst d wd)
    (hw : wd + load rq.cmp ts acts < chunkLimit) (hl : LeavesFit rq.cmp ts acts)
    (hm : modifyInterior rq descend ptr its acts dst env = (e, dst', env'))
    (hpass : Passed e env') : NodeDone N rq ptr ts acts dst dst' d wd env env' e := by
  rcases hk : kpItems rq descend its acts (makeModres .kp) env with ⟨e₁, res1, env₁⟩
  simp only [modifyInterior, hk] at hm
  have hpass1 : Passed e₁ env₁ := by
    split_ifs at hm with he
    · cases hm
      exact hpass
    · exact .inl (not_not.mp he)
  obtain ⟨rfl, hctx, hcol⟩ := kpItems_spec hdesc hext hfit hits hne ht hs hb
    (collects_makeModres N _ _ (h + 1)) (by omega) hl hk hpass1
  rw [if_neg (by simp)] at hm
  rw [Nat.zero_add] at hcol
  have hg := kpItems_advances hext hk
  by_cases hmod : res1.modified = true
  · obtain ⟨he, hctx', hres⟩ := finishNode_spec hcol.collects (hd.mono hg.grows) (by omega) hw
      (.inl hmod) (fun hun => by simp [hun] at hmod) hm hpass
    exact ⟨he, fun hst => hctx'.trans (hctx hst), .inl hres⟩
  · rw [Bool.not_eq_true] at hmod
    rw [finishNode_keep hmod] at hm
    obtain ⟨rfl, hp⟩ := Prod.mk.inj hm
    have hpush : mrPushPointerinfo rq ptr dst env₁ = (_, dst', env') := Prod.ext rfl hp
    exact ⟨rfl, fun hst => (pushValue_ctx hpush).trans (hctx hst),
      .inr ⟨(hcol.modified hmod).2, _, env₁, hg.ext, hpush⟩⟩

theorem shows_zero {plat : Platform} {file : TreeFile} {ts : List (Node 0)}
    (hits : List.Forall₂ (ShowsNoted N plat file) its ts) : its = ts := by
  induction hits with
  | nil => rfl
  | cons hx _ ih =>
    obtain rfl : _ = _ := hx
    obtain rfl := ih
    rfl

theorem flatMap_contents_zero (ts : List (Node 0)) : ts.flatMap Node.contents = (ts : Bindings) := by
  induction ts with
  | nil => rfl
  | cons t ts ih => exact congrArg (t :: ·) ih

omit [N.Lawful rq] in
theorem modifyBody_node {ts : List (Node h)}
    (hn : NodeNoted N rq.plat env.file ptr ts) (hacts : acts ≠ [])
    (hm : modifyBody rq descend (some ptr) acts dst env = (e, dst', env')) (hpass : Passed e env') :
    ∃ its file, env.file.Appends file ∧ (∀ x ∈ its, Fits x) ∧
      List.Forall₂ (ShowsNoted N rq.plat file) its ts ∧
      (match h with
        | 0 => modifyLeaf rq (some ptr) its acts dst { env with file := file }
        | _ + 1 => modifyInterior rq descend ptr its acts dst { env with file := file }) =
        (e, dst', env') := by
  obtain ⟨its, hst, hfit, -, hits⟩ := hn
  rcases hr : preadCompressed rq.plat ptr.pointer env.file with ⟨r, file⟩
  have hg := preadCompressed_appends hr
  unfold modifyBody at hm
  rw [if_neg (by simpa using hacts)] at hm
  simp only [hr] at hm
  cases r with
  | error e₁ =>
    cases hm
    simp [Passed] at hpass
  | ok got =>
    obtain rfl := preadCompressed_stored hst hr
    refine ⟨its, file, hg, hfit, hits.imp fun _ _ hx => hx.mono hg.grows, ?_⟩
    cases h with
    | zero => simpa [nodeBytes, levelType, NodeType.toByte, readItems_flatMap hfit] using hm
    | succ h => simpa [nodeBytes, levelType, NodeType.toByte, readItems_flatMap hfit] using hm

theorem modifyNode_spec [TransCmp rq.cmp] {fuel : ℕ} (hfuel : h < fuel) :
    Descends N rq h fun ptr => modifyNode rq fuel (some ptr) := by
  induction h generalizing fuel with
  | zero =>
    intro ptr ts acts dst dst' c w env env' e hacts hr hc hw hm hpass
    obtain ⟨fuel, rfl⟩ := Nat.exists_eq_succ_of_ne_zero (Nat.pos_iff_ne_zero.mp hfuel)
    obtain ⟨its, file, hg, hfit, hits, hm⟩ := modifyBody_node hr.node hacts hm hpass
    obtain rfl := (shows_zero hits).symm
    have hs := hr.sorted
    rw [flatMap_contents_zero] at hs
    obtain ⟨he, hctx, hres⟩ := modifyLeaf_spec hfit hs hr.ordered (hc.mono hg.grows) hr.leaves hw (by simp)
      hm hpass
    refine ⟨he, ?_, ?_⟩
    all_goals rw [flatMap_contents_zero]
    · exact hctx
    · obtain hres | ⟨hsame, ptr', e₁, env₁, hptr, hext, hp⟩ := hres
      · exact .inl hres
      · cases hptr
        exact .inr ⟨hsame, e₁, env₁, ⟨hg.trans hext.appends, hext.failed⟩, hp⟩
  | succ h ih =>
    intro ptr ts acts dst dst' c w env env' e hacts hr hc hw hm hpass
    obtain ⟨fuel, rfl⟩ := Nat.exists_eq_succ_of_ne_zero (Nat.ne_zero_of_lt hfuel)
    obtain ⟨its, file, hg, hfit, hits, hm⟩ := modifyBody_node hr.node hacts hm hpass
    have hext : Extending rq fun ptr => modifyNode rq fuel (some ptr) :=
      fun _ _ _ _ => modifyNode_advances fuel rfl
    obtain ⟨he, hctx, hres⟩ := modifyInterior_spec (ih (by omega)) hext hfit hits hr.ne_nil
      hr.proper hr.sorted hr.ordered (hc.mono hg.grows) hw hr.leaves hm hpass
    refine ⟨he, hctx, ?_⟩
    obtain hres | ⟨hsame, e₁, env₁, hext, hp⟩ := hres
    · exact .inl hres
    · exact .inr ⟨hsame, e₁, env₁, ⟨hg.trans hext.appends, hext.failed⟩, hp⟩

end ModifyNode

end Interior

end Appstack.Couchstore
