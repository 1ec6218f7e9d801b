import Appstack.Couchstore.BtreeRoot

-- `btree_modify.c`, the part that the compactor uses.

namespace Appstack.Couchstore
open Std SortedMap List

variable {τ β : Type*}

/-- The request that comes with it is `compacting`. -/
def newBtreeModres : Modres := { makeModres .kv with modified := true }

def completeNewBtree (rq : Request τ β) (mr : Modres) (env : Env τ) :
    Errcode × Option NodePointer × Env τ :=
  let (errcode, mr, env) := flushMr rq mr env
  if errcode ≠ .success then (errcode, none, env)
  else
    let (errcode, _, targMr, env) := mrMovePointers rq mr { makeModres .kp with modified := true } env
    if errcode ≠ .success then (errcode, none, env)
    else if targMr.count > 1 ∨ targMr.pointers ≠ [] then finishRoot rq targMr env
    else (.success, targMr.values.getLast?.bind Item.pointer, env)

/-- A builder at work: `m` has been pushed so far. Between two items, anything else may be
appended to the file. -/
inductive Building (rq : Request τ β) : Bindings → Modres → Env τ → Prop where
  | start (env : Env τ) : env.failed = false → Building rq [] newBtreeModres env
  | append {m : Bindings} {mr : Modres} {env env' : Env τ} :
      Building rq m mr env → env.file.Grows env'.file → env'.failed = false → Building rq m mr env'
  | push {m : Bindings} {mr mr' : Modres} {env env' : Env τ} {k v : Bytes} {e : Errcode} :
      Building rq m mr env → Fits (k, v) → mrPushItem rq k v mr env = (e, mr', env') →
      env'.failed = false → Building rq (m ++ [(k, v)]) mr' env'

variable {rq : Request τ β} {N : Note} [N.Lawful rq] {h : ℕ} {m : Bindings} {mr mr' : Modres}
  {env env' : Env τ} {e : Errcode}

structure Filling (N : Note) (plat : Platform) (file : TreeFile) (h : ℕ) (mr : Modres)
    (m : Bindings) : Prop extends Gathers N plat file h mr m where
  modified : mr.modified = true
  counted : mr.Counted
  small : mr.nodeLen ≤ chunkSize

omit [N.Lawful rq] in
theorem Filling.mono {plat : Platform} {file file' : TreeFile} (hc : Filling N plat file h mr m)
    (hg : file.Grows file') : Filling N plat file' h mr m :=
  ⟨hc.toGathers.mono hg, hc.modified, hc.counted, hc.small⟩

omit [N.Lawful rq] in
theorem Fresh.filling (hfr : Fresh mr) (N : Note) (plat : Platform) (file : TreeFile) (h : ℕ) :
    Filling N plat file (h + 1) mr [] :=
  ⟨(hfr.collects N plat file h).toGathers, hfr.modified, hfr.counted,
    by rw [hfr.nodeLen]; exact Nat.zero_le _⟩

theorem flushMr_short (hc : Gathers N rq.plat env.file h mr m) (hmod : mr.modified = true)
    (hlen : mr.nodeLen < chunkLimit) (hfl : flushMr rq mr env = (e, mr', env'))
    (hf : env'.failed = false) :
    e = .success ∧ Gathers N rq.plat env'.file h mr' m ∧ env'.ctx = env.ctx ∧
      mr'.modified = true ∧ (mr.Counted → mr'.Counted) ∧ mr'.values = [] := by
  have hsum := hc.nodeLen
  unfold chunkLimit at hlen
  have hlt : (mr.values.map Item.size).sum < 2 ^ 64 := by omega
  have hq : UInt64.ofNat mr.nodeLen = UInt64.ofNat (mr.values.map Item.size).sum := by rw [hsum]
  have hpos (hne : mr.values ≠ []) : 0 < UInt64.ofNat mr.nodeLen := by
    obtain ⟨i, is, hv⟩ := exists_cons_of_ne_nil hne
    rw [hq, UInt64.lt_iff_toNat_lt, UInt64.toNat_ofNat', Nat.mod_eq_of_lt hlt, hv]
    simp [Item.size]
  obtain ⟨he, hg, hctx, hmod'⟩ := hc.flush (by unfold chunkLimit; omega) hpos hfl
  obtain rfl := he (.inr (.inr hf))
  refine ⟨rfl, hg, hctx, hmod'.trans hmod, fun hcd => flushMrPartial_counted hcd hfl, ?_⟩
  obtain ⟨hn, -, rfl, -⟩ | ⟨hf', -⟩ | ⟨written, rest, _, _, _, -, -, ht, -, -, -, rfl⟩ :=
    flushMrPartial_cases hfl
  · simpa [hmod] using hn
  · simp [hf'] at hf
  · rw [hq, flushTake_all _ _ hlt, Prod.mk.injEq] at ht
    exact ht.2.symm

section
variable (hcomp : rq.compacting = true)
include hcomp

theorem pushValue_filling {i : Item} {t : Node h}
    (hc : Filling N rq.plat env.file h mr m) (hi : ItemShows N rq.plat env.file i t)
    (hp : pushValue rq i mr env = (e, mr', env')) (hf : env'.failed = false) :
    e = .success ∧ env'.ctx = env.ctx ∧ Filling N rq.plat env'.file h mr' (m ++ t.contents) := by
  have hg := hc.toGathers.push hi
  have hcd : Modres.Counted { mr with
      values := mr.values ++ [i], nodeLen := mr.nodeLen + i.size, count := mr.count + 1 } := by
    simpa [Modres.Counted] using hc.counted
  have hsmall := hc.small
  have hsize : i.size < 2 ^ 12 + 2 ^ 28 + 5 := by
    have hk : i.key.length < 2 ^ 12 := hi.fits.1
    have hv : i.data.length < 2 ^ 28 := hi.fits.2
    rw [Item.size]
    omega
  simp only [pushValue, maybeFlush, hcomp, if_true] at hp
  split_ifs at hp with hfull
  · obtain ⟨he, hg', hctx, hmod, hcd', hval⟩ := flushMr_short hg hfull.1
      (by dsimp only; unfold chunkSize chunkThreshold at hsmall; unfold chunkLimit; omega) hp hf
    refine ⟨he, hctx, hg', hmod, hcd' hcd, ?_⟩
    rw [hg'.nodeLen, hval]
    exact Nat.zero_le _
  · cases hp
    refine ⟨rfl, rfl, hg, hc.modified, hcd, ?_⟩
    by_contra hlong
    exact hfull ⟨hc.modified, Nat.lt_of_not_le hlong⟩

theorem moveLoop_filling {is : List Item} {ts : List (Node h)}
    (hc : Filling N rq.plat env.file h mr m)
    (his : List.Forall₂ (ItemShows N rq.plat env.file) is ts)
    (hm : moveLoop rq is mr env = (e, mr', env')) (hf : env'.failed = false) :
    e = .success ∧ env'.ctx = env.ctx ∧
      Filling N rq.plat env'.file h mr' (m ++ ts.flatMap Node.contents) := by
  induction is generalizing ts mr env m with
  | nil =>
    obtain rfl := forall₂_nil_left_iff.mp his
    cases hm
    exact ⟨rfl, rfl, by simpa using hc⟩
  | cons i is ih =>
    obtain ⟨t, ts, hi, hrest, rfl⟩ := forall₂_cons_left_iff.mp his
    rw [moveLoop] at hm
    rcases hp : pushValue rq i mr env with ⟨e1, mr1, env1⟩
    rw [hp] at hm
    dsimp only at hm
    have hf1 : env1.failed = false := by
      split_ifs at hm
      · exact (moveLoop_advances hm).failed hf
      · exact (Prod.mk.inj (Prod.mk.inj hm).2).2 ▸ hf
    obtain ⟨he1, hctx1, hc1⟩ := pushValue_filling hcomp hc hi hp hf1
    have hg := (pushValue_advances hp).grows
    rw [if_pos he1] at hm
    obtain ⟨he, hctx, hc'⟩ := ih hc1 (hrest.imp fun _ _ hx => hx.mono hg) hm
    exact ⟨he, hctx.trans hctx1, by simpa only [flatMap_cons, append_assoc] using hc'⟩

variable {root : Option NodePointer} {collector : Modres}

theorem movePointers_filling {col : Modres}
    (hc : Gathers N rq.plat env.file h mr m) (hv : mr.values = []) (hfr : Fresh collector)
    (hm : moveLoop rq mr.pointers collector env = (e, col, env')) (hf : env'.failed = false) :
    e = .success ∧ env'.ctx = env.ctx ∧ Filling N rq.plat env'.file (h + 1) col m := by
  obtain ⟨ps, vs, hps, hvs, rfl⟩ := hc.holds
  rw [hv] at hvs
  obtain rfl := forall₂_nil_left_iff.mp hvs
  simpa using moveLoop_filling hcomp (hfr.filling N rq.plat env.file h) hps hm hf

theorem rootLoop_filling {fuel : ℕ} (hc : Gathers N rq.plat env.file (h + 1) mr m)
    (hmod : mr.modified = true) (hcd : mr.Counted) (hv : mr.values = []) (hfr : Fresh collector)
    (hr : rootLoop rq fuel mr collector env = (.success, root, env')) (hf : env'.failed = false) :
    RootShows N rq.plat env'.file root m := by
  induction fuel generalizing h mr collector env with
  | zero => cases hr
  | succ fuel ih =>
    obtain ⟨-, i, hi, rfl, rfl⟩ | ⟨-, col1, env1, col2, env2, hm, hfl, hr⟩ := rootLoop_step hr nofun
    · exact hc.rootShows_pointer hv hi
    · have hf2 := (rootLoop_ext hr).failed hf
      obtain ⟨-, -, hc1⟩ :=
        movePointers_filling hcomp hc hv hfr hm ((flushMr_advances hfl).failed hf2)
      have hsmall := hc1.small
      obtain ⟨-, hc2, -, hmod2, hcd2, hv2⟩ := flushMr_short hc1.toGathers hc1.modified
        (by unfold chunkSize chunkThreshold at hsmall; unfold chunkLimit; omega) hfl hf2
      have hfresh : Fresh { mr with pointers := [] } :=
        ⟨hmod, hc.nodeType, hv, rfl, by simp [hc.nodeLen, hv], hcd.trans (by simp [hv])⟩
      exact ih hc2 hmod2 (hcd2 hc1.counted) hv2 hfresh hr

theorem Building.filling (hb : Building rq m mr env) :
    env.failed = false ∧ Filling N rq.plat env.file 0 mr m := by
  induction hb with
  | start env hf =>
    exact ⟨hf, (collects_makeModres N rq.plat env.file 0).toGathers.setModified, rfl, rfl, Nat.zero_le _⟩
  | append _ hg hf ih => exact ⟨hf, ih.2.mono hg⟩
  | push _ hfit hp hf ih =>
    exact ⟨hf, (pushValue_filling hcomp ih.2 (itemShows_leaf _ _ _ hfit) hp hf).2.2⟩

theorem completeNewBtree_shows
    (hb : Building rq m mr env) (hr : completeNewBtree rq mr env = (.success, root, env'))
    (hf : env'.failed = false) : RootShows N rq.plat env'.file root m := by
  obtain ⟨-, hc⟩ := hb.filling (N := N) hcomp
  rcases hfl : flushMr rq mr env with ⟨e1, mr1, env1⟩
  rcases hm : moveLoop rq mr1.pointers { makeModres .kp with modified := true } env1 with
    ⟨e2, targ, env2⟩
  have hfresh : Fresh { makeModres .kp with modified := true } := ⟨rfl, rfl, rfl, rfl, rfl, rfl⟩
  have hlim {k : ℕ} (hk : k ≤ chunkSize) : k < chunkLimit := hk.trans_lt (by decide)
  simp only [completeNewBtree, mrMovePointers, hfl, hm] at hr
  split_ifs at hr with he1 he2 hmany
  · exact absurd (Prod.mk.inj hr).1 he1
  · exact absurd (Prod.mk.inj hr).1 he2
  · rcases hfl3 : flushMr rq targ env2 with ⟨e3, mr3, env3⟩
    simp only [finishRoot, hfl3] at hr
    have hf3 := (rootLoop_ext hr).failed hf
    have hf2 := (flushMr_advances hfl3).failed hf3
    obtain ⟨-, hc1, -, -, -, hv1⟩ := flushMr_short hc.toGathers hc.modified (hlim hc.small) hfl
      ((moveLoop_advances hm).failed hf2)
    obtain ⟨-, -, hc2⟩ := movePointers_filling hcomp hc1 hv1 hfresh hm hf2
    obtain ⟨-, hc3, -, hmod3, hcd3, hv3⟩ :=
      flushMr_short hc2.toGathers hc2.modified (hlim hc2.small) hfl3 hf3
    exact rootLoop_filling hcomp hc3 hmod3 (hcd3 hc2.counted) hv3 hfresh hr hf
  · cases hr
    obtain ⟨-, hc1, -, -, -, hv1⟩ := flushMr_short hc.toGathers hc.modified (hlim hc.small) hfl
      ((moveLoop_advances hm).failed hf)
    obtain ⟨-, -, hc2⟩ := movePointers_filling hcomp hc1 hv1 hfresh hm hf
    obtain ⟨hcount, hp⟩ := not_or.mp hmany
    exact hc2.toGathers.rootShows_value (not_not.mp hp) hc2.counted hcount

end

end Appstack.Couchstore
