import Appstack.Couchstore.LeafGrowth

namespace Appstack.Couchstore
open Std SortedMap List

section Unique
variable {plat : Platform} {file : TreeFile}

theorem Stored.unique {pos : ℕ} {buf buf' : Bytes} (h : Stored plat file pos buf)
    (h' : Stored plat file pos buf') : buf = buf' := by
  obtain ⟨hhead, hbody⟩ := (BlockLayout.laid_append _ _ _).mp h.laid
  obtain ⟨hhead', hbody'⟩ := (BlockLayout.laid_append _ _ _).mp h'.laid
  rw [length_chunkHeader] at hbody hbody'
  have hlen : (plat.snappy.compress buf).length % 2 ^ 31 =
      (plat.snappy.compress buf').length % 2 ^ 31 := by
    rw [← chunkHeader_length_mod plat, ← chunkHeader_length_mod plat,
      hhead.eq_of_length hhead' (by simp)]
  rw [Nat.mod_eq_of_lt h.compress_lt, Nat.mod_eq_of_lt h'.compress_lt] at hlen
  have hun := congrArg plat.snappy.uncompress (hbody.eq_of_length hbody' hlen)
  simpa only [plat.snappy.uncompress_compress, Option.some.injEq] using hun

theorem NodeAt.contents_eq {h h' pos : ℕ} {ts : List (Node h)} {ts' : List (Node h')}
    (hn : NodeAt plat file pos ts) (hn' : NodeAt plat file pos ts') :
    ts.flatMap Node.contents = ts'.flatMap Node.contents := by
  induction h generalizing h' pos with
  | zero =>
    obtain ⟨its, hst, hfit, hits⟩ := hn
    obtain ⟨its', hst', hfit', hits'⟩ := hn'
    obtain ⟨hty, rfl⟩ := nodeBytes_inj hfit hfit' (hst.unique hst')
    cases h' with
    | zero =>
      rw [← shows_zero (hits.imp fun _ _ hx => hx.blank),
        ← shows_zero (hits'.imp fun _ _ hx => hx.blank)]
    | succ h' => cases hty
  | succ h ih =>
    obtain ⟨its, hst, hfit, hits⟩ := hn
    obtain ⟨its', hst', hfit', hits'⟩ := hn'
    obtain ⟨hty, rfl⟩ := nodeBytes_inj hfit hfit' (hst.unique hst')
    cases h' with
    | zero => cases hty
    | succ h' =>
      clear hst hst' hfit hfit'
      induction hits generalizing ts' with
      | nil =>
        obtain rfl := forall₂_nil_left_iff.mp hits'
        rfl
      | cons hx _ ihs =>
        obtain ⟨t', ts', hx', hrest', rfl⟩ := forall₂_cons_left_iff.mp hits'
        rw [flatMap_cons, flatMap_cons, ihs hrest']
        exact congrArg (· ++ _) (ih hx.2.2 hx'.2.2)

theorem TreeAt.contents_eq {root : Option NodePointer} {t t' : Tree}
    (hat : TreeAt plat file root t) (hat' : TreeAt plat file root t') :
    t.contents = t'.contents := by
  match root, t, t', hat, hat' with
  | none, .empty, .empty, _, _ => rfl
  | some _, .root _ _, .root _ _, hat, hat' => exact NodeAt.contents_eq hat hat'

end Unique

/-- Going down to the first item each time leads from the node at `pos` to the binding `x`. -/
inductive LeadsTo (plat : Platform) (file : TreeFile) (x : Bytes × Bytes) : ℕ → Prop where
  | leaf {pos : ℕ} {its : Bindings} : Stored plat file pos (nodeBytes 0 (x :: its)) →
      (∀ y ∈ x :: its, Fits y) → LeadsTo plat file x pos
  | interior {pos : ℕ} {e : Bytes × Bytes} {its : Bindings} :
      Stored plat file pos (nodeBytes 1 (e :: its)) → (∀ y ∈ e :: its, Fits y) →
      LeadsTo plat file x (pointerOf e.2) → LeadsTo plat file x pos

section LeadsTo
variable {plat : Platform} {file file' : TreeFile} {x : Bytes × Bytes} {pos h : ℕ}

theorem LeadsTo.mono (hx : LeadsTo plat file x pos) (hg : file.Grows file') :
    LeadsTo plat file' x pos := by
  induction hx with
  | leaf hst hfit => exact .leaf (hst.mono hg) hfit
  | interior hst hfit _ ih => exact .interior (hst.mono hg) hfit ih

variable {ts : List (Node h)}

theorem LeadsTo.head_eq (hx : LeadsTo plat file x pos)
    (hn : NodeAt plat file pos ts) : (ts.flatMap Node.contents).head? = some x := by
  induction hx generalizing h with
  | leaf hst hfit =>
    obtain ⟨its', hst', hfit', hits⟩ := hn
    obtain ⟨hty, rfl⟩ := nodeBytes_inj hfit hfit' (hst.unique hst')
    cases h with
    | zero =>
      obtain ⟨t, ts, ht, -, rfl⟩ := forall₂_cons_left_iff.mp hits
      exact congrArg some ht
    | succ h => cases hty
  | interior hst hfit _ ih =>
    obtain ⟨its', hst', hfit', hits⟩ := hn
    obtain ⟨hty, rfl⟩ := nodeBytes_inj hfit hfit' (hst.unique hst')
    cases h with
    | zero => cases hty
    | succ h =>
      obtain ⟨t, ts, ht, -, rfl⟩ := forall₂_cons_left_iff.mp hits
      have hfirst : t.contents.head? = some x := ih ht.2.2
      rw [flatMap_cons, List.head?_append, hfirst]
      rfl

theorem Node.Proper.exists_head {t : Node h} (ht : t.Proper) : ∃ x, t.contents.head? = some x := by
  obtain ⟨x, xs, hx⟩ := exists_cons_of_ne_nil ht.contents_ne_nil
  exact ⟨x, by rw [hx]; rfl⟩

theorem NodeAt.leadsTo (hn : NodeAt plat file pos ts) (hp : ∀ t ∈ ts, t.Proper)
    (hx : (ts.flatMap Node.contents).head? = some x) : LeadsTo plat file x pos := by
  induction h generalizing pos with
  | zero =>
    obtain ⟨its, hst, hfit, hits⟩ := hn
    cases hits with
    | nil => simp at hx
    | @cons e t its ts ht _ =>
      obtain rfl : e = x := (show t = e from ht) ▸ Option.some.inj hx
      exact .leaf hst hfit
  | succ h ih =>
    obtain ⟨its, hst, hfit, hits⟩ := hn
    cases hits with
    | nil => simp at hx
    | @cons e t its ts ht _ =>
      have htp := hp t (.head _)
      obtain ⟨y, hy⟩ := htp.exists_head
      rw [flatMap_cons, List.head?_append, hy] at hx
      cases hx
      exact .interior hst hfit (ih ht.2.2 htp.2.1 hy)

end LeadsTo

def Pointed (i : Item) : Prop :=
  ∃ ptr, i = encodePointer ptr ∧ ptr.pointer < 2 ^ 48 ∧ ptr.reduceValue.length ≤ 500 ∧
    ptr.key.length < 2 ^ 12

theorem Pointed.fits {i : Item} (hi : Pointed i) : Fits (i.key, i.data) := by
  obtain ⟨ptr, rfl, -, hred, hkey⟩ := hi
  have hdata := length_encodeRawPointer ptr
  exact ⟨hkey, by simp only [encodePointer]; omega⟩

theorem sum_size_le_of_pointed {is : List Item} (h : ∀ i ∈ is, Pointed i) :
    (is.map Item.size).sum ≤ (is.map fun i => pointerSize i.key).sum := by
  refine sum_le_sum fun i hi => ?_
  obtain ⟨ptr, rfl, -, hred, -⟩ := h i hi
  simp only [Item.size, encodePointer, length_encodeRawPointer, pointerSize, maxPointerData]
  omega

/-- Pointers to nodes, the first of which leads to `x`. -/
structure Trail (plat : Platform) (file : TreeFile) (x : Bytes × Bytes) (is : List Item) : Prop where
  pointed : ∀ i ∈ is, Pointed i
  first : ∃ i, is.head? = some i ∧ LeadsTo plat file x (pointerOf i.data)
  size : (is.map fun i => pointerSize i.key).sum < chunkLimit

structure Modres.Lined (mr : Modres) : Prop extends mr.Loose where
  modified : mr.modified = true
  nodeLen : mr.nodeLen = (mr.values.map Item.size).sum

section Trail
variable {τ β : Type*} {rq : Request τ β} {x : Bytes × Bytes} {mr mr' : Modres} {env env' : Env τ}
  {rest : List Item}

section Node
variable {written : List Item} {file : TreeFile} {pos : ℕ} (size : ℕ)
  (hw : ∀ i ∈ written, Pointed i) (hne : written ≠ []) (hpos : pos < 2 ^ 48)
include hw hne hpos

theorem pointed_pointerTo : Pointed (encodePointer (rq.pointerTo .kp written pos size)) := by
  refine ⟨_, rfl, hpos, rq.length_reduceItems_le .kp written, ?_⟩
  rw [Request.pointerTo, List.getLast?_eq_getLast_of_ne_nil hne]
  exact (hw _ (getLast_mem hne)).fits.1

theorem leadsTo_pointerTo (hst : Stored rq.plat file pos (nodeBuf .kp written))
    (hx : ∃ i, written.head? = some i ∧ LeadsTo rq.plat file x (pointerOf i.data)) :
    LeadsTo rq.plat file x
      (pointerOf (encodePointer (rq.pointerTo .kp written pos size)).data) := by
  obtain ⟨i, hi, hx⟩ := hx
  obtain ⟨is, rfl⟩ := List.head?_eq_some_iff.mp hi
  have hnode : nodeBuf .kp (i :: is) = nodeBytes 1 ((i :: is).map fun i => (i.key, i.data)) :=
    nodeBuf_eq_nodeBytes 1 (i :: is)
  have hptr : pointerOf (encodePointer (rq.pointerTo .kp (i :: is) pos size)).data = pos :=
    pointerOf_encodeRawPointer (rq.length_reduceItems_le .kp (i :: is)) hpos
  rw [hnode] at hst
  rw [hptr]
  refine .interior hst ?_ hx
  simpa using fun i hi => (hw i hi).fits

end Node

theorem flushMrPartial_trail {q : UInt64} (hl : mr.Lined)
    (ht : Trail rq.plat env.file x (mr.pointers ++ (mr.values ++ rest)))
    (hq : mr.values ≠ [] → 0 < q) (hfl : flushMrPartial rq mr q env = (.success, mr', env')) :
    mr'.Lined ∧ Trail rq.plat env'.file x (mr'.pointers ++ (mr'.values ++ rest)) := by
  obtain ⟨-, -, rfl, rfl⟩ | ⟨-, he, -⟩ |
    ⟨written, rest', pos, size, file, hne, -, htake, hwr, -, rfl, rfl⟩ := flushMrPartial_cases hfl
  · exact ⟨hl, ht⟩
  · cases he
  have hgrows : env.file.Grows file := (dbWriteBuf_appends hwr).grows
  have happ : written ++ rest' = mr.values := by
    simpa only [htake] using flushTake_append mr.nodeType mr.values q 0
  have hwne : written ≠ [] := by
    have htake' : (flushTake mr.nodeType mr.values q 0).1 ≠ [] := flushTake_ne_nil (hq hne) hne
    rwa [htake] at htake'
  have hw := ht.size
  rw [← happ] at ht hw
  simp only [map_append, sum_append] at hw
  have hwp (i : Item) (hi : i ∈ written) : Pointed i := ht.pointed i (by simp [hi])
  have hsize := sum_size_le_of_pointed hwp
  obtain ⟨hst, hpos⟩ := dbWriteBufCompressed_stored (by rw [length_nodeBuf]; omega) hwr
  rw [hl.nodeType] at hst ⊢
  have hpt : Pointed (encodePointer (rq.pointerTo .kp written pos size)) :=
    pointed_pointerTo size hwp hwne (by omega)
  obtain ⟨j, js, hj⟩ := exists_cons_of_ne_nil hwne
  refine ⟨⟨⟨rfl, ?_⟩, hl.modified, ?_⟩, fun i hi => ?_, ?_, ?_⟩
  · have hcount := hl.count_le
    rw [← happ, length_append] at hcount
    dsimp only
    omega
  · dsimp only
    rw [hl.nodeLen, length_nodeBuf, ← happ, map_append, sum_append]
    omega
  · simp only [mem_append, mem_singleton] at hi
    obtain (hi | rfl) | hi | hi := hi
    · exact ht.pointed i (by simp [hi])
    · exact hpt
    · exact ht.pointed i (by simp [hi])
    · exact ht.pointed i (by simp [hi])
  · obtain ⟨i, hi, hx⟩ := ht.first
    cases hp : mr.pointers with
    | nil =>
      rw [hp, hj] at hi
      exact ⟨_, rfl, leadsTo_pointerTo size hwp hwne (by omega) hst
        ⟨i, by rw [hj]; exact hi, hx.mono hgrows⟩⟩
    | cons p ps =>
      rw [hp] at hi
      exact ⟨i, hi, hx.mono hgrows⟩
  · have hle : pointerSize (rq.pointerTo .kp written pos size).key ≤
        (written.map fun i => pointerSize i.key).sum := by
      rw [Request.pointerTo, List.getLast?_eq_getLast_of_ne_nil hwne]
      exact le_sum_of_mem (mem_map_of_mem (f := fun i : Item => pointerSize i.key)
        (getLast_mem hwne))
    simp only [map_append, map_cons, map_nil, sum_append, sum_singleton]
    change _ + pointerSize (rq.pointerTo .kp written pos size).key + _ < _
    omega

theorem flushMr_quota (hl : mr.Lined)
    (ht : Trail rq.plat env.file x (mr.pointers ++ (mr.values ++ rest))) :
    (mr.values.map Item.size).sum < 2 ^ 64 ∧ (mr.values ≠ [] → 0 < UInt64.ofNat mr.nodeLen) := by
  have hw := ht.size
  have hsize := sum_size_le_of_pointed fun i (hi : i ∈ mr.values) => ht.pointed i (by simp [hi])
  simp only [map_append, sum_append, chunkLimit] at hw
  refine ⟨by omega, fun hne => ?_⟩
  obtain ⟨i, is, hv⟩ := exists_cons_of_ne_nil hne
  rw [hl.nodeLen, UInt64.lt_iff_toNat_lt, UInt64.toNat_ofNat', Nat.mod_eq_of_lt (by omega), hv]
  simp [Item.size]

theorem flushMr_trail (hl : mr.Lined) (ht : Trail rq.plat env.file x (mr.pointers ++ mr.values))
    (hfl : flushMr rq mr env = (.success, mr', env')) :
    mr'.Lined ∧ mr'.values = [] ∧ Trail rq.plat env'.file x mr'.pointers := by
  have ht' : Trail rq.plat env.file x (mr.pointers ++ (mr.values ++ [])) := by simpa using ht
  obtain ⟨hlt, hq⟩ := flushMr_quota hl ht'
  obtain ⟨hl', ht''⟩ := flushMrPartial_trail hl ht' hq hfl
  have hv : mr'.values = [] := by
    obtain ⟨hn, -, rfl, -⟩ | ⟨-, he, -⟩ | ⟨written, rest, _, _, _, -, -, htake, -, -, -, rfl⟩ :=
      flushMrPartial_cases hfl
    · simpa [hl.modified] using hn
    · cases he
    · rw [hl.nodeLen, flushTake_all _ _ hlt, Prod.mk.injEq] at htake
      exact htake.2.symm
  rw [hv] at ht''
  exact ⟨hl', hv, by simpa using ht''⟩

theorem moveLoop_trail (hcomp : rq.compacting = false) {is : List Item} (hl : mr.Lined)
    (ht : Trail rq.plat env.file x (mr.pointers ++ (mr.values ++ is)))
    (hm : moveLoop rq is mr env = (.success, mr', env')) :
    mr'.Lined ∧ Trail rq.plat env'.file x (mr'.pointers ++ mr'.values) := by
  induction is generalizing mr env with
  | nil =>
    cases hm
    exact ⟨hl, by simpa using ht⟩
  | cons i is ih =>
    rcases hp : pushValue rq i mr env with ⟨e1, mr1, env1⟩
    simp only [moveLoop, hp] at hm
    split_ifs at hm with he
    · subst he
      have hpush : Modres.Lined { mr with
          values := mr.values ++ [i], nodeLen := mr.nodeLen + i.size, count := mr.count + 1 } :=
        ⟨⟨hl.nodeType, by simpa using hl.count_le⟩, hl.modified, by simp [hl.nodeLen]⟩
      have ht' : Trail rq.plat env.file x (mr.pointers ++ ((mr.values ++ [i]) ++ is)) := by
        simpa using ht
      simp only [pushValue, maybeFlush, hcomp, Bool.false_eq_true, if_false] at hp
      split_ifs at hp
      · obtain ⟨hl1, ht1⟩ := flushMrPartial_trail hpush ht' (fun _ => by decide) hp
        exact ih hl1 ht1 hm
      · cases hp
        exact ih hpush ht' hm
    · exact absurd (Prod.mk.inj hm).1 he

theorem flushMr_span {q : UInt64} (hfl : flushMrPartial rq mr q env = (.success, mr', env')) :
    2 * mr'.pointers.length ≤ mr.span + 1 := by
  obtain ⟨-, -, rfl, -⟩ | ⟨-, he, -⟩ | ⟨_, _, _, _, _, hne, -, -, -, -, -, rfl⟩ :=
    flushMrPartial_cases hfl
  · unfold Modres.span
    omega
  · cases he
  · have := length_pos_of_ne_nil hne
    simp only [Modres.span, length_append, length_singleton]
    omega

theorem rootLoop_trail (hcomp : rq.compacting = false) {fuel : ℕ} {collector : Modres}
    {root : Option NodePointer} {e : Errcode} (hl : mr.Lined) (hv : mr.values = [])
    (ht : Trail rq.plat env.file x mr.pointers) (hc : collector.Lined)
    (hcv : collector.values = []) (hcp : collector.pointers = []) (hfuel : mr.pointers.length ≤ fuel)
    (hr : rootLoop rq fuel mr collector env = (e, root, env')) (he : e ≠ .write) :
    e = .success ∧ ∃ ptr, root = some ptr ∧ LeadsTo rq.plat env'.file x ptr.pointer := by
  obtain ⟨j, hj, hx⟩ := ht.first
  induction fuel generalizing mr collector env j with
  | zero => simp [length_eq_zero_iff.mp (Nat.le_zero.mp hfuel)] at hj
  | succ fuel ih =>
    obtain ⟨rfl, i, hi, rfl, rfl⟩ | ⟨hmany, col1, env1, col2, env2, hm, hfl, hr⟩ := rootLoop_step hr he
    · rw [hi] at hj
      obtain rfl : i = j := Option.some.inj hj
      obtain ⟨ptr, rfl, hpos, hred, -⟩ := ht.pointed i (by simp [hi])
      exact ⟨rfl, ptr, rfl, by rwa [encodePointer, pointerOf_encodeRawPointer hred hpos] at hx⟩
    · obtain ⟨hl1, ht1⟩ := moveLoop_trail hcomp hc (by simpa [hcv, hcp] using ht) hm
      obtain ⟨hl2, hv2, ht2⟩ := flushMr_trail hl1 ht1 hfl
      have hc' : Modres.Lined { mr with pointers := [] } :=
        ⟨⟨hl.nodeType, hl.count_le⟩, hl.modified, hl.nodeLen⟩
      -- a level of two or more pointers shrinks
      have hspan := moveLoop_span hcomp hc.toLoose hm
      have hlen := flushMr_span hfl
      have htwo : mr.pointers.length ≠ 1 := fun h => (length_eq_one_iff.mp h).elim hmany
      simp only [Modres.span, hcv, hcp, length_nil] at hspan hlen
      obtain ⟨j', hj', hx'⟩ := ht2.first
      exact ih hl2 hv2 ht2 hc' hv rfl (by omega) hr j' hj' hx'

end Trail

/-- No tree under the root, now or when the file has grown, has the bindings `m`. -/
def Damaged (plat : Platform) (file : TreeFile) (root : Option NodePointer) (m : Bindings) : Prop :=
  ∀ file', file.Grows file' → ∀ t, TreeAt plat file' root t → t.contents ≠ m

section Damaged
variable {plat : Platform} {file : TreeFile} {root : Option NodePointer} {m m' : Bindings}

theorem damaged_of_rootShows {N : Note} (hr : RootShows N plat file root m') (hne : m' ≠ m) :
    Damaged plat file root m := by
  intro file' hg t hat hcont
  obtain ⟨t', hat', hcont', -⟩ := hr
  exact hne (by rw [← hcont', ← hcont, (hat'.treeAt.mono hg).contents_eq hat])

theorem damaged_of_leadsTo {x : Bytes × Bytes} {ptr : NodePointer}
    (hx : LeadsTo plat file x ptr.pointer) (hne : m.head? ≠ some x) :
    Damaged plat file (some ptr) m := by
  intro file' hg t hat hcont
  match t, hat with
  | .root h ts, hat => exact hne (hcont ▸ (hx.mono hg).head_eq hat)

end Damaged

section Loss
variable {τ β : Type*} {rq : Request τ β} {N : Note} [N.Lawful rq] {h w : ℕ} {m : Bindings}
  {mr : Modres} {env env' : Env τ} {root : Option NodePointer}

section
variable {plat : Platform} {file : TreeFile} {t : Node (h + 1)}

theorem ItemShows.pointed {i : Item} (hi : ItemShows N plat file i t) : Pointed i := by
  obtain ⟨ptr, rfl, hpos, hred, -⟩ := hi.carried
  exact ⟨ptr, rfl, hpos, hred, hi.fits.1⟩

theorem ItemShows.leadsTo {i : Item}
    {x : Bytes × Bytes} (hi : ItemShows N plat file i t) (hx : t.contents.head? = some x) :
    LeadsTo plat file x (pointerOf i.data) :=
  NodeAt.leadsTo hi.shown.shows.2.2 hi.proper.2.1 hx

theorem pointed_of_itemShows {is : List Item}
    {ts : List (Node (h + 1))} (hts : List.Forall₂ (ItemShows N plat file) is ts) :
    ∀ i ∈ is, Pointed i := by
  induction hts with
  | nil => simp
  | cons hi _ ih => exact forall_mem_cons.mpr ⟨hi.pointed, ih⟩

end

omit [N.Lawful rq] in
theorem head_ne_of_sorted [ReflCmp rq.cmp] {a b : Bindings} {x : Bytes × Bytes}
    (hs : Sorted rq.cmp (a ++ b)) (ha : a ≠ []) (hx : b.head? = some x) :
    (a ++ b).head? ≠ some x := by
  obtain ⟨y, ys, rfl⟩ := exists_cons_of_ne_nil ha
  rw [cons_append] at hs ⊢
  intro hy
  obtain rfl : y = x := Option.some.inj hy
  have hlt := (pairwise_cons.mp hs).1 y (mem_append_right _ (mem_of_mem_head? hx))
  rw [show rq.cmp y.1 y.1 = .eq from ReflCmp.compare_self] at hlt
  cases hlt

theorem contents_ne_nil_of_itemShows {plat : Platform} {file : TreeFile} {is : List Item}
    {ts : List (Node h)} (hts : List.Forall₂ (ItemShows N plat file) is ts) (hne : is ≠ []) :
    ts.flatMap Node.contents ≠ [] := by
  cases hts with
  | nil => exact absurd rfl hne
  | cons hi _ =>
    intro hnil
    rw [flatMap_cons] at hnil
    exact hi.proper.contents_ne_nil (append_eq_nil_iff.mp hnil).1

variable {root' : Option NodePointer} {e : Errcode} {acts : List (Action β)}

/-- A first flush of `finish_root` that fails when there are nodes already: if no later write
fails, the call reports success and the tree is damaged. -/
theorem finishRoot_damaged [ReflCmp rq.cmp] (hcomp : rq.compacting = false)
    (hc : Collects N rq.plat env.file (h + 1) mr m w) (hw : w < chunkLimit)
    (hmod : mr.modified = true) (hs : Sorted rq.cmp m) (hbad : ¬ RootFlushed rq mr env)
    (hr : finishRoot rq mr env = (e, root, env')) (hne : e ≠ .write) :
    e = .success ∧ env'.ctx = env.ctx ∧ Damaged rq.plat env'.file root m := by
  rw [rootFlushed_iff] at hbad
  obtain ⟨hp, hfail⟩ := not_or.mp hbad
  rcases hfl : flushMr rq mr env with ⟨e1, mr1, env1⟩
  rw [hfl] at hfail
  simp only [finishRoot, hfl] at hr
  have hctx := (rootLoop_ctx hr hne).trans (flushMrPartial_ctx hfl)
  have hv : mr.values ≠ [] := fun hnil => hfail (by rw [flushMr_of_nil hnil] at hfl; cases hfl; rfl)
  obtain ⟨-, he, -⟩ | ⟨-, -, hg, -, rfl⟩ | ⟨_, _, _, _, _, -, -, -, -, he, -⟩ :=
    flushMrPartial_cases hfl
  · exact absurd he hfail
  · obtain ⟨ps, vs, hps, hvs, rfl⟩ := (hc.mono hg.grows).holds
    have hsize : (mr.values.map fun i => pointerSize i.key).sum +
      (mr.pointers.map (Item.weight · (h + 1 + 1))).sum ≤ w := hc.weight
    have hlost : ps.flatMap Node.contents ≠ ps.flatMap Node.contents ++ vs.flatMap Node.contents := by
      simpa using contents_ne_nil_of_itemShows hvs hv
    have hfr : Fresh { makeModres .kp with modified := true } := ⟨rfl, rfl, rfl, rfl, rfl, rfl⟩
    obtain ⟨rfl, i, hi, rfl, rfl⟩ | ⟨-, col1, env2, col2, env3, hm, hfl1, hr⟩ := rootLoop_step hr hne
    · -- one node: the values are gone
      obtain ⟨t, ts, ht, hts, rfl⟩ := forall₂_cons_left_iff.mp ((show mr.pointers = [i] from hi) ▸ hps)
      obtain rfl := forall₂_nil_left_iff.mp hts
      exact ⟨rfl, hctx, damaged_of_rootShows (by simpa using rootShows_of_item ht) hlost⟩
    have hkm := moveLoop_spec (hfr.collects N rq.plat env1.file (h + 1)) hps
      (by omega) hm (.inl rfl)
    rw [nil_append, Nat.zero_add] at hkm
    obtain ⟨hk, hval, -, -⟩ := flushMr_spec hkm.collects (by omega) hfl1
    have hv2 := hval rfl (hkm.modified.trans rfl)
    obtain ⟨rfl, i, hi, rfl, rfl⟩ | ⟨-, col3, env4, col4, env5, hm1, hfl2, hr⟩ := rootLoop_step hr hne
    · -- several nodes, but one above them
      exact ⟨rfl, hctx, damaged_of_rootShows (hk.collects.toGathers.rootShows_pointer hv2 hi) hlost⟩
    · -- the values come first in the level above
      have hg2 : env1.file.Grows env3.file :=
        (moveLoop_advances hm).grows.trans (flushMr_advances hfl1).grows
      obtain ⟨qs, -, hqs, -, -⟩ := hk.collects.holds
      have hkw : (col2.pointers.map fun i => pointerSize i.key).sum ≤
        (mr.pointers.map (Item.weight · (h + 1 + 1))).sum := hk.collects.handed_le
      obtain ⟨j, js, hj⟩ := exists_cons_of_ne_nil hv
      have hvs2 := hvs.imp fun _ _ hi => hi.mono hg2
      obtain ⟨v, vs, hvi, -, rfl⟩ := forall₂_cons_left_iff.mp (hj ▸ hvs2)
      obtain ⟨x, hx⟩ := hvi.proper.exists_head
      have ht : Trail rq.plat env3.file x ([] ++ (mr.values ++ col2.pointers)) := by
        refine ⟨fun i hi => ?_, ⟨j, by rw [hj]; rfl, hvi.leadsTo hx⟩, ?_⟩
        · obtain hi | hi := mem_append.mp (nil_append _ ▸ hi)
          · exact pointed_of_itemShows hvs2 i hi
          · exact pointed_of_itemShows hqs i hi
        · rw [nil_append, map_append, sum_append]
          omega
      have hold : Modres.Lined { mr with
          count := mr.count - (flushTake mr.nodeType mr.values (UInt64.ofNat mr.nodeLen) 0).1.length
          pointers := [] } := ⟨⟨hc.nodeType, by have := hc.count_le; dsimp only; omega⟩, hmod, hc.nodeLen⟩
      obtain ⟨hl3, ht3⟩ := moveLoop_trail hcomp hold ht hm1
      obtain ⟨hl4, hv4, ht4⟩ := flushMr_trail hl3 ht3 hfl2
      have hnext : Modres.Lined { col2 with pointers := [] } :=
        ⟨⟨hk.collects.nodeType, hk.collects.count_le⟩, hk.modified.trans hkm.modified,
          hk.collects.nodeLen⟩
      have hspan1 := moveLoop_span hcomp hfr.loose hm
      have hspan3 := moveLoop_span hcomp hold.toLoose hm1
      have hlen2 := flushMr_span hfl1
      have hlen4 := flushMr_span hfl2
      simp only [Modres.span, makeModres, length_nil] at hspan1 hspan3 hlen2 hlen4
      obtain ⟨he, ptr, rfl, hleads⟩ :=
        rootLoop_trail hcomp hl4 hv4 ht4 hnext hv2 rfl (by dsimp only; omega) hr hne
      refine ⟨he, hctx, damaged_of_leadsTo hleads
        (head_ne_of_sorted hs (contents_ne_nil_of_itemShows hps hp) ?_)⟩
      rw [flatMap_cons, List.head?_append, hx]
      rfl
  · exact absurd he hfail

/-- `modify_btree` as a whole: a failed flush that is not made up for is reported with a later
error, or it leaves no tree with the edited bindings. -/
theorem modifyBtree_damaged [TransCmp rq.cmp] (hcomp : rq.compacting = false) {t : Tree} {fuel : ℕ}
    (hat : TreeNoted N rq.plat env.file root t) (hwf : t.WellFormed rq.cmp)
    (hb : Batch rq.cmp acts) (hlight : t.Light rq.cmp acts) (hfuel : t.height < fuel)
    (hbad : ¬ TopFlushed rq fuel root acts env)
    (hm : modifyBtree rq fuel root acts env = (e, root', env')) (he : e ≠ .write) :
    e = .success ∧ env'.ctx = fetchAll rq t.contents acts env.ctx ∧
      Damaged rq.plat env'.file root' (edit rq.cmp t.contents (acts.map Action.edit)) := by
  unfold TopFlushed at hbad
  push Not at hbad
  obtain ⟨mr, env1, hn, hbad⟩ := hbad
  obtain ⟨-, hctx, ⟨hmod, -, h, hc⟩ | ⟨hmod, -⟩⟩ :=
    modifyTop_spec hat hwf hb.ordered hlight hfuel hn (.inl rfl)
  · have hmany : mr.count > 1 ∨ mr.pointers ≠ [] := .inr (not_or.mp hbad).1
    simp only [modifyBtree, hn, hmod, hmany, ne_eq, not_true_eq_false, if_false, if_true] at hm
    obtain ⟨hsucc, hctx', hdam⟩ :=
      finishRoot_damaged hcomp hc hlight.pointers hmod (sorted_edit hwf.sorted hb.order) hbad hm he
    exact ⟨hsucc, hctx'.trans (hctx hb.order), hdam⟩
  · exact absurd (.inr (.inl (.inr hmod))) hbad

/-- The bound on the recursion is never met, whatever fails. -/
theorem modifyBtree_returns [TransCmp rq.cmp] (hcomp : rq.compacting = false) {t : Tree} {fuel : ℕ}
    (hat : TreeNoted N rq.plat env.file root t) (hwf : t.WellFormed rq.cmp)
    (hb : Batch rq.cmp acts) (hlight : t.Light rq.cmp acts) (hfuel : t.height < fuel)
    (hm : modifyBtree rq fuel root acts env = (e, root', env')) (he : e = .success ∨ e = .depth) :
    e = .success ∧ env'.ctx = fetchAll rq t.contents acts env.ctx := by
  by_cases hflush : TopFlushed rq fuel root acts env
  · obtain ⟨hsucc, hctx, -⟩ :=
      modifyBtree_passed hcomp hat hwf hb hlight hfuel hflush hm (he.imp_right .inl)
    exact ⟨hsucc, hctx⟩
  · have hne : e ≠ .write := by rcases he with rfl | rfl <;> exact nofun
    obtain ⟨hsucc, hctx, -⟩ := modifyBtree_damaged hcomp hat hwf hb hlight hfuel hflush hm hne
    exact ⟨hsucc, hctx⟩

end Loss

end Appstack.Couchstore
