import Appstack.Couchstore.BtreeBuild
import Appstack.Couchstore.Compare
import Appstack.Couchstore.Framing

namespace Appstack.Couchstore

open List

variable {τ β : Type*} {rq : Request τ β} {mr mr' : Modres} {env env' : Env τ} {e : Errcode}

/-- A result whose length and count are those of its values, to be written as interior nodes. -/
structure Modres.Tidy (mr : Modres) : Prop where
  modified : mr.modified = true
  nodeType : mr.nodeType = .kp
  nodeLen : mr.nodeLen = (mr.values.map Item.size).sum
  count : mr.count = mr.values.length

/-- The pointers that each round of `rootLoop` leaves. -/
def rootRounds (rq : Request τ β) : ℕ → Modres → Modres → Env τ → List (List Item)
  | 0, _, _, _ => []
  | fuel + 1, rootResult, collector, env =>
    match rootResult.pointers with
    | [_] => []
    | _ =>
      let (errcode, rootResult, collector, env) := mrMovePointers rq rootResult collector env
      if errcode ≠ .success then []
      else
        let (errcode, collector, env) := flushMr rq collector env
        if errcode ≠ .success then []
        else collector.pointers :: rootRounds rq fuel collector rootResult env

/-- The pointers that the loop of `finish_root` starts from, and those that each round leaves. -/
def rootLevels (rq : Request τ β) (rootResult : Modres) (env : Env τ) : List (List Item) :=
  let collector := { makeModres .kp with modified := true }
  let (_, rootResult, env) := flushMr rq rootResult env
  rootResult.pointers :: rootRounds rq
    (rootResult.pointers.length + rootResult.values.length + 3) rootResult collector env

/-- A build finds a pointer in front of the last one that does not fill a node by itself, with its
key and its reduce value. -/
def Fitting (rq : Request τ β) (is : List Item) : Prop :=
  rq.compacting = true → ∃ i ∈ is.dropLast, i.size ≤ chunkSize

instance (rq : Request τ β) (is : List Item) : Decidable (Fitting rq is) :=
  inferInstanceAs (Decidable (_ → _))

def Written (rq : Request τ β) (c : List Item) (p : Item) : Prop :=
  ∃ pos size, p = encodePointer (rq.pointerTo .kp c pos size)

/-- A node that did not wait for further items. -/
def Full (rq : Request τ β) (c : List Item) : Prop :=
  if rq.compacting then chunkSize < (c.map Item.size).sum else 2 ≤ c.length

/-- A node of a build is long by its last item only. -/
def Tight (rq : Request τ β) (c : List Item) : Prop :=
  rq.compacting = true → (c.dropLast.map Item.size).sum ≤ chunkSize

theorem Full.ne_nil {c : List Item} (h : Full rq c) : c ≠ [] := by
  rintro rfl
  rw [Full] at h
  split_ifs at h
  · exact absurd h (Nat.not_lt_zero _)
  · exact absurd h (by decide)

theorem flushMr_tidy (ht : mr.Tidy) (hsize : (mr.values.map Item.size).sum < 2 ^ 64)
    (hfl : flushMr rq mr env = (e, mr', env')) (hf : env'.failed = false) :
    e = .success ∧ mr'.Tidy ∧ mr'.values = [] ∧ (mr.values = [] ∧ mr'.pointers = mr.pointers ∨
        mr.values ≠ [] ∧ ∃ p, Written rq mr.values p ∧ mr'.pointers = mr.pointers ++ [p]) := by
  obtain ⟨hn, rfl, rfl, -⟩ | ⟨hf', -⟩ | ⟨written, rest, pos, size, _, hne, -, htake, -, rfl, -, rfl⟩ :=
    flushMrPartial_cases hfl
  · have hnil : mr'.values = [] := hn.resolve_right (by simp [ht.modified])
    exact ⟨rfl, ht, hnil, .inl ⟨hnil, rfl⟩⟩
  · rw [hf'] at hf
    cases hf
  · rw [ht.nodeLen, flushTake_all _ _ hsize] at htake
    cases htake
    refine ⟨rfl, ⟨ht.modified, ht.nodeType, ?_, ?_⟩, rfl, .inr ⟨hne, _, ⟨pos, size, ?_⟩, rfl⟩⟩
    · simp [length_nodeBuf, ht.nodeLen]
    · simp [ht.count]
    · rw [ht.nodeType]

/-- The items `is` have been passed to a result that was empty. -/
structure Packing (rq : Request τ β) (is : List Item) (mr : Modres) : Prop extends mr.Tidy where
  small : rq.compacting = true → mr.nodeLen ≤ chunkSize
  packed : ∃ cs : List (List Item), cs.flatten ++ mr.values = is ∧
    List.Forall₂ (Written rq) cs mr.pointers ∧ ∀ c ∈ cs, Full rq c ∧ Tight rq c

def Round (rq : Request τ β) (is ps : List Item) : Prop :=
  ∃ cs : List (List Item), cs.flatten = is ∧ List.Forall₂ (Written rq) cs ps ∧
    (∀ c ∈ cs, c ≠ [] ∧ Tight rq c) ∧ ∀ c ∈ cs.dropLast, Full rq c

theorem pushValue_packing {is : List Item} {i : Item} (hp : Packing rq is mr)
    (hsize : ((is ++ [i]).map Item.size).sum < 2 ^ 64)
    (h : pushValue rq i mr env = (e, mr', env')) (hf : env'.failed = false) :
    e = .success ∧ Packing rq (is ++ [i]) mr' := by
  obtain ⟨cs, hcs, hw, hfull⟩ := hp.packed
  have htidy : Modres.Tidy { mr with
      values := mr.values ++ [i], nodeLen := mr.nodeLen + i.size, count := mr.count + 1 } :=
    ⟨hp.modified, hp.nodeType, by simp [hp.nodeLen], by simp [hp.count]⟩
  have hvals : ((mr.values ++ [i]).map Item.size).sum < 2 ^ 64 := by
    subst hcs
    simp only [map_append, sum_append] at hsize ⊢
    omega
  have hall : cs.flatten ++ (mr.values ++ [i]) = is ++ [i] := by rw [← append_assoc, hcs]
  rw [pushValue, maybeFlush] at h
  by_cases hcomp : rq.compacting = true
  · rw [if_pos hcomp] at h
    split_ifs at h with hlong
    · obtain ⟨he, htidy', hnil, ⟨hv, -⟩ | ⟨-, p, hpw, hps⟩⟩ := flushMr_tidy htidy hvals h hf
      · exact absurd hv (by simp)
      · refine ⟨he, htidy', fun _ => ?_, cs ++ [mr.values ++ [i]], ?_, ?_, ?_⟩
        · rw [htidy'.nodeLen, hnil]
          exact Nat.zero_le _
        · rw [hnil, flatten_append, flatten_singleton, append_nil, hall]
        · rw [hps]
          exact rel_append hw (.cons hpw .nil)
        · refine forall_mem_append.mpr ⟨hfull, forall_mem_singleton.mpr ⟨?_, fun _ => ?_⟩⟩
          · rw [Full, if_pos hcomp, ← htidy.nodeLen]
            exact hlong.2
          · rw [dropLast_concat, ← hp.nodeLen]
            exact hp.small hcomp
    · cases h
      refine ⟨rfl, htidy, fun _ => ?_, cs, hall, hw, hfull⟩
      exact Nat.not_lt.mp fun hlt => hlong ⟨hp.modified, hlt⟩
  · rw [if_neg hcomp] at h
    have htight (c : List Item) : Tight rq c := fun h => absurd h hcomp
    split_ifs at h with hlong
    · obtain ⟨hn, -⟩ | ⟨hf', -⟩ | ⟨written, rest, pos, size, _, -, -, htake, -, rfl, -, rfl⟩ :=
        flushMrPartial_cases h
      · exact absurd hn (by simp [hp.modified])
      · rw [hf'] at hf
        cases hf
      · have hlen := htidy.count
        have happ := flushTake_append mr.nodeType (mr.values ++ [i]) (UInt64.ofNat chunkSize) 0
        have htwo : 2 ≤ (flushTake .kp (mr.values ++ [i]) (UInt64.ofNat chunkSize) 0).1.length :=
          two_le_flushTake (by dsimp only at hlong hlen; omega) _
        rw [← hp.nodeType, htake] at htwo
        rw [htake] at happ
        dsimp only at htwo happ hlen
        refine ⟨rfl, ⟨hp.modified, hp.nodeType, ?_, ?_⟩, fun h => absurd h hcomp, cs ++ [written],
          ?_, ?_, ?_⟩
        · have hsum := htidy.nodeLen
          dsimp only at hsum ⊢
          rw [← happ, map_append, sum_append] at hsum
          rw [length_nodeBuf]
          omega
        · dsimp only
          rw [hlen, ← happ, length_append]
          omega
        · rw [flatten_append, flatten_singleton, append_assoc, happ, hall]
        · exact rel_append hw (.cons ⟨pos, size, by rw [hp.nodeType]⟩ .nil)
        · refine forall_mem_append.mpr ⟨hfull, forall_mem_singleton.mpr ⟨?_, htight _⟩⟩
          rwa [Full, if_neg hcomp]
    · cases h
      exact ⟨rfl, htidy, fun h => absurd h hcomp, cs, hall, hw, hfull⟩

theorem moveLoop_packing {is js : List Item} (hp : Packing rq is mr)
    (hsize : ((is ++ js).map Item.size).sum < 2 ^ 64)
    (h : moveLoop rq js mr env = (e, mr', env')) (hf : env'.failed = false) :
    e = .success ∧ Packing rq (is ++ js) mr' := by
  induction js generalizing is mr env with
  | nil =>
    cases h
    exact ⟨rfl, by simpa using hp⟩
  | cons j js ih =>
    rcases hpush : pushValue rq j mr env with ⟨e1, mr1, env1⟩
    rw [append_cons] at hsize ⊢
    have hsize1 : ((is ++ [j]).map Item.size).sum < 2 ^ 64 := by
      rw [map_append, sum_append] at hsize
      omega
    simp only [moveLoop, hpush] at h
    split_ifs at h with he1
    · exact ih (pushValue_packing hp hsize1 hpush ((moveLoop_advances h).failed hf)).2 hsize h
    · cases h
      exact absurd (pushValue_packing hp hsize1 hpush hf).1 he1

theorem flushMr_packing {is : List Item} (hp : Packing rq is mr)
    (hsize : (is.map Item.size).sum < 2 ^ 64)
    (h : flushMr rq mr env = (e, mr', env')) (hf : env'.failed = false) :
    e = .success ∧ mr'.Tidy ∧ mr'.values = [] ∧ Round rq is mr'.pointers := by
  obtain ⟨cs, rfl, hw, hfull⟩ := hp.packed
  have hvals : (mr.values.map Item.size).sum < 2 ^ 64 := by
    rw [map_append, sum_append] at hsize
    omega
  have hne : ∀ c ∈ cs, c ≠ [] ∧ Tight rq c := fun c hc => ⟨(hfull c hc).1.ne_nil, (hfull c hc).2⟩
  obtain ⟨he, htidy, hnil, ⟨hv, hps⟩ | ⟨hv, p, hpw, hps⟩⟩ := flushMr_tidy hp.toTidy hvals h hf
  · refine ⟨he, htidy, hnil, cs, by rw [hv, append_nil], hps ▸ hw, hne, fun c hc => ?_⟩
    exact (hfull c (mem_of_mem_dropLast hc)).1
  · refine ⟨he, htidy, hnil, cs ++ [mr.values], by simp, hps ▸ rel_append hw (.cons hpw .nil), ?_, ?_⟩
    · refine forall_mem_append.mpr ⟨hne, forall_mem_singleton.mpr ⟨hv, fun hcomp => ?_⟩⟩
      have hsub := (dropLast_sublist mr.values).map Item.size
      have hle := hp.small hcomp
      rw [hp.nodeLen] at hle
      exact hsub.sum_le_sum (fun _ _ => Nat.zero_le _) |>.trans hle
    · rw [dropLast_concat]
      exact fun c hc => (hfull c hc).1

def Sized (r R : ℕ) (ps : List Item) : Prop :=
  ∀ p ∈ ps, ∃ ptr, p = encodePointer ptr ∧ r ≤ ptr.reduceValue.length ∧ ptr.reduceValue.length ≤ R

/-- The smallest and the largest size of the reduce values of interior nodes. -/
def Reduces (rq : Request τ β) (r R : ℕ) : Prop :=
  R ≤ 500 ∧ ∀ c, r ≤ (rq.reduceItems .kp c).length ∧ (rq.reduceItems .kp c).length ≤ R

/-- The room that a pointer with a key like that can take. -/
def Item.bound (i : Item) : ℕ := i.key.length + 519

section Lists
variable {α : Type*} {cs : List (List α)}

section
variable (hne : ∀ c ∈ cs, c ≠ [])
include hne

theorem dropLast_flatten :
    cs.flatten.dropLast = cs.dropLast.flatten ++ (cs.getLast?.getD []).dropLast := by
  rcases eq_nil_or_concat cs with rfl | ⟨cs, c, rfl⟩
  · rfl
  · simp [dropLast_append_of_ne_nil (hne c (by simp))]

theorem getLast_mem_dropLast {c : List α} (hc : c ∈ cs.dropLast) {x : α}
    (hx : c.getLast? = some x) : x ∈ cs.flatten.dropLast := by
  rw [dropLast_flatten hne]
  exact mem_append_left _ (mem_flatten_of_mem hc (mem_of_getLast? hx))

theorem exists_getLast_of_mem {x : α} (hx : x ∈ cs.flatten.dropLast)
    (hend : ∀ c ∈ cs, x ∉ c.dropLast) : ∃ c ∈ cs.dropLast, c.getLast? = some x := by
  rw [dropLast_flatten hne, mem_append, mem_flatten] at hx
  obtain ⟨c, hc, hx⟩ | hx := hx
  · have hmem := mem_of_mem_dropLast hc
    rw [← dropLast_append_getLast (hne c hmem), mem_append, mem_singleton] at hx
    exact ⟨c, hc, by rw [List.getLast?_eq_some_getLast (hne c hmem), hx.resolve_left (hend c hmem)]⟩
  · cases hlast : cs.getLast? with
    | none => simp [hlast] at hx
    | some c => exact absurd (by simpa [hlast] using hx) (hend c (mem_of_getLast? hlast))

theorem mem_flatten_dropLast {c : List α} (hc : c ∈ cs) {x : α}
    (hx : x ∈ c.dropLast) : x ∈ cs.flatten.dropLast := by
  rw [dropLast_flatten hne]
  rcases eq_nil_or_concat cs with rfl | ⟨cs, c', rfl⟩
  · cases hc
  · rw [concat_eq_append, mem_append, mem_singleton] at hc
    obtain hc | rfl := hc
    · exact mem_append_left _ (by simpa using ⟨c, hc, mem_of_mem_dropLast hx⟩)
    · exact mem_append_right _ (by simpa using hx)

theorem length_lt_flatten_iff : cs.length < cs.flatten.length ↔ ∃ c ∈ cs, 2 ≤ c.length := by
  have hle : ∀ cs : List (List α), (∀ c ∈ cs, c ≠ []) → cs.length ≤ cs.flatten.length := by
    intro cs hne
    rw [length_flatten, ← length_map (f := List.length)]
    refine length_le_sum_of_one_le _ ?_
    intro n hn
    obtain ⟨c, hc, rfl⟩ := mem_map.mp hn
    exact length_pos_of_ne_nil (hne c hc)
  induction cs with
  | nil => simp
  | cons c cs ih =>
    have hc := length_pos_of_ne_nil (hne c (.head _))
    have hcs := hle cs fun c hc => hne c (.tail _ hc)
    have ih := ih fun c hc => hne c (.tail _ hc)
    simp only [flatten_cons, length_append, length_cons, mem_cons, exists_eq_or_imp, ← ih]
    omega

end

section
variable {γ : Type*} {R : α → γ → Prop} {l : List α} {l' : List γ} (h : List.Forall₂ R l l')
include h

theorem forall₂_dropLast : List.Forall₂ R l.dropLast l'.dropLast := by
  rw [dropLast_eq_take, dropLast_eq_take, h.length_eq]
  exact forall₂_take _ h

theorem exists_of_forall₂ {b : γ} (hb : b ∈ l') : ∃ a ∈ l, R a b := by
  induction h with
  | nil => cases hb
  | cons hR _ ih =>
    obtain rfl | hb := mem_cons.mp hb
    · exact ⟨_, .head _, hR⟩
    · obtain ⟨a, ha, hR'⟩ := ih hb
      exact ⟨a, mem_cons_of_mem _ ha, hR'⟩

end

end Lists

section Round
variable {is ps : List Item} {r R : ℕ}

theorem size_encodePointer (ptr : NodePointer) :
    (encodePointer ptr).size = ptr.key.length + ptr.reduceValue.length + 19 := by
  simp only [encodePointer, Item.size, length_encodeRawPointer]
  omega

theorem Written.key {c : List Item} {p i : Item} (h : Written rq c p) (hi : c.getLast? = some i) :
    p.key = i.key := by
  obtain ⟨pos, size, rfl⟩ := h
  simp [encodePointer, Request.pointerTo, hi]

theorem exists_getLast {c : List Item} (h : c ≠ []) : ∃ i ∈ c, c.getLast? = some i :=
  ⟨c.getLast h, getLast_mem h, List.getLast?_eq_some_getLast h⟩

theorem Round.sized (h : Round rq is ps) (hr : Reduces rq r R) : Sized r R ps := by
  obtain ⟨cs, -, hw, -⟩ := h
  intro p hp
  obtain ⟨c, -, pos, size, rfl⟩ := exists_of_forall₂ hw hp
  exact ⟨_, rfl, hr.2 c⟩

theorem Round.bound_le (h : Round rq is ps) : (ps.map Item.bound).sum ≤ (is.map Item.bound).sum := by
  obtain ⟨cs, rfl, hw, hne, -⟩ := h
  induction hw with
  | nil => exact le_rfl
  | @cons c p cs ps hc _ ih =>
    obtain ⟨i, hi, hlast⟩ := exists_getLast (hne c (.head _)).1
    have hle : i.bound ≤ (c.map Item.bound).sum := le_sum_of_mem (mem_map_of_mem hi)
    have hrest := ih fun c hc => hne c (.tail _ hc)
    have hp : p.bound = i.bound := by rw [Item.bound, Item.bound, hc.key hlast]
    rw [map_cons, sum_cons, flatten_cons, map_append, sum_append]
    omega

theorem Sized.size_le (h : Sized r R is) (hR : R ≤ 500) :
    (is.map Item.size).sum ≤ (is.map Item.bound).sum := by
  refine sum_le_sum fun i hi => ?_
  obtain ⟨ptr, rfl, -, hle⟩ := h i hi
  rw [size_encodePointer, Item.bound]
  simp only [encodePointer]
  omega

/-- A round leaves fewer pointers unless each one fills a node of its own. -/
theorem Round.length_lt_iff (h : Round rq is ps) (htwo : 2 ≤ is.length) :
    ps.length < is.length ↔ Fitting rq is := by
  obtain ⟨cs, rfl, hw, hne, hfull⟩ := h
  have hne' : ∀ c ∈ cs, c ≠ [] := fun c hc => (hne c hc).1
  rw [← hw.length_eq, length_lt_flatten_iff hne']
  constructor
  · -- what stands before the last item of a node did not fill it
    rintro ⟨c, hc, hlen⟩ hcomp
    obtain ⟨x, hx⟩ := exists_mem_of_length_pos
      (l := c.dropLast) (by rw [length_dropLast]; omega)
    refine ⟨x, mem_flatten_dropLast hne' hc hx, ?_⟩
    exact (le_sum_of_mem (mem_map_of_mem hx)).trans ((hne c hc).2 hcomp)
  · intro hfit
    by_contra hone
    have hsingle : ∀ c ∈ cs, c.length = 1 := by
      intro c hc
      have := length_pos_of_ne_nil (hne' c hc)
      have := mt (fun h => ⟨c, hc, h⟩) hone
      omega
    by_cases hcomp : rq.compacting = true
    · obtain ⟨i, hi, hsize⟩ := hfit hcomp
      obtain ⟨c, hc, hlast⟩ := exists_getLast_of_mem hne' hi fun c hc hx => by
        have := length_pos_of_mem hx
        rw [length_dropLast, hsingle c hc] at this
        cases this
      have hf := hfull c hc
      obtain ⟨j, rfl⟩ := length_eq_one_iff.mp (hsingle c (mem_of_mem_dropLast hc))
      obtain rfl : j = i := Option.some.inj hlast
      rw [Full, if_pos hcomp] at hf
      exact absurd hf (by simpa using hsize)
    · -- an update has two pointers in the first of several nodes
      cases cs with
      | nil => exact absurd htwo (by simp)
      | cons c cs =>
        have hc := hsingle c (.head _)
        cases cs with
        | nil =>
          rw [flatten_singleton, hc] at htwo
          exact absurd htwo (by decide)
        | cons c1 cs =>
          have hf := hfull c (.head _)
          rw [Full, if_neg hcomp, hc] at hf
          exact absurd hf (by decide)

theorem Round.keys (h : Round rq is ps) {K : Bytes → Prop} (hk : ∀ i ∈ is.dropLast, K i.key) :
    ∀ p ∈ ps.dropLast, K p.key := by
  obtain ⟨cs, rfl, hw, hne, -⟩ := h
  intro p hp
  obtain ⟨c, hc, hcp⟩ := exists_of_forall₂ (forall₂_dropLast hw) hp
  have hne' : ∀ c ∈ cs, c ≠ [] := fun c hc => (hne c hc).1
  obtain ⟨i, -, hlast⟩ := exists_getLast (hne' c (mem_of_mem_dropLast hc))
  rw [hcp.key hlast]
  exact hk i (getLast_mem_dropLast hne' hc hlast)

/-- A build does not get rid of a long key in front of the last one. -/
theorem Round.long (h : Round rq is ps) (hcomp : rq.compacting = true) (hs : Sized r R is)
    (hk : ∃ i ∈ is.dropLast, chunkSize < i.key.length + r + 19) :
    ∃ p ∈ ps.dropLast, chunkSize < p.key.length + r + 19 := by
  obtain ⟨cs, rfl, hw, hne, -⟩ := h
  obtain ⟨i, hi, hlong⟩ := hk
  have hsize : chunkSize < i.size := by
    obtain ⟨ptr, rfl, hle, -⟩ := hs i (mem_of_mem_dropLast hi)
    rw [size_encodePointer]
    simp only [encodePointer] at hlong
    omega
  -- a node with the pointer in front of its last place would be too long before that
  have hend (c : List Item) (hc : c ∈ cs) (hic : i ∈ c.dropLast) : False := by
    have hle := (hne c hc).2 hcomp
    have := le_sum_of_mem (mem_map_of_mem (f := Item.size) hic)
    omega
  obtain ⟨c, hc, hlast⟩ := exists_getLast_of_mem (fun c hc => (hne c hc).1) hi hend
  have hflip : List.Forall₂ (flip (Written rq)) ps.dropLast cs.dropLast := (forall₂_dropLast hw).flip
  obtain ⟨p, hp, hcp⟩ := exists_of_forall₂ hflip hc
  have hcp' : Written rq c p := hcp
  exact ⟨p, hp, by rwa [hcp'.key hlast]⟩

end Round

/-- A level of the loop: its pointers have been written, and they fit into memory. -/
structure Stage (r R : ℕ) (mr : Modres) : Prop extends mr.Tidy where
  values : mr.values = []
  ne_nil : mr.pointers ≠ []
  sized : Sized r R mr.pointers
  room : (mr.pointers.map Item.bound).sum < 2 ^ 64

section Loop
variable {r R : ℕ} {collector : Modres} {root : Option NodePointer} {fuel : ℕ}

theorem Stage.fresh (h : Stage r R mr) : Fresh { mr with pointers := [] } :=
  ⟨h.modified, h.nodeType, h.values, rfl, by simp [h.nodeLen, h.values], by simp [h.count, h.values]⟩

theorem Fresh.packing (h : Fresh collector) (rq : Request τ β) : Packing rq [] collector :=
  ⟨⟨h.modified, h.nodeType, by simp [h.nodeLen, h.values], by simp [h.count, h.values]⟩,
    fun _ => by rw [h.nodeLen]; exact Nat.zero_le _,
    [], by simp [h.values], by simp [h.pointers], nofun⟩

section
variable (hs : Stage r R mr) (hr : Reduces rq r R) (hfr : Fresh collector)
include hs hr hfr

theorem Stage.move {col : Modres}
    (hm : moveLoop rq mr.pointers collector env = (e, col, env')) (hf : env'.failed = false) :
    e = .success ∧ Packing rq mr.pointers col := by
  have hsize := (hs.sized.size_le hr.1).trans_lt hs.room
  simpa using moveLoop_packing (hfr.packing rq) (by simpa using hsize) hm hf

theorem Stage.round {e1 e2 : Errcode} {col1 col2 : Modres} {env1 env2 : Env τ}
    (hm : moveLoop rq mr.pointers collector env = (e1, col1, env1))
    (hfl : flushMr rq col1 env1 = (e2, col2, env2)) (hf : env2.failed = false) :
    e2 = .success ∧ Stage r R col2 ∧ Round rq mr.pointers col2.pointers := by
  have hsize := (hs.sized.size_le hr.1).trans_lt hs.room
  obtain ⟨-, hp⟩ := hs.move hr hfr hm ((flushMr_advances hfl).failed hf)
  obtain ⟨he2, htidy, hnil, hround⟩ := flushMr_packing hp hsize hfl hf
  refine ⟨he2, ⟨htidy, hnil, ?_, hround.sized hr, hround.bound_le.trans_lt hs.room⟩, hround⟩
  intro hps
  obtain ⟨cs, hcs, hw, -⟩ := hround
  rw [hps, forall₂_nil_right_iff] at hw
  rw [hw, flatten_nil] at hcs
  exact hs.ne_nil hcs.symm

/-- What a pass of the loop body comes to: the end, an error that was noted, or a round. -/
theorem Stage.step (hl : rootLoop rq (fuel + 1) mr collector env = (e, root, env'))
    (hf : env'.failed = false) :
    (mr.pointers.length = 1 ∧ e = .success ∧ root.isSome ∧
        rootRounds rq (fuel + 1) mr collector env = []) ∨
      2 ≤ mr.pointers.length ∧ ∃ mr1 env1, Stage r R mr1 ∧ Round rq mr.pointers mr1.pointers ∧
        rootLoop rq fuel mr1 { mr with pointers := [] } env1 = (e, root, env') ∧
        rootRounds rq (fuel + 1) mr collector env =
          mr1.pointers :: rootRounds rq fuel mr1 { mr with pointers := [] } env1 := by
  rw [rootLoop] at hl
  split at hl
  next i hi =>
    cases hl
    obtain ⟨ptr, rfl, -⟩ := hs.sized i (hi ▸ mem_cons_self)
    exact .inl ⟨by rw [hi]; rfl, rfl, rfl, by rw [rootRounds, hi]⟩
  next hmany =>
    have htwo : 2 ≤ mr.pointers.length := by
      have hpos := length_pos_iff.mpr hs.ne_nil
      by_contra hlt
      obtain ⟨i, hi⟩ := length_eq_one_iff.mp (Nat.le_antisymm (by omega) hpos)
      exact hmany i hi
    rcases hm : moveLoop rq mr.pointers collector env with ⟨e1, col1, env1⟩
    rcases hfl : flushMr rq col1 env1 with ⟨e2, col2, env2⟩
    simp only [mrMovePointers, hm, hfl] at hl
    split_ifs at hl with he1 he2
    · obtain rfl := (Prod.mk.inj (Prod.mk.inj hl).2).2
      exact absurd (hs.move hr hfr hm hf).1 he1
    · obtain rfl := (Prod.mk.inj (Prod.mk.inj hl).2).2
      exact absurd (hs.round hr hfr hm hfl hf).1 he2
    · obtain ⟨-, hs2, hround⟩ := hs.round hr hfr hm hfl ((rootLoop_ext hl).failed hf)
      refine .inr ⟨htwo, col2, env2, hs2, hround, hl, ?_⟩
      rw [rootRounds]
      split
      next i hi => exact absurd hi (hmany i)
      next => simp only [mrMovePointers, hm, hfl, if_neg he1, if_neg he2]

/-- Every round leaves fewer pointers just when every one of them starts from a fitting list. -/
theorem rootRounds_isChain_iff (hl : rootLoop rq fuel mr collector env = (e, root, env'))
    (hf : env'.failed = false) :
    (mr.pointers :: rootRounds rq fuel mr collector env).IsChain (fun is ps => ps.length < is.length) ↔
      ∀ is ∈ (mr.pointers :: rootRounds rq fuel mr collector env).dropLast, Fitting rq is := by
  induction fuel generalizing mr collector env with
  | zero => simp [rootRounds]
  | succ fuel ih =>
    obtain ⟨-, -, -, hnil⟩ | ⟨htwo, mr1, env1, hs1, hround, hl1, hcons⟩ := hs.step hr hfr hl hf
    · simp [hnil]
    · rw [hcons, isChain_cons_cons, hround.length_lt_iff htwo, ih hs1 hs.fresh hl1,
        dropLast_cons_cons, forall_mem_cons]

theorem rootLoop_ends (hfuel : mr.pointers.length ≤ fuel)
    (hl : rootLoop rq fuel mr collector env = (e, root, env')) (hf : env'.failed = false)
    (hfit : ∀ is ∈ (mr.pointers :: rootRounds rq fuel mr collector env).dropLast, Fitting rq is) :
    e = .success ∧ root.isSome := by
  induction fuel generalizing mr collector env with
  | zero => exact absurd (length_eq_zero_iff.mp (Nat.le_zero.mp hfuel)) hs.ne_nil
  | succ fuel ih =>
    obtain ⟨-, he, hroot, -⟩ | ⟨htwo, mr1, env1, hs1, hround, hl1, hcons⟩ :=
      hs.step hr hfr hl hf
    · exact ⟨he, hroot⟩
    · rw [hcons, dropLast_cons_cons, forall_mem_cons] at hfit
      have hlt := (hround.length_lt_iff htwo).mpr hfit.1
      exact ih hs1 hs.fresh (by omega) hl1 hfit.2

/-- Short keys leave room in every round. -/
theorem rootRounds_fitting
    (hshort : rq.compacting = true → ∀ i ∈ mr.pointers.dropLast, i.key.length + R + 19 ≤ chunkSize)
    (hl : rootLoop rq fuel mr collector env = (e, root, env')) (hf : env'.failed = false) :
    ∀ is ∈ (mr.pointers :: rootRounds rq fuel mr collector env).dropLast, Fitting rq is := by
  induction fuel generalizing mr collector env with
  | zero => simp [rootRounds]
  | succ fuel ih =>
    obtain ⟨-, -, -, hnil⟩ | ⟨htwo, mr1, env1, hs1, hround, hl1, hcons⟩ := hs.step hr hfr hl hf
    · simp [hnil]
    · rw [hcons, dropLast_cons_cons, forall_mem_cons]
      refine ⟨fun hcomp => ?_, ih hs1 hs.fresh (fun hcomp => hround.keys
        (K := fun k => k.length + R + 19 ≤ chunkSize) (hshort hcomp)) hl1⟩
      obtain ⟨i, hi⟩ := exists_mem_of_length_pos
        (l := mr.pointers.dropLast) (by rw [length_dropLast]; omega)
      obtain ⟨ptr, rfl, -, hle⟩ := hs.sized i (mem_of_mem_dropLast hi)
      have hkey : ptr.key.length + R + 19 ≤ chunkSize := hshort hcomp _ hi
      exact ⟨_, hi, by rw [size_encodePointer]; omega⟩

/-- The loop of a build over pointers of which one before the last has a long key does not end. -/
theorem rootLoop_runs_on (hcomp : rq.compacting = true)
    (hlong : ∃ i ∈ mr.pointers.dropLast, chunkSize < i.key.length + r + 19)
    (hl : rootLoop rq fuel mr collector env = (e, root, env')) (hf : env'.failed = false) :
    e = .depth := by
  induction fuel generalizing mr collector env with
  | zero => exact (Prod.mk.inj hl).1.symm
  | succ fuel ih =>
    obtain ⟨hone, -⟩ | ⟨-, mr1, env1, hs1, hround, hl1, -⟩ := hs.step hr hfr hl hf
    · obtain ⟨i, hi, -⟩ := hlong
      have := length_pos_of_mem hi
      rw [length_dropLast] at this
      omega
    · exact ih hs1 hs.fresh (hround.long hcomp hs.sized hlong) hl1

end

/-- The pointers that the loop starts from, up to the node that the first flush makes. -/
def Modres.loopKeys (mr : Modres) : List Bytes :=
  mr.pointers.map Item.key ++ (mr.values.getLast?.map Item.key).toList

theorem flushMr_stage (ht : mr.Tidy) (hne : mr.pointers ++ mr.values ≠ [])
    (hs : Sized r R (mr.pointers ++ mr.values)) (hr : Reduces rq r R)
    (hroom : ((mr.pointers ++ mr.values).map Item.bound).sum < 2 ^ 64)
    (hfl : flushMr rq mr env = (e, mr', env')) (hf : env'.failed = false) :
    Stage r R mr' ∧ mr'.pointers.map Item.key = mr.loopKeys := by
  have hsv : Sized r R mr.values := fun i hi => hs i (mem_append_right _ hi)
  have hsp : Sized r R mr.pointers := fun i hi => hs i (mem_append_left _ hi)
  rw [map_append, sum_append] at hroom
  obtain ⟨-, htidy, hnil, ⟨hv, hps⟩ | ⟨hv, p, hpw, hps⟩⟩ :=
    flushMr_tidy ht ((hsv.size_le hr.1).trans_lt (by omega)) hfl hf
  · rw [hv, append_nil] at hne
    rw [← hps] at hne hsp hroom
    exact ⟨⟨htidy, hnil, hne, hsp, by omega⟩, by simp [Modres.loopKeys, hv, hps]⟩
  · obtain ⟨i, hi, hlast⟩ := exists_getLast hv
    have hbound : p.bound ≤ (mr.values.map Item.bound).sum := by
      rw [Item.bound, hpw.key hlast]
      exact le_sum_of_mem (mem_map_of_mem (f := Item.bound) hi)
    refine ⟨⟨htidy, hnil, by simp [hps], ?_, ?_⟩, ?_⟩
    · rw [hps]
      refine forall_mem_append.mpr ⟨hsp, forall_mem_singleton.mpr ?_⟩
      obtain ⟨pos, size, rfl⟩ := hpw
      exact ⟨_, rfl, hr.2 _⟩
    · rw [hps, map_append, sum_append, map_singleton, sum_singleton]
      omega
    · rw [hps, Modres.loopKeys, hlast, map_append, map_singleton, hpw.key hlast]
      rfl

/-- Without write errors every round of `finish_root` leaves fewer pointers than it starts from, and
the loop ends with one, exactly if every round starts from a fitting list. So do all rounds of an
update, and those of a build when all keys but the last are short. The loop does not end in a build
with a long key before the last. `r` and `R` are the sizes of the smallest and of the largest reduce
value. -/
theorem finishRoot_rounds (ht : mr.Tidy) (hne : mr.pointers ++ mr.values ≠ [])
    (hs : Sized r R (mr.pointers ++ mr.values)) (hr : Reduces rq r R)
    (hroom : ((mr.pointers ++ mr.values).map Item.bound).sum < 2 ^ 64) :
    (∀ e root env', finishRoot rq mr env = (e, root, env') → env'.failed = false →
      ((rootLevels rq mr env).IsChain (fun is ps => ps.length < is.length) ∧
          e = .success ∧ root.isSome ↔ ∀ is ∈ (rootLevels rq mr env).dropLast, Fitting rq is) ∧
      ((rq.compacting = true → ∀ k ∈ mr.loopKeys.dropLast, k.length + R + 19 ≤ chunkSize) →
        ∀ is ∈ (rootLevels rq mr env).dropLast, Fitting rq is)) ∧
    ((rq.compacting = true ∧ ∃ k ∈ mr.loopKeys.dropLast, chunkSize < k.length + r + 19) →
      ∀ fuel e root env' e₁ mr₁ env₁, flushMr rq mr env = (e₁, mr₁, env₁) →
        rootLoop rq fuel mr₁ { makeModres .kp with modified := true } env₁ = (e, root, env') →
        env'.failed = false → e = .depth) := by
  have hfr : Fresh { makeModres .kp with modified := true } := ⟨rfl, rfl, rfl, rfl, rfl, rfl⟩
  constructor
  · intro e root env' h hf
    rcases hfl : flushMr rq mr env with ⟨e₁, mr₁, env₁⟩
    simp only [finishRoot, hfl] at h
    simp only [rootLevels, hfl]
    obtain ⟨hs₁, hkeys⟩ := flushMr_stage ht hne hs hr hroom hfl ((rootLoop_ext h).failed hf)
    rw [rootRounds_isChain_iff hs₁ hr hfr h hf]
    refine ⟨⟨And.left, fun hfit => ⟨hfit, rootLoop_ends hs₁ hr hfr (by omega) h hf hfit⟩⟩, ?_⟩
    intro hshort
    refine rootRounds_fitting hs₁ hr hfr (fun hcomp i hi => hshort hcomp i.key ?_) h hf
    rw [← hkeys, ← map_dropLast]
    exact mem_map_of_mem hi
  · rintro ⟨hcomp, k, hk, hlong⟩ fuel e root env' e₁ mr₁ env₁ hfl h hf
    obtain ⟨hs₁, hkeys⟩ := flushMr_stage ht hne hs hr hroom hfl ((rootLoop_ext h).failed hf)
    rw [← hkeys, ← map_dropLast] at hk
    obtain ⟨i, hi, rfl⟩ := mem_map.mp hk
    exact rootLoop_runs_on hs₁ hr hfr hcomp ⟨i, hi, hlong⟩ h hf

end Loop

def keysRequest (compacting : Bool) : Request Unit Unit where
  cmp := ebinCmp
  plat := bufferedPlatform
  fetchCallback := none
  reduce := none
  rereduce := none
  compacting := compacting

/-- Two pointers, the first one without a reduce value. -/
def twoNodes (k reduceValue : Bytes) : Modres where
  values := []
  nodeLen := 0
  count := 0
  pointers := [encodePointer ⟨k, 0, 0, []⟩, encodePointer ⟨[255], 0, 0, reduceValue⟩]
  modified := true
  nodeType := .kp

theorem stage_twoNodes {k reduceValue : Bytes} (hk : k.length < 2 ^ 12)
    (hreduce : reduceValue.length ≤ 500) : Stage 0 500 (twoNodes k reduceValue) where
  modified := rfl
  nodeType := rfl
  nodeLen := rfl
  count := rfl
  values := rfl
  ne_nil := cons_ne_nil _ _
  sized := forall_mem_cons.mpr ⟨⟨_, rfl, Nat.zero_le _, Nat.zero_le _⟩,
    forall_mem_singleton.mpr ⟨_, rfl, Nat.zero_le _, hreduce⟩⟩
  room := by
    have hroom : ((twoNodes k reduceValue).pointers.map Item.bound).sum = k.length + 519 + 520 := rfl
    omega

theorem reduces_keysRequest (compacting : Bool) : Reduces (keysRequest compacting) 0 500 :=
  ⟨le_rfl, fun _ => ⟨Nat.zero_le _, Nat.zero_le _⟩⟩

/-- A key of 400 bytes, and a reduce value of 500 bytes after it. -/
def unequalNodes : Modres := twoNodes (List.replicate 400 0) (List.replicate 500 0)

theorem finishRoot_rounds_unequal :
    ∃ root env', finishRoot (keysRequest true) unequalNodes ⟨emptyFile, (), false⟩ =
      (.success, root, env') ∧ root.isSome := by
  have hcheck :
      (finishRoot (keysRequest true) unequalNodes ⟨emptyFile, (), false⟩).2.2.failed = false ∧
      ∀ is ∈ (rootLevels (keysRequest true) unequalNodes ⟨emptyFile, (), false⟩).dropLast,
        Fitting (keysRequest true) is := by
    decide +kernel
  have hs : Stage 0 500 unequalNodes :=
    stage_twoNodes (length_replicate.trans_lt (by decide)) length_replicate.le
  rcases hrun : finishRoot (keysRequest true) unequalNodes ⟨emptyFile, (), false⟩ with ⟨e, root, env'⟩
  rw [hrun] at hcheck
  obtain ⟨-, rfl, hroot⟩ := ((finishRoot_rounds hs.toTidy hs.ne_nil hs.sized
    (reduces_keysRequest true) hs.room).1 e root env' hrun hcheck.1).1.mpr hcheck.2
  exact ⟨root, env', rfl, hroot⟩

/-- The loop does not end, however often it is gone through without a write error. -/
theorem finishRoot_long_key :
    (finishRoot (keysRequest true) (twoNodes (List.replicate 834 0) []) ⟨emptyFile, (), false⟩).1 =
        .depth ∧
      (finishRoot (keysRequest true) (twoNodes (List.replicate 834 0) [])
        ⟨emptyFile, (), false⟩).2.2.failed = false ∧
      ∀ fuel e root env', rootLoop (keysRequest true) fuel (twoNodes (List.replicate 834 0) [])
        { makeModres .kp with modified := true } ⟨emptyFile, (), false⟩ = (e, root, env') →
        env'.failed = false → e = .depth := by
  refine and_assoc.mp ⟨by decide +kernel, fun fuel e root env' h hf => ?_⟩
  have hlen : (List.replicate 834 (0 : UInt8)).length = 834 := length_replicate
  refine rootLoop_runs_on (stage_twoNodes (by rw [hlen]; decide) (Nat.zero_le _))
    (reduces_keysRequest true) ⟨rfl, rfl, rfl, rfl, rfl, rfl⟩ rfl ?_ h hf
  refine ⟨encodePointer ⟨List.replicate 834 0, 0, 0, []⟩, .head _, ?_⟩
  simp only [encodePointer, hlen]
  decide

end Appstack.Couchstore
