import Appstack.Lib.HashRing
import Appstack.Lib.Machine
import Appstack.Lib.Yields
import Appstack.Libvbucket.Config

namespace Appstack.Libvbucket

open Appstack.Lib HashRing Function List

section Search

variable {items : List Item} {digest : UInt32}

/-- Where the points that are not before the digest begin. -/
def bound (items : List Item) (digest : UInt32) : ℕ :=
  items.findIdx fun it => digest.toNat ≤ it.point.toNat

theorem point_lt_iff (hsorted : items.Pairwise fun a b => a.point ≤ b.point) {i : ℕ}
    (hi : i < items.length) : items[i].point < digest ↔ i < bound items digest := by
  rw [UInt32.lt_iff_toNat_lt]
  constructor
  · intro hlt
    by_contra hge
    have hb : bound items digest < items.length := by omega
    have hp := findIdx_getElem (w := hb)
    rcases Nat.lt_or_eq_of_le (not_lt.mp hge) with hlt' | heq
    · have hle := pairwise_iff_getElem.mp hsorted _ _ hb hi hlt'
      rw [UInt32.le_iff_toNat_le] at hle
      simp only [decide_eq_true_eq] at hp
      exact absurd hlt (by unfold bound at *; omega)
    · simp only [decide_eq_true_eq] at hp
      subst heq
      unfold bound at hlt
      omega
  · intro hlt
    have hp := not_of_lt_findIdx hlt
    simpa using hp

theorem itemAt_eq {i : ℕ} (hi : i < items.length) : itemAt items i = .ok items[i] := by
  rw [itemAt, if_pos (Int.natCast_nonneg i), Int.toNat_natCast, List.getElem?_eq_getElem hi]

/-- The points are compared as the numbers that they are. -/
abbrev Item.place (it : Item) : ℕ := it.point.toNat

theorem first_eq_of_bound (h : bound items digest < items.length) :
    first Item.place items digest.toNat = some items[bound items digest] := by
  have hfind : (items.find? fun it => digest.toNat ≤ it.place) = some items[bound items digest] := by
    rw [List.find?_eq_getElem?_findIdx]
    exact List.getElem?_eq_getElem h
  rw [first, hfind, Option.some_or]

theorem first_eq_head (h : items.length ≤ bound items digest) (hne : 0 < items.length) :
    first Item.place items digest.toNat = some items[0] := by
  have hfind : (items.find? fun it => digest.toNat ≤ it.place) = none := by
    rw [List.find?_eq_getElem?_findIdx]
    exact List.getElem?_eq_none h
  rw [first, hfind, Option.none_or, List.head?_eq_getElem?, List.getElem?_eq_getElem hne]

/-- The search ends at the first point that is not before the digest, from every range that has it.
The range includes its end, which may be the end of the continuum. -/
theorem searchContinuum_eq (digest : UInt32)
    (hsorted : items.Pairwise fun a b => a.point ≤ b.point)
    (hne : 0 < items.length) (low high : ℤ) (hlow : 0 ≤ low) (hhigh : high ≤ items.length)
    (hb : low ≤ bound items digest) (hb' : bound items digest ≤ high) :
    ∃ it, first Item.place items digest.toNat = some it ∧
      searchContinuum items digest low high = .ok it.index := by
  induction hn : (high - low).toNat using Nat.strong_induction_on generalizing low high with
  | _ n ih =>
  have hhead : (itemAt items 0).map Item.index = .ok items[0].index := by
    have := itemAt_eq hne
    simp only [Nat.cast_zero] at this
    rw [this]
    rfl
  obtain ⟨m, hm⟩ : ∃ m : ℕ, low + (high - low) / 2 = m :=
    ⟨(low + (high - low) / 2).toNat, by omega⟩
  rw [searchContinuum, hm]
  by_cases hend : (m : ℤ) = items.length
  · -- the whole range is the end of the continuum
    rw [if_pos hend]
    exact ⟨_, first_eq_head (by omega) hne, hhead⟩
  rw [if_neg hend]
  have hmlt : m < items.length := by omega
  rw [itemAt_eq hmlt]
  obtain ⟨prev, hprev, hprev_le⟩ : ∃ prev,
      (if (m : ℤ) = 0 then .ok 0 else (itemAt items (m - 1)).map Item.point) =
        (.ok prev : Except Fault UInt32) ∧
      (digest > prev ↔ (m = 0 ∧ digest.toNat ≠ 0) ∨ (m ≠ 0 ∧ m ≤ bound items digest)) := by
    by_cases hm0 : m = 0
    · refine ⟨0, if_pos (by omega), ?_⟩
      rw [gt_iff_lt, UInt32.lt_iff_toNat_lt]
      simp only [UInt32.toNat_zero]
      omega
    · have hm1 : ((m : ℤ) - 1) = (m - 1 : ℕ) := by omega
      have hlt : m - 1 < items.length := by omega
      refine ⟨items[m - 1].point, ?_, ?_⟩
      · rw [if_neg (by omega), hm1, itemAt_eq hlt]
        rfl
      · rw [gt_iff_lt, point_lt_iff hsorted hlt]
        omega
  rw [hprev]
  dsimp only
  have hmid : items[m].point < digest ↔ m < bound items digest := point_lt_iff hsorted hmlt
  by_cases hfound : digest ≤ items[m].point ∧ digest > prev
  · rw [if_pos hfound]
    have hge : ¬ m < bound items digest := by
      rw [← hmid, UInt32.lt_iff_toNat_lt]
      have := UInt32.le_iff_toNat_le.mp hfound.1
      omega
    have hpos := hprev_le.mp hfound.2
    have heq : m = bound items digest := by omega
    refine ⟨items[m], ?_, rfl⟩
    rw [first_eq_of_bound (by omega)]
    simp only [heq]
  · rw [if_neg hfound]
    by_cases hless : items[m].point < digest
    · rw [if_pos hless, if_neg (by have := hmid.mp hless; omega)]
      exact ih _ (by have := hmid.mp hless; omega) (m + 1) high (by omega) hhigh
        (by have := hmid.mp hless; omega) hb' rfl
    · rw [if_neg hless]
      have hle : digest ≤ items[m].point := by
        rw [UInt32.lt_iff_toNat_lt] at hless
        rw [UInt32.le_iff_toNat_le]
        omega
      have hnot : ¬ digest > prev := fun h => hfound ⟨hle, h⟩
      rw [hprev_le] at hnot
      have hmb : bound items digest ≤ m := by
        by_contra hlt
        exact hless (hmid.mpr (by omega))
      by_cases hm0 : m = 0
      · -- the digest is zero: the range left of the first point is empty
        subst hm0
        rw [if_pos (by omega)]
        refine ⟨items[0], ?_, hhead⟩
        rw [first_eq_of_bound (by omega)]
        simp only [show bound items digest = 0 by omega]
      · rw [if_neg (by omega)]
        exact ih _ (by omega) low (m - 1) hlow (by omega) hb (by omega) rfl

/-- What a scan from the start of the continuum selects. -/
def linearSuccessor (items : List Item) (hne : items ≠ []) (digest : UInt32) : Item :=
  (items.find? fun it => digest ≤ it.point).getD (items.head hne)

theorem first_eq_linearSuccessor (hne : items ≠ []) :
    first Item.place items digest.toNat = some (linearSuccessor items hne digest) := by
  have hplace : (fun it : Item => decide (digest.toNat ≤ it.place)) =
      fun it => decide (digest ≤ it.point) := by
    funext it
    simp only [UInt32.le_iff_toNat_le]
  rw [first, linearSuccessor, hplace, List.head?_eq_some_head hne]
  cases items.find? fun it => decide (digest ≤ it.point) <;> rfl

/-- The search of a sorted continuum ends, with the item that a scan selects. -/
theorem vbucketMap_eq_linearSuccessor (hsorted : items.Pairwise fun a b => a.point ≤ b.point)
    (hne : items ≠ []) :
    (∀ digest, searchContinuum items digest 0 items.length =
        .ok (linearSuccessor items hne digest).index) ∧
      ∀ (h : Hashes) (vb : Config) (key : Bytes), vb.distribution = .ketama →
        vb.continuum = some items →
        vbucketMap h vb key = .ok (0, (linearSuccessor items hne (hashKetama h key)).index) := by
  have hsearch : ∀ digest, searchContinuum items digest 0 items.length =
      .ok (linearSuccessor items hne digest).index := by
    intro digest
    obtain ⟨it, hfirst, hit⟩ := searchContinuum_eq digest hsorted (length_pos_iff.mpr hne) 0
      items.length le_rfl le_rfl (by omega) (by exact_mod_cast findIdx_le_length)
    rw [first_eq_linearSuccessor hne] at hfirst
    rw [hit, Option.some.inj hfirst]
  refine ⟨hsearch, ?_⟩
  intro h vb key hketama hcontinuum
  rw [vbucketMap, hketama, hcontinuum]
  dsimp only
  rw [hsearch]
  rfl

/-- A point that occurs twice, and a digest of zero. -/
theorem vbucketMap_eq_linearSuccessor_ties :
    searchContinuum [⟨1, 0⟩, ⟨2, 5⟩, ⟨0, 5⟩, ⟨1, 9⟩] 0 0 4 = .ok 1 ∧
      searchContinuum [⟨1, 0⟩, ⟨2, 5⟩, ⟨0, 5⟩, ⟨1, 9⟩] 5 0 4 = .ok 2 :=
  have h := (@vbucketMap_eq_linearSuccessor [⟨1, 0⟩, ⟨2, 5⟩, ⟨0, 5⟩, ⟨1, 9⟩] (by decide) (by decide)).1
  ⟨h 0, h 5⟩

end Search

variable {h : Hashes} {q : Qsort} {authorities : List Bytes}

def ring (h : Hashes) (authorities : List Bytes) : Set (Bytes × ℕ) :=
  {x | x.1 ∈ authorities ∧ ∃ p ∈ serverPoints h x.1, x.2 = p.toNat}

theorem mem_continuumItems {it : Item} :
    it ∈ continuumItems h authorities ↔
      ∃ a, authorities[it.index]? = some a ∧ it.point ∈ serverPoints h a := by
  obtain ⟨i, p⟩ := it
  simp only [continuumItems, mem_flatMap, mem_map, Prod.exists, Item.mk.injEq,
    mem_zipIdx_iff_getElem?]
  constructor
  · rintro ⟨a, i', ha, p', hp, rfl, rfl⟩
    exact ⟨a, ha, hp⟩
  · rintro ⟨a, ha, hp⟩
    exact ⟨a, i, ha, p, hp, rfl, rfl⟩

theorem continuumItems_pos (hne : authorities ≠ []) :
    0 < (updateKetamaContinuum h q authorities).length := by
  rw [updateKetamaContinuum, (q.perm _).length_eq]
  obtain ⟨a, as, rfl⟩ := exists_cons_of_ne_nil hne
  rw [continuumItems, zipIdx_cons, flatMap_cons, length_append, length_map]
  have hpoints : (serverPoints h (a, 0).1).length = 160 := by
    simp [serverPoints, length_flatMap]
  omega

theorem searchContinuum_successor (hne : authorities ≠ []) (digest : UInt32) :
    ∃ i a p, searchContinuum (updateKetamaContinuum h q authorities) digest 0
        (updateKetamaContinuum h q authorities).length = .ok i ∧
      authorities[i]? = some a ∧
      Successor Prod.snd (ring h authorities) digest.toNat (a, p) := by
  have hsorted : (updateKetamaContinuum h q authorities).Pairwise fun a b => a.point ≤ b.point :=
    q.sorted _
  have hmem : ∀ it, it ∈ updateKetamaContinuum h q authorities ↔
      ∃ a, authorities[it.index]? = some a ∧ it.point ∈ serverPoints h a := by
    intro it
    rw [← mem_continuumItems]
    exact (q.perm _).mem_iff
  obtain ⟨it, hfirst, hsearch⟩ := searchContinuum_eq digest hsorted
    (continuumItems_pos hne) 0 (updateKetamaContinuum h q authorities).length le_rfl le_rfl
    (by omega) (by exact_mod_cast findIdx_le_length)
  have hsucc := first_successor (hsorted.imp fun hle => UInt32.le_iff_toNat_le.mp hle) hfirst
  obtain ⟨a, ha, hp⟩ := (hmem it).mp hsucc.1
  refine ⟨it.index, a, it.point.toNat, hsearch, ha, ?_⟩
  refine hsucc.transfer ⟨mem_of_getElem? ha, it.point, hp, rfl⟩ rfl ?_
  rintro ⟨b, k⟩ ⟨hb, p, hpb, rfl⟩
  obtain ⟨j, hj⟩ := mem_iff_getElem?.mp hb
  exact ⟨⟨j, p⟩, (hmem ⟨j, p⟩).mpr ⟨b, hj, hpb⟩, rfl⟩

theorem ring_injOn (hdistinct : (authorities.flatMap (serverPoints h)).Nodup) :
    Set.InjOn Prod.snd (ring h authorities) := by
  rintro ⟨a, _⟩ ⟨ha, p, hpa, rfl⟩ ⟨b, _⟩ ⟨hb, r, hrb, rfl⟩ heq
  dsimp only at ha hpa hb hrb heq
  have hpr : p = r := UInt32.toNat_inj.mp heq
  subst hpr
  by_contra hne
  have hab : a ≠ b := fun hab => hne (by rw [hab])
  have : Std.Symm (Function.onFun List.Disjoint (serverPoints h)) :=
    ⟨fun _ _ hxy => List.Disjoint.symm hxy⟩
  exact (nodup_flatMap.mp hdistinct).2.forall ha hb hab hpa hrb

def authorityAt (vb : Config) (s : ℤ) : Option Bytes :=
  if 0 ≤ s then vb.servers[s.toNat]?.map Server.authority else none

structure Ketama (h : Hashes) (q : Qsort) (vb : Config) : Prop where
  nonempty : vb.servers ≠ []
  numServers_eq : vb.numServers = vb.servers.length
  continuum_eq : vb.continuum = some (updateKetamaContinuum h q (vb.servers.map Server.authority))

theorem parseVbucketConfig_distribution {vb vb' : Config} {c : Json}
    (hp : parseVbucketConfig vb c = .ok vb') : vb'.distribution = vb.distribution := by
  simp only [parseVbucketConfig, Machine.bind_eq_ok] at hp
  obtain ⟨_, -, _, -, _, -, _, -, _, -, _, -, hp⟩ := hp
  cases hp
  rfl

theorem parseKetamaConfig_ketama {vb vb' : Config} {c : Json}
    (hp : parseKetamaConfig h q vb c = .ok vb') :
    Ketama h q vb' ∧ vb'.distribution = vb.distribution := by
  unfold parseKetamaConfig at hp
  split at hp
  next nodes _ =>
    split_ifs at hp with hempty
    obtain ⟨as, has, hp⟩ := Machine.bind_eq_ok.mp hp
    split_ifs at hp
    cases hp
    have hlen := (Machine.mapM_eq_ok.mp has).length_eq
    refine ⟨⟨?_, ?_, ?_⟩, rfl⟩
    · intro hnil
      have hzero := congrArg List.length hnil
      rw [length_map, length_nil] at hzero
      omega
    · simp
    · simp [comp_def]
  · cases hp

theorem ketama_of_parse {vb : Config} {data : Option Json}
    (hp : vbucketConfigParseString h q data = .ok vb) (hk : vb.distribution = .ketama) :
    Ketama h q vb := by
  unfold vbucketConfigParseString at hp
  split at hp
  · cases hp
  next c =>
    unfold parseCjson at hp
    dsimp only at hp
    split at hp
    · rw [parseVbucketConfig_distribution hp] at hk
      cases hk
    · split_ifs at hp
      · rw [parseVbucketConfig_distribution hp] at hk
        cases hk
      · exact (parseKetamaConfig_ketama hp).1
      · cases hp
        cases hk
    · cases hp

theorem Ketama.vbucketMap {vb : Config} (hv : Ketama h q vb) (hk : vb.distribution = .ketama)
    (key : Bytes) :
    ∃ i a p, Libvbucket.vbucketMap h vb key = .ok (0, (i : ℕ)) ∧ i < vb.numServers ∧
      authorityAt vb i = some a ∧
      Successor Prod.snd (ring h (vb.servers.map Server.authority)) (hashKetama h key).toNat
        (a, p) := by
  have hne : vb.servers.map Server.authority ≠ [] := by
    simpa using hv.nonempty
  obtain ⟨i, a, p, hsearch, ha, hsucc⟩ := searchContinuum_successor (q := q) hne (hashKetama h key)
  refine ⟨i, a, p, ?_, ?_, ?_, hsucc⟩
  · simp only [Libvbucket.vbucketMap, hk, hv.continuum_eq, hsearch]
    rfl
  · have hlt := (List.getElem?_eq_some_iff.mp ha).1
    rw [hv.numServers_eq]
    simpa using hlt
  · rw [authorityAt, if_pos (Int.natCast_nonneg i), Int.toNat_natCast, ← List.getElem?_map, ha]

/-- When a server is taken out of a ketama configuration, in any order of the others, the keys of
the others stay where they were. -/
theorem ketama_keys_stay {q' : Qsort} {data data' : Option Json} {vb vb' : Config}
    (hvb : vbucketConfigParseString h q data = .ok vb)
    (hvb' : vbucketConfigParseString h q' data' = .ok vb')
    (hk : vb.distribution = .ketama) (hk' : vb'.distribution = .ketama) {gone : Bytes}
    (hgone : (vb.servers.map Server.authority).Perm (gone :: vb'.servers.map Server.authority))
    (hdistinct : ((vb.servers.map Server.authority).flatMap (serverPoints h)).Nodup)
    (key : Bytes) :
    ∃ s a, vbucketMap h vb key = .ok (0, s) ∧ authorityAt vb s = some a ∧
      (a ≠ gone → ∃ s', vbucketMap h vb' key = .ok (0, s') ∧ authorityAt vb' s' = some a) := by
  obtain ⟨i, a, p, hmap, -, ha, hsucc⟩ := (ketama_of_parse hvb hk).vbucketMap hk key
  obtain ⟨i', a', p', hmap', -, ha', hsucc'⟩ := (ketama_of_parse hvb' hk').vbucketMap hk' key
  refine ⟨i, a, hmap, ha, ?_⟩
  intro hne
  refine ⟨i', hmap', ?_⟩
  -- the successor in the larger ring stays, and it is the only one in the smaller ring
  have hsub : ring h (vb'.servers.map Server.authority) ⊆
      ring h (vb.servers.map Server.authority) := by
    rintro ⟨b, k⟩ ⟨hb, hp⟩
    exact ⟨hgone.mem_iff.mpr (.tail _ hb), hp⟩
  have hmem : (a, p) ∈ ring h (vb'.servers.map Server.authority) := by
    refine ⟨?_, hsucc.1.2⟩
    rcases mem_cons.mp (hgone.mem_iff.mp hsucc.1.1) with heq | hmem
    · exact absurd heq hne
    · exact hmem
  have hstays := hsucc.transfer hmem rfl fun y hy => ⟨y, hsub hy, rfl⟩
  have heq := hstays.unique ((ring_injOn hdistinct).mono hsub) hsucc'
  rw [ha', (Prod.mk.inj heq).1]

/-- A digest that tells apart short texts by their first and their last two bytes. -/
def sampleHashes : Hashes where
  crc32 := fun l => l.length.toUInt32
  md5 := fun l i =>
    if i.val % 4 = 0 then (i.val / 4).toUInt8
    else if i.val % 4 = 1 then l.getLastD 0
    else if i.val % 4 = 2 then l.dropLast.getLastD 0
    else l.headD 0

def sampleQsort : Qsort where
  sort := fun l => l.mergeSort fun a b => a.place ≤ b.place
  perm := fun l => mergeSort_perm l _
  sorted := fun l => by
    have htrans : ∀ a b c : Item, decide (a.place ≤ b.place) → decide (b.place ≤ c.place) →
        decide (a.place ≤ c.place) := by
      intro a b c hab hbc
      exact decide_eq_true (le_trans (of_decide_eq_true hab) (of_decide_eq_true hbc))
    have htotal : ∀ a b : Item, decide (a.place ≤ b.place) || decide (b.place ≤ a.place) := by
      intro a b
      simpa using le_total a.place b.place
    exact (pairwise_mergeSort htrans htotal l).imp fun hab =>
      UInt32.le_iff_toNat_le.mpr (of_decide_eq_true hab)

def sampleNode (host : String) : Json :=
  .object [("hostname", .string (bytes host)), ("ports", .object [("direct", .number 11211)])]

def sampleKetama (hosts : List String) : Json :=
  .object [("nodeLocator", .string (bytes "ketama")), ("nodes", .array (hosts.map sampleNode))]

theorem ketama_keys_stay_two :
    ∃ vb vb', vbucketConfigParseString sampleHashes sampleQsort
        (some (sampleKetama ["a", "b"])) = .ok vb ∧
      vbucketConfigParseString sampleHashes sampleQsort (some (sampleKetama ["b"])) = .ok vb' ∧
      ∀ key, ∃ s a, vbucketMap sampleHashes vb key = .ok (0, s) ∧ authorityAt vb s = some a ∧
        (a ≠ bytes "a:11211" → ∃ s', vbucketMap sampleHashes vb' key = .ok (0, s') ∧
          authorityAt vb' s' = some a) := by
  have hview : ∀ hosts ∈ [["a", "b"], ["b"]], ((vbucketConfigParseString sampleHashes sampleQsort
      (some (sampleKetama hosts))).toOption.map fun vb =>
        (vb.distribution, vb.servers.map Server.authority)) =
      some (.ketama, hosts.map fun host => bytes (host ++ ":11211")) := by
    decide +kernel
  have hascending : (((["a", "b"].map fun host => bytes (host ++ ":11211")).flatMap
      (serverPoints sampleHashes)).map UInt32.toNat).IsChain (· < ·) := by
    decide +kernel
  have hparse : ∀ hosts ∈ [["a", "b"], ["b"]], ∃ vb, vbucketConfigParseString sampleHashes
      sampleQsort (some (sampleKetama hosts)) = .ok vb ∧ vb.distribution = .ketama ∧
      vb.servers.map Server.authority = hosts.map fun host => bytes (host ++ ":11211") := by
    intro hosts hmem
    have hv := hview hosts hmem
    cases hp : vbucketConfigParseString sampleHashes sampleQsort (some (sampleKetama hosts)) with
    | error e =>
      rw [hp] at hv
      cases hv
    | ok vb =>
      rw [hp, Except.toOption, Option.map_some, Option.some.injEq, Prod.mk.injEq] at hv
      exact ⟨vb, rfl, hv⟩
  obtain ⟨vb, hvb, hk, hservers⟩ := hparse ["a", "b"] mem_cons_self
  obtain ⟨vb', hvb', hk', hservers'⟩ := hparse ["b"] (.tail _ (.head _))
  refine ⟨vb, vb', hvb, hvb', ?_⟩
  intro key
  apply ketama_keys_stay hvb hvb' hk hk'
  · rw [hservers, hservers']
    exact List.Perm.refl _
  · rw [hservers]
    exact List.Nodup.of_map _ ((isChain_iff_pairwise.mp hascending).imp ne_of_lt)

end Appstack.Libvbucket
