import Appstack.Libvbucket.Routing

namespace Appstack.Libvbucket

open Appstack.Lib List Machine

structure ConfigDiff where
  serversAdded : List Bytes
  serversRemoved : List Bytes
  nVbChanges : ℤ
  sequenceChanged : Bool
  deriving DecidableEq, Repr

def vbucketConfigGetServer (vb : Config) (i : ℕ) : Except Fault Bytes :=
  match vb.servers[i]? with
  | some s => .ok s.authority
  | none => .error .outOfRange

/-- What the loops over the servers read. -/
def serverNames (vb : Config) : Except Fault (List Bytes) :=
  (List.range vb.numServers).mapM (vbucketConfigGetServer vb)

def computeVbListDiff (vb vb' : Config) : Except Fault (List Bytes) := do
  let toNames ← serverNames vb'
  let names ← serverNames vb
  .ok (toNames.filter fun sn => !(names.any fun sn2 => sn2 == sn))

/-- The rows are allocated with zeros, which are read where nothing has been filled in. -/
def allocated : Except Fault ℤ → Except Fault ℤ
  | .error .unfilled => .ok 0
  | r => r

def storedMaster (vb : Config) (vbucket : ℕ) : Except Fault ℤ :=
  allocated (vbucketGetMaster vb vbucket)

def positionsChanged (vb vb' : Config) : Except Fault Bool :=
  if vb'.numServers = vb.numServers then do
    let names ← serverNames vb
    let toNames ← serverNames vb'
    .ok ((names.zip toNames).any fun x => x.1 != x.2)
  else .ok true

/-- Credentials are compared where both are set. -/
def credentialChanged (a b : Option Bytes) : Bool :=
  match a, b with
  | some x, some y => x != y
  | _, _ => a.isSome ^^ b.isSome

def countVbChanges (vb vb' : Config) : Except Fault ℤ :=
  if vb'.numVbuckets = vb.numVbuckets then do
    let changes ← (List.range vb'.numVbuckets).mapM fun i => do
      let s ← storedMaster vb i
      let s' ← storedMaster vb' i
      .ok (s != s')
    .ok (changes.count true)
  else .ok (-1)

def vbucketCompare (vb vb' : Config) : Except Fault ConfigDiff := do
  let serversAdded ← computeVbListDiff vb vb'
  let serversRemoved ← computeVbListDiff vb' vb
  let moved ← positionsChanged vb vb'
  let sequenceChanged :=
    moved || credentialChanged vb.user vb'.user || credentialChanged vb.password vb'.password
  let nVbChanges ← countVbChanges vb vb'
  .ok ⟨serversAdded, serversRemoved, nVbChanges, sequenceChanged⟩

def serverIdx (h : Hashes) (vb : Config) (key : Bytes) : Except Fault ℤ :=
  allocated ((vbucketMap h vb key).map Prod.snd)

def names (vb : Config) : List Bytes := vb.servers.map Server.authority

inductive Handle (h : Hashes) (q : Qsort) (vb : Config) : Prop
  | ketama (hd : vb.distribution = .ketama) (hv : Ketama h q vb) (hn : vb.numVbuckets = 0)
  | vbucket (hv : Valid vb vb) (hn : 0 < vb.numVbuckets) (hm : vb.mask = vb.numVbuckets - 1)
    (hs : vb.numServers = vb.servers.length)

variable {h : Hashes} {q : Qsort} {vb vb' : Config}

theorem Handle.numServers_eq (hv : Handle h q vb) : vb.numServers = vb.servers.length := by
  cases hv with
  | ketama _ hv _ => exact hv.numServers_eq
  | vbucket _ _ _ hs => exact hs

theorem updateServer_length {servers servers' : List Server} {node : Json}
    (hu : updateServer servers node = .ok servers') : servers'.length = servers.length := by
  unfold updateServer at hu
  split at hu
  · split at hu
    · cases hu
      rfl
    · split at hu
      · cases hu
        rfl
      · cases hu
        exact length_modify _ _ _
      · cases hu
  · cases hu

variable {c : Json} {vb0 : Config}

theorem parseNodes_length {servers servers' : List Server}
    (hp : parseNodes c servers = .ok servers') : servers'.length = servers.length := by
  unfold parseNodes at hp
  split at hp
  · cases hp
    rfl
  · exact foldlM_inv (fun ss : List Server => ss.length = servers.length)
      (fun _ _ _ hs hu => (updateServer_length hu).trans hs) rfl hp
  · cases hp

theorem parseVbucketConfig_handle (hd : vb0.distribution = .vbucket)
    (hp : parseVbucketConfig vb0 c = .ok vb) : Handle h q vb := by
  obtain ⟨hv, hn, -⟩ := parseVbucketConfig_valid hd hp
  simp only [parseVbucketConfig, bind_eq_ok] at hp
  obtain ⟨_, -, servers, -, servers', hnodes, _, -, _, -, _, -, hp⟩ := hp
  cases hp
  exact .vbucket hv hn rfl (parseNodes_length hnodes).symm

theorem parseKetamaConfig_numVbuckets
    (hp : parseKetamaConfig h q vb0 c = .ok vb) : vb.numVbuckets = vb0.numVbuckets := by
  unfold parseKetamaConfig at hp
  split at hp
  · split_ifs at hp
    obtain ⟨as, -, hp⟩ := bind_eq_ok.mp hp
    split_ifs at hp
    cases hp
    rfl
  · cases hp

def Located (c : Json) : Prop :=
  c.getObjectItem "nodeLocator" = none ∨
    c.getObjectItem "nodeLocator" = some (.string (bytes "vbucket")) ∨
    c.getObjectItem "nodeLocator" = some (.string (bytes "ketama"))

theorem handle_of_parse (hp : vbucketConfigParseString h q (some c) = .ok vb)
    (hl : Located c) : Handle h q vb := by
  have hbytes : bytes "ketama" ≠ bytes "vbucket" := by decide +kernel
  unfold vbucketConfigParseString parseCjson at hp
  dsimp only at hp
  rcases hl with hl | hl | hl
  · rw [hl] at hp
    exact parseVbucketConfig_handle rfl hp
  · simp only [hl, if_pos] at hp
    exact parseVbucketConfig_handle rfl hp
  · simp only [hl, if_neg hbytes, if_pos] at hp
    obtain ⟨hv, hd⟩ := parseKetamaConfig_ketama hp
    exact .ketama hd hv (parseKetamaConfig_numVbuckets hp)

theorem Handle.serverNames_eq (hv : Handle h q vb) : serverNames vb = .ok (names vb) := by
  rw [serverNames, mapM_eq_ok, names, hv.numServers_eq, forall₂_iff_get]
  refine ⟨by simp, ?_⟩
  intro i hi hi'
  simp only [length_range] at hi
  simp [vbucketConfigGetServer, hi]

theorem Handle.computeVbListDiff_eq (hv : Handle h q vb) (ht : Handle h q vb') :
    computeVbListDiff vb vb' =
      .ok ((names vb').filter fun sn => !((names vb).any fun sn2 => sn2 == sn)) := by
  rw [computeVbListDiff, hv.serverNames_eq, ht.serverNames_eq]
  rfl

theorem mem_listDiff {l l' : List Bytes} {name : Bytes} :
    name ∈ l'.filter (fun sn => !(l.any fun sn2 => sn2 == sn)) ↔ name ∈ l' ∧ name ∉ l := by
  simp only [mem_filter, Bool.not_eq_true', any_eq_false, beq_iff_eq]
  grind

theorem Valid.storedMaster_ok (hv : Valid vb vb) {i : ℕ} (hi : i < vb.numVbuckets) :
    ∃ s, storedMaster vb i = .ok s := by
  obtain ⟨rows, hvb, hrows⟩ := hv.rows
  have hlt : i < rows.length := by rw [hrows.length_eq]; exact hi
  have hread : vbucketGetMaster vb i = entryAt rows[i] 0 := by
    rw [vbucketGetMaster, hvb, rowAt_eq hlt]
    rfl
  rw [storedMaster, hread, entryAt]
  cases rows[i][0]? with
  | none => exact ⟨0, rfl⟩
  | some s => exact ⟨s, rfl⟩

theorem Handle.storedMaster_ok (hv : Handle h q vb) {i : ℕ} (hi : i < vb.numVbuckets) :
    ∃ s, storedMaster vb i = .ok s := by
  cases hv with
  | ketama _ _ hn => omega
  | vbucket hv _ _ _ => exact hv.storedMaster_ok hi

section
variable (hv : Handle h q vb) (ht : Handle h q vb')
include hv ht

theorem Handle.positionsChanged_ok :
    ∃ moved, positionsChanged vb vb' = .ok moved ∧ (moved = false → names vb = names vb') := by
  rw [positionsChanged]
  split_ifs with hn
  · rw [hv.serverNames_eq, ht.serverNames_eq]
    refine ⟨_, rfl, ?_⟩
    intro hsame
    have hlen : (names vb).length = (names vb').length := by
      simp only [names, length_map, ← hv.numServers_eq, ← ht.numServers_eq, hn]
    refine ext_getElem hlen ?_
    intro i hi hi'
    have hne := any_eq_false.mp hsame ((names vb)[i], (names vb')[i])
      (mem_iff_getElem.mpr ⟨i, by simp [hi, hi'], by simp⟩)
    simpa using hne
  · exact ⟨true, rfl, by simp⟩

theorem Handle.countVbChanges_ok :
    ∃ n, countVbChanges vb vb' = .ok n ∧ (n = 0 → vb.numVbuckets = vb'.numVbuckets ∧
        ∀ i < vb.numVbuckets, storedMaster vb i = storedMaster vb' i) := by
  rw [countVbChanges]
  split_ifs with hn
  · have hread : ∀ i ∈ List.range vb'.numVbuckets, ∃ b, (do
        let s ← storedMaster vb i
        let s' ← storedMaster vb' i
        (.ok (s != s') : Except Fault Bool)) = .ok b := by
      intro i hi
      rw [mem_range] at hi
      obtain ⟨s, hs⟩ := hv.storedMaster_ok (hn ▸ hi)
      obtain ⟨s', hs'⟩ := ht.storedMaster_ok hi
      exact ⟨s != s', by rw [hs, hs']; rfl⟩
    obtain ⟨changes, hchanges⟩ := mapM_ok hread
    rw [hchanges]
    refine ⟨_, rfl, ?_⟩
    intro hzero
    refine ⟨hn.symm, ?_⟩
    intro i hi
    rw [← hn] at hi
    have hall := mapM_eq_ok.mp hchanges
    have hlen : i < changes.length := by rw [← hall.length_eq, length_range]; exact hi
    have hi' := hall.get (by simpa using hi) hlen
    simp only [get_eq_getElem, getElem_range, bind_eq_ok] at hi'
    obtain ⟨s, hs, s', hs', hb⟩ := hi'
    have hnone : true ∉ changes := count_eq_zero.mp (by exact_mod_cast hzero)
    have hsame : changes[i] = false := by
      rw [← Bool.not_eq_true]
      intro htrue
      exact hnone (htrue ▸ getElem_mem hlen)
    rw [hs, hs']
    rw [hsame, Except.ok.injEq] at hb
    rw [show s = s' by simpa using hb]
  · exact ⟨-1, rfl, by omega⟩

theorem Handle.serverIdx_eq
    (hnames : names vb = names vb') (hnum : vb.numVbuckets = vb'.numVbuckets)
    (hmasters : ∀ i < vb.numVbuckets, storedMaster vb i = storedMaster vb' i)
    (key : Bytes) : ∃ s, serverIdx h vb key = .ok s ∧ serverIdx h vb' key = .ok s := by
  cases hv with
  | ketama hd hv hn =>
    cases ht with
    | ketama hd' hv' _ =>
      obtain ⟨i, -, -, hmap, -⟩ := hv.vbucketMap hd key
      have hsame : vbucketMap h vb' key = vbucketMap h vb key := by
        simp only [vbucketMap, hd, hd', hv.continuum_eq, hv'.continuum_eq]
        rw [show vb.servers.map Server.authority = vb'.servers.map Server.authority from hnames]
      exact ⟨i, by rw [serverIdx, hmap]; rfl, by rw [serverIdx, hsame, hmap]; rfl⟩
    | vbucket _ hn' _ _ => omega
  | vbucket hv hn hm _ =>
    cases ht with
    | ketama _ _ hn' => omega
    | vbucket hv' _ hm' _ =>
      have hlookup : ∀ vb : Config, Valid vb vb →
          serverIdx h vb key = storedMaster vb (vbucketGetVbucketByKey h vb key) := by
        intro vb hv
        rw [serverIdx, vbucketMap, hv.distribution_eq, storedMaster]
        dsimp only
        cases vbucketGetMaster vb (vbucketGetVbucketByKey h vb key) <;> rfl
      have hkey : vbucketGetVbucketByKey h vb' key = vbucketGetVbucketByKey h vb key := by
        rw [vbucketGetVbucketByKey, vbucketGetVbucketByKey, hm, hm', hnum]
      have hlt : vbucketGetVbucketByKey h vb key < vb.numVbuckets :=
        lt_of_le_of_lt Nat.and_le_right hv.mask_lt
      obtain ⟨s, hs⟩ := hv.storedMaster_ok hlt
      refine ⟨s, by rw [hlookup vb hv, hs], ?_⟩
      rw [hlookup vb' hv', hkey, ← hmasters _ hlt, hs]

end

/-- The difference names the servers of only one of two configurations, and where it reports no
change every key is mapped to a server with the same authority. -/
theorem vbucketCompare_sound {c c' : Json}
    (hvb : vbucketConfigParseString h q (some c) = .ok vb) (hc : Located c)
    (hto : vbucketConfigParseString h q (some c') = .ok vb') (hc' : Located c') :
    ∃ diff, vbucketCompare vb vb' = .ok diff ∧
      (∀ name, name ∈ diff.serversAdded ↔ name ∈ names vb' ∧ name ∉ names vb) ∧
      (∀ name, name ∈ diff.serversRemoved ↔ name ∈ names vb ∧ name ∉ names vb') ∧
      (diff.serversAdded = [] → diff.serversRemoved = [] → diff.sequenceChanged = false →
        diff.nVbChanges = 0 → ∀ key, ∃ s s', serverIdx h vb key = .ok s ∧
          serverIdx h vb' key = .ok s' ∧ authorityAt vb s = authorityAt vb' s') := by
  have hv := handle_of_parse hvb hc
  have ht := handle_of_parse hto hc'
  obtain ⟨moved, hmoved, hnames⟩ := hv.positionsChanged_ok ht
  obtain ⟨n, hn, hmasters⟩ := hv.countVbChanges_ok ht
  refine ⟨⟨_, _, n, moved || credentialChanged vb.user vb'.user ||
    credentialChanged vb.password vb'.password⟩, ?_, fun name => mem_listDiff, fun name => mem_listDiff, ?_⟩
  · rw [vbucketCompare, hv.computeVbListDiff_eq ht, ht.computeVbListDiff_eq hv, hmoved, hn]
    rfl
  · intro _ _ hsequence hzero key
    dsimp only at hsequence hzero
    rw [Bool.or_eq_false_iff, Bool.or_eq_false_iff] at hsequence
    have hsame := hnames hsequence.1.1
    obtain ⟨hnum, hmasters⟩ := hmasters hzero
    obtain ⟨s, hs, hs'⟩ := hv.serverIdx_eq ht hsame hnum hmasters key
    refine ⟨s, s, hs, hs', ?_⟩
    rw [authorityAt, authorityAt]
    split_ifs
    · rw [← List.getElem?_map, ← List.getElem?_map]
      rw [show vb.servers.map Server.authority = vb'.servers.map Server.authority from hsame]
    · rfl

/-- Two maps that differ in their replicas only. -/
theorem vbucketCompare_sound_replicas : ∃ vb vb', vbucketConfigParseString sampleHashes sampleQsort
        (some (sampleMap "vbucket" 1 [0, -1])) = .ok vb ∧
      vbucketConfigParseString sampleHashes sampleQsort (some (sampleMap "vbucket" 1 [0, 1])) =
        .ok vb' ∧
      vbucketCompare vb vb' = .ok ⟨[], [], 0, false⟩ ∧
      ∀ key, ∃ s s', serverIdx sampleHashes vb key = .ok s ∧
        serverIdx sampleHashes vb' key = .ok s' ∧ authorityAt vb s = authorityAt vb' s' := by
  let parsed : ℤ → Config := fun replica => ⟨.vbucket, 2, 1, 2, 1, none, none, none,
    [⟨bytes "a:11211", none⟩, ⟨bytes "b:11211", none⟩], none, some [[0, replica], [0, replica]]⟩
  have hparse : ∀ replica ∈ [(-1 : ℤ), 1], vbucketConfigParseString sampleHashes sampleQsort
      (some (sampleMap "vbucket" 1 [0, replica])) = .ok (parsed replica) := by
    decide +kernel
  have hlocated : ∀ replica, Located (sampleMap "vbucket" 1 [0, replica]) := by
    intro replica
    exact .inr (.inl (by simp [sampleMap, Json.getObjectItem]))
  have hdiff : vbucketCompare (parsed (-1)) (parsed 1) = .ok ⟨[], [], 0, false⟩ := by
    decide +kernel
  have hvb := hparse (-1) (by decide)
  have hvb' := hparse 1 (by decide)
  obtain ⟨diff, hok, -, -, hsame⟩ := vbucketCompare_sound hvb (hlocated _) hvb' (hlocated _)
  obtain rfl := Except.ok.inj (hdiff.symm.trans hok)
  exact ⟨_, _, hvb, hvb', hdiff, hsame rfl rfl rfl rfl⟩

end Appstack.Libvbucket
