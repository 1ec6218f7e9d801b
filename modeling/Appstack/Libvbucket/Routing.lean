import Appstack.Libvbucket.Ketama

namespace Appstack.Libvbucket

open Appstack.Lib List Machine

variable {h : Hashes} {q : Qsort} {vb vb₀ : Config}

def RowOk (numServers : ℕ) (numReplicas : ℤ) (row : List ℤ) : Prop :=
  (row.length : ℤ) = numReplicas + 1 ∧ ∀ s ∈ row, -1 ≤ s ∧ s < numServers

structure RowsOk (vb : Config) (rows : List (List ℤ)) : Prop where
  length_eq : rows.length = vb.numVbuckets
  row : ∀ r ∈ rows, RowOk vb.numServers vb.numReplicas r

/-- A handle that has come from the handle `vb₀` by what it has learned. -/
structure Valid (vb₀ vb : Config) : Prop where
  same : vb = { vb₀ with vbuckets := vb.vbuckets }
  distribution_eq : vb₀.distribution = .vbucket
  numServers_pos : 0 < vb₀.numServers
  mask_lt : vb₀.mask < vb₀.numVbuckets
  numReplicas_le : vb₀.numReplicas ≤ maxReplicas
  rows : ∃ rows, vb.vbuckets = some rows ∧ RowsOk vb₀ rows
  frows : ∀ rows, vb₀.fvbuckets = some rows → RowsOk vb₀ rows

variable {n : ℕ} {c : Json} {js : List Json}

theorem serverId_range {j : Json} {s : ℤ} (hs : serverId n j = .ok s) : -1 ≤ s ∧ s < n := by
  unfold serverId at hs
  split at hs
  · split_ifs at hs
    cases hs
    omega
  · cases hs

variable {row : List ℤ} {rows : List (List ℤ)} {k : ℤ}

theorem populateBucket_rowOk {j : Option Json}
    (hrow : populateBucket n k j = .ok row) : RowOk n k row := by
  unfold populateBucket at hrow
  split at hrow
  · split_ifs at hrow with hlen
    have hall := mapM_eq_ok.mp hrow
    refine ⟨by rw [← hall.length_eq]; exact not_not.mp hlen, ?_⟩
    intro s hs
    obtain ⟨i, hi, rfl⟩ := getElem_of_mem hs
    exact serverId_range (hall.get (hall.length_eq ▸ hi) hi)
  · cases hrow

theorem populateBuckets_ok {m : ℕ} (hrows : populateBuckets n k m js = .ok rows) :
    rows.length = m ∧ ∀ r ∈ rows, RowOk n k r := by
  have hall := mapM_eq_ok.mp hrows
  have hlen := hall.length_eq
  rw [length_range] at hlen
  refine ⟨hlen.symm, ?_⟩
  intro r hr
  obtain ⟨i, hi, rfl⟩ := getElem_of_mem hr
  exact populateBucket_rowOk (hall.get (by simpa [hlen] using hi) hi)

theorem parseNumReplicas_eq (hk : parseNumReplicas c = .ok k) :
    c.getObjectItem "numReplicas" = some (.number k) ∧ k ≤ maxReplicas := by
  unfold parseNumReplicas at hk
  split at hk
  next n hn =>
    split_ifs at hk with hle
    cases hk
    exact ⟨hn, by omega⟩
  · cases hk

theorem parseServerList_pos {servers : List Server}
    (hs : parseServerList c = .ok servers) : 0 < servers.length := by
  unfold parseServerList at hs
  split at hs
  · split_ifs at hs
    have := (mapM_eq_ok.mp hs).length_eq
    omega
  · cases hs

theorem parseBucketMap_pos (hjs : parseBucketMap c = .ok js) : 0 < js.length := by
  unfold parseBucketMap at hjs
  split at hjs
  · split_ifs at hjs with hcond
    cases hjs
    omega
  · cases hjs

theorem parseVbucketConfig_valid (hd : vb₀.distribution = .vbucket)
    (hp : parseVbucketConfig vb₀ c = .ok vb) :
    Valid vb vb ∧ 0 < vb.numVbuckets ∧
      (serverMap c).getObjectItem "numReplicas" = some (.number vb.numReplicas) := by
  simp only [parseVbucketConfig, bind_eq_ok] at hp
  obtain ⟨k, hk, servers, hservers, servers', -, js, hjs, rows, hrows, frows, hfrows, hp⟩ := hp
  cases hp
  have hpos := parseBucketMap_pos hjs
  obtain ⟨hrk, hkle⟩ := parseNumReplicas_eq hk
  refine ⟨⟨rfl, hd, parseServerList_pos hservers, ?_, hkle, ?_, ?_⟩, hpos, hrk⟩
  · dsimp only
    omega
  · obtain ⟨hlen, hrow⟩ := populateBuckets_ok hrows
    exact ⟨rows, rfl, hlen, hrow⟩
  · intro fs hfs
    unfold parseForwardMap at hfrows
    split at hfrows
    · cases hfrows
      cases hfs
    · obtain ⟨fs', hfs', hfrows⟩ := bind_eq_ok.mp hfrows
      cases hfrows
      cases hfs
      obtain ⟨hlen, hrow⟩ := populateBuckets_ok hfs'
      exact ⟨hlen, hrow⟩
    · cases hfrows

theorem entryAt_eq {j : ℕ} (hj : j < row.length) : entryAt row j = .ok row[j] := by
  rw [entryAt, List.getElem?_eq_getElem hj]

theorem rowAt_eq {v : ℕ} (hv : v < rows.length) : rowAt (some rows) v = .ok rows[v] := by
  rw [rowAt]
  simp only [List.getElem?_eq_getElem hv]

theorem RowOk.set (hrow : RowOk n k row) (j : ℕ) {s : ℤ}
    (hs : -1 ≤ s ∧ s < n) : RowOk n k (row.set j s) := by
  refine ⟨by rw [length_set]; exact hrow.1, ?_⟩
  intro t ht
  rcases mem_or_eq_of_mem_set ht with ht | rfl
  · exact hrow.2 t ht
  · exact hs

theorem RowsOk.set (hrows : RowsOk vb rows) (v : ℕ)
    (hrow : RowOk vb.numServers vb.numReplicas row) : RowsOk vb (rows.set v row) := by
  refine ⟨by rw [length_set]; exact hrows.length_eq, ?_⟩
  intro r hr
  rcases mem_or_eq_of_mem_set hr with hr | rfl
  · exact hrows.row r hr
  · exact hrow

theorem foldlM_copyReplicas {frow : List ℤ} (hfrow : RowOk n k frow) (hrow : RowOk n k row) :
    Yields (RowOk n k) ((List.range k.toNat).foldlM (copyReplicas frow) row) := by
  refine Yields.foldlM _ ?_ hrow
  intro r i hi hr
  have hlt : i + 1 < frow.length := by
    have := mem_range.mp hi
    have := hfrow.1
    omega
  rw [copyReplicas, entryAt_eq hlt]
  exact Yields.ok (hr.set _ (hfrow.2 _ (getElem_mem hlt)))

def learn (vb : Config) (x : ℕ × ℤ) : Except Fault (Config × ℤ) :=
  vbucketFoundIncorrectMaster vb x.1 x.2

theorem Valid.withRow (hv : Valid vb₀ vb) (v : ℕ)
    (hrow : RowOk vb₀.numServers vb₀.numReplicas row) :
    Valid vb₀ { vb with vbuckets := vb.vbuckets.map fun rows => rows.set v row } := by
  obtain ⟨rows, hvb, hrows⟩ := hv.rows
  refine ⟨?_, hv.distribution_eq, hv.numServers_pos, hv.mask_lt, hv.numReplicas_le,
    ⟨rows.set v row, by rw [hvb]; rfl, hrows.set v hrow⟩, hv.frows⟩
  rw [hv.same]

theorem Valid.learn (hv : Valid vb₀ vb) (hk : 0 ≤ vb₀.numReplicas) {x : ℕ × ℤ}
    (hx : x.1 < vb₀.numVbuckets) :
    ∃ vb' rv, Libvbucket.learn vb x = .ok (vb', rv) ∧ Valid vb₀ vb' := by
  obtain ⟨rows, hvb, hrows⟩ := hv.rows
  have hlt : x.1 < rows.length := by rw [hrows.length_eq]; exact hx
  have hrow := hrows.row _ (getElem_mem hlt)
  have hpos : ∀ {r : List ℤ}, RowOk vb₀.numServers vb₀.numReplicas r → 0 < r.length := by
    intro r hr
    have := hr.1
    omega
  have hrowlt := hpos hrow
  have hreplicas : vb.numReplicas = vb₀.numReplicas := by rw [hv.same]
  have hservers : vb.numServers = vb₀.numServers := by rw [hv.same]
  have hforward : vb.fvbuckets = vb₀.fvbuckets := by rw [hv.same]
  have hrowAt : rowAt vb.vbuckets x.1 = .ok rows[x.1] := by rw [hvb]; exact rowAt_eq hlt
  cases hf : vb₀.fvbuckets with
  | some frows =>
    have hfrows := hv.frows frows hf
    have hflt : x.1 < frows.length := by rw [hfrows.length_eq]; exact hx
    have hfrow := hfrows.row _ (getElem_mem hflt)
    have hfrowlt := hpos hfrow
    have hrv := hfrow.2 _ (getElem_mem hfrowlt)
    obtain ⟨row, hcopy, hrow'⟩ := foldlM_copyReplicas hfrow (hrow.set 0 hrv)
    refine ⟨_, frows[x.1][0], ?_, hv.withRow x.1 hrow'⟩
    rw [← hreplicas] at hcopy
    simp only [Libvbucket.learn, vbucketFoundIncorrectMaster, hrowAt, hforward, hf, rowAt_eq hflt,
      entryAt_eq hrowlt, entryAt_eq hfrowlt, bind, Except.bind, hcopy]
  | none =>
    by_cases hwrong : rows[x.1][0] = x.2
    · have hmapped := hrow.2 _ (getElem_mem hrowlt)
      have hservers_pos := hv.numServers_pos
      have hrv : -1 ≤ (rows[x.1][0] + 1).tmod vb.numServers ∧
          (rows[x.1][0] + 1).tmod vb.numServers < vb₀.numServers := by
        have h1 := Int.tmod_nonneg (vb.numServers : ℤ) (show 0 ≤ rows[x.1][0] + 1 by omega)
        have h2 := Int.tmod_lt_of_pos (rows[x.1][0] + 1)
          (show (0 : ℤ) < vb.numServers by omega)
        omega
      refine ⟨_, (rows[x.1][0] + 1).tmod vb.numServers, ?_, hv.withRow x.1 (hrow.set 0 hrv)⟩
      simp only [Libvbucket.learn, vbucketFoundIncorrectMaster, hrowAt, hforward, hf,
        entryAt_eq hrowlt, bind, Except.bind, if_pos hwrong]
      rw [if_neg (by omega)]
    · refine ⟨vb, rows[x.1][0], ?_, hv⟩
      simp only [Libvbucket.learn, vbucketFoundIncorrectMaster, hrowAt, hforward, hf,
        entryAt_eq hrowlt, bind, Except.bind, if_neg hwrong]

def InRange (vb : Config) (r : ℕ × ℤ) : Prop :=
  match vb.distribution with
  | .vbucket => r.1 < vb.numVbuckets ∧ -1 ≤ r.2 ∧ r.2 < vb.numServers
  | .ketama => r.1 = 0 ∧ 0 ≤ r.2 ∧ r.2 < vb.numServers

theorem Valid.vbucketMap (hv : Valid vb₀ vb) (hk : 0 ≤ vb₀.numReplicas) (key : Bytes) :
    ∃ r, Libvbucket.vbucketMap h vb key = .ok r ∧ InRange vb₀ r := by
  obtain ⟨rows, hvb, hrows⟩ := hv.rows
  have hd : vb.distribution = .vbucket := by rw [hv.same]; exact hv.distribution_eq
  have hmask : vb.mask = vb₀.mask := by rw [hv.same]
  have hid : vbucketGetVbucketByKey h vb key < vb₀.numVbuckets := by
    rw [vbucketGetVbucketByKey, hmask]
    exact lt_of_le_of_lt Nat.and_le_right hv.mask_lt
  have hlt : vbucketGetVbucketByKey h vb key < rows.length := by rw [hrows.length_eq]; exact hid
  have hrow := hrows.row _ (getElem_mem hlt)
  have hpos : 0 < rows[vbucketGetVbucketByKey h vb key].length := by
    have := hrow.1
    omega
  refine ⟨(vbucketGetVbucketByKey h vb key, rows[vbucketGetVbucketByKey h vb key][0]), ?_, ?_⟩
  · simp only [Libvbucket.vbucketMap, hd, vbucketGetMaster, hvb, rowAt_eq hlt, entryAt_eq hpos, bind,
      Except.bind]
  · rw [InRange, hv.distribution_eq]
    exact ⟨hid, hrow.2 _ (getElem_mem hpos)⟩

/-- The calls that the handle is made for. -/
def MayLearn (vb : Config) (xs : List (ℕ × ℤ)) : Prop :=
  ∀ x ∈ xs, vb.distribution = .vbucket ∧ x.1 < vb.numVbuckets

/-- Whatever the handle learns, every key is sent into range, and from filled entries. -/
def Routes (h : Hashes) (vb : Config) : Prop :=
  ∀ xs, MayLearn vb xs → ∃ vb' rs, run learn vb xs = .ok (vb', rs) ∧
    ∀ key, ∃ r, vbucketMap h vb' key = .ok r ∧ InRange vb r

/-- The document names one of the two locators, or none, and a server map is not for minus one
replica. -/
def Complete (c : Json) : Prop :=
  c.getObjectItem "nodeLocator" = some (.string (bytes "ketama")) ∨
    ((c.getObjectItem "nodeLocator" = none ∨
        c.getObjectItem "nodeLocator" = some (.string (bytes "vbucket"))) ∧
      (serverMap c).getObjectItem "numReplicas" ≠ some (.number (-1)))

theorem Valid.routes (hv : Valid vb vb) (hk : 0 ≤ vb.numReplicas) : Routes h vb := by
  intro xs hxs
  have hrun : ∀ vb1, Valid vb vb1 → ∃ vb' rs, run Libvbucket.learn vb1 xs = .ok (vb', rs) ∧
      Valid vb vb' := by
    induction xs with
    | nil => exact fun vb1 hv1 => ⟨vb1, [], rfl, hv1⟩
    | cons x xs ih =>
      intro vb1 hv1
      obtain ⟨vb2, rv, hstep, hv2⟩ := hv1.learn hk (hxs x (.head _)).2
      obtain ⟨vb', rs, hrest, hv'⟩ := ih (fun y hy => hxs y (.tail _ hy)) vb2 hv2
      exact ⟨vb', rv :: rs, run_cons_ok.mpr ⟨vb2, rv, rs, hstep, hrest, rfl⟩, hv'⟩
  obtain ⟨vb', rs, hr, hv'⟩ := hrun vb hv
  exact ⟨vb', rs, hr, fun key => hv'.vbucketMap hk key⟩

/-- With minus one replica the rows are empty. -/
theorem Valid.routes_iff (hv : Valid vb vb) (hpos : 0 < vb.numVbuckets) :
    Routes h vb ↔ vb.numReplicas ≠ -1 := by
  obtain ⟨rows, hvb, hrows⟩ := hv.rows
  constructor
  · intro hroutes heq
    obtain ⟨vb', rs, hrun, hmap⟩ := hroutes [] (by intro x hx; cases hx)
    cases hrun
    obtain ⟨r, hr, -⟩ := hmap []
    simp only [Libvbucket.vbucketMap, hv.distribution_eq, vbucketGetMaster, hvb] at hr
    obtain ⟨s, hs, -⟩ := bind_eq_ok.mp hr
    obtain ⟨row, hrow, hs⟩ := bind_eq_ok.mp hs
    have hmem : row ∈ rows := by
      simp only [rowAt] at hrow
      split at hrow
      · cases hrow
      next r' hr' =>
        cases hrow
        exact mem_of_getElem? hr'
    have hlen := (hrows.row row hmem).1
    have hnil : row = [] := length_eq_zero_iff.mp (by omega)
    rw [hnil] at hs
    cases hs
  · intro hne
    apply hv.routes
    have hlen : 0 < rows.length := by rw [hrows.length_eq]; exact hpos
    have := (hrows.row _ (getElem_mem hlen)).1
    omega

theorem Ketama.routes (hv : Ketama h q vb) (hk : vb.distribution = .ketama) : Routes h vb := by
  intro xs hxs
  have hnil : xs = [] := by
    apply eq_nil_iff_forall_not_mem.mpr
    intro x hx
    have := (hxs x hx).1
    rw [hk] at this
    cases this
  subst hnil
  refine ⟨vb, [], rfl, ?_⟩
  intro key
  obtain ⟨i, a, p, hmap, hlt, -, -⟩ := hv.vbucketMap hk key
  refine ⟨_, hmap, ?_⟩
  rw [InRange, hk]
  exact ⟨rfl, by omega, by omega⟩

/-- A document that is accepted routes every key into range, whatever is learned, exactly if it is
complete. -/
theorem routes_iff_complete {c : Json}
    (hp : vbucketConfigParseString h q (some c) = .ok vb) : Routes h vb ↔ Complete c := by
  have hbytes : bytes "vbucket" ≠ bytes "ketama" := by decide +kernel
  have hparsed : ∀ {vb₀ : Config}, vb₀.distribution = .vbucket → parseVbucketConfig vb₀ c = .ok vb →
      (Routes h vb ↔ (serverMap c).getObjectItem "numReplicas" ≠ some (.number (-1))) := by
    intro vb₀ hd hvb
    obtain ⟨hv, hpos, hk⟩ := parseVbucketConfig_valid hd hvb
    rw [hv.routes_iff hpos, hk]
    simp
  rw [Complete]
  unfold vbucketConfigParseString parseCjson at hp
  dsimp only at hp
  cases hl : c.getObjectItem "nodeLocator" with
  | none =>
    simp only [hl] at hp
    rw [hparsed rfl hp]
    simp
  | some j =>
    cases j with
    | string s =>
      simp only [hl] at hp
      split_ifs at hp with h₁ h₂
      · subst h₁
        rw [hparsed rfl hp]
        simp [hbytes]
      · subst h₂
        obtain ⟨hv, hd⟩ := parseKetamaConfig_ketama hp
        simpa using hv.routes hd
      · cases hp
        simp only [reduceCtorEq, Option.some.injEq, Json.string.injEq, h₁, h₂, or_self, false_and,
          iff_false]
        -- the maps have not been allocated
        intro hroutes
        obtain ⟨vb', rs, hrun, hmap⟩ := hroutes [] (by intro x hx; cases hx)
        cases hrun
        obtain ⟨r, hr, -⟩ := hmap []
        cases hr
    | null | bool | number | array | object =>
      simp only [hl] at hp
      cases hp

def sampleMap (locator : String) (numReplicas : ℤ) (row : List ℤ) : Json :=
  .object [("nodeLocator", .string (bytes locator)), ("numReplicas", .number numReplicas),
    ("serverList", .array [.string (bytes "a:11211"), .string (bytes "b:11211")]),
    ("vBucketMap", .array [.array (row.map .number), .array (row.map .number)])]

theorem routes_iff_complete_two :
    ∃ vb, vbucketConfigParseString sampleHashes sampleQsort (some (sampleMap "vbucket" 1 [0, -1])) =
        .ok vb ∧ Routes sampleHashes vb := by
  cases hp : vbucketConfigParseString sampleHashes sampleQsort
      (some (sampleMap "vbucket" 1 [0, -1])) with
  | error e =>
    have hok : (vbucketConfigParseString sampleHashes sampleQsort
        (some (sampleMap "vbucket" 1 [0, -1]))).isOk := by decide +kernel
    rw [hp] at hok
    cases hok
  | ok vb =>
    have hnames : ("nodeLocator".toLower == "vBucketServerMap".toLower) = false ∧
        ("numReplicas".toLower == "vBucketServerMap".toLower) = false ∧
        ("serverList".toLower == "vBucketServerMap".toLower) = false ∧
        ("vBucketMap".toLower == "vBucketServerMap".toLower) = false ∧
        ("nodeLocator".toLower == "numReplicas".toLower) = false := by
      decide +kernel
    refine ⟨vb, rfl, (routes_iff_complete hp).mpr (.inr ⟨.inr ?_, ?_⟩)⟩
    · simp [sampleMap, Json.getObjectItem]
    · simp only [sampleMap, serverMap, Json.getObjectItem, List.find?_cons, hnames]
      simp

/-- A document with an unknown locator is accepted, and so is a map for minus one replica; keys are
then mapped through no map, or from entries that nothing has filled in. -/
theorem accepted_unroutable :
    (∃ vb, vbucketConfigParseString sampleHashes sampleQsort (some (sampleMap "modulo" 0 [0])) =
        .ok vb ∧ vbucketMap sampleHashes vb [] = .error .null) ∧
      ∃ vb, vbucketConfigParseString sampleHashes sampleQsort (some (sampleMap "vbucket" (-1) [])) =
        .ok vb ∧ vbucketMap sampleHashes vb [] = .error .unfilled := by
  have hmaps : ((vbucketConfigParseString sampleHashes sampleQsort
        (some (sampleMap "modulo" 0 [0]))).toOption.map
          fun vb => vbucketMap sampleHashes vb []) = some (.error .null) ∧
      ((vbucketConfigParseString sampleHashes sampleQsort
        (some (sampleMap "vbucket" (-1) []))).toOption.map
          fun vb => vbucketMap sampleHashes vb []) = some (.error .unfilled) := by
    decide +kernel
  have hok : ∀ {x : Except ParseError Config} {e : Fault},
      (x.toOption.map fun vb => vbucketMap sampleHashes vb []) = some (.error e) →
      ∃ vb, x = .ok vb ∧ vbucketMap sampleHashes vb [] = .error e := by
    intro x e hx
    cases x with
    | error _ => cases hx
    | ok vb => exact ⟨vb, rfl, Option.some.inj hx⟩
  exact ⟨hok hmaps.1, hok hmaps.2⟩

end Appstack.Libvbucket
