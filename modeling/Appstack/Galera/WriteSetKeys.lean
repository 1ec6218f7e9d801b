import Appstack.Galera.WriteSet

namespace Appstack.Galera.Wire

open Layout List

variable {a b c rest : List UInt8} {w n off : ℕ}

theorem unserializeInt_append (ha : a.length = off) (hn : n < 256 ^ w) :
    unserializeInt w (a ++ littleEndian w n ++ c) off = .ok (n, off + w) := by
  rw [unserializeInt, load_append ha (length_littleEndian w n)]
  simp only [ofLittleEndian_littleEndian, Nat.mod_eq_of_lt hn]

def packed (w : ℕ) (b : List UInt8) : List UInt8 := littleEndian w b.length ++ b

@[simp] theorem length_packed : (packed w b).length = w + b.length := by
  simp [packed]

theorem unserializeBuffer_append (ha : a.length = off) (hb : b.length < 256 ^ w) :
    unserializeBuffer w (a ++ packed w b ++ c) off = .ok (b, off + w + b.length) := by
  have hlen : unserializeInt w (a ++ packed w b ++ c) off = .ok (b.length, off + w) := by
    rw [packed, ← append_assoc, append_assoc _ b c]
    exact unserializeInt_append ha hb
  have hload : load (a ++ packed w b ++ c) (off + w) b.length = some b := by
    rw [packed, ← append_assoc]
    exact load_append (by simp [ha]) rfl
  simp only [unserializeBuffer, hlen, hload, bind, Except.bind, pure, Except.pure]

theorem serialSize_eq (hb : b.length < 256 ^ w) : serialSize w b = .ok (w + b.length) := by
  rw [serialSize, if_neg (by omega)]

theorem serializeInt_append (ha : a.length = off) (hrest : w ≤ rest.length) :
    serializeInt w n (a ++ rest) off = .ok (a ++ littleEndian w n ++ rest.drop w, off + w) := by
  have hroom : ¬ (a ++ rest).length < off + w := by
    rw [length_append]
    omega
  simp only [serializeInt, if_neg hroom, store_append ha, length_littleEndian]

theorem serializeBuffer_append (ha : a.length = off) (hb : b.length < 256 ^ w)
    (hrest : w + b.length ≤ rest.length) :
    serializeBuffer w b (a ++ rest) off =
      .ok (a ++ packed w b ++ rest.drop (w + b.length), off + (w + b.length)) := by
  have hroom : ¬ (a ++ rest).length < off + (w + b.length) := by
    rw [length_append]
    omega
  have hstore : store (a ++ littleEndian w b.length ++ rest.drop w) (off + w) b =
      a ++ packed w b ++ rest.drop (w + b.length) := by
    rw [store_append (by simp [ha]), drop_drop, packed, append_assoc a]
  simp only [serializeBuffer, serialSize_eq hb, serializeInt_append ha (by omega : w ≤ rest.length),
    bind, Except.bind, if_neg hroom, pure, Except.pure, hstore]

variable {buf buf' : List UInt8} {off' : ℕ}

theorem serializeBuffer_eq_ok (h : serializeBuffer w b buf off = .ok (buf', off')) :
    b.length < 256 ^ w ∧ off + (w + b.length) ≤ buf.length := by
  have hpow : 0 < 256 ^ w := by positivity
  simp only [serializeBuffer, serialSize, bind, Except.bind] at h
  by_cases hsize : 256 ^ w - 1 < b.length
  · rw [if_pos hsize] at h
    cases h
  · simp only [if_neg hsize] at h
    by_cases hroom : buf.length < off + (w + b.length)
    · rw [if_pos hroom] at h
      cases h
    · exact ⟨by omega, by omega⟩

def Key.bytes (k : Key) : List UInt8 := k.flags :: packed 2 k.keys

/-- A key of version 2 whose size can be written down. -/
def Key.Fits (k : Key) : Prop := k.version = 2 ∧ k.keys.length < 256 ^ 2

variable {k k' : Key} {ks : List Key}

@[simp] theorem Key.length_bytes : k.bytes.length = 3 + k.keys.length := by
  simp [Key.bytes]
  omega

theorem littleEndian_one_flags (f : UInt8) : littleEndian 1 f.toNat = [f] := by
  simp [littleEndian, BigEndian.encode]

theorem Key.unserialize_append (hk : k.Fits) (ha : a.length = off) :
    Key.unserialize 2 (a ++ k.bytes ++ c) off = .ok (k, off + k.bytes.length) := by
  obtain ⟨hv, hsize⟩ := hk
  have hflags : unserializeInt 1 (a ++ k.bytes ++ c) off = .ok (k.flags.toNat, off + 1) := by
    have h := unserializeInt_append (c := packed 2 k.keys ++ c) (w := 1) ha k.flags.toNat_lt
    rwa [littleEndian_one_flags, append_assoc, ← append_assoc [k.flags], ← append_assoc] at h
  have hkeys : unserializeBuffer 2 (a ++ k.bytes ++ c) (off + 1) =
      .ok (k.keys, off + 1 + 2 + k.keys.length) := by
    have h : unserializeBuffer 2 (a ++ [k.flags] ++ packed 2 k.keys ++ c) (off + 1) = _ :=
      unserializeBuffer_append (by simp [ha]) hsize
    rwa [append_assoc a] at h
  have hoff : off + 1 + 2 + k.keys.length = off + k.bytes.length := by
    rw [Key.length_bytes]
    omega
  have hkey : (⟨2, k.flags, k.keys⟩ : Key) = k := by rw [← hv]
  simp only [Key.unserialize, hflags, hkeys, bind, Except.bind, pure, Except.pure, hoff,
    UInt8.ofNat_toNat, hkey]

theorem Key.serialize_append (hk : k.Fits) (ha : a.length = off)
    (hrest : k.bytes.length ≤ rest.length) :
    k.serialize (a ++ rest) off =
      .ok (a ++ k.bytes ++ rest.drop k.bytes.length, off + k.bytes.length) := by
  obtain ⟨hv, hsize⟩ := hk
  rw [Key.length_bytes] at hrest
  have hflags := serializeInt_append (n := k.flags.toNat) (w := 1) ha
    (by omega : 1 ≤ rest.length)
  rw [littleEndian_one_flags] at hflags
  have hdrop : 2 + k.keys.length ≤ (rest.drop 1).length := by
    rw [length_drop]
    omega
  have hkeys : serializeBuffer 2 k.keys (a ++ [k.flags] ++ rest.drop 1) (off + 1) = _ :=
    serializeBuffer_append (by simp [ha]) hsize hdrop
  have hlen : 1 + (2 + k.keys.length) = k.bytes.length := by
    rw [Key.length_bytes]
    omega
  have hout : a ++ [k.flags] ++ packed 2 k.keys ++ (rest.drop 1).drop (2 + k.keys.length) =
      a ++ k.bytes ++ rest.drop k.bytes.length := by
    rw [drop_drop, hlen, append_assoc a]
    rfl
  simp only [Key.serialize, hv, hflags, hkeys, bind, Except.bind, hout, Nat.add_assoc, hlen]

theorem Key.written_eq_bytes (hk : k.Fits) (h : k.serialize buf off = .ok (buf', off')) :
    (buf'.drop off).take (off' - off) = k.bytes := by
  have hroom : off + k.bytes.length ≤ buf.length := by
    simp only [Key.serialize, hk.1, bind, Except.bind] at h
    cases hf : serializeInt 1 k.flags.toNat buf off with
    | error e => simp [hf] at h
    | ok r =>
      simp only [hf] at h
      have hroom := (serializeBuffer_eq_ok h).2
      simp only [serializeInt] at hf
      split_ifs at hf with hbuf
      cases hf
      have hlen : (store buf off (littleEndian 1 k.flags.toNat)).length = buf.length :=
        length_store _ _ _ (by rw [length_littleEndian]; omega)
      rw [hlen] at hroom
      rw [Key.length_bytes]
      omega
  have hoff : (buf.take off).length = off := by
    rw [length_take]
    omega
  have hser := Key.serialize_append hk hoff
    (by rw [length_drop]; omega : k.bytes.length ≤ (buf.drop off).length)
  rw [take_append_drop, h] at hser
  cases hser
  rw [append_assoc, drop_left' hoff, Nat.add_sub_cancel_left, take_left]

theorem Key.bytes_inj (hk : k.Fits) (hk' : k'.Fits) (h : k.bytes = k'.bytes) : k = k' := by
  have h1 := Key.unserialize_append (a := []) (c := []) hk rfl
  have h2 := Key.unserialize_append (a := []) (c := []) hk' rfl
  rw [h, h2] at h1
  exact (congrArg Prod.fst (Except.ok.inj h1)).symm

theorem Key.serialSize_eq (hk : k.Fits) : k.serialSize = .ok k.bytes.length := by
  rw [Key.length_bytes]
  simp only [Key.serialSize, hk.1, Wire.serialSize_eq hk.2, bind, Except.bind, pure, Except.pure]
  congr 1
  omega

theorem scanKeys_append {fuel : ℕ} (hks : ∀ k ∈ ks, k.Fits) (ha : a.length = off)
    (hfuel : ks.length < fuel) :
    scanKeys 2 (a ++ ks.flatMap Key.bytes ++ c) (off + (ks.flatMap Key.bytes).length) fuel off =
      .ok (ks, off + (ks.flatMap Key.bytes).length) := by
  induction ks generalizing a off fuel with
  | nil =>
    obtain ⟨fuel, rfl⟩ : ∃ f, fuel = f + 1 := ⟨fuel - 1, by omega⟩
    rw [scanKeys]
    simp
  | cons k ks ih =>
    obtain ⟨fuel, rfl⟩ : ∃ f, fuel = f + 1 := ⟨fuel - 1, by omega⟩
    have hfits := hks k (.head _)
    have hbuf : a ++ (k :: ks).flatMap Key.bytes ++ c =
        a ++ k.bytes ++ (ks.flatMap Key.bytes ++ c) := by
      simp [flatMap_cons]
    have hend : off + ((k :: ks).flatMap Key.bytes).length =
        off + k.bytes.length + (ks.flatMap Key.bytes).length := by
      simp only [flatMap_cons, length_append]
      omega
    have hpos : off < off + k.bytes.length + (ks.flatMap Key.bytes).length := by
      rw [Key.length_bytes]
      omega
    have hne : off + k.bytes.length ≠ 0 := by
      rw [Key.length_bytes]
      omega
    have hrest : scanKeys 2 (a ++ k.bytes ++ ks.flatMap Key.bytes ++ c)
        (off + k.bytes.length + (ks.flatMap Key.bytes).length) fuel (off + k.bytes.length) = _ :=
      ih (fun k hk => hks k (.tail _ hk)) (by simp [ha]) (by simpa using hfuel)
    rw [append_assoc] at hrest
    rw [hbuf, hend, scanKeys, if_pos hpos]
    simp only [Key.unserialize_append hfits ha, hrest, bind, Except.bind, if_neg hne, pure,
      Except.pure]

theorem length_le_flatMap_bytes (ks : List Key) : ks.length ≤ (ks.flatMap Key.bytes).length := by
  induction ks with
  | nil => rfl
  | cons k ks ih =>
    rw [flatMap_cons, length_append, Key.length_bytes, length_cons]
    omega

def refsOf (hash : List UInt8 → ℕ) : ℕ → List Key → List (ℕ × ℕ)
  | _, [] => []
  | off, k :: ks => (hash k.keys, off) :: refsOf hash (off + k.bytes.length) ks

variable {hash : List UInt8 → ℕ} {ws : WriteSet}

theorem refsOf_append_singleton (hash : List UInt8 → ℕ) (off : ℕ) (ks : List Key) (k : Key) :
    refsOf hash off (ks ++ [k]) =
      refsOf hash off ks ++ [(hash k.keys, off + (ks.flatMap Key.bytes).length)] := by
  induction ks generalizing off with
  | nil => simp [refsOf]
  | cons x ks ih => simp [refsOf, ih, Nat.add_assoc]

structure WriteSet.Holds (hash : List UInt8 → ℕ) (ws : WriteSet) (ks : List Key) : Prop where
  version : ws.version = 2
  fits : ∀ k ∈ ks, k.Fits
  keys : ws.keys = ks.flatMap Key.bytes
  refs : ws.keyRefs = refsOf hash 0 ks

theorem WriteSet.hasKey_eq (hv : ws.version = 2) (hkeys : ws.keys = a ++ ks.flatMap Key.bytes)
    (ha : a.length = off) (hks : ∀ k ∈ ks, k.Fits) (hk : k.Fits) :
    ws.hasKey k (((refsOf hash off ks).filter (·.1 = hash k.keys)).map Prod.snd) =
      .ok (decide (k ∈ ks)) := by
  induction ks generalizing a off with
  | nil => rfl
  | cons x ks ih =>
    have hx := hks x (.head _)
    have hrest : ws.hasKey k (((refsOf hash (off + x.bytes.length) ks).filter
        (·.1 = hash k.keys)).map Prod.snd) = _ :=
      ih (a := a ++ x.bytes) (by simp [hkeys, flatMap_cons]) (by simp [ha])
        fun k hk => hks k (.tail _ hk)
    by_cases hhash : hash x.keys = hash k.keys
    · have hun : Key.unserialize ws.version ws.keys off = .ok (x, off + x.bytes.length) := by
        rw [hv, hkeys, flatMap_cons, ← append_assoc]
        exact Key.unserialize_append hx ha
      have heq : (k.keys = x.keys ∧ k.flags = x.flags) ↔ k = x := by
        constructor
        · rintro ⟨h1, h2⟩
          obtain ⟨kv, kf, kk⟩ := k
          obtain ⟨xv, xf, xk⟩ := x
          have hver : kv = xv := hk.1.trans hx.1.symm
          simp_all
        · rintro rfl
          exact ⟨rfl, rfl⟩
      simp only [refsOf, filter_cons, hhash, decide_true, if_true, map_cons,
        WriteSet.hasKey, hun, bind, Except.bind, heq, hrest]
      by_cases hkx : k = x
      · simp [hkx, pure, Except.pure]
      · simp [hkx]
    · have hne : k ≠ x := fun h => hhash (by rw [h])
      simp only [refsOf, filter_cons, hhash, decide_false, Bool.false_eq_true, if_false, hrest]
      simp [hne]

theorem WriteSet.Holds.appendKey (h : ws.Holds hash ks) (hk : k.Fits) :
    ∃ ws', ws.appendKey hash k = .ok ws' ∧ ws'.data = ws.data ∧
      ws'.Holds hash (if k ∈ ks then ks else ks ++ [k]) := by
  have hhas : ws.hasKey k ((ws.keyRefs.filter (·.1 = hash k.keys)).map Prod.snd) =
      .ok (decide (k ∈ ks)) := by
    rw [h.refs]
    exact WriteSet.hasKey_eq (a := []) h.version h.keys rfl h.fits hk
  by_cases hmem : k ∈ ks
  · refine ⟨ws, ?_, rfl, by rwa [if_pos hmem]⟩
    simp only [WriteSet.appendKey, hhas, bind, Except.bind, hmem, decide_true, if_true, pure,
      Except.pure]
  · have hser : k.serialize (ws.keys ++ List.replicate k.bytes.length 0) ws.keys.length = _ :=
      Key.serialize_append hk rfl (by simp)
    rw [drop_eq_nil_of_le (by simp), append_nil] at hser
    refine ⟨{ ws with
      keys := ws.keys ++ k.bytes
      keyRefs := ws.keyRefs ++ [(hash k.keys, ws.keys.length)] }, ?_, rfl, ?_⟩
    · simp only [WriteSet.appendKey, hhas, bind, Except.bind, hmem, decide_false,
        Bool.false_eq_true, if_false, Key.serialSize_eq hk, hser, pure, Except.pure]
    · rw [if_neg hmem]
      refine ⟨h.version, ?_, ?_, ?_⟩
      · intro x hx
        rcases mem_append.mp hx with hx | hx
        · exact h.fits x hx
        · rwa [mem_singleton.mp hx]
      · simp [h.keys]
      · simp [refsOf_append_singleton, h.refs, h.keys]

theorem WriteSet.Holds.getKeys (h : ws.Holds hash ks) : ws.getKeys = .ok ks := by
  have hlen : ks.length < ws.keys.length + 1 := by
    rw [h.keys]
    exact Nat.lt_succ_of_le (length_le_flatMap_bytes ks)
  have hscan := scanKeys_append (a := []) (c := []) h.fits rfl hlen
  simp only [nil_append, append_nil, length_nil, Nat.zero_add, ← h.keys] at hscan
  simp only [WriteSet.getKeys, h.version, hscan, bind, Except.bind, pure, Except.pure]

theorem WriteSet.Holds.scan (h : ws.Holds hash ks) (ha : a.length = off)
    (hsize : ws.keys.length < 256 ^ 4) :
    WriteSet.scan (a ++ packed 4 ws.keys ++ c) off 2 = .ok (ks, off + (4 + ws.keys.length)) := by
  have hbuf : a ++ packed 4 ws.keys ++ c =
      a ++ littleEndian 4 ws.keys.length ++ ks.flatMap Key.bytes ++ c := by
    rw [packed, ← h.keys, ← append_assoc a]
  have hseg : WriteSet.segment (a ++ packed 4 ws.keys ++ c) off =
      .ok (off + 4, ws.keys.length) := by
    have hint : unserializeInt 4 (a ++ packed 4 ws.keys ++ c) off =
        .ok (ws.keys.length, off + 4) := by
      rw [hbuf, append_assoc (a ++ _)]
      exact unserializeInt_append ha hsize
    have hroom : ¬ (a ++ packed 4 ws.keys ++ c).length < off + 4 + ws.keys.length := by
      simp only [length_append, length_packed, ha]
      omega
    simp only [WriteSet.segment, hint, bind, Except.bind, if_neg hroom, pure, Except.pure]
  have hlen : ks.length < ws.keys.length + 1 := by
    rw [h.keys]
    exact Nat.lt_succ_of_le (length_le_flatMap_bytes ks)
  have hscan : scanKeys 2 (a ++ littleEndian 4 ws.keys.length ++ ks.flatMap Key.bytes ++ c)
      (off + 4 + (ks.flatMap Key.bytes).length) (ws.keys.length + 1) (off + 4) = _ :=
    scanKeys_append h.fits (by simp [ha]) hlen
  rw [← hbuf, ← h.keys] at hscan
  simp only [WriteSet.scan, hseg, bind, Except.bind, hscan]
  congr 2
  omega

theorem WriteSet.serialize_append (ha : a.length = off) (hkeys : ws.keys.length < 256 ^ 4)
    (hdata : ws.data.length < 256 ^ 4)
    (hrest : 4 + ws.keys.length + (4 + ws.data.length) ≤ rest.length) :
    ws.serialize (a ++ rest) off = .ok (a ++ packed 4 ws.keys ++ (packed 4 ws.data ++
          rest.drop (4 + ws.keys.length + (4 + ws.data.length))),
        off + (4 + ws.keys.length) + (4 + ws.data.length)) := by
  have h1 := serializeBuffer_append ha hkeys (by omega : 4 + ws.keys.length ≤ rest.length)
  have h2 : serializeBuffer 4 ws.data (a ++ packed 4 ws.keys ++ rest.drop (4 + ws.keys.length))
      (off + (4 + ws.keys.length)) = _ :=
    serializeBuffer_append (by simp [ha]) hdata (by rw [length_drop]; omega)
  rw [drop_drop, append_assoc (a ++ packed 4 ws.keys)] at h2
  simp only [WriteSet.serialize, h1, bind, Except.bind, h2]

theorem WriteSet.serialize_eq_ok (h : ws.serialize buf off = .ok (buf', off')) :
    ws.keys.length < 256 ^ 4 ∧ ws.data.length < 256 ^ 4 ∧
      off + (4 + ws.keys.length + (4 + ws.data.length)) ≤ buf.length := by
  simp only [WriteSet.serialize, bind, Except.bind] at h
  cases h1 : serializeBuffer 4 ws.keys buf off with
  | error e => simp [h1] at h
  | ok r =>
    obtain ⟨hkeys, hroom⟩ := serializeBuffer_eq_ok h1
    have hsplit : buf.take off ++ buf.drop off = buf := take_append_drop off buf
    have hoff : (buf.take off).length = off := by
      rw [length_take]
      omega
    have h1' := serializeBuffer_append hoff hkeys
      (by rw [length_drop]; omega : 4 + ws.keys.length ≤ (buf.drop off).length)
    rw [hsplit, h1] at h1'
    cases h1'
    simp only [h1] at h
    obtain ⟨hdata, hroom2⟩ := serializeBuffer_eq_ok h
    refine ⟨hkeys, hdata, ?_⟩
    simp only [length_append, length_packed, length_drop, hoff] at hroom2
    omega

/-- The arguments of a key: at most 255 parts of at most 255 bytes. -/
structure KeyArgs where
  parts : List (List UInt8)
  flags : UInt8
  deriving DecidableEq

namespace KeyArgs
variable {k k' : KeyArgs}

def Bounded (k : KeyArgs) : Prop := k.parts.length ≤ 255 ∧ ∀ p ∈ k.parts, p.length ≤ 255

def toKey (k : KeyArgs) : Key := ⟨2, k.flags, k.parts.flatMap packPart⟩

theorem make_eq (hk : k.Bounded) : Key.make 2 k.parts k.flags = .ok k.toKey := by
  rw [Key.make, if_neg (by have := hk.1; omega), if_pos (.inr rfl)]
  rfl

theorem length_flatMap_packPart_le (parts : List (List UInt8)) :
    (parts.flatMap packPart).length ≤ parts.length * 256 := by
  induction parts with
  | nil => rfl
  | cons p parts ih =>
    have hp : (packPart p).length ≤ 256 := by
      simp [packPart]
    rw [flatMap_cons, length_append, length_cons, Nat.succ_mul]
    omega

theorem toKey_fits (hk : k.Bounded) : k.toKey.Fits := by
  have hlen := length_flatMap_packPart_le k.parts
  have hparts := hk.1
  refine ⟨rfl, ?_⟩
  change (k.parts.flatMap packPart).length < 256 ^ 2
  omega

theorem packPart_of_le {p : List UInt8} (hp : p.length ≤ 255) :
    packPart p = UInt8.ofNat p.length :: p := by
  simp [packPart, take_of_length_le hp]

theorem keyPartsFrom_flatMap {fuel : ℕ} {parts : List (List UInt8)}
    (hparts : ∀ p ∈ parts, p.length ≤ 255) (hfuel : parts.length ≤ fuel) :
    keyPartsFrom fuel (parts.flatMap packPart) = .ok parts := by
  induction parts generalizing fuel with
  | nil => cases fuel <;> rfl
  | cons p parts ih =>
    obtain ⟨fuel, rfl⟩ : ∃ f, fuel = f + 1 := ⟨fuel - 1, by simp at hfuel; omega⟩
    have hp := hparts p (.head _)
    have hlen : (UInt8.ofNat p.length).toNat = p.length := by
      rw [UInt8.toNat_ofNat']
      exact Nat.mod_eq_of_lt (by omega)
    have hrest := ih (fun q hq => hparts q (.tail _ hq)) (by simpa using hfuel)
    rw [flatMap_cons, packPart_of_le hp, cons_append, keyPartsFrom, hlen,
      if_neg (by simp), drop_left, take_left, hrest]
    rfl

theorem keyParts_toKey (hk : k.Bounded) : k.toKey.keyParts = .ok k.parts := by
  apply keyPartsFrom_flatMap hk.2
  have hge : ∀ parts : List (List UInt8), parts.length ≤ (parts.flatMap packPart).length := by
    intro parts
    induction parts with
    | nil => rfl
    | cons p parts ih =>
      rw [flatMap_cons, length_append, length_cons, packPart, length_cons]
      omega
  exact hge k.parts

theorem toKey_inj (hk : k.Bounded) (hk' : k'.Bounded) (h : k.toKey = k'.toKey) : k = k' := by
  have hparts : (.ok k.parts : Result _) = .ok k'.parts := by
    rw [← keyParts_toKey hk, ← keyParts_toKey hk', h]
  obtain ⟨parts, flags⟩ := k
  obtain ⟨parts', flags'⟩ := k'
  have hflags : flags = flags' := congrArg Key.flags h
  simp_all

end KeyArgs

def appendKeys (hash : List UInt8 → ℕ) (ws : WriteSet) (ks : List KeyArgs) : Result WriteSet :=
  ks.foldlM (fun ws k => do ws.appendKey hash (← Key.make ws.version k.parts k.flags)) ws

theorem appendKeys_holds (hash : List UInt8 → ℕ) {ks : List KeyArgs} (hks : ∀ k ∈ ks, k.Bounded) :
    ∃ ws, appendKeys hash (.new 2) ks = .ok ws ∧ ws.data = [] ∧
      ws.Holds hash (ks.eraseDups.map KeyArgs.toKey) := by
  induction ks using List.reverseRecOn with
  | nil => exact ⟨.new 2, rfl, rfl, rfl, by simp, rfl, rfl⟩
  | append_singleton ks k ih =>
    obtain ⟨ws, hws, hdata, hholds⟩ := ih fun k hk => hks k (mem_append_left _ hk)
    have hk : k.Bounded := hks k (by simp)
    obtain ⟨ws', hws', hdata', hholds'⟩ := hholds.appendKey (KeyArgs.toKey_fits hk)
    have hmem : k.toKey ∈ ks.eraseDups.map KeyArgs.toKey ↔ k ∈ ks := by
      rw [mem_map]
      constructor
      · rintro ⟨x, hx, heq⟩
        rw [mem_eraseDups] at hx
        rwa [← KeyArgs.toKey_inj (hks x (mem_append_left _ hx)) hk heq]
      · exact fun h => ⟨k, mem_eraseDups.mpr h, rfl⟩
    have hdups : (ks ++ [k]).eraseDups.map KeyArgs.toKey =
        if k.toKey ∈ ks.eraseDups.map KeyArgs.toKey then ks.eraseDups.map KeyArgs.toKey
        else ks.eraseDups.map KeyArgs.toKey ++ [k.toKey] := by
      rw [eraseDups_append]
      by_cases h : k ∈ ks
      · simp [List.removeAll, h, hmem.mpr h]
      · rw [if_neg (mt hmem.mp h)]
        simp [List.removeAll, h, eraseDups_cons]
    refine ⟨ws', ?_, hdata'.trans hdata, hdups ▸ hholds'⟩
    unfold appendKeys at hws ⊢
    rw [foldlM_append, hws]
    simp only [foldlM_cons, foldlM_nil, bind, Except.bind, hholds.version,
      KeyArgs.make_eq hk, hws', pure, Except.pure]

/-- The keys are those of the arguments: their flags, and their parts as `key_parts` splits
them. -/
def Returned (out : List Key) (ks : List KeyArgs) : Prop :=
  out = ks.map KeyArgs.toKey ∧
    out.map (fun k => (k.keyParts, k.flags)) = ks.map fun k => (Except.ok k.parts, k.flags)

theorem returned_map {ks : List KeyArgs} (hks : ∀ k ∈ ks, k.Bounded) :
    Returned (ks.map KeyArgs.toKey) ks := by
  refine ⟨rfl, ?_⟩
  rw [map_map]
  refine map_congr_left fun k hk => ?_
  exact Prod.ext (KeyArgs.keyParts_toKey (hks k hk)) rfl

theorem WriteSet.Holds.scan_serialize {data : List UInt8} {r : List UInt8 × ℕ}
    (h : ws.Holds hash ks) (hr : (ws.appendData data).serialize buf off = .ok r) :
    WriteSet.scan r.1 off 2 = .ok (ks, off + (4 + ws.keys.length)) := by
  obtain ⟨hkeys, hdata, hroom⟩ := WriteSet.serialize_eq_ok hr
  have hoff : (buf.take off).length = off := length_take_of_le (by omega)
  have hser := WriteSet.serialize_append hoff hkeys hdata
    (by rw [length_drop]; omega : _ ≤ (buf.drop off).length)
  rw [take_append_drop, hr] at hser
  cases hser
  have hholds : (ws.appendData data).Holds hash ks := ⟨h.version, h.fits, h.keys, h.refs⟩
  exact hholds.scan hoff hkeys

theorem WriteSet.exists_serialize {data : List UInt8} (hdata : ws.data = [])
    (hkeys : ws.keys.length < 2 ^ 32) (hlen : data.length < 2 ^ 32)
    (hroom : off + (4 + ws.keys.length + (4 + data.length)) ≤ buf.length) :
    ∃ r, (ws.appendData data).serialize buf off = .ok r := by
  have hnew : (ws.appendData data).data = data := by
    rw [WriteSet.appendData, hdata, nil_append]
  have hoff : (buf.take off).length = off := length_take_of_le (by omega)
  have hrest : 4 + (ws.appendData data).keys.length + (4 + (ws.appendData data).data.length) ≤
      (buf.drop off).length := by
    rw [hnew, length_drop]
    change 4 + ws.keys.length + (4 + data.length) ≤ buf.length - off
    omega
  have hdata4 : (ws.appendData data).data.length < 256 ^ 4 := by rwa [hnew]
  have hser : (ws.appendData data).serialize (buf.take off ++ buf.drop off) off = _ :=
    WriteSet.serialize_append hoff hkeys hdata4 hrest
  rw [take_append_drop] at hser
  exact ⟨_, hser⟩

def writtenFrom (offset : ℕ) (r : List UInt8 × ℕ) : List UInt8 :=
  (r.1.drop offset).take (r.2 - offset)

/-- Appended keys come back without later repetitions, from the write set and from wherever it
is serialized, which it is for sizes of 32 bits where there is room. Keys of different parts
are never serialized to the same bytes. -/
theorem writeSet_keys_returned (hash : List UInt8 → ℕ) {ks : List KeyArgs}
    (hks : ∀ k ∈ ks, k.Bounded) :
    (∃ ws, appendKeys hash (.new 2) ks = .ok ws ∧
      (∃ out, ws.getKeys = .ok out ∧ Returned out ks.eraseDups) ∧
      ∀ data buf offset, (∀ r, (ws.appendData data).serialize buf offset = .ok r →
          ∃ out off', WriteSet.scan r.1 offset 2 = .ok (out, off') ∧ Returned out ks.eraseDups) ∧
        (ws.keys.length < 2 ^ 32 → data.length < 2 ^ 32 →
          offset + (4 + ws.keys.length + (4 + data.length)) ≤ buf.length →
          ∃ r, (ws.appendData data).serialize buf offset = .ok r)) ∧
    ∀ k k' : KeyArgs, k.Bounded → k'.Bounded → k.parts ≠ k'.parts → ∀ buf offset r buf' offset' r',
        (do (← Key.make 2 k.parts k.flags).serialize buf offset) = .ok r →
        (do (← Key.make 2 k'.parts k'.flags).serialize buf' offset') = .ok r' →
        writtenFrom offset r ≠ writtenFrom offset' r' := by
  refine ⟨?_, ?_⟩
  · obtain ⟨ws, hws, hdata, hholds⟩ := appendKeys_holds hash hks
    have hret : Returned (ks.eraseDups.map KeyArgs.toKey) ks.eraseDups :=
      returned_map fun k hk => hks k (mem_eraseDups.mp hk)
    refine ⟨ws, hws, ⟨_, hholds.getKeys, hret⟩, fun data buf offset => ⟨?_, ?_⟩⟩
    · exact fun r hr => ⟨_, _, hholds.scan_serialize hr, hret⟩
    · exact WriteSet.exists_serialize hdata
  · intro k k' hk hk' hne buf offset r buf' offset' r' hr hr' heq
    rw [KeyArgs.make_eq hk] at hr
    rw [KeyArgs.make_eq hk'] at hr'
    unfold writtenFrom at heq
    rw [Key.written_eq_bytes (KeyArgs.toKey_fits hk) hr,
      Key.written_eq_bytes (KeyArgs.toKey_fits hk') hr'] at heq
    have hkey := Key.bytes_inj (KeyArgs.toKey_fits hk) (KeyArgs.toKey_fits hk') heq
    exact hne (congrArg KeyArgs.parts (KeyArgs.toKey_inj hk hk' hkey))

/-- Two keys of one part that hash alike, the first appended twice. -/
theorem writeSet_keys_returned_collision :
    let ks : List KeyArgs := [⟨[[1, 2]], 0⟩, ⟨[[3]], 1⟩, ⟨[[1, 2]], 0⟩, ⟨[[1, 2]], 1⟩]
    ∃ ws, appendKeys (fun _ => 0) (.new 2) ks = .ok ws ∧ ∃ out, ws.getKeys = .ok out ∧
        Returned out [⟨[[1, 2]], 0⟩, ⟨[[3]], 1⟩, ⟨[[1, 2]], 1⟩] := by
  intro ks
  have hks : ∀ k ∈ ks, k.Bounded := by
    unfold KeyArgs.Bounded
    decide
  obtain ⟨⟨ws, hws, hout, -⟩, -⟩ := writeSet_keys_returned (fun _ => 0) hks
  exact ⟨ws, hws, hout⟩

end Appstack.Galera.Wire
