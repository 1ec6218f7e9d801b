import Appstack.Couchstore.DbHeader

namespace Appstack.Couchstore
open BigEndian BlockLayout List

def Disk.cut (d : Disk) (len : ℕ) : Disk where
  byte i := if i < len then d.byte i else 0
  size := min len d.size
  calls := d.calls

theorem readLoop_le_size {os : Os} {fuel len pos pos' : ℕ} {got : Bytes} {d d' : Disk}
    (hfuel : len ≤ fuel) (hlen : 0 < len)
    (h : readLoop os fuel len pos d = (.ok (got, pos'), d')) : pos + len ≤ d.size := by
  induction fuel generalizing len pos d got pos' d' with
  | zero => omega
  | succ fuel ih =>
    rw [readLoop, if_neg (by omega)] at h
    dsimp only at h
    split at h
    · cases h
    next got1 d1 hr =>
      obtain ⟨hsame, ⟨e, he⟩ | ⟨n, hn, hsize, hgot⟩⟩ := pread_cases hr
      · cases he
      cases hgot
      rw [length_map, length_range] at h
      split_ifs at h with hnil
      · cases h
      have hpos : 0 < n := by
        by_contra h0
        exact hnil (by simp [show n = 0 by omega])
      split at h
      · cases h
      next rest pos1 d2 hl =>
        have hskip := le_skip (B := couchBlockSize) (pos + n)
        obtain hdone | hmore := Nat.eq_zero_or_pos (len - n)
        · omega
        · have := ih (by omega) hmore hl
          rw [hsame.2] at this
          omega

theorem preadBinInternal_cut {plat : Platform} {m : ℕ} {buf : Bytes} {d : Disk}
    (hm : m % couchBlockSize = 0) (hbuf : buf ≠ []) (hlen : buf.length ≤ maxHeaderBody)
    (hlaid : m + 9 ≤ d.size → Laid couchBlockSize d.byte (m + 1) (headerInfo plat buf))
    (hcut : d.size < m + 9 + buf.length) :
    ∃ d', preadBinInternal plat (m + 1) true d = (.error .read, d') := by
  have hpos := length_pos_of_ne_nil hbuf
  have hmod : (m + 1) % couchBlockSize = 1 := by unfold couchBlockSize at *; omega
  have hskip : skip couchBlockSize (m + 1) = m + 1 := skip_of_ne (by omega)
  unfold preadBinInternal
  split
  next e d1 hr => exact ⟨d1, by rw [readLoop_error hr]⟩
  next info pos1 d1 hr =>
    have hsame := readSkippingPrefixes_same hr
    have hsize := readLoop_le_size le_rfl (by omega) hr
    rw [hskip] at hsize
    have hfin : finish couchBlockSize (m + 1) 8 = m + 9 :=
      finish_of_le (by omega) (by rw [hmod]; decide)
    rw [← length_headerInfo plat buf] at hr
    obtain ⟨rfl, hpos1⟩ := readSkippingPrefixes_ok (hlaid (by omega))
      (by rw [length_headerInfo, hfin]; omega) hr
    have hnext : skip couchBlockSize (m + 9) = m + 9 :=
      skip_of_ne (by unfold couchBlockSize at *; omega)
    rw [length_headerInfo, hfin, hnext] at hpos1
    have hgood : ¬ badHeaderLength true (buf.length + 4) := by
      unfold maxHeaderBody maxHeaderSize at hlen
      simp only [badHeaderLength, maxHeaderSize]
      omega
    dsimp only
    rw [headerInfo_length plat hlen, if_neg hgood, if_pos rfl, Nat.add_sub_cancel]
    split
    next e d2 hr' => exact ⟨d2, by rw [readLoop_error hr']⟩
    next buf' pos2 d2 hr' =>
      have hend := readLoop_le_size le_rfl hpos hr'
      rw [hpos1, hsame.2] at hend
      omega

section Block
variable {plat : Platform} {m : ℕ} {d : Disk} {db : OpenDb}

/-- A boundary where no whole header starts: behind the end, at the start of a data block, or
at a header that was cut off. -/
inductive NoHeaderAt (plat : Platform) (d : Disk) (m : ℕ) : Prop where
  | past : d.size < m + 2 → NoHeaderAt plat d m
  | data : d.byte m = 0 → NoHeaderAt plat d m
  | cut (buf : Bytes) : m % couchBlockSize = 0 → buf ≠ [] → buf.length ≤ maxHeaderBody →
      (m + 9 ≤ d.size → Laid couchBlockSize d.byte (m + 1) (headerInfo plat buf)) →
      d.size < m + 9 + buf.length → d.byte m = 1 → NoHeaderAt plat d m

section
variable (hos : plat.os.Reliable) (hbuf : plat.os.Buffered)
include hos hbuf

theorem pread_two (m : ℕ) (d : Disk) : ∃ d', d.Same d' ∧ pread plat.os 2 m d =
      (.ok ((List.range (min 2 (d.size - m))).map fun i => d.byte (m + i)), d') := by
  unfold pread
  split
  next h => exact absurd h (hos _)
  next c hc =>
    have hc9 := hbuf _ c hc
    exact ⟨d.tick, ⟨rfl, rfl⟩, by rw [show min 2 (c + 1) = 2 by omega]⟩

theorem findHeaderAtPos_miss (hd : d.Same db.file.disk) (hm : NoHeaderAt plat d m) :
    ∃ e db', findHeaderAtPos plat m db = (e, db') ∧ e ≠ .success ∧ d.Same db'.file.disk := by
  obtain ⟨d', hsame, hread⟩ := pread_two hos hbuf m db.file.disk
  have hd' := hd.trans hsame
  unfold findHeaderAtPos
  rw [hread]
  dsimp only
  rw [length_map, length_range, hd.2]
  by_cases hpast : d.size < m + 2
  · rw [if_pos (by omega)]
    exact ⟨.read, _, rfl, by decide, hd'⟩
  rw [if_neg (by omega), show min 2 (d.size - m) = 2 by omega, hd.1]
  simp only [range_succ, range_zero, nil_append, map_cons,
    map_nil, getD_cons_zero, cons_append, Nat.add_zero]
  cases hm with
  | past h => exact absurd h hpast
  | data h =>
    rw [if_pos h]
    exact ⟨.noHeader, _, rfl, by decide, hd'⟩
  | cut buf hmod hne hlen hlaid hcut hmark =>
    rw [if_neg (by rw [hmark]; decide), if_neg (by rw [hmark]; decide)]
    obtain ⟨d2, hr⟩ : ∃ d2, preadBinInternal plat (m + 1) true d' = (.error .read, d2) :=
      preadBinInternal_cut hmod hne hlen (by rw [hd'.1, hd'.2]; exact hlaid)
        (by rw [hd'.2]; exact hcut)
    simp only [preadHeader, hr]
    exact ⟨.read, _, rfl, by decide, hd'.trans (preadBinInternal_same hr)⟩

theorem findHeaderAtPos_hit {h : OpenDb}
    (hd : d.Same db.file.disk) (hmark : d.byte m = 1) (hb : h.Below m) (hm : m ≤ 2 ^ 48)
    (hlaid : Laid couchBlockSize d.byte (m + 1) (headerInfo plat (headerBytes h) ++ headerBytes h))
    (hsize : finish couchBlockSize (m + 1) (8 + (headerBytes h).length) ≤ d.size) :
    ∃ file, findHeaderAtPos plat m db = (.success, h.reload { db with file := file } m) := by
  obtain ⟨d', hsame, hread⟩ := pread_two hos hbuf m db.file.disk
  have hd' := hd.trans hsame
  have hle := add_le_finish (B := couchBlockSize) (m + 1) (8 + (headerBytes h).length)
  have hframed : Framed plat ⟨d.size, d'⟩ (.header (headerBytes h)) m :=
    ⟨by rw [hd'.1]; exact hlaid, hsize, by rw [hd'.2]; exact hsize⟩
  have hgot := hframed.read hos hb.length_le
  obtain ⟨d2, hr⟩ : ∃ d2, preadBinInternal plat (m + 1) true d' = (.ok (headerBytes h), d2) :=
    ⟨_, Prod.ext hgot rfl⟩
  unfold findHeaderAtPos
  rw [hread]
  dsimp only
  rw [length_map, length_range, hd.2, if_neg (by omega),
    show min 2 (d.size - m) = 2 by omega, hd.1]
  simp only [range_succ, range_zero, nil_append, map_cons,
    map_nil, getD_cons_zero, cons_append, Nat.add_zero]
  rw [if_neg (by rw [hmark]; decide), if_neg (by rw [hmark]; decide)]
  simp only [preadHeader, hr, loadHeader_headerBytes hb hm]
  exact ⟨_, rfl⟩

end

end Block

theorem findHeaderLoop_finds {plat : Platform} (hos : plat.os.Reliable) (hbuf : plat.os.Buffered)
    {d : Disk} {h : OpenDb} {q k : ℕ} (hqk : q < k)
    (hmiss : ∀ j, q < j → j < k → NoHeaderAt plat d (j * couchBlockSize))
    (hmark : d.byte (q * couchBlockSize) = 1) (hb : h.Below (q * couchBlockSize))
    (hm : q * couchBlockSize ≤ 2 ^ 48)
    (hlaid : Laid couchBlockSize d.byte (q * couchBlockSize + 1)
      (headerInfo plat (headerBytes h) ++ headerBytes h))
    (hsize : finish couchBlockSize (q * couchBlockSize + 1) (8 + (headerBytes h).length) ≤ d.size)
    {db : OpenDb} (hd : d.Same db.file.disk) (last : Errcode) :
    ∃ db0, findHeaderLoop plat k last db = (.success, h.reload db0 (q * couchBlockSize)) := by
  induction k generalizing db last with
  | zero => omega
  | succ k ih =>
    rw [findHeaderLoop]
    obtain rfl | hlt := Nat.eq_or_lt_of_le (Nat.lt_succ_iff.mp hqk)
    · obtain ⟨file, hhit⟩ := findHeaderAtPos_hit hos hbuf hd hmark hb hm hlaid hsize
      rw [hhit]
      exact ⟨_, rfl⟩
    · obtain ⟨e, db', hmiss', he, hd'⟩ :=
        findHeaderAtPos_miss hos hbuf hd (hmiss k hlt (Nat.lt_succ_self k))
      have hrest (last : Errcode) := ih hlt (fun j hj hjk => hmiss j hj (by omega)) hd' last
      rw [hmiss']
      cases e with
      | success => exact absurd rfl he
      | noHeader => exact hrest last
      | _ => exact hrest _

end Appstack.Couchstore
