import Mathlib

namespace Appstack.Moxi.Histogram

open List

structure Bin where
  start : ℤ
  width : ℤ
  count : ℕ
  deriving DecidableEq, Repr

/-- One histogram of a chain; the links behind it are its `next`. The growth factor is an
integer. -/
structure Link where
  binStart : ℤ
  binStartWidth : ℤ
  binWidthGrowth : ℕ
  bins : List Bin
  ltCount : ℕ
  gtCount : ℕ
  deriving DecidableEq, Repr

/-- The nearest double, ties to even. -/
def roundDouble (n : ℕ) : ℕ :=
  let unit := 2 ^ (Nat.log2 n - 52)
  let up := unit < 2 * (n % unit) ∨ unit = 2 * (n % unit) ∧ n / unit % 2 = 1
  (n / unit + if up then 1 else 0) * unit

/-- `w * bin_width_growth`, a product of doubles. -/
def grow (w : ℤ) (growth : ℕ) : ℤ := roundDouble (roundDouble w.toNat * growth)

def mkBins (r w : ℤ) (growth : ℕ) : ℕ → List Bin
  | 0 => []
  | n + 1 => ⟨r, w, 0⟩ :: mkBins (r + w) (grow w growth) growth n

def htgramMk (binStart binStartWidth : ℤ) (binWidthGrowth numBins : ℕ) (next : List Link) :
    List Link :=
  ⟨binStart, binStartWidth, binWidthGrowth,
    mkBins binStart binStartWidth binWidthGrowth numBins, 0, 0⟩ :: next

def plus (n count : ℕ) : ℕ := (n + count) % 2 ^ 64

def incrBins (dataPoint : ℤ) (count : ℕ) : List Bin → ℕ → Option (List Bin)
  | [], _ => none
  | b :: bs, 0 =>
    if dataPoint < b.start + b.width then some ({ b with count := plus b.count count } :: bs)
    else (incrBins dataPoint count bs 0).map (b :: ·)
  | b :: bs, i + 1 => (incrBins dataPoint count bs i).map (b :: ·)

/-- The quotient of `int64_t`s, as a `size_t`. -/
def firstIndex (l : Link) (dataPoint : ℤ) : ℕ :=
  if l.binWidthGrowth = 1 then (dataPoint.tdiv l.binStartWidth % 2 ^ 64).toNat else 0

def htgramIncr : List Link → ℤ → ℕ → List Link
  | [], _, _ => []
  | l :: next, dataPoint, count =>
    if dataPoint < l.binStart then { l with ltCount := plus l.ltCount count } :: next
    else match incrBins dataPoint count l.bins (firstIndex l dataPoint) with
      | some bins => { l with bins } :: next
      | none => if next = [] then [{ l with gtCount := plus l.gtCount count }]
        else l :: htgramIncr next dataPoint count

/-- A bin, or the count that goes with `false`. Sizes and indexes are cast to `int`. -/
def htgramGetBinData : List Link → ℤ → Except ℕ Bin
  | [], _ => .error 0
  | l :: next, binIndex =>
    if binIndex < 0 then .error l.ltCount
    else if (l.bins.length : ℤ).bmod (2 ^ 32) ≤ binIndex then
      if next = [] then .error l.gtCount
      else htgramGetBinData next ((binIndex - l.bins.length).bmod (2 ^ 32))
    else match l.bins[binIndex.toNat]? with
      | some b => .ok b
      | none => .error 0

/-- The loop of `htgram_add` with `left` values of its `int` index to go; `none` stands for a
failed assertion or an index that overflows. -/
def addFrom (x : List Link) : ℕ → List Link → Option (List Link)
  | 0, _ => none
  | left + 1, agg =>
    match htgramGetBinData agg (2 ^ 31 - (left + 1) : ℤ),
      htgramGetBinData x (2 ^ 31 - (left + 1) : ℤ) with
    | .ok a, .ok b =>
      if a.start = b.start ∧ a.width = b.width then
        addFrom x left (htgramIncr agg a.start b.count)
      else none
    | _, _ => some agg

def htgramAdd (agg x : List Link) : Option (List Link) := addFrom x (2 ^ 31) agg

def stop (s : ℤ) : List Bin → ℤ
  | [] => s
  | b :: bs => stop (s + b.width) bs

/-- A chain made of `htgram_mk`s, each starting where the one before it ends. -/
def mkChain (s : ℤ) : List (ℤ × ℕ × ℕ) → List Link
  | [] => []
  | (width, growth, numBins) :: ps =>
    htgramMk s width growth numBins (mkChain (stop s (mkBins s width growth numBins)) ps)

def allBins (h : List Link) : List Bin := h.flatMap (·.bins)

def incrAll (h : List Link) (points : List (ℤ × ℕ)) : List Link :=
  points.foldl (fun h p => htgramIncr h p.1 p.2) h

/-- The counts of the points with a property. -/
def total (points : List (ℤ × ℕ)) (p : ℤ → Bool) : ℕ :=
  ((points.filter (p ·.1)).map Prod.snd).sum % 2 ^ 64

def Bin.holds (b : Bin) (x : ℤ) : Bool := b.start ≤ x && x < b.start + b.width

/-- The index that a linear histogram computes is not behind the bin of the point. -/
def Placed (h : List Link) (x : ℤ) : Prop :=
  ∀ l ∈ h, l.binWidthGrowth = 1 → ∀ (k : ℕ) (b : Bin), l.bins[k]? = some b → b.holds x →
    -l.binStartWidth < x ∧ x < (k + 1) * l.binStartWidth

instance (h : List Link) (x : ℤ) : Decidable (Placed h x) :=
  decidable_of_iff (∀ l ∈ h, l.binWidthGrowth = 1 → ∀ e ∈ l.bins.zipIdx, e.1.holds x →
      -l.binStartWidth < x ∧ x < (e.2 + 1) * l.binStartWidth) <| by
    simp only [Placed, Prod.forall, mem_zipIdx_iff_getElem?]
    exact forall₃_congr fun _ _ _ => forall_comm

/-- Bins of positive width that follow each other from `s` on. -/
def Contiguous (s : ℤ) : List Bin → Prop
  | [] => True
  | b :: bs => b.start = s ∧ 0 < b.width ∧ Contiguous (s + b.width) bs

def Chained (s : ℤ) : List Link → Prop
  | [] => True
  | l :: next => l.binStart = s ∧ 0 < l.binStartWidth ∧ Contiguous s l.bins ∧
      Chained (stop s l.bins) next

def Bin.blank (b : Bin) : Bin := { b with count := 0 }

def Link.blank (l : Link) : Link :=
  { l with bins := l.bins.map Bin.blank, ltCount := 0, gtCount := 0 }

def tally (p : ℤ → Bool) (n : ℕ) (points : List (ℤ × ℕ)) : ℕ :=
  points.foldl (fun n q => if p q.1 then plus n q.2 else n) n

def Bin.bump (points : List (ℤ × ℕ)) (b : Bin) : Bin :=
  { b with count := tally b.holds b.count points }

def ltOf (h : List Link) : ℕ := (h.head?.map (·.ltCount)).getD 0

def gtOf (h : List Link) : ℕ := (h.getLast?.map (·.gtCount)).getD 0

section
variable {s x : ℤ} {c n i : ℕ} {bs bs' : List Bin} {b : Bin} {l : Link} {h h' : List Link}
  {p : ℤ → Bool} {points : List (ℤ × ℕ)}

theorem tally_eq_total (hn : n < 2 ^ 64) :
    tally p n points = (n + ((points.filter (p ·.1)).map Prod.snd).sum) % 2 ^ 64 := by
  induction points generalizing n with
  | nil => exact (Nat.mod_eq_of_lt hn).symm
  | cons q points ih =>
    rw [tally, foldl_cons, ← tally, filter_cons]
    split_ifs with hq
    · rw [plus, ih (Nat.mod_lt _ (by norm_num)), Nat.mod_add_mod, map_cons, sum_cons, Nat.add_assoc]
    · exact ih hn

theorem tally_of_forall_not (hp : ∀ q ∈ points, ¬p q.1) : tally p n points = n := by
  induction points with
  | nil => rfl
  | cons q points ih =>
    obtain ⟨hq, hp⟩ := forall_mem_cons.mp hp
    rw [tally, foldl_cons, if_neg hq]
    exact ih hp

theorem bump_of_not_holds (hx : ¬b.holds x) : b.bump [(x, c)] = b := by
  simp [Bin.bump, tally, hx]

theorem holds_iff : b.holds x = true ↔ b.start ≤ x ∧ x < b.start + b.width := by
  simp [Bin.holds]

theorem le_start (hbs : Contiguous s bs) (hb : b ∈ bs) : s ≤ b.start := by
  induction bs generalizing s with
  | nil => cases hb
  | cons a bs ih =>
    obtain ⟨rfl, hpos, hbs⟩ := hbs
    obtain rfl | hb := mem_cons.mp hb
    · exact le_rfl
    · have := ih hbs hb
      omega

theorem le_stop (hbs : Contiguous s bs) : s ≤ stop s bs := by
  induction bs generalizing s with
  | nil => exact le_rfl
  | cons a bs ih =>
    obtain ⟨-, hpos, hbs⟩ := hbs
    exact (by omega : s ≤ s + a.width).trans (ih hbs)

theorem stop_append (s : ℤ) (bs bs' : List Bin) : stop s (bs ++ bs') = stop (stop s bs) bs' := by
  induction bs generalizing s with
  | nil => rfl
  | cons a bs ih => exact ih _

theorem end_le_stop (hbs : Contiguous s bs) (hb : b ∈ bs) : b.start + b.width ≤ stop s bs := by
  induction bs generalizing s with
  | nil => cases hb
  | cons a bs ih =>
    obtain ⟨rfl, hpos, hbs⟩ := hbs
    obtain rfl | hb := mem_cons.mp hb
    · exact le_stop hbs
    · exact ih hbs hb

theorem map_bump_of_out (hbs : Contiguous s bs) (hx : x < s ∨ stop s bs ≤ x) :
    bs.map (Bin.bump [(x, c)]) = bs := by
  rw [map_congr_left fun b hb => bump_of_not_holds fun hholds => ?_, map_id']
  have := le_start hbs hb
  have := end_le_stop hbs hb
  have := holds_iff.mp hholds
  omega

theorem incrBins_eq (hbs : Contiguous s bs) (hx : s ≤ x)
    (hi : ∀ (k : ℕ) (b : Bin), bs[k]? = some b → b.holds x → i ≤ k) :
    incrBins x c bs i = if x < stop s bs then some (bs.map (Bin.bump [(x, c)])) else none := by
  induction bs generalizing s i with
  | nil => exact (if_neg hx.not_gt).symm
  | cons b bs ih =>
    obtain ⟨rfl, hpos, hbs⟩ := hbs
    by_cases hb : x < b.start + b.width
    · have hholds : b.holds x := holds_iff.mpr ⟨hx, hb⟩
      obtain rfl : i = 0 := Nat.le_zero.mp (hi 0 b rfl hholds)
      rw [incrBins, if_pos hb, stop, if_pos (hb.trans_le (le_stop hbs)), map_cons,
        map_bump_of_out hbs (.inl hb)]
      simp [Bin.bump, tally, hholds]
    · have hnot : ¬b.holds x := fun h => hb (holds_iff.mp h).2
      have hrest : ∀ i', (∀ (k : ℕ) (b' : Bin), bs[k]? = some b' → b'.holds x → i' ≤ k) →
          (incrBins x c bs i').map (b :: ·) =
            if x < stop b.start (b :: bs) then some ((b :: bs).map (Bin.bump [(x, c)])) else none := by
        intro i' hi'
        rw [ih hbs (not_lt.mp hb) hi', map_cons, bump_of_not_holds hnot, stop]
        split_ifs <;> rfl
      cases i with
      | zero => rw [incrBins, if_neg hb, hrest 0 fun _ _ _ _ => Nat.zero_le _]
      | succ i =>
        rw [incrBins, hrest i fun k b' hk hb' => Nat.le_of_succ_le_succ (hi (k + 1) b' hk hb')]

theorem firstIndex_le (hw : 0 < l.binStartWidth) (hl : Placed [l] x) {k : ℕ}
    (hk : l.bins[k]? = some b) (hb : b.holds x) : firstIndex l x ≤ k := by
  unfold firstIndex
  split_ifs with hg
  swap
  · exact Nat.zero_le k
  obtain ⟨hlow, hhigh⟩ := hl l (.head _) hg k b hk hb
  have hq : 0 ≤ x.tdiv l.binStartWidth ∧ x.tdiv l.binStartWidth ≤ k := by
    rcases le_or_gt 0 x with hx | hx
    · rw [Int.tdiv_eq_ediv_of_nonneg hx]
      refine ⟨Int.ediv_nonneg hx hw.le, ?_⟩
      have := (Int.ediv_lt_iff_lt_mul hw).mpr hhigh
      omega
    · have : x.tdiv l.binStartWidth = 0 := by
        rw [← neg_neg x, Int.neg_tdiv, Int.tdiv_eq_zero_of_lt (by omega) (by omega), neg_zero]
      omega
  omega

theorem incrBins_blank (hbs : incrBins x c bs i = some bs') :
    bs'.map Bin.blank = bs.map Bin.blank := by
  induction bs generalizing i bs' with
  | nil => cases hbs
  | cons b bs ih =>
    have hrest : ∀ i', (incrBins x c bs i').map (b :: ·) = some bs' →
        bs'.map Bin.blank = (b :: bs).map Bin.blank := by
      intro i' h
      obtain ⟨bs1, h1, rfl⟩ := Option.map_eq_some_iff.mp h
      rw [map_cons, ih h1, map_cons]
    cases i with
    | zero =>
      rw [incrBins] at hbs
      split_ifs at hbs
      · cases hbs
        rfl
      · exact hrest 0 hbs
    | succ i => exact hrest i hbs

theorem htgramIncr_blank (h : List Link) (x : ℤ) (c : ℕ) :
    (htgramIncr h x c).map Link.blank = h.map Link.blank := by
  induction h with
  | nil => rfl
  | cons l next ih =>
    rw [htgramIncr]
    by_cases hx : x < l.binStart
    · rw [if_pos hx]
      rfl
    rw [if_neg hx]
    cases hbins : incrBins x c l.bins (firstIndex l x) with
    | some bins => simp [Link.blank, incrBins_blank hbins]
    | none =>
      by_cases hnext : next = []
      · simp [hnext, Link.blank]
      · simp [hnext, ih]

theorem contiguous_blank : Contiguous s (bs.map Bin.blank) ↔ Contiguous s bs := by
  induction bs generalizing s with
  | nil => rfl
  | cons b bs ih => exact and_congr_right' (and_congr_right' ih)

theorem stop_blank : stop s (bs.map Bin.blank) = stop s bs := by
  induction bs generalizing s with
  | nil => rfl
  | cons b bs ih => exact ih

theorem chained_blank : Chained s (h.map Link.blank) ↔ Chained s h := by
  induction h generalizing s with
  | nil => rfl
  | cons l next ih =>
    rw [map_cons, Chained, Chained, ih]
    simp only [Link.blank, contiguous_blank, stop_blank]

theorem placed_blank : Placed (h.map Link.blank) x ↔ Placed h x := by
  simp only [Placed, forall_mem_map, Link.blank, List.getElem?_map, Option.map_eq_some_iff]
  constructor
  · exact fun h l hl hg k b hb hx => h l hl hg k b.blank ⟨b, hb, rfl⟩ hx
  · rintro h l hl hg k _ ⟨b, hb, rfl⟩ hx
    exact h l hl hg k b hb hx

theorem allBins_blank : allBins (h.map Link.blank) = (allBins h).map Bin.blank := by
  simp [allBins, flatMap_map, map_flatMap, Link.blank]

section
variable (hblank : h.map Link.blank = h'.map Link.blank)
include hblank

theorem bins_of_blank_eq : (allBins h).map Bin.blank = (allBins h').map Bin.blank := by
  rw [← allBins_blank, hblank, allBins_blank]

theorem length_of_blank_eq : (allBins h).length = (allBins h').length := by
  simpa using congrArg List.length (bins_of_blank_eq hblank)

theorem ne_nil_of_blank_eq (hh : h' ≠ []) : h ≠ [] :=
  fun hnil => hh (map_eq_nil_iff.mp (by rw [← hblank, hnil, map_nil]))

theorem getElem?_of_blank_eq
    (hb : (allBins h')[i]? = some b) : ∃ n, (allBins h)[i]? = some { b with count := n } := by
  have ha := congrArg (·[i]?) (bins_of_blank_eq hblank)
  simp only [List.getElem?_map, hb, Option.map_some, Option.map_eq_some_iff] at ha
  obtain ⟨⟨s, w, n⟩, ha, hab⟩ := ha
  simp only [Bin.blank, Bin.mk.injEq, and_true] at hab
  exact ⟨n, by rw [ha, hab.1, hab.2]⟩

end

theorem gtOf_cons : gtOf (l :: h) = if h = [] then l.gtCount else gtOf h := by
  split_ifs with hh
  · rw [hh]
    rfl
  · rw [gtOf, gtOf, List.getLast?_cons_of_ne_nil hh]

theorem allBins_cons : allBins (l :: h) = l.bins ++ allBins h := flatMap_cons

theorem contiguous_append :
    Contiguous s (bs ++ bs') ↔ Contiguous s bs ∧ Contiguous (stop s bs) bs' := by
  induction bs generalizing s with
  | nil => simp [Contiguous, stop]
  | cons b bs ih => simp only [cons_append, Contiguous, stop, ih, and_assoc]

theorem Chained.contiguous (hs : Chained s h) : Contiguous s (allBins h) := by
  induction h generalizing s with
  | nil => trivial
  | cons l next ih => exact allBins_cons ▸ contiguous_append.mpr ⟨hs.2.2.1, ih hs.2.2.2⟩

theorem htgramIncr_spec (hh : h ≠ []) (hs : Chained s h) (hx : Placed h x) :
    allBins (htgramIncr h x c) = (allBins h).map (Bin.bump [(x, c)]) ∧
      ltOf (htgramIncr h x c) = tally (· < s) (ltOf h) [(x, c)] ∧
      gtOf (htgramIncr h x c) = tally (stop s (allBins h) ≤ ·) (gtOf h) [(x, c)] := by
  induction h generalizing s with
  | nil => exact absurd rfl hh
  | cons l next ih =>
    have hall := hs.contiguous
    obtain ⟨rfl, hw, hbins, hnext⟩ := hs
    have hle := le_stop hnext.contiguous
    have hstop : stop l.binStart (allBins (l :: next)) =
        stop (stop l.binStart l.bins) (allBins next) := by rw [allBins_cons, stop_append]
    rw [htgramIncr]
    by_cases hlt : x < l.binStart
    · have := le_stop hall
      rw [if_pos hlt, map_bump_of_out hall (.inl hlt)]
      refine ⟨rfl, by simp [ltOf, tally, hlt], ?_⟩
      rw [tally_of_forall_not (by simp; omega)]
      cases next <;> rfl
    rw [if_neg hlt, incrBins_eq hbins (not_lt.mp hlt) fun k b hk hb =>
      firstIndex_le hw (fun l' hl' => hx l' (by simp_all)) hk hb]
    by_cases hin : x < stop l.binStart l.bins
    · have hself := map_bump_of_out (c := c) hnext.contiguous (.inl hin)
      rw [if_pos hin]
      refine ⟨by simp [allBins_cons, hself], by simp [ltOf, tally, hlt], ?_⟩
      rw [tally_of_forall_not (by simp; omega)]
      cases next <;> rfl
    have hself := map_bump_of_out (c := c) hbins (.inr (not_lt.mp hin))
    rw [if_neg hin]
    dsimp only
    by_cases hnil : next = []
    · subst hnil
      rw [if_pos rfl]
      refine ⟨by simp [allBins, hself], by simp [ltOf, tally, hlt], ?_⟩
      rw [tally, foldl_cons, if_pos (by simpa [hstop, allBins, stop] using hin)]
      rfl
    · obtain ⟨h1, -, h3⟩ := ih hnil hnext fun l' hl' => hx l' (.tail _ hl')
      rw [if_neg hnil, hstop]
      refine ⟨by simp [allBins_cons, h1, hself], by simp [ltOf, tally, hlt], ?_⟩
      have hne := ne_nil_of_blank_eq (htgramIncr_blank next x c) hnil
      rw [gtOf_cons, gtOf_cons, if_neg hne, if_neg hnil, h3]

theorem incrAll_spec (hh : h ≠ []) (hs : Chained s h) (hx : ∀ q ∈ points, Placed h q.1) :
    allBins (incrAll h points) = (allBins h).map (Bin.bump points) ∧
      ltOf (incrAll h points) = tally (· < s) (ltOf h) points ∧
      gtOf (incrAll h points) = tally (stop s (allBins h) ≤ ·) (gtOf h) points := by
  induction points generalizing h with
  | nil => exact ⟨(map_id' _).symm, rfl, rfl⟩
  | cons q points ih =>
    obtain ⟨hq, hx⟩ := forall_mem_cons.mp hx
    have hblank := htgramIncr_blank h q.1 q.2
    obtain ⟨h1, h2, h3⟩ := htgramIncr_spec (c := q.2) hh hs hq
    have hstop : stop s (allBins (htgramIncr h q.1 q.2)) = stop s (allBins h) := by
      rw [← stop_blank, bins_of_blank_eq hblank, stop_blank]
    obtain ⟨i1, i2, i3⟩ := @ih (htgramIncr h q.1 q.2) (ne_nil_of_blank_eq hblank hh)
      (chained_blank.mp (hblank ▸ chained_blank.mpr hs))
      (fun q' hq' => placed_blank.mp (hblank ▸ placed_blank.mpr (hx q' hq')))
    rw [incrAll, foldl_cons, ← incrAll]
    refine ⟨?_, i2.trans (by rw [h2]; rfl), i3.trans (by rw [hstop, h3]; rfl)⟩
    rw [i1, h1, map_map]
    rfl

theorem bmod_small {k : ℤ} (h0 : 0 ≤ k) (hk : k < 2 ^ 31) : k.bmod (2 ^ 32) = k :=
  Int.bmod_eq_of_le (by omega) (by norm_num; omega)

theorem getBinData_eq (hlen : (allBins h).length < 2 ^ 31) (hb : (allBins h)[i]? = some b) :
    htgramGetBinData h i = .ok b := by
  induction h generalizing i with
  | nil => simp [allBins] at hb
  | cons l next ih =>
    rw [allBins_cons, length_append] at hlen
    rw [allBins_cons] at hb
    rw [htgramGetBinData, if_neg (by omega), bmod_small (by omega) (by omega)]
    by_cases hi : i < l.bins.length
    · rw [if_neg (by omega), Int.toNat_natCast, ← List.getElem?_append_left hi, hb]
    · rw [List.getElem?_append_right (by omega)] at hb
      have hlt := (List.getElem?_eq_some_iff.mp hb).1
      rw [if_pos (by omega), if_neg, ← Nat.cast_sub (by omega), bmod_small (by omega) (by omega)]
      · exact ih (by omega) hb
      · rintro rfl
        simp [allBins] at hb

theorem getBinData_gt (hh : h ≠ []) (hlen : (allBins h).length < 2 ^ 31) :
    htgramGetBinData h (allBins h).length = .error (gtOf h) := by
  induction h with
  | nil => exact absurd rfl hh
  | cons l next ih =>
    rw [allBins_cons, length_append] at hlen
    rw [allBins_cons, length_append, htgramGetBinData, if_neg (by omega),
      bmod_small (by omega) (by omega), if_pos (by omega)]
    rw [gtOf_cons]
    split_ifs with hnext
    · rfl
    · rw [Nat.cast_add, add_sub_cancel_left, bmod_small (by omega) (by omega), ih hnext (by omega)]

theorem incrAll_blank (h : List Link) (points : List (ℤ × ℕ)) :
    (incrAll h points).map Link.blank = h.map Link.blank := by
  induction points generalizing h with
  | nil => rfl
  | cons q points ih => exact (ih _).trans (htgramIncr_blank ..)

def asPoints (bs : List Bin) : List (ℤ × ℕ) := bs.map fun b => (b.start, b.count)

theorem addFrom_eq {left : ℕ} (hlen : (allBins h').length < 2 ^ 31) (hh : h' ≠ [])
    (hblank : h.map Link.blank = h'.map Link.blank) (hi : i + left = 2 ^ 31)
    (hdrop : (allBins h').drop i = bs) (hle : i ≤ (allBins h').length) :
    addFrom h' left h = some (incrAll h (asPoints bs)) := by
  induction bs generalizing i left h with
  | nil =>
    have hend : i = (allBins h').length := hle.antisymm (drop_eq_nil_iff.mp hdrop)
    have hlen' := length_of_blank_eq hblank
    obtain ⟨left, rfl⟩ : ∃ n, left = n + 1 := ⟨left - 1, by omega⟩
    rw [addFrom, show (2 ^ 31 - (left + 1) : ℤ) = (i : ℕ) by omega, hend, ← hlen',
      getBinData_gt (ne_nil_of_blank_eq hblank hh) (hlen' ▸ hlen)]
    rfl
  | cons b bs ih =>
    have hb : (allBins h')[i]? = some b := by
      rw [← List.head?_drop, hdrop]
      rfl
    have hlt := (List.getElem?_eq_some_iff.mp hb).1
    obtain ⟨n, ha⟩ := getElem?_of_blank_eq hblank hb
    obtain ⟨left, rfl⟩ : ∃ n, left = n + 1 := ⟨left - 1, by omega⟩
    rw [addFrom, show (2 ^ 31 - (left + 1) : ℤ) = (i : ℕ) by omega,
      getBinData_eq (length_of_blank_eq hblank ▸ hlen) ha, getBinData_eq hlen hb]
    dsimp only
    rw [if_pos ⟨rfl, rfl⟩]
    refine ih ((htgramIncr_blank ..).trans hblank) (i := i + 1) (by omega) ?_ hlt
    rw [← tail_drop, hdrop, tail_cons]

theorem tally_asPoints {as : List Bin} {a : Bin} (has : Contiguous s as)
    (hblank : as.map Bin.blank = bs.map Bin.blank) (ha : as[i]? = some a) (hb : bs[i]? = some b) :
    tally a.holds a.count (asPoints bs) = plus a.count b.count := by
  induction as generalizing s i bs with
  | nil => cases ha
  | cons a0 as ih =>
    cases bs with
    | nil => cases hb
    | cons b0 bs =>
      obtain ⟨rfl, hpos, has⟩ := has
      simp only [map_cons, List.cons.injEq, Bin.blank, Bin.mk.injEq, and_true] at hblank
      obtain ⟨⟨hstart, hwidth⟩, hblank⟩ := hblank
      have hbs : Contiguous (a0.start + a0.width) bs :=
        contiguous_blank.mp (hblank ▸ contiguous_blank.mpr has)
      rw [asPoints, map_cons, ← asPoints, tally, foldl_cons, ← tally]
      cases i with
      | zero =>
        cases ha
        cases hb
        rw [if_pos (holds_iff.mpr ⟨hstart.le, by omega⟩), tally_of_forall_not]
        simp only [asPoints, forall_mem_map]
        intro c hc hholds
        have := le_start hbs hc
        have := holds_iff.mp hholds
        omega
      | succ i =>
        have := le_start has (mem_of_getElem? ha)
        rw [if_neg fun hholds => by have := holds_iff.mp hholds; omega]
        exact ih has hblank ha hb

theorem roundDouble_pos (hn : 0 < n) : 0 < roundDouble n := by
  have hunit : 2 ^ (Nat.log2 n - 52) ≤ n :=
    (Nat.pow_le_pow_right (by norm_num) (Nat.sub_le ..)).trans (Nat.log2_self_le hn.ne')
  have hpos : 0 < 2 ^ (Nat.log2 n - 52) := by positivity
  exact Nat.mul_pos (Nat.add_pos_left (Nat.div_pos hunit hpos) _) hpos

theorem mkBins_spec {w : ℤ} {g : ℕ} (hw : 0 < w) (hg : 0 < g) :
    Contiguous s (mkBins s w g n) ∧ ∀ b ∈ mkBins s w g n, b.count = 0 := by
  induction n generalizing s w with
  | zero => exact ⟨trivial, by simp [mkBins]⟩
  | succ n ih =>
    have hgrow : 0 < grow w g :=
      Int.natCast_pos.mpr (roundDouble_pos (Nat.mul_pos (roundDouble_pos (by omega)) hg))
    obtain ⟨h1, h2⟩ := @ih (s + w) _ hgrow
    exact ⟨⟨rfl, hw, h1⟩, by simpa [mkBins] using h2⟩

theorem mkChain_spec {ps : List (ℤ × ℕ × ℕ)} (hps : ∀ p ∈ ps, 1 ≤ p.1 ∧ 1 ≤ p.2.1) :
    Chained s (mkChain s ps) ∧ (∀ b ∈ allBins (mkChain s ps), b.count = 0) ∧
      ltOf (mkChain s ps) = 0 ∧ gtOf (mkChain s ps) = 0 := by
  induction ps generalizing s with
  | nil => exact ⟨trivial, by simp [mkChain, allBins], rfl, rfl⟩
  | cons p ps ih =>
    obtain ⟨w, g, n⟩ := p
    obtain ⟨⟨hw, hg⟩, hps⟩ := forall_mem_cons.mp hps
    obtain ⟨h1, h2⟩ := mkBins_spec (s := s) (n := n) hw hg
    obtain ⟨h3, h4, -, h5⟩ := @ih (stop s (mkBins s w g n)) hps
    refine ⟨⟨rfl, hw, h1, h3⟩, ?_, rfl, ?_⟩
    · rw [mkChain, htgramMk, allBins_cons]
      exact forall_mem_append.mpr ⟨h2, h4⟩
    · rw [mkChain, htgramMk, gtOf_cons, h5, ite_self]

end

/-- Every bin counts the points that it holds, the first histogram those below and the last one
those above, if no search starts behind the bin of its point. Adding a chain of the same make then
adds its counts, if no search for the start of a bin does. -/
theorem incrAll_counts (s : ℤ) (ps : List (ℤ × ℕ × ℕ)) (hne : ps ≠ [])
    (hps : ∀ p ∈ ps, 1 ≤ p.1 ∧ 1 ≤ p.2.1) (hlen : (allBins (mkChain s ps)).length < 2 ^ 31) :
    (∀ points : List (ℤ × ℕ), (∀ q ∈ points, Placed (mkChain s ps) q.1) →
      (∀ (i : ℕ) (b : Bin), (allBins (mkChain s ps))[i]? = some b →
        htgramGetBinData (incrAll (mkChain s ps) points) i =
          .ok { b with count := total points b.holds }) ∧
      htgramGetBinData (incrAll (mkChain s ps) points) (-1) = .error (total points (· < s)) ∧
      htgramGetBinData (incrAll (mkChain s ps) points) (allBins (mkChain s ps)).length =
        .error (total points (stop s (allBins (mkChain s ps)) ≤ ·))) ∧
    ((∀ b ∈ allBins (mkChain s ps), Placed (mkChain s ps) b.start) →
      ∀ points points' : List (ℤ × ℕ), ∃ agg,
        htgramAdd (incrAll (mkChain s ps) points) (incrAll (mkChain s ps) points') = some agg ∧
        ∀ (i : ℕ) (b : Bin), (allBins (mkChain s ps))[i]? = some b → ∃ m n,
          htgramGetBinData (incrAll (mkChain s ps) points) i = .ok { b with count := m } ∧
          htgramGetBinData (incrAll (mkChain s ps) points') i = .ok { b with count := n } ∧
          htgramGetBinData agg i = .ok { b with count := plus m n }) := by
  obtain ⟨hch, hzero, hlt₀, hgt₀⟩ := mkChain_spec (s := s) hps
  have hh : mkChain s ps ≠ [] := by
    obtain ⟨p, ps, rfl⟩ := exists_cons_of_ne_nil hne
    exact cons_ne_nil _ _
  generalize mkChain s ps = h at *
  have hlen' := fun points => length_of_blank_eq (incrAll_blank h points)
  have hh' := fun points => ne_nil_of_blank_eq (incrAll_blank h points) hh
  constructor
  · intro points hx
    obtain ⟨h₁, h₂, h₃⟩ := incrAll_spec hh hch hx
    refine ⟨fun i b hb => getBinData_eq (hlen' points ▸ hlen) ?_, ?_, ?_⟩
    · rw [h₁, List.getElem?_map, hb, Option.map_some, Bin.bump,
        hzero b (mem_of_getElem? hb), tally_eq_total (by norm_num), Nat.zero_add, total]
    · obtain ⟨l, next, hcons⟩ := exists_cons_of_ne_nil (hh' points)
      rw [hlt₀, tally_eq_total (by norm_num), Nat.zero_add] at h₂
      rw [hcons] at h₂ ⊢
      exact congrArg Except.error h₂
    · rw [← hlen' points, getBinData_gt (hh' points) (hlen' points ▸ hlen), h₃, hgt₀,
        tally_eq_total (by norm_num), Nat.zero_add, total]
  · intro hstart points points'
    have hsame := (incrAll_blank h points).trans (incrAll_blank h points').symm
    refine ⟨_, addFrom_eq (i := 0) (hlen' points' ▸ hlen) (hh' points') hsame (by norm_num)
      drop_zero (Nat.zero_le _), fun i b hb => ?_⟩
    have hchained : Chained s (incrAll h points) :=
      chained_blank.mp (incrAll_blank h points ▸ chained_blank.mpr hch)
    have hplaced : ∀ q ∈ asPoints (allBins (incrAll h points')), Placed (incrAll h points) q.1 := by
      simp only [asPoints, forall_mem_map]
      intro b hb
      have hmem := mem_map_of_mem (f := Bin.blank) hb
      rw [bins_of_blank_eq (incrAll_blank h points')] at hmem
      obtain ⟨b', hb', heq⟩ := mem_map.mp hmem
      obtain ⟨hb₀, -⟩ := Bin.mk.inj heq
      exact placed_blank.mp (incrAll_blank h points ▸ placed_blank.mpr (hb₀ ▸ hstart b' hb'))
    obtain ⟨hbins, -⟩ := incrAll_spec (hh' points) hchained hplaced
    obtain ⟨m, hm⟩ := getElem?_of_blank_eq (incrAll_blank h points) hb
    obtain ⟨n, hn⟩ := getElem?_of_blank_eq (incrAll_blank h points') hb
    refine ⟨m, n, getBinData_eq (hlen' points ▸ hlen) hm, getBinData_eq (hlen' points' ▸ hlen) hn,
      getBinData_eq ?_ ?_⟩
    · rw [hbins, length_map, hlen']
      exact hlen
    · rw [hbins, List.getElem?_map, hm, Option.map_some, Bin.bump,
        tally_asPoints hchained.contiguous (bins_of_blank_eq hsame) hm hn]

/-- Bins of width 10 from 10 on: the point 10 is counted in the second one. -/
theorem first_bin_missed :
    (htgramGetBinData (incrAll (mkChain 10 [(10, 1, 3)]) [(10, 1)]) 0).toOption = some ⟨10, 10, 0⟩ ∧
    (htgramGetBinData (incrAll (mkChain 10 [(10, 1, 3)]) [(10, 1)]) 1).toOption =
      some ⟨20, 10, 1⟩ := by
  decide

/-- Two histograms, the second of doubling bins, with points in both, below and above. -/
theorem incrAll_counts_two :
    (htgramGetBinData (incrAll (mkChain 0 [(5, 1, 2), (10, 2, 2)])
      [(-3, 1), (7, 2), (12, 3), (99, 4)]) (2 : ℕ) = .ok ⟨10, 10, 3⟩) ∧
    ∃ agg, htgramAdd (incrAll (mkChain 0 [(5, 1, 2), (10, 2, 2)]) [(7, 2)])
      (incrAll (mkChain 0 [(5, 1, 2), (10, 2, 2)]) [(12, 3)]) = some agg := by
  obtain ⟨hcount, hadd⟩ := incrAll_counts 0 [(5, 1, 2), (10, 2, 2)] (by simp) (by simp)
    (by decide)
  obtain ⟨agg, hagg, -⟩ := hadd (by decide) [(7, 2)] [(12, 3)]
  exact ⟨(hcount [(-3, 1), (7, 2), (12, 3), (99, 4)] (by decide)).1 2 ⟨10, 10, 0⟩
    (by decide), agg, hagg⟩

end Appstack.Moxi.Histogram
