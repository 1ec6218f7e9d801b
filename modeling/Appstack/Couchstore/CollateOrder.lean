import Appstack.Couchstore.CollateJson
import Appstack.Lib.JsonOrder

namespace Appstack.Couchstore.CollateJson
open Std (TransCmp)
open Lib.JsonOrder List

structure HexDigit where
  value : Fin 16
  upper : Bool
  deriving DecidableEq

def HexDigit.byte (d : HexDigit) : UInt8 :=
  if d.value < 10 then 0x30 + UInt8.ofNat d.value
  else (if d.upper then 0x37 else 0x57) + UInt8.ofNat d.value

inductive Escape where
  | quote
  | backslash
  | slash
  | b
  | f
  | n
  | r
  | t
  deriving DecidableEq

def Escape.byte : Escape → UInt8
  | quote => 0x22
  | backslash => 0x5c
  | slash => 0x2f
  | b => 0x62
  | f => 0x66
  | n => 0x6e
  | r => 0x72
  | t => 0x74

def Escape.char : Escape → UInt8
  | quote => 0x22
  | backslash => 0x5c
  | slash => 0x2f
  | b => 0x08
  | f => 0x0c
  | n => 0x0a
  | r => 0x0d
  | t => 0x09

def hexCode (d₀ d₁ d₂ d₃ : HexDigit) : ℕ :=
  ((d₀.value * 16 + d₁.value) * 16 + d₂.value) * 16 + d₃.value

/-- One ASCII character of a string as it is spelled. -/
inductive Spelling where
  | plain (c : UInt8) (h : 0x20 ≤ c ∧ c < 0x80 ∧ c ≠ 0x22 ∧ c ≠ 0x5c)
  | escape (e : Escape)
  | unicode (d₀ d₁ d₂ d₃ : HexDigit) (h : hexCode d₀ d₁ d₂ d₃ < 0x80)
  deriving DecidableEq

namespace Spelling

def text : Spelling → Bytes
  | plain c _ => [c]
  | escape e => [0x5c, e.byte]
  | unicode d₀ d₁ d₂ d₃ _ => [0x5c, 0x75, d₀.byte, d₁.byte, d₂.byte, d₃.byte]

def char : Spelling → UInt8
  | plain c _ => c
  | escape e => e.char
  | unicode d₀ d₁ d₂ d₃ _ => UInt8.ofNat (hexCode d₀ d₁ d₂ d₃)

def letterF : Spelling → Spelling
  | escape .f => plain 0x66 (by decide)
  | x => x

end Spelling

structure Exponent where
  upper : Bool
  /-- The sign, if there is one; `true` is the minus sign. -/
  sign : Option Bool
  digits : List (Fin 10)
  digits_ne : digits ≠ []

/-- A number as it is spelled: no leading zero, and digits after the point. -/
structure Numeral where
  minus : Bool
  int : List (Fin 10)
  int_ne : int ≠ []
  no_leading_zero : int.head? = some 0 → int = [0]
  frac : Option {l : List (Fin 10) // l ≠ []}
  exp : Option Exponent

def digitByte (d : Fin 10) : UInt8 := 0x30 + UInt8.ofNat d

def Exponent.text (e : Exponent) : Bytes :=
  (if e.upper then 0x45 else 0x65) ::
    ((match e.sign with | none => [] | some true => [0x2d] | some false => [0x2b]) ++
      e.digits.map digitByte)

def Numeral.text (n : Numeral) : Bytes :=
  (if n.minus then [0x2d] else []) ++ n.int.map digitByte ++
    (match n.frac with | none => [] | some l => 0x2e :: l.1.map digitByte) ++
    (match n.exp with | none => [] | some e => e.text)

abbrev Text := Json Numeral (List Spelling)

def tokenText : Token Numeral (List Spelling) → Bytes
  | .endArray => [0x5d]
  | .endObject => [0x7d]
  | .comma => [0x2c]
  | .colon => [0x3a]
  | .null => [0x6e, 0x75, 0x6c, 0x6c]
  | .false => [0x66, 0x61, 0x6c, 0x73, 0x65]
  | .true => [0x74, 0x72, 0x75, 0x65]
  | .number n => n.text
  | .string s => 0x22 :: (s.flatMap Spelling.text ++ [0x22])
  | .array => [0x5b]
  | .object => [0x7b]

def tokenType {N S : Type*} : Token N S → ValueType
  | .endArray => .endArray
  | .endObject => .endObject
  | .comma => .comma
  | .colon => .colon
  | .null => .null
  | .false => .false
  | .true => .true
  | .number _ => .number
  | .string _ => .string
  | .array => .array
  | .object => .object

def bytes (ts : List (Token Numeral (List Spelling))) : Bytes := ts.flatMap tokenText

/-- `strtod` reads a number up to a delimiter or the end of a C string. -/
structure ReadsNumbers {V : Type*} (lib : CollateLib V) (value : Numeral → V) : Prop where
  strtod : ∀ (n : Numeral) (c : UInt8) (rest : Bytes), c ∈ [0x2c, 0x5d, 0x7d, 0x00] →
    lib.strtod (n.text ++ c :: rest) = (value n, n.text.length)

def kindRank (mode : CollateJSONMode) (k : Kind) : ℤ := (tokenType k).rank mode

/-- The recursive comparison of two JSON texts. -/
def structural {V : Type*} [Ord V] (value : Numeral → V) (mode : CollateJSONMode) :
    Text → Text → Ordering :=
  Json.collate (kindRank mode) (fun m n => compare (value m) (value n))
    fun s t => compare (s.map Spelling.char) (t.map Spelling.char)

def kinds : List Kind :=
  [.endArray, .endObject, .comma, .colon, .null, .false, .true, .number (), .string (), .array, .object]

theorem mem_kinds (k : Kind) : k ∈ kinds := by
  cases k <;> decide +revert

theorem ranked_kindRank (mode : CollateJSONMode) : Ranked (kindRank mode) where
  injective k k' h := by
    have hinj : ∀ k ∈ kinds, ∀ k' ∈ kinds, kindRank mode k = kindRank mode k' → k = k' := by
      cases mode <;> decide
    exact hinj k (mem_kinds k) k' (mem_kinds k') h
  endArray_lt k hk := by
    have hlt : ∀ k ∈ kinds, k ≠ .endArray → kindRank mode .endArray < kindRank mode k := by
      cases mode <;> decide
    exact hlt k (mem_kinds k) hk
  endObject_lt k hk hk' := by
    have hlt : ∀ k ∈ kinds, k ≠ .endArray → k ≠ .endObject →
        kindRank mode .endObject < kindRank mode k := by
      cases mode <;> decide
    exact hlt k (mem_kinds k) hk hk'

theorem digitToInt_byte (d : HexDigit) : digitToInt d.byte = d.value := by
  obtain ⟨v, u⟩ := d
  revert v u
  decide

theorem convertJSONEscape_unicode (d0 d1 d2 d3 : HexDigit) (h : hexCode d0 d1 d2 d3 < 0x80)
    (s : Bytes) :
    convertJSONEscape (0x75 :: d0.byte :: d1.byte :: d2.byte :: d3.byte :: s) =
      some (UInt8.ofNat (hexCode d0 d1 d2 d3), s) := by
  have h0 : (d0.value : ℕ) = 0 := by unfold hexCode at h; omega
  have h1 : (d1.value : ℕ) = 0 := by unfold hexCode at h; omega
  have hor : ∀ a b : Fin 16, a.val <<< 4 ||| b.val = a.val * 16 + b.val := by decide
  simp only [convertJSONEscape, digitToInt_byte, h0, h1, hexCode, Nat.zero_shiftLeft, Nat.zero_or,
    Nat.zero_mul, Nat.zero_add, hor]

theorem nextChar_text (x : Spelling) (s : Bytes) :
    ∃ c r, x.text ++ s = c :: r ∧ c ≠ 0x22 ∧ nextChar c r = some (x.letterF.char, s) := by
  match x with
  | .plain c h =>
    refine ⟨c, s, rfl, h.2.2.1, ?_⟩
    rw [nextChar, if_neg h.2.2.2]
    rfl
  | .escape e =>
    refine ⟨0x5c, e.byte :: s, rfl, by decide, ?_⟩
    cases e <;> rfl
  | .unicode d0 d1 d2 d3 h =>
    exact ⟨0x5c, _, rfl, by decide, convertJSONEscape_unicode d0 d1 d2 d3 h s⟩

theorem Spelling.char_lt (x : Spelling) : x.char < 0x80 := by
  match x with
  | .plain c h => exact h.2.1
  | .escape e => cases e <;> decide
  | .unicode d0 d1 d2 d3 h =>
    rw [UInt8.lt_iff_toNat_lt, Spelling.char, UInt8.toNat_ofNat', Nat.mod_eq_of_lt (by omega)]
    exact h

theorem dcmp_eq_compare {V : Type*} [LinearOrder V] (v w : V) : dcmp v w = compare v w := by
  rcases lt_trichotomy v w with h | rfl | h
  · rw [dcmp, if_neg h.not_gt, if_pos h, compare_lt_iff_lt.mpr h]
  · rw [dcmp, if_neg (lt_irrefl v), if_neg (lt_irrefl v), compare_eq_iff_eq.mpr rfl]
  · rw [dcmp, if_pos h, compare_gt_iff_gt.mpr h]

theorem cmp_charVal {c d : UInt8} (hc : c < 0x80) (hd : d < 0x80) :
    cmp (charVal c) (charVal d) = compare c d := by
  rw [charVal, charVal, if_pos hc, if_pos hd, cmp]
  rcases Nat.lt_trichotomy c.toNat d.toNat with h | h | h
  · rw [if_neg (by omega), if_pos (by omega)]
    exact (if_pos (UInt8.lt_iff_toNat_lt.mpr h)).symm
  · obtain rfl := UInt8.toNat_inj.mp h
    rw [if_neg (by omega), if_neg (by omega)]
    exact (Std.ReflOrd.compare_self).symm
  · rw [if_pos (by omega)]
    have hlt : ¬ c < d := fun hcd => absurd (UInt8.lt_iff_toNat_lt.mp hcd) (by omega)
    have hne : c ≠ d := fun heq => absurd (congrArg UInt8.toNat heq) (by omega)
    exact ((if_neg hlt).trans (if_neg hne)).symm

def comparedAs (o : Ordering) (str1 str2 : Bytes) : Compared :=
  match o with
  | .eq => .next str1 str2
  | o => .stop o

variable {fuel : ℕ}

theorem compareCharsASCII_text (xs ys : List Spelling) (r1 r2 : Bytes) (hfuel : xs.length < fuel) :
    compareCharsASCII fuel (xs.flatMap Spelling.text ++ 0x22 :: r1)
        (ys.flatMap Spelling.text ++ 0x22 :: r2) =
      some (comparedAs (compare (xs.map fun x => x.letterF.char) (ys.map fun y => y.letterF.char))
        r1 r2) := by
  induction xs generalizing ys fuel with
  | nil =>
    obtain ⟨fuel, rfl⟩ := Nat.exists_eq_succ_of_ne_zero hfuel.ne'
    cases ys with
    | nil => rfl
    | cons y ys =>
      obtain ⟨c, r, hy, hc, -⟩ := nextChar_text y (ys.flatMap Spelling.text ++ 0x22 :: r2)
      rw [flatMap_cons, append_assoc, hy]
      simp [compareCharsASCII, hc, comparedAs]
  | cons x xs ih =>
    obtain ⟨fuel, rfl⟩ := Nat.exists_eq_succ_of_ne_zero (Nat.ne_zero_of_lt hfuel)
    obtain ⟨c, r, hx, hc, hnext⟩ := nextChar_text x (xs.flatMap Spelling.text ++ 0x22 :: r1)
    rw [flatMap_cons, append_assoc, hx]
    cases ys with
    | nil => simp [compareCharsASCII, hc, comparedAs]
    | cons y ys =>
      obtain ⟨d, r', hy, hd, hnext'⟩ := nextChar_text y (ys.flatMap Spelling.text ++ 0x22 :: r2)
      rw [flatMap_cons, append_assoc, hy]
      simp only [compareCharsASCII, if_neg hc, if_neg hd, hnext, hnext',
        cmp_charVal x.letterF.char_lt y.letterF.char_lt, List.map_cons, List.compare_cons_cons]
      cases hcmp : compare x.letterF.char y.letterF.char with
      | lt => rfl
      | gt => rfl
      | eq => exact ih ys (by simpa using hfuel)

def readString (s : List Spelling) : Bytes := s.map fun x => x.letterF.char

theorem length_le_length_text (xs : List Spelling) : xs.length ≤ (xs.flatMap Spelling.text).length := by
  induction xs with
  | nil => exact Nat.le_refl 0
  | cons x xs ih =>
    have hx : 0 < x.text.length := by cases x <;> exact Nat.succ_pos _
    rw [flatMap_cons, length_append, length_cons]
    omega

theorem compareStringsASCII_text (xs ys : List Spelling) (r1 r2 : Bytes) :
    compareStringsASCII (tokenText (.string xs) ++ r1) (tokenText (.string ys) ++ r2) =
      some (comparedAs (compare (readString xs) (readString ys)) r1 r2) := by
  have hlen := length_le_length_text xs
  simp only [compareStringsASCII, tokenText, cons_append, append_assoc, drop_succ_cons,
    drop_zero, nil_append, length_cons, length_append]
  exact compareCharsASCII_text xs ys r1 r2 (by omega)

theorem scanString_text (x : Spelling) (s : Bytes) (fuel : ℕ) :
    scanString (fuel + 1) (x.text ++ s) = (scanString fuel s).map fun r =>
      (x.text ++ r.1, r.2.1 + (x.text.length - 1), r.2.2) := by
  match x with
  | .plain c h =>
    simp only [Spelling.text, singleton_append, scanString, if_neg h.2.2.1, if_neg h.2.2.2]
    rfl
  | .escape e => cases e <;> rfl
  | .unicode d0 d1 d2 d3 h => rfl

theorem scanString_quote (xs : List Spelling) (r : Bytes) (hfuel : xs.length < fuel) :
    scanString fuel (xs.flatMap Spelling.text ++ 0x22 :: r) =
      some (xs.flatMap Spelling.text, (xs.flatMap Spelling.text).length - xs.length, r) := by
  induction xs generalizing fuel with
  | nil =>
    obtain ⟨fuel, rfl⟩ := Nat.exists_eq_succ_of_ne_zero hfuel.ne'
    rfl
  | cons x xs ih =>
    obtain ⟨fuel, rfl⟩ := Nat.exists_eq_succ_of_ne_zero (Nat.ne_zero_of_lt hfuel)
    have hx : 0 < x.text.length := by cases x <;> exact Nat.succ_pos _
    have hlen := length_le_length_text xs
    have hexcess : (xs.flatMap Spelling.text).length - xs.length + (x.text.length - 1) =
        x.text.length + (xs.flatMap Spelling.text).length - (xs.length + 1) := by omega
    rw [flatMap_cons, append_assoc, scanString_text, ih (by simpa using hfuel),
      Option.map_some, length_append, length_cons, hexcess]

theorem convertString_quote (xs : List Spelling) (r : Bytes) (hfuel : xs.length < fuel) :
    convertString fuel (xs.flatMap Spelling.text ++ 0x22 :: r) = some (readString xs) := by
  induction xs generalizing fuel with
  | nil =>
    obtain ⟨fuel, rfl⟩ := Nat.exists_eq_succ_of_ne_zero hfuel.ne'
    rfl
  | cons x xs ih =>
    obtain ⟨fuel, rfl⟩ := Nat.exists_eq_succ_of_ne_zero (Nat.ne_zero_of_lt hfuel)
    obtain ⟨c, s, hx, hc, hnext⟩ := nextChar_text x (xs.flatMap Spelling.text ++ 0x22 :: r)
    rw [flatMap_cons, append_assoc, hx, convertString, if_neg hc, hnext, Option.bind_some,
      ih (by simpa using hfuel)]
    rfl

theorem readString_of_length {xs : List Spelling}
    (h : (xs.flatMap Spelling.text).length - xs.length = 0) : readString xs = xs.flatMap
    Spelling.text := by
  induction xs with
  | nil => rfl
  | cons x xs ih =>
    have hlen := length_le_length_text xs
    rw [flatMap_cons, length_append, length_cons] at h
    have ih := ih (by cases x <;> simp only [Spelling.text, length_cons, length_nil] at h <;> omega)
    match x with
    | .plain c hc => simpa [readString, Spelling.text, Spelling.letterF, Spelling.char] using ih
    | .escape e =>
      simp only [Spelling.text, length_cons, length_nil] at h
      omega
    | .unicode d0 d1 d2 d3 hd =>
      simp only [Spelling.text, length_cons, length_nil] at h
      omega

theorem createStringFromJSON_text (xs : List Spelling) (r : Bytes) :
    createStringFromJSON (tokenText (.string xs) ++ r) = some (readString xs, r) := by
  have hlen := length_le_length_text xs
  simp only [createStringFromJSON, tokenText, cons_append, append_assoc,
    drop_succ_cons, drop_zero, nil_append]
  have hfuel : xs.length < (0x22 :: (xs.flatMap Spelling.text ++ 0x22 :: r)).length := by
    simp only [length_cons, length_append]
    omega
  rw [scanString_quote xs r hfuel, Option.bind_some]
  split_ifs with h
  · rw [convertString_quote xs r hfuel]
    rfl
  · rw [readString_of_length (Nat.eq_zero_of_not_pos h)]

section Turn
variable {V : Type*} [LinearOrder V] {lib : CollateLib V} {value : Numeral → V}
  {mode : CollateJSONMode} {buf1 buf2 : SizedBuf}

def stringCmp (lib : CollateLib V) (mode : CollateJSONMode) (s t : List Spelling) : Ordering :=
  if mode = .unicode then lib.strcoll (readString s) (readString t)
  else compare (readString s) (readString t)

def numeralCmp (value : Numeral → V) (m n : Numeral) : Ordering := compare (value m) (value n)

theorem valueTypeOf_tokenText (t : Token Numeral (List Spelling)) (r : Bytes) :
    valueTypeOf ((tokenText t ++ r).headD 0) = tokenType t := by
  match t with
  | .number n =>
    obtain ⟨d, l, hd⟩ := exists_cons_of_ne_nil n.int_ne
    have hdigit : ∀ d, valueTypeOf (digitByte d) = .number := by decide
    cases hm : n.minus <;> simp [tokenText, Numeral.text, hm, hd, tokenType, hdigit]
    rfl
  | .endArray | .endObject | .comma | .colon | .null | .false | .true | .array | .object
  | .string s => rfl

variable {ts : List (Token Numeral (List Spelling))} {t : Token Numeral (List Spelling)}
  {u : Token Numeral (List Spelling)} {fuel : ℕ}

theorem compareTokens_text {depth : ℤ} {r1 r2 : Bytes} (hkind : t.kind = u.kind)
    (h1 : ∀ n, t = .number n → (if depth = 0 then readNumber lib (buf1.upto (n.text ++ r1))
      else lib.strtod (n.text ++ r1)) = (value n, n.text.length))
    (h2 : ∀ n, u = .number n → (if depth = 0 then readNumber lib (buf2.upto (n.text ++ r2))
      else lib.strtod (n.text ++ r2)) = (value n, n.text.length)) :
    compareTokens lib mode buf1 buf2 depth (tokenText t ++ r1) (tokenText u ++ r2) (tokenType t) =
      some (comparedAs (tokenCmp (kindRank mode) (numeralCmp value) (stringCmp lib mode) t u) r1 r2) := by
  match t, u with
  | .number m, .number n =>
    rw [tokenCmp_number, tokenText, tokenText, tokenType]
    simp only [compareTokens, compareNumbers, h1 m rfl, h2 n rfl, dcmp_eq_compare, numeralCmp,
      drop_left]
    cases compare (value m) (value n) <;> rfl
  | .string s, .string s' =>
    rw [tokenCmp_string, tokenType]
    simp only [compareTokens, stringCmp]
    split_ifs with hmode
    · simp only [compareStringsUnicode, createStringFromJSON_text]
      cases lib.strcoll (readString s) (readString s') <;> rfl
    · exact compareStringsASCII_text s s' r1 r2
  | .endArray, .endArray | .endObject, .endObject | .comma, .comma | .colon, .colon | .null, .null
  | .false, .false | .true, .true | .array, .array | .object, .object =>
    rw [tokenCmp_self rfl rfl]
    rfl

omit [LinearOrder V] in
theorem kindRank_kind (t : Token Numeral (List Spelling)) :
    kindRank mode t.kind = (tokenType t).rank mode := by
  cases t <;> rfl

theorem tokenType_eq_iff : tokenType t = tokenType u ↔ t.kind = u.kind := by
  constructor
  · intro h
    apply (ranked_kindRank .ascii).injective
    rw [kindRank_kind, kindRank_kind, h]
  · intro h
    have ht (t : Token Numeral (List Spelling)) : tokenType t = tokenType t.kind := by cases t <;> rfl
    rw [ht, ht u, h]

theorem collateLoop_cons {depth : ℤ} {r1 r2 : Bytes}
    (h1 : ∀ n, t = .number n → (if depth = 0 then readNumber lib (buf1.upto (n.text ++ r1))
      else lib.strtod (n.text ++ r1)) = (value n, n.text.length))
    (h2 : ∀ n, u = .number n → (if depth = 0 then readNumber lib (buf2.upto (n.text ++ r2))
      else lib.strtod (n.text ++ r2)) = (value n, n.text.length)) :
    collateLoop lib mode buf1 buf2 (fuel + 1) (tokenText t ++ r1) (tokenText u ++ r2) depth =
      match tokenCmp (kindRank mode) (numeralCmp value) (stringCmp lib mode) t u with
      | .eq =>
        if 0 < (tokenType t).depth depth then
          collateLoop lib mode buf1 buf2 fuel r1 r2 ((tokenType t).depth depth)
        else some .eq
      | o => some o := by
  simp only [collateLoop, valueTypeOf_tokenText]
  by_cases hk : t.kind = u.kind
  · rw [if_neg (not_not.mpr (tokenType_eq_iff.mpr hk)), compareTokens_text hk h1 h2]
    cases tokenCmp (kindRank mode) (numeralCmp value) (stringCmp lib mode) t u <;> rfl
  · rw [if_pos (mt tokenType_eq_iff.mp hk)]
    have hcmp : cmp ((tokenType t).rank mode) ((tokenType u).rank mode) =
        tokenCmp (kindRank mode) (numeralCmp value) (stringCmp lib mode) t u := by
      rw [tokenCmp_of_ne (ranked_kindRank mode) hk, kindRank_kind, kindRank_kind]
      exact dcmp_eq_compare _ _
    rw [hcmp]
    cases hc : tokenCmp (kindRank mode) (numeralCmp value) (stringCmp lib mode) t u with
    | eq => exact absurd (kind_eq_of_tokenCmp (ranked_kindRank mode) hc) hk
    | lt => rfl
    | gt => rfl

theorem bytes_cons (t : Token Numeral (List Spelling)) (ts : List (Token Numeral (List Spelling)))
    (g : Bytes) : bytes (t :: ts) ++ g = tokenText t ++ (bytes ts ++ g) := by
  rw [bytes, flatMap_cons, append_assoc]
  rfl

omit [LinearOrder V] in
theorem strtod_of_framed (hlib : ReadsNumbers lib value) {n : Numeral}
    (h : ∃ u us, ts = u :: us ∧ u.delimits) (g : Bytes) :
    lib.strtod (n.text ++ (bytes ts ++ g)) = (value n, n.text.length) := by
  obtain ⟨u, us, rfl, hu⟩ := h
  rw [bytes_cons]
  cases u <;> first | exact hlib.strtod n _ _ (by decide) | exact hu.elim

theorem depth_tokenType {d : ℕ} (hd : 0 < d) : (tokenType t).depth d = (t.depth d : ℕ) := by
  cases t <;> simp only [tokenType, ValueType.depth, Token.depth] <;> omega

theorem collateLoop_bytes (hlib : ReadsNumbers lib value) {us : List (Token Numeral (List Spelling))}
    {d : ℕ} (hts : Framed d ts) (hus : Framed d us) (hfuel : ts.length ≤ fuel) (g1 g2 : Bytes) :
    (if 0 < (d : ℤ) then collateLoop lib mode buf1 buf2 fuel (bytes ts ++ g1) (bytes us ++ g2) d
      else some .eq) =
      some (ts.compareLex (tokenCmp (kindRank mode) (numeralCmp value) (stringCmp lib mode)) us) := by
  induction ts generalizing us d fuel with
  | nil =>
    obtain rfl : d = 0 := hts
    rw [framed_zero.mp hus]
    rfl
  | cons t ts ih =>
    obtain ⟨hd, htnum, hts⟩ := hts
    cases us with
    | nil => exact absurd hus hd.ne'
    | cons u us =>
      obtain ⟨fuel, rfl⟩ := Nat.exists_eq_succ_of_ne_zero (Nat.ne_zero_of_lt hfuel)
      obtain ⟨-, hunum, hus⟩ := hus
      have hd' : (d : ℤ) ≠ 0 := by omega
      rw [if_pos (by omega), bytes_cons, bytes_cons, collateLoop_cons, List.compareLex_cons_cons,
        depth_tokenType hd]
      · cases hc : tokenCmp (kindRank mode) (numeralCmp value) (stringCmp lib mode) t u with
        | lt => rfl
        | gt => rfl
        | eq =>
          rw [← u.depth_kind, ← kind_eq_of_tokenCmp (ranked_kindRank mode) hc, t.depth_kind] at hus
          exact ih hts hus (by simpa using hfuel)
      · rintro n rfl
        rw [if_neg hd']
        exact strtod_of_framed hlib (htnum rfl) g1
      · rintro n rfl
        rw [if_neg hd']
        exact strtod_of_framed hlib (hunum rfl) g2

theorem depth_tokenType_head (a : Text) : (tokenType a.head).depth 0 = (a.head.depth 0 : ℕ) := by
  cases a <;> rfl

def buffer (a : Text) (g : Bytes) : SizedBuf := ⟨bytes a.tokens ++ g, (bytes a.tokens).length⟩

omit [LinearOrder V] in
theorem readNumber_buffer (hlib : ReadsNumbers lib value) {a : Text} {n : Numeral}
    (ha : a.tokens = a.head :: ts)
    (hn : a.head = .number n) (g : Bytes) :
    readNumber lib ((buffer a g).upto (n.text ++ (bytes ts ++ g))) = (value n, n.text.length) := by
  obtain rfl : a = .number n := by
    cases a <;> first | cases hn; rfl | cases hn
  obtain rfl : ts = [] := (List.cons.inj ha).2.symm
  have hupto : (buffer (.number n) g).upto (n.text ++ (bytes [] ++ g)) = n.text := by
    simp [SizedBuf.upto, buffer, bytes, Json.tokens, tokenText]
  rw [hupto]
  exact hlib.strtod n 0 [] (by decide)

theorem collateJSON_eq_collate (hlib : ReadsNumbers lib value) (a b : Text) (g1 g2 : Bytes)
    (hfuel : a.tokens.length ≤ fuel) :
    collateJSON lib mode fuel (buffer a g1) (buffer b g2) =
      some (a.collate (kindRank mode) (numeralCmp value) (stringCmp lib mode) b) := by
  obtain ⟨ts, ha, hts⟩ := a.tokens_eq_cons
  obtain ⟨us, hb, hus⟩ := b.tokens_eq_cons
  have hbuf1 : (buffer a g1).buf = tokenText a.head ++ (bytes ts ++ g1) := by
    rw [buffer, ha, bytes_cons]
  have hbuf2 : (buffer b g2).buf = tokenText b.head ++ (bytes us ++ g2) := by
    rw [buffer, hb, bytes_cons]
  rw [ha] at hfuel
  obtain ⟨fuel, rfl⟩ := Nat.exists_eq_succ_of_ne_zero (Nat.ne_zero_of_lt hfuel)
  rw [Json.collate_eq_compareLex (ranked_kindRank mode), ha, hb, List.compareLex_cons_cons, collateJSON,
    hbuf1, hbuf2, collateLoop_cons, depth_tokenType_head]
  · cases hc : tokenCmp (kindRank mode) (numeralCmp value) (stringCmp lib mode) a.head b.head with
    | lt => rfl
    | gt => rfl
    | eq =>
      rw [← b.head.depth_kind, ← kind_eq_of_tokenCmp (ranked_kindRank mode) hc, a.head.depth_kind] at hus
      exact collateLoop_bytes hlib hts hus (by simpa using hfuel) g1 g2
  · intro n hn
    rw [if_pos rfl]
    exact readNumber_buffer hlib ha hn g1
  · intro n hn
    rw [if_pos rfl]
    exact readNumber_buffer hlib hb hn g2

end Turn

def letterF (a : Text) : Text := a.mapStrings (List.map Spelling.letterF)

def FormFeedFree (a : Text) : Prop := ∀ s, .string s ∈ a.tokens → .escape .f ∉ s

theorem letterF_of_formFeedFree {a : Text} (h : FormFeedFree a) : letterF a = a := by
  refine a.mapStrings_eq_self fun s hs => ?_
  rw [map_congr_left (g := id) fun x hx => ?_, map_id]
  have hne : x ≠ .escape .f := fun heq => h s hs (heq ▸ hx)
  unfold Spelling.letterF
  split
  · exact absurd rfl hne
  · rfl

section Order
variable {V : Type*} [LinearOrder V] {lib : CollateLib V} {value : Numeral → V} {mode : CollateJSONMode}

instance : TransCmp (structural value mode) := by
  have := transCmp_comap (compare : V → V → Ordering) value
  have := transCmp_comap (compare : Bytes → Bytes → Ordering) (List.map Spelling.char)
  exact transCmp_collate (ranked_kindRank mode)

/-- The code gives the collation order of the texts with `\f` as f. -/
theorem collateJSON_eq_structural (hlib : ReadsNumbers lib value) (hmode : mode ≠ .unicode) (a b : Text)
    (g1 g2 : Bytes) {fuel : ℕ} (hfuel : a.tokens.length ≤ fuel) :
    collateJSON lib mode fuel (buffer a g1) (buffer b g2) =
      some (structural value mode (letterF a) (letterF b)) := by
  have hcs : stringCmp lib mode = fun s t => compare ((s.map Spelling.letterF).map Spelling.char)
      ((t.map Spelling.letterF).map Spelling.char) := by
    funext s t
    rw [stringCmp, if_neg hmode, map_map, map_map]
    rfl
  rw [collateJSON_eq_collate hlib a b g1 g2 hfuel, structural, letterF, letterF, Json.collate_mapStrings,
    hcs]
  rfl

end Order

/-- The loop agrees with the recursive comparison exactly on the pairs of texts whose order does
not change when each `\f` is replaced by the letter f, so on all texts without that escape. It
is an order on all texts. -/
theorem collateJSON_structural_iff {V : Type*} [LinearOrder V] {lib : CollateLib V}
    {value : Numeral → V} {mode : CollateJSONMode} (hlib : ReadsNumbers lib value)
    (hmode : mode ≠ .unicode) :
    (∀ (a b : Text) (g₁ g₂ : Bytes) (fuel : ℕ), a.tokens.length ≤ fuel →
      (collateJSON lib mode fuel (buffer a g₁) (buffer b g₂) = some (structural value mode a b) ↔
        structural value mode (letterF a) (letterF b) = structural value mode a b)) ∧
    (∀ a b : Text, FormFeedFree a → FormFeedFree b →
      structural value mode (letterF a) (letterF b) = structural value mode a b) ∧
    TransCmp fun a b : Text =>
      (collateJSON lib mode a.tokens.length (buffer a []) (buffer b [])).getD .eq := by
  refine ⟨fun a b g₁ g₂ fuel hfuel => ?_, fun a b ha hb => ?_, ?_⟩
  · rw [collateJSON_eq_structural hlib hmode a b g₁ g₂ hfuel, Option.some.injEq]
  · rw [letterF_of_formFeedFree ha, letterF_of_formFeedFree hb]
  · simp only [collateJSON_eq_structural hlib hmode _ _ [] [] le_rfl, Option.getD_some]
    exact transCmp_comap (structural value mode) letterF

def isNumberByte (c : UInt8) : Bool :=
  (0x30 ≤ c && c ≤ 0x39) || c == 0x2d || c == 0x2b || c == 0x2e || c == 0x45 || c == 0x65

def integerPart (s : Bytes) : ℤ :=
  let digits := (s.dropWhile (· == 0x2d)).takeWhile fun c => 0x30 ≤ c && c ≤ 0x39
  let n : ℤ := digits.foldl (fun n c => 10 * n + (c.toNat - 0x30)) 0
  if s.head? = some 0x2d then -n else n

def integerLib : CollateLib ℤ where
  strtod s := (integerPart (s.takeWhile isNumberByte), (s.takeWhile isNumberByte).length)
  strcoll := compare

theorem isNumberByte_text (n : Numeral) : ∀ c ∈ n.text, isNumberByte c = true := by
  have hdigit : ∀ d, isNumberByte (digitByte d) = true := by decide
  have hdigits (l : List (Fin 10)) : ∀ c ∈ l.map digitByte, isNumberByte c = true := by
    intro c hc
    obtain ⟨d, -, rfl⟩ := mem_map.mp hc
    exact hdigit d
  intro c hc
  simp only [Numeral.text, mem_append] at hc
  rcases hc with ((hc | hc) | hc) | hc
  · split_ifs at hc
    · obtain rfl := mem_singleton.mp hc
      rfl
    · cases hc
  · exact hdigits _ c hc
  · split at hc
    · cases hc
    · rcases mem_cons.mp hc with rfl | hc
      · rfl
      · exact hdigits _ c hc
  · split at hc
    · cases hc
    next e _ =>
      rcases mem_cons.mp hc with rfl | hc
      · cases e.upper <;> rfl
      rcases mem_append.mp hc with hc | hc
      · split at hc
        · cases hc
        · obtain rfl := mem_singleton.mp hc
          rfl
        · obtain rfl := mem_singleton.mp hc
          rfl
      · exact hdigits _ c hc

theorem readsNumbers_integerLib : ReadsNumbers integerLib fun n => integerPart n.text where
  strtod n c rest hc := by
    have hstop : isNumberByte c = false := by
      simp only [mem_cons, not_mem_nil, or_false] at hc
      rcases hc with rfl | rfl | rfl | rfl <;> rfl
    have htake : (n.text ++ c :: rest).takeWhile isNumberByte = n.text := by
      rw [takeWhile_append_of_pos (isNumberByte_text n), takeWhile_cons, if_neg (by simp [hstop]),
        append_nil]
    simp only [integerLib, htake]

def numeral (d : Fin 10) : Numeral := ⟨false, [d], by simp, by simp, none, none⟩

/-- `[1]` is before `[1,2]`. -/
theorem collateJSON_structural_arrays :
    collateJSON integerLib .ascii 3 (buffer (.array [.number (numeral 1)]) [])
        (buffer (.array [.number (numeral 1), .number (numeral 2)]) []) = some .lt := by
  have h := ((collateJSON_structural_iff readsNumbers_integerLib
    (by decide : CollateJSONMode.ascii ≠ .unicode)).1
    (.array [.number (numeral 1)]) (.array [.number (numeral 1), .number (numeral 2)]) [] [] 3
    (by decide)).mpr (by decide)
  rw [h]
  decide

/-- The string of one form feed and the string of the letter f compare as equal. -/
theorem collateJSON_form_feed : collateJSON integerLib .ascii 1 (buffer (.string [.escape .f]) [])
        (buffer (.string [.plain 0x66 (by decide)]) []) = some .eq ∧
      structural (fun n => integerPart n.text) .ascii (.string [.escape .f])
        (.string [.plain 0x66 (by decide)]) = .lt := by
  decide

end Appstack.Couchstore.CollateJson
