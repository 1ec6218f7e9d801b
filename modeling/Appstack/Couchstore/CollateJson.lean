import Appstack.Couchstore.NodeTypes

-- `collate_json.c`. Memory is a list of bytes from a pointer on; a read past its end has no result.

namespace Appstack.Couchstore.CollateJson

inductive CollateJSONMode where
  | unicode
  | raw
  | ascii
  deriving DecidableEq

inductive ValueType where
  | endArray
  | endObject
  | comma
  | colon
  | null
  | false
  | true
  | number
  | string
  | array
  | object
  | illegal
  deriving DecidableEq

def ValueType.toNat : ValueType → ℕ
  | endArray => 0
  | endObject => 1
  | comma => 2
  | colon => 3
  | null => 4
  | false => 5
  | true => 6
  | number => 7
  | string => 8
  | array => 9
  | object => 10
  | illegal => 11

def kRawOrderOfValueType : List ℤ := [-4, -3, -2, -1, 2, 1, 3, 0, 6, 5, 4, 7]

def ValueType.rank (mode : CollateJSONMode) (type : ValueType) : ℤ :=
  if mode ≠ .raw then type.toNat else kRawOrderOfValueType.getD type.toNat 0

def valueTypeOf (c : UInt8) : ValueType :=
  match c with
  | 0x6e => .null  -- n
  | 0x66 => .false  -- f
  | 0x74 => .true  -- t
  | 0x30 | 0x31 | 0x32 | 0x33 | 0x34 | 0x35 | 0x36 | 0x37 | 0x38 | 0x39 | 0x2d => .number
  | 0x22 => .string
  | 0x5d => .endArray
  | 0x7d => .endObject
  | 0x2c => .comma
  | 0x3a => .colon
  | 0x5b => .array
  | 0x7b => .object
  | _ => .illegal

/-- What the collation uses of the C library and of ICU: `strtod`, with the number of bytes
that it reads, and the collator's comparison of two UTF-8 strings. -/
structure CollateLib (V : Type*) where
  strtod : Bytes → V × ℕ
  strcoll : Bytes → Bytes → Ordering

def cmp (n1 n2 : ℤ) : Ordering := if n2 < n1 then .gt else if n1 < n2 then .lt else .eq

def dcmp {V : Type*} [LT V] [DecidableLT V] (n1 n2 : V) : Ordering :=
  if n2 < n1 then .gt else if n1 < n2 then .lt else .eq

def digitToInt (c : UInt8) : ℕ :=
  if 0x30 ≤ c ∧ c ≤ 0x39 then c.toNat - 0x30
  else if 0x41 ≤ c ∧ c ≤ 0x46 then 10 + (c.toNat + 0x20) - 0x61
  else if 0x61 ≤ c ∧ c ≤ 0x66 then 10 + c.toNat - 0x61
  else 0

/-- Takes the bytes after a backslash; gives the character and the bytes after the escape. -/
def convertJSONEscape : Bytes → Option (UInt8 × Bytes)
  | [] => none
  | c :: s =>
    match c with
    | 0x75 =>
      match s with
      | d0 :: d1 :: d2 :: d3 :: s =>
        let uc := digitToInt d0 <<< 12 ||| digitToInt d1 <<< 8 ||| digitToInt d2 <<< 4 ||| digitToInt d3
        some (UInt8.ofNat uc, s)
      | _ => none
    | 0x62 => some (0x08, s)
    | 0x6e => some (0x0a, s)
    | 0x72 => some (0x0d, s)
    | 0x74 => some (0x09, s)
    | _ => some (c, s)

def nextChar (c : UInt8) (s : Bytes) : Option (UInt8 × Bytes) :=
  if c = 0x5c then convertJSONEscape s else some (c, s)

/-- `char` is signed. -/
def charVal (c : UInt8) : ℤ := if c < 0x80 then c.toNat else c.toNat - 256

inductive Compared where
  | stop (result : Ordering)
  | next (str1 str2 : Bytes)
  deriving DecidableEq

def compareCharsASCII : ℕ → Bytes → Bytes → Option Compared
  | fuel + 1, c1 :: str1, c2 :: str2 =>
    if c1 = 0x22 then
      if c2 = 0x22 then some (.next str1 str2) else some (.stop .lt)
    else if c2 = 0x22 then some (.stop .gt)
    else
      match nextChar c1 str1, nextChar c2 str2 with
      | some (c1, str1), some (c2, str2) =>
        match cmp (charVal c1) (charVal c2) with
        | .eq => compareCharsASCII fuel str1 str2
        | s => some (.stop s)
      | _, _ => none
  | _, _, _ => none

def compareStringsASCII (in1 in2 : Bytes) : Option Compared :=
  compareCharsASCII in1.length (in1.drop 1) (in2.drop 1)

/-- The first loop of `createStringFromJSON`: the bytes up to the closing quote, how many of
them the escapes take up in excess, and what follows the quote. -/
def scanString : ℕ → Bytes → Option (Bytes × ℕ × Bytes)
  | fuel + 1, c :: s =>
    if c = 0x22 then some ([], 0, s)
    else if c = 0x5c then
      match s with
      | d :: s =>
        if d = 0x75 then
          (scanString fuel (s.drop 4)).map fun r => (c :: d :: (s.take 4 ++ r.1), r.2.1 + 5, r.2.2)
        else (scanString fuel s).map fun r => (c :: d :: r.1, r.2.1 + 1, r.2.2)
      | [] => none
    else (scanString fuel s).map fun r => (c :: r.1, r.2.1, r.2.2)
  | _, _ => none

def convertString : ℕ → Bytes → Option Bytes
  | fuel + 1, c :: s =>
    if c = 0x22 then some []
    else (nextChar c s).bind fun r => (convertString fuel r.2).map (r.1 :: ·)
  | _, _ => none

def createStringFromJSON (input : Bytes) : Option (Bytes × Bytes) :=
  (scanString input.length (input.drop 1)).bind fun (str, escapes, rest) =>
    if 0 < escapes then (convertString input.length (input.drop 1)).map (·, rest)
    else some (str, rest)

section
variable {V : Type*} [LT V] [DecidableLT V] (lib : CollateLib V) (mode : CollateJSONMode)

def compareStringsUnicode (in1 in2 : Bytes) : Option Compared :=
  match createStringFromJSON in1, createStringFromJSON in2 with
  | some (str1, in1), some (str2, in2) =>
    match lib.strcoll str1 str2 with
    | .eq => some (.next in1 in2)
    | result => some (.stop result)
  | _, _ => none

structure SizedBuf where
  /-- The memory from the start of the buffer on; it may go on after the buffer. -/
  buf : Bytes
  size : ℕ

def SizedBuf.upto (b : SizedBuf) (str : Bytes) : Bytes :=
  str.take (b.size - (b.buf.length - str.length))

/-- The copy of the number ends with a zero. -/
def readNumber (text : Bytes) : V × ℕ := lib.strtod (text ++ [0])

def compareNumbers (buf1 buf2 : SizedBuf) (depth : ℤ) (str1 str2 : Bytes) : Compared :=
  let (n1, next1) := if depth = 0 then readNumber lib (buf1.upto str1) else lib.strtod str1
  let (n2, next2) := if depth = 0 then readNumber lib (buf2.upto str2) else lib.strtod str2
  match dcmp n1 n2 with
  | .eq => .next (str1.drop next1) (str2.drop next2)
  | diff => .stop diff

def compareTokens (buf1 buf2 : SizedBuf) (depth : ℤ) (str1 str2 : Bytes) :
    ValueType → Option Compared
  | .null | .true => some (.next (str1.drop 4) (str2.drop 4))
  | .false => some (.next (str1.drop 5) (str2.drop 5))
  | .number => some (compareNumbers lib buf1 buf2 depth str1 str2)
  | .string =>
    if mode = .unicode then compareStringsUnicode lib str1 str2 else compareStringsASCII str1 str2
  | .array | .object | .endArray | .endObject | .comma | .colon =>
    some (.next (str1.drop 1) (str2.drop 1))
  | .illegal => some (.stop .eq)

def ValueType.depth : ValueType → ℤ → ℤ
  | array, d | object, d => d + 1
  | endArray, d | endObject, d => d - 1
  | _, d => d

def collateLoop (buf1 buf2 : SizedBuf) : ℕ → Bytes → Bytes → ℤ → Option Ordering
  | 0, _, _, _ => none
  | fuel + 1, str1, str2, depth =>
    let type1 := valueTypeOf (str1.headD 0)
    let type2 := valueTypeOf (str2.headD 0)
    if type1 ≠ type2 then some (cmp (type1.rank mode) (type2.rank mode))
    else
      match compareTokens lib mode buf1 buf2 depth str1 str2 type1 with
      | none => none
      | some (.stop result) => some result
      | some (.next str1 str2) =>
        if 0 < type1.depth depth then collateLoop buf1 buf2 fuel str1 str2 (type1.depth depth)
        else some .eq

def collateJSON (fuel : ℕ) (buf1 buf2 : SizedBuf) : Option Ordering :=
  collateLoop lib mode buf1 buf2 fuel buf1.buf buf2.buf 0

end

end Appstack.Couchstore.CollateJson
