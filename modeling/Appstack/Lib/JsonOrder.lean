import Mathlib

namespace Appstack.Lib.JsonOrder
open Std List Ordering

/-- A JSON value with numbers in `N` and strings in `S`. -/
inductive Json (N S : Type*) where
  | null
  | false
  | true
  | number (n : N)
  | string (s : S)
  | array (l : List (Json N S))
  | object (l : List (S × Json N S))

inductive Token (N S : Type*) where
  | endArray
  | endObject
  | comma
  | colon
  | null
  | false
  | true
  | number (n : N)
  | string (s : S)
  | array
  | object
  deriving DecidableEq

/-- What a token is, without its content. -/
abbrev Kind := Token Unit Unit

def Json.head {N S : Type*} : Json N S → Token N S
  | .null => .null
  | .false => .false
  | .true => .true
  | .number n => .number n
  | .string s => .string s
  | .array _ => .array
  | .object _ => .object

namespace Token
variable {N S N' S' : Type*}

def map (f : N → N') (g : S → S') : Token N S → Token N' S'
  | endArray => .endArray
  | endObject => .endObject
  | comma => .comma
  | colon => .colon
  | null => .null
  | false => .false
  | true => .true
  | number n => .number (f n)
  | string s => .string (g s)
  | array => .array
  | object => .object

def kind : Token N S → Kind := map (fun _ => ()) fun _ => ()

def number? : Token N S → Option N
  | number n => some n
  | _ => none

def string? : Token N S → Option S
  | string s => some s
  | _ => none

/-- The number of open containers after the token. -/
def depth : Token N S → ℕ → ℕ
  | array, d => d + 1
  | object, d => d + 1
  | endArray, d => d - 1
  | endObject, d => d - 1
  | _, d => d

theorem depth_kind (t : Token N S) (d : ℕ) : t.kind.depth d = t.depth d := by
  cases t <;> rfl

/-- A token that can follow a number inside a container. -/
def delimits : Token N S → Prop
  | endArray => True
  | endObject => True
  | comma => True
  | _ => False

end Token

/-- Tokens that close `d` open containers with the last of them and not before, with every
number followed by a delimiter. -/
def Framed {N S : Type*} : ℕ → List (Token N S) → Prop
  | d, [] => d = 0
  | d, t :: ts =>
    0 < d ∧ (t.number?.isSome → ∃ u us, ts = u :: us ∧ u.delimits) ∧ Framed (t.depth d) ts

theorem framed_zero {N S : Type*} {ts : List (Token N S)} : Framed 0 ts ↔ ts = [] := by
  cases ts with
  | nil => exact ⟨fun _ => rfl, fun _ => rfl⟩
  | cons t ts => exact ⟨fun h => absurd h.1 (Nat.lt_irrefl 0), nofun⟩

section Tokens
variable {N S : Type*}

mutual
def Json.tokens : Json N S → List (Token N S)
  | .null => [.null]
  | .false => [.false]
  | .true => [.true]
  | .number n => [.number n]
  | .string s => [.string s]
  | .array [] => [.array, .endArray]
  | .array (a :: l) => .array :: (a.tokens ++ elementTokens l)
  | .object [] => [.object, .endObject]
  | .object ((k, a) :: l) => .object :: .string k :: .colon :: (a.tokens ++ memberTokens l)

def elementTokens : List (Json N S) → List (Token N S)
  | [] => [.endArray]
  | a :: l => .comma :: (a.tokens ++ elementTokens l)

def memberTokens : List (S × Json N S) → List (Token N S)
  | [] => [.endObject]
  | (k, a) :: l => .comma :: .string k :: .colon :: (a.tokens ++ memberTokens l)
end

theorem elementTokens_delimits (l : List (Json N S)) (ts : List (Token N S)) :
    ∃ u us, elementTokens l ++ ts = u :: us ∧ u.delimits := by
  cases l with
  | nil => exact ⟨.endArray, ts, rfl, trivial⟩
  | cons a l => exact ⟨.comma, _, rfl, trivial⟩

theorem memberTokens_delimits (l : List (S × Json N S)) (ts : List (Token N S)) :
    ∃ u us, memberTokens l ++ ts = u :: us ∧ u.delimits := by
  cases l with
  | nil => exact ⟨.endObject, ts, rfl, trivial⟩
  | cons p l => exact ⟨.comma, _, rfl, trivial⟩

theorem framed_cons {t : Token N S} {d : ℕ} {ts : List (Token N S)} (hd : 0 < d)
    (hn : t.number? = none) (ht : t.depth d = d) (h : Framed d ts) : Framed d (t :: ts) := by
  refine ⟨hd, fun hs => ?_, ht.symm ▸ h⟩
  rw [hn] at hs
  cases hs

mutual
theorem Json.framed (a : Json N S) {d : ℕ} {ts : List (Token N S)} (hd : 0 < d)
    (hts : ∃ u us, ts = u :: us ∧ u.delimits) (h : Framed d ts) : Framed d (a.tokens ++ ts) := by
  match a with
  | .null => exact framed_cons hd rfl rfl h
  | .false => exact framed_cons hd rfl rfl h
  | .true => exact framed_cons hd rfl rfl h
  | .number n => exact ⟨hd, fun _ => hts, h⟩
  | .string s => exact framed_cons hd rfl rfl h
  | .array [] => exact ⟨hd, nofun, Nat.succ_pos d, nofun, h⟩
  | .array (a :: l) =>
    simp only [Json.tokens, List.cons_append, List.append_assoc]
    exact ⟨hd, nofun, a.framed (Nat.succ_pos d) (elementTokens_delimits l ts) (elementTokens_framed l h)⟩
  | .object [] => exact ⟨hd, nofun, Nat.succ_pos d, nofun, h⟩
  | .object ((k, a) :: l) =>
    simp only [Json.tokens, List.cons_append, List.append_assoc]
    exact ⟨hd, nofun, framed_cons (Nat.succ_pos d) rfl rfl (framed_cons (Nat.succ_pos d) rfl rfl
      (a.framed (Nat.succ_pos d) (memberTokens_delimits l ts) (memberTokens_framed l h)))⟩

theorem elementTokens_framed (l : List (Json N S)) {d : ℕ} {ts : List (Token N S)}
    (h : Framed d ts) : Framed (d + 1) (elementTokens l ++ ts) := by
  match l with
  | [] => exact ⟨Nat.succ_pos d, nofun, h⟩
  | a :: l =>
    simp only [elementTokens, List.cons_append, List.append_assoc]
    exact framed_cons (Nat.succ_pos d) rfl rfl
      (a.framed (Nat.succ_pos d) (elementTokens_delimits l ts) (elementTokens_framed l h))

theorem memberTokens_framed (l : List (S × Json N S)) {d : ℕ} {ts : List (Token N S)}
    (h : Framed d ts) : Framed (d + 1) (memberTokens l ++ ts) := by
  match l with
  | [] => exact ⟨Nat.succ_pos d, nofun, h⟩
  | (k, a) :: l =>
    simp only [memberTokens, List.cons_append, List.append_assoc]
    exact framed_cons (Nat.succ_pos d) rfl rfl (framed_cons (Nat.succ_pos d) rfl rfl
      (framed_cons (Nat.succ_pos d) rfl rfl
        (a.framed (Nat.succ_pos d) (memberTokens_delimits l ts) (memberTokens_framed l h))))
end

theorem Json.tokens_eq_cons (a : Json N S) :
    ∃ ts, a.tokens = a.head :: ts ∧ Framed (a.head.depth 0) ts := by
  match a with
  | .null => exact ⟨[], rfl, rfl⟩
  | .false => exact ⟨[], rfl, rfl⟩
  | .true => exact ⟨[], rfl, rfl⟩
  | .number n => exact ⟨[], rfl, rfl⟩
  | .string s => exact ⟨[], rfl, rfl⟩
  | .array [] => exact ⟨_, rfl, Nat.one_pos, nofun, rfl⟩
  | .array (a :: l) =>
    refine ⟨_, rfl, a.framed Nat.one_pos (by simpa using elementTokens_delimits l []) ?_⟩
    have h := elementTokens_framed l (show Framed 0 [] from rfl)
    rwa [List.append_nil] at h
  | .object [] => exact ⟨_, rfl, Nat.one_pos, nofun, rfl⟩
  | .object ((k, a) :: l) =>
    refine ⟨_, rfl, framed_cons Nat.one_pos rfl rfl (framed_cons Nat.one_pos rfl rfl
      (a.framed Nat.one_pos (by simpa using memberTokens_delimits l []) ?_))⟩
    have h := memberTokens_framed l (show Framed 0 [] from rfl)
    rwa [List.append_nil] at h

variable {S' : Type*} (g : S → S')

mutual
def Json.mapStrings : Json N S → Json N S'
  | .null => .null
  | .false => .false
  | .true => .true
  | .number n => .number n
  | .string s => .string (g s)
  | .array l => .array (mapElements l)
  | .object l => .object (mapMembers l)

def mapElements : List (Json N S) → List (Json N S')
  | [] => []
  | a :: l => a.mapStrings :: mapElements l

def mapMembers : List (S × Json N S) → List (S' × Json N S')
  | [] => []
  | (k, a) :: l => (g k, a.mapStrings) :: mapMembers l
end

theorem Json.head_mapStrings (a : Json N S) : (a.mapStrings g).head.kind = a.head.kind := by
  cases a <;> rfl

end Tokens

section Order
variable {N S : Type*} (rank : Kind → ℤ) (cn : N → N → Ordering) (cs : S → S → Ordering)

mutual
/-- First by kind, then by content; containers element by element. -/
def Json.collate : Json N S → Json N S → Ordering
  | .number m, .number n => cn m n
  | .string s, .string t => cs s t
  | .array l, .array l' => collateElements l l'
  | .object l, .object l' => collateMembers l l'
  | a, b => compare (rank a.head.kind) (rank b.head.kind)

def collateElements : List (Json N S) → List (Json N S) → Ordering
  | [], [] => .eq
  | [], _ :: _ => .lt
  | _ :: _, [] => .gt
  | a :: l, b :: l' => (a.collate b).then (collateElements l l')

def collateMembers : List (S × Json N S) → List (S × Json N S) → Ordering
  | [], [] => .eq
  | [], _ :: _ => .lt
  | _ :: _, [] => .gt
  | (k, a) :: l, (k', b) :: l' => (cs k k').then ((a.collate b).then (collateMembers l l'))
end

/-- `none` below every `some`. -/
def optionCmp {α : Type*} (c : α → α → Ordering) : Option α → Option α → Ordering
  | none, none => .eq
  | none, some _ => .lt
  | some _, none => .gt
  | some a, some b => c a b

instance {α : Type*} (c : α → α → Ordering) [TransCmp c] : TransCmp (optionCmp c) where
  eq_swap {a b} := by
    match a, b with
    | none, none => rfl
    | none, some _ => rfl
    | some _, none => rfl
    | some x, some y => exact (OrientedCmp.eq_swap : c x y = _)
  isLE_trans {a b d} h₁ h₂ := by
    match a, b, d with
    | none, _, none => rfl
    | none, _, some _ => rfl
    | some _, none, _ => cases h₁
    | some _, some _, none => cases h₂
    | some x, some y, some z => exact (TransCmp.isLE_trans h₁ h₂ : (c x z).isLE)

theorem transCmp_comap {α β : Type*} (c : β → β → Ordering) [TransCmp c] (f : α → β) :
    TransCmp fun a b => c (f a) (f b) where
  eq_swap {a b} := (OrientedCmp.eq_swap : c (f a) (f b) = _)
  isLE_trans {a _ d} h1 h2 := (TransCmp.isLE_trans h1 h2 : (c (f a) (f d)).isLE)

/-- One step of the comparison of two token sequences. -/
def tokenCmp : Token N S → Token N S → Ordering :=
  compareLex (fun t u => compare (rank t.kind) (rank u.kind))
    (compareLex (fun t u => optionCmp cn t.number? u.number?)
      fun t u => optionCmp cs t.string? u.string?)

instance [TransCmp cn] [TransCmp cs] : TransCmp (tokenCmp rank cn cs) :=
  haveI := transCmp_comap (compare : ℤ → ℤ → Ordering) fun t : Token N S => rank t.kind
  haveI := transCmp_comap (optionCmp cn) (Token.number? : Token N S → Option N)
  haveI := transCmp_comap (optionCmp cs) (Token.string? : Token N S → Option S)
  inferInstanceAs (TransCmp (compareLex _ (compareLex _ _)))

/-- Different kinds have different ranks, and the closing brackets are below all others. -/
structure Ranked (rank : Kind → ℤ) : Prop where
  injective : Function.Injective rank
  endArray_lt : ∀ k : Kind, k ≠ .endArray → rank .endArray < rank k
  endObject_lt : ∀ k : Kind, k ≠ .endArray → k ≠ .endObject → rank .endObject < rank k

variable {rank cn cs} {t : Token N S} {u : Token N S}

theorem tokenCmp_of_lt (h : rank t.kind < rank u.kind) : tokenCmp rank cn cs t u = .lt := by
  simp [tokenCmp, compareLex, compare_lt_iff_lt.mpr h]

theorem tokenCmp_of_gt (h : rank u.kind < rank t.kind) : tokenCmp rank cn cs t u = .gt := by
  simp [tokenCmp, compareLex, compare_gt_iff_gt.mpr h]

theorem tokenCmp_of_ne (hr : Ranked rank) (h : t.kind ≠ u.kind) :
    tokenCmp rank cn cs t u = compare (rank t.kind) (rank u.kind) := by
  rcases lt_or_gt_of_ne (hr.injective.ne h) with hlt | hgt
  · rw [tokenCmp_of_lt hlt, compare_lt_iff_lt.mpr hlt]
  · rw [tokenCmp_of_gt hgt, compare_gt_iff_gt.mpr hgt]

theorem kind_eq_of_tokenCmp (hr : Ranked rank) (h : tokenCmp rank cn cs t u = .eq) :
    t.kind = u.kind := by
  by_contra hk
  rw [tokenCmp_of_ne hr hk] at h
  exact hk (hr.injective (LawfulEqOrd.eq_of_compare h))

theorem tokenCmp_self (hn : t.number? = none) (hs : t.string? = none) :
    tokenCmp rank cn cs t t = .eq := by
  simp [tokenCmp, compareLex, hn, hs, optionCmp]

theorem tokenCmp_number (m n : N) : tokenCmp rank cn cs (.number m) (.number n) = cn m n := by
  simp [tokenCmp, compareLex, Token.kind, Token.map, Token.number?, Token.string?, optionCmp]

theorem tokenCmp_string (s t : S) : tokenCmp rank cn cs (.string s) (.string t) = cs s t := by
  simp [tokenCmp, compareLex, Token.kind, Token.map, Token.number?, Token.string?, optionCmp]

theorem compareLex_cons_self (hn : t.number? = none) (hs : t.string? = none)
    (ts us : List (Token N S)) :
    (t :: ts).compareLex (tokenCmp rank cn cs) (t :: us) = ts.compareLex (tokenCmp rank cn cs) us := by
  rw [List.compareLex_cons_cons, tokenCmp_self hn hs]
  rfl

theorem compareLex_cons_of_lt (h : rank t.kind < rank u.kind)
    (ts us : List (Token N S)) : (t :: ts).compareLex (tokenCmp rank cn cs) (u :: us) = .lt := by
  rw [List.compareLex_cons_cons, tokenCmp_of_lt h]
  rfl

theorem compareLex_cons_of_gt (h : rank u.kind < rank t.kind)
    (ts us : List (Token N S)) : (t :: ts).compareLex (tokenCmp rank cn cs) (u :: us) = .gt := by
  rw [List.compareLex_cons_cons, tokenCmp_of_gt h]
  rfl

theorem Json.kind_head (a : Json N S) : a.head.kind ≠ .endArray ∧ a.head.kind ≠ .endObject := by
  cases a <;> exact ⟨nofun, nofun⟩

theorem Json.collate_of_ne {a b : Json N S} (h : a.head.kind ≠ b.head.kind) :
    a.collate rank cn cs b = compare (rank a.head.kind) (rank b.head.kind) := by
  cases a <;> cases b <;> first | rfl | exact absurd rfl h

mutual
theorem Json.compareLex_tokens (hr : Ranked rank) (a b : Json N S) (ts us : List (Token N S)) :
    (a.tokens ++ ts).compareLex (tokenCmp rank cn cs) (b.tokens ++ us) =
      (a.collate rank cn cs b).then (ts.compareLex (tokenCmp rank cn cs) us) := by
  by_cases hk : a.head.kind = b.head.kind
  · match a, b with
    | .null, .null | .false, .false | .true, .true =>
      simp only [Json.tokens, Json.collate, compare_self, eq_then, List.singleton_append]
      exact compareLex_cons_self rfl rfl ts us
    | .number m, .number n =>
      simp only [Json.tokens, Json.collate, List.singleton_append, List.compareLex_cons_cons,
        tokenCmp_number]
    | .string s, .string t =>
      simp only [Json.tokens, Json.collate, List.singleton_append, List.compareLex_cons_cons,
        tokenCmp_string]
    | .array [], .array [] =>
      exact (compareLex_cons_self rfl rfl _ _).trans (compareLex_cons_self rfl rfl ts us)
    | .array [], .array (b :: l') =>
      obtain ⟨us', hb, -⟩ := b.tokens_eq_cons
      simp only [Json.tokens, Json.collate, collateElements, hb, List.cons_append, List.append_assoc]
      rw [compareLex_cons_self rfl rfl, compareLex_cons_of_lt (hr.endArray_lt _ b.kind_head.1)]
      rfl
    | .array (a :: l), .array [] =>
      obtain ⟨ts', ha, -⟩ := a.tokens_eq_cons
      simp only [Json.tokens, Json.collate, collateElements, ha, List.cons_append, List.append_assoc]
      rw [compareLex_cons_self rfl rfl, compareLex_cons_of_gt (hr.endArray_lt _ a.kind_head.1)]
      rfl
    | .array (a :: l), .array (b :: l') =>
      simp only [Json.tokens, Json.collate, collateElements, List.cons_append, List.append_assoc]
      rw [compareLex_cons_self rfl rfl, a.compareLex_tokens hr b, compareLex_elementTokens hr l l',
        then_assoc]
    | .object [], .object [] =>
      exact (compareLex_cons_self rfl rfl _ _).trans (compareLex_cons_self rfl rfl ts us)
    | .object [], .object (p :: l') =>
      exact (compareLex_cons_self rfl rfl _ _).trans
        (compareLex_cons_of_lt (hr.endObject_lt (.string ()) nofun nofun) _ _)
    | .object (p :: l), .object [] =>
      exact (compareLex_cons_self rfl rfl _ _).trans
        (compareLex_cons_of_gt (hr.endObject_lt (.string ()) nofun nofun) _ _)
    | .object ((k, a) :: l), .object ((k', b) :: l') =>
      simp only [Json.tokens, Json.collate, collateMembers, List.cons_append, List.append_assoc]
      rw [compareLex_cons_self rfl rfl, List.compareLex_cons_cons, tokenCmp_string,
        compareLex_cons_self rfl rfl, a.compareLex_tokens hr b, compareLex_memberTokens hr l l',
        then_assoc, then_assoc]
  · obtain ⟨ts', ha, -⟩ := a.tokens_eq_cons
    obtain ⟨us', hb, -⟩ := b.tokens_eq_cons
    rw [ha, hb, List.cons_append, List.cons_append, List.compareLex_cons_cons, tokenCmp_of_ne hr hk,
      Json.collate_of_ne hk]
    cases hc : compare (rank a.head.kind) (rank b.head.kind) with
    | lt => rfl
    | eq => exact absurd (hr.injective (LawfulEqOrd.eq_of_compare hc)) hk
    | gt => rfl

theorem compareLex_elementTokens (hr : Ranked rank) (l l' : List (Json N S))
    (ts us : List (Token N S)) :
    (elementTokens l ++ ts).compareLex (tokenCmp rank cn cs) (elementTokens l' ++ us) =
      (collateElements rank cn cs l l').then (ts.compareLex (tokenCmp rank cn cs) us) := by
  match l, l' with
  | [], [] => exact compareLex_cons_self rfl rfl ts us
  | [], b :: l' => exact compareLex_cons_of_lt (hr.endArray_lt .comma nofun) _ _
  | a :: l, [] => exact compareLex_cons_of_gt (hr.endArray_lt .comma nofun) _ _
  | a :: l, b :: l' =>
    simp only [elementTokens, collateElements, List.cons_append, List.append_assoc]
    rw [compareLex_cons_self rfl rfl, a.compareLex_tokens hr b, compareLex_elementTokens hr l l',
      then_assoc]

theorem compareLex_memberTokens (hr : Ranked rank) (l l' : List (S × Json N S))
    (ts us : List (Token N S)) :
    (memberTokens l ++ ts).compareLex (tokenCmp rank cn cs) (memberTokens l' ++ us) =
      (collateMembers rank cn cs l l').then (ts.compareLex (tokenCmp rank cn cs) us) := by
  match l, l' with
  | [], [] => exact compareLex_cons_self rfl rfl ts us
  | [], p :: l' => exact compareLex_cons_of_lt (hr.endObject_lt .comma nofun nofun) _ _
  | p :: l, [] => exact compareLex_cons_of_gt (hr.endObject_lt .comma nofun nofun) _ _
  | (k, a) :: l, (k', b) :: l' =>
    simp only [memberTokens, collateMembers, List.cons_append, List.append_assoc]
    rw [compareLex_cons_self rfl rfl, List.compareLex_cons_cons, tokenCmp_string,
      compareLex_cons_self rfl rfl, a.compareLex_tokens hr b, compareLex_memberTokens hr l l',
      then_assoc, then_assoc]
end

/-- The collation order is the lexicographic order of the tokens. -/
theorem Json.collate_eq_compareLex (hr : Ranked rank) (a b : Json N S) :
    a.collate rank cn cs b = a.tokens.compareLex (tokenCmp rank cn cs) b.tokens := by
  have h : (a.tokens ++ []).compareLex (tokenCmp rank cn cs) (b.tokens ++ []) = _ :=
    a.compareLex_tokens hr b [] []
  rw [List.append_nil, List.append_nil, List.compareLex_nil_nil, then_eq] at h
  exact h.symm

theorem transCmp_collate (hr : Ranked rank) [TransCmp cn] [TransCmp cs] :
    TransCmp (Json.collate rank cn cs) := by
  have h := transCmp_comap (List.compareLex (tokenCmp rank cn cs)) (Json.tokens : Json N S → _)
  have heq : Json.collate rank cn cs = fun a b =>
      a.tokens.compareLex (tokenCmp rank cn cs) b.tokens :=
    funext₂ fun a b => a.collate_eq_compareLex hr b
  rwa [heq]

section MapStrings
variable {S' : Type*} {cs' : S' → S' → Ordering} (g : S → S')

mutual
theorem Json.collate_mapStrings (a b : Json N S) :
    (a.mapStrings g).collate rank cn cs' (b.mapStrings g) =
      a.collate rank cn (fun s t => cs' (g s) (g t)) b := by
  by_cases hk : a.head.kind = b.head.kind
  · match a, b with
    | .null, .null | .false, .false | .true, .true | .number _, .number _ | .string _, .string _ => rfl
    | .array l, .array l' => exact collateElements_mapElements l l'
    | .object l, .object l' => exact collateMembers_mapMembers l l'
  · rw [Json.collate_of_ne hk, Json.collate_of_ne, Json.head_mapStrings, Json.head_mapStrings]
    rwa [Json.head_mapStrings, Json.head_mapStrings]

theorem collateElements_mapElements (l l' : List (Json N S)) :
    collateElements rank cn cs' (mapElements g l) (mapElements g l') =
      collateElements rank cn (fun s t => cs' (g s) (g t)) l l' := by
  match l, l' with
  | [], [] | [], _ :: _ | _ :: _, [] => rfl
  | a :: l, b :: l' =>
    simp only [mapElements, collateElements]
    rw [a.collate_mapStrings b, collateElements_mapElements l l']

theorem collateMembers_mapMembers (l l' : List (S × Json N S)) :
    collateMembers rank cn cs' (mapMembers g l) (mapMembers g l') =
      collateMembers rank cn (fun s t => cs' (g s) (g t)) l l' := by
  match l, l' with
  | [], [] | [], _ :: _ | _ :: _, [] => rfl
  | (k, a) :: l, (k', b) :: l' =>
    simp only [mapMembers, collateMembers]
    rw [a.collate_mapStrings b, collateMembers_mapMembers l l']
end

variable {g' : S → S}

mutual
theorem Json.mapStrings_eq_self (a : Json N S) (h : ∀ s, Token.string s ∈ a.tokens → g' s = s) :
    a.mapStrings g' = a := by
  match a with
  | .null | .false | .true | .number _ => rfl
  | .string s => exact congrArg Json.string (h s (by simp [Json.tokens]))
  | .array [] | .object [] => rfl
  | .array (a :: l) =>
    simp only [Json.tokens, mem_cons, mem_append] at h
    simp only [Json.mapStrings, mapElements]
    rw [a.mapStrings_eq_self fun s hs => h s (.inr (.inl hs)),
      mapElements_eq_self l fun s hs => h s (.inr (.inr hs))]
  | .object ((k, a) :: l) =>
    simp only [Json.tokens, mem_cons, mem_append] at h
    simp only [Json.mapStrings, mapMembers]
    rw [h k (.inr (.inl rfl)), a.mapStrings_eq_self fun s hs => h s (.inr (.inr (.inr (.inl hs)))),
      mapMembers_eq_self l fun s hs => h s (.inr (.inr (.inr (.inr hs))))]

theorem mapElements_eq_self (l : List (Json N S))
    (h : ∀ s, Token.string s ∈ elementTokens l → g' s = s) : mapElements g' l = l := by
  match l with
  | [] => rfl
  | a :: l =>
    simp only [elementTokens, mem_cons, mem_append] at h
    rw [mapElements, a.mapStrings_eq_self fun s hs => h s (.inr (.inl hs)),
      mapElements_eq_self l fun s hs => h s (.inr (.inr hs))]

theorem mapMembers_eq_self (l : List (S × Json N S))
    (h : ∀ s, Token.string s ∈ memberTokens l → g' s = s) : mapMembers g' l = l := by
  match l with
  | [] => rfl
  | (k, a) :: l =>
    simp only [memberTokens, mem_cons, mem_append] at h
    rw [mapMembers, h k (.inr (.inl rfl)),
      a.mapStrings_eq_self fun s hs => h s (.inr (.inr (.inr (.inl hs)))),
      mapMembers_eq_self l fun s hs => h s (.inr (.inr (.inr (.inr hs))))]
end

end MapStrings

end Order

end Appstack.Lib.JsonOrder
