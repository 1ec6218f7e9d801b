import Appstack.Couchstore.BtreeTree

-- `btree_read.c`. The keys are the part `keys[current] .. keys[end - 1]` of the request's array.

namespace Appstack.Couchstore
open Std List

variable {σ : Type*}

/-- The callback works on the file that is read and on memory of its own. The callback for
nodes gets the size and the reduce value of a subtree, and nothing behind its end. -/
structure LookupRequest (σ : Type*) where
  cmp : Bytes → Bytes → Ordering
  plat : Platform
  fetchCallback : Bytes → Option Bytes → Env σ → Errcode × Env σ
  nodeCallback : Option (ℕ → Option Bytes → Env σ → Errcode × Env σ)

structure Flags where
  fold : Bool
  inFold : Bool

structure Lookup (σ : Type*) extends Flags where
  env : Env σ

def LookupRequest.callNode (rq : LookupRequest σ) (subtreesize : ℕ) (reduceValue : Option Bytes)
    (st : Lookup σ) : Errcode × Lookup σ :=
  match rq.nodeCallback with
  | none => (.success, st)
  | some cb =>
    let (errcode, env) := cb subtreesize reduceValue st.env
    (errcode, { st with env := env })

def kpLookup (rq : LookupRequest σ)
    (descend : ℕ → List Bytes → Lookup σ → Errcode × Lookup σ) :
    List (Bytes × Bytes) → List Bytes → Lookup σ → Errcode × List Bytes × Lookup σ
  | [], keys, st => (.success, keys, st)
  | _ :: _, [], st => (.success, [], st)
  | (k, v) :: items, key :: keys, st =>
    if rq.cmp k key = .lt then kpLookup rq descend items (key :: keys) st
    else
      let st := { st with inFold := st.inFold || st.fold }
      let upTo := fun x => rq.cmp k x != .lt
      let ptr := readPointer k v
      let (errcode, st) := rq.callNode ptr.subtreesize (some ptr.reduceValue) st
      if errcode ≠ .success then (errcode, key :: keys, st)
      else
        let (errcode, st) := descend ptr.pointer (key :: keys.takeWhile upTo) st
        if errcode ≠ .success then (errcode, key :: keys, st)
        else
          let rest := if st.inFold then key :: keys else keys.dropWhile upTo
          let (errcode, st) := rq.callNode 0 none st
          if errcode ≠ .success then (errcode, rest, st)
          else kpLookup rq descend items rest st

/-- Where a fold begins and ends: what an item with the key `k` makes of the flags and of the
keys that are left. -/
def atItem (cmp : Bytes → Bytes → Ordering) (k key : Bytes) (keys : List Bytes) (fl : Flags) :
    List Bytes × Flags :=
  if cmp k key ≠ .lt ∧ fl.fold ∧ ¬ fl.inFold then (key :: keys, { fl with inFold := true })
  else if fl.inFold ∧ keys.head?.map (cmp k) = some .gt then ([], ⟨false, false⟩)
  else (key :: keys, fl)

/-- The items of a leaf. Behind the end of its range a fold is over, but an item that is
itself the first key is still found. -/
def kvLookup (rq : LookupRequest σ) :
    List (Bytes × Bytes) → List Bytes → Lookup σ → Errcode × List Bytes × Lookup σ
  | [], keys, st => (.success, keys, st)
  | _ :: _, [], st => (.success, [], st)
  | (k, v) :: items, key :: keys, st =>
    let cmpVal := rq.cmp k key
    let (left, fl) := atItem rq.cmp k key keys st.toFlags
    if cmpVal = .eq ∨ cmpVal = .gt ∧ fl.inFold then
      let (errcode, env) := rq.fetchCallback k (some v) st.env
      if errcode ≠ .success then (errcode, left, ⟨fl, env⟩)
      else kvLookup rq items (if fl.inFold then left else left.tail) ⟨fl, env⟩
    else kvLookup rq items left ⟨fl, st.env⟩

def lookupRest (rq : LookupRequest σ) : List Bytes → Lookup σ → Errcode × Lookup σ
  | [], st => (.success, st)
  | key :: keys, st =>
    if st.fold then (.success, st)
    else
      let (errcode, env) := rq.fetchCallback key none st.env
      let st := { st with env := env }
      if errcode ≠ .success then (errcode, st) else lookupRest rq keys st

/-- `btree_lookup_inner`, with a bound on the depth of its recursion. A node of neither type
has no items. -/
def btreeLookupInner (rq : LookupRequest σ) :
    ℕ → ℕ → List Bytes → Lookup σ → Errcode × Lookup σ
  | 0, _, _, st => (.depth, st)
  | fuel + 1, diskpos, keys, st =>
    if keys = [] then (.success, st)
    else
      match preadCompressed rq.plat diskpos st.env.file with
      | (.error e, file) => (e, { st with env := { st.env with file := file, failed := true } })
      | (.ok nodebuf, file) =>
        let st := { st with env := { st.env with file := file } }
        let items := readItems nodebuf.tail
        let (errcode, keys, st) :=
          if nodebuf.head? = some 0 then kpLookup rq (btreeLookupInner rq fuel) items keys st
          else if nodebuf.head? = some 1 then kvLookup rq items keys st
          else (.success, keys, st)
        if errcode ≠ .success then (errcode, st) else lookupRest rq keys st

def btreeLookup (rq : LookupRequest σ) (fuel rootPointer : ℕ) (keys : List Bytes) (fold : Bool)
    (env : Env σ) : Errcode × Env σ :=
  let (errcode, st) := btreeLookupInner rq fuel rootPointer keys ⟨⟨fold, false⟩, env⟩
  (errcode, st.env)

abbrev Call := Bytes × Option Bytes

section Calls
variable (cmp : Bytes → Bytes → Ordering)

def kvCalls : Bindings → List Bytes → Flags → List Call × List Bytes × Flags
  | [], keys, fl => ([], keys, fl)
  | _ :: _, [], fl => ([], [], fl)
  | (k, v) :: its, key :: keys, fl =>
    let (left, fl) := atItem cmp k key keys fl
    if cmp k key = .eq ∨ cmp k key = .gt ∧ fl.inFold then
      let (calls, rest) := kvCalls its (if fl.inFold then left else left.tail) fl
      ((k, some v) :: calls, rest)
    else kvCalls its left fl

def kpCalls {h : ℕ} (descend : List (Node h) → List Bytes → Flags → List Call × Flags) :
    List (Node (h + 1)) → List Bytes → Flags → List Call × List Bytes × Flags
  | [], keys, fl => ([], keys, fl)
  | _ :: _, [], fl => ([], [], fl)
  | t :: ts, key :: keys, fl =>
    if cmp t.key key = .lt then kpCalls descend ts (key :: keys) fl
    else
      let upTo := fun x => cmp t.key x != .lt
      let (calls, fl) := descend t.items (key :: keys.takeWhile upTo)
        { fl with inFold := fl.inFold || fl.fold }
      let (calls', rest) :=
        kpCalls descend ts (if fl.inFold then key :: keys else keys.dropWhile upTo) fl
      (calls ++ calls', rest)

def restCalls (keys : List Bytes) (fl : Flags) : List Call :=
  if fl.fold then [] else keys.map fun key => (key, none)

def nodeCalls : {h : ℕ} → List (Node h) → List Bytes → Flags → List Call × Flags
  | 0, ts, keys, fl =>
    let (calls, rest, fl) := kvCalls cmp ts keys fl
    (calls ++ restCalls rest fl, fl)
  | _ + 1, ts, keys, fl =>
    let (calls, rest, fl) := kpCalls cmp nodeCalls ts keys fl
    (calls ++ restCalls rest fl, fl)

def Tree.calls : Tree → List Bytes → Flags → List Call
  | .empty, _, _ => []
  | .root _ ts, keys, fl => (nodeCalls cmp ts keys fl).1

end Calls

/-- What the calls found, without the keys that were reported missing. -/
def found (calls : List Call) : Bindings := calls.filterMap fun c => c.2.map fun v => (c.1, v)

section Calls
variable {cmp : Bytes → Bytes → Ordering} {fl : Flags}

@[simp] theorem found_append (cs cs' : List Call) : found (cs ++ cs') = found cs ++ found cs' :=
  filterMap_append

@[simp] theorem found_restCalls (keys : List Bytes) : found (restCalls keys fl) = [] := by
  rw [restCalls]
  split_ifs <;> simp [found]

theorem kvCalls_sublist (its : Bindings) (keys : List Bytes) (fl : Flags) :
    (found (kvCalls cmp its keys fl).1).Sublist its := by
  induction its generalizing keys fl with
  | nil => exact .slnil
  | cons e its ih =>
    obtain ⟨k, v⟩ := e
    cases keys with
    | nil => exact nil_sublist _
    | cons key keys =>
      rcases hat : atItem cmp k key keys fl with ⟨left, fl'⟩
      simp only [kvCalls, hat]
      by_cases hfound : cmp k key = .eq ∨ cmp k key = .gt ∧ fl'.inFold = true
      · rw [if_pos hfound]
        exact (ih ..).cons_cons (k, v)
      · rw [if_neg hfound]
        exact (ih ..).cons (k, v)

theorem kpCalls_sublist {h : ℕ} {descend : List (Node h) → List Bytes → Flags → List Call × Flags}
    (hd : ∀ ts keys fl, (found (descend ts keys fl).1).Sublist (ts.flatMap Node.contents))
    (ts : List (Node (h + 1))) (keys : List Bytes) (fl : Flags) :
    (found (kpCalls cmp descend ts keys fl).1).Sublist (ts.flatMap Node.contents) := by
  induction ts generalizing keys fl with
  | nil => exact .slnil
  | cons t ts ih =>
    rw [flatMap_cons]
    cases keys with
    | nil => exact nil_sublist _
    | cons key keys =>
      rw [kpCalls]
      split_ifs
      · exact (ih ..).trans (sublist_append_right ..)
      · simp only [found_append]
        exact (hd t.items _ _).append (ih ..)

theorem nodeCalls_sublist {h : ℕ} (ts : List (Node h)) (keys : List Bytes) (fl : Flags) :
    (found (nodeCalls cmp ts keys fl).1).Sublist (ts.flatMap Node.contents) := by
  induction h generalizing keys fl with
  | zero =>
    have hts : ts.flatMap Node.contents = ts := flatMap_singleton' ts
    simp only [nodeCalls, found_append, found_restCalls, append_nil, hts]
    exact kvCalls_sublist ts keys fl
  | succ h ih =>
    simp only [nodeCalls, found_append, found_restCalls, append_nil]
    exact kpCalls_sublist ih ts keys fl

theorem Tree.found_sublist (t : Tree) (keys : List Bytes) (fl : Flags) :
    (found (t.calls cmp keys fl)).Sublist t.contents := by
  cases t with
  | empty => exact .slnil
  | root h ts => exact nodeCalls_sublist ts keys fl

end Calls

section Lookup
variable {rq : LookupRequest σ} {file₀ : TreeFile} {C : Call → Prop}
  {P : List Call → Env σ → Prop} {Q : Env σ → Prop} {cs : List Call}

/-- `P` holds of the calls so far and of the memory while a tree in `file₀` is looked up, and
`Q` after a read or a callback that has failed. All calls are such that `C` holds. -/
structure LookupInvariant (rq : LookupRequest σ) (file₀ : TreeFile) (C : Call → Prop)
    (P : List Call → Env σ → Prop) (Q : Env σ → Prop) : Prop where
  node : rq.nodeCallback = none
  grows : ∀ {cs env}, P cs env → file₀.Grows env.file
  read : ∀ {cs env pos nodebuf file}, P cs env →
    preadCompressed rq.plat pos env.file = (.ok nodebuf, file) → P cs { env with file := file }
  read_fails : ∀ {cs env pos buf e file}, P cs env → Stored rq.plat env.file pos buf →
    preadCompressed rq.plat pos env.file = (.error e, file) →
    Q { env with file := file, failed := true }
  fetch : ∀ {cs env k v env'}, P cs env → C (k, v) →
    rq.fetchCallback k v env = (.success, env') → P (cs ++ [(k, v)]) env'
  fetch_fails : ∀ {cs env k v e env'}, P cs env → C (k, v) →
    rq.fetchCallback k v env = (e, env') → e ≠ .success → Q env'

/-- The outcome `r` of a part of a lookup that should make the calls `calls`. -/
def Outcome (P : List Call → Env σ → Prop) (bad : Env σ → Prop) (cs calls : List Call) (fl : Flags)
    (e : Errcode) (st : Lookup σ) : Prop :=
  e = .success ∧ st.toFlags = fl ∧ P (cs ++ calls) st.env ∨ e ≠ .success ∧ bad st.env

variable {e : Errcode} {st : Lookup σ} {keys : List Bytes}

theorem Outcome.append {bad : Env σ → Prop} {calls calls' : List Call} {fl : Flags}
    (h : Outcome P bad (cs ++ calls) calls' fl e st) :
    Outcome P bad cs (calls ++ calls') fl e st := by
  rwa [Outcome, append_assoc] at h

theorem Outcome.imp {bad bad' : Env σ → Prop} {calls : List Call} {fl : Flags}
    (h : Outcome P bad cs calls fl e st) (hb : ∀ env, bad env → bad' env) :
    Outcome P bad' cs calls fl e st :=
  h.imp_right fun ⟨he, h⟩ => ⟨he, hb _ h⟩

theorem kvLookup_outcome (hP : LookupInvariant rq file₀ C P Q) {its : Bindings} {keys' : List Bytes}
    {st' : Lookup σ} (hst : P cs st.env)
    (hc : ∀ c ∈ (kvCalls rq.cmp its keys st.toFlags).1, C c)
    (h : kvLookup rq its keys st = (e, keys', st')) :
    Outcome P Q cs (kvCalls rq.cmp its keys st.toFlags).1
        (kvCalls rq.cmp its keys st.toFlags).2.2 e st' ∧
      (e = .success → keys' = (kvCalls rq.cmp its keys st.toFlags).2.1) := by
  induction its generalizing cs keys st with
  | nil =>
    cases h
    exact ⟨.inl ⟨rfl, rfl, by simpa [kvCalls] using hst⟩, fun _ => rfl⟩
  | cons i its ih =>
    obtain ⟨k, v⟩ := i
    cases keys with
    | nil =>
      cases h
      exact ⟨.inl ⟨rfl, rfl, by simpa [kvCalls] using hst⟩, fun _ => rfl⟩
    | cons key keys =>
      rcases hat : atItem rq.cmp k key keys st.toFlags with ⟨left, fl⟩
      rcases hcb : rq.fetchCallback k (some v) st.env with ⟨e1, env1⟩
      simp only [kvLookup, hat, hcb] at h
      simp only [kvCalls, hat] at hc ⊢
      by_cases hfound : rq.cmp k key = .eq ∨ rq.cmp k key = .gt ∧ fl.inFold = true
      · rw [if_pos hfound] at h hc ⊢
        obtain ⟨hck, hc'⟩ := forall_mem_cons.mp hc
        by_cases he1 : e1 = .success
        · subst he1
          rw [if_neg (not_not.mpr rfl)] at h
          obtain ⟨hout, hkeys⟩ := ih (hP.fetch hst hck hcb) hc' h
          exact ⟨hout.append, hkeys⟩
        · rw [if_pos he1] at h
          cases h
          exact ⟨.inr ⟨he1, hP.fetch_fails hst hck hcb he1⟩, fun he => absurd he he1⟩
      · rw [if_neg hfound] at h hc ⊢
        exact ih (show P cs (⟨fl, st.env⟩ : Lookup σ).env from hst) hc h

theorem lookupRest_outcome (hP : LookupInvariant rq file₀ C P Q)
    {st' : Lookup σ} (hst : P cs st.env)
    (hc : ∀ c ∈ restCalls keys st.toFlags, C c) (h : lookupRest rq keys st = (e, st')) :
    Outcome P Q cs (restCalls keys st.toFlags) st.toFlags e st' := by
  induction keys generalizing cs st with
  | nil =>
    cases h
    exact .inl ⟨rfl, rfl, by simpa [restCalls] using hst⟩
  | cons key keys ih =>
    rw [lookupRest] at h
    by_cases hfold : st.fold = true
    · rw [if_pos hfold] at h
      cases h
      exact .inl ⟨rfl, rfl, by simpa [restCalls, hfold] using hst⟩
    · rw [if_neg hfold] at h
      rcases hcb : rq.fetchCallback key none st.env with ⟨e1, env1⟩
      rw [hcb] at h
      dsimp only at h
      have hcalls : restCalls (key :: keys) st.toFlags = [(key, none)] ++ restCalls keys st.toFlags := by
        simp [restCalls, hfold]
      rw [hcalls] at hc ⊢
      obtain ⟨hck, hc'⟩ := forall_mem_cons.mp hc
      by_cases he1 : e1 = .success
      · subst he1
        rw [if_neg (not_not.mpr rfl)] at h
        refine (ih ?_ ?_ h).append
        · exact hP.fetch hst hck hcb
        · exact hc'
      · rw [if_pos he1] at h
        cases h
        exact .inr ⟨he1, hP.fetch_fails hst hck hcb he1⟩

def MakesCalls (rq : LookupRequest σ) (file₀ : TreeFile) (C : Call → Prop)
    (P : List Call → Env σ → Prop) (bad : Env σ → Prop) (h : ℕ)
    (descend : ℕ → List Bytes → Lookup σ → Errcode × Lookup σ) : Prop :=
  ∀ {pos : ℕ} {ts : List (Node h)} {keys : List Bytes} {cs : List Call} {st st' : Lookup σ}
    {e : Errcode}, NodeAt rq.plat file₀ pos ts → P cs st.env →
    (∀ c ∈ (nodeCalls rq.cmp ts keys st.toFlags).1, C c) → descend pos keys st = (e, st') →
    Outcome P bad cs (nodeCalls rq.cmp ts keys st.toFlags).1 (nodeCalls rq.cmp ts keys st.toFlags).2
      e st'

section
variable (hP : LookupInvariant rq file₀ C P Q)
include hP

theorem kpLookup_outcome {h : ℕ} {bad : Env σ → Prop}
    {descend : ℕ → List Bytes → Lookup σ → Errcode × Lookup σ}
    (hd : MakesCalls rq file₀ C P bad h descend) {its : Bindings} {ts : List (Node (h + 1))}
    {keys' : List Bytes} {st' : Lookup σ}
    (hits : List.Forall₂ (Shows rq.plat file₀) its ts) (hst : P cs st.env)
    (hc : ∀ c ∈ (kpCalls rq.cmp (nodeCalls rq.cmp) ts keys st.toFlags).1, C c)
    (hk : kpLookup rq descend its keys st = (e, keys', st')) :
    Outcome P bad cs (kpCalls rq.cmp (nodeCalls rq.cmp) ts keys st.toFlags).1
        (kpCalls rq.cmp (nodeCalls rq.cmp) ts keys st.toFlags).2.2 e st' ∧
      (e = .success → keys' = (kpCalls rq.cmp (nodeCalls rq.cmp) ts keys st.toFlags).2.1) := by
  induction hits generalizing cs keys st with
  | nil =>
    cases hk
    exact ⟨.inl ⟨rfl, rfl, by simpa [kpCalls] using hst⟩, fun _ => rfl⟩
  | @cons i t its ts hi _ ih =>
    obtain ⟨k, v⟩ := i
    obtain ⟨rfl, -, hnode⟩ : t.key = k ∧ _ := hi
    cases keys with
    | nil =>
      cases hk
      exact ⟨.inl ⟨rfl, rfl, by simpa [kpCalls] using hst⟩, fun _ => rfl⟩
    | cons key keys =>
      simp only [kpLookup, LookupRequest.callNode, hP.node, ne_eq, not_true_eq_false,
        if_false] at hk
      simp only [kpCalls] at hc ⊢
      by_cases hlt : rq.cmp t.key key = .lt
      · rw [if_pos hlt] at hk hc ⊢
        exact ih hst hc hk
      · rw [if_neg hlt] at hk hc ⊢
        obtain ⟨hc1, hc2⟩ := forall_mem_append.mp hc
        rcases hdesc : descend (readPointer t.key v).pointer (key :: keys.takeWhile fun x => rq.cmp
          t.key x != .lt) { st with inFold := st.inFold || st.fold } with ⟨e1, st1⟩
        have hst1 : P cs ({ st with inFold := st.inFold || st.fold } : Lookup σ).env := hst
        rw [hdesc] at hk
        dsimp only at hk
        obtain ⟨rfl, hfl, hcs⟩ | ⟨he1, hbad⟩ := hd hnode hst1 hc1 hdesc
        · rw [if_neg (not_not.mpr rfl)] at hk
          rw [← hfl] at hc2
          obtain ⟨hrest, hkeys⟩ := ih hcs hc2 hk
          rw [hfl] at hrest hkeys
          exact ⟨hrest.append, hkeys⟩
        · rw [if_pos he1] at hk
          cases hk
          exact ⟨.inr ⟨he1, hbad⟩, fun he => absurd he he1⟩

/-- Enough depth leaves only failed reads and callbacks to stop a lookup. -/
theorem btreeLookupInner_outcome (fuel h : ℕ) :
    MakesCalls rq file₀ C P (fun env => h < fuel → Q env) h (btreeLookupInner rq fuel) := by
  intro pos ts keys cs st st' e hnode hst hc hl
  induction fuel generalizing h pos ts keys cs st st' e with
  | zero =>
    cases hl
    exact .inr ⟨nofun, nofun⟩
  | succ fuel ih =>
    rw [btreeLookupInner] at hl
    by_cases hkeys : keys = []
    · subst hkeys
      rw [if_pos rfl] at hl
      cases hl
      have hnil : nodeCalls rq.cmp ts [] st.toFlags = ([], st.toFlags) := by
        cases h <;> cases ts <;> simp [nodeCalls, kvCalls, kpCalls, restCalls]
      rw [hnil]
      exact .inl ⟨rfl, rfl, by simpa using hst⟩
    rw [if_neg hkeys] at hl
    obtain ⟨its, hstored, hfit, hits⟩ := hnode
    split at hl
    next e1 file hread =>
      cases hl
      have hstored' := hstored.mono (hP.grows hst)
      exact .inr ⟨preadCompressed_error hread, fun _ => hP.read_fails hst hstored' hread⟩
    next nodebuf file hread =>
      have hst1 : P cs ({ st with env := { st.env with file := file } } : Lookup σ).env :=
        hP.read hst hread
      obtain rfl := preadCompressed_stored (hstored.mono (hP.grows hst)) hread
      -- the part over the items, whatever the type of the node
      have hend {calls : List Call} {fl : Flags} {e1 : Errcode} {keys1 rest : List Bytes}
          {st1 : Lookup σ}
          (hout : Outcome P (fun env => h < fuel + 1 → Q env) cs calls fl e1 st1 ∧
            (e1 = .success → keys1 = rest))
          (hc1 : ∀ c ∈ restCalls rest fl, C c)
          (hl1 : (if e1 ≠ .success then (e1, st1) else lookupRest rq keys1 st1) = (e, st')) :
          Outcome P (fun env => h < fuel + 1 → Q env) cs (calls ++ restCalls rest fl) fl e st' := by
        obtain ⟨⟨rfl, rfl, hcs⟩ | ⟨he1, hbad⟩, hrest⟩ := hout
        · obtain rfl := hrest rfl
          exact ((lookupRest_outcome hP hcs hc1 hl1).imp fun _ hq _ => hq).append
        · rw [if_pos he1] at hl1
          cases hl1
          exact .inr ⟨he1, hbad⟩
      simp only [nodeBytes, tail_cons, List.head?_cons, readItems_flatMap hfit] at hl
      cases h with
      | zero =>
        rcases hkv : kvLookup rq its keys { st with env := { st.env with file := file } } with
          ⟨e1, keys1, st1⟩
        have heq : List.Forall₂ (· = ·) its ts := hits.imp fun _ _ hx => Eq.symm hx
        rw [forall₂_eq_eq_eq] at heq
        subst heq
        have hl1 : (if e1 ≠ .success then (e1, st1) else lookupRest rq keys1 st1) = (e, st') := by
          simpa [levelType, NodeType.toByte, hkv] using hl
        obtain ⟨hc1, hc2⟩ := forall_mem_append.mp hc
        obtain ⟨hout, hrest⟩ := kvLookup_outcome hP hst1 hc1 hkv
        exact hend ⟨hout.imp fun _ hq _ => hq, hrest⟩ hc2 hl1
      | succ h =>
        rcases hkp : kpLookup rq (btreeLookupInner rq fuel) its keys { st with env := { st.env with
          file := file } } with ⟨e1, keys1, st1⟩
        have hl1 : (if e1 ≠ .success then (e1, st1) else lookupRest rq keys1 st1) = (e, st') := by
          simpa [levelType, NodeType.toByte, hkp] using hl
        obtain ⟨hc1, hc2⟩ := forall_mem_append.mp hc
        obtain ⟨hout, hrest⟩ := kpLookup_outcome hP (ih h) hits hst1 hc1 hkp
        exact hend ⟨hout.imp fun _ hq hlt => hq (Nat.lt_of_succ_lt_succ hlt), hrest⟩ hc2 hl1

/-- A lookup that succeeds has made the calls of its tree. One that does not, at enough depth,
has met a read or a callback that failed. -/
theorem btreeLookup_calls {fuel : ℕ} {ptr : NodePointer} {t : Tree} {fold : Bool} {env env' : Env σ}
    (hat : TreeAt rq.plat file₀ (some ptr) t) (henv : P [] env)
    (hc : ∀ c ∈ t.calls rq.cmp keys ⟨fold, false⟩, C c)
    (h : btreeLookup rq fuel ptr.pointer keys fold env = (e, env')) :
    e = .success ∧ P (t.calls rq.cmp keys ⟨fold, false⟩) env' ∨
      e ≠ .success ∧ (t.height < fuel → Q env') := by
  match t, hat, hc with
  | .root h0 ts, hnode, hc =>
    rcases hl : btreeLookupInner rq fuel ptr.pointer keys ⟨⟨fold, false⟩, env⟩ with ⟨e1, st1⟩
    rw [btreeLookup, hl] at h
    cases h
    have henv' : P [] (⟨⟨fold, false⟩, env⟩ : Lookup σ).env := henv
    exact (btreeLookupInner_outcome hP fuel h0 hnode henv' hc hl).imp_left
      fun h => ⟨h.1, h.2.2⟩

end

end Lookup

end Appstack.Couchstore
