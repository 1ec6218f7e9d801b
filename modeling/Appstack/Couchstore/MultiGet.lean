import Appstack.Couchstore.BtreeRead
import Appstack.Couchstore.Compare
import Appstack.Couchstore.Framing

namespace Appstack.Couchstore
open Std SortedMap List

def answer (cmp : Bytes → Bytes → Ordering) (m : Bindings) (key : Bytes) : Call :=
  match m.find? fun e => cmp e.1 key == .eq with
  | some e => (e.1, some e.2)
  | none => (key, none)

def holds (cmp : Bytes → Bytes → Ordering) (m : Bindings) (key : Bytes) : Bool :=
  m.any fun e => cmp e.1 key == .eq

abbrev Flags.off : Flags := ⟨false, false⟩

section Answer
variable {cmp : Bytes → Bytes → Ordering} {m m' : Bindings} {key : Bytes}

theorem holds_eq_false : holds cmp m key = false ↔ ∀ e ∈ m, cmp e.1 key ≠ .eq := by
  simp [holds]

theorem answer_of_absent (h : ∀ e ∈ m, cmp e.1 key ≠ .eq) : answer cmp m key = (key, none) := by
  rw [answer, List.find?_eq_none.mpr (by simpa using h)]

theorem answer_append_left (h : ∀ e ∈ m', cmp e.1 key ≠ .eq) :
    answer cmp (m ++ m') key = answer cmp m key := by
  have hnone : m'.find? (fun e => cmp e.1 key == .eq) = none := by simpa using h
  rw [answer, List.find?_append, hnone, Option.or_none]
  rfl

theorem answer_append_right (h : ∀ e ∈ m, cmp e.1 key ≠ .eq) :
    answer cmp (m ++ m') key = answer cmp m' key := by
  rw [answer, List.find?_append, List.find?_eq_none.mpr (by simpa using h), Option.none_or]
  rfl

theorem answer_eq_absent : answer cmp m key = (key, none) ↔ holds cmp m key = false := by
  rw [holds_eq_false]
  refine ⟨fun h e he heq => ?_, answer_of_absent⟩
  rw [answer] at h
  split at h
  · cases h
  next hnone => simpa [heq] using List.find?_eq_none.mp hnone e he

end Answer

theorem cut_congr {α : Type*} {p q : α → Bool} {l : List α} (h : ∀ x ∈ l, p x = q x) :
    l.takeWhile p = l.takeWhile q ∧ l.dropWhile p = l.dropWhile q := by
  induction l with
  | nil => exact ⟨rfl, rfl⟩
  | cons a l ih =>
    obtain ⟨ht, hd⟩ := ih fun x hx => h x (.tail _ hx)
    simp [takeWhile_cons, dropWhile_cons, h a (.head _), ht, hd]

section Leaf
variable {cmp : Bytes → Bytes → Ordering} {keys : List Bytes} {its : Bindings}

theorem above {k v : Bytes} (h : ∀ x ∈ keys, cmp k x = .lt) :
    keys.takeWhile (holds cmp ((k, v) :: its)) = keys.takeWhile (holds cmp its) ∧
      keys.dropWhile (holds cmp ((k, v) :: its)) = keys.dropWhile (holds cmp its) ∧
      (keys.takeWhile (holds cmp its)).map (answer cmp ((k, v) :: its)) =
        (keys.takeWhile (holds cmp its)).map (answer cmp its) := by
  have hcut := cut_congr (p := holds cmp ((k, v) :: its)) (q := holds cmp its) (l := keys)
    fun x hx => by simp [holds, h x hx]
  refine ⟨hcut.1, hcut.2, map_congr_left fun x hx => ?_⟩
  have hlt := h x (( takeWhile_prefix _).subset hx)
  simp [answer, hlt]

theorem lt_of_mem_cut [TransCmp cmp] {k : Bytes}
    (hk : keys.Pairwise fun a b => cmp a b = .lt) {x : Bytes}
    (hx : x ∈ keys.dropWhile fun y => cmp k y != .lt) : cmp k x = .lt := by
  induction keys with
  | nil => simp at hx
  | cons key keys ih =>
    obtain ⟨hkey, hk'⟩ := pairwise_cons.mp hk
    rw [dropWhile_cons] at hx
    split_ifs at hx with hcmp
    · exact ih hk' hx
    · have hlt : cmp k key = .lt := by simpa using hcmp
      obtain rfl | hx := mem_cons.mp hx
      · exact hlt
      · exact TransCmp.lt_trans hlt (hkey x hx)

theorem kvCalls_off_cons (k v : Bytes) (its : Bindings) (key : Bytes) (keys : List Bytes) :
    kvCalls cmp ((k, v) :: its) (key :: keys) .off =
      if cmp k key = .eq then
        ((k, some v) :: (kvCalls cmp its keys .off).1, (kvCalls cmp its keys .off).2)
      else kvCalls cmp its (key :: keys) .off := by
  simp [kvCalls, atItem]

theorem kvCalls_off [TransCmp cmp] (hs : Sorted cmp its)
    (hk : keys.Pairwise fun a b => cmp a b = .lt) :
    kvCalls cmp its keys .off = ((keys.takeWhile (holds cmp its)).map (answer cmp its),
      keys.dropWhile (holds cmp its), .off) := by
  induction its generalizing keys with
  | nil => cases keys <;> simp [kvCalls, holds]
  | cons e its ih =>
    obtain ⟨k, v⟩ := e
    obtain ⟨hlt, hs'⟩ := pairwise_cons.mp hs
    cases keys with
    | nil => simp [kvCalls]
    | cons key keys =>
      obtain ⟨hkey, hk'⟩ := pairwise_cons.mp hk
      rw [kvCalls_off_cons]
      cases hcmp : cmp k key with
      | lt =>
        have habove (x : Bytes) (hx : x ∈ key :: keys) : cmp k x = .lt := by
          obtain rfl | hx := mem_cons.mp hx
          · exact hcmp
          · exact TransCmp.lt_trans hcmp (hkey x hx)
        rw [if_neg (by decide), ih hs' hk, (above habove).1, (above habove).2.1, (above habove).2.2]
      | eq =>
        have habove (x : Bytes) (hx : x ∈ keys) : cmp k x = .lt :=
          TransCmp.lt_of_eq_of_lt hcmp (hkey x hx)
        have hhere : holds cmp ((k, v) :: its) key = true := by simp [holds, hcmp]
        rw [if_pos rfl, ih hs' hk', takeWhile_cons_of_pos hhere, dropWhile_cons_of_pos hhere,
          map_cons, (above habove).1, (above habove).2.1, (above habove).2.2]
        simp [answer, hcmp]
      | gt =>
        -- all items lie above the key, which stays the next one to look for
        have hnone (m : Bindings) (hm : m ⊆ (k, v) :: its) : holds cmp m key = false := by
          refine holds_eq_false.mpr fun e he => ?_
          obtain rfl | he := mem_cons.mp (hm he)
          · rw [hcmp]
            decide
          · rw [OrientedCmp.gt_of_lt (TransCmp.lt_trans (OrientedCmp.lt_of_gt hcmp) (hlt e he))]
            decide
        have h1 := hnone its (subset_cons_self _ _)
        have h2 := hnone _ (List.Subset.refl _)
        rw [if_neg (by decide), ih hs' hk]
        simp [h1, h2]

end Leaf

section Tree
variable (cmp : Bytes → Bytes → Ordering)

/-- The keys that go to each child; `leaves` does one of them. -/
def spreadKeys {h : ℕ} (leaves : List (Node h) → List Bytes → List (Bindings × List Bytes)) :
    List (Node (h + 1)) → List Bytes → List (Bindings × List Bytes)
  | [], _ => []
  | t :: ts, keys => leaves t.items (keys.takeWhile fun x => cmp t.key x != .lt) ++
      spreadKeys leaves ts (keys.dropWhile fun x => cmp t.key x != .lt)

/-- The leaves below a node, each with the keys that are looked up in it. -/
def leafKeys : {h : ℕ} → List (Node h) → List Bytes → List (Bindings × List Bytes)
  | 0, ts, keys => [(ts, keys)]
  | _ + 1, ts, keys => spreadKeys cmp leafKeys ts keys

def Tree.leafKeys : Tree → List Bytes → List (Bindings × List Bytes)
  | .empty, _ => []
  | .root _ ts, keys => Couchstore.leafKeys cmp ts keys

/-- No key that the leaf has comes behind one that it does not have. -/
def Leading (w : Bindings × List Bytes) : Prop :=
  w.2.Pairwise fun a b => holds cmp w.1 b = true → holds cmp w.1 a = true

end Tree

section Tree
variable {cmp : Bytes → Bytes → Ordering} {h : ℕ}

theorem leafKeys_nil (ts : List (Node h)) : ∀ w ∈ leafKeys cmp ts [], w.2 = [] := by
  induction h with
  | zero => simp [leafKeys]
  | succ h ih =>
    induction ts with
    | nil => simp [leafKeys, spreadKeys]
    | cons t ts ih' =>
      intro w hw
      rw [leafKeys, spreadKeys, takeWhile_nil, dropWhile_nil] at hw
      exact (mem_append.mp hw).elim (ih _ w) (ih' w)

variable {keys : List Bytes}

theorem cut_eq_answers {its : Bindings} : (keys.takeWhile (holds cmp its)).map (answer cmp its) ++
        (keys.dropWhile (holds cmp its)).map (fun key => (key, none)) =
      keys.map (answer cmp its) ↔ Leading cmp (its, keys) := by
  induction keys with
  | nil => simp [Leading]
  | cons key keys ih =>
    have hcons : Leading cmp (its, key :: keys) ↔
        (∀ b ∈ keys, holds cmp its b = true → holds cmp its key = true) ∧ Leading cmp (its, keys) :=
      pairwise_cons
    rw [hcons, ← ih]
    cases hkey : holds cmp its key with
    | true => simp [hkey]
    | false =>
      have hmap : keys.map (fun key => (key, none)) = keys.map (answer cmp its) ↔
          ∀ b ∈ keys, holds cmp its b = false := by
        rw [map_inj_left]
        exact forall₂_congr fun b _ => by rw [eq_comm, answer_eq_absent]
      have hcut : keys.map (fun key => (key, none)) = keys.map (answer cmp its) →
          (keys.takeWhile (holds cmp its)).map (answer cmp its) ++
            (keys.dropWhile (holds cmp its)).map (fun key => (key, none)) =
          keys.map (answer cmp its) := by
        intro h
        have habs := hmap.mp h
        have hnil : keys.takeWhile (holds cmp its) = [] ∧ keys.dropWhile (holds cmp its) = keys := by
          cases keys with
          | nil => exact ⟨rfl, rfl⟩
          | cons b keys => simp [habs b (.head _)]
        rw [hnil.1, hnil.2]
        exact h
      simp only [takeWhile_cons, dropWhile_cons, hkey, Bool.false_eq_true, if_false,
        map_nil, nil_append, map_cons, answer_eq_absent.mpr hkey, List.cons.injEq,
        true_and]
      rw [hmap] at hcut ⊢
      simp only [imp_false, Bool.not_eq_true]
      exact ⟨fun h => ⟨h, hcut h⟩, And.left⟩

/-- A node answers all its keys, and answers them right when its leaves do. -/
structure Gets (cmp : Bytes → Bytes → Ordering) {h : ℕ} (ts : List (Node h)) (keys : List Bytes) :
    Prop where
  off : (nodeCalls cmp ts keys .off).2 = .off
  length : (nodeCalls cmp ts keys .off).1.length = keys.length
  right : (nodeCalls cmp ts keys .off).1 = keys.map (answer cmp (ts.flatMap Node.contents)) ↔
    ∀ w ∈ leafKeys cmp ts keys, Leading cmp w

variable [TransCmp cmp]

theorem gets_leaf {ts : List (Node 0)} (hs : Sorted cmp (ts.flatMap Node.contents))
    (hk : keys.Pairwise fun a b => cmp a b = .lt) : Gets cmp ts keys := by
  have hts : ts.flatMap Node.contents = ts := flatMap_singleton' ts
  rw [hts] at hs
  have hcalls := kvCalls_off hs hk
  refine ⟨?_, ?_, ?_⟩
  · simp only [nodeCalls, hcalls]
  · simp only [nodeCalls, hcalls, restCalls, Bool.false_eq_true, if_false, length_append,
      length_map]
    rw [← length_append, takeWhile_append_dropWhile]
  · rw [hts]
    simp only [nodeCalls, hcalls, restCalls, Bool.false_eq_true, if_false, leafKeys,
      mem_singleton, forall_eq]
    exact cut_eq_answers

theorem kpCalls_off {ts : List (Node (h + 1))}
    (hd : ∀ t ∈ ts, ∀ ks : List Bytes, ks.Pairwise (fun a b => cmp a b = .lt) → Gets cmp t.items ks)
    (hp : ∀ t ∈ ts, t.Proper) (hs : Sorted cmp (ts.flatMap Node.contents))
    (hk : keys.Pairwise fun a b => cmp a b = .lt) :
    (kpCalls cmp (nodeCalls cmp) ts keys .off).2.2 = .off ∧
    (kpCalls cmp (nodeCalls cmp) ts keys .off).1.length +
      (kpCalls cmp (nodeCalls cmp) ts keys .off).2.1.length = keys.length ∧
    ((kpCalls cmp (nodeCalls cmp) ts keys .off).1 ++
        (kpCalls cmp (nodeCalls cmp) ts keys .off).2.1.map (fun key => (key, none)) =
      keys.map (answer cmp (ts.flatMap Node.contents)) ↔
    ∀ w ∈ spreadKeys cmp (leafKeys cmp) ts keys, Leading cmp w) := by
  induction ts generalizing keys with
  | nil => simp [kpCalls, spreadKeys, answer]
  | cons t ts ih =>
    obtain ⟨hle, hlt⟩ := Node.cut_at_key (hp t (.head _)) hs
    have hs' : Sorted cmp (ts.flatMap Node.contents) := by
      rw [flatMap_cons] at hs
      exact (pairwise_append.mp hs).2.1
    have ih' {ks : List Bytes} (hks : ks.Pairwise fun a b => cmp a b = .lt) :=
      ih (fun x hx => hd x (.tail _ hx))
        (fun x hx => hp x (.tail _ hx)) hs' hks
    -- keys above the separator have nothing to do with the first child
    have habove {ks : List Bytes} (hks : ∀ x ∈ ks, cmp t.key x = .lt) :
        ks.map (answer cmp ((t :: ts).flatMap Node.contents)) =
          ks.map (answer cmp (ts.flatMap Node.contents)) := by
      refine map_congr_left fun x hx => ?_
      rw [flatMap_cons]
      refine answer_append_right fun e he => ?_
      rw [TransCmp.lt_of_isLE_of_lt (hle e he) (hks x hx)]
      decide
    have hempty {ks : List Bytes} (hks : ks = []) :
        ∀ w ∈ leafKeys cmp t.items ks, Leading cmp w := by
      intro w hw
      rw [Leading, leafKeys_nil _ w (hks ▸ hw)]
      exact .nil
    cases keys with
    | nil =>
      obtain ⟨-, -, hright⟩ := ih' List.Pairwise.nil
      refine ⟨rfl, rfl, ⟨fun _ w hw => ?_, fun _ => rfl⟩⟩
      rw [spreadKeys, takeWhile_nil, dropWhile_nil] at hw
      obtain hw | hw := mem_append.mp hw
      · exact hempty rfl w hw
      · refine hright.mp ?_ w hw
        cases ts <;> rfl
    | cons key keys =>
      obtain ⟨hkey, hk'⟩ := pairwise_cons.mp hk
      by_cases hcmp : cmp t.key key = .lt
      · have hall (x : Bytes) (hx : x ∈ key :: keys) : cmp t.key x = .lt := by
          obtain rfl | hx := mem_cons.mp hx
          · exact hcmp
          · exact TransCmp.lt_trans hcmp (hkey x hx)
        simp only [kpCalls, if_pos hcmp]
        obtain ⟨hoff, hlen, hright⟩ := ih' hk
        refine ⟨hoff, hlen, ?_⟩
        have hcut : (key :: keys).takeWhile (fun x => cmp t.key x != .lt) = [] ∧
            (key :: keys).dropWhile (fun x => cmp t.key x != .lt) = key :: keys := by
          simp [hcmp]
        rw [habove hall, hright, spreadKeys, hcut.1, hcut.2, forall_mem_append]
        exact (and_iff_right (hempty rfl)).symm
      · have hpos : (cmp t.key key != .lt) = true := by simpa using hcmp
        have hsub := takeWhile_sublist (fun x => cmp t.key x != .lt) (l := keys)
        have hkw : (key :: keys.takeWhile fun x => cmp t.key x != .lt).Pairwise
            fun a b => cmp a b = .lt := hk.sublist (hsub.cons_cons key)
        have hkr : (keys.dropWhile fun x => cmp t.key x != .lt).Pairwise fun a b => cmp a b = .lt :=
          hk'.sublist (dropWhile_sublist _)
        obtain ⟨hoff1, hlen1, hright1⟩ := hd t (.head _) _ hkw
        obtain ⟨hoff, hlen, hright⟩ := ih' hkr
        simp only [kpCalls, if_neg hcmp, Bool.or_false, hoff1, Bool.false_eq_true, if_false]
        have hsplit : (key :: keys.takeWhile fun x => cmp t.key x != .lt) ++
            (keys.dropWhile fun x => cmp t.key x != .lt) = key :: keys := by
          rw [cons_append, takeWhile_append_dropWhile]
        refine ⟨hoff, ?_, ?_⟩
        · rw [length_append, hlen1, Nat.add_assoc, hlen, ← length_append, hsplit]
        · -- keys up to the separator have nothing to do with the other children
          have hlow : (key :: keys.takeWhile fun x => cmp t.key x != .lt).map
              (answer cmp ((t :: ts).flatMap Node.contents)) =
              (key :: keys.takeWhile fun x => cmp t.key x != .lt).map (answer cmp t.contents) := by
            refine map_congr_left fun x hx => ?_
            have hx' : cmp t.key x ≠ .lt := by
              obtain rfl | hx := mem_cons.mp hx
              · exact hcmp
              · simpa using mem_takeWhile_imp hx
            rw [flatMap_cons]
            refine answer_append_left fun e he heq => hx' ?_
            exact TransCmp.lt_of_lt_of_eq (hlt e he) heq
          have hhigh := habove fun x hx => lt_of_mem_cut hk' hx
          have hcut : (key :: keys).takeWhile (fun x => cmp t.key x != .lt) =
                key :: keys.takeWhile (fun x => cmp t.key x != .lt) ∧
              (key :: keys).dropWhile (fun x => cmp t.key x != .lt) =
                keys.dropWhile (fun x => cmp t.key x != .lt) := by
            simp [hcmp]
          rw [spreadKeys, hcut.1, hcut.2, forall_mem_append, ← hright1, ← hright, ← hsplit,
            map_append, hlow, hhigh, append_assoc]
          constructor
          · intro heq
            exact append_inj heq (by rw [hlen1, length_map])
          · rintro ⟨h1, h2⟩
            rw [h2]
            exact congrArg (· ++ _) h1

theorem gets_node {ts : List (Node h)} (hp : ∀ t ∈ ts, t.Proper)
    (hs : Sorted cmp (ts.flatMap Node.contents)) (hk : keys.Pairwise fun a b => cmp a b = .lt) :
    Gets cmp ts keys := by
  induction h generalizing keys with
  | zero => exact gets_leaf hs hk
  | succ h ih =>
    have hchild := (pairwise_flatMap.mp hs).1
    obtain ⟨hoff, hlen, hright⟩ :=
      kpCalls_off (fun t ht _ hks => ih (hp t ht).2.1 (hchild t ht) hks) hp hs hk
    refine ⟨hoff, ?_, ?_⟩
    · simpa only [nodeCalls, hoff, restCalls, Bool.false_eq_true, if_false, length_append,
        length_map] using hlen
    · simpa only [nodeCalls, hoff, restCalls, Bool.false_eq_true, if_false, leafKeys] using hright

end Tree

def recordRequest (plat : Platform) (cmp : Bytes → Bytes → Ordering) : LookupRequest (List Call) where
  cmp := cmp
  plat := plat
  fetchCallback k v env := (.success, { env with ctx := env.ctx ++ [(k, v)] })
  nodeCallback := none

variable {ptr : NodePointer} {plat : Platform}

theorem btreeLookup_record {cmp : Bytes → Bytes → Ordering}
    {t : Tree} {keys : List Bytes} {fold : Bool} {env env' : Env (List Call)} {fuel : ℕ} {e : Errcode}
    (hat : TreeAt plat env.file (some ptr) t) (hctx : env.ctx = []) (hfuel : t.height < fuel)
    (hl : btreeLookup (recordRequest plat cmp) fuel ptr.pointer keys fold env = (e, env'))
    (hf : env'.failed = false) :
    e = .success ∧ env'.ctx = t.calls cmp keys ⟨fold, false⟩ := by
  have hinv : LookupInvariant (recordRequest plat cmp) env.file (fun _ => True)
      (fun cs env1 => env.file.Grows env1.file ∧ env1.ctx = cs) (fun env1 => env1.failed = true) :=
    { node := rfl
      grows := And.left
      read := fun hP hr => ⟨hP.1.trans (preadCompressed_appends hr).grows, hP.2⟩
      read_fails := fun _ _ _ => rfl
      fetch := by
        rintro cs env1 k v env2 ⟨hg, rfl⟩ - hcb
        cases hcb
        exact ⟨hg, rfl⟩
      fetch_fails := fun _ _ hcb he => absurd (Prod.mk.inj hcb).1.symm he }
  obtain ⟨he, -, hcs⟩ | ⟨-, hfail⟩ := btreeLookup_calls hinv hat ⟨.refl _, hctx⟩ (fun _ _ => trivial) hl
  · exact ⟨he, hcs⟩
  · rw [hfail hfuel] at hf
    cases hf

theorem btreeLookup_reliable (hos : plat.os.Reliable)
    {cmp : Bytes → Bytes → Ordering} {t : Tree} (keys : List Bytes) (fold : Bool)
    {file : TreeFile} {fuel : ℕ} (hat : TreeAt plat file (some ptr) t) (hfuel : t.height < fuel) :
    ∃ env', btreeLookup (recordRequest plat cmp) fuel ptr.pointer keys fold ⟨file, [], false⟩ =
      (.success, env') ∧ env'.failed = false := by
  have hinv : LookupInvariant (recordRequest plat cmp) file (fun _ => True)
      (fun _ env => file.Grows env.file ∧ env.failed = false) (fun _ => False) :=
    { node := rfl
      grows := And.left
      read := fun hP hr => ⟨hP.1.trans (preadCompressed_appends hr).grows, hP.2⟩
      read_fails := by
        intro cs env pos buf e file' _ hst hr
        obtain ⟨f, hok⟩ := preadCompressed_reliable hos hst
        cases hok.symm.trans hr
      fetch := by
        rintro cs env k v env' hP - hcb
        cases hcb
        exact hP
      fetch_fails := fun _ _ hcb he => absurd (Prod.mk.inj hcb).1.symm he }
  obtain ⟨e, env', hl⟩ : ∃ e env', btreeLookup (recordRequest plat cmp) fuel ptr.pointer keys fold
    ⟨file, [], false⟩ = (e, env') := ⟨_, _, rfl⟩
  obtain ⟨rfl, -, hf⟩ | ⟨-, hfail⟩ := btreeLookup_calls hinv hat ⟨.refl _, rfl⟩ (fun _ _ => trivial) hl
  · exact ⟨env', hl, hf⟩
  · exact (hfail hfuel).elim

/-- A lookup of increasing keys that meets no read error succeeds. It makes the calls it should,
one for each key with the value that the tree has, exactly when in each leaf the keys that it
has come before those that it does not have. -/
theorem btreeLookup_multiGet_iff {plat : Platform} {cmp : Bytes → Bytes → Ordering} [TransCmp cmp]
    {ptr : NodePointer} {t : Tree} {keys : List Bytes} {env env' : Env (List Call)} {fuel : ℕ}
    {e : Errcode} (hat : TreeAt plat env.file (some ptr) t) (hwf : t.WellFormed cmp)
    (hkeys : keys.Pairwise fun a b => cmp a b = .lt) (hctx : env.ctx = []) (hfuel : t.height < fuel)
    (hl : btreeLookup (recordRequest plat cmp) fuel ptr.pointer keys false env = (e, env'))
    (hf : env'.failed = false) :
    e = .success ∧
      (env'.ctx = keys.map (answer cmp t.contents) ↔ ∀ w ∈ t.leafKeys cmp keys, Leading cmp w) := by
  obtain ⟨he, hcalls⟩ := btreeLookup_record hat hctx hfuel hl hf
  refine ⟨he, ?_⟩
  match t, hat, hwf with
  | .root h ts, _, hwf =>
    rw [hcalls]
    exact (gets_node (hwf.proper h ts rfl).2 hwf.sorted hkeys).right

def pairLeaf : Bindings := [([1], [10]), ([3], [30])]

def pairFile : TreeFile :=
  (dbWriteBufCompressed bufferedPlatform (nodeBytes 0 pairLeaf) emptyFile).2

def pairRoot : NodePointer := ⟨[3], 0, 0, []⟩

theorem treeAt_pairRoot : TreeAt bufferedPlatform pairFile (some pairRoot) (.root 0 pairLeaf) := by
  have hw : dbWriteBufCompressed bufferedPlatform (nodeBytes 0 pairLeaf) emptyFile =
      (.ok (0, 24), pairFile) := Prod.ext (by decide) rfl
  obtain ⟨hst, -⟩ := dbWriteBufCompressed_stored (by decide) hw
  exact ⟨pairLeaf, hst, by simp [pairLeaf, Fits], .cons rfl (.cons rfl .nil)⟩

theorem wellFormed_pairLeaf : (Tree.root 0 pairLeaf).WellFormed ebinCmp where
  sorted := .cons (by decide) (.cons nofun .nil)
  proper h ts heq := by
    cases heq
    exact ⟨nofun, fun _ _ => trivial⟩

/-- The leaf has the first key and does not have the second. -/
theorem btreeLookup_multiGet_found_first :
    ∃ env', btreeLookup (recordRequest bufferedPlatform ebinCmp) 1 0 [[1], [2]] false
        ⟨pairFile, [], false⟩ = (.success, env') ∧
      env'.ctx = [([1], some [10]), ([2], none)] := by
  have hos : bufferedPlatform.os.Reliable := fun n h => by cases h
  obtain ⟨env', hl, hf⟩ := btreeLookup_reliable hos [[1], [2]] false treeAt_pairRoot Nat.zero_lt_one
  obtain ⟨-, hiff⟩ := btreeLookup_multiGet_iff treeAt_pairRoot wellFormed_pairLeaf (by decide) rfl
    Nat.zero_lt_one hl hf
  refine ⟨env', hl, hiff.mpr fun w hw => ?_⟩
  obtain rfl := mem_singleton.mp hw
  exact .cons (by decide) (.cons nofun .nil)

/-- The leaf does not have the first key, and its second item is reported missing. -/
theorem btreeLookup_misses_key :
    ∃ env', btreeLookup (recordRequest bufferedPlatform ebinCmp) 1 0 [[2], [3]] false
        ⟨pairFile, [], false⟩ = (.success, env') ∧ env'.failed = false ∧
      TreeAt bufferedPlatform pairFile (some pairRoot) (.root 0 pairLeaf) ∧
      (Tree.root 0 pairLeaf).WellFormed ebinCmp ∧
      env'.ctx = [([2], none), ([3], none)] ∧
      [[2], [3]].map (answer ebinCmp (Tree.root 0 pairLeaf).contents) =
        [([2], none), ([3], some [30])] := by
  have hos : bufferedPlatform.os.Reliable := fun n h => by cases h
  obtain ⟨env', hl, hf⟩ := btreeLookup_reliable hos [[2], [3]] false treeAt_pairRoot Nat.zero_lt_one
  obtain ⟨-, hcalls⟩ := btreeLookup_record treeAt_pairRoot rfl Nat.zero_lt_one hl hf
  exact ⟨env', hl, hf, treeAt_pairRoot, wellFormed_pairLeaf, hcalls.trans (by decide), by decide⟩

end Appstack.Couchstore
