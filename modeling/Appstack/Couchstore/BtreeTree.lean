import Appstack.Couchstore.BtreeModify
import Appstack.Lib.SortedMap

namespace Appstack.Couchstore
open Std SortedMap List

abbrev Bindings := List (Bytes × Bytes)

/-- An item of a node `h` levels above the leaf items: a binding, or the key of a child
and the child's items. All leaves are at the same depth by construction. -/
def Node : ℕ → Type
  | 0 => Bytes × Bytes
  | h + 1 => Bytes × List (Node h)

namespace Node

def key : {h : ℕ} → Node h → Bytes
  | 0, t => Prod.fst t
  | _ + 1, t => Prod.fst t

def items {h : ℕ} (t : Node (h + 1)) : List (Node h) := Prod.snd t

def inner {h : ℕ} (k : Bytes) (ts : List (Node h)) : Node (h + 1) := (k, ts)

def contents : {h : ℕ} → Node h → Bindings
  | 0, t => [t]
  | _ + 1, t => t.items.flatMap contents

/-- No node is empty, and the key of a child is the greatest key below it. -/
def Proper : {h : ℕ} → Node h → Prop
  | 0, _ => True
  | _ + 1, t => t.items ≠ [] ∧ (∀ x ∈ t.items, Proper x) ∧
      t.contents.getLast?.map Prod.fst = some t.key

end Node

def levelType : ℕ → NodeType
  | 0 => .kv
  | _ + 1 => .kp

def nodeBytes (h : ℕ) (its : Bindings) : Bytes :=
  (levelType h).toByte :: its.flatMap fun e => writeKv e.1 e.2

def pointerOf (data : Bytes) : ℕ := (readPointer [] data).pointer

def maxPointerData : ℕ := 514

variable (plat : Platform) (file : TreeFile)

/-- The file shows the item `t` under an entry of a node. -/
def Shows : {h : ℕ} → Bytes × Bytes → Node h → Prop
  | 0, e, t => t = e
  | h + 1, e, t => t.key = e.1 ∧ e.2.length ≤ maxPointerData ∧
      ∃ its, Stored plat file (pointerOf e.2) (nodeBytes h its) ∧ (∀ x ∈ its, Fits x) ∧
        List.Forall₂ Shows its t.items

/-- The file has a node with the items `ts` at `pos`. -/
def NodeAt {h : ℕ} (pos : ℕ) (ts : List (Node h)) : Prop :=
  ∃ its, Stored plat file pos (nodeBytes h its) ∧ (∀ x ∈ its, Fits x) ∧
    List.Forall₂ (Shows plat file) its ts

inductive Tree where
  | empty
  | root (h : ℕ) (items : List (Node h))

/-- The file shows the tree `t` at a root pointer. -/
def TreeAt : Option NodePointer → Tree → Prop
  | none, .empty => True
  | some ptr, .root _ ts => NodeAt plat file ptr.pointer ts
  | _, _ => False

namespace Tree

def contents : Tree → Bindings
  | .empty => []
  | .root _ ts => ts.flatMap Node.contents

/-- Keys strictly increasing, no empty nodes, and every interior key the greatest below it. -/
structure WellFormed (cmp : Bytes → Bytes → Ordering) (t : Tree) : Prop where
  sorted : Sorted cmp t.contents
  proper : ∀ h ts, t = .root h ts → ts ≠ [] ∧ ∀ x ∈ ts, x.Proper

def height : Tree → ℕ
  | .empty => 0
  | .root h _ => h

end Tree

section Batches
variable {τ β : Type*}

def Action.edit (a : Action β) : Bytes × Edit Bytes :=
  (a.key, match a.type with
    | .fetch _ => .keep
    | .remove => .erase
    | .insert data => .put data)

/-- An action list that a caller may hand in: sorted, and for each key first the fetches,
then at most one remove, then at most one insert. -/
structure Batch (cmp : Bytes → Bytes → Ordering) (acts : List (Action β)) : Prop where
  order : (acts.map Action.edit).Pairwise (Precedes cmp)
  fits : ∀ a ∈ acts, ∀ data, a.type = .insert data → Fits (a.key, data)

/-- What the result needs of an action list: the keys are in order and the items fit. -/
structure Ordered (cmp : Bytes → Bytes → Ordering) (acts : List (Action β)) : Prop where
  order : InOrder cmp (acts.map Action.edit)
  fits : ∀ a ∈ acts, ∀ data, a.type = .insert data → Fits (a.key, data)

/-- What the callbacks need on top of it. -/
def Strict (cmp : Bytes → Bytes → Ordering) (acts : List (Action β)) : Prop :=
  (acts.map Action.edit).Pairwise (Precedes cmp)

def fetchAll (rq : Request τ β) (m : Bindings) (acts : List (Action β)) (ctx : τ) : τ :=
  acts.foldl (fun ctx a =>
    match a.type, rq.fetchCallback with
    | .fetch arg, some cb => cb a.key (get rq.cmp m a.key) arg ctx
    | _, _ => ctx) ctx

/-- The actions that go to each child of an interior node; the last child takes what is left. -/
def route (cmp : Bytes → Bytes → Ordering) : List Bytes → List (Action β) → List (List (Action β))
  | [], _ => []
  | [_], acts => [acts]
  | k :: k' :: ks, acts =>
    acts.takeWhile (fun b => cmp b.key k != .gt) ::
      route cmp (k' :: ks) (acts.dropWhile fun b => cmp b.key k != .gt)

def inserted (acts : List (Action β)) : Bindings := (acts.map Action.edit).flatMap Edit.fresh

/-- What bindings take in a leaf. -/
def leafSize (m : Bindings) : ℕ := (m.map fun e => e.1.length + e.2.length + 5).sum

/-- What a pointer with the key takes in a node, at most. -/
def pointerSize (key : Bytes) : ℕ := key.length + maxPointerData + 5

/-- What pointers to nodes with the bindings take, at most. -/
def pointersSize (m : Bindings) : ℕ := (m.map fun e => pointerSize e.1).sum

/-- What the pointers take that a batch can make below a node: for the leaves it goes to with what
it inserts, and one for each child that it passes by. A write error that is dropped leaves those of
all children to one interior node. -/
def load (cmp : Bytes → Bytes → Ordering) : {h : ℕ} → List (Node h) → List (Action β) → ℕ
  | 0, ts, acts => pointersSize ts + pointersSize (inserted acts)
  | _ + 1, ts, acts =>
    (List.zipWith (fun t as => if as.isEmpty then pointerSize t.key else load cmp t.items as)
      ts (route cmp (ts.map Node.key) acts)).sum

/-- Every leaf that a batch goes to below a node fits with what is inserted there. -/
def LeavesFit (cmp : Bytes → Bytes → Ordering) : {h : ℕ} → List (Node h) → List (Action β) → Prop
  | 0, ts, acts => leafSize ts + leafSize (inserted acts) < chunkLimit
  | _ + 1, ts, acts => ∀ p ∈ ts.zip (route cmp (ts.map Node.key) acts), p.2 ≠ [] →
      LeavesFit cmp p.1.items p.2

def Tree.load (cmp : Bytes → Bytes → Ordering) (acts : List (Action β)) : Tree → ℕ
  | .empty => Couchstore.load (h := 0) cmp [] acts
  | .root _ ts => Couchstore.load cmp ts acts

/-- The nodes that a batch can write fit the format. -/
structure Tree.Light (cmp : Bytes → Bytes → Ordering) (acts : List (Action β)) (t : Tree) : Prop where
  leaves : match t with
    | .empty => LeavesFit (h := 0) cmp [] acts
    | .root _ ts => LeavesFit cmp ts acts
  pointers : t.load cmp acts < chunkLimit

end Batches

section Grows
variable {plat : Platform} {file file' : TreeFile}

theorem Shows.key_eq {h : ℕ} {e : Bytes × Bytes} {t : Node h} (hs : Shows plat file e t) :
    t.key = e.1 := by
  cases h with
  | zero => exact congrArg Prod.fst hs
  | succ h => exact hs.1

theorem Shows.mono {h : ℕ} {e : Bytes × Bytes} {t : Node h} (hs : Shows plat file e t)
    (hg : file.Grows file') : Shows plat file' e t := by
  induction h generalizing e with
  | zero => exact hs
  | succ h ih =>
    obtain ⟨hk, hl, its, hst, hf, hits⟩ := hs
    exact ⟨hk, hl, its, hst.mono hg, hf, hits.imp fun _ _ hx => ih hx⟩

theorem NodeAt.mono {h pos : ℕ} {ts : List (Node h)} (hn : NodeAt plat file pos ts)
    (hg : file.Grows file') : NodeAt plat file' pos ts := by
  obtain ⟨its, hst, hf, hits⟩ := hn
  exact ⟨its, hst.mono hg, hf, hits.imp fun _ _ hx => hx.mono hg⟩

end Grows

/-- Something that a pointer is to say of its node, whose entries in the file are `its` and
whose items are `ts`. It stays true when the file grows. -/
structure Note where
  Holds : Platform → TreeFile → (h : ℕ) → NodePointer → (its : Bindings) → List (Node h) → Prop
  mono : ∀ {plat : Platform} {file file' : TreeFile} {h : ℕ} {ptr : NodePointer} {its : Bindings}
    {ts : List (Node h)}, file.Grows file' → Holds plat file h ptr its ts →
      Holds plat file' h ptr its ts

def Note.blank : Note := ⟨fun _ _ _ _ _ _ => True, fun _ => id⟩

section Noted
variable (N : Note) (plat : Platform) (file : TreeFile)

/-- `Shows`, with the note on every pointer. -/
def ShowsNoted : {h : ℕ} → Bytes × Bytes → Node h → Prop
  | 0, e, t => t = e
  | h + 1, e, t => t.key = e.1 ∧ e.2.length ≤ maxPointerData ∧
      ∃ its, Stored plat file (pointerOf e.2) (nodeBytes h its) ∧ (∀ x ∈ its, Fits x) ∧
        N.Holds plat file h (readPointer e.1 e.2) its t.items ∧ List.Forall₂ ShowsNoted its t.items

def NodeNoted {h : ℕ} (ptr : NodePointer) (ts : List (Node h)) : Prop :=
  ∃ its, Stored plat file ptr.pointer (nodeBytes h its) ∧ (∀ x ∈ its, Fits x) ∧
    N.Holds plat file h ptr its ts ∧ List.Forall₂ (ShowsNoted N plat file) its ts

def TreeNoted : Option NodePointer → Tree → Prop
  | none, .empty => True
  | some ptr, .root _ ts => NodeNoted N plat file ptr ts
  | _, _ => False

end Noted

section Noted
variable {N : Note} {plat : Platform} {file file' : TreeFile} {e : Bytes × Bytes}
  {root : Option NodePointer}

section
variable {h : ℕ} {t : Node h}

theorem ShowsNoted.shows (hs : ShowsNoted N plat file e t) : Shows plat file e t := by
  induction h generalizing e with
  | zero => exact hs
  | succ h ih =>
    obtain ⟨hk, hl, its, hst, hf, -, hits⟩ := hs
    exact ⟨hk, hl, its, hst, hf, hits.imp fun _ _ hx => ih hx⟩

theorem ShowsNoted.key_eq (hs : ShowsNoted N plat file e t) : t.key = e.1 :=
  hs.shows.key_eq

theorem Shows.blank (hs : Shows plat file e t) : ShowsNoted Note.blank plat file e t := by
  induction h generalizing e with
  | zero => exact hs
  | succ h ih =>
    obtain ⟨hk, hl, its, hst, hf, hits⟩ := hs
    exact ⟨hk, hl, its, hst, hf, trivial, hits.imp fun _ _ hx => ih hx⟩

theorem ShowsNoted.mono
    (hs : ShowsNoted N plat file e t) (hg : file.Grows file') : ShowsNoted N plat file' e t := by
  induction h generalizing e with
  | zero => exact hs
  | succ h ih =>
    obtain ⟨hk, hl, its, hst, hf, hn, hits⟩ := hs
    exact ⟨hk, hl, its, hst.mono hg, hf, N.mono hg hn, hits.imp fun _ _ hx => ih hx⟩

end

theorem NodeNoted.mono {h : ℕ} {ptr : NodePointer} {ts : List (Node h)}
    (hn : NodeNoted N plat file ptr ts) (hg : file.Grows file') :
    NodeNoted N plat file' ptr ts := by
  obtain ⟨its, hst, hf, hnote, hits⟩ := hn
  exact ⟨its, hst.mono hg, hf, N.mono hg hnote, hits.imp fun _ _ hx => hx.mono hg⟩

theorem TreeNoted.mono {t : Tree} (hat : TreeNoted N plat file root t)
    (hg : file.Grows file') : TreeNoted N plat file' root t := by
  match root, t, hat with
  | none, .empty, _ => trivial
  | some _, .root _ _, hat => exact NodeNoted.mono hat hg

theorem TreeNoted.treeAt {t : Tree}
    (hat : TreeNoted N plat file root t) : TreeAt plat file root t := by
  match root, t, hat with
  | none, .empty, _ => trivial
  | some _, .root _ _, ⟨its, hst, hf, _, hits⟩ =>
    exact ⟨its, hst, hf, hits.imp fun _ _ hx => hx.shows⟩

section Weaken
variable {N' : Note} (himp : ∀ {h : ℕ} {ptr : NodePointer} {its : Bindings} {ts : List (Node h)},
  N.Holds plat file h ptr its ts → N'.Holds plat file h ptr its ts)
include himp

theorem ShowsNoted.imp {h : ℕ} {e : Bytes × Bytes} {t : Node h} (hs : ShowsNoted N plat file e t) :
    ShowsNoted N' plat file e t := by
  induction h generalizing e with
  | zero => exact hs
  | succ h ih =>
    obtain ⟨hk, hl, its, hst, hf, hn, hits⟩ := hs
    exact ⟨hk, hl, its, hst, hf, himp hn, hits.imp fun _ _ hx => ih hx⟩

theorem TreeNoted.imp {root : Option NodePointer} {t : Tree} (hat : TreeNoted N plat file root t) :
    TreeNoted N' plat file root t := by
  match root, t, hat with
  | none, .empty, _ => trivial
  | some _, .root _ _, ⟨its, hst, hf, hn, hits⟩ =>
    exact ⟨its, hst, hf, himp hn, hits.imp fun _ _ hx => hx.imp himp⟩

end Weaken

theorem TreeAt.blank {t : Tree} (hat : TreeAt plat file root t) :
    TreeNoted Note.blank plat file root t := by
  match root, t, hat with
  | none, .empty, _ => trivial
  | some _, .root _ _, ⟨its, hst, hf, hits⟩ =>
    exact ⟨its, hst, hf, trivial, hits.imp fun _ _ hx => hx.blank⟩

end Noted

namespace Node
variable {h : ℕ}

theorem Proper.getLast {t : Node h} (ht : t.Proper) :
    t.contents.getLast?.map Prod.fst = some t.key := by
  cases h with
  | zero => rfl
  | succ h => exact ht.2.2

theorem Proper.contents_ne_nil {t : Node h} (ht : t.Proper) : t.contents ≠ [] := by
  intro hn
  simpa [hn] using ht.getLast

theorem getLast_flatMap {ts : List (Node h)} (ht : ∀ x ∈ ts, x.Proper) :
    (ts.flatMap contents).getLast?.map Prod.fst = ts.getLast?.map key := by
  induction ts using List.reverseRecOn with
  | nil => rfl
  | append_singleton ts t _ =>
    have hp := ht t (by simp)
    rw [flatMap_append, flatMap_singleton,
      List.getLast?_append_of_ne_nil _ hp.contents_ne_nil, hp.getLast, List.getLast?_concat]
    rfl

section Sorted
variable {cmp : Bytes → Bytes → Ordering} [TransCmp cmp]

theorem isLE_getLast {m : Bindings} (hs : Sorted cmp m) {k : Bytes}
    (hk : m.getLast?.map Prod.fst = some k) : ∀ e ∈ m, (cmp e.1 k).isLE := by
  obtain rfl | ⟨m', x, rfl⟩ := eq_nil_or_concat' m
  · simp
  · rw [List.getLast?_concat, Option.map_some, Option.some.injEq] at hk
    subst hk
    intro e he
    obtain he | he := mem_append.mp he
    · have hlt : cmp e.1 x.1 = .lt := (pairwise_append.mp hs).2.2 e he x (by simp)
      simp [hlt]
    · have hself : cmp x.1 x.1 = .eq := ReflCmp.compare_self
      simp [mem_singleton.mp he, hself]

theorem cut_at_key {t : Node h} {ts : List (Node h)} (ht : t.Proper)
    (hs : Sorted cmp ((t :: ts).flatMap contents)) :
    (∀ e ∈ t.contents, (cmp e.1 t.key).isLE) ∧ ∀ e ∈ ts.flatMap contents, cmp t.key e.1 = .lt := by
  rw [flatMap_cons] at hs
  obtain ⟨hs1, -, hlt⟩ := pairwise_append.mp hs
  refine ⟨isLE_getLast hs1 ht.getLast, fun e he => ?_⟩
  obtain ⟨x, hx, hxk⟩ := Option.map_eq_some_iff.mp ht.getLast
  rw [← hxk]
  exact hlt x (mem_of_getLast? hx) e he

end Sorted

end Node

section Cut
variable {τ β : Type*} {rq : Request τ β}

section
variable {cmp : Bytes → Bytes → Ordering}

theorem Batch.ordered {acts : List (Action β)} (hb : Batch cmp acts) : Ordered cmp acts :=
  ⟨inOrder_of_precedes hb.order, hb.fits⟩

theorem Ordered.of_sublist {acts acts' : List (Action β)}
    (hb : Ordered cmp acts) (hs : acts'.Sublist acts) : Ordered cmp acts' :=
  ⟨hb.order.sublist (hs.map _), fun a ha => hb.fits a (hs.subset ha)⟩

theorem Strict.of_sublist {acts acts' : List (Action β)}
    (h : Strict cmp acts) (hs : acts'.Sublist acts) : Strict cmp acts' :=
  h.sublist (hs.map _)

end

theorem fetchAll_cons (m : Bindings) (a : Action β) (acts : List (Action β)) (ctx : τ) :
    fetchAll rq m (a :: acts) ctx = fetchAll rq m acts (fetchAll rq m [a] ctx) := rfl

theorem fetchAll_append (m : Bindings) (acts acts' : List (Action β)) (ctx : τ) :
    fetchAll rq m (acts ++ acts') ctx = fetchAll rq m acts' (fetchAll rq m acts ctx) :=
  foldl_append

theorem fetchAll_congr {m m' : Bindings} {acts : List (Action β)} (ctx : τ)
    (h : ∀ a ∈ acts, a.edit.2 = .keep → get rq.cmp m a.key = get rq.cmp m' a.key) :
    fetchAll rq m acts ctx = fetchAll rq m' acts ctx := by
  induction acts generalizing ctx with
  | nil => rfl
  | cons a acts ih =>
    have ha : fetchAll rq m [a] ctx = fetchAll rq m' [a] ctx := by
      have hget := h a (by simp)
      simp only [fetchAll, foldl_cons, foldl_nil, Action.edit] at hget ⊢
      split
      next hty hcb =>
        rw [hty] at hget
        rw [hget rfl]
      next => rfl
    rw [fetchAll_cons, fetchAll_cons m', ha, ih _ fun b hb => h b (by simp [hb])]

variable [TransCmp rq.cmp] {m₁ m₂ : Bindings} {k : Bytes} {acts : List (Action β)}

/-- The actions up to `k`, and those behind. -/
def upTo (rq : Request τ β) (k : Bytes) (b : Action β) : Bool := rq.cmp b.key k != .gt

section
variable (h1 : ∀ e ∈ m₁, (rq.cmp e.1 k).isLE) (h2 : ∀ e ∈ m₂, rq.cmp k e.1 = .lt)
  (hb : Ordered rq.cmp acts)
include h1 h2 hb

theorem edit_upTo : edit rq.cmp (m₁ ++ m₂) (acts.map Action.edit) =
      edit rq.cmp m₁ ((acts.takeWhile (upTo rq k)).map Action.edit) ++
        edit rq.cmp m₂ ((acts.dropWhile (upTo rq k)).map Action.edit) := by
  rw [edit_cut k h1 h2 hb.order, takeWhile_map, dropWhile_map]
  rfl

theorem fetchAll_upTo (ctx : τ) :
    fetchAll rq (m₁ ++ m₂) acts ctx = fetchAll rq m₂ (acts.dropWhile (upTo rq k))
      (fetchAll rq m₁ (acts.takeWhile (upTo rq k)) ctx) := by
  have hlow (a) (ha : a ∈ acts.takeWhile (upTo rq k)) :
      get rq.cmp (m₁ ++ m₂) a.key = get rq.cmp m₁ a.key := by
    refine get_append_left (fun e he => ?_) m₁
    have hle : rq.cmp a.key k ≠ .gt := by simpa [upTo] using mem_takeWhile_imp ha
    have hlt : rq.cmp a.key e.1 = .lt :=
      TransCmp.lt_of_isLE_of_lt (by cases hc : rq.cmp a.key k <;> simp_all) (h2 e he)
    simp [OrientedCmp.gt_of_lt hlt]
  have hhigh (a) (ha : a ∈ acts.dropWhile (upTo rq k)) :
      get rq.cmp (m₁ ++ m₂) a.key = get rq.cmp m₂ a.key := by
    refine get_append_right (fun e he => ?_) m₂
    have hlt : rq.cmp k a.key = .lt := lt_of_mem_dropWhile (b := a.edit) hb.order
      (by rw [dropWhile_map]; exact mem_map_of_mem ha)
    simp [TransCmp.lt_of_isLE_of_lt (h1 e he) hlt]
  conv_lhs => rw [← takeWhile_append_dropWhile (p := upTo rq k) (l := acts)]
  rw [fetchAll_append, fetchAll_congr ctx fun a ha _ => hlow a ha,
    fetchAll_congr _ fun a ha _ => hhigh a ha]

end

end Cut

end Appstack.Couchstore
