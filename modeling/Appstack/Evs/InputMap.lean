import Appstack.Lib.Machine

-- `evs_input_map2.cpp`.

namespace Appstack.Evs

open Appstack.Lib Function List Machine

inductive Order where
  | drop
  | unreliable
  | fifo
  | agreed
  | safe
  | localCausal
  deriving DecidableEq

structure UserMessage where
  seq : ℤ
  seqRange : ℤ
  order : Order
  deriving DecidableEq

structure Range where
  lu : ℤ
  hs : ℤ

abbrev MsgKey := ℤ × ℕ

def MsgKey.le (a b : MsgKey) : Prop := a.1 < b.1 ∨ a.1 = b.1 ∧ a.2 ≤ b.2

instance : DecidableRel MsgKey.le := fun _ _ => inferInstanceAs (Decidable (_ ∨ _))

abbrev MsgIndex := List (MsgKey × UserMessage)

def MsgIndex.has (l : MsgIndex) (key : MsgKey) : Bool := l.any (·.1 = key)

def MsgIndex.put (l : MsgIndex) (e : MsgKey × UserMessage) : MsgIndex :=
  l.orderedInsert (fun a b => a.1.le b.1) e

structure InputMap where
  safeSeq : ℤ
  aruSeq : ℤ
  nodeIndex : List Range
  msgIndex : MsgIndex
  recoveryIndex : MsgIndex
  nMsgs : Order → ℕ

/-- An exception leaves the map as it is by then; a fault is outside of `n_msgs_` or of the map. -/
inductive Stop where
  | thrown (m : InputMap)
  | fault

def store (m : InputMap) (key : MsgKey) (msg : UserMessage) (order : Order) :
    Except Stop InputMap :=
  if m.msgIndex.has key then .error (.thrown m)
  else if order = .localCausal then .error .fault
  else .ok { m with
    msgIndex := m.msgIndex.put (key, msg)
    nMsgs := update m.nMsgs order ((m.nMsgs order + 1) % 2 ^ 64) }

def nextUnseen (seen : ℤ → Bool) (hs : ℤ) : ℕ → ℤ → ℤ
  | 0, i => i
  | n + 1, i => if i ≤ hs ∧ seen i then nextUnseen seen hs n (i + 1) else i

def insertLoop (index : ℕ) (msg : UserMessage) :
    List ℤ → InputMap → Range → Except Stop (InputMap × Range)
  | [], m, range => .ok (m, range)
  | s :: ss, m, range =>
    match if s ≤ range.hs ∧ m.msgIndex.has (s, index) then .ok m
      else store m (s, index) (if s = msg.seq then msg else ⟨s, 0, .drop⟩) msg.order with
    | .error e => .error e
    | .ok m' =>
      let hs := max range.hs s
      let seen i := m'.msgIndex.has (i, index) || m'.recoveryIndex.has (i, index)
      let lu := if range.lu = s then nextUnseen seen hs (hs - s).toNat (s + 1) else range.lu
      insertLoop index msg ss m' ⟨lu, hs⟩

def updateAru (m : InputMap) : Except Stop InputMap :=
  match (m.nodeIndex.map Range.lu).min? with
  | none => .ok m
  | some minval =>
    if m.aruSeq ≤ minval - 1 then .ok { m with aruSeq := minval - 1 } else .error (.thrown m)

def setRange (m : InputMap) (uuid : ℕ) (range : Range) : InputMap :=
  { m with nodeIndex := m.nodeIndex.set uuid range }

def UserMessage.seqs (msg : UserMessage) : List ℤ :=
  (List.range (msg.seqRange + 1).toNat).map (msg.seq + ·)

def insert (m : InputMap) (uuid : ℕ) (msg : UserMessage) : Except Stop InputMap :=
  match m.nodeIndex[uuid]? with
  | none => .error (.thrown m)
  | some range =>
    if ¬(-1 < msg.seq ∧ m.aruSeq < msg.seq ∧ range.lu ≤ msg.seq) then .error (.thrown m)
    else if msg.seq < range.lu ∨ msg.seq ≤ range.hs ∧ m.recoveryIndex.has (msg.seq, uuid) then .ok m
    else
      match insertLoop uuid msg msg.seqs m range with
      | .error e => .error e
      | .ok (m', range') => updateAru (setRange m' uuid range')

def erase (m : InputMap) (key : MsgKey) : Except Stop InputMap :=
  match m.msgIndex.find? (·.1 = key) with
  | none => .error .fault
  | some e =>
    let nMsgs := update m.nMsgs e.2.order ((m.nMsgs e.2.order + (2 ^ 64 - 1)) % 2 ^ 64)
    if m.recoveryIndex.has key then .error (.thrown { m with nMsgs })
    else .ok { m with
      nMsgs, recoveryIndex := m.recoveryIndex.put e, msgIndex := m.msgIndex.erase e }

/-- The constructor, and what `clear` leaves. -/
def cleared : InputMap := ⟨-1, -1, [], [], [], fun _ => 0⟩

/-- The sum of the counts is an `int`. -/
def reset (m : InputMap) (nodes : ℕ) : Except Stop InputMap :=
  if m.msgIndex = [] ∧ m.recoveryIndex = [] ∧ (m.nMsgs .drop + m.nMsgs .unreliable +
      m.nMsgs .fifo + m.nMsgs .agreed + m.nMsgs .safe) % 2 ^ 32 = 0 then
    .ok { m with nodeIndex := List.replicate nodes ⟨0, -1⟩ }
  else .error (.thrown m)

inductive Op where
  | insert (uuid : ℕ) (msg : UserMessage)
  | erase (key : MsgKey)
  | clear
  | reset (nodes : ℕ)

def call (m : InputMap) : Op → Except Stop InputMap
  | .insert uuid msg => insert m uuid msg
  | .erase key => erase m key
  | .clear => .ok cleared
  | .reset nodes => reset m nodes

def step (m : InputMap) (op : Op) : Except Unit (InputMap × Bool) :=
  match call m op with
  | .ok m' => .ok (m', true)
  | .error (.thrown m') => .ok (m', false)
  | .error .fault => .error ()

/-- `has_deliverables` with the counts `n`. -/
def deliverable (m : InputMap) (n : Order → ℕ) : Bool :=
  match m.msgIndex with
  | [] => false
  | ((seq, index), _) :: _ =>
    0 < n .fifo && (m.nodeIndex[index]?.any fun r => seq < r.lu) ||
      0 < n .agreed && seq ≤ m.aruSeq || 0 < n .safe && seq ≤ m.safeSeq || 16 < n .drop

def hasDeliverables (m : InputMap) : Bool := deliverable m m.nMsgs

def stored (m : InputMap) (o : Order) : ℕ := m.msgIndex.countP (·.2.order = o) % 2 ^ 64

def Good (m : InputMap) : Prop := m.nMsgs = stored m ∧ hasDeliverables m = deliverable m (stored m)

/-- The message passes the checks of `insert`. -/
def Admits (m : InputMap) (uuid : ℕ) (msg : UserMessage) : Prop :=
  ∃ range ∈ m.nodeIndex[uuid]?, (-1 < msg.seq ∧ m.aruSeq < msg.seq ∧ range.lu ≤ msg.seq) ∧
    ¬(msg.seq ≤ range.hs ∧ m.recoveryIndex.has (msg.seq, uuid))

/-- What is stored has a count, a filler the one of its message; what is erased is there, and does
not wait for recovery. -/
def Clear (m : InputMap) : Op → Prop
  | .insert uuid msg => Admits m uuid msg → ∀ s ∈ msg.seqs, m.msgIndex.has (s, uuid) = false →
      if s = msg.seq then msg.order ≠ .localCausal else msg.order = .drop
  | .erase key => m.msgIndex.has key ∧ m.recoveryIndex.has key = false
  | _ => True

instance (m : InputMap) (uuid : ℕ) (msg : UserMessage) : Decidable (Admits m uuid msg) := by
  unfold Admits
  infer_instance

instance (m : InputMap) (op : Op) : Decidable (Clear m op) := by
  cases op <;> unfold Clear <;> infer_instance

/-- The counts are right, and no key is above the highest seen. -/
structure Sound (m : InputMap) : Prop where
  counts : m.nMsgs = stored m
  bounded : ∀ e ∈ m.msgIndex ++ m.recoveryIndex, ∃ r, m.nodeIndex[e.1.2]? = some r ∧ e.1.1 ≤ r.hs

variable {m m' : InputMap} {l : MsgIndex} {e : MsgKey × UserMessage} {uuid : ℕ} {seq : ℤ}
  {msg : UserMessage} {range : Range} {order : Order}

theorem has_eq_false {key : MsgKey} : l.has key = false ↔ ∀ e ∈ l, e.1 ≠ key := by
  simp [MsgIndex.has]

theorem put_perm (l : MsgIndex) (e : MsgKey × UserMessage) : (l.put e).Perm (e :: l) :=
  perm_orderedInsert _ e l

theorem getElem?_setRange (i : ℕ) : (setRange m uuid range).nodeIndex[i]? =
    if uuid = i then (if uuid < m.nodeIndex.length then some range else none)
    else m.nodeIndex[i]? := List.getElem?_set

theorem Sound.widen (h : Sound (setRange m uuid range)) (range' : Range)
    (hle : range.hs ≤ range'.hs) : Sound (setRange m uuid range') := by
  refine ⟨h.counts, fun e he => ?_⟩
  obtain ⟨r, hr, hseq⟩ := h.bounded e he
  rw [getElem?_setRange] at hr ⊢
  split_ifs at hr ⊢
  · cases hr
    exact ⟨range', rfl, hseq.trans hle⟩
  · exact ⟨r, hr, hseq⟩

theorem Sound.store (h : Sound (setRange m uuid range)) (huuid : uuid < m.nodeIndex.length)
    (hseq : seq ≤ range.hs) (hhas : m.msgIndex.has (seq, uuid) = false)
    (hmsg : msg.order = order) (horder : order ≠ .localCausal) :
    ∃ m', store m (seq, uuid) msg order = .ok m' ∧ Sound (setRange m' uuid range) ∧
      m'.nodeIndex = m.nodeIndex ∧ m'.msgIndex.Perm (((seq, uuid), msg) :: m.msgIndex) := by
  rw [Evs.store, hhas, if_neg Bool.false_ne_true, if_neg horder]
  have hperm := (put_perm m.msgIndex ((seq, uuid), msg)).append_right m.recoveryIndex
  refine ⟨_, rfl, ⟨?_, ?_⟩, rfl, put_perm ..⟩
  · funext o
    have hcount : ∀ o, m.nMsgs o = stored m o := congrFun h.counts
    change update m.nMsgs order ((m.nMsgs order + 1) % 2 ^ 64) o =
      (m.msgIndex.put ((seq, uuid), msg)).countP (·.2.order = o) % 2 ^ 64
    rw [(put_perm ..).countP_eq, countP_cons, hmsg, update_apply]
    by_cases ho : o = order
    · subst ho
      rw [if_pos rfl, hcount, stored, Nat.mod_add_mod]
      simp
    · rw [if_neg ho, hcount, stored]
      simp [Ne.symm ho]
  · intro e he
    obtain he | he := mem_cons.mp (hperm.mem_iff.mp he)
    · subst he
      exact ⟨range, by rw [getElem?_setRange, if_pos rfl]; exact if_pos huuid, hseq⟩
    · exact h.bounded e he

theorem insertLoop_sound (msg : UserMessage) (ss : List ℤ)
    (huuid : uuid < m.nodeIndex.length) (h : Sound (setRange m uuid range))
    (hss : ∀ s ∈ ss, m.msgIndex.has (s, uuid) = false →
      if s = msg.seq then msg.order ≠ .localCausal else msg.order = .drop) :
    ∃ m' range', insertLoop uuid msg ss m range = .ok (m', range') ∧
      Sound (setRange m' uuid range') := by
  induction ss generalizing m range with
  | nil => exact ⟨m, range, rfl, h⟩
  | cons s ss ih =>
    obtain ⟨hs, hss⟩ := forall_mem_cons.mp hss
    rw [insertLoop]
    by_cases hhas : m.msgIndex.has (s, uuid)
    · -- what is stored has been seen, so the lookup finds it
      have hle : s ≤ range.hs := by
        obtain ⟨x, hx, hkey⟩ := any_eq_true.mp hhas
        obtain ⟨r, hr, hle⟩ := h.bounded x (mem_append_left _ hx)
        rw [of_decide_eq_true hkey, getElem?_setRange, if_pos rfl, if_pos huuid] at hr
        rw [of_decide_eq_true hkey] at hle
        cases hr
        exact hle
      rw [if_pos ⟨hle, hhas⟩]
      exact ih huuid (h.widen _ (le_max_left ..)) hss
    · have hhas : m.msgIndex.has (s, uuid) = false := Bool.eq_false_iff.mpr hhas
      rw [if_neg (by simp [hhas])]
      obtain ⟨horder, hcounted⟩ :
          (if s = msg.seq then msg else ⟨s, 0, .drop⟩ : UserMessage).order = msg.order ∧
            msg.order ≠ .localCausal := by
        have hs := hs hhas
        split_ifs at hs ⊢
        · exact ⟨rfl, hs⟩
        · exact ⟨hs.symm, by simp [hs]⟩
      obtain ⟨m', hm, h', hnodes, hperm⟩ := (h.widen ⟨range.lu, max range.hs s⟩
        (le_max_left ..)).store huuid (le_max_right ..) hhas horder hcounted
      rw [hm]
      refine ih (hnodes ▸ huuid) (h'.widen _ le_rfl) fun s' hs' hhas' => hss s' hs' ?_
      rw [has_eq_false] at hhas' ⊢
      exact fun e he => hhas' e (hperm.mem_iff.mpr (.tail _ he))

def Kept : Except Stop InputMap → Prop
  | .ok m => Sound m
  | .error (.thrown m) => Sound m
  | .error .fault => False

theorem updateAru_kept (h : Sound m) : Kept (updateAru m) := by
  unfold updateAru
  split
  · exact h
  · split_ifs
    · exact ⟨h.counts, h.bounded⟩
    · exact h

theorem insert_kept (h : Sound m) (hclear : Clear m (.insert uuid msg)) :
    Kept (insert m uuid msg) := by
  unfold insert
  split
  · exact h
  next range hrange =>
    by_cases hassert : -1 < msg.seq ∧ m.aruSeq < msg.seq ∧ range.lu ≤ msg.seq
    swap
    · rw [if_pos hassert]
      exact h
    rw [if_neg (not_not.mpr hassert)]
    split_ifs with hseen
    · exact h
    have huuid := (List.getElem?_eq_some_iff.mp hrange).1
    have hself : setRange m uuid range = m := by
      obtain ⟨-, rfl⟩ := List.getElem?_eq_some_iff.mp hrange
      rw [setRange, set_getElem_self]
    obtain ⟨m', range', hloop, h'⟩ := insertLoop_sound msg msg.seqs huuid (hself.symm ▸ h)
      (hclear ⟨range, hrange, hassert, fun hrec => hseen (.inr hrec)⟩)
    rw [hloop]
    exact updateAru_kept h'

theorem erase_kept (h : Sound m) {key : MsgKey} (hclear : Clear m (.erase key)) :
    Kept (erase m key) := by
  unfold erase
  split
  next hnone =>
    obtain ⟨e, he, hkey⟩ := any_eq_true.mp hclear.1
    exact List.find?_eq_none.mp hnone e he hkey
  next e he =>
    have hperm := perm_cons_erase (mem_of_find?_eq_some he)
    have hall : (m.msgIndex.erase e ++ m.recoveryIndex.put e).Perm
        (m.msgIndex ++ m.recoveryIndex) :=
      ((put_perm m.recoveryIndex e).append_left _).trans
        (perm_middle.trans (hperm.symm.append_right m.recoveryIndex))
    simp only [hclear.2, Bool.false_eq_true, if_false]
    refine ⟨?_, fun x hx => h.bounded x (hall.mem_iff.mp hx)⟩
    funext o
    have hcount : m.nMsgs o = stored m o := congrFun h.counts o
    change update m.nMsgs e.2.order _ o = (m.msgIndex.erase e).countP (·.2.order = o) % 2 ^ 64
    rw [stored, hperm.countP_eq, countP_cons] at hcount
    rw [update_apply]
    by_cases ho : o = e.2.order
    · rw [if_pos ho, ← ho, hcount]
      simp only [ho, decide_true, if_true]
      omega
    · rw [if_neg ho, hcount]
      simp [Ne.symm ho]

theorem cleared_sound : Sound cleared := ⟨rfl, nofun⟩

theorem call_kept (h : Sound m) {op : Op} (hclear : Clear m op) : Kept (call m op) := by
  cases op with
  | insert uuid msg => exact insert_kept h hclear
  | erase key => exact erase_kept h hclear
  | clear => exact cleared_sound
  | reset nodes =>
    rw [call, reset]
    split_ifs with hempty
    · exact ⟨h.counts, by simp [hempty]⟩
    · exact h

theorem sound_step {op : Op} (h : Sound m) (hclear : Clear m op) :
    ∃ m' o, step m op = .ok (m', o) ∧ Sound m' := by
  have hkept := call_kept h hclear
  rw [step]
  split
  next m' heq =>
    rw [heq] at hkept
    exact ⟨m', true, rfl, hkept⟩
  next m' heq =>
    rw [heq] at hkept
    exact ⟨m', false, rfl, hkept⟩
  next heq =>
    rw [heq] at hkept
    exact hkept.elim

/-- The counters are exact as long as each filler is counted as what it is, no message without a
count is stored, and no key is erased twice. -/
theorem counters_throughout (ops : List Op) (hclear : Along step Clear cleared ops) :
    (∃ m os, run step cleared ops = .ok (m, os)) ∧ Throughout step Good cleared ops := by
  obtain ⟨m, os, hrun, -⟩ := run_total (fun _ _ => sound_step) cleared_sound hclear
  refine ⟨⟨m, os, hrun⟩, throughout_of_along (fun m op m' o h hop hs => ?_)
    (fun m h => ⟨h.counts, congrArg (deliverable m) h.counts⟩) cleared_sound hclear⟩
  obtain ⟨m'', o', hs', h'⟩ := sound_step h hop
  rw [hs'] at hs
  cases hs
  exact h'

/-- The fillers of the second `O_SAFE` message are there, and the last message is refused. -/
def clearOps : List Op :=
  [.reset 2, .insert 0 ⟨1, 0, .safe⟩, .insert 1 ⟨1, 1, .drop⟩, .erase (1, 0),
    .insert 1 ⟨0, 2, .safe⟩, .insert 0 ⟨0, 0, .fifo⟩, .erase (1, 1), .insert 0 ⟨0, 1, .localCausal⟩]

theorem counters_throughout_clear :
    Along step Clear cleared clearOps ∧ (∃ m os, run step cleared clearOps =
      .ok (m, os)) ∧ Throughout step Good cleared clearOps := by
  have hclear : Along step Clear cleared clearOps := by decide
  exact ⟨hclear, counters_throughout clearOps hclear⟩

/-- A filler counts as the message that brought it, and its removal makes `O_DROP` wrap around. -/
theorem filler_miscounted :
    (run step cleared [.reset 1, .insert 0 ⟨0, 1, .safe⟩, .erase (1, 0)]).toOption.map
      (fun r => (r.1.nMsgs .safe, stored r.1 .safe, r.1.nMsgs .drop, stored r.1 .drop)) =
    some (2, 1, 2 ^ 64 - 1, 0) := by
  decide

end Appstack.Evs
