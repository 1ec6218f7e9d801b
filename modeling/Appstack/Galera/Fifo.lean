import Appstack.Lib.Machine

-- `gu_fifo.c`.

namespace Appstack.Galera.GuFifo

open Appstack.Lib Function List Finset Machine

inductive GetErr where
  | noData
  | canceled
  deriving DecidableEq

/-- `struct gu_fifo`; an item of `item_size` bytes is one cell of its row. -/
structure Fifo (α : Type*) where
  colShift : ℕ
  rowsNum : ℕ
  itemSize : ℕ
  rowSize : ℕ
  head : ℕ
  tail : ℕ
  used : ℕ
  alloc : ZMod (2 ^ 64)
  closed : Bool
  getErr : Option GetErr
  rows : ℕ → Option (ℕ → Option α)

variable {α : Type*}

namespace Fifo

def colMask (q : Fifo α) : ℕ := 2 ^ q.colShift - 1

def length (q : Fifo α) : ℕ := 2 ^ q.colShift * q.rowsNum

def row (q : Fifo α) (x : ℕ) : ℕ := x >>> q.colShift

def col (q : Fifo α) (x : ℕ) : ℕ := x &&& q.colMask

def inc (q : Fifo α) (x : ℕ) : ℕ := (x + 1) &&& (q.length - 1)

/-- What is stored at `FIFO_PTR`, if its row is allocated and it was written. -/
def cell (q : Fifo α) (x : ℕ) : Option α := (q.rows (q.row x)).bind (· (q.col x))

end Fifo

/-- The loop of `gu_fifo_create`; nothing when `1 << 31` overflows. -/
def fit (length itemSize rowPwr arrayPwr : ℕ) : Option (ℕ × ℕ) :=
  if 31 ≤ rowPwr ∨ 31 ≤ arrayPwr then none
  else if length ≤ 2 ^ arrayPwr * 2 ^ rowPwr then some (rowPwr, arrayPwr)
  else if 2 ^ arrayPwr * 8 < 2 ^ rowPwr * itemSize % 2 ^ 64 then
    fit length itemSize rowPwr (arrayPwr + 1)
  else fit length itemSize (rowPwr + 1) arrayPwr
termination_by 62 - rowPwr - arrayPwr

/-- `gu_fifo_create`, with `sizeof (gu_fifo_t)` and the physical memory. -/
def create (α : Type*) (fifoSize memLimit length itemSize : ℕ) : Option (Fifo α) :=
  if 0 < length ∧ 0 < itemSize then
    match fit length itemSize 10 1 with
    | none => none
    | some (rowPwr, arrayPwr) =>
      let rowSize := 2 ^ rowPwr * itemSize % 2 ^ 64
      let arraySize := 2 ^ arrayPwr * 8
      if memLimit < (2 ^ arrayPwr * rowSize + arraySize + fifoSize) % 2 ^ 64 then none
      else if 2 ^ 63 - 1 < 2 ^ arrayPwr * 2 ^ rowPwr then none
      else some
        { colShift := rowPwr, rowsNum := 2 ^ arrayPwr, itemSize, rowSize
          head := 0, tail := 0, used := 0, alloc := (fifoSize + arraySize : ℕ)
          closed := false, getErr := none, rows := fun _ => none }
  else none

inductive Fault where
  | badAccess
  deriving DecidableEq

/-- `gu_fifo_get_tail`, which allocates the row if it has to, and what its caller then writes. -/
def putTail (q : Fifo α) (item : α) : Fifo α :=
  let cells := (q.rows (q.row q.tail)).getD fun _ => none
  { q with
    alloc := if (q.rows (q.row q.tail)).isSome then q.alloc else q.alloc + q.rowSize
    rows := update q.rows (q.row q.tail)
      (some (update cells (q.col q.tail) (some item))) }

def pushTail (q : Fifo α) : Fifo α := { q with tail := q.inc q.tail, used := q.used + 1 }

def popHead (q : Fifo α) : Fifo α :=
  { q with
    head := q.inc q.head
    used := q.used - 1
    -- removing last unit from the row
    alloc := if q.col q.head = q.colMask then q.alloc - q.rowSize else q.alloc
    rows := if q.col q.head = q.colMask then update q.rows (q.row q.head) none else q.rows }

inductive Op (α : Type*) where
  | push (item : α)
  | pop
  | close
  | «open»
  | cancelGets
  | resumeGets

inductive Out (α : Type*) where
  | pushed (item : α)
  | popped (item : α)
  | null
  | wait
  | done
  | badState

def step (q : Fifo α) : Op α → Except Fault (Fifo α × Out α)
  | .push item =>
    if q.closed then .ok (q, .null)
    else if q.used = q.length then .ok (q, .wait)
    else if (q.col q.tail + 1) * q.itemSize ≤ q.rowSize then
      .ok (pushTail (putTail q item), .pushed item)
    else .error .badAccess
  | .pop =>
    if q.getErr = some .canceled then .ok (q, .null)
    else if q.used = 0 then .ok (q, if q.getErr = none then .wait else .null)
    else
      match q.cell q.head with
      | none => .error .badAccess
      | some item => .ok (popHead q, .popped item)
  | .close =>
    if q.closed then .ok (q, .done)
    else .ok ({ q with closed := true, getErr := some (q.getErr.getD .noData) }, .done)
  | .open => .ok ({ q with closed := false, getErr := none }, .done)
  | .cancelGets =>
    if q.getErr = some .canceled then .ok (q, .badState)
    else .ok ({ q with getErr := some .canceled }, .done)
  | .resumeGets =>
    if q.getErr = some .canceled then
      .ok ({ q with getErr := if q.closed then some .noData else none }, .done)
    else .ok (q, .badState)

def Out.pushed? : Out α → Option α
  | .pushed item => some item
  | _ => none

def Out.popped? : Out α → Option α
  | .popped item => some item
  | _ => none

def Fifo.allocated (q : Fifo α) : Finset ℕ :=
  (Finset.range q.rowsNum).filter fun r => (q.rows r).isSome

/-- The queue is sound and holds `items`, oldest first; `fixed` is allocated besides its rows. -/
structure Holds (fixed : ZMod (2 ^ 64)) (q : Fifo α) (items : List α) : Prop where
  rowsNum_pow : ∃ p, q.rowsNum = 2 ^ p
  rowSize_eq : q.rowSize = 2 ^ q.colShift * q.itemSize
  head_lt : q.head < q.length
  tail_eq : q.tail = (q.head + q.used) % q.length
  used_eq : q.used = items.length
  used_le : q.used ≤ q.length
  cells : ∀ i item, items[i]? = some item → q.cell ((q.head + i) % q.length) = some item
  alloc_eq : q.alloc = fixed + q.rowSize * q.allocated.card

/-- The head does not leave a row that the tail has come round to. -/
def Clear (q : Fifo α) : Op α → Prop
  | .pop => q.getErr = some .canceled ∨ q.col q.head ≠ q.colMask ∨ q.used + q.colMask ≤ q.length
  | _ => True

instance (q : Fifo α) : DecidablePred (Clear q)
  | .pop => inferInstanceAs (Decidable (_ ∨ _ ∨ _))
  | .push _ | .close | .open | .cancelGets | .resumeGets => inferInstanceAs (Decidable True)

variable {fixed : ZMod (2 ^ 64)} {q : Fifo α} {items : List α}

theorem row_eq (q : Fifo α) (x : ℕ) : q.row x = x / 2 ^ q.colShift :=
  Nat.shiftRight_eq_div_pow x q.colShift

theorem col_eq (q : Fifo α) (x : ℕ) : q.col x = x % 2 ^ q.colShift :=
  Nat.and_two_pow_sub_one_eq_mod x q.colShift

theorem row_lt {x : ℕ} (hx : x < q.length) : q.row x < q.rowsNum := by
  rw [row_eq]
  exact Nat.div_lt_of_lt_mul hx

theorem putTail_cell (item : α) {x : ℕ} (hx : x ≠ q.tail) : (putTail q item).cell x = q.cell x := by
  change ((update q.rows _ _) (q.row x)).bind (· (q.col x)) = _
  by_cases hrow : q.row x = q.row q.tail
  · have hcol : q.col x ≠ q.col q.tail := by
      intro hcol
      rw [row_eq, row_eq] at hrow
      rw [col_eq, col_eq] at hcol
      exact hx (by rw [← Nat.div_add_mod x (2 ^ q.colShift), hrow, hcol, Nat.div_add_mod])
    rw [hrow, update_self, Option.bind_some, update_of_ne hcol, Fifo.cell, hrow]
    cases q.rows (q.row q.tail) <;> rfl
  · rw [update_of_ne hrow, Fifo.cell]

theorem putTail_cell_tail (item : α) : (putTail q item).cell q.tail = some item := by
  change ((update q.rows _ _) (q.row q.tail)).bind (· (q.col q.tail)) = _
  rw [update_self, Option.bind_some, update_self]

theorem putTail_allocated (item : α) (htail : q.tail < q.length) :
    (putTail q item).allocated = insert (q.row q.tail) q.allocated := by
  ext r
  simp only [Fifo.allocated, Finset.mem_filter, Finset.mem_range, Finset.mem_insert, putTail,
    update_apply]
  have hrow := row_lt htail
  by_cases hr : r = q.row q.tail
  · simp [hr, hrow]
  · simp [hr]

theorem popHead_cell {x : ℕ} (hx : q.col q.head = q.colMask → q.row x ≠ q.row q.head) :
    (popHead q).cell x = q.cell x := by
  refine congrArg (Option.bind · _) ?_
  change (if q.col q.head = q.colMask then _ else q.rows) (q.row x) = _
  split_ifs with hcol
  · exact update_of_ne (hx hcol) _ _
  · rfl

theorem popHead_allocated (hcol : q.col q.head = q.colMask) :
    (popHead q).allocated = q.allocated.erase (q.row q.head) := by
  ext r
  simp only [Fifo.allocated, popHead, if_pos hcol, Finset.mem_filter, Finset.mem_range,
    Finset.mem_erase, update_apply]
  by_cases hr : r = q.row q.head <;> simp [hr]

namespace Holds

section
variable (h : Holds fixed q items)
include h

theorem inc_eq (x : ℕ) : q.inc x = (x + 1) % q.length := by
  obtain ⟨p, hp⟩ := h.rowsNum_pow
  rw [Fifo.inc, Fifo.length, hp, ← pow_add, Nat.and_two_pow_sub_one_eq_mod]

theorem tail_lt : q.tail < q.length := by
  rw [h.tail_eq]
  exact Nat.mod_lt _ (Nat.zero_lt_of_lt h.head_lt)

theorem step_push (hopen : q.closed = false) (hroom : q.used ≠ q.length) (item : α) :
    step q (.push item) = .ok (pushTail (putTail q item), .pushed item) := by
  have hfits : (q.col q.tail + 1) * q.itemSize ≤ q.rowSize := by
    rw [h.rowSize_eq, col_eq]
    exact Nat.mul_le_mul_right _ (Nat.mod_lt _ (by positivity))
  rw [step, if_neg (by simp [hopen]), if_neg hroom, if_pos hfits]

theorem pushed (hroom : q.used ≠ q.length) (item : α) :
    Holds fixed (pushTail (putTail q item)) (items ++ [item]) where
  rowsNum_pow := h.rowsNum_pow
  rowSize_eq := h.rowSize_eq
  head_lt := h.head_lt
  tail_eq := by
    change q.inc q.tail = (q.head + (q.used + 1)) % q.length
    rw [h.inc_eq, h.tail_eq, Nat.mod_add_mod, add_assoc]
  used_eq := by simp [pushTail, putTail, h.used_eq]
  used_le := Nat.lt_of_le_of_ne h.used_le hroom
  cells := by
    intro i b hb
    change (putTail q item).cell ((q.head + i) % q.length) = _
    have hlt := Nat.lt_of_le_of_ne h.used_le hroom
    have hused := h.used_eq
    rw [List.getElem?_append] at hb
    split_ifs at hb with hi
    · -- two positions less than a turn apart are different
      rw [putTail_cell, h.cells i b hb]
      rw [h.tail_eq]
      intro heq
      have := (Nat.ModEq.add_left_cancel' q.head heq).eq_of_lt_of_lt (by omega) hlt
      omega
    · rw [List.getElem?_singleton] at hb
      split_ifs at hb with hi'
      cases hb
      rw [show i = q.used by omega, ← h.tail_eq, putTail_cell_tail]
  alloc_eq := by
    change (if (q.rows (q.row q.tail)).isSome then q.alloc else q.alloc + q.rowSize) =
      fixed + q.rowSize * (putTail q item).allocated.card
    have hmem : q.row q.tail ∈ q.allocated ↔ (q.rows (q.row q.tail)).isSome := by
      simp [Fifo.allocated, row_lt h.tail_lt]
    rw [putTail_allocated item h.tail_lt, h.alloc_eq]
    split_ifs with hsome
    · rw [insert_eq_of_mem (hmem.mpr hsome)]
    · rw [card_insert_of_notMem (mt hmem.mp hsome), Nat.cast_succ]
      ring

theorem row_ne (hcol : q.col q.head = q.colMask)
    (hclear : q.used + q.colMask ≤ q.length) {i : ℕ} (hi : 0 < i) (hi' : i < q.used) :
    q.row ((q.head + i) % q.length) ≠ q.row q.head := by
  have hR : 0 < 2 ^ q.colShift := by positivity
  have hdiv := Nat.div_add_mod q.head (2 ^ q.colShift)
  have hlt := h.head_lt
  have hle := h.used_le
  rw [col_eq, Fifo.colMask] at hcol
  rw [Fifo.colMask] at hclear
  rw [row_eq, row_eq]
  by_cases hwrap : q.head + i < q.length
  · rw [Nat.mod_eq_of_lt hwrap]
    have : q.head / 2 ^ q.colShift + 1 ≤ (q.head + i) / 2 ^ q.colShift := by
      rw [Nat.le_div_iff_mul_le hR, add_mul, one_mul, mul_comm]
      omega
    omega
  · rw [Nat.mod_eq_sub_mod (by omega), Nat.mod_eq_of_lt (by omega)]
    have : (q.head + i - q.length) / 2 ^ q.colShift < q.head / 2 ^ q.colShift :=
      Nat.div_lt_of_lt_mul (by omega)
    omega

end

section
variable {a : α} (h : Holds fixed q (a :: items))
include h

theorem cell_head : q.cell q.head = some a := by
  simpa [Nat.mod_eq_of_lt h.head_lt] using h.cells 0 a rfl

theorem popped (hclear : q.col q.head = q.colMask → q.used + q.colMask ≤ q.length) :
    Holds fixed (popHead q) items where
  rowsNum_pow := h.rowsNum_pow
  rowSize_eq := h.rowSize_eq
  head_lt := by
    change q.inc q.head < q.length
    rw [h.inc_eq]
    exact Nat.mod_lt _ (Nat.zero_lt_of_lt h.head_lt)
  tail_eq := by
    change q.tail = (q.inc q.head + (q.used - 1)) % q.length
    have := h.used_eq
    rw [h.tail_eq, h.inc_eq, Nat.mod_add_mod, show q.head + 1 + (q.used - 1) = q.head + q.used by
      simp only [length_cons] at this; omega]
  used_eq := by simp [popHead, h.used_eq]
  used_le := (Nat.sub_le _ _).trans h.used_le
  cells := by
    intro i b hb
    change (popHead q).cell ((q.inc q.head + i) % q.length) = _
    rw [h.inc_eq, Nat.mod_add_mod, add_assoc, add_comm 1, popHead_cell, h.cells (i + 1) b hb]
    intro hcol
    refine h.row_ne hcol (hclear hcol) i.succ_pos ?_
    rw [h.used_eq]
    exact Nat.succ_lt_succ (List.getElem?_eq_some_iff.mp hb).1
  alloc_eq := by
    change (if q.col q.head = q.colMask then q.alloc - q.rowSize else q.alloc) =
      fixed + q.rowSize * (popHead q).allocated.card
    split_ifs with hcol
    · have hmem : q.row q.head ∈ q.allocated := by
        have hcell := h.cell_head
        simp only [Fifo.allocated, Finset.mem_filter, Finset.mem_range, row_lt h.head_lt, true_and]
        cases hrow : q.rows (q.row q.head) <;> simp [Fifo.cell, hrow] at hcell ⊢
      rw [popHead_allocated hcol, card_erase_of_mem hmem,
        Nat.cast_pred (card_pos.mpr ⟨_, hmem⟩), h.alloc_eq]
      ring
    · rw [h.alloc_eq]
      simp only [Fifo.allocated, popHead, if_neg hcol]

theorem step_pop (hget : q.getErr ≠ some .canceled) : step q .pop = .ok (popHead q, .popped a) := by
  have hused : q.used ≠ 0 := by simp [h.used_eq]
  rw [step, if_neg hget, if_neg hused, h.cell_head]

end

theorem step_still {op : Op α} (h : Holds fixed q items) (closed : Bool) (getErr : Option GetErr)
    {o : Out α} (hs : GuFifo.step q op = .ok ({ q with closed, getErr }, o))
    (ho : o.pushed? = none ∧ o.popped? = none) :
    ∃ q' o items', GuFifo.step q op = .ok (q', o) ∧ Holds fixed q' items' ∧
      items ++ o.pushed?.toList = o.popped?.toList ++ items' :=
  ⟨_, o, items, hs, ⟨h.rowsNum_pow, h.rowSize_eq, h.head_lt, h.tail_eq, h.used_eq, h.used_le,
    h.cells, h.alloc_eq⟩, by simp [ho]⟩

theorem step (h : Holds fixed q items) {op : Op α} (hclear : Clear q op) :
    ∃ q' o items', GuFifo.step q op = .ok (q', o) ∧ Holds fixed q' items' ∧
      items ++ o.pushed?.toList = o.popped?.toList ++ items' := by
  cases op with
  | push item =>
    by_cases hclosed : q.closed
    · exact h.step_still _ _ (if_pos hclosed) ⟨rfl, rfl⟩
    by_cases hfull : q.used = q.length
    · exact h.step_still _ _ ((if_neg hclosed).trans (if_pos hfull)) ⟨rfl, rfl⟩
    exact ⟨_, _, _, h.step_push (by simpa using hclosed) hfull item, h.pushed hfull item, rfl⟩
  | pop =>
    by_cases hget : q.getErr = some .canceled
    · exact h.step_still _ _ (if_pos hget) ⟨rfl, rfl⟩
    cases items with
    | nil =>
      refine h.step_still _ _ ((if_neg hget).trans (if_pos h.used_eq)) ?_
      split_ifs <;> exact ⟨rfl, rfl⟩
    | cons a items =>
      exact ⟨_, _, items, h.step_pop hget, h.popped fun hcol =>
        (hclear.resolve_left hget).resolve_left (not_not.mpr hcol), append_nil _⟩
  | close =>
    by_cases hclosed : q.closed
    · exact h.step_still _ _ (if_pos hclosed) ⟨rfl, rfl⟩
    · exact h.step_still _ _ (if_neg hclosed) ⟨rfl, rfl⟩
  | «open» => exact h.step_still _ _ rfl ⟨rfl, rfl⟩
  | cancelGets =>
    by_cases hget : q.getErr = some .canceled
    · exact h.step_still _ _ (if_pos hget) ⟨rfl, rfl⟩
    · exact h.step_still _ _ (if_neg hget) ⟨rfl, rfl⟩
  | resumeGets =>
    by_cases hget : q.getErr = some .canceled
    · exact h.step_still _ _ (if_pos hget) ⟨rfl, rfl⟩
    · exact h.step_still _ _ (if_neg hget) ⟨rfl, rfl⟩

theorem run {ops : List (Op α)} (h : Holds fixed q items)
    (hclear : Along GuFifo.step Clear q ops) :
    ∃ q' os items', Machine.run GuFifo.step q ops = .ok (q', os) ∧
      items ++ os.filterMap Out.pushed? = os.filterMap Out.popped? ++ items' ∧
      Holds fixed q' items' := by
  induction ops generalizing q items with
  | nil => exact ⟨q, [], items, rfl, by simp, h⟩
  | cons op ops ih =>
    obtain ⟨q1, o, items1, h1, hholds, heq⟩ := h.step hclear.1
    obtain ⟨q', os, items', hrun, heq', hholds'⟩ := ih hholds (hclear.2 q1 o h1)
    refine ⟨q', o :: os, items', run_cons_ok.mpr ⟨q1, o, os, h1, hrun, rfl⟩, ?_, hholds'⟩
    have hcons : ∀ f : Out α → Option α,
        (o :: os).filterMap f = (f o).toList ++ os.filterMap f := fun f => by
      cases hf : f o <;> simp [hf]
    rw [hcons, hcons, ← append_assoc, heq, append_assoc, heq', append_assoc]

end Holds

variable {fifoSize memLimit length itemSize : ℕ}

theorem create_holds (hq : create α fifoSize memLimit length itemSize = some q)
    (hsize : 2 ^ q.colShift * itemSize < 2 ^ 64) :
    Holds (fifoSize + q.rowsNum * 8 : ℕ) q [] := by
  unfold create at hq
  split_ifs at hq with hpos
  split at hq
  · cases hq
  next rowPwr arrayPwr hfit =>
    simp only at hq
    split_ifs at hq
    cases hq
    exact ⟨⟨arrayPwr, rfl⟩, Nat.mod_eq_of_lt hsize, by simp [Fifo.length], by simp, rfl, by simp,
      by simp, by simp [Fifo.allocated]⟩

/-- While the head leaves no row that the tail has come round to, what was pushed is what was
popped followed by what the queue still holds. -/
theorem fifo_of_clear {ops : List (Op α)}
    (hq : create α fifoSize memLimit length itemSize = some q)
    (hsize : 2 ^ q.colShift * itemSize < 2 ^ 64) (hclear : Along step Clear q ops) :
    ∃ q' os items, Machine.run step q ops = .ok (q', os) ∧
      os.filterMap Out.pushed? = os.filterMap Out.popped? ++ items ∧
      Holds (fifoSize + q.rowsNum * 8 : ℕ) q' items :=
  (create_holds hq hsize).run hclear

def small : Fifo ℕ :=
  { colShift := 10, rowsNum := 2, itemSize := 8, rowSize := 8192, head := 0, tail := 0, used := 0
    alloc := (256 + 16 : ℕ), closed := false, getErr := none, rows := fun _ => none }

theorem create_small : create ℕ 256 (2 ^ 33) 2048 8 = some small := by
  simp [create, fit, small]

theorem fifo_of_clear_small :
    create ℕ 256 (2 ^ 33) 2048 8 = some small ∧
      Along step Clear small [.push 3, .push 4, .pop, .close] ∧
      ∃ q os items, Machine.run step small [.push 3, .push 4, .pop, .close] = .ok (q, os) ∧
        os.filterMap Out.pushed? = os.filterMap Out.popped? ++ items ∧
        Holds (256 + 2 * 8 : ℕ) q items := by
  have hclear : Along step Clear small [.push 3, .push 4, .pop, .close] := by
    decide
  exact ⟨create_small, hclear, fifo_of_clear create_small (by decide) hclear⟩

/-- A run of `small` comes to `q`, which holds `items` from position `n` on. -/
structure Comes (n : ℕ) (q : Fifo ℕ) (items : List ℕ) : Prop where
  run : ∃ ops os, Machine.run step small ops = .ok (q, os)
  holds : Holds (256 + 2 * 8 : ℕ) q items
  head_eq : q.head = n
  same : q.colShift = 10 ∧ q.length = 2048 ∧ q.closed = false ∧ q.getErr = none

namespace Comes

variable {n : ℕ} {q q' : Fifo ℕ} {items : List ℕ}

theorem next {op : Op ℕ} {o : Out ℕ} (h : Comes n q items) (hs : step q op = .ok (q', o)) :
    ∃ ops os, Machine.run step small ops = .ok (q', os) := by
  obtain ⟨ops, os, hrun⟩ := h.run
  exact ⟨ops ++ [op], os ++ [o], run_append_ok.mpr ⟨q, os, [o], hrun,
    run_cons_ok.mpr ⟨q', o, [], hs, rfl, rfl⟩, rfl⟩⟩

theorem push (h : Comes n q items) (hroom : items.length < 2048) (item : ℕ) :
    Comes n (pushTail (putTail q item)) (items ++ [item]) := by
  have hne : q.used ≠ q.length := by
    rw [h.holds.used_eq, h.same.2.1]
    omega
  exact ⟨h.next (h.holds.step_push h.same.2.2.1 hne item), h.holds.pushed hne item,
    h.head_eq, h.same⟩

theorem step_pop {a : ℕ} (h : Comes n q (a :: items)) : step q .pop = .ok (popHead q, .popped a) :=
  h.holds.step_pop (by simp [h.same])

theorem head_popHead (h : Comes n q items) (hn : n < 2047) : (popHead q).head = n + 1 := by
  change q.inc q.head = _
  rw [h.holds.inc_eq, h.same.2.1, h.head_eq]
  omega

end Comes

theorem comes_empty (n : ℕ) (hn : n ≤ 1023) : ∃ q, Comes n q [] := by
  induction n with
  | zero =>
    exact ⟨small, ⟨[], [], rfl⟩, create_holds create_small (by decide), rfl, rfl, rfl, rfl, rfl⟩
  | succ n ih =>
    obtain ⟨q, hq⟩ := ih (by omega)
    have hq' := hq.push (by simp) 7
    have hcol : q.col q.head ≠ q.colMask := by
      rw [col_eq, Fifo.colMask, hq.same.1, hq.head_eq]
      omega
    exact ⟨_, hq'.next hq'.step_pop, hq'.holds.popped fun heq => absurd heq hcol,
      hq'.head_popHead (by omega), hq.same⟩

theorem comes_filled (n : ℕ) (hn : n ≤ 2048) : ∃ q, Comes 1023 q (List.replicate n 7) := by
  induction n with
  | zero => exact comes_empty 1023 le_rfl
  | succ n ih =>
    obtain ⟨q, hq⟩ := ih (by omega)
    rw [replicate_succ']
    exact ⟨_, hq.push (by rw [length_replicate]; omega) 7⟩

/-- The newest of 1025 items is in the row that was just freed. -/
theorem row_of_item_freed :
    create ℕ 256 (2 ^ 33) 2048 8 = some small ∧
      ∃ ops q os, Machine.run step small ops = .ok (q, os) ∧ q.used = 1025 ∧
        q.rows (q.row ((q.head + 1024) % q.length)) = none := by
  obtain ⟨q, hq⟩ := comes_filled 1026 (by omega)
  rw [replicate_succ] at hq
  obtain ⟨ops, os, hrun⟩ := hq.next hq.step_pop
  have hcol : q.col q.head = q.colMask := by
    rw [col_eq, Fifo.colMask, hq.same.1, hq.head_eq]
    rfl
  have hrow : (popHead q).row ((1023 + 1 + 1024) % (popHead q).length) = q.row q.head := by
    rw [show (popHead q).length = 2048 from hq.same.2.1, row_eq, row_eq,
      show (popHead q).colShift = 10 from hq.same.1, hq.same.1, hq.head_eq]
    rfl
  refine ⟨create_small, ops, _, os, hrun, ?_, ?_⟩
  · rw [show (popHead q).used = q.used - 1 from rfl, hq.holds.used_eq, length_cons,
      length_replicate]
  · rw [hq.head_popHead (by omega), hrow]
    simp only [popHead, if_pos hcol, update_self]

end Appstack.Galera.GuFifo
