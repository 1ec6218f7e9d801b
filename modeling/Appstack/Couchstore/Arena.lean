import Appstack.Lib.Areas
import Appstack.Lib.Machine

-- `arena.c`. Pointers are natural numbers, `NULL` is 0, and the address that `malloc` returns comes
-- with the call that makes it.

namespace Appstack.Couchstore.Arenas

open Appstack.Lib Areas List Machine

structure Chunk where
  addr : ℕ
  size : ℕ
  deriving DecidableEq

def Chunk.start (c : Chunk) : ℕ := c.addr + 16

def Chunk.stop (c : Chunk) : ℕ := c.start + c.size

/-- The chunks are those that `prev_chunk` leads to from `cur_chunk`. -/
structure Arena where
  nextBlock : ℕ
  stop : ℕ
  chunks : List Chunk
  chunkSize : ℕ
  deriving DecidableEq

def newArena (chunkSize : ℕ) : Arena :=
  { nextBlock := 0, stop := 0, chunks := []
    chunkSize := if chunkSize = 0 then 32768 - 16
      else ((chunkSize + 16 + 4096) % 2 ^ 64 / 4096 * 4096 + (2 ^ 64 - 16)) % 2 ^ 64 }

def request (size : ℕ) : ℕ := (16 + size) % 2 ^ 64

def Fresh (a : Arena) (size p : ℕ) : Prop :=
  p % 16 = 0 ∧ 0 < p ∧ ∀ c ∈ a.chunks, Apart p (request size) c.addr (request c.size)

instance (a : Arena) (size p : ℕ) : Decidable (Fresh a size p) :=
  inferInstanceAs (Decidable (_ ∧ _ ∧ _))

inductive Fault where
  | malloc
  | mark
  deriving DecidableEq

def addChunk (a : Arena) (size p : ℕ) : Except Fault (Arena × ℕ) :=
  let chunk : Chunk := ⟨p, max a.chunkSize size⟩
  if Fresh a chunk.size p then
    .ok ({ a with
      nextBlock := chunk.start + size, stop := chunk.stop, chunks := chunk :: a.chunks }, chunk.start)
  else .error .malloc

def arenaAllocUnaligned (a : Arena) (size p : ℕ) : Except Fault (Arena × ℕ) :=
  if a.stop < a.nextBlock + size ∨ a.chunkSize < size then addChunk a size p
  else .ok ({ a with nextBlock := a.nextBlock + size }, a.nextBlock)

def padding (a : Arena) : ℕ := if a.nextBlock % 4 = 0 then 0 else 4 - a.nextBlock % 4

def arenaAlloc (a : Arena) (size p : ℕ) : Except Fault (Arena × ℕ) :=
  (arenaAllocUnaligned a ((size + padding a) % 2 ^ 64) p).map fun r => (r.1, r.2 + padding a)

def arenaFreeFromMark (a : Arena) (mark : ℕ) : Arena :=
  let chunks := a.chunks.dropWhile fun c => mark < c.start || c.stop < mark
  { a with nextBlock := mark, stop := (chunks.head?.map Chunk.stop).getD 0, chunks }

structure Block where
  aligned : Bool
  addr : ℕ
  size : ℕ
  deriving DecidableEq

/-- What the clients hold: blocks, and marks with the arena as it was then. -/
inductive Entry where
  | block (b : Block)
  | mark (a : Arena)
  deriving DecidableEq

/-- The blocks that are not freed and the marks before which nothing is freed, newest first. -/
structure State where
  arena : Arena
  held : List Entry

inductive Op where
  | alloc (size p : ℕ)
  | allocUnaligned (size p : ℕ)
  | mark
  | freeFromMark (n : ℕ)

def step (s : State) : Op → Except Fault (State × Unit)
  | .alloc size p =>
    (arenaAlloc s.arena size p).map fun r => (⟨r.1, .block ⟨true, r.2, size⟩ :: s.held⟩, ())
  | .allocUnaligned size p =>
    (arenaAllocUnaligned s.arena size p).map fun r =>
      (⟨r.1, .block ⟨false, r.2, size⟩ :: s.held⟩, ())
  | .mark => .ok (⟨s.arena, .mark s.arena :: s.held⟩, ())
  | .freeFromMark n =>
    match s.held.drop n with
    | .mark a :: held => .ok (⟨arenaFreeFromMark s.arena a.nextBlock, .mark a :: held⟩, ())
    | _ => .error .mark

def Entry.block? : Entry → Option Block
  | .block b => some b
  | .mark _ => none

def blocks (held : List Entry) : List Block := held.filterMap Entry.block?

/-- Aligned where asked for, inside a chunk, and apart from each other. -/
structure Good (s : State) : Prop where
  aligned : ∀ b ∈ blocks s.held, b.aligned → b.addr % 4 = 0
  inside : ∀ b ∈ blocks s.held, ∃ c ∈ s.arena.chunks, c.start ≤ b.addr ∧ b.addr + b.size ≤ c.stop
  apart : (blocks s.held).Pairwise fun b b' => Apart b.addr b.size b'.addr b'.size

/-- No size wraps around, no empty block is asked for before the first chunk, and no chunk is
added for a block that was padded. -/
def Clear (s : State) : Op → Prop
  | .alloc size _ => max s.arena.chunkSize size + 19 < 2 ^ 64 ∧ (0 < size ∨ s.arena.chunks ≠ []) ∧
      (padding s.arena = 0 ∨ s.arena.nextBlock + (size + padding s.arena) ≤ s.arena.stop ∧
        size + padding s.arena ≤ s.arena.chunkSize)
  | .allocUnaligned size _ =>
    max s.arena.chunkSize size + 19 < 2 ^ 64 ∧ (0 < size ∨ s.arena.chunks ≠ [])
  | _ => True

instance (s : State) : DecidablePred (Clear s)
  | .alloc _ _ => inferInstanceAs (Decidable (_ ∧ _ ∧ _))
  | .allocUnaligned _ _ => inferInstanceAs (Decidable (_ ∧ _))
  | .mark | .freeFromMark _ => inferInstanceAs (Decidable True)

/-- The current chunk is the newest one, and every chunk is a range of its own. -/
structure Ok (a : Arena) : Prop where
  current : match a.chunks with
    | [] => a.nextBlock = 0 ∧ a.stop = 0
    | c :: _ => c.start ≤ a.nextBlock ∧ a.nextBlock ≤ a.stop ∧ a.stop = c.stop
  chunk : ∀ c ∈ a.chunks, c.addr % 16 = 0 ∧ request c.size = 16 + c.size
  apart : a.chunks.Pairwise fun c c' => Apart c.addr (16 + c.size) c'.addr (16 + c'.size)

def Placed (a : Arena) (addr size : ℕ) : Prop :=
  ∃ c ∈ a.chunks, c.start ≤ addr ∧ addr + size ≤ c.stop ∧
    (a.chunks.head? = some c → addr + size ≤ a.nextBlock)

/-- The arena has come from `a₀` without freeing below it. -/
structure After (a a₀ : Arena) : Prop where
  chunks : a₀.chunks <:+ a.chunks
  chunkSize : a.chunkSize = a₀.chunkSize
  nextBlock : a.chunks = a₀.chunks → a₀.nextBlock ≤ a.nextBlock

/-- Every block lies below the place where the arena was when it was allocated, or marked since. -/
inductive Sound : Arena → List Entry → Prop
  | nil {a} (ha : Ok a) : Sound a []
  | block {a held b} (hs : Sound a held) (hb : Placed a b.addr b.size) : Sound a (.block b :: held)
  | mark {a a₀ held} (hs : Sound a₀ held) (ha : Ok a) (h : After a a₀) : Sound a (.mark a₀ :: held)

variable {a a₀ a₁ a' : Arena} {addr size p n : ℕ} {held held' : List Entry} {s s' : State} {b : Block}

theorem After.rfl : After a a := ⟨suffix_rfl, Eq.refl _, fun _ => le_rfl⟩

theorem After.trans (h : After a a₁) (h' : After a₁ a₀) : After a a₀ := by
  refine ⟨h'.chunks.trans h.chunks, h.chunkSize.trans h'.chunkSize, fun heq => ?_⟩
  have h1 : a₁.chunks = a₀.chunks :=
    (h.chunks.eq_of_length_le (by rw [heq]; exact h'.chunks.length_le)).trans heq
  exact (h'.nextBlock h1).trans (h.nextBlock (heq.trans h1.symm))

theorem Placed.after (h : Placed a₀ addr size) (hafter : After a a₀) (ha : Ok a) :
    Placed a addr size := by
  obtain ⟨c, hc, hstart, hstop, hnext⟩ := h
  refine ⟨c, hafter.chunks.subset hc, hstart, hstop, fun hhead => ?_⟩
  obtain ⟨newer, heq⟩ := hafter.chunks
  cases newer with
  | nil =>
    rw [← heq, nil_append] at hhead
    exact (hnext hhead).trans (hafter.nextBlock heq.symm)
  | cons c' newer =>
    -- no chunk is apart from itself
    have hapart := ha.apart
    rw [← heq, cons_append] at hhead hapart
    cases hhead
    have := rel_of_pairwise_cons hapart (mem_append_right newer hc)
    unfold Apart at this
    omega

theorem Sound.ok (h : Sound a held) : Ok a := by
  induction h with
  | nil ha => exact ha
  | block _ _ ih => exact ih
  | mark _ ha _ _ => exact ha

theorem Sound.after (h : Sound a₀ held) (hafter : After a a₀) (ha : Ok a) : Sound a held := by
  induction h with
  | nil _ => exact .nil ha
  | block _ hb ih => exact .block (ih hafter) (hb.after hafter ha)
  | mark hs _ h _ => exact .mark hs ha (hafter.trans h)

theorem Sound.placed (h : Sound a held) (hb : b ∈ blocks held) : Placed a b.addr b.size := by
  induction h with
  | nil _ => cases hb
  | block _ hb' ih =>
    obtain rfl | hb := mem_cons.mp hb
    · exact hb'
    · exact ih hb
  | mark _ ha h ih => exact (ih hb).after h ha

theorem Sound.drop (h : Sound a held) (hn : held.drop n = .mark a₀ :: held') :
    Sound a₀ (.mark a₀ :: held') ∧ After a a₀ := by
  induction h generalizing n with
  | nil _ => simp at hn
  | block _ _ ih =>
    cases n with
    | zero => cases hn
    | succ n => exact ih hn
  | mark hs _ h ih =>
    cases n with
    | zero =>
      cases hn
      exact ⟨.mark hs hs.ok .rfl, h⟩
    | succ n => exact ⟨(ih hn).1, h.trans (ih hn).2⟩

theorem Ok.nextBlock_mem {c : Chunk} {cs : List Chunk} (ha : Ok a) (hcs : a.chunks = c :: cs) :
    c.start ≤ a.nextBlock ∧ a.nextBlock ≤ c.stop ∧ a.stop = c.stop := by
  have h := ha.current
  rw [hcs] at h
  exact ⟨h.1, h.2.2 ▸ h.2.1, h.2.2⟩

/-- The walk over the chunks stops where the arena was when it was marked. -/
theorem arenaFreeFromMark_eq (ha : Ok a) (h0 : Ok a₀) (h : After a a₀) :
    arenaFreeFromMark a a₀.nextBlock = a₀ := by
  obtain ⟨newer, heq⟩ := h.chunks
  have hdrop : (a.chunks.dropWhile fun c =>
      a₀.nextBlock < c.start || c.stop < a₀.nextBlock) = a₀.chunks := by
    rw [← heq, dropWhile_append_of_pos]
    · cases hcs : a₀.chunks with
      | nil => rfl
      | cons c cs =>
        have := h0.nextBlock_mem hcs
        rw [dropWhile_cons_of_neg]
        simp
        omega
    · intro c hc
      rw [Bool.or_eq_true, decide_eq_true_iff, decide_eq_true_iff]
      cases hcs : a₀.chunks with
      | nil =>
        have hcur := h0.current
        rw [hcs] at hcur
        unfold Chunk.start
        omega
      | cons c0 cs =>
        have hmem := h0.nextBlock_mem hcs
        have hapart := ha.apart
        rw [← heq, hcs] at hapart
        have := (pairwise_append.mp hapart).2.2 c hc c0 (.head _)
        simp only [Apart, Chunk.stop, Chunk.start] at *
        omega
  have hstop : (a₀.chunks.head?.map Chunk.stop).getD 0 = a₀.stop := by
    cases hcs : a₀.chunks with
    | nil =>
      have hcur := h0.current
      rw [hcs] at hcur
      exact hcur.2.symm
    | cons c cs => exact (h0.nextBlock_mem hcs).2.2.symm
  simp only [arenaFreeFromMark, hdrop, hstop, h.chunkSize]

/-- An allocation goes on from where the arena is, and takes a range that no block has. -/
theorem arenaAllocUnaligned_spec (ha : Ok a) (hsize : max a.chunkSize size + 16 < 2 ^ 64)
    (hne : 0 < size ∨ a.chunks ≠ []) (h : arenaAllocUnaligned a size p = .ok (a', addr)) :
    Ok a' ∧ After a' a ∧ Placed a' addr size ∧ ∀ x lx, Placed a x lx → Apart addr size x lx := by
  unfold arenaAllocUnaligned at h
  split_ifs at h with hnew
  · simp only [addChunk] at h
    split_ifs at h with hfresh
    cases h
    obtain ⟨halign, hpos, hfresh⟩ := hfresh
    have hreq : request (max a.chunkSize size) = 16 + max a.chunkSize size :=
      Nat.mod_eq_of_lt (by omega)
    have hapart : ∀ c ∈ a.chunks, Apart p (16 + max a.chunkSize size) c.addr (16 + c.size) := by
      intro c hc
      have := hfresh c hc
      rwa [hreq, (ha.chunk c hc).2] at this
    refine ⟨⟨?_, ?_, ?_⟩, ⟨suffix_cons _ _, rfl, ?_⟩, ⟨_, .head _, ?_⟩, ?_⟩
    · simp [Chunk.stop, Chunk.start]
    · exact forall_mem_cons.mpr ⟨⟨halign, hreq⟩, ha.chunk⟩
    · exact pairwise_cons.mpr ⟨hapart, ha.apart⟩
    · intro heq
      simp at heq
    · simp [Chunk.stop, Chunk.start]
    · rintro x lx ⟨c, hc, hstart, hstop, -⟩
      refine (hapart c hc).within ?_ ?_ <;> simp only [Chunk.stop, Chunk.start] at * <;> omega
  · cases h
    have hnil : a.chunks ≠ [] := by
      intro hcs
      have hcur := ha.current
      rw [hcs] at hcur
      simp only [hcs, ne_eq, not_true_eq_false, or_false] at hne
      omega
    obtain ⟨c, cs, hcs⟩ := exists_cons_of_ne_nil hnil
    obtain ⟨hstart, hle, hstop⟩ := ha.nextBlock_mem hcs
    refine ⟨⟨?_, ha.chunk, ha.apart⟩, ⟨suffix_rfl, rfl, fun _ => Nat.le_add_right _ _⟩,
      ⟨c, hcs ▸ mem_cons_self, hstart, by omega, fun _ => le_rfl⟩, ?_⟩
    · simp only [hcs]
      omega
    · rintro x lx ⟨c', hc', hstart', hstop', hnext⟩
      have hapart := ha.apart
      rw [hcs] at hc' hnext hapart
      obtain rfl | hc' := mem_cons.mp hc'
      · exact .inr (hnext rfl)
      · refine (rel_of_pairwise_cons hapart hc').within ?_ ?_ <;>
          simp only [Chunk.stop, Chunk.start] at * <;> omega

theorem addr_mod (hnext : a.nextBlock % 4 = 0)
    (h : arenaAllocUnaligned a size p = .ok (a', addr)) : addr % 4 = 0 := by
  unfold arenaAllocUnaligned at h
  split_ifs at h
  · simp only [addChunk] at h
    split_ifs at h with hfresh
    cases h
    have := hfresh.1
    simp only [Chunk.start]
    omega
  · cases h
    exact hnext

theorem map_eq_ok {β γ : Type*} {x : Except Fault β} {f : β → γ} {y : γ} (h : x.map f = .ok y) :
    ∃ r, x = .ok r ∧ f r = y := by
  cases x with
  | error e => cases h
  | ok r => exact ⟨r, rfl, Except.ok.inj h⟩

theorem arenaAlloc_spec (ha : Ok a) (hsize : max a.chunkSize size + 19 < 2 ^ 64)
    (hne : 0 < size ∨ a.chunks ≠ [])
    (hpad : padding a = 0 ∨
      a.nextBlock + (size + padding a) ≤ a.stop ∧ size + padding a ≤ a.chunkSize)
    (h : arenaAlloc a size p = .ok (a', addr)) :
    Ok a' ∧ After a' a ∧ Placed a' addr size ∧ (∀ x lx, Placed a x lx → Apart addr size x lx) ∧
      addr % 4 = 0 := by
  obtain ⟨⟨a', start⟩, hr, heq⟩ := map_eq_ok h
  cases heq
  have hlt : padding a < 4 := by
    unfold padding
    split_ifs <;> omega
  rw [Nat.mod_eq_of_lt (by omega)] at hr
  obtain ⟨ha', hafter, ⟨c, hc, hstart, hstop, hnext⟩, hapart⟩ :=
    arenaAllocUnaligned_spec ha (by omega) (hne.imp_left (by omega)) hr
  refine ⟨ha', hafter, ⟨c, hc, ?_, ?_, ?_⟩, ?_, ?_⟩
  · exact hstart.trans (Nat.le_add_right _ _)
  · exact le_of_eq_of_le (by omega) hstop
  · exact fun hhead => le_of_eq_of_le (by omega) (hnext hhead)
  · exact fun x lx hx => (hapart x lx hx).within (by omega) (by omega)
  · rcases hpad with hzero | hroom
    · rw [hzero, Nat.add_zero]
      refine addr_mod (by_contra fun hne => ?_) hr
      rw [padding, if_neg hne] at hzero
      omega
    · rw [arenaAllocUnaligned, if_neg (by omega)] at hr
      cases hr
      unfold padding
      split_ifs <;> omega

theorem Sound.good (hs : Sound a held) (haligned : ∀ b ∈ blocks held, b.aligned → b.addr % 4 = 0)
    (hapart : (blocks held).Pairwise fun b b' => Apart b.addr b.size b'.addr b'.size) :
    Good ⟨a, held⟩ := by
  refine ⟨haligned, fun b hb => ?_, hapart⟩
  obtain ⟨c, hc, hstart, hstop, -⟩ := hs.placed hb
  exact ⟨c, hc, hstart, hstop⟩

theorem push (hgood : Good s) (hs : Sound s.arena s.held) (ha : Ok a) (hafter : After a s.arena)
    (hb : Placed a b.addr b.size)
    (hapart : ∀ x lx, Placed s.arena x lx → Apart b.addr b.size x lx)
    (halign : b.aligned → b.addr % 4 = 0) :
    Sound a (.block b :: s.held) ∧ Good ⟨a, .block b :: s.held⟩ := by
  have hsound : Sound a (.block b :: s.held) := .block (hs.after hafter ha) hb
  exact ⟨hsound, hsound.good (forall_mem_cons.mpr ⟨halign, hgood.aligned⟩)
    (pairwise_cons.mpr ⟨fun b' hb' => hapart _ _ (hs.placed hb'), hgood.apart⟩)⟩

theorem sound_step {op : Op} {o : Unit} (h : Sound s.arena s.held ∧ Good s) (hclear : Clear s op)
    (hs : step s op = .ok (s', o)) : Sound s'.arena s'.held ∧ Good s' := by
  obtain ⟨hsound, hgood⟩ := h
  have hok := hsound.ok
  cases op with
  | alloc size p =>
    obtain ⟨⟨a, addr⟩, hr, heq⟩ := map_eq_ok hs
    cases heq
    obtain ⟨ha, hafter, hplaced, hapart, halign⟩ :=
      arenaAlloc_spec hok hclear.1 hclear.2.1 hclear.2.2 hr
    exact push hgood hsound ha hafter hplaced hapart fun _ => halign
  | allocUnaligned size p =>
    obtain ⟨⟨a, addr⟩, hr, heq⟩ := map_eq_ok hs
    cases heq
    have hsize := hclear.1
    obtain ⟨ha, hafter, hplaced, hapart⟩ :=
      arenaAllocUnaligned_spec hok (by omega) hclear.2 hr
    exact push hgood hsound ha hafter hplaced hapart nofun
  | mark =>
    cases hs
    exact ⟨.mark hsound hok .rfl, hgood.aligned, hgood.inside, hgood.apart⟩
  | freeFromMark n =>
    rw [step] at hs
    split at hs
    next a held hheld =>
      cases hs
      obtain ⟨hmark, hafter⟩ := hsound.drop hheld
      rw [arenaFreeFromMark_eq hok hmark.ok hafter]
      have hsub : (blocks (.mark a :: held)).Sublist (blocks s.held) :=
        hheld ▸ (drop_sublist n s.held).filterMap _
      exact ⟨hmark, hmark.good (fun b hb => hgood.aligned b (hsub.subset hb))
        (hgood.apart.sublist hsub)⟩
    · cases hs

/-- As long as no chunk is added for a padded block, the blocks of an arena are aligned and
disjoint. -/
theorem good_throughout (chunkSize : ℕ) (ops : List Op)
    (hclear : Along step Clear ⟨newArena chunkSize, []⟩ ops) :
    Throughout step Good ⟨newArena chunkSize, []⟩ ops :=
  throughout_of_along (fun _ _ _ _ => sound_step) (fun _ h => h.2)
    ⟨.nil ⟨⟨rfl, rfl⟩, nofun, .nil⟩, nofun, nofun, .nil⟩ hclear

def clearOps : List Op :=
  [.allocUnaligned 1 64, .alloc 8 0, .mark, .alloc 40000 65536, .freeFromMark 1, .alloc 8 0]

theorem good_throughout_clear :
    Along step Clear ⟨newArena 0, []⟩ clearOps ∧ (run step ⟨newArena 0, []⟩ clearOps).isOk ∧
      Throughout step Good ⟨newArena 0, []⟩ clearOps := by
  have hclear : Along step Clear ⟨newArena 0, []⟩ clearOps := by decide
  exact ⟨hclear, by decide, good_throughout 0 clearOps hclear⟩

/-- The padding for the old chunk misaligns the first block of the new one. -/
theorem misaligned :
    (run step ⟨newArena 0, []⟩ [.allocUnaligned 1 64, .alloc 32752 65536]).toOption.map
      (fun r => blocks r.1.held) = some [⟨true, 65555, 32752⟩, ⟨false, 80, 1⟩] ∧ 65555 % 4 ≠ 0 := by
  decide

/-- Freeing back to any mark that is held gives the arena that was marked. -/
def Restores (s : State) : Prop :=
  ∀ n a held, s.held.drop n = .mark a :: held → arenaFreeFromMark s.arena a.nextBlock = a

theorem restores_throughout (chunkSize : ℕ) (ops : List Op)
    (hclear : Along step Clear ⟨newArena chunkSize, []⟩ ops) :
    Throughout step Restores ⟨newArena chunkSize, []⟩ ops := by
  refine throughout_of_along (fun _ _ _ _ => sound_step) (fun s h n a held hmark => ?_)
    ⟨.nil ⟨⟨rfl, rfl⟩, nofun, .nil⟩, nofun, nofun, .nil⟩ hclear
  obtain ⟨hsound, hafter⟩ := h.1.drop hmark
  exact arenaFreeFromMark_eq h.1.ok hsound.ok hafter

theorem restores_throughout_clear : Throughout step Restores ⟨newArena 0, []⟩ clearOps :=
  restores_throughout 0 clearOps (by decide)

end Appstack.Couchstore.Arenas
