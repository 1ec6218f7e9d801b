import Appstack.EpEngine.TapProducer

namespace Appstack.EpEngine

open Lib.Chains List Lib.Machine

variable {κ : Type}

namespace TapMessage

/-- What the message is about. An item that is read again when it is sent may turn from a mutation
of its key into a deletion. -/
def subject (m : TapMessage κ) : TapMessage κ :=
  match m.body with
  | .item key _ => { m with body := .item key .set }
  | _ => m

inductive Place
  | queue | checkpoint | high | low | none
  deriving DecidableEq, Repr

/-- The list that the message is put in, and `none` for states of a vbucket that are not sent. -/
def place (m : TapMessage κ) : Place :=
  match m.body with
  | .item _ _ => .queue
  | .checkpoint _ _ => .checkpoint
  | .vbucketSet .pending | .opaqueMsg _ => .high
  | .vbucketSet .active => .low
  | .vbucketSet _ => .none

theorem subject_vbucket (m : TapMessage κ) : m.subject.vbucket = m.vbucket := by
  obtain ⟨tag, vb, body⟩ := m
  cases body <;> rfl

theorem subject_counts (m : TapMessage κ) : m.subject.counts = m.counts := by
  obtain ⟨tag, vb, body⟩ := m
  cases body <;> rfl

end TapMessage

namespace TapProducer

/-- The messages of the log and of the queues, and those whose value is being read. -/
def pending (p : TapProducer κ) : List (TapMessage κ) :=
  p.tapLog.map TapLogElement.message ++ p.queue ++ p.checkpointMsgs ++ p.vBucketHighPriority ++
    p.vBucketLowPriority ++ p.bgJobs ++ p.backfilledItems

@[grind =]
theorem mem_pending {p : TapProducer κ} {m : TapMessage κ} :
    m ∈ p.pending ↔ (∃ e ∈ p.tapLog, e.message = m) ∨ m ∈ p.queue ∨ m ∈ p.checkpointMsgs ∨
      m ∈ p.vBucketHighPriority ∨ m ∈ p.vBucketLowPriority ∨ m ∈ p.bgJobs ∨
      m ∈ p.backfilledItems := by
  simp only [pending, mem_append, mem_map, or_assoc]

/-- A message about the same is in the log or on its way to it. -/
def Holds (p : TapProducer κ) (m : TapMessage κ) : Prop :=
  ∃ x ∈ p.pending, x.subject = m.subject

/-- Every list has the messages that the functions put there. Those of the log passed the filter,
except for opaque ones. -/
structure Ok (cfg : TapConfig) (p : TapProducer κ) : Prop where
  log : ∀ e ∈ p.tapLog, e.message.place ≠ .none ∧
    (e.message.counts → cfg.vbucketFilter e.message.vbucket)
  queue : ∀ m ∈ p.queue, m.place = .queue ∧ cfg.vbucketFilter m.vbucket
  bgJobs : ∀ m ∈ p.bgJobs, m.place = .queue
  backfilled : ∀ m ∈ p.backfilledItems, m.place = .queue
  checkpoint : ∀ m ∈ p.checkpointMsgs, m.place = .checkpoint
  high : ∀ m ∈ p.vBucketHighPriority, m.place = .high
  low : ∀ m ∈ p.vBucketLowPriority, m.place = .low ∧ cfg.vbucketFilter m.vbucket

/-- Between two states no message is lost that may be sent, unless the peer acknowledged it. -/
structure Moves (cfg : TapConfig) (p p' : TapProducer κ) (acked : List (TapMessage κ)) : Prop where
  ok : p.Ok cfg → p'.Ok cfg
  kept : p.Ok cfg → ∀ m ∈ p.pending, m.counts → cfg.vbucketFilter m.vbucket →
    p'.Holds m ∨ ∃ a ∈ acked, a.subject = m.subject

variable {cfg : TapConfig} {p p' p'' : TapProducer κ} {acked : List (TapMessage κ)}
  {m : TapMessage κ}

theorem Holds.of_mem (h : m ∈ p.pending) : p.Holds m := ⟨m, h, rfl⟩

theorem Moves.trans (h : Moves cfg p p' []) (h' : Moves cfg p' p'' acked) :
    Moves cfg p p'' acked where
  ok := fun hp => h'.ok (h.ok hp)
  kept := by
    intro hp m hm hc hf
    obtain ⟨x, hx, hs⟩ | ⟨a, ha, -⟩ := h.kept hp m hm hc hf
    · have hxc : x.counts := by rw [← TapMessage.subject_counts, hs, TapMessage.subject_counts, hc]
      have hxf : cfg.vbucketFilter x.vbucket := by
        rw [← TapMessage.subject_vbucket, hs, TapMessage.subject_vbucket, hf]
      unfold Holds
      rw [← hs]
      exact h'.kept (h.ok hp) x hx hxc hxf
    · cases ha

structure SameLists (p p' : TapProducer κ) : Prop where
  log : p'.tapLog = p.tapLog
  queue : p'.queue = p.queue
  checkpoint : p'.checkpointMsgs = p.checkpointMsgs
  high : p'.vBucketHighPriority = p.vBucketHighPriority
  low : p'.vBucketLowPriority = p.vBucketLowPriority
  bgJobs : p'.bgJobs = p.bgJobs
  backfilled : p'.backfilledItems = p.backfilledItems

theorem SameLists.pending (h : SameLists p p') : p'.pending = p.pending := by
  simp only [TapProducer.pending, h.log, h.queue, h.checkpoint, h.high, h.low, h.bgJobs,
    h.backfilled]

theorem SameLists.moves (h : SameLists p p') : Moves cfg p p' [] where
  ok := fun hp => {
    log := h.log ▸ hp.log
    queue := h.queue ▸ hp.queue
    bgJobs := h.bgJobs ▸ hp.bgJobs
    backfilled := h.backfilled ▸ hp.backfilled
    checkpoint := h.checkpoint ▸ hp.checkpoint
    high := h.high ▸ hp.high
    low := h.low ▸ hp.low }
  kept := fun _ _ hm _ _ => .inl (.of_mem (h.pending ▸ hm))

theorem updateState_sameLists (p : TapProducer κ) (vb : BitVec 16)
    (f : TapCheckpointState → TapCheckpointState) : SameLists p (p.updateState vb f) :=
  ⟨rfl, rfl, rfl, rfl, rfl, rfl, rfl⟩

theorem requestAck_sameLists (cfg : TapConfig) (p : TapProducer κ) (m : TapMessage κ) :
    SameLists p (p.requestAck cfg m) := by
  unfold requestAck
  dsimp only
  split_ifs <;> exact ⟨rfl, rfl, rfl, rfl, rfl, rfl, rfl⟩

theorem received_sameLists (p : TapProducer κ) (s : BitVec 32) : SameLists p (p.received s) := by
  unfold received
  dsimp only
  split_ifs <;> exact ⟨rfl, rfl, rfl, rfl, rfl, rfl, rfl⟩

theorem acknowledged_sameLists (cfg : TapConfig) (p : TapProducer κ) (m : TapMessage κ) :
    SameLists p (p.acknowledged cfg m) := by
  unfold acknowledged
  split
  · dsimp only
    split_ifs <;> exact ⟨rfl, rfl, rfl, rfl, rfl, rfl, rfl⟩
  · exact ⟨rfl, rfl, rfl, rfl, rfl, rfl, rfl⟩
  · exact ⟨rfl, rfl, rfl, rfl, rfl, rfl, rfl⟩

theorem forall_mem_concat {l : List (TapMessage κ)} {P : TapMessage κ → Prop}
    (h : ∀ x ∈ l, P x) (hm : P m) : ∀ x ∈ l ++ [m], P x :=
  forall_mem_append.mpr ⟨h, forall_mem_singleton.mpr hm⟩

theorem addEvent_moves (hm : m.place = .queue) : Moves cfg p (p.addEvent cfg m) [] := by
  unfold addEvent
  split_ifs with hf
  · exact ⟨fun hp => { hp with queue := forall_mem_concat hp.queue ⟨hm, hf⟩ },
      by grind [Holds.of_mem]⟩
  · exact SameLists.moves ⟨rfl, rfl, rfl, rfl, rfl, rfl, rfl⟩

theorem addCheckpointMessage_moves (hm : m.place = .checkpoint) :
    Moves cfg p (p.addCheckpointMessage m) [] where
  ok := fun hp => { hp with checkpoint := forall_mem_concat hp.checkpoint hm }
  kept := by grind [Holds.of_mem, addCheckpointMessage]

theorem addVBucketHighPriority_moves (hm : m.place = .high) :
    Moves cfg p (p.addVBucketHighPriority m) [] where
  ok := fun hp => { hp with high := forall_mem_concat hp.high hm }
  kept := by grind [Holds.of_mem, addVBucketHighPriority]

theorem addVBucketLowPriority_moves (hm : m.place = .low) (hf : cfg.vbucketFilter m.vbucket) :
    Moves cfg p (p.addVBucketLowPriority m) [] where
  ok := fun hp => { hp with low := forall_mem_concat hp.low ⟨hm, hf⟩ }
  kept := by grind [Holds.of_mem, addVBucketLowPriority]

theorem completeBGFetchJob_moves (hm : m.place = .queue) :
    Moves cfg p (p.completeBGFetchJob cfg m) [] := by
  unfold completeBGFetchJob
  split_ifs
  · exact ⟨fun hp => { hp with backfilled := forall_mem_concat hp.backfilled hm },
      by grind [Holds.of_mem]⟩
  · exact SameLists.moves ⟨rfl, rfl, rfl, rfl, rfl, rfl, rfl⟩

theorem mem_addEvent (hf : cfg.vbucketFilter m.vbucket) : m ∈ (p.addEvent cfg m).pending := by
  unfold addEvent
  rw [if_pos hf, mem_pending]
  exact .inr (.inl (mem_append_right _ (.head _)))

theorem mem_completeBGFetchJob (hf : cfg.vbucketFilter m.vbucket) :
    m ∈ (p.completeBGFetchJob cfg m).pending := by
  unfold completeBGFetchJob
  rw [if_pos hf, mem_pending]
  simp

theorem place_of_isItem (h : m.isItem) : m.place = .queue := by
  obtain ⟨tag, vb, body⟩ := m
  cases body with
  | item key op => rfl
  | checkpoint start id => cases h
  | vbucketSet st => cases h
  | opaqueMsg command => cases h

theorem refill_moves (isLastItem : Bool) : Moves cfg p (p.refill cfg m isLastItem) [] := by
  obtain ⟨tag, vb, body⟩ := m
  have hsame : ∀ f, Moves cfg p (p.updateState vb f) [] := by
    intro f
    exact (updateState_sameLists p vb f).moves
  cases body with
  | item key op => exact (hsame _).trans (addEvent_moves rfl)
  | checkpoint start id =>
    cases start with
    | true =>
      unfold refill
      dsimp only
      split_ifs
      · exact (hsame _).trans (addCheckpointMessage_moves rfl)
      · exact SameLists.moves ⟨rfl, rfl, rfl, rfl, rfl, rfl, rfl⟩
    | false =>
      unfold refill
      dsimp only
      by_cases hsync : cfg.supportCheckpointSync
      · rw [if_pos hsync]
        split_ifs
        all_goals first
          | exact (hsame _).trans (addCheckpointMessage_moves rfl)
          | exact hsame _
      · rw [if_neg hsync]
        exact SameLists.moves ⟨rfl, rfl, rfl, rfl, rfl, rfl, rfl⟩
  | vbucketSet st => exact SameLists.moves ⟨rfl, rfl, rfl, rfl, rfl, rfl, rfl⟩
  | opaqueMsg command => exact addVBucketHighPriority_moves rfl

theorem reschedule_moves (hm : m.place ≠ .none) (hf : m.counts → cfg.vbucketFilter m.vbucket) :
    Moves cfg p (p.reschedule cfg m) [] := by
  obtain ⟨tag, vb, body⟩ := m
  cases body with
  | item key op =>
    unfold reschedule
    dsimp only
    split_ifs
    · exact (updateState_sameLists p _ _).moves.trans (addEvent_moves rfl)
    · exact addEvent_moves rfl
  | checkpoint start id =>
    refine Moves.trans (SameLists.moves ?_) (addCheckpointMessage_moves rfl)
    exact ⟨rfl, rfl, rfl, rfl, rfl, rfl, rfl⟩
  | vbucketSet st =>
    cases st with
    | pending => exact addVBucketHighPriority_moves rfl
    | active => exact addVBucketLowPriority_moves rfl (hf rfl)
    | replica => exact absurd rfl hm
    | dead => exact absurd rfl hm
  | opaqueMsg command =>
    refine Moves.trans (SameLists.moves ?_) (addVBucketHighPriority_moves rfl)
    exact ⟨rfl, rfl, rfl, rfl, rfl, rfl, rfl⟩

theorem reschedule_holds (hm : m.counts) (hf : cfg.vbucketFilter m.vbucket) :
    m ∈ (p.reschedule cfg m).pending := by
  obtain ⟨tag, vb, body⟩ := m
  rw [mem_pending]
  cases body with
  | item key op =>
    exact mem_pending.mp (mem_addEvent hf)
  | checkpoint start id =>
    exact .inr (.inr (.inl (mem_append_right _ (.head _))))
  | vbucketSet st =>
    cases st with
    | pending => exact .inr (.inr (.inr (.inl (mem_append_right _ (.head _)))))
    | active =>
      exact .inr (.inr (.inr (.inr (.inl (mem_append_right _ (.head _))))))
    | replica =>
      exact .inr (.inr (.inr (.inr (.inl (mem_append_right _ (.head _))))))
    | dead =>
      exact .inr (.inr (.inr (.inr (.inl (mem_append_right _ (.head _))))))
  | opaqueMsg command => cases hm

theorem addTapLogElement_moves (hack : cfg.supportAck) (hok : p.Ok cfg → p'.Ok cfg)
    (hplace : p.Ok cfg → m.place ≠ .none ∧ (m.counts → cfg.vbucketFilter m.vbucket))
    (hsub : ∀ x ∈ p.pending, x.counts → cfg.vbucketFilter x.vbucket →
      x.subject = m.subject ∨ x ∈ p'.pending) :
    Moves cfg p (p'.addTapLogElement cfg m) [] := by
  unfold addTapLogElement
  rw [if_pos hack]
  refine ⟨fun hp => { hok hp with log := ?_ }, ?_⟩
  · intro e he
    rcases mem_append.mp he with he | he
    · exact (hok hp).log e he
    · rw [mem_singleton.mp he]
      exact hplace hp
  · intro hp x hx hc hf
    left
    rcases hsub x hx hc hf with h | h
    · refine ⟨m, mem_pending.mpr (.inl ?_), h.symm⟩
      exact ⟨_, mem_append_right _ (.head _), rfl⟩
    · apply Holds.of_mem
      rw [mem_pending] at h ⊢
      rcases h with ⟨e, he, h⟩ | h
      · exact .inl ⟨e, mem_append_left _ he, h⟩
      · exact .inr h

theorem mem_addTapLogElement (hack : cfg.supportAck) : m ∈ (p.addTapLogElement cfg m).pending := by
  unfold addTapLogElement
  rw [if_pos hack, mem_pending]
  exact .inl ⟨_, mem_append_right _ (.head _), rfl⟩

/-- What a call of the walker does: it keeps the messages, and it logs what it sends. -/
structure Walks (cfg : TapConfig) (p : TapProducer κ)
    (r : TapProducer κ × Option (TapMessage κ)) : Prop where
  moves : Moves cfg p r.1 []
  logged : p.Ok cfg → ∀ m ∈ r.2, r.1.Holds m ∧ (m.counts → cfg.vbucketFilter m.vbucket)

theorem Walks.quiet (h : Moves cfg p p' []) : Walks cfg p (p', none) :=
  ⟨h, fun _ m hm => by cases hm⟩

theorem Walks.log (hack : cfg.supportAck) (hok : p.Ok cfg → p'.Ok cfg)
    (hplace : p.Ok cfg → m.place ≠ .none ∧ (m.counts → cfg.vbucketFilter m.vbucket))
    (hsub : ∀ x ∈ p.pending, x.counts → cfg.vbucketFilter x.vbucket →
      x.subject = m.subject ∨ x ∈ p'.pending) :
    Walks cfg p (p'.addTapLogElement cfg m, some m) where
  moves := addTapLogElement_moves hack hok hplace hsub
  logged := by
    intro hp x hx
    cases hx
    exact ⟨.of_mem (mem_addTapLogElement hack), (hplace hp).2⟩

theorem Walks.requestAck (h : Walks cfg p (p', some m)) :
    Walks cfg p (p'.requestAck cfg m, some m) where
  moves := h.moves.trans (requestAck_sameLists cfg p' m).moves
  logged := by
    intro hp x hx
    obtain ⟨⟨y, hy, hs⟩, hf⟩ := h.logged hp x hx
    refine ⟨⟨y, ?_, hs⟩, hf⟩
    rw [(requestAck_sameLists cfg p' m).pending]
    exact hy

variable {r : TapProducer κ × Option (TapMessage κ)}

theorem walkTaken_walks (h : Walks cfg p r) : Walks cfg p (walkTaken cfg r) := by
  obtain ⟨p', o⟩ := r
  cases o with
  | none => exact h
  | some m => exact h.requestAck

theorem dropWhile_eq_cons {l rest : List (TapMessage κ)} {f : TapMessage κ → Bool}
    (h : l.dropWhile f = m :: rest) :
    f m = false ∧ m ∈ l ∧ rest ⊆ l ∧ ∀ x ∈ l, f x = false → x = m ∨ x ∈ rest := by
  induction l with
  | nil => cases h
  | cons y l ih =>
    rw [dropWhile_cons] at h
    by_cases hy : f y
    · rw [if_pos hy] at h
      obtain ⟨hm, hmem, hsub, hkeep⟩ := ih h
      refine ⟨hm, mem_cons_of_mem _ hmem, subset_cons_of_subset _ hsub, ?_⟩
      intro x hx hf
      rcases mem_cons.mp hx with rfl | hx
      · rw [hy] at hf
        cases hf
      · exact hkeep x hx hf
    · rw [if_neg hy] at h
      cases h
      refine ⟨by simpa using hy, .head _, subset_cons_self _ _, ?_⟩
      intro x hx _
      exact mem_cons.mp hx

theorem nextVBucketHighPriority_walks (hack : cfg.supportAck) :
    Walks cfg p (p.nextVBucketHighPriority cfg) := by
  unfold nextVBucketHighPriority
  split
  next heq =>
    -- all messages are skipped, so none of them passes the filter
    rw [dropWhile_eq_nil_iff] at heq
    apply Walks.quiet
    refine ⟨fun hp => { hp with high := by simp }, ?_⟩
    intro hp x hx hc hf
    left
    apply Holds.of_mem
    have := heq x
    grind
  next m rest heq =>
    obtain ⟨hm, hmem, hsub, hkeep⟩ := dropWhile_eq_cons heq
    apply Walks.log hack
    · intro hp
      exact { hp with high := fun x hx => hp.high x (hsub hx) }
    · intro hp
      have hplace := hp.high m hmem
      refine ⟨by rw [hplace]; simp, ?_⟩
      intro hc
      have hun : m.unfiltered = false := by
        revert hc
        unfold TapMessage.counts TapMessage.unfiltered
        split <;> split <;> simp_all
      simpa [hun] using hm
    · intro x hx hc hf
      have := hkeep x
      grind

theorem nextCheckpointMessage_walks (hack : cfg.supportAck) :
    Walks cfg p (p.nextCheckpointMessage cfg) := by
  unfold nextCheckpointMessage
  split
  next heq =>
    rw [dropWhile_eq_nil_iff] at heq
    apply Walks.quiet
    refine ⟨fun hp => { hp with checkpoint := by simp }, ?_⟩
    intro hp x hx hc hf
    left
    apply Holds.of_mem
    have := heq x
    grind
  next m rest heq =>
    obtain ⟨hm, hmem, hsub, hkeep⟩ := dropWhile_eq_cons heq
    apply Walks.log hack
    · intro hp
      exact { hp with checkpoint := fun x hx => hp.checkpoint x (hsub hx) }
    · intro hp
      have hplace := hp.checkpoint m hmem
      exact ⟨by rw [hplace]; simp, fun _ => by simpa using hm⟩
    · intro x hx hc hf
      have := hkeep x
      grind

theorem body_of_place (h : m.place = .queue) : ∃ key op, m.body = .item key op := by
  obtain ⟨tag, vb, body⟩ := m
  cases body with
  | item key op => exact ⟨key, op, rfl⟩
  | checkpoint start id => cases h
  | vbucketSet st => cases st <;> cases h
  | opaqueMsg command => cases h

theorem body_of_place_low (h : m.place = .low) : m.body = .vbucketSet .active := by
  obtain ⟨tag, vb, body⟩ := m
  cases body with
  | item key op => cases h
  | checkpoint start id => cases h
  | vbucketSet st => cases st <;> first | rfl | cases h
  | opaqueMsg command => cases h

theorem subject_setOp {key : κ} {op : QueueOperation} (op' : QueueOperation)
    (h : m.body = .item key op) : ({ m with body := .item key op' } : TapMessage κ).subject =
      m.subject := by
  obtain ⟨tag, vb, body⟩ := m
  cases h
  rfl

theorem walkFetched_walks (hack : cfg.supportAck) (hp : p.Ok cfg) (deleted : Bool) :
    Walks cfg p (p.walkFetched cfg deleted) := by
  unfold walkFetched
  split
  next => exact .quiet (SameLists.moves ⟨rfl, rfl, rfl, rfl, rfl, rfl, rfl⟩)
  next m rest heq =>
    obtain ⟨key, op, hb⟩ := body_of_place (hp.backfilled m (by rw [heq]; exact .head _))
    have hrest : p.Ok cfg → Ok cfg { p with backfilledItems := rest } := by
      intro hp
      refine { hp with backfilled := fun x hx => hp.backfilled x ?_ }
      rw [heq]
      exact .tail _ hx
    rw [hb]
    dsimp only
    by_cases hf : cfg.vbucketFilter m.vbucket
    · -- the item is logged anew, as what it is by now
      rw [if_pos hf]
      apply Walks.requestAck
      apply Walks.log hack hrest
      · intro _
        exact ⟨by simp [TapMessage.place], fun _ => hf⟩
      · intro x hx _ _
        have := subject_setOp (if deleted = true then .del else .set) hb
        grind
    · rw [if_neg hf]
      apply Walks.quiet
      refine ⟨hrest, ?_⟩
      intro _ x hx _ hxf
      left
      apply Holds.of_mem
      grind

/-- The item can be sent: a mutation is found, missing or read from disk, and there is memory for
the message of a deletion. -/
def Sendable (m : TapMessage κ) (r : Lookup) (allocated : Bool) : Prop :=
  match m.body with
  | .item _ .set => r ≠ .notMyVbucket ∧ r ≠ .failed
  | .item _ .del => allocated = true
  | _ => True

instance (m : TapMessage κ) (r : Lookup) (allocated : Bool) : Decidable (Sendable m r allocated) :=
  match m with
  | ⟨_, _, .item _ .set⟩ => inferInstanceAs (Decidable (r ≠ .notMyVbucket ∧ r ≠ .failed))
  | ⟨_, _, .item _ .del⟩ => inferInstanceAs (Decidable (allocated = true))
  | ⟨_, _, .checkpoint _ _⟩ => inferInstanceAs (Decidable True)
  | ⟨_, _, .vbucketSet _⟩ => inferInstanceAs (Decidable True)
  | ⟨_, _, .opaqueMsg _⟩ => inferInstanceAs (Decidable True)

theorem walkQueued_walks (hack : cfg.supportAck) (hp : p.Ok cfg) {r : Lookup} {allocated : Bool}
    (hsend : ∀ m ∈ p.queue.head?, Sendable m r allocated) :
    Walks cfg p (p.walkQueued cfg r allocated) := by
  unfold walkQueued
  split
  next => exact .quiet (SameLists.moves ⟨rfl, rfl, rfl, rfl, rfl, rfl, rfl⟩)
  next m rest heq =>
    have hm := hp.queue m (by rw [heq]; exact .head _)
    have hok : p.Ok cfg → Ok cfg { p with queue := rest } := by
      intro hp
      refine { hp with queue := fun x hx => hp.queue x ?_ }
      rw [heq]
      exact .tail _ hx
    have hlog : Walks cfg p (sendNext cfg { p with queue := rest } m) := by
      apply Walks.requestAck
      apply Walks.log hack hok
      · intro _
        exact ⟨by rw [hm.1]; simp, fun _ => hm.2⟩
      · grind
    have hs := hsend m (by rw [heq]; rfl)
    obtain ⟨key, op, hb⟩ := body_of_place hm.1
    unfold Sendable at hs
    rw [hb] at hs ⊢
    cases op with
    | set =>
      cases r with
      | success => exact hlog
      | keyEnoent => exact hlog
      | ewouldblock =>
        apply Walks.quiet
        refine ⟨fun hp => { hok hp with bgJobs := forall_mem_concat hp.bgJobs hm.1 }, ?_⟩
        intro _ x hx _ _
        left
        apply Holds.of_mem
        grind
      | notMyVbucket => exact absurd rfl hs.1
      | failed => exact absurd rfl hs.2
    | del =>
      dsimp only at hs ⊢
      rw [if_pos hs]
      exact hlog

theorem walkLow_walks (hack : cfg.supportAck) (hp : p.Ok cfg) (h : p.walkLow cfg = .ok r) : Walks
    cfg p r := by
  unfold walkLow at h
  cases heq : p.vBucketLowPriority with
  | nil =>
    have hnext : p.nextVBucketLowPriority cfg = (p, none) := by
      unfold nextVBucketLowPriority
      rw [heq]
    rw [hnext] at h
    cases h
    exact .quiet (SameLists.moves ⟨rfl, rfl, rfl, rfl, rfl, rfl, rfl⟩)
  | cons m rest =>
    obtain ⟨hplace, hf⟩ := hp.low m (by rw [heq]; exact .head _)
    have hb := body_of_place_low hplace
    have hnext : p.nextVBucketLowPriority cfg =
        (addTapLogElement cfg { p with vBucketLowPriority := rest, seqno := p.seqno + 1 } m,
          some m) := by
      unfold nextVBucketLowPriority
      rw [heq]
      dsimp only
      rw [if_pos hf]
    have hlog : Walks cfg p
        (addTapLogElement cfg { p with vBucketLowPriority := rest, seqno := p.seqno + 1 } m,
          some m) := by
      apply Walks.log hack
      · intro hp
        refine { hp with low := fun x hx => hp.low x ?_ }
        rw [heq]
        exact .tail _ hx
      · intro _
        exact ⟨by rw [hplace]; simp, fun _ => hf⟩
      · grind
    rw [hnext] at h
    dsimp only at h
    rw [hb] at h
    dsimp only at h
    split_ifs at h with hlen
    · -- the message goes back to the end of its queue
      cases h
      have hback : TapProducer.addVBucketLowPriority
          { addTapLogElement cfg { p with vBucketLowPriority := rest, seqno := p.seqno + 1 } m with
            tapLog := (addTapLogElement cfg
              { p with vBucketLowPriority := rest, seqno := p.seqno + 1 } m).tapLog.dropLast }
          { m with body := .vbucketSet .active } =
          { p with vBucketLowPriority := rest ++ [m], seqno := p.seqno + 1 } := by
        unfold addTapLogElement
        rw [if_pos hack, ← hb]
        simp only [addVBucketLowPriority, dropLast_concat]
      rw [hback]
      refine ⟨⟨?_, ?_⟩, ?_⟩
      · intro hp
        refine { hp with low := forall_mem_concat (fun x hx => hp.low x ?_) ⟨hplace, hf⟩ }
        rw [heq]
        exact .tail _ hx
      · intro _ x hx _ _
        left
        apply Holds.of_mem
        grind
      · intro _ x hx
        cases hx
        refine ⟨.of_mem ?_, fun _ => hf⟩
        grind
    · cases h
      exact hlog.requestAck

theorem bgFetch_moves (hp : p.Ok cfg) (i : ℕ) {r : Fetch} (hr : r ≠ .noVBucket) :
    Moves cfg p (p.bgFetch cfg i r) [] := by
  unfold bgFetch
  split
  next => exact SameLists.moves ⟨rfl, rfl, rfl, rfl, rfl, rfl, rfl⟩
  next m heq =>
    have hm : m ∈ p.bgJobs := mem_of_getElem? heq
    have hother : ∀ x ∈ p.bgJobs, x = m ∨ x ∈ p.bgJobs.eraseIdx i := by
      intro x hx
      obtain ⟨j, hj, rfl⟩ := getElem_of_mem hx
      by_cases hij : j = i
      · left
        subst hij
        rw [List.getElem?_eq_getElem hj] at heq
        exact Option.some.inj heq
      · right
        exact mem_eraseIdx_iff_getElem.mpr ⟨j, hj, hij, rfl⟩
    obtain ⟨key, op, hb⟩ := body_of_place (hp.bgJobs m hm)
    have hok : p.Ok cfg → Ok cfg { p with bgJobs := p.bgJobs.eraseIdx i } := by
      intro hp
      exact { hp with bgJobs := fun x hx => hp.bgJobs x (mem_of_mem_eraseIdx hx) }
    -- the message of the job is in the list that it joins, and the others stay
    have hput : ∀ {q x}, Moves cfg { p with bgJobs := p.bgJobs.eraseIdx i } q [] →
        x.subject = m.subject → x.vbucket = m.vbucket →
        (cfg.vbucketFilter x.vbucket → x ∈ q.pending) → Moves cfg p q [] := by
      intro q x hmv hs hvb hx
      refine ⟨fun hp => hmv.ok (hok hp), ?_⟩
      intro hp y hy hc hf
      by_cases hym : y = m
      · left
        subst hym
        exact ⟨x, hx (hvb ▸ hf), hs⟩
      · apply hmv.kept (hok hp) y _ hc hf
        grind
    cases r with
    | fetched =>
      exact hput (completeBGFetchJob_moves (hp.bgJobs m hm)) rfl rfl mem_completeBGFetchJob
    | deleted =>
      rw [hb]
      exact hput (addEvent_moves rfl) (subject_setOp .del hb) rfl mem_addEvent
    | again => exact SameLists.moves ⟨rfl, rfl, rfl, rfl, rfl, rfl, rfl⟩
    | noVBucket => exact absurd rfl hr

theorem eraseLog_moves {before after : List (TapLogElement κ)} (hlog : p.tapLog = before ++ after) :
    Moves cfg p { p with tapLog := after } (before.map TapLogElement.message) := by
  constructor
  · intro hp
    refine { hp with log := fun e he => hp.log e ?_ }
    rw [hlog]
    exact mem_append_right _ he
  · intro hp m hm hc hf
    rw [mem_pending, hlog] at hm
    rcases hm with ⟨e, he, rfl⟩ | hm
    · rcases mem_append.mp he with he | he
      · exact .inr ⟨_, mem_map_of_mem he, rfl⟩
      · exact .inl (.of_mem (mem_pending.mpr (.inl ⟨e, he, rfl⟩)))
    · exact .inl (.of_mem (mem_pending.mpr (.inr hm)))

/-- A message that is refused for a time is in its queue again. -/
theorem refused_moves {before after : List (TapLogElement κ)} {e : TapLogElement κ}
    (hlog : p.tapLog = before ++ e :: after) (hplace : e.message.place ≠ .none)
    (hfilter : e.message.counts → cfg.vbucketFilter e.message.vbucket) :
    Moves cfg p { p.reschedule cfg e.message with tapLog := after }
      (before.map TapLogElement.message) := by
  have hcomm : { p.reschedule cfg e.message with tapLog := after } =
      TapProducer.reschedule cfg { p with tapLog := after } e.message := by
    unfold reschedule
    split
    · rfl
    · rfl
    · rfl
    · unfold addEvent updateState
      split_ifs <;> rfl
    · rfl
  have hlog' : p.tapLog = (before ++ [e]) ++ after := by simpa using hlog
  have herase : Moves cfg p { p with tapLog := after } _ := eraseLog_moves hlog'
  have hmove : Moves cfg { p with tapLog := after } _ [] := reschedule_moves hplace hfilter
  rw [hcomm]
  refine ⟨fun hp => hmove.ok (herase.ok hp), ?_⟩
  intro hp m hm hc hf
  rw [mem_pending, hlog] at hm
  rcases hm with ⟨e', he', rfl⟩ | hm
  · rcases mem_append.mp he' with he' | he'
    · exact .inr ⟨_, mem_map_of_mem he', rfl⟩
    · rcases mem_cons.mp he' with rfl | he'
      · exact .inl (.of_mem (reschedule_holds hc hf))
      · exact .inl (by
          simpa using hmove.kept (herase.ok hp) e'.message
            (mem_pending.mpr (.inl ⟨e', he', rfl⟩)) hc hf)
  · exact .inl (by
      simpa using hmove.kept (herase.ok hp) m (mem_pending.mpr (.inr hm)) hc hf)

/-- The answer of the peer keeps the log together: it is positive, or it names the first logged
message, or it refuses for a time a message that is logged. -/
def AckFits (p : TapProducer κ) (s : BitVec 32) (status : BitVec 16) : Prop :=
  status = ackSuccess ∨ p.tapLog = [] ∨ (∃ e ∈ p.tapLog.head?, e.seqno = s) ∨
    ackTemporary status ∧ ∃ e ∈ p.tapLog, e.seqno = s

instance (p : TapProducer κ) (s : BitVec 32) (status : BitVec 16) : Decidable (AckFits p s status) :=
  letI : Decidable (p.tapLog = []) :=
    match p.tapLog with
    | [] => .isTrue rfl
    | _ :: _ => .isFalse nofun
  letI : Decidable (∃ e ∈ p.tapLog.head?, e.seqno = s) :=
    match p.tapLog.head? with
    | none => .isFalse fun ⟨_, h, _⟩ => nomatch h
    | some e => decidable_of_iff (e.seqno = s)
        ⟨fun h => ⟨e, rfl, h⟩, fun ⟨_, h, hs⟩ => by cases h; exact hs⟩
  inferInstanceAs (Decidable (_ ∨ _ ∨ _ ∨ _ ∧ _))

theorem processAck_moves (hp : p.Ok cfg) {s : BitVec 32} {status : BitVec 16}
    (hfits : AckFits p s status) :
    Moves cfg p (p.processAck cfg s status).1 (p.processAck cfg s status).2 := by
  have hrec := received_sameLists p s
  unfold processAck
  dsimp only
  cases hs : split TapLogElement.seqno s (p.received s).tapLog with
  | some r =>
    obtain ⟨before, e, after⟩ := r
    obtain ⟨hlog, hseq⟩ := eq_of_split hs
    have hlog' : (p.received s).tapLog = (before ++ [e]) ++ after := by simpa using hlog
    have he : e ∈ p.tapLog := by
      rw [← hrec.log, hlog]
      exact mem_append_right _ (.head _)
    have hmap : before.map TapLogElement.message ++ [e.message] =
        (before ++ [e]).map TapLogElement.message := by simp
    dsimp only
    by_cases hok : status = ackSuccess
    · rw [if_pos hok, hmap]
      have hack := acknowledged_sameLists cfg (p.received s) e.message
      refine hrec.moves.trans (hack.moves.trans ?_)
      have hset : SameLists ((p.received s).acknowledged cfg e.message)
          { (p.received s).acknowledged cfg e.message with isLastAckSucceed := true } :=
        ⟨rfl, rfl, rfl, rfl, rfl, rfl, rfl⟩
      exact hset.moves.trans (eraseLog_moves (hack.log.trans hlog'))
    · rw [if_neg hok]
      by_cases htmp : ackTemporary status
      · rw [if_pos htmp]
        have hm := hp.log e he
        exact hrec.moves.trans (refused_moves hlog hm.1 hm.2)
      · -- the refused message is the first one, so that nothing is erased
        rw [if_neg htmp]
        have hnil : before = [] := by
          rcases hfits with h | h | ⟨e', he', hs'⟩ | ⟨h, -⟩
          · exact absurd h hok
          · rw [h] at he
            cases he
          · rw [← hrec.log, hlog] at he'
            cases before with
            | nil => rfl
            | cons x before =>
              cases he'
              rw [hlog, cons_append, split, if_pos hs'] at hs
              cases hs
          · exact absurd h htmp
        subst hnil
        refine hrec.moves.trans (SameLists.moves ⟨?_, rfl, rfl, rfl, rfl, rfl, rfl⟩)
        exact hlog.symm
  | none =>
    dsimp only
    split_ifs with hok
    · exact hrec.moves
    · have hnil : p.tapLog = [] := by
        have hno : ∀ e ∈ p.tapLog, e.seqno ≠ s := by
          rw [← hrec.log]
          exact split_eq_none.mp hs
        rcases hfits with h | h | ⟨e, he, hs'⟩ | ⟨-, e, he, hs'⟩
        · exact absurd h hok
        · exact h
        · exact absurd hs' (hno e (mem_of_mem_head? he))
        · exact absurd hs' (hno e he)
      refine hrec.moves.trans (SameLists.moves ⟨?_, rfl, rfl, rfl, rfl, rfl, rfl⟩)
      exact (hrec.log.trans hnil).symm

theorem rollbackElements_moves {l : List (TapLogElement κ)} (hl : ∀ e ∈ l, e.message.place ≠ .none ∧
      (e.message.counts → cfg.vbucketFilter e.message.vbucket))
    (hp : p.Ok cfg) (h : l.foldlM (rollbackElement cfg) p = .ok p') :
    Moves cfg p p' [] ∧ ∀ e ∈ l, e.message.counts → p'.Holds e.message := by
  induction l generalizing p with
  | nil =>
    cases h
    exact ⟨SameLists.moves ⟨rfl, rfl, rfl, rfl, rfl, rfl, rfl⟩, by simp⟩
  | cons e l ih =>
    rw [foldlM_cons] at h
    obtain ⟨q, hq, h⟩ := bind_eq_ok.mp h
    have hqe : q = p.reschedule cfg e.message := by
      unfold rollbackElement at hq
      split at hq
      · cases hq
      · exact (Except.ok.inj hq).symm
    subst hqe
    have he := hl e (.head _)
    have hone : Moves cfg p (p.reschedule cfg e.message) [] := reschedule_moves he.1 he.2
    obtain ⟨hrest, hheld⟩ := ih (fun e' he' => hl e' (.tail _ he')) (hone.ok hp) h
    refine ⟨hone.trans hrest, ?_⟩
    intro e' he' hc
    rcases mem_cons.mp he' with rfl | he'
    · have := hrest.kept (hone.ok hp) e'.message (reschedule_holds hc (he.2 hc)) hc (he.2 hc)
      simpa using this
    · exact hheld e' he' hc

theorem rollback_moves (hreg : (cfg.registeredTAPClient && cfg.closedCheckpointOnly) = false)
    (hp : p.Ok cfg) (h : p.rollback cfg = .ok p') : Moves cfg p p' [] := by
  unfold rollback at h
  rw [hreg, if_neg (by simp)] at h
  obtain ⟨q, hq, h⟩ := bind_eq_ok.mp h
  cases h
  have hempty : Ok cfg { p with tapLog := [] } := { hp with log := by simp }
  obtain ⟨hmv, hheld⟩ := rollbackElements_moves hp.log hempty hq
  have hset : SameLists q { q with seqnoReceived := q.seqno - 1 } :=
    ⟨rfl, rfl, rfl, rfl, rfl, rfl, rfl⟩
  refine Moves.trans ⟨fun _ => hmv.ok hempty, ?_⟩ hset.moves
  intro _ m hm hc hf
  rw [mem_pending] at hm
  rcases hm with ⟨e, he, rfl⟩ | hm
  · exact .inl (hheld e he hc)
  · exact hmv.kept hempty m (mem_pending.mpr (.inr hm)) hc hf

/-- Where the producer cannot lose a message: the answers of the peer keep the log together, and
an item that is taken from the queue or from a background fetch is sent. -/
def Call.Fits (cfg : TapConfig) (p : TapProducer κ) : Call κ → Prop
  | .processAck s status => AckFits p s status
  | .walkQueued r allocated => p.pauses cfg (.walkQueued r allocated) ∨
      ∀ m ∈ p.queue.head?, Sendable m r allocated
  | .bgFetch _ r => r ≠ .noVBucket
  | _ => True

instance (cfg : TapConfig) (p : TapProducer κ) : ∀ c : Call κ, Decidable (c.Fits cfg p)
  | .processAck s status => inferInstanceAs (Decidable (AckFits p s status))
  | .walkQueued r allocated =>
    letI : Decidable (∀ m ∈ p.queue.head?, Sendable m r allocated) :=
      match h : p.queue.head? with
      | none => .isTrue nofun
      | some m => decidable_of_iff (Sendable m r allocated) (by simp)
    inferInstanceAs (Decidable (_ ∨ _))
  | .bgFetch _ r => inferInstanceAs (Decidable (r ≠ .noVBucket))
  | .addEvent _ | .refill _ _ | .takeOver _ _ _ | .addOpaque _ _ _ | .backfilled _ | .walkHigh
  | .walkCheckpoint | .walkFetched _ | .walkLow | .rollback => .isTrue trivial

/-- What a call does to the messages: it keeps those that the peer did not acknowledge, and it
holds what it logs. -/
structure Steps (cfg : TapConfig) (p p' : TapProducer κ) (o : Output κ) : Prop where
  moves : Moves cfg p p' o.acked
  logged : ∀ m ∈ o.logged, p'.Holds m ∧ (m.counts → cfg.vbucketFilter m.vbucket)

theorem Moves.steps (h : Moves cfg p p' acked) : Steps cfg p p' ⟨none, acked⟩ :=
  ⟨h, fun m hm => by cases hm⟩

theorem Walks.steps (hp : p.Ok cfg) (h : Walks cfg p r) : Steps cfg p r.1 ⟨r.2, []⟩ :=
  ⟨h.moves, h.logged hp⟩

section
variable (hack : cfg.supportAck)
  (hreg : (cfg.registeredTAPClient && cfg.closedCheckpointOnly) = false) (hp : p.Ok cfg)
  {c : Call κ} (hfits : c.Fits cfg p)
include hack hreg hp hfits

theorem take_steps (hpause : ¬p.pauses cfg c) {o : Output κ}
    (h : p.take cfg c = .ok (p', o)) : Steps cfg p p' o := by
  have hrefl : Moves cfg p p [] := SameLists.moves ⟨rfl, rfl, rfl, rfl, rfl, rfl, rfl⟩
  cases c with
  | addEvent m =>
    cases h
    split_ifs with hm
    · exact (addEvent_moves (place_of_isItem hm)).steps
    · exact hrefl.steps
  | refill m isLastItem =>
    cases h
    exact (refill_moves isLastItem).steps
  | takeOver tag tag' vb =>
    cases h
    split_ifs with hf
    · exact ((addVBucketHighPriority_moves rfl).trans (addVBucketLowPriority_moves rfl hf)).steps
    · exact hrefl.steps
  | addOpaque tag vb command =>
    cases h
    exact (addVBucketHighPriority_moves rfl).steps
  | backfilled m =>
    cases h
    split_ifs with hm
    · exact (completeBGFetchJob_moves (place_of_isItem hm)).steps
    · exact hrefl.steps
  | bgFetch i r =>
    cases h
    exact (bgFetch_moves hp i hfits).steps
  | walkHigh =>
    cases h
    exact (walkTaken_walks (nextVBucketHighPriority_walks hack)).steps hp
  | walkCheckpoint =>
    cases h
    exact (walkTaken_walks (nextCheckpointMessage_walks hack)).steps hp
  | walkFetched deleted =>
    cases h
    exact (walkFetched_walks hack hp deleted).steps hp
  | walkQueued r allocated =>
    cases h
    exact (walkQueued_walks hack hp (hfits.resolve_left hpause)).steps hp
  | walkLow =>
    rw [take] at h
    cases hr : p.walkLow cfg with
    | error e =>
      rw [hr] at h
      cases h
    | ok r =>
      rw [hr] at h
      cases h
      exact (walkLow_walks hack hp hr).steps hp
  | processAck s status =>
    cases h
    exact (processAck_moves hp hfits).steps
  | rollback =>
    rw [take] at h
    cases hr : p.rollback cfg with
    | error e =>
      rw [hr] at h
      cases h
    | ok q =>
      rw [hr] at h
      cases h
      exact (rollback_moves hreg hp hr).steps

theorem step_steps {o : Output κ} (h : p.step cfg c = .ok (p', o)) : Steps cfg p p' o := by
  unfold step at h
  split_ifs at h with hpause
  · cases h
    exact Moves.steps (SameLists.moves ⟨rfl, rfl, rfl, rfl, rfl, rfl, rfl⟩)
  · exact take_steps hack hreg hp hfits hpause h

end

end TapProducer

open TapProducer

/-- A producer with all messages that it ever logged, and all that the peer acknowledged. -/
structure TapStream (κ : Type) where
  producer : TapProducer κ
  logged : List (TapMessage κ)
  acked : List (TapMessage κ)

namespace TapStream

def new (cfg : TapConfig) (states : BitVec 16 → Option TapCheckpointState) : TapStream κ :=
  ⟨.new cfg states, [], []⟩

def step (cfg : TapConfig) (s : TapStream κ) (c : Call κ) :
    Except TapFault (TapStream κ × Output κ) :=
  match s.producer.step cfg c with
  | .error e => .error e
  | .ok (p, o) => .ok (⟨p, o.logged.toList ++ s.logged, o.acked ++ s.acked⟩, o)

/-- The message is in the log or in a queue, or the peer has acknowledged it. -/
def Delivers (s : TapStream κ) (m : TapMessage κ) : Prop :=
  s.producer.Holds m ∨ ∃ a ∈ s.acked, a.subject = m.subject

structure Sound (cfg : TapConfig) (s : TapStream κ) : Prop where
  ok : s.producer.Ok cfg
  delivers : ∀ m ∈ s.logged, m.counts → cfg.vbucketFilter m.vbucket ∧ s.Delivers m

theorem new_sound (cfg : TapConfig) (states : BitVec 16 → Option TapCheckpointState) :
    Sound cfg (new cfg states : TapStream κ) where
  ok := by constructor <;> simp [new, TapProducer.new]
  delivers := by simp [new]

theorem step_sound {cfg : TapConfig} (hack : cfg.supportAck)
    (hreg : (cfg.registeredTAPClient && cfg.closedCheckpointOnly) = false) {s s' : TapStream κ}
    {c : Call κ} {o : Output κ} (hs : s.Sound cfg) (hfits : c.Fits cfg s.producer)
    (h : s.step cfg c = .ok (s', o)) : s'.Sound cfg := by
  unfold step at h
  split at h
  · cases h
  next p o hstep =>
    cases h
    have hst := step_steps hack hreg hs.ok hfits hstep
    refine ⟨hst.moves.ok hs.ok, ?_⟩
    intro m hm hc
    rcases mem_append.mp hm with hm | hm
    · obtain ⟨hheld, hf⟩ := hst.logged m (Option.mem_toList.mp hm)
      exact ⟨hf hc, .inl hheld⟩
    · obtain ⟨hf, ⟨x, hx, hsub⟩ | ⟨a, ha, hsub⟩⟩ := hs.delivers m hm hc
      · -- the call moved the message or the peer acknowledged it
        have hxc : x.counts := by
          rw [← TapMessage.subject_counts, hsub, TapMessage.subject_counts, hc]
        have hxf : cfg.vbucketFilter x.vbucket := by
          rw [← TapMessage.subject_vbucket, hsub, TapMessage.subject_vbucket, hf]
        refine ⟨hf, ?_⟩
        rcases hst.moves.kept hs.ok x hx hxc hxf with ⟨y, hy, hys⟩ | ⟨a, ha, has⟩
        · exact .inl ⟨y, hy, hys.trans hsub⟩
        · exact .inr ⟨a, mem_append_left _ ha, has.trans hsub⟩
      · exact ⟨hf, .inr ⟨a, mem_append_right _ ha, hsub⟩⟩

/-- Delivery at least once: where answers keep the log together and taken items are sent, every
mutation, deletion, checkpoint message and vbucket message that was ever logged is in the log or
in a queue until the peer has acknowledged it or one logged after it. -/
theorem logged_delivered {cfg : TapConfig} (hack : cfg.supportAck)
    (hreg : (cfg.registeredTAPClient && cfg.closedCheckpointOnly) = false)
    (states : BitVec 16 → Option TapCheckpointState) {calls : List (Call κ)} {s : TapStream κ}
    {os : List (Output κ)}
    (hfits : Along (step cfg) (fun s c => c.Fits cfg s.producer) (new cfg states) calls)
    (h : run (step cfg) (new cfg states) calls = .ok (s, os)) :
    ∀ m ∈ s.logged, m.counts → s.Delivers m := by
  have hsound : s.Sound cfg :=
    run_inv (fun s c s' o hs hc hst => step_sound hack hreg hs hc hst)
      (new_sound cfg states) hfits h
  intro m hm hc
  exact (hsound.delivers m hm hc).2

def ackConfig : TapConfig where
  vbucketFilter := fun _ => true
  supportAck := true
  supportCheckpointSync := true
  registeredTAPClient := false
  closedCheckpointOnly := false
  initialAckSequenceNumber := 1

def mutationOf (key : ℕ) : TapMessage ℕ := ⟨key, 0, .item key .set⟩

/-- The peer refuses the second of two mutations for a time, and the connection is made anew. -/
def refusedCalls : List (Call ℕ) :=
  [.addEvent (mutationOf 1), .addEvent (mutationOf 2), .walkQueued .success true,
    .walkQueued .success true, .processAck 2 0x86, .walkQueued .ewouldblock true, .rollback]

theorem logged_delivered_refused :
    ∃ s os, run (step ackConfig) (new ackConfig fun _ => none) refusedCalls =
        .ok (s, os) ∧ mutationOf 1 ∈ s.logged ∧ mutationOf 2 ∈ s.logged ∧
      s.Delivers (mutationOf 1) ∧ s.Delivers (mutationOf 2) := by
  have hview : (run (step ackConfig) (new ackConfig fun _ => none)
      refusedCalls).toOption.map (fun r => r.1.logged) = some [mutationOf 2, mutationOf 1] := by
    decide
  cases hrun : run (step ackConfig) (new ackConfig fun _ => none) refusedCalls with
  | error e =>
    rw [hrun] at hview
    cases hview
  | ok r =>
    obtain ⟨s, os⟩ := r
    rw [hrun] at hview
    have hlogged : s.logged = [mutationOf 2, mutationOf 1] := Option.some.inj hview
    have hdel := logged_delivered rfl rfl (fun _ => none) (by decide) hrun
    rw [hlogged] at hdel
    refine ⟨s, os, rfl, ?_, ?_, hdel _ (by simp) rfl, hdel _ (by simp) rfl⟩
    · simp [hlogged]
    · simp [hlogged]

/-- A temporary refusal of a number that is not logged empties the log. The mutation that was sent
is in no queue, and the peer has acknowledged nothing. -/
theorem logged_dropped : ∃ s os, run (step ackConfig) (new ackConfig fun _ => none)
        [.addEvent (mutationOf 1), .walkQueued .success true, .processAck 7 0x86] = .ok (s, os) ∧
      mutationOf 1 ∈ s.logged ∧ ¬s.Delivers (mutationOf 1) := by
  have hview : (run (step ackConfig) (new ackConfig fun _ => none)
      [.addEvent (mutationOf 1), .walkQueued .success true, .processAck 7 0x86]).toOption.map
      (fun r => (r.1.logged, r.1.producer.pending, r.1.acked)) = some ([mutationOf 1], [], []) := by
    decide
  cases hrun : run (step ackConfig) (new ackConfig fun _ => none)
      [.addEvent (mutationOf 1), .walkQueued .success true, .processAck 7 0x86] with
  | error e =>
    rw [hrun] at hview
    cases hview
  | ok r =>
    obtain ⟨s, os⟩ := r
    rw [hrun] at hview
    obtain ⟨hlogged, hrest⟩ := Prod.mk.inj (Option.some.inj hview)
    obtain ⟨hpending, hacked⟩ := Prod.mk.inj hrest
    dsimp only at hlogged hpending hacked
    refine ⟨s, os, rfl, by simp [hlogged], ?_⟩
    unfold Delivers Holds
    simp [hpending, hacked]

end TapStream

end Appstack.EpEngine
