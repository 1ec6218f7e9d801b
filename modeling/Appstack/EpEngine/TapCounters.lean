import Appstack.EpEngine.TapProducer

namespace Appstack.EpEngine

open Lib.Chains Lib.Machine List

variable {κ : Type}

namespace TapMessage

def isCheckpoint (m : TapMessage κ) : Bool :=
  match m.body with
  | .checkpoint _ _ => true
  | _ => false

def isOpaque (m : TapMessage κ) : Bool :=
  match m.body with
  | .opaqueMsg _ => true
  | _ => false

end TapMessage

namespace TapProducer

def logged (q : TapMessage κ → Bool) (log : List (TapLogElement κ)) : ℤ :=
  log.countP fun e => q e.message

/-- The counters match the log, and then nobody waits for an answer that cannot come. -/
structure Matches (cfg : TapConfig) (p : TapProducer κ) : Prop where
  checkpoint : p.checkpointMsgCounter = logged TapMessage.isCheckpoint p.tapLog
  opaque_ : p.opaqueMsgCounter = logged TapMessage.isOpaque p.tapLog
  wait : p.tapLog = [] → p.waitForCheckpointMsgAck cfg = false ∧ p.waitForOpaqueMsgAck cfg = false

def Uncounted (log : List (TapLogElement κ)) : Prop :=
  ∀ e ∈ log, e.message.isCheckpoint = false ∧ e.message.isOpaque = false

/-- What a call must not do: an answer skips over a counted message, or names a checkpoint message
on a connection without checkpoint synchronization; a `rollback` for a client of closed checkpoints
clears a log that has an opaque message. -/
def Accounts (cfg : TapConfig) (p : TapProducer κ) : Call κ → Prop
  | .processAck s status =>
    match split TapLogElement.seqno s p.tapLog with
    | some (before, e, _) => Uncounted before ∧
        (status = ackSuccess → e.message.isCheckpoint → cfg.supportCheckpointSync)
    | none => status = ackSuccess ∨ Uncounted p.tapLog
  | .rollback => cfg.registeredTAPClient && cfg.closedCheckpointOnly →
      ∀ e ∈ p.tapLog, e.message.isOpaque = false
  | _ => True

variable {cfg : TapConfig} {p p' : TapProducer κ} {m : TapMessage κ} {q : TapMessage κ → Bool}
  {log log' : List (TapLogElement κ)} {e : TapLogElement κ} {a b : ℤ}

@[simp] theorem logged_nil : logged q [] = 0 := rfl

@[simp] theorem logged_append : logged q (log ++ log') = logged q log + logged q log' := by
  simp [logged]

@[simp] theorem logged_cons :
    logged q (e :: log) = (if q e.message then 1 else 0) + logged q log := by
  simp only [logged, countP_cons, Nat.cast_add, Nat.cast_ite, Nat.cast_one, Nat.cast_zero]
  ring

theorem logged_eq_zero : logged q log = 0 ↔ ∀ e ∈ log, q e.message = false := by
  simp [logged, countP_eq_zero]

theorem uncounted_iff : Uncounted log ↔
    logged TapMessage.isCheckpoint log = 0 ∧ logged TapMessage.isOpaque log = 0 := by
  rw [logged_eq_zero, logged_eq_zero, Uncounted, forall₂_and]

theorem matches_iff : p.Matches cfg ↔
    p.checkpointMsgCounter = logged TapMessage.isCheckpoint p.tapLog ∧
      p.opaqueMsgCounter = logged TapMessage.isOpaque p.tapLog := by
  refine ⟨fun h => ⟨h.checkpoint, h.opaque_⟩, fun h => ⟨h.1, h.2, fun hlog => ?_⟩⟩
  rw [hlog] at h
  simp [waitForCheckpointMsgAck, waitForOpaqueMsgAck, h]

/-- Checkpoint messages wait in their own queue, and no other messages do. -/
structure Queued (p : TapProducer κ) : Prop where
  checkpoint : ∀ m ∈ p.checkpointMsgs, m.isCheckpoint = true
  high : ∀ m ∈ p.vBucketHighPriority, m.isCheckpoint = false

/-- What a function does to the log and the counters, and that the queues stay as they should. -/
structure Books (p p' : TapProducer κ) (log : List (TapLogElement κ)) (a b : ℤ) : Prop where
  log : p'.tapLog = log
  checkpoint : p'.checkpointMsgCounter = a
  opaque_ : p'.opaqueMsgCounter = b
  queued : p.Queued → p'.Queued

abbrev Silent (p p' : TapProducer κ) : Prop :=
  Books p p' p.tapLog p.checkpointMsgCounter p.opaqueMsgCounter

variable {p'' : TapProducer κ} {o : Output κ}

theorem Books.trans (h : Silent p p') (h' : Books p' p'' log a b) : Books p p'' log a b :=
  ⟨h'.log, h'.checkpoint, h'.opaque_, fun hq => h'.queued (h.queued hq)⟩

theorem Silent.refl (p : TapProducer κ) : Silent p p := ⟨rfl, rfl, rfl, id⟩

theorem addEvent_silent : Silent p (p.addEvent cfg m) := by
  unfold addEvent
  split_ifs <;> exact ⟨rfl, rfl, rfl, fun hq => ⟨hq.checkpoint, hq.high⟩⟩

theorem requestAck_silent : Silent p (p.requestAck cfg m) := by
  unfold requestAck updateState
  dsimp only
  split_ifs <;> exact ⟨rfl, rfl, rfl, fun hq => ⟨hq.checkpoint, hq.high⟩⟩

theorem addCheckpointMessage_silent (hm : m.isCheckpoint = true) :
    Silent p (p.addCheckpointMessage m) := by
  refine ⟨rfl, rfl, rfl, fun hq => ⟨fun m' hm' => ?_, hq.high⟩⟩
  rcases mem_append.mp hm' with h | h
  · exact hq.checkpoint m' h
  · rwa [mem_singleton.mp h]

theorem addVBucketHighPriority_silent (hm : m.isCheckpoint = false) :
    Silent p (p.addVBucketHighPriority m) := by
  refine ⟨rfl, rfl, rfl, fun hq => ⟨hq.checkpoint, fun m' hm' => ?_⟩⟩
  rcases mem_append.mp hm' with h | h
  · exact hq.high m' h
  · rwa [mem_singleton.mp h]

theorem addVBucketLowPriority_silent : Silent p (p.addVBucketLowPriority m) :=
  ⟨rfl, rfl, rfl, fun hq => ⟨hq.checkpoint, hq.high⟩⟩

theorem updateState_silent (vb : BitVec 16) (f : TapCheckpointState → TapCheckpointState) :
    Silent p (p.updateState vb f) :=
  ⟨rfl, rfl, rfl, fun hq => ⟨hq.checkpoint, hq.high⟩⟩

theorem reschedule_books : Books p (p.reschedule cfg m) p.tapLog
    (p.checkpointMsgCounter - if m.isCheckpoint then 1 else 0)
    (p.opaqueMsgCounter - if m.isOpaque then 1 else 0) := by
  obtain ⟨tag, vb, body⟩ := m
  cases body with
  | item key op =>
    simp only [reschedule, TapMessage.isCheckpoint, TapMessage.isOpaque, Bool.false_eq_true,
      if_false, sub_zero]
    split_ifs
    · exact (updateState_silent _ _).trans addEvent_silent
    · exact addEvent_silent
  | checkpoint start n =>
    have hq := (addCheckpointMessage_silent (p := p)
      (m := ⟨tag, vb, .checkpoint start n⟩) rfl).queued
    exact ⟨rfl, rfl, (sub_zero _).symm, fun h => ⟨(hq h).checkpoint, (hq h).high⟩⟩
  | vbucketSet st =>
    simp only [TapMessage.isCheckpoint, TapMessage.isOpaque, Bool.false_eq_true, if_false, sub_zero]
    cases st
    case pending => exact addVBucketHighPriority_silent rfl
    all_goals exact addVBucketLowPriority_silent
  | opaqueMsg command =>
    have hq := (addVBucketHighPriority_silent (p := p)
      (m := ⟨tag, vb, .opaqueMsg command⟩) rfl).queued
    exact ⟨rfl, (sub_zero _).symm, rfl, fun h => ⟨(hq h).checkpoint, (hq h).high⟩⟩

theorem refill_silent (isLastItem : Bool) : Silent p (p.refill cfg m isLastItem) := by
  obtain ⟨tag, vb, body⟩ := m
  cases body with
  | item key op => exact (updateState_silent _ _).trans addEvent_silent
  | checkpoint start n =>
    cases start <;> simp only [refill] <;> split_ifs <;>
      first
      | exact .refl p
      | exact updateState_silent _ _
      | exact (updateState_silent _ _).trans (addCheckpointMessage_silent rfl)
  | vbucketSet st => exact .refl p
  | opaqueMsg command => exact addVBucketHighPriority_silent rfl

theorem completeBGFetchJob_silent : Silent p (p.completeBGFetchJob cfg m) := by
  unfold completeBGFetchJob
  split_ifs <;> exact ⟨rfl, rfl, rfl, fun hq => ⟨hq.checkpoint, hq.high⟩⟩

theorem bgFetch_silent (i : ℕ) (r : Fetch) : Silent p (p.bgFetch cfg i r) := by
  have herase : Silent p { p with bgJobs := p.bgJobs.eraseIdx i } :=
    ⟨rfl, rfl, rfl, fun hq => ⟨hq.checkpoint, hq.high⟩⟩
  unfold bgFetch
  split
  · exact .refl p
  · cases r with
    | fetched => exact herase.trans completeBGFetchJob_silent
    | deleted =>
      dsimp only
      split
      · exact herase.trans addEvent_silent
      · exact herase
    | again => exact .refl p
    | noVBucket => exact herase

theorem addTapLogElement_books (hack : cfg.supportAck) : Books p (p.addTapLogElement cfg m)
    (p.tapLog ++ [⟨p.seqno, m⟩]) p.checkpointMsgCounter p.opaqueMsgCounter := by
  rw [addTapLogElement, if_pos hack]
  exact ⟨rfl, rfl, rfl, fun hq => ⟨hq.checkpoint, hq.high⟩⟩

structure Keeps (cfg : TapConfig) (p p' : TapProducer κ) : Prop where
  queued : p'.Queued
  matches_ : p.Matches cfg → p'.Matches cfg

theorem Books.matches_iff (h : Books p p' log a b) : p'.Matches cfg ↔
    a = logged TapMessage.isCheckpoint log ∧ b = logged TapMessage.isOpaque log := by
  rw [TapProducer.matches_iff, h.log, h.checkpoint, h.opaque_]

theorem Silent.keeps (h : Silent p p') (hq : p.Queued) : Keeps cfg p p' :=
  ⟨h.queued hq, fun hm => h.matches_iff.mpr (TapProducer.matches_iff.mp hm)⟩

theorem Keeps.trans (h : Keeps cfg p p') (h' : Keeps cfg p' p'') : Keeps cfg p p'' :=
  ⟨h'.queued, fun hm => h'.matches_ (h.matches_ hm)⟩

theorem Keeps.take (hack : cfg.supportAck) (hq : p'.Queued) (hlog : p'.tapLog = p.tapLog)
    (hc : p'.checkpointMsgCounter = p.checkpointMsgCounter + if m.isCheckpoint then 1 else 0)
    (ho : p'.opaqueMsgCounter = p.opaqueMsgCounter + if m.isOpaque then 1 else 0) :
    Keeps cfg p (p'.addTapLogElement cfg m) := by
  have hbooks := addTapLogElement_books (p := p') (m := m) hack
  refine ⟨hbooks.queued hq, fun hm => hbooks.matches_iff.mpr ?_⟩
  rw [hlog, hc, ho, hm.checkpoint, hm.opaque_]
  simp

theorem sendNext_keeps (hack : cfg.supportAck) (hq : p.Queued) (hm : m.isItem) :
    Keeps cfg p (p.sendNext cfg m).1 := by
  have hkind : m.isCheckpoint = false ∧ m.isOpaque = false := by
    obtain ⟨tag, vb, body⟩ := m
    cases body <;> first | exact ⟨rfl, rfl⟩ | cases hm
  have hlog := Keeps.take (p := p) (m := m) hack hq rfl (by simp [hkind]) (by simp [hkind])
  exact hlog.trans (requestAck_silent.keeps hlog.queued)

theorem nextVBucketHighPriority_keeps (hack : cfg.supportAck) (hq : p.Queued) :
    Keeps cfg p (p.nextVBucketHighPriority cfg).1 := by
  have hsub := dropWhile_subset (l := p.vBucketHighPriority) fun m =>
    !(m.unfiltered || cfg.vbucketFilter m.vbucket)
  unfold nextVBucketHighPriority
  split
  · exact Silent.keeps ⟨rfl, rfl, rfl, fun hq => ⟨hq.checkpoint, nofun⟩⟩ hq
  · rename_i m rest hdrop
    rw [hdrop] at hsub
    have hm := hq.high m (hsub (.head _))
    refine Keeps.take hack
      ⟨hq.checkpoint, fun m' hm' => hq.high m' (hsub (.tail _ hm'))⟩
      rfl (by simp [hm]) ?_
    obtain ⟨tag, vb, body⟩ := m
    cases body <;> simp [TapMessage.counts, TapMessage.isOpaque]

variable {r : TapProducer κ × Option (TapMessage κ)}

theorem walkTaken_keeps (h : Keeps cfg p r.1) : Keeps cfg p (walkTaken cfg r).1 := by
  obtain ⟨p', _ | m⟩ := r
  · exact h
  · exact h.trans (requestAck_silent.keeps h.queued)

section
variable (hack : cfg.supportAck) (hq : p.Queued)
include hack hq

theorem nextCheckpointMessage_keeps : Keeps cfg p (p.nextCheckpointMessage cfg).1 := by
  have hsub := dropWhile_subset (l := p.checkpointMsgs) fun m => !cfg.vbucketFilter m.vbucket
  unfold nextCheckpointMessage
  split
  · exact Silent.keeps ⟨rfl, rfl, rfl, fun hq => ⟨nofun, hq.high⟩⟩ hq
  · rename_i m rest hdrop
    rw [hdrop] at hsub
    have hm := hq.checkpoint m (hsub (.head _))
    refine Keeps.take hack
      ⟨fun m' hm' => hq.checkpoint m' (hsub (.tail _ hm')), hq.high⟩
      rfl (by simp [hm]) ?_
    obtain ⟨tag, vb, body⟩ := m
    cases body <;> simp_all [TapMessage.isCheckpoint, TapMessage.isOpaque]

theorem walkFetched_keeps (deleted : Bool) : Keeps cfg p (p.walkFetched cfg deleted).1 := by
  have hrest : ∀ rest, Keeps cfg p { p with backfilledItems := rest } := fun rest =>
    Silent.keeps ⟨rfl, rfl, rfl, fun hq => ⟨hq.checkpoint, hq.high⟩⟩ hq
  unfold walkFetched
  split
  · exact (Silent.refl p).keeps hq
  · dsimp only
    split
    · split_ifs <;> first
        | exact (hrest _).trans (sendNext_keeps hack (hrest _).queued rfl)
        | exact hrest _
    · exact hrest _

theorem walkQueued_keeps (r : Lookup) (allocated : Bool) :
    Keeps cfg p (p.walkQueued cfg r allocated).1 := by
  have hrest : ∀ rest jobs, Keeps cfg p { p with queue := rest, bgJobs := jobs } := fun rest jobs =>
    Silent.keeps ⟨rfl, rfl, rfl, fun hq => ⟨hq.checkpoint, hq.high⟩⟩ hq
  unfold walkQueued
  split
  · exact (Silent.refl p).keeps hq
  · rename_i m rest _
    have hsend : m.isItem → Keeps cfg p (sendNext cfg { p with queue := rest } m).1 := fun hm =>
      (hrest rest p.bgJobs).trans (sendNext_keeps hack (hrest _ _).queued hm)
    obtain ⟨tag, vb, body⟩ := m
    cases body with
    | item key op =>
      cases op
      case set => cases r <;> first | exact hsend rfl | exact hrest _ _
      case del =>
        dsimp only
        split_ifs
        · exact hsend rfl
        · exact hrest _ _
    | _ => exact hrest _ _

end

def Last (r : TapProducer κ × Option (TapMessage κ)) : Prop :=
  ∀ m ∈ r.2, ∃ log n, r.1.tapLog = log ++ [⟨n, m⟩]

section
variable (hack : cfg.supportAck)
include hack

theorem addTapLogElement_last : Last (p.addTapLogElement cfg m, some m) := by
  rintro m' hm
  obtain rfl := Option.mem_some.mp hm
  exact ⟨_, _, (addTapLogElement_books hack).log⟩

theorem nextVBucketHighPriority_last : Last (p.nextVBucketHighPriority cfg) := by
  unfold nextVBucketHighPriority
  split
  · exact nofun
  · exact addTapLogElement_last hack

theorem nextVBucketLowPriority_last : Last (p.nextVBucketLowPriority cfg) := by
  unfold nextVBucketLowPriority
  split
  · exact nofun
  · dsimp only
    split_ifs
    · exact addTapLogElement_last hack
    · exact nextVBucketHighPriority_last hack

theorem walkLow_keeps (hq : p.Queued) (h : p.walkLow cfg = .ok r) : Keeps cfg p r.1 := by
  have hlast := nextVBucketLowPriority_last (p := p) hack
  -- a message of low priority is a vbucket message, or the walker stops
  have hnext : (∀ m ∈ (p.nextVBucketLowPriority cfg).2,
      m.isCheckpoint = false ∧ m.isOpaque = false) →
      Keeps cfg p (p.nextVBucketLowPriority cfg).1 := by
    have hrest : ∀ rest, Silent p { p with vBucketLowPriority := rest } := fun rest =>
      ⟨rfl, rfl, rfl, fun hq => ⟨hq.checkpoint, hq.high⟩⟩
    unfold nextVBucketLowPriority
    split
    · exact fun _ => (Silent.refl p).keeps hq
    · dsimp only
      split_ifs
      · intro hm
        obtain ⟨hc, ho⟩ := hm _ rfl
        exact Keeps.take hack ⟨hq.checkpoint, hq.high⟩ rfl (by simp [hc]) (by simp [ho])
      · rename_i rest _ _
        have hkeep : Keeps cfg p _ := (hrest rest).keeps hq
        exact fun _ => hkeep.trans (nextVBucketHighPriority_keeps hack hkeep.queued)
  unfold walkLow at h
  rcases hn : p.nextVBucketLowPriority cfg with ⟨p1, _ | m⟩ <;> rw [hn] at h hnext hlast
  · cases h
    exact hnext nofun
  · obtain ⟨tag, vb, body⟩ := m
    cases body <;> first | cases h | skip
    have hkeep := hnext (by simp [TapMessage.isCheckpoint, TapMessage.isOpaque])
    obtain ⟨log, n, hlog⟩ := hlast _ rfl
    dsimp only at h hkeep hlog
    split_ifs at h
    · cases h
      refine hkeep.trans ⟨⟨hkeep.queued.checkpoint, hkeep.queued.high⟩, fun hm => ?_⟩
      rw [matches_iff, hlog] at hm
      rw [matches_iff]
      simpa [addVBucketLowPriority, hlog, TapMessage.isCheckpoint, TapMessage.isOpaque] using hm
    · cases h
      exact hkeep.trans (requestAck_silent.keeps hkeep.queued)

end

theorem received_silent (s : BitVec 32) : Silent p (p.received s) := by
  unfold received
  dsimp only
  split_ifs <;> exact ⟨rfl, rfl, rfl, fun hq => ⟨hq.checkpoint, hq.high⟩⟩

theorem acknowledged_books : Books p (p.acknowledged cfg m) p.tapLog
    (p.checkpointMsgCounter - if m.isCheckpoint && cfg.supportCheckpointSync then 1 else 0)
    (p.opaqueMsgCounter - if m.isOpaque then 1 else 0) := by
  obtain ⟨tag, vb, body⟩ := m
  cases body with
  | checkpoint start n =>
    simp only [acknowledged, TapMessage.isCheckpoint, TapMessage.isOpaque, Bool.true_and,
      Bool.false_eq_true, if_false, sub_zero]
    split_ifs <;> exact ⟨rfl, by simp [updateState], rfl, fun hq => ⟨hq.checkpoint, hq.high⟩⟩
  | _ =>
    simp only [acknowledged, TapMessage.isCheckpoint, TapMessage.isOpaque, Bool.false_and,
      Bool.false_eq_true, if_false, if_true, sub_zero]
    exact ⟨rfl, rfl, rfl, fun hq => ⟨hq.checkpoint, hq.high⟩⟩

theorem rollback_loop {log : List (TapLogElement κ)}
    (h : log.foldlM (rollbackElement cfg) p = .ok p') : Books p p' p.tapLog
      (p.checkpointMsgCounter - logged TapMessage.isCheckpoint log)
      (p.opaqueMsgCounter - logged TapMessage.isOpaque log) := by
  induction log generalizing p with
  | nil =>
    cases h
    exact ⟨rfl, (sub_zero _).symm, (sub_zero _).symm, id⟩
  | cons e log ih =>
    rw [foldlM_cons] at h
    have hone : ∀ {p1}, rollbackElement cfg p e = .ok p1 → p1 = p.reschedule cfg e.message := by
      intro p1 h1
      unfold rollbackElement at h1
      split at h1
      · cases h1
      · exact (Except.ok.inj h1).symm
    cases h1 : rollbackElement cfg p e with
    | error f =>
      rw [h1] at h
      cases h
    | ok p1 =>
      rw [h1] at h
      obtain rfl := hone h1
      obtain ⟨hlog, hc, ho, hq⟩ := @reschedule_books κ cfg p e.message
      obtain ⟨hlog', hc', ho', hq'⟩ := ih h
      refine ⟨hlog'.trans hlog, ?_, ?_, fun h => hq' (hq h)⟩
      · rw [hc', hc, logged_cons, sub_sub]
      · rw [ho', ho, logged_cons, sub_sub]

theorem processAck_matches (hq : p.Queued) (hm : p.Matches cfg) (s : BitVec 32)
    (status : BitVec 16) :
    (p.processAck cfg s status).1.Queued ∧
      ((p.processAck cfg s status).1.Matches cfg ↔ Accounts cfg p (.processAck s status)) := by
  have hrec := received_silent (p := p) s
  have hq' := hrec.queued hq
  have hc := hrec.checkpoint.trans hm.checkpoint
  have ho := hrec.opaque_.trans hm.opaque_
  have hlog := hrec.log
  unfold processAck Accounts
  dsimp only
  generalize p.received s = p1 at *
  rw [hlog]
  cases hsplit : split TapLogElement.seqno s p.tapLog with
  | none =>
    dsimp only
    split_ifs with hs
    · exact ⟨hq', iff_of_true (matches_iff.mpr ⟨hlog ▸ hc, hlog ▸ ho⟩) (.inl hs)⟩
    · refine ⟨⟨hq'.checkpoint, hq'.high⟩, ?_⟩
      rw [matches_iff, or_iff_right hs, uncounted_iff, ← hc, ← ho]
      simp
  | some t =>
    obtain ⟨before, e, after⟩ := t
    rw [(eq_of_split hsplit).1] at hc ho
    simp only [logged_append, logged_cons] at hc ho
    dsimp only
    rw [uncounted_iff]
    split_ifs with hs ht
    · obtain ⟨-, hc', ho', hq''⟩ := @acknowledged_books κ cfg p1 e.message
      refine ⟨⟨(hq'' hq').checkpoint, (hq'' hq').high⟩, ?_⟩
      rw [matches_iff]
      dsimp only
      rw [hc', ho', hc, ho]
      have hnonneg : 0 ≤ logged TapMessage.isCheckpoint before := Nat.cast_nonneg _
      cases e.message.isCheckpoint <;> cases cfg.supportCheckpointSync <;> simp [hs] <;> omega
    · obtain ⟨-, hc', ho', hq''⟩ := @reschedule_books κ cfg p1 e.message
      refine ⟨⟨(hq'' hq').checkpoint, (hq'' hq').high⟩, ?_⟩
      rw [matches_iff]
      dsimp only
      rw [hc', ho', hc, ho]
      simp only [hs, false_implies, and_true]
      omega
    · refine ⟨⟨hq'.checkpoint, hq'.high⟩, ?_⟩
      rw [matches_iff]
      dsimp only
      rw [hc, ho, logged_cons, logged_cons]
      simp only [hs, false_implies, and_true]
      omega

theorem rollback_matches (hq : p.Queued) (hm : p.Matches cfg) (h : p.rollback cfg = .ok p') :
    p'.Queued ∧ (p'.Matches cfg ↔ Accounts cfg p .rollback) := by
  unfold rollback at h
  unfold Accounts
  split_ifs at h with hclosed
  · cases h
    refine ⟨⟨nofun, nofun⟩, ?_⟩
    rw [matches_iff, ← logged_eq_zero, ← hm.opaque_]
    simp [hclosed, clearQueues]
  · cases hloop : p.tapLog.foldlM (rollbackElement cfg) { p with tapLog := [] } with
    | error f =>
      rw [hloop] at h
      cases h
    | ok p1 =>
      rw [hloop] at h
      cases h
      obtain ⟨hlog, hc, ho, hq1⟩ := rollback_loop hloop
      have hq1 := hq1 ⟨hq.checkpoint, hq.high⟩
      refine ⟨⟨hq1.checkpoint, hq1.high⟩,
        iff_of_true (matches_iff.mpr ?_) fun h => absurd h hclosed⟩
      dsimp only
      rw [hlog, hc, ho]
      exact ⟨sub_eq_zero.mpr hm.checkpoint, sub_eq_zero.mpr hm.opaque_⟩

/-- One call: the counters match after it just when it accounts for what it drops. -/
theorem take_matches (hack : cfg.supportAck) {c : Call κ} (hq : p.Queued)
    (hm : p.Matches cfg) (h : take cfg p c = .ok (p', o)) :
    p'.Queued ∧ (p'.Matches cfg ↔ Accounts cfg p c) := by
  have hkeep : ∀ {p1 : TapProducer κ} {o1 : Output κ}, Keeps cfg p p1 →
      Except.ok (p1, o1) = (.ok (p', o) : Except TapFault _) → Accounts cfg p c →
      p'.Queued ∧ (p'.Matches cfg ↔ Accounts cfg p c) := by
    intro p1 o1 hk h hacc
    cases h
    exact ⟨hk.queued, iff_of_true (hk.matches_ hm) hacc⟩
  cases c with
  | processAck s status =>
    cases h
    exact processAck_matches hq hm s status
  | rollback =>
    cases hr : p.rollback cfg <;> rw [take, hr] at h
    · cases h
    · cases h
      exact rollback_matches hq hm hr
  | walkLow =>
    cases hr : p.walkLow cfg <;> rw [take, hr] at h
    · cases h
    · exact hkeep (walkLow_keeps hack hq hr) h trivial
  | addEvent m =>
    refine hkeep (Silent.keeps ?_ hq) h trivial
    split_ifs
    · exact addEvent_silent
    · exact .refl p
  | refill m isLastItem => exact hkeep ((refill_silent isLastItem).keeps hq) h trivial
  | takeOver tag tag' vb =>
    refine hkeep (Silent.keeps ?_ hq) h trivial
    split_ifs
    · exact (addVBucketHighPriority_silent rfl).trans addVBucketLowPriority_silent
    · exact .refl p
  | addOpaque tag vb command => exact hkeep ((addVBucketHighPriority_silent rfl).keeps hq) h trivial
  | backfilled m =>
    refine hkeep (Silent.keeps ?_ hq) h trivial
    split_ifs
    · exact completeBGFetchJob_silent
    · exact .refl p
  | bgFetch i r => exact hkeep ((bgFetch_silent i r).keeps hq) h trivial
  | walkHigh => exact hkeep (walkTaken_keeps (nextVBucketHighPriority_keeps hack hq)) h trivial
  | walkCheckpoint => exact hkeep (walkTaken_keeps (nextCheckpointMessage_keeps hack hq)) h trivial
  | walkFetched deleted => exact hkeep (walkFetched_keeps hack hq deleted) h trivial
  | walkQueued r allocated => exact hkeep (walkQueued_keeps hack hq r allocated) h trivial

theorem step_matches (hack : cfg.supportAck) {c : Call κ} (hq : p.Queued)
    (hm : p.Matches cfg) (h : step cfg p c = .ok (p', o)) :
    p'.Queued ∧ (p'.Matches cfg ↔ Accounts cfg p c) := by
  unfold step at h
  split_ifs at h with hpause
  · -- only a call of the walker pauses
    cases h
    refine ⟨hq, iff_of_true hm ?_⟩
    cases c with
    | processAck | rollback => cases hpause
    | _ => trivial
  · exact take_matches hack hq hm h

/-- In a run of a connection with acknowledgements the counters match the log throughout, just when
no call drops a counted message unseen. -/
theorem counters_match_iff (hack : cfg.supportAck) (states : BitVec 16 → Option TapCheckpointState)
    (calls : List (Call κ)) :
    Throughout (step cfg) (Matches cfg) (new cfg states) calls ↔
      Along (step cfg) (Accounts cfg) (new cfg states) calls := by
  refine throughout_iff Queued (fun p c p' o hq hm h => step_matches hack hq hm h) ?_ ⟨nofun, nofun⟩
    (matches_iff.mpr ⟨rfl, rfl⟩)
  intro p c f _ h
  cases c with
  | rollback =>
    intro hclosed
    have h : take cfg p .rollback = .error f := h
    rw [take, rollback, if_pos hclosed] at h
    cases h
  | processAck s status => cases h
  | _ => trivial

def plainConfig : TapConfig where
  vbucketFilter _ := true
  supportAck := true
  supportCheckpointSync := true
  registeredTAPClient := false
  closedCheckpointOnly := false
  initialAckSequenceNumber := 1

theorem counters_match_opaque :
    Throughout (step plainConfig) (Matches plainConfig) (new (κ := ℕ) plainConfig fun _ => none)
      [.addOpaque 0 0 .enableAutoNack, .walkHigh, .processAck 2 ackSuccess] := by
  refine (counters_match_iff rfl _ _).mpr ?_
  refine .cons rfl trivial (.cons rfl trivial (.cons rfl ?_ trivial))
  exact show Uncounted [] ∧ _ from ⟨nofun, nofun⟩

/-- The answer to the second of two opaque messages drops the first one from the log and leaves its
count: the walker waits for an acknowledgement of nothing. -/
theorem implicit_ack_leaks : (run (step plainConfig) (new (κ := ℕ) plainConfig fun _ => none)
        [.addOpaque 0 0 .enableAutoNack, .addOpaque 1 0 .enableCheckpointSync, .walkHigh, .walkHigh,
          .processAck 4 ackSuccess]).toOption.map
      (fun r => (r.1.tapLog, r.1.opaqueMsgCounter, r.1.waitForOpaqueMsgAck plainConfig)) =
        some ([], 1, true) := by
  decide

end TapProducer

end Appstack.EpEngine
