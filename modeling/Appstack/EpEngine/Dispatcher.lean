import Appstack.Lib.Machine

-- `dispatcher.cc`. The thread takes a task from a queue under the locks, and starts it after it has
-- released them.

namespace Appstack.EpEngine.Dispatcher

open Lib Function List Machine

/-- The tasks made for the callback of one client, by their numbers. Both queues are one list, as
the times and priorities only decide which of its tasks comes next. -/
structure State where
  dead : ℕ → Bool
  made : ℕ
  queue : List ℕ
  /-- The task that is popped but not started. -/
  popped : Option ℕ
  running : Option ℕ
  /-- What was stored through `outtid`. -/
  tid : Option ℕ

inductive Call
  | schedule | wake | cancel | snooze
  /-- The loop finds the task on top of its queue. -/
  | popNext (task : ℕ)
  | start
  /-- The callback returns whether it is to run again. -/
  | callback (again : Bool)
  deriving DecidableEq, Repr

inductive Fault
  | nullTask
  deriving DecidableEq, Repr

def State.push (s : State) : State :=
  { s with dead := update s.dead s.made false, made := s.made + 1
           queue := s.made :: s.queue }

def State.kill (s : State) (task : ℕ) : State :=
  { s with dead := update s.dead task true }

/-- A call, with the task that it starts. `wake` stores the task that it was given through `outtid`,
and not the new one. -/
def step (s : State) : Call → Except Fault (State × Option ℕ)
  | .schedule => .ok ({ s.push with tid := some s.made }, none)
  | .wake =>
    match s.tid with
    | none => .error .nullTask
    | some t => .ok ({ (s.kill t).push with tid := some t }, none)
  | .cancel =>
    match s.tid with
    | none => .error .nullTask
    | some t => .ok (s.kill t, none)
  | .snooze =>
    match s.tid with
    | none => .error .nullTask
    | some _ => .ok (s, none)
  | .popNext t =>
    .ok ({ s with queue := s.queue.erase t, popped := if s.dead t then none else some t }, none)
  | .start => .ok ({ s with popped := none, running := s.popped }, s.popped)
  | .callback again =>
    .ok ({ s with queue := if again then s.running.toList ++ s.queue else s.queue
                  running := none }, none)

def initial : State := ⟨fun _ => false, 0, [], none, none, none⟩

/-- The client schedules once before all else. The loop goes through its rounds. -/
def Allowed (s : State) : Call → Prop
  | .schedule => s.tid = none
  | .wake | .cancel | .snooze => s.tid ≠ none
  | .popNext t => t ∈ s.queue ∧ s.popped = none ∧ s.running = none
  | .start => s.popped ≠ none
  | .callback _ => s.running ≠ none

def State.instances (s : State) : List ℕ := s.queue ++ (s.popped.toList ++ s.running.toList)

def State.live (s : State) : List ℕ := s.instances.filter (!s.dead ·)

/-- The client wakes and cancels while no task is live but the one whose id it has, and does not
cancel while a task is popped and not started. -/
def HoldsLive (s : State) : Call → Prop
  | .wake => ∀ t ∈ s.live, s.tid = some t
  | .cancel => (∀ t ∈ s.live, s.tid = some t) ∧ s.popped = none
  | _ => True

instance (s : State) (c : Call) : Decidable (Allowed s c) := by
  cases c <;> unfold Allowed <;> infer_instance

instance (s : State) (c : Call) : Decidable (HoldsLive s c) := by
  cases c <;> unfold HoldsLive <;> infer_instance

structure Inv (s : State) : Prop where
  bound : ∀ t ∈ s.instances, t < s.made
  one : s.live.length ≤ 1
  scheduled : s.tid = none → s.made = 0

variable {s s' : State} {call : Call} {out : Option ℕ}

theorem mem_live {t : ℕ} : t ∈ s.live ↔ t ∈ s.instances ∧ s.dead t = false := by
  simp [State.live]

theorem live_kill (t : ℕ) : (s.kill t).live = s.live.filter (· ≠ t) := by
  rw [State.live, State.live, filter_filter]
  apply filter_congr
  intro x _
  by_cases hx : x = t <;> simp [State.kill, hx]

theorem live_kill_eq_nil {t : ℕ} (ht : s.tid = some t) (hlive : ∀ x ∈ s.live, s.tid = some x) :
    (s.kill t).live = [] := by
  rw [live_kill, filter_eq_nil_iff]
  intro x hx
  have heq : t = x := Option.some.inj (ht.symm.trans (hlive x hx))
  simp [heq]

theorem live_push (hbound : ∀ t ∈ s.instances, t < s.made) (hlive : s.live = []) (tid : ℕ) :
    State.live { s.push with tid := some tid } = [s.made] := by
  change (s.made :: s.instances).filter (!update s.dead s.made false ·) = _
  rw [filter_cons_of_pos (by simp), filter_eq_nil_iff.mpr]
  intro t ht
  rw [update_of_ne (hbound t ht).ne]
  exact filter_eq_nil_iff.mp hlive t ht

theorem Inv.push (hbound : ∀ t ∈ s.instances, t < s.made) (hlive : s.live = []) (tid : ℕ) :
    Inv { s.push with tid := some tid } where
  bound t ht := by
    obtain rfl | ht := mem_cons.mp ht
    · exact Nat.lt_succ_self _
    · exact (hbound t ht).trans (Nat.lt_succ_self _)
  one := by rw [live_push hbound hlive, length_singleton]
  scheduled := nofun

theorem Inv.kill (h : Inv s) (t : ℕ) : Inv (s.kill t) :=
  ⟨h.bound, by rw [live_kill]; exact (length_filter_le ..).trans h.one, h.scheduled⟩

theorem live_move (hdead : s'.dead = s.dead)
    (hsub : ∀ t, s'.instances.count t ≤ s.instances.count t) : List.Subperm s'.live s.live := by
  rw [State.live, State.live, hdead]
  exact (subperm_ext_iff.mpr fun t _ => hsub t).filter _

theorem Inv.move (h : Inv s) (hs : s'.dead = s.dead ∧ s'.made = s.made ∧ s'.tid = s.tid)
    (hsub : ∀ t, s'.instances.count t ≤ s.instances.count t) : Inv s' := by
  obtain ⟨hdead, hmade, htid⟩ := hs
  refine ⟨fun t ht => ?_, (live_move hdead hsub).length_le.trans h.one, ?_⟩
  · rw [hmade]
    exact h.bound t (count_pos_iff.mp ((count_pos_iff.mpr ht).trans_le (hsub t)))
  · rw [htid, hmade]
    exact h.scheduled

/-- The loop moves tasks about, and drops some. -/
theorem count_instances_le (hallowed : Allowed s call) (hstep : step s call = .ok (s', out))
    (hloop : call ≠ .schedule ∧ call ≠ .wake ∧ call ≠ .cancel) :
    (s'.dead = s.dead ∧ s'.made = s.made ∧ s'.tid = s.tid) ∧
      ∀ t, s'.instances.count t ≤ s.instances.count t := by
  cases call with
  | schedule | wake | cancel => simp at hloop
  | snooze =>
    obtain ⟨t, ht⟩ := Option.ne_none_iff_exists'.mp hallowed
    simp only [step, ht] at hstep
    cases hstep
    exact ⟨⟨rfl, rfl, rfl⟩, fun _ => le_rfl⟩
  | popNext t =>
    cases hstep
    obtain ⟨hmem, hpopped, hrunning⟩ := hallowed
    refine ⟨⟨rfl, rfl, rfl⟩, fun t' => ?_⟩
    have hcount := (perm_cons_erase hmem).count_eq t'
    simp only [State.instances, hpopped, hrunning, count_append, hcount]
    split_ifs <;> simp [count_cons]
  | start =>
    cases hstep
    refine ⟨⟨rfl, rfl, rfl⟩, fun t => ?_⟩
    simp [State.instances, count_append]
  | callback again =>
    cases hstep
    refine ⟨⟨rfl, rfl, rfl⟩, fun t => ?_⟩
    cases again with
    | false => simp [State.instances, count_append]
    | true =>
      simp only [State.instances, count_append, if_true, Option.toList_none, count_nil]
      omega

theorem step_inv (h : Inv s) (hcall : Allowed s call ∧ HoldsLive s call)
    (hstep : step s call = .ok (s', out)) : Inv s' := by
  obtain ⟨hallowed, hlive⟩ := hcall
  cases call with
  | schedule =>
    cases hstep
    refine Inv.push h.bound (eq_nil_iff_forall_not_mem.mpr fun t ht => ?_) _
    have hlt := h.bound t (mem_live.mp ht).1
    rw [h.scheduled hallowed] at hlt
    exact Nat.not_lt_zero t hlt
  | wake =>
    obtain ⟨t, ht⟩ := Option.ne_none_iff_exists'.mp hallowed
    simp only [step, ht] at hstep
    cases hstep
    exact Inv.push (s := s.kill t) h.bound (live_kill_eq_nil ht hlive) t
  | cancel =>
    obtain ⟨t, ht⟩ := Option.ne_none_iff_exists'.mp hallowed
    simp only [step, ht] at hstep
    cases hstep
    exact h.kill t
  | snooze | popNext | start | callback =>
    obtain ⟨hs, hsub⟩ := count_instances_le hallowed hstep (by simp)
    exact h.move hs hsub

def Quiet (s : State) : Prop := s.live = [] ∧ s.popped = none ∧ s.tid ≠ none

theorem Quiet.next (hq : Quiet s) (hallowed : Allowed s call)
    (hstep : step s call = .ok (s', out)) (hwake : call ≠ .wake) : Quiet s' ∧ out = none := by
  obtain ⟨hlive, hpopped, hsched⟩ := hq
  cases call with
  | schedule => exact absurd hallowed hsched
  | wake => exact absurd rfl hwake
  | cancel =>
    obtain ⟨t, ht⟩ := Option.ne_none_iff_exists'.mp hsched
    simp only [step, ht] at hstep
    cases hstep
    exact ⟨⟨by rw [live_kill, hlive, filter_nil], hpopped, hsched⟩, rfl⟩
  | start => exact absurd hpopped hallowed
  | snooze =>
    obtain ⟨t, ht⟩ := Option.ne_none_iff_exists'.mp hsched
    simp only [step, ht] at hstep
    cases hstep
    exact ⟨⟨hlive, hpopped, hsched⟩, rfl⟩
  | popNext t =>
    obtain ⟨⟨hdead, -⟩, hsub⟩ := count_instances_le hallowed hstep (by simp)
    have hnil : s'.live = [] := subperm_nil.mp (hlive ▸ live_move hdead hsub)
    cases hstep
    have hgone : s.dead t = true := by
      by_contra hnot
      have hmem : t ∈ s.live :=
        mem_live.mpr ⟨mem_append_left _ hallowed.1, Bool.eq_false_iff.mpr hnot⟩
      simp [hlive] at hmem
    exact ⟨⟨hnil, by simp [hgone], hsched⟩, rfl⟩
  | callback again =>
    obtain ⟨⟨hdead, -⟩, hsub⟩ := count_instances_le hallowed hstep (by simp)
    have hnil : s'.live = [] := subperm_nil.mp (hlive ▸ live_move hdead hsub)
    cases hstep
    exact ⟨⟨hnil, hpopped, hsched⟩, rfl⟩

theorem Quiet.run (hq : Quiet s) {calls : List Call} {outs : List (Option ℕ)}
    (hwake : .wake ∉ calls)
    (hcalls : Along step (fun s c => Allowed s c ∧ HoldsLive s c) s calls)
    (hrun : run step s calls = .ok (s', outs)) : ∀ o ∈ outs, o = none := by
  induction calls generalizing s outs with
  | nil =>
    cases hrun
    simp
  | cons call calls ih =>
    obtain ⟨s1, out, outs, h1, h2, rfl⟩ := run_cons_ok.mp hrun
    rw [mem_cons, not_or] at hwake
    obtain ⟨hq1, rfl⟩ := hq.next hcalls.1.1 h1 (Ne.symm hwake.1)
    rw [forall_mem_cons]
    exact ⟨rfl, ih hq1 hwake.2 (hcalls.2 s1 none h1) h2⟩

theorem initial_inv : Inv initial := ⟨nofun, Nat.zero_le _, fun _ => rfl⟩

/-- A client that has the id of the task that is live has one live instance at most, one after it
wakes the task, and none is started after it cancels it. -/
theorem one_live_instance (calls : List Call)
    (h : Along step (fun s c => Allowed s c ∧ HoldsLive s c) initial calls) :
    Throughout step (fun s => s.live.length ≤ 1) initial calls ∧
      (∀ a b s outs, calls = a ++ .wake :: b →
        run step initial (a ++ [.wake]) = .ok (s, outs) → s.live.length = 1) ∧
      ∀ a b s outs s' outs', calls = a ++ .cancel :: b → .wake ∉ b →
        run step initial (a ++ [.cancel]) = .ok (s, outs) →
        run step s b = .ok (s', outs') → ∀ o ∈ outs', o = none := by
  have hstep : ∀ s c s' o, Inv s → Allowed s c ∧ HoldsLive s c → step s c = .ok (s', o) → Inv s' :=
    fun s c s' o hs hc hstep => step_inv hs hc hstep
  refine ⟨throughout_of_along hstep (fun s hs => hs.one) initial_inv h, ?_, ?_⟩
  · rintro a b s outs rfl hrun
    obtain ⟨s₁, os₁, os₂, h₁, h₂, -⟩ := run_append_ok.mp hrun
    obtain ⟨s₂, o, os₃, hwake, hnil, -⟩ := run_cons_ok.mp h₂
    cases hnil
    have hinv := run_inv hstep initial_inv h.left h₁
    obtain ⟨hallowed, hlive⟩ := (h.append h₁).1
    obtain ⟨t, ht⟩ := Option.ne_none_iff_exists'.mp hallowed
    simp only [step, ht] at hwake
    cases hwake
    rw [live_push (s := s₁.kill t) hinv.bound (live_kill_eq_nil ht hlive) t, length_singleton]
  · rintro a b s outs s' outs' rfl hb hrun hrest
    obtain ⟨s₁, os₁, os₂, h₁, h₂, -⟩ := run_append_ok.mp hrun
    obtain ⟨s₂, o, os₃, hcancel, hnil, -⟩ := run_cons_ok.mp h₂
    obtain ⟨rfl, -⟩ := Prod.mk.inj (Except.ok.inj hnil)
    obtain ⟨⟨hallowed, hlive, hpopped⟩, hafter⟩ := h.append h₁
    have hall := hafter s₂ o hcancel
    obtain ⟨t, ht⟩ := Option.ne_none_iff_exists'.mp hallowed
    simp only [step, ht] at hcancel
    cases hcancel
    exact Quiet.run ⟨live_kill_eq_nil ht hlive, hpopped, hallowed⟩ hb hall hrest

def wokenTwice : List Call :=
  [.schedule, .popNext 0, .start, .wake, .callback true, .popNext 0, .popNext 1, .start,
    .callback false, .wake]

/-- The callback is woken while it runs, runs again, and is woken when it is done. -/
theorem one_live_instance_woken :
    Throughout step (fun s => s.live.length ≤ 1) initial wokenTwice ∧
      ∃ s outs, run step initial wokenTwice = .ok (s, outs) ∧ s.live.length = 1 := by
  have h : Along step (fun s c => Allowed s c ∧ HoldsLive s c) initial wokenTwice := by
    decide +kernel
  obtain ⟨hall, hwake, -⟩ := one_live_instance wokenTwice h
  exact ⟨hall, _, _, rfl, hwake (wokenTwice.take 9) [] _ _ rfl rfl⟩

/-- A client that wakes twice has two instances, the one that it cancels after it has woken it is
started, and so is the one that it cancels after it was popped. -/
theorem wake_keeps_old_id :
    (∃ s outs, run step initial [.schedule, .wake, .wake] = .ok (s, outs) ∧ s.live = [2, 1]) ∧
    (∃ s, run step initial [.schedule, .wake, .cancel, .popNext 1, .start] =
      .ok (s, [none, none, none, none, some 1])) ∧
    ∃ s, run step initial [.schedule, .popNext 0, .cancel, .start] =
      .ok (s, [none, none, none, some 0]) :=
  ⟨⟨_, _, rfl, rfl⟩, ⟨_, rfl⟩, _, rfl⟩

end Appstack.EpEngine.Dispatcher
