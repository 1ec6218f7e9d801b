import Appstack.Lib.Machine

namespace Appstack.NsServer.ConfigSaver

open Lib.Machine

variable {κ β : Type} [LinearOrder κ] [DecidableEq β]

abbrev KVList (κ β : Type) := List (κ × β)

/-- What does not change: the static and the default configuration, and the upgrade of the policy
module. -/
structure Setup (κ β : Type) where
  directory : κ
  static : KVList κ β
  default : KVList κ β
  upgradeConfig : KVList κ β → KVList κ β

/-- `load_config`: the first pair of each key, sorted; the directory comes from the static
configuration. -/
def Setup.loadConfig (S : Setup κ β) (file : Option (KVList κ β)) : KVList κ β :=
  let pairs := (file.getD [] ++ S.static ++ S.default).foldl
    (fun (seen, acc) kv => if seen.contains kv.1 then (seen, acc) else (kv.1 :: seen, kv :: acc))
    ([S.directory], [])
  pairs.2.insertionSort fun a b => a.1 ≤ b.1

/-- A running saver process, and whether it has renamed its file. -/
structure Saver (κ β : Type) where
  pid : ℕ
  config : KVList κ β
  written : Bool
  deriving DecidableEq

/-- The server, its savers, the exits that it has not handled, and the file. In `waitSaver` the
server is inside the call of `clear`. -/
structure World (κ β : Type) where
  dynamic : KVList κ β
  saverPid : Option ℕ := none
  pendingMoreSave : Bool := false
  waitSaver : Bool := false
  running : List (Saver κ β) := []
  exits : List ℕ := []
  file : Option (KVList κ β)
  nextPid : ℕ := 0

def initiateSaveConfig (w : World κ β) : World κ β :=
  match w.saverPid with
  | none => { w with
      saverPid := some w.nextPid, pendingMoreSave := false, nextPid := w.nextPid + 1
      running := ⟨w.nextPid, w.dynamic, false⟩ :: w.running }
  | some _ => { w with pendingMoreSave := true }

/-- `init`: the state is built anew from the file, and saved if it was upgraded. -/
def init (S : Setup κ β) (w : World κ β) : World κ β :=
  let loaded := S.loadConfig w.file
  let upgraded := S.upgradeConfig loaded
  let w := { w with dynamic := upgraded, saverPid := none, pendingMoreSave := false }
  if upgraded ≠ loaded then initiateSaveConfig w else w

def handleInfo (w : World κ β) (pid : ℕ) : World κ β :=
  if w.saverPid = some pid then
    let w' := { w with saverPid := none }
    if w.pendingMoreSave then initiateSaveConfig w' else w'
  else w

inductive Event (κ β : Type)
  /-- The function may fail. -/
  | updateWithChanges (f : KVList κ β → Option (KVList κ β))
  | casConfig (new old : KVList κ β)
  | resave
  | clear (keep : List κ)
  | reload
  | written (pid : ℕ)
  | exited (pid : ℕ)
  | exitMessage (pid : ℕ)

/-- The calls, which the server takes up when it is not waiting in one. -/
def handleCall (S : Setup κ β) (w : World κ β) : Event κ β → World κ β
  | .updateWithChanges f =>
    match f w.dynamic with
    | some new => initiateSaveConfig { w with dynamic := new }
    | none => w
  | .casConfig new old =>
    if old = w.dynamic then initiateSaveConfig { w with dynamic := new } else w
  | .resave => initiateSaveConfig w
  | .clear keep =>
    { initiateSaveConfig { w with dynamic := w.dynamic.filter (keep.contains ·.1) } with waitSaver := true }
  | .reload => init S w
  | _ => w

/-- An event is an error where it cannot happen. -/
def step (S : Setup κ β) (w : World κ β) : Event κ β → Except Unit (World κ β × Unit)
  | .written pid =>
    match w.running.find? (·.pid = pid) with
    | some s => .ok ({ w with
        file := some s.config
        running := w.running.map fun s => if s.pid = pid then { s with written := true } else s }, ())
    | none => .error ()
  | .exited pid =>
    match w.running.find? (·.pid = pid) with
    | some s => if s.written then
        .ok ({ w with running := w.running.filter (·.pid ≠ pid), exits := pid :: w.exits }, ())
      else .error ()
    | none => .error ()
  | .exitMessage pid =>
    -- inside `wait_saver` the receive is for the saver only
    if pid ∈ w.exits ∧ (w.waitSaver → w.saverPid = some pid) then
      let w' := handleInfo { w with exits := w.exits.erase pid } pid
      if w'.waitSaver ∧ w'.saverPid = none then .ok (init S { w' with waitSaver := false }, ())
      else .ok (w', ())
    else .error ()
  | call => if w.waitSaver then .error () else .ok (handleCall S w call, ())

/-- What is loaded from the file is what it holds, or is upgraded and saved. -/
def Setup.Stable (S : Setup κ β) (file : Option (KVList κ β)) : Prop :=
  file = some (S.loadConfig file) ∨ S.upgradeConfig (S.loadConfig file) ≠ S.loadConfig file

instance (S : Setup κ β) (file : Option (KVList κ β)) : Decidable (S.Stable file) :=
  inferInstanceAs (Decidable (_ ∨ _))

/-- A reload comes when no saver is left, and what it or a `clear` loads is stable. -/
def Quiet (S : Setup κ β) (w : World κ β) : Event κ β → Prop
  | .reload => w.running = [] ∧ w.exits = [] ∧ S.Stable w.file
  | .clear keep => S.Stable (some (w.dynamic.filter (keep.contains ·.1)))
  | _ => True

instance (S : Setup κ β) (w : World κ β) (e : Event κ β) : Decidable (Quiet S w e) := by
  cases e <;> unfold Quiet <;> infer_instance

/-- At most one saver runs, and without one the file is current. A saver runs until the server has
handled its exit. -/
def CaughtUp (w : World κ β) : Prop :=
  w.running.length + w.exits.length ≤ 1 ∧ (w.running = [] → w.exits = [] → w.file = some w.dynamic)

/-- Where the current save stands. -/
inductive Phase (w : World κ β) : Prop
  | idle (h : w.saverPid = none) (hrun : w.running = []) (hexits : w.exits = [])
    (hfile : w.file = some w.dynamic)
  | saving {s : Saver κ β} (h : w.saverPid = some s.pid) (hrun : w.running = [s])
    (hexits : w.exits = []) (hconfig : w.pendingMoreSave ∨ s.config = w.dynamic)
    (hfile : s.written → w.file = some s.config)
  | exited {pid : ℕ} (h : w.saverPid = some pid) (hrun : w.running = []) (hexits : w.exits = [pid])
    (hfile : w.pendingMoreSave ∨ w.file = some w.dynamic)

structure Inv (S : Setup κ β) (w : World κ β) : Prop where
  phase : Phase w
  waits : w.waitSaver → w.saverPid ≠ none ∧ S.Stable (some w.dynamic)

section
variable {S : Setup κ β} {w : World κ β}

omit [LinearOrder κ] [DecidableEq β]

theorem initiate_of_none (h : w.saverPid = none) :
    initiateSaveConfig w = { w with
      saverPid := some w.nextPid, pendingMoreSave := false, nextPid := w.nextPid + 1
      running := ⟨w.nextPid, w.dynamic, false⟩ :: w.running } := by
  rw [initiateSaveConfig, h]

theorem initiate_of_some {pid : ℕ} (h : w.saverPid = some pid) :
    initiateSaveConfig w = { w with pendingMoreSave := true } := by
  rw [initiateSaveConfig, h]

@[simp] theorem waitSaver_initiate : (initiateSaveConfig w).waitSaver = w.waitSaver := by
  unfold initiateSaveConfig
  split <;> rfl

@[simp] theorem dynamic_initiate : (initiateSaveConfig w).dynamic = w.dynamic := by
  unfold initiateSaveConfig
  split <;> rfl

@[simp] theorem saverPid_initiate : (initiateSaveConfig w).saverPid ≠ none := by
  unfold initiateSaveConfig
  split
  · simp
  · next h => simp [h]

theorem Phase.initiate (h : Phase w) (new : KVList κ β) :
    Phase (initiateSaveConfig { w with dynamic := new }) := by
  cases h with
  | idle h hrun hexits =>
    rw [initiate_of_none (w := { w with dynamic := new }) h]
    exact .saving rfl (by rw [hrun]) hexits (.inr rfl) (by simp)
  | saving h hrun hexits _ hfile =>
    rw [initiate_of_some (w := { w with dynamic := new }) h]
    exact .saving h hrun hexits (.inl rfl) hfile
  | exited h hrun hexits =>
    rw [initiate_of_some (w := { w with dynamic := new }) h]
    exact .exited h hrun hexits (.inl rfl)

theorem Phase.congr {b : Bool} (h : Phase w) : Phase { w with waitSaver := b } := by
  cases h with
  | idle h hrun hexits hfile => exact .idle h hrun hexits hfile
  | saving h hrun hexits hconfig hfile => exact .saving h hrun hexits hconfig hfile
  | exited h hrun hexits hfile => exact .exited h hrun hexits hfile

theorem phase_initiate (h : w.saverPid = none) (hrun : w.running = []) (hexits : w.exits = []) :
    Phase (initiateSaveConfig w) := by
  rw [initiate_of_none h]
  exact .saving rfl (by rw [hrun]) hexits (.inr rfl) (by simp)

variable [LinearOrder κ] [DecidableEq β]

theorem inv_init (hrun : w.running = []) (hexits : w.exits = []) (hwait : w.waitSaver = false)
    (hstable : S.Stable w.file) : Inv S (init S w) := by
  unfold init
  dsimp only
  split_ifs with hup
  · exact ⟨phase_initiate rfl hrun hexits, by simp [hwait]⟩
  · have hup := not_not.mp hup
    have hfile := hstable.resolve_right (not_not.mpr hup)
    exact ⟨.idle rfl hrun hexits (hfile.trans (congrArg some hup.symm)), by simp [hwait]⟩

theorem inv_handleCall (h : Inv S w) (hwait : w.waitSaver = false) (e : Event κ β)
    (he : Quiet S w e) : Inv S (handleCall S w e) := by
  have hsave : ∀ new, Inv S (initiateSaveConfig { w with dynamic := new }) := fun new =>
    ⟨h.phase.initiate new, by simp [hwait]⟩
  cases e with
  | updateWithChanges f =>
    rw [handleCall]
    split
    exacts [hsave _, h]
  | casConfig new old =>
    rw [handleCall]
    split_ifs
    exacts [hsave _, h]
  | resave => exact hsave w.dynamic
  | clear keep =>
    refine ⟨(h.phase.initiate _).congr, fun _ => ⟨saverPid_initiate, ?_⟩⟩
    exact dynamic_initiate.symm ▸ he
  | reload => exact inv_init he.1 he.2.1 hwait he.2.2
  | written | exited | exitMessage => exact h

theorem inv_exitMessage (h : Inv S w) {pid : ℕ} {w' : World κ β} {o : Unit}
    (hstep : step S w (.exitMessage pid) = .ok (w', o)) : Inv S w' := by
  rw [step] at hstep
  split_ifs at hstep with hpid
  cases h.phase with
  | idle _ _ hexits => simp [hexits] at hpid
  | saving _ _ hexits => simp [hexits] at hpid
  | exited hsaver hrun hexits hfile =>
    obtain rfl : pid = _ := by simpa [hexits] using hpid.1
    rw [handleInfo, if_pos hsaver] at hstep
    by_cases hmore : w.pendingMoreSave
    · simp only [hmore, if_true, saverPid_initiate, and_false, if_false, Except.ok.injEq,
        Prod.mk.injEq, and_true] at hstep
      subst hstep
      exact ⟨phase_initiate rfl hrun (by simp [hexits]), fun hw => ⟨saverPid_initiate, by
        simpa using (h.waits (by simpa using hw)).2⟩⟩
    · have hfile := hfile.resolve_left hmore
      simp only [hmore, if_false, and_true, Bool.false_eq_true] at hstep
      split_ifs at hstep with hwait <;> cases hstep
      · exact inv_init hrun (by simp [hexits]) rfl (hfile ▸ (h.waits hwait).2)
      · exact ⟨.idle rfl hrun (by simp [hexits]) hfile, fun hw => absurd hw hwait⟩

theorem inv_step {w' : World κ β} {o : Unit} {e : Event κ β} (h : Inv S w) (he : Quiet S w e)
    (hstep : step S w e = .ok (w', o)) : Inv S w' := by
  have hcall : (if w.waitSaver then .error () else .ok (handleCall S w e, ()) :
      Except Unit (World κ β × Unit)) = .ok (w', o) → Inv S w' := by
    intro hok
    split_ifs at hok with hwait
    cases hok
    exact inv_handleCall h (by simpa using hwait) e he
  cases e with
  | updateWithChanges | casConfig | resave | clear | reload => exact hcall hstep
  | exitMessage pid => exact inv_exitMessage h hstep
  | written pid =>
    rw [step] at hstep
    cases h.phase with
    | idle _ hrun => simp [hrun] at hstep
    | exited _ hrun => simp [hrun] at hstep
    | @saving s hsaver hrun hexits hconfig hfile =>
      by_cases hs : s.pid = pid
      · subst hs
        simp only [hrun, List.find?_cons_of_pos, decide_true, List.map_cons, List.map_nil,
          if_true] at hstep
        cases hstep
        exact ⟨.saving (s := { s with written := true }) hsaver rfl hexits hconfig fun _ => rfl,
          h.waits⟩
      · simp [hrun, hs] at hstep
  | exited pid =>
    rw [step] at hstep
    cases h.phase with
    | idle _ hrun => simp [hrun] at hstep
    | exited _ hrun => simp [hrun] at hstep
    | @saving s hsaver hrun hexits hconfig hfile =>
      by_cases hs : s.pid = pid
      · subst hs
        simp only [hrun, List.find?_cons_of_pos, decide_true] at hstep
        split_ifs at hstep with hwritten
        cases hstep
        refine ⟨.exited hsaver (by simp) (by simp [hexits]) ?_, h.waits⟩
        rcases hconfig with hmore | hconfig
        exacts [.inl hmore, .inr (hconfig ▸ hfile hwritten)]
      · simp [hrun, hs] at hstep

omit [LinearOrder κ] [DecidableEq β] in
theorem Phase.caughtUp (h : Phase w) : CaughtUp w := by
  cases h with
  | idle _ hrun hexits hfile => exact ⟨by simp [hrun, hexits], fun _ _ => hfile⟩
  | saving _ hrun hexits => exact ⟨by simp [hrun, hexits], by simp [hrun]⟩
  | exited _ hrun hexits => exact ⟨by simp [hrun, hexits], by simp [hexits]⟩

end

/-- In every run from a server that was started on a stable file, in which no reload meets a saver
and what is loaded is stable, the file catches up. -/
theorem caughtUp_throughout (S : Setup κ β) (file : Option (KVList κ β)) (hfile : S.Stable file)
    (events : List (Event κ β))
    (hquiet : Along (step S) (Quiet S) (init S { dynamic := [], file }) events) :
    Throughout (step S) CaughtUp (init S { dynamic := [], file }) events :=
  throughout_of_along (fun _ _ _ _ h he hstep => inv_step h he hstep) (fun _ h => h.phase.caughtUp)
    (inv_init rfl rfl rfl hfile) hquiet

/-- An update, a reload and another update: two savers run, and the first one may write last. -/
theorem reload_forgets_saver :
    let S : Setup ℕ ℕ := ⟨0, [], [], id⟩
    let update (k : ℕ) : Event ℕ ℕ := .updateWithChanges fun _ => some [(k, k)]
    let after (es : List (Event ℕ ℕ)) :=
      (run (step S) (init S { dynamic := [], file := some [] }) es).toOption.map Prod.fst
    S.Stable (some []) ∧
    (after [update 1, .reload, update 2]).map (·.running.length) = some 2 ∧
    (after [update 1, .reload, update 2, .written 1, .exited 1, .exitMessage 1, .written 0,
      .exited 0, .exitMessage 0]).map (fun w => (w.running.length, w.exits.length, w.file, w.dynamic)) =
      some (0, 0, some [(1, 1)], [(2, 2)]) := by
  exact ⟨by decide, by decide, rfl⟩

/-- Two updates, a `clear` that waits for both saves, and a reload. -/
theorem caughtUp_throughout_clear :
    let S : Setup ℕ ℕ := ⟨0, [], [(3, 3)], id⟩
    let events : List (Event ℕ ℕ) := [.updateWithChanges fun c => some ((1, 1) :: c), .clear [1, 3],
      .written 0, .exited 0, .exitMessage 0, .written 1, .exited 1, .exitMessage 1, .reload]
    Throughout (step S) CaughtUp (init S { dynamic := [], file := some [(3, 3)] }) events ∧
    ((run (step S) (init S { dynamic := [], file := some [(3, 3)] }) events).toOption.map
      fun r => r.1.file) = some (some [(1, 1), (3, 3)]) := by
  intro S events
  refine ⟨caughtUp_throughout S _ (by decide) events (by decide), by decide⟩

end Appstack.NsServer.ConfigSaver
