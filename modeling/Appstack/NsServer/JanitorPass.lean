import Appstack.Lib.Dict
import Appstack.NsServer.Janitor

namespace Appstack.NsServer.Janitor

open Function List

variable {α : Type} [DecidableEq α]

def copies (states : States α) (vbucket : ℕ) (n : α) : Option VbState :=
  (nodeStates states vbucket).lookup n

/-- The calls of `ns_memcached`, for the vbucket `vbucket`. -/
def Command.apply (vbucket : ℕ) (f : α → Option VbState) : Command α → α → Option VbState
  | .setVbucket n v s => if v = vbucket then update f n (some s) else f
  | .deleteVbucket n v => if v = vbucket then update f n none else f
  | .killChildren _ _ => f

/-- One node has the vbucket active, and heads the new chain, which has the length of the old one
and names no node twice. -/
def Restored (f : α → Option VbState) (chain : Chain α) (vbucket : ℕ)
    (out : Outcome α (Chain α)) : Prop :=
  ∃ c a, out.result = .ok c ∧ c.length = chain.length ∧ (c.filterMap id).Nodup ∧
    c.head? = some (some a) ∧
    ∀ n, out.commands.foldl (Command.apply vbucket) f n = some .active ↔ n = a

section
variable {states : States α} {chain future tail : Chain α} {vbucket : ℕ} {m n : α} {s : VbState}

theorem copyState_eq_reported :
    copyState states vbucket [] n = .reported s ↔ copies states vbucket n = some s := by
  unfold copyState copies
  cases (nodeStates states vbucket).lookup n <;> simp

theorem copyState_ne_zombie : copyState states vbucket [] n ≠ .zombie := by
  unfold copyState
  cases (nodeStates states vbucket).lookup n <;> simp

theorem mem_states_iff (h : ((nodeStates states vbucket).map Prod.fst).Nodup) :
    (n, vbucket, s) ∈ states ↔ copies states vbucket n = some s := by
  rw [← mem_nodeStates, copies, Lib.lookup_eq_some_iff h]

theorem foldl_apply_eq_active {cs : List (Command α)} {f : α → Option VbState}
    (h : ∀ c ∈ cs, ∀ n v s, c = .setVbucket n v s → s = .dead) :
    cs.foldl (Command.apply vbucket) f n = some .active ↔
      f n = some .active ∧ .setVbucket n vbucket .dead ∉ cs ∧ .deleteVbucket n vbucket ∉ cs := by
  induction cs generalizing f with
  | nil => simp
  | cons c cs ih =>
    rw [foldl_cons, ih fun c hc => h c (.tail _ hc)]
    cases c with
    | killChildren n' v => simp [Command.apply]
    | setVbucket n' v s =>
      obtain rfl := h _ (.head _) n' v s rfl
      by_cases hv : v = vbucket <;> by_cases hn : n = n' <;>
        simp [Command.apply, hv, hn, eq_comm (a := vbucket)]
    | deleteVbucket n' v =>
      by_cases hv : v = vbucket <;> by_cases hn : n = n' <;>
        simp [Command.apply, hv, hn, eq_comm (a := vbucket)]

theorem kept_kills (errorLogged : Bool)
    (hm : copyState states vbucket [] m = .reported .active) :
    ∀ c ∈ (doSanifyChain errorLogged states (some m :: tail) future vbucket []).commands,
      ∀ n v s, c = .setVbucket n v s → s = .dead := by
  rintro c hc n v s rfl
  rw [doSanifyChain_of_kept errorLogged future tail (.inl hm), mem_append] at hc
  obtain hc | hc := hc
  · obtain ⟨_, h⟩ | ⟨-, _, h, -⟩ := mem_walkPairs hc <;> cases h
    rfl
  · split_ifs at hc
    · obtain ⟨x, -, hx⟩ := mem_flatMap.mp hc
      unfold extraStep at hx
      split at hx <;> simp at hx <;> exact hx.2.2
    · cases hc

theorem result_of_kept (errorLogged : Bool) {c : Chain α}
    (hm : copyState states vbucket [] m = .reported .active) :
    (doSanifyChain errorLogged states (some m :: tail) future vbucket []).result = .ok c ↔
      (errorLogged = false ∨ ¬ActiveReplica states (some m :: tail) vbucket []) ∧
        c = some m :: tail := by
  rw [← walk_completes_iff errorLogged m tail]
  unfold doSanifyChain
  simp only [map_cons, chainState, Option.map_some, hm, ne_eq, not_true_eq_false, false_and,
    if_false]
  cases (walkPairs errorLogged vbucket (pairs (some (m, .reported .active) ::
      tail.map (chainState states vbucket [])))).2 with
  | none => simp [eq_comm]
  | some e => simp

theorem actives_eq : (tail.map (chainState states vbucket [])).filterMap activeOf =
    (tail.filterMap id).filter fun n => copies states vbucket n = some .active := by
  induction tail with
  | nil => rfl
  | cons c tail ih =>
    rw [map_cons, filterMap_cons, ih]
    cases c with
    | none => rfl
    | some n =>
      by_cases hn : copies states vbucket n = some .active
      · simp [chainState, copyState_eq_reported.mpr hn, activeOf, hn]
      · have hst : activeOf (chainState states vbucket [] (some n)) = none := by
          cases hc : copyState states vbucket [] n with
          | zombie => simp [chainState, activeOf, hc]
          | missing => simp [chainState, activeOf, hc]
          | reported s =>
            have hs := copyState_eq_reported.mp hc
            cases s <;> simp_all [chainState, activeOf]
        simp [hst, hn]

theorem mem_actives (hreports : ((nodeStates states vbucket).map Prod.fst).Nodup)
    (hchain : ((some m :: tail).filterMap id).Nodup) (hm : copies states vbucket m ≠ some .active) :
    let l := (tail.map (chainState states vbucket [])).filterMap activeOf ++
      ((extraStates states vbucket (some m :: tail)).filter fun x => x.2 = .active).map Prod.fst
    l.Nodup ∧ ∀ n, n ∈ l ↔ copies states vbucket n = some .active := by
  intro l
  have hextra : ∀ n, n ∈ ((extraStates states vbucket (some m :: tail)).filter
      fun x => x.2 = .active).map Prod.fst ↔
      copies states vbucket n = some .active ∧ some n ∉ some m :: tail := by
    intro n
    rw [← mem_states_iff hreports, ← mem_extraStates]
    simp
  have htail : ∀ n, n ∈ (tail.filterMap id).filter (fun n => copies states vbucket n = some .active) ↔
      some n ∈ tail ∧ copies states vbucket n = some .active := by
    simp
  rw [show l = _ from congrArg (· ++ _) actives_eq]
  refine ⟨nodup_append.mpr ⟨?_, ?_, ?_⟩, fun n => ?_⟩
  · exact (hchain.sublist ((sublist_cons_self _ _).filterMap id)).sublist filter_sublist
  · exact hreports.sublist ((filter_sublist.trans filter_sublist).map _)
  · rintro n hn n' hn' rfl
    exact ((hextra n).mp hn').2 (.tail _ ((htail n).mp hn).1)
  · rw [mem_append, htail, hextra]
    constructor
    · rintro (h | h)
      exacts [h.2, h.1]
    · intro h
      have hne : n ≠ m := fun hnm => hm (hnm ▸ h)
      by_cases hn : some n ∈ tail
      · exact .inl ⟨hn, h⟩
      · exact .inr ⟨h, by simp [hne, hn]⟩

omit [DecidableEq α] in
theorem eq_nil_or_singleton {l : List α} (h : l.Nodup) (hsame : ∀ a ∈ l, ∀ b ∈ l, a = b) :
    l = [] ∨ ∃ a, l = [a] := by
  match l with
  | [] => exact .inl rfl
  | [a] => exact .inr ⟨a, rfl⟩
  | a :: b :: l =>
    have hab : a = b := hsame a (by simp) b (by simp)
    simp [hab] at h

omit [DecidableEq α] in
theorem filterMap_pad (c : Chain α) (k : ℕ) :
    (c ++ List.replicate k none).filterMap id = c.filterMap id := by
  simp [filterMap_append]

theorem length_promote_le (a : α) (hchain : chain ≠ []) :
    (promote chain a).length ≤ chain.length := by
  have := length_pos_iff.mpr hchain
  unfold promote
  split
  · exact this
  · rename_i i hi
    obtain ⟨hlt, -⟩ := List.findIdx?_eq_some_iff_getElem.mp hi
    simp only [length_cons, length_drop]
    omega

theorem nodup_promote (a : α) (h : (chain.filterMap id).Nodup) :
    ((promote chain a).filterMap id).Nodup := by
  unfold promote
  split
  · simp
  · rename_i i hi
    obtain ⟨hlt, hget, -⟩ := List.findIdx?_eq_some_iff_getElem.mp hi
    have hdrop : some a :: chain.drop (i + 1) = chain.drop i := by
      rw [drop_eq_getElem_cons hlt, of_decide_eq_true hget]
    rw [hdrop]
    exact h.sublist ((drop_sublist i chain).filterMap id)

end

/-- A pass restores a single active copy, exactly if it need not report an active replica next to
an active master, or reports nothing. -/
theorem sanifyChain_restores_iff (errorLogged : Bool) (states : States α) (m : α)
    (tail future : Chain α) (vbucket : ℕ)
    (hreports : ((nodeStates states vbucket).map Prod.fst).Nodup)
    (hchain : ((some m :: tail).filterMap id).Nodup)
    (hfuture : future = [] ∨ future.length = (some m :: tail).length ∧ (future.filterMap id).Nodup)
    (hone : ∀ n n', n ≠ m → n' ≠ m → copies states vbucket n = some .active →
      copies states vbucket n' = some .active → n = n') :
    Restored (copies states vbucket) (some m :: tail) vbucket
        (sanifyChain errorLogged states (some m :: tail) future vbucket []) ↔
      ¬(errorLogged = true ∧ copies states vbucket m = some .active ∧
        ∃ n, some n ∈ tail ∧ copies states vbucket n = some .active) := by
  have hmtail : some m ∉ tail := fun hm => by
    simp only [filterMap_cons, id, nodup_cons, mem_filterMap] at hchain
    exact hchain.1 ⟨some m, hm, rfl⟩
  have hreplica : ActiveReplica states (some m :: tail) vbucket [] ↔
      ∃ n, some n ∈ tail ∧ copies states vbucket n = some .active := by
    simp [ActiveReplica, copyState_eq_reported]
  by_cases hm : copies states vbucket m = some .active
  · have hst := copyState_eq_reported.mpr hm
    constructor
    · rintro ⟨c, a, hres, -⟩ ⟨hlog, -, hact⟩
      cases hdo : (doSanifyChain errorLogged states (some m :: tail) future vbucket []).result with
      | error e => simp [sanifyChain, hdo, Except.map] at hres
      | ok c =>
        obtain ⟨hlog' | hnone, -⟩ := (result_of_kept errorLogged hst).mp hdo
        · simp [hlog] at hlog'
        · exact hnone (hreplica.mpr hact)
    · intro h
      have hcond : errorLogged = false ∨ ¬ActiveReplica states (some m :: tail) vbucket [] := by
        rw [hreplica]
        cases errorLogged with
        | false => exact .inl rfl
        | true => exact .inr fun hact => h ⟨rfl, hm, hact⟩
      have hres : (doSanifyChain errorLogged states (some m :: tail) future vbucket []).result =
          .ok (some m :: tail) := (result_of_kept errorLogged hst).mpr ⟨hcond, rfl⟩
      refine ⟨some m :: tail, m, by simp [sanifyChain, hres, Except.map], rfl, hchain, rfl,
        fun n => ?_⟩
      rw [sanifyChain, foldl_apply_eq_active (kept_kills errorLogged hst),
        setVbucket_mem_kept errorLogged future tail (.inl hst),
        deleteVbucket_mem_kept errorLogged future tail (.inl hst)]
      constructor
      · rintro ⟨hn, hset, -⟩
        by_contra hne
        by_cases hmem : some n ∈ tail
        · refine hset (.inl ⟨hcond.resolve_right fun hnone => ?_, hmem,
            copyState_eq_reported.mpr hn⟩)
          exact hnone (hreplica.mpr ⟨n, hmem, hn⟩)
        · exact hset (.inr ⟨hcond, .active, by simp, (mem_states_iff hreports).mpr hn,
            by simp [hne, hmem]⟩)
      · rintro rfl
        refine ⟨hm, ?_, ?_⟩
        · rintro (⟨-, hmem, -⟩ | ⟨-, s, -, -, hnot⟩)
          exacts [hmtail hmem, hnot (.head _)]
        · rintro ⟨-, -, s, -, hnot⟩
          exact hnot (.head _)
  · refine iff_of_true ?_ fun h => hm h.2.1
    have hst : copyState states vbucket [] m ≠ .reported .active ∧
        copyState states vbucket [] m ≠ .zombie :=
      ⟨fun h => hm (copyState_eq_reported.mp h), copyState_ne_zombie⟩
    obtain ⟨hnodup, hmem⟩ := mem_actives hreports hchain hm
    have hne : ∀ n, copies states vbucket n = some .active → n ≠ m := by
      rintro n hn rfl
      exact hm hn
    unfold Restored sanifyChain doSanifyChain
    simp only [map_cons, chainState, Option.map_some]
    rw [if_pos hst]
    obtain hnil | ⟨a, ha⟩ := eq_nil_or_singleton hnodup fun a ha b hb =>
      hone a b (hne a ((hmem a).mp ha)) (hne b ((hmem b).mp hb)) ((hmem a).mp ha) ((hmem b).mp hb)
    · -- no active copy at all: the master becomes one
      rw [hnil]
      refine ⟨some m :: tail, m, by simp [Except.map], rfl, hchain, rfl, fun n => ?_⟩
      by_cases hn : n = m
      · simp [Command.apply, hn]
      · have hnot : copies states vbucket n ≠ some .active := fun h => by
          have hn := (hmem n).mpr h
          rw [hnil] at hn
          cases hn
        simpa [Command.apply, hn] using hnot
    · rw [ha]
      have honly : ∀ n, copies states vbucket n = some .active ↔ n = a := by
        intro n
        rw [← hmem n, ha, mem_singleton]
      dsimp only
      by_cases hpick : pickFutureChain (nodeStates states vbucket) future a = true
      · obtain ⟨rest, rfl⟩ : ∃ rest, future = some a :: rest := by
          unfold pickFutureChain at hpick
          split at hpick
          · obtain ⟨hna, -⟩ := Bool.and_eq_true_iff.mp hpick
            exact ⟨_, by rw [of_decide_eq_true hna]⟩
          · cases hpick
        obtain ⟨hlen, hfut⟩ := hfuture.resolve_left (cons_ne_nil _ _)
        rw [if_pos hpick]
        exact ⟨some a :: rest, a, by simp [Except.map, hlen], hlen, hfut, rfl, honly⟩
      · rw [if_neg hpick]
        have hle := length_promote_le a (cons_ne_nil (some m) tail)
        refine ⟨_, a, rfl, ?_, ?_, ?_, honly⟩
        · rw [length_append, length_replicate]
          omega
        · rw [filterMap_pad]
          exact nodup_promote a hchain
        · unfold promote
          split <;> rfl

/-- The replica on node 1 was promoted, and the master on node 0 lost its copy. -/
theorem sanifyChain_restores_promoted :
    Restored (copies [(1, 7, .active), (2, 7, .dead)] 7) [some 0, some 1] 7
      (sanifyChain true [(1, 7, .active), (2, 7, .dead)] [some 0, some 1] [] 7 []) := by
  refine (sanifyChain_restores_iff true [(1, 7, .active), (2, 7, .dead)] 0 [some 1] [] 7 (by decide)
    (by decide) (.inl rfl) fun n n' _ _ hn hn' => ?_).mpr fun h => absurd h.2.1 (by decide)
  simp [copies, nodeStates, List.lookup] at hn hn'
  grind

/-- The message about an active replica next to an active master cannot be formatted. -/
theorem active_replica_crashes :
    (sanifyChain true [(0, 7, .active), (1, 7, .active)] [some 0, some 1] [] 7 []).result =
      .error .badarg := by
  decide

end Appstack.NsServer.Janitor
