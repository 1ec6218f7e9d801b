import Mathlib

namespace Appstack.Lib.Machine

open List

universe u

section
variable {ε : Type*} {α β : Type u}

theorem bind_eq_ok {x : Except ε α} {f : α → Except ε β} {b : β} :
    (x >>= f) = .ok b ↔ ∃ a, x = .ok a ∧ f a = .ok b := by
  cases x with
  | error e => simp [bind, Except.bind]
  | ok a => simp [bind, Except.bind]

theorem mapM_eq_ok {f : α → Except ε β} {l : List α} {l' : List β} :
    l.mapM f = .ok l' ↔ List.Forall₂ (fun a b => f a = .ok b) l l' := by
  induction l generalizing l' with
  | nil =>
    rw [mapM_nil, forall₂_nil_left_iff]
    constructor
    · intro h
      exact (Except.ok.inj h).symm
    · rintro rfl
      rfl
  | cons a l ih =>
    rw [mapM_cons, bind_eq_ok]
    constructor
    · rintro ⟨b, hb, h⟩
      obtain ⟨bs, hbs, h⟩ := bind_eq_ok.mp h
      cases h
      exact .cons hb (ih.mp hbs)
    · rintro (_ | ⟨hb, hbs⟩)
      exact ⟨_, hb, bind_eq_ok.mpr ⟨_, ih.mpr hbs, rfl⟩⟩

theorem mapM_ok {f : α → Except ε β} {l : List α}
    (hf : ∀ a ∈ l, ∃ b, f a = .ok b) : ∃ l', l.mapM f = .ok l' := by
  induction l with
  | nil => exact ⟨[], rfl⟩
  | cons a l ih =>
    obtain ⟨b, hb⟩ := hf a (.head _)
    obtain ⟨l', hl'⟩ := ih fun a ha => hf a (.tail _ ha)
    exact ⟨b :: l', mapM_eq_ok.mpr (.cons hb (mapM_eq_ok.mp hl'))⟩

end

/-- A loop over a list that can stop keeps what each round keeps. -/
theorem foldlM_inv {ε : Type*} {σ ι : Type u} {f : σ → ι → Except ε σ} (Inv : σ → Prop)
    (hstep : ∀ s i s', Inv s → f s i = .ok s' → Inv s') {is : List ι} {s s' : σ} (hs : Inv s)
    (h : is.foldlM f s = .ok s') : Inv s' := by
  induction is generalizing s with
  | nil =>
    cases h
    exact hs
  | cons i is ih =>
    rw [foldlM_cons] at h
    obtain ⟨s1, h1, h⟩ := bind_eq_ok.mp h
    exact ih (hstep s i s1 hs h1) h

variable {σ τ ι ω ε : Type*} (step : σ → ι → Except ε (σ × ω))

/-- The state after all inputs, and the outputs in order. -/
def run : σ → List ι → Except ε (σ × List ω)
  | s, [] => .ok (s, [])
  | s, i :: is =>
    match step s i with
    | .error e => .error e
    | .ok (s', o) =>
      match run s' is with
      | .error e => .error e
      | .ok (s'', os) => .ok (s'', o :: os)

/-- Every state of the run meets `P` with the input that it takes. -/
def Along (P : σ → ι → Prop) : σ → List ι → Prop
  | _, [] => True
  | s, i :: is => P s i ∧ ∀ s' o, step s i = .ok (s', o) → Along P s' is

/-- Every state that the run comes to is good. -/
def Throughout (Good : σ → Prop) (s : σ) (is : List ι) : Prop :=
  ∀ js ks s' os, is = js ++ ks → run step s js = .ok (s', os) → Good s'

variable {step} {s s' : σ} {i : ι} {is js : List ι} {os : List ω} {P : σ → ι → Prop}

theorem run_cons_ok :
    run step s (i :: is) = .ok (s', os) ↔
      ∃ s1 o os1, step s i = .ok (s1, o) ∧ run step s1 is = .ok (s', os1) ∧ os = o :: os1 := by
  rw [run]
  constructor
  · intro h
    split at h
    · cases h
    next s1 o hs =>
      split at h
      · cases h
      next s2 os1 hr =>
        cases h
        exact ⟨s1, o, os1, hs, hr, rfl⟩
  · rintro ⟨s1, o, os1, hs, hr, rfl⟩
    simp only [hs, hr]

theorem run_append_ok :
    run step s (is ++ js) = .ok (s', os) ↔
      ∃ s1 os1 os2, run step s is = .ok (s1, os1) ∧ run step s1 js = .ok (s', os2) ∧
        os = os1 ++ os2 := by
  induction is generalizing s os with
  | nil =>
    constructor
    · intro h
      exact ⟨s, [], os, rfl, h, rfl⟩
    · rintro ⟨s1, os1, os2, h1, h2, rfl⟩
      cases h1
      exact h2
  | cons i is ih =>
    simp only [cons_append, run_cons_ok, ih]
    constructor
    · rintro ⟨s1, o, _, hs, ⟨s2, os1, os2, h1, h2, rfl⟩, rfl⟩
      exact ⟨s2, o :: os1, os2, ⟨s1, o, os1, hs, h1, rfl⟩, h2, rfl⟩
    · rintro ⟨s2, _, os2, ⟨s1, o, os1, hs, h1, rfl⟩, h2, rfl⟩
      exact ⟨s1, o, _, hs, ⟨s2, os1, os2, h1, h2, rfl⟩, rfl⟩

theorem run_concat_error {e : ε} (h : run step s is = .ok (s', os)) (hi : step s' i = .error e) :
    run step s (is ++ [i]) = .error e := by
  induction is generalizing s os with
  | nil =>
    cases h
    simp only [nil_append, run, hi]
  | cons j is ih =>
    obtain ⟨s1, o, os1, h1, h2, rfl⟩ := run_cons_ok.mp h
    rw [cons_append, run]
    simp only [h1, ih h2]

theorem Along.and {Q : σ → ι → Prop} (h : Along step P s is) (h' : Along step Q s is) :
    Along step (fun s i => P s i ∧ Q s i) s is := by
  induction is generalizing s with
  | nil => trivial
  | cons i is ih => exact ⟨⟨h.1, h'.1⟩, fun s' o hs => ih (h.2 s' o hs) (h'.2 s' o hs)⟩

theorem along_of_forall (h : ∀ s, ∀ i ∈ is, P s i) : Along step P s is := by
  induction is generalizing s with
  | nil => trivial
  | cons i is ih => exact ⟨h s i (.head _), fun s1 _ _ => ih fun s j hj => h s j (.tail _ hj)⟩

theorem Along.left (h : Along step P s (is ++ js)) : Along step P s is := by
  induction is generalizing s with
  | nil => trivial
  | cons i is ih => exact ⟨h.1, fun s' o hs => ih (h.2 s' o hs)⟩

theorem Along.append (h : Along step P s (is ++ js)) (hrun : run step s is = .ok (s', os)) :
    Along step P s' js := by
  induction is generalizing s os with
  | nil =>
    cases hrun
    exact h
  | cons i is ih =>
    obtain ⟨s1, o, os1, h1, h2, rfl⟩ := run_cons_ok.mp hrun
    exact ih (h.2 s1 o h1) h2

theorem along_cons :
    Along step P s (i :: is) ↔ P s i ∧ match step s i with
        | .error _ => True
        | .ok (s', _) => Along step P s' is := by
  rw [Along]
  cases step s i with
  | error e => simp
  | ok r => simp [Prod.ext_iff]

theorem Along.cons {s1 : σ} {o : ω} (h : step s i = .ok (s1, o)) (hi : P s i)
    (his : Along step P s1 is) : Along step P s (i :: is) := by
  rw [along_cons, h]
  exact ⟨hi, his⟩

/-- What a step keeps that meets `P`, the states of a run have. -/
theorem throughout_of_along {I Good : σ → Prop}
    (hstep : ∀ s i s' o, I s → P s i → step s i = .ok (s', o) → I s')
    (hgood : ∀ s, I s → Good s) (hs : I s) (hP : Along step P s is) :
    Throughout step Good s is := by
  induction is generalizing s with
  | nil =>
    intro js ks s' os heq hrun
    obtain ⟨rfl, -⟩ := append_eq_nil_iff.mp heq.symm
    cases hrun
    exact hgood s hs
  | cons i is ih =>
    intro js ks s' os heq hrun
    cases js with
    | nil =>
      cases hrun
      exact hgood s hs
    | cons j js =>
      cases heq
      obtain ⟨s1, o, os1, h1, h2, rfl⟩ := run_cons_ok.mp hrun
      exact ih (hstep s i s1 o hs hP.1 h1) (hP.2 s1 o h1) js ks s' os1 rfl h2

instance decidableAlong [∀ s i, Decidable (P s i)] :
    ∀ s is, Decidable (Along step P s is)
  | _, [] => .isTrue trivial
  | s, i :: is =>
    letI : Decidable (match step s i with
        | .error _ => True
        | .ok (s', _) => Along step P s' is) :=
      match step s i with
      | .error _ => .isTrue trivial
      | .ok (s', _) => decidableAlong s' is
    decidable_of_iff _ along_cons.symm

theorem run_inv {I : σ → Prop}
    (hstep : ∀ s i s' o, I s → P s i → step s i = .ok (s', o) → I s')
    (hs : I s) (hP : Along step P s is) (h : run step s is = .ok (s', os)) : I s' := by
  induction is generalizing s os with
  | nil =>
    cases h
    exact hs
  | cons i is ih =>
    obtain ⟨s1, o, os1, h1, h2, rfl⟩ := run_cons_ok.mp h
    exact ih (hstep s i s1 o hs hP.1 h1) (hP.2 s1 o h1) h2

/-- If a step from a good state leads to a good one just when it meets `P`, and every step that
stops meets it, then the states of a run are good just when its steps meet `P`. -/
theorem throughout_iff (I : σ → Prop) {Good : σ → Prop}
    (hstep : ∀ s i s' o, I s → Good s → step s i = .ok (s', o) → I s' ∧ (Good s' ↔ P s i))
    (hstop : ∀ s i e, I s → step s i = .error e → P s i) (hs : I s) (hgood : Good s) :
    Throughout step Good s is ↔ Along step P s is := by
  induction is generalizing s with
  | nil =>
    refine ⟨fun _ => trivial, fun _ js ks s' os heq hrun => ?_⟩
    obtain ⟨rfl, -⟩ := append_eq_nil_iff.mp heq.symm
    cases hrun
    exact hgood
  | cons i is ih =>
    constructor
    · intro hall
      have hone : ∀ s1 o, step s i = .ok (s1, o) → Good s1 := by
        intro s1 o h1
        exact hall [i] is s1 [o] rfl (run_cons_ok.mpr ⟨s1, o, [], h1, rfl, rfl⟩)
      constructor
      · cases h1 : step s i with
        | error e => exact hstop s i e hs h1
        | ok r => exact (hstep s i r.1 r.2 hs hgood h1).2.mp (hone r.1 r.2 h1)
      · intro s1 o h1
        refine (ih (hstep s i s1 o hs hgood h1).1 (hone s1 o h1)).mp ?_
        rintro js ks s' os rfl hrun
        exact hall (i :: js) ks s' (o :: os) rfl (run_cons_ok.mpr ⟨s1, o, os, h1, hrun, rfl⟩)
    · rintro ⟨hP, hrest⟩ js ks s' os heq hrun
      cases js with
      | nil =>
        cases hrun
        exact hgood
      | cons j js =>
        cases heq
        obtain ⟨s1, o, os1, h1, h2, rfl⟩ := run_cons_ok.mp hrun
        obtain ⟨hs1, hiff⟩ := hstep s i s1 o hs hgood h1
        exact (ih hs1 (hiff.mpr hP)).mpr (hrest s1 o h1) js ks s' os1 rfl h2

theorem run_total {I : σ → Prop}
    (hstep : ∀ s i, I s → P s i → ∃ s' o, step s i = .ok (s', o) ∧ I s')
    (hs : I s) (hP : Along step P s is) :
    ∃ s' os, run step s is = .ok (s', os) ∧ I s' := by
  induction is generalizing s with
  | nil => exact ⟨s, [], rfl, hs⟩
  | cons i is ih =>
    obtain ⟨s1, o, h1, hs1⟩ := hstep s i hs hP.1
    obtain ⟨s', os, h2, hs'⟩ := ih hs1 (hP.2 s1 o h1)
    exact ⟨s', o :: os, run_cons_ok.mpr ⟨s1, o, os, h1, h2, rfl⟩, hs'⟩

/-- A machine that can follow every step of another one follows its runs, without stopping. -/
theorem simulates {ω' ε' : Type*} {step' : τ → ι → Except ε' (τ × ω')} {R : σ → τ → Prop}
    {O : ω → ω' → Prop} {t t' : τ} {os' : List ω'}
    (hstep : ∀ s t i t' o', R s t → P s i → step' t i = .ok (t', o') →
      ∃ s' o, step s i = .ok (s', o) ∧ R s' t' ∧ O o o')
    (hR : R s t) (hP : Along step P s is) (h' : run step' t is = .ok (t', os')) :
    ∃ s' os, run step s is = .ok (s', os) ∧ R s' t' ∧ List.Forall₂ O os os' := by
  induction is generalizing s t os' with
  | nil =>
    cases h'
    exact ⟨s, [], rfl, hR, .nil⟩
  | cons i is ih =>
    obtain ⟨t1, o', os1', h1', h2', rfl⟩ := run_cons_ok.mp h'
    obtain ⟨s1, o, h1, hR1, hO⟩ := hstep s t i t1 o' hR hP.1 h1'
    obtain ⟨s2, os1, h2, hR2, hOs⟩ := ih hR1 (hP.2 s1 o h1) h2'
    exact ⟨s2, o :: os1, run_cons_ok.mpr ⟨s1, o, os1, h1, h2, rfl⟩, hR2, .cons hO hOs⟩

end Appstack.Lib.Machine
