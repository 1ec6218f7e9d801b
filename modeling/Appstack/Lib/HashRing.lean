import Mathlib

namespace Appstack.Lib.HashRing

open List

variable {γ δ β : Type*} [LinearOrder β] {key : γ → β} {ring : Set γ} {d : β} {x y : γ}

/-- The digest `d` belongs to `x`. -/
def Successor (key : γ → β) (ring : Set γ) (d : β) (x : γ) : Prop :=
  x ∈ ring ∧ ((d ≤ key x ∧ ∀ y ∈ ring, d ≤ key y → key x ≤ key y) ∨
      ((∀ y ∈ ring, key y < d) ∧ ∀ y ∈ ring, key x ≤ key y))

/-- On another ring with no other points the digest belongs to what stands at the same point. -/
theorem Successor.transfer (h : Successor key ring d x) {key' : δ → β} {ring' : Set δ} {x' : δ}
    (hx : x' ∈ ring') (hkey : key' x' = key x)
    (hsub : ∀ y' ∈ ring', ∃ y ∈ ring, key' y' = key y) : Successor key' ring' d x' := by
  refine ⟨hx, h.2.imp ?_ ?_⟩
  · rintro ⟨hd, hleast⟩
    refine ⟨hkey ▸ hd, ?_⟩
    intro y' hy' hd'
    obtain ⟨y, hy, heq⟩ := hsub y' hy'
    rw [hkey, heq]
    exact hleast y hy (heq ▸ hd')
  · rintro ⟨hall, hleast⟩
    constructor
    · intro y' hy'
      obtain ⟨y, hy, heq⟩ := hsub y' hy'
      exact heq ▸ hall y hy
    · intro y' hy'
      obtain ⟨y, hy, heq⟩ := hsub y' hy'
      rw [hkey, heq]
      exact hleast y hy

theorem Successor.unique (hinj : Set.InjOn key ring) (hx : Successor key ring d x)
    (hy : Successor key ring d y) : x = y := by
  apply hinj hx.1 hy.1
  obtain ⟨hxm, ⟨hdx, hx⟩ | ⟨hallx, hx⟩⟩ := hx
  · obtain ⟨hym, ⟨hdy, hy⟩ | ⟨hally, hy⟩⟩ := hy
    · exact le_antisymm (hx y hym hdy) (hy x hxm hdx)
    · exact absurd hdx (hally x hxm).not_ge
  · obtain ⟨hym, ⟨hdy, hy⟩ | ⟨hally, hy⟩⟩ := hy
    · exact absurd hdy (hallx y hym).not_ge
    · exact le_antisymm (hx y hym) (hy x hxm)

/-- On a sorted list: the first entry not before the digest, or else the first one. -/
def first (key : γ → β) (l : List γ) (d : β) : Option γ := (l.find? fun x => d ≤ key x).or l.head?

theorem first_successor {l : List γ} (hl : l.Pairwise fun x y => key x ≤ key y)
    (h : first key l d = some x) : Successor key {y | y ∈ l} d x := by
  rw [first] at h
  cases hf : l.find? fun x => d ≤ key x with
  | some z =>
    rw [hf, Option.some_or, Option.some.injEq] at h
    subst h
    obtain ⟨hz, as, bs, rfl, has⟩ := List.find?_eq_some_iff_append.mp hf
    refine ⟨mem_append_right _ (.head _), .inl ⟨by simpa using hz, ?_⟩⟩
    intro y hy hd
    rcases mem_append.mp hy with hy | hy
    · exact absurd hd (by simpa using has y hy)
    · rcases mem_cons.mp hy with rfl | hy
      · exact le_refl _
      · exact (pairwise_cons.mp (pairwise_append.mp hl).2.1).1 y hy
  | none =>
    rw [hf, Option.none_or] at h
    have hall : ∀ y ∈ l, key y < d := by
      intro y hy
      simpa using List.find?_eq_none.mp hf y hy
    cases l with
    | nil => cases h
    | cons z l =>
      cases h
      refine ⟨.head _, .inr ⟨hall, ?_⟩⟩
      intro y hy
      rcases mem_cons.mp hy with rfl | hy
      · exact le_refl _
      · exact (pairwise_cons.mp hl).1 y hy

end Appstack.Lib.HashRing
