import Mathlib

namespace Appstack.Lib

universe u

variable {ε : Type*} {α β : Type u} {P Q : α → Prop} {x : Except ε α}

def Yields (P : α → Prop) (x : Except ε α) : Prop := ∃ r, x = .ok r ∧ P r

namespace Yields

instance [DecidablePred P] : Decidable (Yields P x) :=
  match x with
  | .ok r => decidable_of_iff (P r) ⟨fun h => ⟨r, rfl, h⟩, fun ⟨_, hr, h⟩ => Except.ok.inj hr ▸ h⟩
  | .error _ => isFalse fun ⟨_, hr, _⟩ => nomatch hr

theorem ok {r : α} (h : P r) : Yields P (.ok r : Except ε α) := ⟨r, rfl, h⟩

theorem mono (h : Yields P x) (hPQ : ∀ r, P r → Q r) : Yields Q x := by
  obtain ⟨r, hx, hr⟩ := h
  exact ⟨r, hx, hPQ r hr⟩

theorem bind {f : α → Except ε β} {R : β → Prop} (h : Yields P x)
    (hf : ∀ r, P r → Yields R (f r)) : Yields R (x >>= f) := by
  obtain ⟨r, rfl, hr⟩ := h
  exact hf r hr

theorem foldlM {ι : Type u} {f : α → ι → Except ε α} (is : List ι)
    (hf : ∀ r i, i ∈ is → P r → Yields P (f r i)) {r : α} (hr : P r) :
    Yields P (is.foldlM f r) := by
  induction is generalizing r with
  | nil => exact ok hr
  | cons i is ih =>
    rw [List.foldlM_cons]
    apply (hf r i (.head _) hr).bind
    intro r' hr'
    exact ih (fun r j hj => hf r j (.tail _ hj)) hr'

end Yields

end Appstack.Lib
