import Mathlib

namespace Appstack.Lib.DoublyLinked

open Function List Option

variable {α : Type*} [DecidableEq α]

/-- A link of a node is set, if there is such a node. -/
def put (f : α → Option α) (i v : Option α) : α → Option α :=
  match i with
  | none => f
  | some a => update f a v

variable {f next prev next' prev' : α → Option α} {b a i v : Option α} {x y : α}
  {l p q : List α}

theorem put_of_ne (h : i ≠ some y) : put f i v y = f y := by
  cases i with
  | none => rfl
  | some x => exact update_of_ne (fun hy => h (congrArg some hy.symm)) ..

theorem put_self (h : i = some y) : put f i v y = v := by
  subst h
  exact update_self ..

/-- The links go through the nodes from `b` to `a`. -/
def Seg (next prev : α → Option α) (b : Option α) : List α → Option α → Prop
  | [], _ => True
  | x :: l, a => prev x = b ∧ next x = l.head?.or a ∧ Seg next prev (some x) l a

omit [DecidableEq α] in
theorem seg_append : Seg next prev b (p ++ q) a ↔
    Seg next prev b p (q.head?.or a) ∧ Seg next prev (p.getLast?.or b) q a := by
  induction p generalizing b with
  | nil => simp [Seg]
  | cons x p ih =>
    have hlast : ((x :: p).getLast?).or b = p.getLast?.or (some x) := by
      cases h : p.getLast? <;> simp [List.getLast?_cons, h]
    have hhead : (p ++ q).head?.or a = p.head?.or (q.head?.or a) := by
      cases p <;> simp
    rw [cons_append, Seg, ih, Seg, hlast, hhead]
    tauto

omit [DecidableEq α] in
theorem Seg.congr (h : Seg next prev b l a) (hnext : ∀ y ∈ l, next' y = next y)
    (hprev : ∀ y ∈ l, prev' y = prev y) : Seg next' prev' b l a := by
  induction l generalizing b with
  | nil => trivial
  | cons x l ih =>
    obtain ⟨h1, h2, h3⟩ := h
    rw [forall_mem_cons] at hnext hprev
    exact ⟨hprev.1.trans h1, hnext.1.trans h2, ih h3 hnext.2 hprev.2⟩

theorem Seg.lead (h : Seg next prev b p a) (hp : p.Nodup) (a' : Option α) :
    Seg (put next p.getLast? a') prev b p a' := by
  rcases eq_nil_or_concat p with rfl | ⟨p, x, rfl⟩
  · trivial
  rw [concat_eq_append] at h hp ⊢
  rw [List.getLast?_concat]
  rw [seg_append] at h ⊢
  have hx : ∀ y ∈ p, some x ≠ some y := fun y hy hxy => by
    cases hxy
    exact (disjoint_of_nodup_append hp) hy (mem_singleton_self x)
  exact ⟨h.1.congr (fun y hy => put_of_ne (hx y hy)) fun _ _ => rfl, h.2.1, put_self rfl, trivial⟩

theorem Seg.back (h : Seg next prev b q a) (hq : q.Nodup) (b' : Option α) :
    Seg next (put prev q.head? b') b' q a := by
  cases q with
  | nil => trivial
  | cons x q =>
    have hx : ∀ y ∈ q, some x ≠ some y := fun y hy hxy => by
      cases hxy
      exact (nodup_cons.mp hq).1 hy
    exact ⟨put_self rfl, h.2.1, h.2.2.congr (fun _ _ => rfl) fun y hy => put_of_ne (hx y hy)⟩

/-- A list with its head and its tail. -/
structure Linked (next prev : α → Option α) (head tail : Option α) (l : List α) : Prop where
  head : head = l.head?
  tail : tail = l.getLast?
  nodup : l.Nodup
  seg : Seg next prev none l none

section
omit [DecidableEq α]

theorem Linked.congr {head tail : Option α} (h : Linked next prev head tail l)
    (hnext : ∀ y ∈ l, next' y = next y) (hprev : ∀ y ∈ l, prev' y = prev y) :
    Linked next' prev' head tail l :=
  ⟨h.head, h.tail, h.nodup, h.seg.congr hnext hprev⟩

theorem Linked.around {head tail : Option α} (h : Linked next prev head tail (p ++ x :: q)) :
    prev x = p.getLast? ∧ next x = q.head? := by
  have hseg := (seg_append.mp h.seg).2
  exact ⟨by simpa using hseg.1, by simpa using hseg.2.1⟩

theorem head?_append_cons : (p ++ x :: q).head? = p.head?.or (some x) := by
  cases p <;> rfl

theorem ne_of_mem_nodup (h : (p ++ q).Nodup) (hy : y ∈ q) : p.getLast? ≠ some y := fun hlast =>
  disjoint_of_nodup_append h (mem_of_getLast? hlast) hy

theorem head_ne_of_mem_nodup (h : (p ++ q).Nodup) (hy : y ∈ p) : q.head? ≠ some y := fun hhead =>
  disjoint_of_nodup_append h hy (mem_of_mem_head? hhead)

end

theorem Linked.remove {head tail : Option α} (h : Linked next prev head tail (p ++ x :: q)) :
    Linked (put next p.getLast? q.head?) (put prev q.head? p.getLast?)
      (if head = some x then q.head? else head) (if tail = some x then p.getLast? else tail)
      (p ++ q) := by
  have hnodup : (p ++ q).Nodup := h.nodup.sublist ((sublist_cons_self x q).append_left p)
  have hx : x ∉ p ++ q := (nodup_middle.mp h.nodup |> nodup_cons.mp).1
  obtain ⟨hp, hq⟩ := seg_append.mp h.seg
  refine ⟨?_, ?_, hnodup, seg_append.mpr ⟨?_, ?_⟩⟩
  · rw [h.head]
    cases p with
    | nil => simp
    | cons y p =>
      have hy : y ≠ x := fun hyx => hx (by simp [hyx])
      simp [hy]
  · rw [h.tail]
    rcases eq_nil_or_concat q with rfl | ⟨q, y, rfl⟩
    · simp
    · have hy : y ≠ x := fun hyx => hx (by simp [hyx])
      simp [List.getLast?_cons, List.getLast?_append, hy]
  · have hpq := hp.lead (nodup_append.mp hnodup).1 q.head?
    rw [or_none]
    exact hpq.congr (fun _ _ => rfl) fun y hy => put_of_ne (head_ne_of_mem_nodup hnodup hy)
  · have hqb := hq.2.2.back (nodup_append.mp hnodup).2.1 p.getLast?
    rw [or_none]
    exact hqb.congr (fun y hy => put_of_ne (ne_of_mem_nodup hnodup hy)) fun _ _ => rfl

theorem Linked.insert {head tail : Option α} (h : Linked next prev head tail (p ++ q))
    (hx : x ∉ p ++ q) :
    Linked (put (update next x q.head?) p.getLast? (some x))
      (put (update prev x p.getLast?) q.head? (some x))
      (p.head?.or (some x)) (q.getLast?.or (some x)) (p ++ x :: q) := by
  have hnodup : (p ++ x :: q).Nodup := nodup_middle.mpr (nodup_cons.mpr ⟨hx, h.nodup⟩)
  have hxp : x ∉ p := fun hp => hx (mem_append_left _ hp)
  have hxq : x ∉ q := fun hq => hx (mem_append_right _ hq)
  obtain ⟨hp, hq⟩ := seg_append.mp h.seg
  rw [or_none] at hp hq
  have hupd : ∀ (g : α → Option α) v (l : List α), x ∉ l → ∀ y ∈ l, update g x v y = g y :=
    fun g v l hl y hy => update_of_ne (ne_of_mem_of_not_mem hy hl) ..
  refine ⟨head?_append_cons.symm, ?_, hnodup, seg_append.mpr ⟨?_, ?_, ?_, ?_⟩⟩
  · cases hlast : q.getLast? <;> simp [List.getLast?_append, List.getLast?_cons, hlast]
  · refine Seg.congr (Seg.lead (hp.congr (hupd _ _ p hxp) (hupd prev p.getLast? p hxp))
      (nodup_append.mp h.nodup).1 _) (fun _ _ => rfl) fun y hy => ?_
    exact put_of_ne (head_ne_of_mem_nodup h.nodup hy)
  · rw [put_of_ne, update_self, or_none]
    exact fun hh => hxq (mem_of_mem_head? hh)
  · rw [put_of_ne, update_self, or_none]
    exact fun hh => hxp (mem_of_getLast? hh)
  · refine Seg.congr (Seg.back (hq.congr (hupd next q.head? q hxq) (hupd _ _ q hxq))
      (nodup_append.mp h.nodup).2.1 _) (fun y hy => ?_) fun _ _ => rfl
    exact put_of_ne (ne_of_mem_nodup h.nodup hy)

end Appstack.Lib.DoublyLinked
