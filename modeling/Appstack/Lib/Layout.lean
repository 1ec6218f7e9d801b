import Appstack.Lib.BigEndian

namespace Appstack.Layout

open List

variable {α : Type*} {buf a b c : List α} {off n : ℕ}

def store (buf : List α) (off : ℕ) (bs : List α) : List α :=
  buf.take off ++ bs ++ buf.drop (off + bs.length)

/-- Nothing where the field reaches past the buffer. -/
def load (buf : List α) (off n : ℕ) : Option (List α) :=
  if off + n ≤ buf.length then some ((buf.drop off).take n) else none

/-- The elements before the next one that is `stop`. -/
def loadUntil [DecidableEq α] (stop : α) (buf : List α) (off : ℕ) : Option (List α) :=
  if stop ∈ buf.drop off then some ((buf.drop off).takeWhile (· ≠ stop)) else none

theorem store_zero : store buf 0 b = b ++ buf.drop b.length := by
  simp [store]

theorem length_store (buf : List α) (off : ℕ) (b : List α) (h : off + b.length ≤ buf.length) :
    (store buf off b).length = buf.length := by
  simp only [store, length_append, length_take, length_drop]
  omega

theorem store_append (hoff : a.length = off) :
    store (a ++ buf) off b = a ++ b ++ buf.drop b.length := by
  subst hoff
  rw [store, take_left, ← drop_drop, drop_left]

theorem load_append (hoff : a.length = off) (hn : b.length = n) :
    load (a ++ b ++ c) off n = some b := by
  subst hoff hn
  rw [load, if_pos (by simp), append_assoc, drop_left, take_left]

theorem loadUntil_append [DecidableEq α] {stop : α} (hoff : a.length = off) (hb : stop ∉ b) :
    loadUntil stop (a ++ (b ++ stop :: c)) off = some b := by
  subst hoff
  rw [loadUntil, drop_left, if_pos (by simp), takeWhile_append_of_pos, takeWhile_cons]
  · simp
  · intro x hx
    simpa using fun h : x = stop => hb (h ▸ hx)

section Fields
variable {fs : List (List α)} {f : List α} {i : ℕ}

theorem flatten_eq_of_getElem? (hf : fs[i]? = some f) :
    fs.flatten = (fs.take i).flatten ++ f ++ (fs.drop (i + 1)).flatten := by
  obtain ⟨hi, rfl⟩ := List.getElem?_eq_some_iff.mp hf
  rw [append_assoc, ← flatten_cons, ← drop_eq_getElem_cons hi, ← flatten_append, take_append_drop]

theorem getElem?_flatten (rest : List α) {x : α} (hf : fs[i]? = some [x])
    (hoff : (fs.take i).flatten.length = off) : (fs.flatten ++ rest)[off]? = some x := by
  subst hoff
  rw [flatten_eq_of_getElem? hf]
  simp

theorem load_flatten (rest : List α) (hf : fs[i]? = some f) (hoff : (fs.take i).flatten.length = off)
    (hn : f.length = n) : load (fs.flatten ++ rest) off n = some f := by
  rw [flatten_eq_of_getElem? hf, append_assoc]
  exact load_append hoff hn

theorem loadUntil_flatten [DecidableEq α] {stop : α} (rest : List α)
    (hf : fs[i]? = some (f ++ [stop])) (hoff : (fs.take i).flatten.length = off) (hstop : stop ∉ f) :
    loadUntil stop (fs.flatten ++ rest) off = some f := by
  rw [flatten_eq_of_getElem? hf]
  simp only [append_assoc, singleton_append]
  exact loadUntil_append hoff hstop

end Fields

theorem not_mem_of_loadUntil [DecidableEq α] {stop : α} (h : loadUntil stop buf off = some a) :
    stop ∉ a := by
  unfold loadUntil at h
  split_ifs at h
  cases h
  intro hmem
  simpa using mem_takeWhile_imp hmem

/-- The low `w` bytes of `n`, least significant first. -/
def littleEndian (w n : ℕ) : List UInt8 := (BigEndian.encode w n).reverse

def ofLittleEndian (bs : List UInt8) : ℕ := BigEndian.decode bs.reverse

@[simp] theorem length_littleEndian (w n : ℕ) : (littleEndian w n).length = w := by
  simp [littleEndian]

@[simp] theorem ofLittleEndian_littleEndian (w n : ℕ) :
    ofLittleEndian (littleEndian w n) = n % 256 ^ w := by
  simp [ofLittleEndian, littleEndian]

end Appstack.Layout
