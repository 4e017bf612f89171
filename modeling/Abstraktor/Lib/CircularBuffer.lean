/-
  Circular buffers: a list of `size` slots whose live elements run from position
  `front` up to, not including, position `back`, wrapping around the end.

  * `count size front back` is the number of live slots, and `view xs d front n` the `n`
    live elements of the slots `xs` from `front` on, in order;
  * `Wf size front back`: both ends are slots of the buffer, and a buffer of no slots has
    them at `0`; such a buffer is never full (`count_lt`), and `back` is `count` slots
    on from `front` (`back_eq`);
  * what each end moving does to the count and to the view: an element written at `back`
    joins the view at its end (`count_push`, `view_push`), `back` moving back drops the
    last element (`count_pop_back`, `view_take`), `front` moving on drops the first
    (`count_pop_front`, `view_drop`).
-/
import Mathlib

namespace CircularBuffer

variable {α : Type}

/-- The number of live slots from `front` to `back` in a buffer of `size` slots. -/
def count (size front back : ℕ) : ℕ := if front ≤ back then back - front else size - front + back

/-- The `n` live elements of the slots `xs` from position `front` on, wrapping around the
    end; `d` is read for a slot out of range. -/
def view (xs : List α) (d : α) (front n : ℕ) : List α :=
  (List.range n).map fun i => xs.getD ((front + i) % xs.length) d

/-- A buffer of `size` slots whose ends are slots of it, at `0` when it has none. -/
structure Wf (size front back : ℕ) : Prop where
  front_lt : 0 < size → front < size
  back_lt : 0 < size → back < size
  zero : size = 0 → front = 0 ∧ back = 0

/-! ## The count of live slots -/

section Count

variable {size front back : ℕ}

theorem count_zero_size (h : Wf size front back) (hs : size = 0) : count size front back = 0 := by
  obtain ⟨rfl, rfl⟩ := h.zero hs
  rfl

/-- **A buffer is never full**: `front = back` is the empty buffer. -/
theorem count_lt (h : Wf size front back) (hs : 0 < size) : count size front back < size := by
  have := h.front_lt hs
  have := h.back_lt hs
  unfold count
  split_ifs <;> omega

/-- `back` is `count` slots on from `front`. -/
theorem back_eq (h : Wf size front back) (hs : 0 < size) :
    back = (front + count size front back) % size := by
  have hb := h.back_lt hs
  unfold count
  split_ifs with hfb
  · rw [Nat.add_sub_cancel' hfb, Nat.mod_eq_of_lt hb]
  · have hf := h.front_lt hs
    rw [show front + (size - front + back) = back + size by omega, Nat.add_mod_right,
      Nat.mod_eq_of_lt hb]

/-- An element written at `back`, with room for it, is one more live slot. -/
theorem count_push (h : Wf size front back) (hs : 0 < size)
    (hroom : count size front back + 1 < size) :
    Wf size front ((back + 1) % size) ∧
      count size front ((back + 1) % size) = count size front back + 1 := by
  have hf := h.front_lt hs
  have hb := h.back_lt hs
  refine ⟨⟨fun _ => hf, fun _ => Nat.mod_lt _ hs, fun h0 => absurd h0 hs.ne'⟩, ?_⟩
  unfold count at hroom ⊢
  -- `back` wraps to `0` only from the last slot, with `front` past it
  rcases Nat.lt_or_ge (back + 1) size with hlt | hge
  · rw [Nat.mod_eq_of_lt hlt]
    split_ifs at hroom ⊢ <;> omega
  · have hback : back + 1 = size := by omega
    rw [hback, Nat.mod_self]
    split_ifs at hroom ⊢ <;> omega

/-- `back` moving back, over a live slot, is one live slot less. -/
theorem count_pop_back (h : Wf size front back) (hn : 0 < count size front back) :
    Wf size front (if back = 0 then size - 1 else back - 1) ∧
      count size front (if back = 0 then size - 1 else back - 1) = count size front back - 1 := by
  have hs : 0 < size := Nat.pos_of_ne_zero fun h0 => by
    rw [count_zero_size h h0] at hn
    exact absurd hn (lt_irrefl 0)
  have hf := h.front_lt hs
  have hb := h.back_lt hs
  refine ⟨⟨fun _ => hf, fun _ => by split_ifs <;> omega, fun h0 => absurd h0 hs.ne'⟩, ?_⟩
  unfold count at hn ⊢
  split_ifs at hn ⊢ <;> omega

/-- The slot before `back` is that of the last element. -/
theorem prev_eq_mod (h : Wf size front back) (hn : 0 < count size front back) :
    (if back = 0 then size - 1 else back - 1) = (front + (count size front back - 1)) % size := by
  have hs : 0 < size := Nat.pos_of_ne_zero fun h0 => by
    rw [count_zero_size h h0] at hn
    exact absurd hn (lt_irrefl 0)
  have hf := h.front_lt hs
  have hb := h.back_lt hs
  unfold count at hn ⊢
  by_cases hfb : front ≤ back
  · -- no wrap: the last element is in the slot before `back`, which is not `0`
    rw [if_pos hfb] at hn ⊢
    rw [if_neg (by omega), show front + (back - front - 1) = back - 1 by omega,
      Nat.mod_eq_of_lt (by omega)]
  · rw [if_neg hfb] at hn ⊢
    split_ifs with hb0
    · rw [show front + (size - front + back - 1) = size - 1 by omega, Nat.mod_eq_of_lt (by omega)]
    · rw [show front + (size - front + back - 1) = back - 1 + size by omega, Nat.add_mod_right,
        Nat.mod_eq_of_lt (by omega)]

/-- `front` moving on, over a live slot, is one live slot less. -/
theorem count_pop_front (h : Wf size front back) (hn : 0 < count size front back) :
    Wf size (if front = size - 1 then 0 else front + 1) back ∧
      count size (if front = size - 1 then 0 else front + 1) back = count size front back - 1 := by
  have hs : 0 < size := Nat.pos_of_ne_zero fun h0 => by
    rw [count_zero_size h h0] at hn
    exact absurd hn (lt_irrefl 0)
  have hf := h.front_lt hs
  have hb := h.back_lt hs
  refine ⟨⟨fun _ => by split_ifs <;> omega, fun _ => hb, fun h0 => absurd h0 hs.ne'⟩, ?_⟩
  unfold count at hn ⊢
  split_ifs at hn ⊢ <;> omega

/-- The live slots from the `k`-th one on: from position `(front + k) % size` to `back`. -/
theorem count_from (h : Wf size front back) {k : ℕ} (hk : k < count size front back) :
    count size ((front + k) % size) back = count size front back - k := by
  have hs : 0 < size := Nat.pos_of_ne_zero fun h0 => by
    rw [count_zero_size h h0] at hk
    exact absurd hk (Nat.not_lt_zero k)
  have hf := h.front_lt hs
  have hb := h.back_lt hs
  unfold count at hk ⊢
  -- the `k`-th live slot is past the end of the buffer exactly when `front + k` is
  rcases Nat.lt_or_ge (front + k) size with hlt | hge
  · rw [Nat.mod_eq_of_lt hlt]
    split_ifs at hk ⊢ <;> omega
  · rw [show front + k = (front + k - size) + size by omega, Nat.add_mod_right,
      Nat.mod_eq_of_lt (by split_ifs at hk <;> omega)]
    split_ifs at hk ⊢ <;> omega

/-- Position `front` moved on by one, wrapping around, as `(front + 1) % size`. -/
theorem next_eq_mod (h : Wf size front back) (hs : 0 < size) :
    (if front = size - 1 then 0 else front + 1) = (front + 1) % size := by
  have hf := h.front_lt hs
  split_ifs with hlast
  · rw [hlast, Nat.sub_add_cancel hs, Nat.mod_self]
  · rw [Nat.mod_eq_of_lt (by omega)]

end Count

/-! ## The view of the live elements -/

section View

variable {xs : List α} {d : α} {front n : ℕ}

@[simp] theorem length_view : (view xs d front n).length = n := by simp [view]

theorem getElem_view {i : ℕ} (hi : i < (view xs d front n).length) :
    (view xs d front n)[i] = xs.getD ((front + i) % xs.length) d := by
  simp [view]

/-- Two of `size` consecutive positions from `front` are distinct slots. -/
theorem mod_add_inj {size i j : ℕ} (hi : i < size) (hj : j < size)
    (h : (front + i) % size = (front + j) % size) : i = j :=
  (Nat.ModEq.add_left_cancel' front h).eq_of_lt_of_lt hi hj

/-- **An element written at `back` joins the view at its end**, when the buffer has room
    for it. -/
theorem view_push {e : α} (hn : n < xs.length) (hback : back = (front + n) % xs.length) :
    view (xs.set back e) d front (n + 1) = view xs d front n ++ [e] := by
  have hs : 0 < xs.length := lt_of_le_of_lt (Nat.zero_le n) hn
  unfold view
  rw [List.length_set, List.range_succ, List.map_append, List.map_singleton, ← hback]
  congr 1
  · -- the slots of the live elements are not `back`
    refine List.map_congr_left fun i hi => ?_
    have hi' : i < n := List.mem_range.1 hi
    have hne : (front + i) % xs.length ≠ back := fun heq =>
      absurd (mod_add_inj (lt_trans hi' hn) hn (heq.trans hback)) hi'.ne
    simp only [List.getD_eq_getElem?_getD, List.getElem?_set_ne (Ne.symm hne)]
  · have hb : back < xs.length := hback ▸ Nat.mod_lt _ hs
    simp [List.getD_eq_getElem?_getD, List.getElem?_set_self hb]

/-- Fewer live elements are the first of the view. -/
theorem view_take {m : ℕ} (hm : m ≤ n) : view xs d front m = (view xs d front n).take m := by
  unfold view
  rw [← List.map_take, List.take_range, min_eq_left hm]

/-- **The view from the `k`-th live element on.** -/
theorem view_drop (k : ℕ) :
    view xs d ((front + k) % xs.length) (n - k) = (view xs d front n).drop k := by
  refine List.ext_getElem (by simp) fun i h₁ h₂ => ?_
  rw [getElem_view, List.getElem_drop, getElem_view]
  rw [Nat.mod_add_mod, Nat.add_assoc]

/-- The live elements copied to the start of new slots are the view from `0`. -/
theorem view_zero_append {ys zs : List α} (hn : ys.length = n) : view (ys ++ zs) d 0 n = ys := by
  refine List.ext_getElem (by simp [hn]) fun i h₁ h₂ => ?_
  have hi : i < (ys ++ zs).length := by
    rw [List.length_append]
    omega
  rw [getElem_view, Nat.zero_add, Nat.mod_eq_of_lt hi, List.getD_append _ _ _ _ h₂,
    List.getD_eq_getElem?_getD, List.getElem?_eq_getElem h₂, Option.getD_some]

end View

end CircularBuffer
