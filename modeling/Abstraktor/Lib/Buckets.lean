/-
  Tables of buckets kept as lists of lists, up to the order of their elements: what
  writing a bucket, or writing, changing or removing an element of a bucket, does to the
  elements of the table.

  * `set_perm`, `modify_perm`, `eraseIdx_perm`: an element written, changed or removed in
    a list, against the one it replaces; `mem_modify`, the elements of a list changed;
  * `flatten_set_perm`, `flatten_set_perm_of_perm`: a bucket written in a table, against
    the bucket it replaces;
  * `mem_flatten_set`: an element of a table with a bucket written is one of the table or
    of the new bucket.
-/
import Mathlib

namespace Buckets

variable {α : Type}

open List

theorem set_perm {l : List α} {j : ℕ} (h : j < l.length) (a : α) :
    l.set j a ++ [l[j]] ~ l ++ [a] := by
  conv_rhs => rw [← take_append_drop j l, ← getElem_cons_drop h]
  rw [set_eq_take_append_cons_drop, if_pos h]
  simp only [append_assoc]
  refine Perm.append_left _ ?_
  -- `a :: rest ++ [l[j]]` against `l[j] :: rest ++ [a]`
  calc a :: (drop (j + 1) l ++ [l[j]])
      ~ a :: (l[j] :: drop (j + 1) l) := (perm_append_singleton _ _).cons a
    _ ~ l[j] :: (a :: drop (j + 1) l) := Perm.swap _ _ _
    _ ~ l[j] :: (drop (j + 1) l ++ [a]) := ((perm_append_singleton _ _).symm).cons _

theorem modify_perm {l : List α} {j : ℕ} (h : j < l.length) (f : α → α) :
    l.modify j f ++ [l[j]] ~ l ++ [f l[j]] := by
  rw [modify_eq_take_cons_drop h, ← set_eq_take_append_cons_drop.trans (if_pos h)]
  exact set_perm h (f l[j])

theorem mem_modify {l : List α} {j : ℕ} (h : j < l.length) {f : α → α} {x : α}
    (hx : x ∈ l.modify j f) : x ∈ l ∨ x = f l[j] := by
  have := (modify_perm h f).subset (mem_append_left _ hx)
  rwa [mem_append, mem_singleton] at this

theorem eraseIdx_perm {l : List α} {j : ℕ} (h : j < l.length) : l.eraseIdx j ++ [l[j]] ~ l := by
  conv_rhs => rw [← take_append_drop j l, ← getElem_cons_drop h]
  rw [eraseIdx_eq_take_drop_succ, append_assoc]
  exact Perm.append_left _ (perm_append_singleton _ _)

/-- **A bucket written in a table replaces the elements of the bucket it overwrites.** -/
theorem flatten_set_perm {t : List (List α)} {k : ℕ} (h : k < t.length) (b : List α) :
    (t.set k b).flatten ++ t[k] ~ t.flatten ++ b := by
  conv_rhs => rw [← take_append_drop k t, ← getElem_cons_drop h]
  rw [set_eq_take_append_cons_drop, if_pos h]
  simp only [flatten_append, flatten_cons, append_assoc]
  refine Perm.append_left _ ?_
  -- `b ++ rest ++ t[k]` against `t[k] ++ rest ++ b`
  calc b ++ ((drop (k + 1) t).flatten ++ t[k])
      ~ ((drop (k + 1) t).flatten ++ t[k]) ++ b := perm_append_comm
    _ ~ (t[k] ++ (drop (k + 1) t).flatten) ++ b := perm_append_comm.append_right b
    _ = t[k] ++ ((drop (k + 1) t).flatten ++ b) := append_assoc _ _ _

/-- A bucket written in a table, which holds the elements `ys` more and `xs` fewer than the
    one it overwrites, holds them more and fewer than the table. -/
theorem flatten_set_perm_of_perm {t : List (List α)} {k : ℕ} (h : k < t.length)
    {b xs ys : List α} (hb : b ++ xs ~ t.getD k [] ++ ys) :
    (t.set k b).flatten ++ xs ~ t.flatten ++ ys := by
  rw [getD_eq_getElem _ _ h] at hb
  refine (perm_append_right_iff t[k]).1 ?_
  calc (t.set k b).flatten ++ xs ++ t[k]
      ~ (t.set k b).flatten ++ t[k] ++ xs := by
        rw [append_assoc, append_assoc]
        exact perm_append_comm.append_left _
    _ ~ t.flatten ++ b ++ xs := (flatten_set_perm h b).append_right xs
    _ ~ t.flatten ++ (t[k] ++ ys) := by
        rw [append_assoc]
        exact hb.append_left _
    _ ~ t.flatten ++ ys ++ t[k] := by
        rw [append_assoc]
        exact perm_append_comm.append_left _

theorem mem_flatten_set {t : List (List α)} {k : ℕ} {b : List α} {x : α}
    (hx : x ∈ (t.set k b).flatten) : x ∈ t.flatten ∨ x ∈ b := by
  rcases Nat.lt_or_ge k t.length with h | h
  · exact mem_append.1 ((flatten_set_perm h b).subset (mem_append_left _ hx))
  · rw [set_eq_of_length_le h] at hx
    exact .inl hx

end Buckets
