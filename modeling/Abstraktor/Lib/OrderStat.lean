/-
  Order statistics of a list over a linear order.

  `countGe l a` counts the elements of `l` that are at least `a`, with
  multiplicity, and `kthLargest l k` is the element at position `k` (from 1) of
  `l` sorted from the largest down.  The two are dual: `a ≤ kthLargest l k` holds
  exactly when at least `k` elements of `l` are at least `a` (`le_kthLargest_iff`).

  A search "from `n` down to 1, the first index that passes" is `Nat.findGreatest`;
  when the test is a threshold `i ≤ K` the search returns `min n K`
  (`findGreatest_eq_min`).
-/
import Mathlib

namespace OrderStat

variable {α : Type*} [LinearOrder α]

/-- The number of elements of `l` that are at least `a`. -/
def countGe (l : List α) (a : α) : ℕ := l.countP fun b => a ≤ b

/-- `l` sorted from the largest element down. -/
def sortDesc (l : List α) : List α := l.mergeSort fun a b => decide (b ≤ a)

/-- The `k`-th largest element of `l`, counted from 1 and with multiplicity; `⊥`
    when `l` has fewer than `k` elements. -/
def kthLargest [OrderBot α] (l : List α) (k : ℕ) : α := (sortDesc l).getD (k - 1) ⊥

@[simp] theorem countGe_nil (a : α) : countGe [] a = 0 := rfl

@[simp] theorem countGe_cons (b : α) (l : List α) (a : α) :
    countGe (b :: l) a = countGe l a + if a ≤ b then 1 else 0 := by
  simp [countGe, List.countP_cons]

theorem countGe_le_length (l : List α) (a : α) : countGe l a ≤ l.length :=
  List.countP_le_length

theorem countGe_perm {l l' : List α} (h : l.Perm l') (a : α) : countGe l a = countGe l' a :=
  h.countP_eq _

theorem countGe_eq_zero {l : List α} {a : α} (h : ∀ b ∈ l, b < a) : countGe l a = 0 :=
  List.countP_eq_zero.2 fun b hb => by simpa using h b hb

theorem sortDesc_perm (l : List α) : (sortDesc l).Perm l := List.mergeSort_perm l _

theorem sortDesc_length (l : List α) : (sortDesc l).length = l.length :=
  (sortDesc_perm l).length_eq

theorem sortDesc_sorted (l : List α) : (sortDesc l).Pairwise fun a b => b ≤ a := by
  have h : (sortDesc l).Pairwise fun a b => decide (b ≤ a) = true :=
    List.pairwise_mergeSort
      (fun a b c hab hbc => by simpa using (of_decide_eq_true hbc).trans (of_decide_eq_true hab))
      (fun a b => by simpa using le_total b a) l
  simpa using h

/-- On a list sorted from the largest down, the element at position `j` is at least
    `a` exactly when the first `j + 1` elements all are. -/
theorem le_getElem_iff_of_sorted :
    ∀ {s : List α}, s.Pairwise (fun a b => b ≤ a) → ∀ {j : ℕ} (hj : j < s.length) (a : α),
      a ≤ s[j] ↔ j + 1 ≤ countGe s a
  | [], _, j, hj, _ => absurd hj (Nat.not_lt_zero j)
  | b :: t, hs, j, hj, a => by
    obtain ⟨hb, ht⟩ := List.pairwise_cons.1 hs
    by_cases hab : a ≤ b
    · cases j with
      | zero => simp [hab]
      | succ j =>
        have ih := le_getElem_iff_of_sorted ht (Nat.lt_of_succ_lt_succ hj) a
        simp only [List.getElem_cons_succ, ih, countGe_cons, if_pos hab]
        omega
    · -- every element is below `b`, hence below `a`: none counts
      have hlt : ∀ c ∈ b :: t, c < a := by
        intro c hc
        rcases List.mem_cons.1 hc with rfl | hc
        · exact lt_of_not_ge hab
        · exact lt_of_le_of_lt (hb c hc) (lt_of_not_ge hab)
      have hj' : (b :: t)[j] < a := hlt _ (List.getElem_mem hj)
      rw [countGe_eq_zero hlt]
      simp only [Nat.le_zero, Nat.add_one_ne_zero, iff_false, not_le]
      exact hj'

/-- **The order statistic by counting.**  For `1 ≤ k ≤ l.length`, the `k`-th largest
    element is at least `a` exactly when at least `k` elements of `l` are. -/
theorem le_kthLargest_iff [OrderBot α] {l : List α} {k : ℕ} (hk : 0 < k) (hkl : k ≤ l.length)
    (a : α) : a ≤ kthLargest l k ↔ k ≤ countGe l a := by
  have hlen : k - 1 < (sortDesc l).length := by rw [sortDesc_length]; omega
  rw [kthLargest, ← List.getElem_eq_getD (h := hlen) ⊥,
    le_getElem_iff_of_sorted (sortDesc_sorted l) hlen, countGe_perm (sortDesc_perm l),
    Nat.sub_add_cancel hk]

/-- A search down from `n` for a threshold test `i ≤ K` (on the positive `i`; the
    search never tests 0) stops at `min n K`. -/
theorem findGreatest_eq_min {P : ℕ → Prop} [DecidablePred P] {K : ℕ}
    (hP : ∀ i, 0 < i → (P i ↔ i ≤ K)) (n : ℕ) : Nat.findGreatest P n = min n K := by
  apply le_antisymm
  · refine le_min (Nat.findGreatest_le n) ?_
    rcases Nat.eq_zero_or_pos (Nat.findGreatest P n) with h0 | hpos
    · omega
    · exact (hP _ hpos).1 (Nat.findGreatest_of_ne_zero rfl hpos.ne')
  · rcases Nat.eq_zero_or_pos (min n K) with h0 | hpos
    · omega
    · exact Nat.le_findGreatest (min_le_left n K) ((hP _ hpos).2 (min_le_right n K))

end OrderStat
