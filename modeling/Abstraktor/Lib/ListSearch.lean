/-
  Searching a list for a sub-list, and splitting a list at its occurrences.

  `findSub p s` is the index of the first occurrence of `p` in `s`;
  `findSub_eq_some_iff` characterises it as the first index at which `p` is a
  head of the rest of `s`, and `findSub_append` moves a search past a part that
  holds no occurrence.  `NoStart p u` says that no occurrence of `p` starts in
  `u`, whatever follows it; it holds of a concatenation when it holds of the
  parts (`NoStart.append`), so that a search through a text made of pieces is
  moved past them one by one.  `splitOn p s` cuts `s` at the occurrences of `p`,
  left to right.
-/
import Mathlib

namespace ListSearch

variable {α : Type} [DecidableEq α]

/-- The index of the first occurrence of `p` in `s`. -/
def findSub (p : List α) : List α → Option ℕ
  | [] => if p.isEmpty then some 0 else none
  | x :: s => if p.isPrefixOf (x :: s) then some 0 else (findSub p s).map (· + 1)

/-- The pieces of `s` between the occurrences of `p`, left to right; `n` bounds
    the number of cuts. -/
def splitOnFuel (p : List α) : ℕ → List α → List (List α)
  | 0, s => [s]
  | n + 1, s =>
    match findSub p s with
    | none => [s]
    | some k => s.take k :: splitOnFuel p n (s.drop (k + p.length))

/-- The pieces of `s` between the occurrences of the non-empty `p`. -/
def splitOn (p s : List α) : List (List α) := splitOnFuel p s.length s

theorem isPrefixOf_iff {p s : List α} : p.isPrefixOf s = true ↔ p <+: s := by
  simp

theorem findSub_nil_eq {p : List α} : findSub p [] = if p = [] then some 0 else none := by
  simp [findSub]

theorem findSub_cons {p : List α} {x : α} {s : List α} :
    findSub p (x :: s) = if p <+: x :: s then some 0 else (findSub p s).map (· + 1) := by
  simp only [findSub, isPrefixOf_iff]

/-- The first occurrence: `p` heads the rest of `s` at `k`, and at no index before. -/
theorem findSub_eq_some_iff {p : List α} :
    ∀ {s : List α} {k : ℕ}, findSub p s = some k ↔
      p <+: s.drop k ∧ ∀ j < k, ¬ p <+: s.drop j
  | [], k => by
    rw [findSub_nil_eq]
    cases k with
    | zero => simp
    | succ k =>
      by_cases hp : p = []
      · simp only [hp, if_true, Option.some.injEq]; simpa using ⟨0, by omega⟩
      · simp [hp]
  | x :: s, k => by
    rw [findSub_cons]
    by_cases h : p <+: x :: s
    · simp only [h, if_true, Option.some.injEq]
      constructor
      · rintro rfl; simp [h]
      · rintro ⟨-, hk⟩
        by_contra hne
        exact hk 0 (by omega) (by simpa using h)
    · simp only [h, if_false, Option.map_eq_some_iff]
      constructor
      · rintro ⟨j, hj, rfl⟩
        obtain ⟨h1, h2⟩ := findSub_eq_some_iff.1 hj
        refine ⟨by simpa using h1, fun i hi => ?_⟩
        cases i with
        | zero => simpa using h
        | succ i => simpa using h2 i (by omega)
      · rintro ⟨h1, h2⟩
        cases k with
        | zero => exact absurd (by simpa using h1) h
        | succ k =>
          refine ⟨k, findSub_eq_some_iff.2 ⟨by simpa using h1, fun j hj => ?_⟩, rfl⟩
          simpa using h2 (j + 1) (by omega)

/-- A search moves past a head `u` at which no occurrence starts. -/
theorem findSub_append {p u v : List α} (hu : ∀ j < u.length, ¬ p <+: (u ++ v).drop j) :
    findSub p (u ++ v) = (findSub p v).map (u.length + ·) := by
  induction u with
  | nil => simp
  | cons x u ih =>
    rw [List.cons_append, findSub_cons, if_neg (by simpa using hu 0 (by simp)),
      ih fun j hj => by simpa using hu (j + 1) (by simp; omega)]
    cases findSub p v <;> simp; omega

theorem findSub_of_prefix {p s : List α} (h : p <+: s) : findSub p s = some 0 :=
  findSub_eq_some_iff.2 ⟨by simpa using h, fun j hj => absurd hj (Nat.not_lt_zero j)⟩

/-! ### Parts of a text where no occurrence starts -/

section NoStart

omit [DecidableEq α]

/-- No occurrence of `p` starts in `u`, whatever follows `u`: at no index is `p`
    a head of the rest of `u`, or the rest of `u` a head of `p`. -/
def NoStart (p u : List α) : Prop := ∀ j < u.length, ¬ p <+: u.drop j ∧ ¬ u.drop j <+: p

theorem drop_ne_nil {u : List α} {j : ℕ} (hj : j < u.length) : u.drop j ≠ [] := by
  rw [Ne, List.drop_eq_nil_iff]
  omega

theorem NoStart.not_prefix {p u : List α} (h : NoStart p u) (v : List α) :
    ∀ j < u.length, ¬ p <+: (u ++ v).drop j := by
  intro j hj hp
  rw [List.drop_append_of_le_length hj.le] at hp
  -- `p` and the rest of `u` are both heads of the rest of `u ++ v`
  rcases List.prefix_or_prefix_of_prefix hp (List.prefix_append _ _) with h₁ | h₁
  · exact (h j hj).1 h₁
  · exact (h j hj).2 h₁

theorem NoStart.append {p u v : List α} (hu : NoStart p u) (hv : NoStart p v) :
    NoStart p (u ++ v) := by
  intro j hj
  by_cases hju : j < u.length
  · refine ⟨hu.not_prefix v j hju, fun h => ?_⟩
    rw [List.drop_append_of_le_length hju.le] at h
    exact (hu j hju).2 ((List.prefix_append _ _).trans h)
  · rw [List.length_append] at hj
    rw [List.drop_append, List.drop_eq_nil_of_le (by omega), List.nil_append]
    exact hv (j - u.length) (by omega)

theorem noStart_of_not_mem {c : α} {p u : List α} (hc : c ∉ u) : NoStart (c :: p) u := by
  intro j hj
  obtain ⟨x, rest, hd⟩ := List.exists_cons_of_ne_nil (drop_ne_nil hj)
  have hxu : x ∈ u := List.mem_of_mem_drop (by rw [hd]; exact List.mem_cons_self)
  have hx : x ≠ c := fun h => hc (h ▸ hxu)
  rw [hd]
  simp [List.cons_prefix_cons, hx, Ne.symm hx]

/-- An opening `c` that is not followed by the second character of the pattern. -/
theorem noStart_cons {c d : α} {p X : List α} (hc : c ∉ X) (hX : X ≠ [])
    (hd : X.head? ≠ some d) : NoStart (c :: d :: p) (c :: X) := by
  rintro (_ | j) hj
  · obtain ⟨y, X', rfl⟩ := List.exists_cons_of_ne_nil hX
    have hy : y ≠ d := fun h => hd (by rw [h]; rfl)
    simp [List.cons_prefix_cons, hy, Ne.symm hy]
  · exact noStart_of_not_mem hc j (by simpa using hj)

end NoStart

instance (p u : List α) : Decidable (NoStart p u) := by
  unfold NoStart
  infer_instance

theorem findSub_append_of_noStart {p u : List α} (h : NoStart p u) (v : List α) :
    findSub p (u ++ v) = (findSub p v).map (u.length + ·) :=
  findSub_append (h.not_prefix v)

/-- The first occurrence is the one that follows a part where none starts. -/
theorem findSub_append_of_noStart_prefix {p u : List α} (h : NoStart p u) (v : List α) :
    findSub p (u ++ (p ++ v)) = some u.length := by
  rw [findSub_append_of_noStart h, findSub_of_prefix (List.prefix_append p v), Option.map_some,
    Nat.add_zero]

theorem findSub_eq_none_of_noStart {p u : List α} (h : NoStart p u) (hp : p ≠ []) :
    findSub p u = none := by
  have hs := findSub_append_of_noStart h []
  rw [List.append_nil] at hs
  rw [hs, findSub_nil_eq, if_neg hp, Option.map_none]

/-- A search for `a :: b :: p` moves past a head `u` without `b`, followed by a
    character other than `b`. -/
theorem findSub_append_of_second {a b x : α} {p u v : List α} (hb : b ∉ u) (hx : x ≠ b) :
    findSub (a :: b :: p) (u ++ x :: v) = (findSub (a :: b :: p) (x :: v)).map (u.length + ·) := by
  refine findSub_append fun j hj hp => ?_
  rw [List.drop_append_of_le_length hj.le] at hp
  obtain ⟨y, rest, hd⟩ := List.exists_cons_of_ne_nil (drop_ne_nil hj)
  rw [hd] at hp
  -- the second character of the occurrence is the next one of `u`, or `x`
  cases rest with
  | nil =>
    simp only [List.cons_append, List.nil_append, List.cons_prefix_cons] at hp
    exact hx hp.2.1.symm
  | cons z rest =>
    simp only [List.cons_append, List.cons_prefix_cons] at hp
    have hz : z ∈ u := List.mem_of_mem_drop (by rw [hd]; exact List.mem_cons_of_mem _ List.mem_cons_self)
    exact hb (hp.2.1 ▸ hz)

/-! ### Cutting a text joined by the pattern -/

/-- Cutting a text that joins pieces by `p` gives the pieces back, when no occurrence
    of `p` starts in a piece: each search finds the separator after its piece.  The
    fuel is bounded by the length of the text, which drops at each cut. -/
theorem splitOnFuel_intercalate {p : List α} (hp : p ≠ []) :
    ∀ (ls : List (List α)) (n : ℕ), ls ≠ [] → (∀ l ∈ ls, NoStart p l) →
      (p.intercalate ls).length ≤ n → splitOnFuel p n (p.intercalate ls) = ls
  | [], _, hne, _, _ => absurd rfl hne
  | [l], n, _, hl, _ => by
    have hnone := findSub_eq_none_of_noStart (hl l List.mem_cons_self) hp
    cases n <;> simp [splitOnFuel, hnone]
  | l :: l' :: ls, n, _, hl, hlen => by
    have hpos : 0 < p.length := List.length_pos_iff.2 hp
    rw [List.intercalate_cons_cons, List.length_append, List.length_append] at hlen
    obtain ⟨m, rfl⟩ : ∃ m, n = m + 1 := ⟨n - 1, by omega⟩
    rw [List.intercalate_cons_cons, splitOnFuel, List.append_assoc,
      findSub_append_of_noStart_prefix (hl l List.mem_cons_self)]
    dsimp only
    rw [List.take_left, ← List.append_assoc, List.drop_left' (List.length_append ..)]
    -- the rest is cut by the next search
    rw [splitOnFuel_intercalate hp (l' :: ls) m (List.cons_ne_nil _ _)
      (fun x hx => hl x (List.mem_cons_of_mem l hx)) (by omega)]

section Intercalate

omit [DecidableEq α]

/-- Joining by one element, with a last piece that ends the text: every other piece
    is followed by the element. -/
theorem intercalate_append_singleton (a : α) (r : List α) :
    ∀ ls : List (List α), [a].intercalate (ls ++ [r]) = (ls.map (· ++ [a])).flatten ++ r
  | [] => by simp
  | l :: ls => by
    rw [List.cons_append, List.intercalate_cons_of_ne_nil (by simp),
      intercalate_append_singleton a r ls]
    simp

theorem not_mem_intercalate {c : α} {sep : List α} (hsep : c ∉ sep) :
    ∀ {ls : List (List α)}, (∀ l ∈ ls, c ∉ l) → c ∉ sep.intercalate ls
  | [], _ => by simp
  | [l], h => by simpa using h l List.mem_cons_self
  | l :: l' :: ls, h => by
    rw [List.intercalate_cons_cons]
    simp only [List.mem_append, not_or]
    exact ⟨⟨h l List.mem_cons_self, hsep⟩,
      not_mem_intercalate hsep fun x hx => h x (List.mem_cons_of_mem l hx)⟩

end Intercalate

theorem splitOn_intercalate {p : List α} (hp : p ≠ []) {ls : List (List α)} (hne : ls ≠ [])
    (hl : ∀ l ∈ ls, NoStart p l) : splitOn p (p.intercalate ls) = ls :=
  splitOnFuel_intercalate hp ls _ hne hl le_rfl

end ListSearch
