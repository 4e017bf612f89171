/-
  Computations that thread a counter, and moving the counter.

  A computation starts from a counter and returns a value and the new counter, or
  fails: an `Except ε (α × ℕ)`.  Started from a counter moved by `d`, it should
  give the same outcome with the counter and the value moved by `d`, as long as
  the counter stays below the bound `B` at which the computation fails.

  * `ShiftedBy B d r a a'`: `a'` is `a` moved by `d` in this sense, with `r`
    moving the value; it is built up along `pure` and `bind`
    (`ShiftedBy.pure`, `ShiftedBy.bind`, `ShiftedBy.bind_same`), so that a loop
    whose body moves with its counter moves as a whole;
  * `AtLeast n a`: the counter that `a` returns is at least `n`, the other half
    that `bind` needs;
  * `blockSwap a m n` exchanges the consecutive runs of counter values
    `[a, a + m)` and `[a + m, a + m + n)`, the renaming between two runs that
    take two computations in either order;
  * `run_steps step n pos` runs a step that reads the counter `n` times, each from
    the counter the one before returned, as a loop that reads a cursor does;
    `run_steps_stride` is its run lemma, for steps that each move the counter by
    one stride;
  * `foldlM_inv` and `foldlM_exists` are the invariant rules of a loop over a list
    that may fail: what every step keeps holds at the end, and a loop whose steps
    all succeed where the invariant holds succeeds; `foldlM_inv_step` adds what a loop
    that succeeded did at each element, and `foldlM_inv_rest` an invariant on what is
    left, as of a loop that counts its steps; `foldlM_extends` is the rule of a loop whose
    steps each extend a log, such as a list of calls made; `foldlM_ok_or` the rule of one
    whose steps succeed or fail in known ways, with an invariant on what is left;
    `foldlM_range_inv` and `foldlM_range_ok` those of a loop over `0, …, n - 1`, with an
    invariant indexed by the turns done; `forall₂_of_mapM_ok` and
    `mapM_error_of_mem` are those of a map that may fail, and `forM_eq_ok_iff` that of a
    loop of checks;
  * `whileM done body out fuel` is a `while` loop that may fail, run for at most
    `fuel` turns, and `whileM_inv` its invariant rule; `whileM_ok_or` its rule of
    termination, for a body that lowers a measure: given more turns than the
    measure, the loop ends or fails with an error of the body's own.
-/
import Mathlib

namespace Counter

variable {ε α β γ : Type}

@[simp] theorem ok_bind (a : α) (f : α → Except ε β) : (Except.ok a >>= f) = f a := rfl

@[simp] theorem error_bind (e : ε) (f : α → Except ε β) : (Except.error e >>= f) = .error e := rfl

/-- A failed assertion, as a `do` block writes it, does not return. -/
theorem ite_throw_eq_ok {c : Prop} [Decidable c] {e : ε} {k : PUnit → Except ε β}
    {x : Except ε β} {b : β} (h : (if c then throw e >>= k else x) = .ok b) : ¬c ∧ x = .ok b := by
  by_cases hc : c
  · rw [if_pos hc] at h
    cases h
  · rw [if_neg hc] at h
    exact ⟨hc, h⟩

theorem bind_eq_ok_iff {x : Except ε α} {f : α → Except ε β} {b : β} :
    x >>= f = .ok b ↔ ∃ a, x = .ok a ∧ f a = .ok b := by
  cases x <;> simp [bind, Except.bind]

theorem map_eq_ok_iff {x : Except ε α} {f : α → β} {b : β} :
    f <$> x = .ok b ↔ ∃ a, x = .ok a ∧ f a = b := by
  cases x <;> simp [Functor.map, Except.map]

theorem pure_eq_ok_iff {a b : α} : (pure a : Except ε α) = .ok b ↔ a = b := by
  simp [pure, Except.pure]

theorem mapError_eq_ok_iff {ε' : Type} {x : Except ε α} {g : ε → ε'} {a : α} :
    x.mapError g = .ok a ↔ x = .ok a := by
  cases x <;> simp [Except.mapError]

/-- The counter that `a` returns is at least `n`. -/
def AtLeast (n : ℕ) (a : Except ε (α × ℕ)) : Prop := ∀ y m, a = .ok (y, m) → n ≤ m

theorem AtLeast.pure {n m : ℕ} (y : α) (h : n ≤ m) : AtLeast (ε := ε) n (pure (y, m)) := by
  intro y' m' hy
  obtain ⟨-, rfl⟩ := Prod.mk.inj (pure_eq_ok_iff.1 hy)
  exact h

theorem AtLeast.bind {n : ℕ} {a : Except ε (α × ℕ)} {f : α × ℕ → Except ε (β × ℕ)}
    (ha : AtLeast n a) (hf : ∀ y m, a = .ok (y, m) → AtLeast m (f (y, m))) :
    AtLeast n (a >>= f) := by
  intro z k h
  obtain ⟨⟨y, m⟩, hy, hz⟩ := bind_eq_ok_iff.1 h
  exact Nat.le_trans (ha y m hy) (hf y m hy z k hz)

/-- `a'` is `a` with the counter moved by `d` and the value moved by `r`, as long
    as the counter stays below `B`. -/
def ShiftedBy (B d : ℕ) (r : α → α) (a a' : Except ε (α × ℕ)) : Prop :=
  ∀ y' m', a' = .ok (y', m') ↔ ∃ y m, a = .ok (y, m) ∧ d + m < B ∧ y' = r y ∧ m' = d + m

section ShiftedBy

variable {B d : ℕ} {r : α → α} {s : β → β}

theorem ShiftedBy.ok {a a' : Except ε (α × ℕ)} (h : ShiftedBy B d r a a') {y : α} {m : ℕ}
    (ha : a = .ok (y, m)) (hm : d + m < B) : a' = .ok (r y, d + m) :=
  (h _ _).2 ⟨y, m, ha, hm, rfl, rfl⟩

theorem ShiftedBy.pure {n : ℕ} (y : α) (h : d + n < B) :
    ShiftedBy (ε := ε) B d r (pure (y, n)) (pure (r y, d + n)) := by
  intro y' m'
  simp only [pure_eq_ok_iff, Prod.mk.injEq]
  constructor
  · rintro ⟨rfl, rfl⟩
    exact ⟨y, n, ⟨rfl, rfl⟩, h, rfl, rfl⟩
  · rintro ⟨_, _, ⟨rfl, rfl⟩, -, rfl, rfl⟩
    exact ⟨rfl, rfl⟩

/-- Moving through a bind: the first computation moves, and so does the
    continuation at each of its results.  Going back from a result of the whole
    to the first computation needs the continuation not to lower the counter. -/
theorem ShiftedBy.bind {a a' : Except ε (α × ℕ)} {f f' : α × ℕ → Except ε (β × ℕ)}
    (ha : ShiftedBy B d r a a')
    (hf : ∀ y m, a = .ok (y, m) → d + m < B → ShiftedBy B d s (f (y, m)) (f' (r y, d + m)))
    (grows : ∀ y m, a = .ok (y, m) → AtLeast m (f (y, m))) :
    ShiftedBy B d s (a >>= f) (a' >>= f') := by
  intro z' k'
  simp only [bind_eq_ok_iff]
  constructor
  · rintro ⟨⟨y', m'⟩, h1, h2⟩
    obtain ⟨y, m, hy, hm, rfl, rfl⟩ := (ha y' m').1 h1
    obtain ⟨z, k, hz, hk, rfl, rfl⟩ := (hf y m hy hm z' k').1 h2
    exact ⟨z, k, ⟨(y, m), hy, hz⟩, hk, rfl, rfl⟩
  · rintro ⟨z, k, ⟨⟨y, m⟩, hy, hz⟩, hk, rfl, rfl⟩
    have hm : d + m < B := Nat.lt_of_le_of_lt (Nat.add_le_add_left (grows y m hy z k hz) d) hk
    exact ⟨(r y, d + m), ha.ok hy hm, (hf y m hy hm).ok hz hk⟩

/-- A bind on a computation that does not read the counter. -/
theorem ShiftedBy.bind_same {x : Except ε γ} {f f' : γ → Except ε (β × ℕ)}
    (hf : ∀ c, x = .ok c → ShiftedBy B d s (f c) (f' c)) :
    ShiftedBy B d s (x >>= f) (x >>= f') := by
  intro z' k'
  simp only [bind_eq_ok_iff]
  constructor
  · rintro ⟨c, hc, h⟩
    obtain ⟨z, k, hz, hk, rfl, rfl⟩ := (hf c hc z' k').1 h
    exact ⟨z, k, ⟨c, hc, hz⟩, hk, rfl, rfl⟩
  · rintro ⟨z, k, ⟨c, hc, hz⟩, hk, rfl, rfl⟩
    exact ⟨c, hc, (hf c hc).ok hz hk⟩

/-- The checked increment of the counter, which fails at `B`, moves with the
    counter. -/
theorem ShiftedBy.succ_or {n : ℕ} (e : ε) (y : α) :
    ShiftedBy B d r ((if n + 1 < B then .ok (n + 1) else .error e) >>= fun m => Pure.pure (y, m))
      ((if d + n + 1 < B then .ok (d + n + 1) else .error e) >>= fun m => Pure.pure (r y, m)) := by
  by_cases h : d + n + 1 < B
  · rw [if_pos h, if_pos (by omega : n + 1 < B)]
    exact ShiftedBy.pure y h
  · rw [if_neg h]
    intro y' m'
    constructor
    · intro h'
      cases h'
    · rintro ⟨y₀, m₀, h₀, hm, -, -⟩
      split at h₀
      · obtain ⟨-, rfl⟩ := Prod.mk.inj (pure_eq_ok_iff.1 h₀)
        omega
      · cases h₀

end ShiftedBy

/-! ## Running a step a number of times -/

/-- The step run `n` times from the counter `pos`, each run from the counter that the one
    before returned; the values in order, or the first failure. -/
def run_steps (step : ℕ → Except ε (α × ℕ)) : ℕ → ℕ → Except ε (List α)
  | 0, _ => pure []
  | n + 1, pos => do
    let (r, pos) ← step pos
    let rs ← run_steps step n pos
    pure (r :: rs)

section RunSteps

variable {step : ℕ → Except ε (α × ℕ)}

@[simp] theorem run_steps_zero (pos : ℕ) : run_steps step 0 pos = .ok [] := rfl

theorem run_steps_succ (n pos : ℕ) :
    run_steps step (n + 1) pos = step pos >>= fun rp => (rp.1 :: ·) <$> run_steps step n rp.2 := by
  simp only [run_steps, bind_pure_comp]

/-- **Run lemma.**  Where the step reads the values `xs` one after the other at the
    multiples `size * k`, `size * (k + 1)`, ... of a stride, that many runs give `xs`,
    and the runs after go on from the next multiple. -/
theorem run_steps_stride {size : ℕ} (m : ℕ) :
    ∀ (xs : List α) (k : ℕ),
      (∀ j (hj : j < xs.length), step (size * (k + j)) = .ok (xs[j], size * (k + j + 1))) →
        run_steps step (xs.length + m) (size * k) =
          (xs ++ ·) <$> run_steps step m (size * (k + xs.length))
  | [], k, _ => by simp
  | x :: xs, k, h => by
    have h0 : step (size * k) = .ok (x, size * (k + 1)) := by
      simpa using h 0 (Nat.succ_pos _)
    -- the steps after the first read the rest of the values from the next multiple
    have hrest : ∀ j (hj : j < xs.length),
        step (size * (k + 1 + j)) = .ok (xs[j], size * (k + 1 + j + 1)) := fun j hj => by
      have hj' := h (j + 1) (by simp [hj])
      rwa [List.getElem_cons_succ, ← Nat.add_assoc, Nat.add_right_comm k j 1] at hj'
    rw [List.length_cons, Nat.add_right_comm, run_steps_succ, h0, ok_bind,
      run_steps_stride m xs (k + 1) hrest, Functor.map_map, Nat.add_assoc, Nat.add_comm 1]
    rfl

end RunSteps

/-! ## Loops over a list -/

section Folds

variable {f : β → α → Except ε β}

/-- **Invariant rule of a loop.**  A property that every step keeps holds at the end. -/
theorem foldlM_inv (P : β → Prop) :
    ∀ {l : List α} {init b : β}, (∀ b a b', a ∈ l → P b → f b a = .ok b' → P b') →
      P init → l.foldlM f init = .ok b → P b
  | [], init, b, _, hi, h => by
    rw [List.foldlM_nil] at h
    cases h
    exact hi
  | a :: l, init, b, hf, hi, h => by
    rw [List.foldlM_cons] at h
    obtain ⟨b₁, h₁, h'⟩ := bind_eq_ok_iff.1 h
    exact foldlM_inv P (fun b a' b' ha => hf b a' b' (List.mem_cons_of_mem _ ha))
      (hf init a b₁ List.mem_cons_self hi h₁) h'

/-- **Invariant rule of a loop, with its steps.**  What every step keeps holds at the end,
    and at each element the loop took a step from a state with the invariant, which
    succeeded. -/
theorem foldlM_inv_step (P : β → Prop) :
    ∀ {l : List α} {init b : β}, (∀ b a b', a ∈ l → P b → f b a = .ok b' → P b') →
      P init → l.foldlM f init = .ok b → P b ∧ ∀ a ∈ l, ∃ b₁ b₂, P b₁ ∧ f b₁ a = .ok b₂
  | [], init, b, _, hi, h => by
    rw [List.foldlM_nil] at h
    cases h
    exact ⟨hi, fun _ ha => absurd ha List.not_mem_nil⟩
  | a :: l, init, b, hf, hi, h => by
    rw [List.foldlM_cons] at h
    obtain ⟨b₁, h₁, h'⟩ := bind_eq_ok_iff.1 h
    obtain ⟨hb, hsteps⟩ := foldlM_inv_step P
      (fun b a' b' ha => hf b a' b' (List.mem_cons_of_mem _ ha)) (hf init a b₁ List.mem_cons_self hi h₁) h'
    refine ⟨hb, fun a' ha' => ?_⟩
    rcases List.mem_cons.1 ha' with rfl | ha'
    · exact ⟨init, b₁, hi, h₁⟩
    · exact hsteps a' ha'

/-- **Invariant rule of a loop, with what is left.**  An invariant on the state and on the
    part of the list still to go, which every step that succeeds keeps, holds at the end
    of a loop that succeeded, with nothing left. -/
theorem foldlM_inv_rest (P : List α → β → Prop)
    (hf : ∀ a l b b', P (a :: l) b → f b a = .ok b' → P l b') :
    ∀ {l : List α} {init b : β}, P l init → l.foldlM f init = .ok b → P [] b
  | [], init, b, hi, h => by
    rw [List.foldlM_nil] at h
    cases h
    exact hi
  | a :: l, init, b, hi, h => by
    rw [List.foldlM_cons] at h
    obtain ⟨b₁, h₁, h'⟩ := bind_eq_ok_iff.1 h
    exact foldlM_inv_rest P hf (hf a l init b₁ hi h₁) h'

/-- **A loop that extends a log.**  When every step extends what `obs` reads of the state
    by `g` of the element, a loop that succeeded extends it by `g` of each element, in
    order. -/
theorem foldlM_extends (obs : β → List γ) (g : α → List γ)
    (hf : ∀ b a b', f b a = .ok b' → obs b' = obs b ++ g a) :
    ∀ {l : List α} {init b : β}, l.foldlM f init = .ok b → obs b = obs init ++ l.flatMap g
  | [], init, b, h => by
    rw [List.foldlM_nil] at h
    cases h
    rw [List.flatMap_nil, List.append_nil]
  | a :: l, init, b, h => by
    rw [List.foldlM_cons] at h
    obtain ⟨b₁, h₁, h'⟩ := bind_eq_ok_iff.1 h
    rw [foldlM_extends obs g hf h', hf init a b₁ h₁, List.flatMap_cons, List.append_assoc]

/-- `foldlM_extends` for a loop that cannot fail. -/
theorem foldl_extends {f : β → α → β} (obs : β → List γ) (g : α → List γ)
    (hf : ∀ b a, obs (f b a) = obs b ++ g a) :
    ∀ {l : List α} {init b : β}, l.foldl f init = b → obs b = obs init ++ l.flatMap g
  | [], init, b, h => by
    rw [← h, List.foldl_nil, List.flatMap_nil, List.append_nil]
  | a :: l, init, b, h => by
    rw [List.foldl_cons] at h
    rw [foldl_extends obs g hf h, hf, List.flatMap_cons, List.append_assoc]

/-- **Progress rule of a loop.**  Where the invariant holds every step succeeds and keeps
    it, so the loop succeeds and the invariant holds at the end. -/
theorem foldlM_exists (P : β → Prop) :
    ∀ {l : List α} {init : β}, (∀ b a, a ∈ l → P b → ∃ b', f b a = .ok b' ∧ P b') →
      P init → ∃ b, l.foldlM f init = .ok b ∧ P b
  | [], init, _, hi => ⟨init, rfl, hi⟩
  | a :: l, init, hf, hi => by
    obtain ⟨b₁, h₁, hb₁⟩ := hf init a List.mem_cons_self hi
    obtain ⟨b, h, hb⟩ := foldlM_exists P (fun b a' ha => hf b a' (List.mem_cons_of_mem _ ha)) hb₁
    exact ⟨b, by rw [List.foldlM_cons, h₁, ok_bind, h], hb⟩

/-- **Rule of a loop that may fail.**  With an invariant on the state and on the part of
    the list still to go, which every step that succeeds keeps, the loop ends with the
    invariant and nothing left, or fails as one of its steps fails. -/
theorem foldlM_ok_or (P : List α → β → Prop) (E : ε → Prop)
    (hf : ∀ a l b, P (a :: l) b → (∃ b', f b a = .ok b' ∧ P l b') ∨ ∃ e, f b a = .error e ∧ E e) :
    ∀ {l : List α} {init : β}, P l init →
      (∃ b, l.foldlM f init = .ok b ∧ P [] b) ∨ ∃ e, l.foldlM f init = .error e ∧ E e
  | [], init, hi => .inl ⟨init, rfl, hi⟩
  | a :: l, init, hi => by
    rw [List.foldlM_cons]
    rcases hf a l init hi with ⟨b₁, h₁, hb₁⟩ | ⟨e, he, hE⟩
    · rw [h₁, ok_bind]
      exact foldlM_ok_or P E hf hb₁
    · rw [he, error_bind]
      exact .inr ⟨e, rfl, hE⟩

/-- **Invariant rule of a loop over `0, …, n - 1`**, indexed by the turns done: what each
    turn `k` keeps from `k` to `k + 1` holds after the `n` turns of a loop that succeeds. -/
theorem foldlM_range_inv {g : β → ℕ → Except ε β} {n : ℕ} (P : ℕ → β → Prop)
    (hf : ∀ k b b', k < n → P k b → g b k = .ok b' → P (k + 1) b') {init b : β}
    (h0 : P 0 init) (h : (List.range n).foldlM g init = .ok b) : P n b := by
  -- by induction on the turns done, up to `n`
  have hturns : ∀ m ≤ n, ∀ b, (List.range m).foldlM g init = .ok b → P m b := by
    intro m
    induction m with
    | zero =>
      intro _ b hb
      cases pure_eq_ok_iff.1 hb
      exact h0
    | succ m ih =>
      intro hm b hb
      rw [List.range_succ, List.foldlM_append] at hb
      obtain ⟨b₁, h₁, h₂⟩ := bind_eq_ok_iff.1 hb
      rw [List.foldlM_cons] at h₂
      obtain ⟨b₂, h₃, h₄⟩ := bind_eq_ok_iff.1 h₂
      have hb₂ : b₂ = b := pure_eq_ok_iff.1 h₄
      rw [← hb₂]
      exact hf m b₁ b₂ hm (ih (by omega) b₁ h₁) h₃
  exact hturns n le_rfl b h

/-- **Rule of a loop over `0, …, n - 1` that succeeds**: where each turn succeeds from a
    state with the invariant, to one with it, the loop succeeds. -/
theorem foldlM_range_ok {g : β → ℕ → Except ε β} {n : ℕ} (P : ℕ → β → Prop)
    (hf : ∀ k b, k < n → P k b → ∃ b', g b k = .ok b' ∧ P (k + 1) b') {init : β}
    (h0 : P 0 init) : ∃ b, (List.range n).foldlM g init = .ok b ∧ P n b := by
  have hturns : ∀ m ≤ n, ∃ b, (List.range m).foldlM g init = .ok b ∧ P m b := by
    intro m
    induction m with
    | zero => exact fun _ => ⟨init, rfl, h0⟩
    | succ m ih =>
      intro hm
      obtain ⟨b₁, h₁, hP₁⟩ := ih (by omega)
      obtain ⟨b₂, h₂, hP₂⟩ := hf m b₁ hm hP₁
      refine ⟨b₂, ?_, hP₂⟩
      rw [List.range_succ, List.foldlM_append, h₁, ok_bind, List.foldlM_cons, h₂, ok_bind]
      rfl
  exact hturns n le_rfl

/-- A `mapM` that succeeds gives each element's result. -/
theorem forall₂_of_mapM_ok {g : α → Except ε β} :
    ∀ {l : List α} {ys : List β}, l.mapM g = .ok ys → List.Forall₂ (fun x y => g x = .ok y) l ys
  | [], ys, h => by
    rw [List.mapM_nil] at h
    cases h
    exact List.Forall₂.nil
  | a :: l, ys, h => by
    rw [List.mapM_cons] at h
    obtain ⟨y, hy, h'⟩ := bind_eq_ok_iff.1 h
    obtain ⟨ys', hys', hres⟩ := bind_eq_ok_iff.1 h'
    cases pure_eq_ok_iff.1 hres
    exact List.Forall₂.cons hy (forall₂_of_mapM_ok hys')

/-- Each result of a `mapM` that succeeds is that of an element. -/
theorem mem_of_mapM_ok {g : α → Except ε β} :
    ∀ {l : List α} {ys : List β}, l.mapM g = .ok ys → ∀ y ∈ ys, ∃ x ∈ l, g x = .ok y
  | [], ys, h, y, hy => by
    rw [List.mapM_nil] at h
    cases h
    exact absurd hy List.not_mem_nil
  | a :: l, ys, h, y, hy => by
    rw [List.mapM_cons] at h
    obtain ⟨b, hb, h'⟩ := bind_eq_ok_iff.1 h
    obtain ⟨ys', hys', hres⟩ := bind_eq_ok_iff.1 h'
    cases pure_eq_ok_iff.1 hres
    rcases List.mem_cons.1 hy with rfl | hy
    · exact ⟨a, List.mem_cons_self, hb⟩
    · obtain ⟨x, hx, hg⟩ := mem_of_mapM_ok hys' y hy
      exact ⟨x, List.mem_cons_of_mem a hx, hg⟩

/-- A `mapM` that succeeds succeeds at every element. -/
theorem mapM_ok_of_mem {g : α → Except ε β} :
    ∀ {l : List α} {ys : List β}, l.mapM g = .ok ys → ∀ x ∈ l, ∃ y, g x = .ok y
  | [], _, _, x, hx => absurd hx List.not_mem_nil
  | a :: l, ys, h, x, hx => by
    rw [List.mapM_cons] at h
    obtain ⟨y, hy, h'⟩ := bind_eq_ok_iff.1 h
    obtain ⟨ys', hys', -⟩ := bind_eq_ok_iff.1 h'
    rcases List.mem_cons.1 hx with rfl | hx
    · exact ⟨y, hy⟩
    · exact mapM_ok_of_mem hys' x hx

/-- A `mapM` that succeeds at every element succeeds. -/
theorem mapM_ok {g : α → Except ε β} :
    ∀ {l : List α}, (∀ x ∈ l, ∃ y, g x = .ok y) → ∃ ys, l.mapM g = .ok ys
  | [], _ => ⟨[], rfl⟩
  | a :: l, h => by
    obtain ⟨y, hy⟩ := h a List.mem_cons_self
    obtain ⟨ys, hys⟩ := mapM_ok fun x hx => h x (List.mem_cons_of_mem a hx)
    exact ⟨y :: ys, by rw [List.mapM_cons, hy, ok_bind, hys]; rfl⟩

/-- A `mapM` in which some element fails, and every element that fails fails with `e`,
    fails with `e`. -/
theorem mapM_error_of_mem {g : α → Except ε β} {e : ε} :
    ∀ {l : List α}, (∀ x ∈ l, ∀ e', g x = .error e' → e' = e) →
      ∀ x ∈ l, g x = .error e → l.mapM g = .error e
  | [], _, x, hx, _ => absurd hx List.not_mem_nil
  | a :: l, hall, x, hx, hxe => by
    rw [List.mapM_cons]
    cases ha : g a with
    | error e' => rw [hall a List.mem_cons_self e' ha]; rfl
    | ok b =>
      -- the first element succeeds, so the failing one is further on
      have hx' : x ∈ l := by
        rcases List.mem_cons.1 hx with rfl | hx
        · rw [ha] at hxe; cases hxe
        · exact hx
      have hl := mapM_error_of_mem (fun y hy => hall y (List.mem_cons_of_mem a hy)) x hx' hxe
      rw [ok_bind, hl]
      rfl

/-- `foldlM_ok_or` for steps that fail with one error only, the loop ending in what the
    invariant gives when nothing is left. -/
theorem foldlM_ok_or_error (P : List α → β → Prop) {Q : β → Prop} {e₀ : ε}
    (hf : ∀ a l b, P (a :: l) b → (∃ b', f b a = .ok b' ∧ P l b') ∨ f b a = .error e₀)
    (hQ : ∀ b, P [] b → Q b) {l : List α} {init : β} (hi : P l init) :
    (∃ b, l.foldlM f init = .ok b ∧ Q b) ∨ l.foldlM f init = .error e₀ := by
  rcases foldlM_ok_or P (· = e₀) (fun a l b h => (hf a l b h).imp id fun h => ⟨e₀, h, rfl⟩) hi
    with ⟨b, h, hb⟩ | ⟨e, h, rfl⟩
  · exact .inl ⟨b, h, hQ b hb⟩
  · exact .inr h

/-- A check of every element that finds one failing. -/
theorem allM_eq_ok_false {p : α → Except ε Bool} :
    ∀ {l : List α}, l.allM p = .ok false → ∃ a ∈ l, p a = .ok false
  | [], h => by cases h
  | a :: l, h => by
    rw [List.allM_cons] at h
    obtain ⟨b, hb, h'⟩ := bind_eq_ok_iff.1 h
    cases b with
    | false => exact ⟨a, List.mem_cons_self, hb⟩
    | true =>
      obtain ⟨a', ha', h''⟩ := allM_eq_ok_false h'
      exact ⟨a', List.mem_cons_of_mem _ ha', h''⟩

/-- A check of every element that passes passes at every element. -/
theorem allM_eq_ok_true {p : α → Except ε Bool} :
    ∀ {l : List α}, l.allM p = .ok true → ∀ a ∈ l, p a = .ok true
  | [], _, a, ha => absurd ha List.not_mem_nil
  | a :: l, h, a', ha' => by
    rw [List.allM_cons] at h
    obtain ⟨b, hb, h'⟩ := bind_eq_ok_iff.1 h
    cases b with
    | false => cases h'
    | true =>
      rcases List.mem_cons.1 ha' with rfl | ha'
      · exact hb
      · exact allM_eq_ok_true h' a' ha'

/-- A check of every element whose checks all succeed succeeds. -/
theorem allM_ok {p : α → Except ε Bool} :
    ∀ {l : List α}, (∀ a ∈ l, ∃ b, p a = .ok b) → ∃ b, l.allM p = .ok b
  | [], _ => ⟨true, rfl⟩
  | a :: l, h => by
    obtain ⟨b, hb⟩ := h a List.mem_cons_self
    rw [List.allM_cons, hb, ok_bind]
    cases b with
    | false => exact ⟨false, rfl⟩
    | true => exact allM_ok fun a' ha' => h a' (List.mem_cons_of_mem _ ha')

/-- **A loop of checks passes exactly when every check passes.** -/
theorem forM_eq_ok_iff {g : α → Except ε Unit} :
    ∀ {l : List α}, l.forM g = .ok () ↔ ∀ a ∈ l, g a = .ok ()
  | [] => ⟨fun _ a ha => absurd ha List.not_mem_nil, fun _ => rfl⟩
  | a :: l => by
    change g a >>= (fun _ => l.forM g) = _ ↔ _
    constructor
    · intro h a' ha'
      obtain ⟨⟨⟩, hb, h'⟩ := bind_eq_ok_iff.1 h
      rcases List.mem_cons.1 ha' with rfl | ha'
      · exact hb
      · exact forM_eq_ok_iff.1 h' a' ha'
    · intro h
      rw [h a List.mem_cons_self, ok_bind]
      exact forM_eq_ok_iff.2 fun a' ha' => h a' (List.mem_cons_of_mem _ ha')

end Folds

/-! ## Loops that run until a guard holds -/

section While

variable {σ : Type} (done : σ → Except ε Bool) (body : σ → Except ε σ) (out : ε)

/-- A loop `while !done(s) { s = body(s) }` that may fail, run for at most `fuel` turns
    of its body: the guard is checked before each turn, and a loop still running when
    the fuel is spent fails with `out`. -/
def whileM : ℕ → σ → Except ε σ
  | 0, s => do if (← done s) then pure s else throw out
  | fuel + 1, s => do if (← done s) then pure s else whileM fuel (← body s)

/-- One turn of a loop whose guard fails. -/
theorem whileM_succ_of_not_done {fuel : ℕ} {s : σ} (hd : done s = .ok false) :
    whileM done body out (fuel + 1) s = body s >>= whileM done body out fuel := by
  rw [whileM, hd]
  rfl

/-- A loop whose guard holds ends at once. -/
theorem whileM_of_done {fuel : ℕ} {s : σ} (hd : done s = .ok true) :
    whileM done body out fuel s = .ok s := by
  cases fuel <;> (rw [whileM, hd]; rfl)

/-- **The invariant rule of a loop.**  What holds before the loop and is kept by every
    turn taken while the guard fails holds when the loop ends, and so does the guard. -/
theorem whileM_inv (P : σ → Prop)
    (hbody : ∀ s s', P s → done s = .ok false → body s = .ok s' → P s') :
    ∀ {fuel : ℕ} {s s' : σ}, P s → whileM done body out fuel s = .ok s' →
      P s' ∧ done s' = .ok true := by
  intro fuel
  induction fuel with
  | zero =>
    intro s s' hs h
    cases hd : done s with
    | error e => rw [whileM, hd] at h; cases h
    | ok b =>
      cases b
      · rw [whileM, hd] at h; cases h
      · rw [whileM_of_done done body out hd] at h
        cases h
        exact ⟨hs, hd⟩
  | succ fuel ih =>
    intro s s' hs h
    cases hd : done s with
    | error e => rw [whileM, hd] at h; cases h
    | ok b =>
      cases b
      · -- a turn of the body, then the rest of the loop
        rw [whileM_succ_of_not_done done body out hd] at h
        obtain ⟨s₁, hs₁, h⟩ := bind_eq_ok_iff.1 h
        exact ih (hbody s s₁ hs hd hs₁) h
      · rw [whileM_of_done done body out hd] at h
        cases h
        exact ⟨hs, hd⟩

/-- **The progress rule of a loop.**  Where the invariant holds, the guard can be read,
    and a turn taken while the guard fails either succeeds, keeping the invariant and
    lowering a measure, or fails with an error of `E`.  Given more turns than the
    measure, the loop then ends with the invariant and the guard holding, or fails with
    an error of `E`: never for want of turns. -/
theorem whileM_ok_or (P : σ → Prop) (E : ε → Prop) (μ : σ → ℕ)
    (hdone : ∀ s, P s → ∃ b, done s = .ok b)
    (hbody : ∀ s, P s → done s = .ok false →
      (∃ s', body s = .ok s' ∧ P s' ∧ μ s' < μ s) ∨ ∃ e, body s = .error e ∧ E e) :
    ∀ {fuel : ℕ} {s : σ}, P s → μ s < fuel →
      (∃ s', whileM done body out fuel s = .ok s' ∧ P s' ∧ done s' = .ok true) ∨
        ∃ e, whileM done body out fuel s = .error e ∧ E e := by
  intro fuel
  induction fuel with
  | zero => intro s _ hμ; exact absurd hμ (Nat.not_lt_zero _)
  | succ fuel ih =>
    intro s hs hμ
    obtain ⟨b, hb⟩ := hdone s hs
    cases b with
    | true => exact .inl ⟨s, whileM_of_done done body out hb, hs, hb⟩
    | false =>
      rw [whileM_succ_of_not_done done body out hb]
      rcases hbody s hs hb with ⟨s₁, h₁, hs₁, hμ₁⟩ | ⟨e, he, hE⟩
      · -- the turn succeeds, and the rest of the loop has one turn less
        rw [h₁, ok_bind]
        exact ih hs₁ (by omega)
      · rw [he, error_bind]
        exact .inr ⟨e, rfl, hE⟩

/-- `whileM_ok_or` for a body that fails with one error only, the loop ending in what the
    invariant and the guard give. -/
theorem whileM_ok_or_error (P : σ → Prop) {Q : σ → Prop} {e₀ : ε} (μ : σ → ℕ)
    (hdone : ∀ s, P s → ∃ b, done s = .ok b)
    (hbody : ∀ s, P s → done s = .ok false →
      (∃ s', body s = .ok s' ∧ P s' ∧ μ s' < μ s) ∨ body s = .error e₀)
    (hQ : ∀ s, P s → done s = .ok true → Q s) {fuel : ℕ} {s : σ} (hs : P s) (hμ : μ s < fuel) :
    (∃ s', whileM done body out fuel s = .ok s' ∧ Q s') ∨ whileM done body out fuel s = .error e₀ := by
  rcases whileM_ok_or done body out P (· = e₀) μ hdone
      (fun s hs hd => (hbody s hs hd).imp id fun h => ⟨e₀, h, rfl⟩) hs hμ
    with ⟨s', h, hs', hd'⟩ | ⟨e, h, rfl⟩
  · exact .inl ⟨s', h, hQ s' hs' hd'⟩
  · exact .inr h

end While

/-! ## Exchanging two runs of values -/

/-- Exchange `[a, a + m)` and `[a + m, a + m + n)`, keeping the order in each. -/
def swapBlocks (a m n x : ℕ) : ℕ :=
  if a ≤ x ∧ x < a + m then x + n else if a + m ≤ x ∧ x < a + m + n then x - m else x

theorem swapBlocks_swapBlocks (a m n x : ℕ) : swapBlocks a n m (swapBlocks a m n x) = x := by
  unfold swapBlocks
  split_ifs <;> omega

/-- The exchange as a permutation of `ℕ`. -/
def blockSwap (a m n : ℕ) : Equiv.Perm ℕ where
  toFun := swapBlocks a m n
  invFun := swapBlocks a n m
  left_inv := swapBlocks_swapBlocks a m n
  right_inv := swapBlocks_swapBlocks a n m

theorem blockSwap_of_notMem {a m n x : ℕ} (h : x < a ∨ a + m + n ≤ x) : blockSwap a m n x = x := by
  show swapBlocks a m n x = x
  unfold swapBlocks
  split_ifs <;> omega

theorem blockSwap_first {a m n x : ℕ} (h : x < m) : blockSwap a m n (a + x) = a + n + x := by
  show swapBlocks a m n (a + x) = a + n + x
  unfold swapBlocks
  split_ifs <;> omega

theorem blockSwap_second {a m n x : ℕ} (h : x < n) : blockSwap a m n (a + m + x) = a + x := by
  show swapBlocks a m n (a + m + x) = a + x
  unfold swapBlocks
  split_ifs <;> omega

end Counter
