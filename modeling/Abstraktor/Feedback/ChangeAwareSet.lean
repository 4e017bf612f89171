/-
  Sets that know when they change (`ChangeAwareSet`, `LayeredChangeAwareSet`,
  src/mallory/mediator/src/feedback/producers/mod.rs).

  A `ChangeAwareSet` keeps, beside its `HashSet`, a 64-bit `hash` that the insertion of
  a new element XORs with the element's SipHash (keys 0, 0); `extend` skips the merge
  when the two hashes are equal.  A `LayeredChangeAwareSet` also keeps the pairs of
  its values in insertion order: inserting `v` pairs every value already there with
  `v`, unless the hash of the single set is the one remembered from the last time `v`
  was paired (0 if never).

  The hash of an element is a function `H` of it, one for each element type, and a
  `HashSet` is its elements without duplicates, in the order of its iteration.  The
  counters of skipped work (`_num_skipped`, `_num_skipped_pairs`) and the triplets,
  which no insertion fills, are left out.

  * `ChangeAwareSet.apply_hashExact`, `ChangeAwareSet.run_hashExact`: every operation
    keeps the hash the fingerprint of the set, so every run does;
  * `LayeredInv`: the single set holds the values inserted, the pairs the values at
    two positions in order, and each remembered hash is the fingerprint of a set of
    values already paired with its key; `LayeredChangeAwareSet.insert_inv` is its step
    lemma and `LayeredChangeAwareSet.foldl_insert_inv` its run lemma, as long as no
    non-empty set of inserted values has hashes that XOR to 0 (`NoZeroXor`).
-/
import Abstraktor.Lib.XorFingerprint

namespace Abstraktor.Feedback

open XorFingerprint

/-- A `ChangeAwareSet`: the hash and the `HashSet`. -/
structure ChangeAwareSet (α : Type) where
  hash : UInt64
  set : List α
  nodup : set.Nodup

/-- The operations on a `ChangeAwareSet`. -/
inductive SetOp (α : Type)
  | insert (value : α)
  | extend (other : ChangeAwareSet α)
  | clear

namespace ChangeAwareSet

variable {α : Type} [DecidableEq α] (H : α → UInt64)

def new : ChangeAwareSet α := ⟨0, [], List.nodup_nil⟩

/-- Insert `value` and tell whether it was new; only then does the hash change. -/
def insert (s : ChangeAwareSet α) (value : α) : ChangeAwareSet α × Bool :=
  let new_hash := s.hash ^^^ H value
  if hv : value ∈ s.set then (s, false)
  else (⟨new_hash, value :: s.set, List.nodup_cons.2 ⟨hv, s.nodup⟩⟩, true)

def different_from (s other : ChangeAwareSet α) : Bool := s.hash != other.hash

/-- Insert the elements of `other`, unless the two hashes are equal. -/
def extend (s other : ChangeAwareSet α) : ChangeAwareSet α :=
  if s.different_from other then other.set.foldl (fun acc value => (acc.insert H value).1) s
  else s

def clear (_ : ChangeAwareSet α) : ChangeAwareSet α := ⟨0, [], List.nodup_nil⟩

def apply (s : ChangeAwareSet α) : SetOp α → ChangeAwareSet α
  | .insert value => (s.insert H value).1
  | .extend other => s.extend H other
  | .clear => s.clear

/-- The hash is the XOR of the hashes of the elements. -/
def HashExact (s : ChangeAwareSet α) : Prop := s.hash = fingerprint H s.set

omit [DecidableEq α] in
theorem new_hashExact : (new : ChangeAwareSet α).HashExact H := rfl

theorem mem_insert {s : ChangeAwareSet α} {value x : α} :
    x ∈ (s.insert H value).1.set ↔ x = value ∨ x ∈ s.set := by
  unfold insert
  split
  · next hv =>
    exact ⟨Or.inr, fun h => h.elim (fun h => h ▸ hv) id⟩
  · simp

theorem insert_hashExact {s : ChangeAwareSet α} (hs : s.HashExact H) (value : α) :
    (s.insert H value).1.HashExact H := by
  unfold insert
  split
  · exact hs
  · show s.hash ^^^ H value = fingerprint H (value :: s.set)
    rw [fingerprint_cons, hs, UInt64.xor_comm]

/-- The loop `for value in values { insert(value) }`. -/
def insert_all (s : ChangeAwareSet α) (values : List α) : ChangeAwareSet α :=
  values.foldl (fun acc value => (acc.insert H value).1) s

theorem mem_insert_all {s : ChangeAwareSet α} {values : List α} {x : α} :
    x ∈ (s.insert_all H values).set ↔ x ∈ values ∨ x ∈ s.set := by
  induction values generalizing s with
  | nil => simp [insert_all]
  | cons v values ih =>
    simp only [insert_all, List.foldl_cons] at ih ⊢
    rw [ih, mem_insert, List.mem_cons]
    tauto

theorem insert_all_hashExact {s : ChangeAwareSet α} (hs : s.HashExact H) (values : List α) :
    (s.insert_all H values).HashExact H := by
  induction values generalizing s with
  | nil => exact hs
  | cons v values ih => exact ih (insert_hashExact H hs v)

/-- **Step lemma.**  Every operation keeps the hash exact. -/
theorem apply_hashExact {s : ChangeAwareSet α} (hs : s.HashExact H) :
    ∀ op : SetOp α, (s.apply H op).HashExact H
  | .insert value => insert_hashExact H hs value
  | .extend other => by
    show (s.extend H other).HashExact H
    unfold extend
    split
    · exact insert_all_hashExact H hs other.set
    · exact hs
  | .clear => rfl

/-- **Run lemma.** -/
theorem run_hashExact {s : ChangeAwareSet α} (hs : s.HashExact H) (ops : List (SetOp α)) :
    (ops.foldl (apply H) s).HashExact H := by
  induction ops generalizing s with
  | nil => exact hs
  | cons op ops ih => exact ih (apply_hashExact H hs op)

end ChangeAwareSet

/-- A `LayeredChangeAwareSet`: the values, their pairs, and for each value the hash of
    the single set when it was last paired (the `HashMap` read with its default 0). -/
structure LayeredChangeAwareSet (α : Type) where
  single : ChangeAwareSet α
  pairs : ChangeAwareSet (α × α)
  hash_of_single_when_last_added : α → UInt64

namespace LayeredChangeAwareSet

variable {α : Type} [DecidableEq α] (H : α → UInt64) (H₂ : α × α → UInt64)

def new : LayeredChangeAwareSet α := ⟨.new, .new, fun _ => 0⟩

def insert_single (l : LayeredChangeAwareSet α) (value : α) : LayeredChangeAwareSet α × Bool :=
  ({ l with single := (l.single.insert H value).1 }, (l.single.insert H value).2)

/-- Pair every value of the single set with `value`, unless the single set has the hash
    remembered for `value`. -/
def insert_pairs_with (l : LayeredChangeAwareSet α) (value : α) : LayeredChangeAwareSet α :=
  if l.hash_of_single_when_last_added value = l.single.hash then l
  else
    { l with
      hash_of_single_when_last_added :=
        Function.update l.hash_of_single_when_last_added value l.single.hash
      pairs := l.single.set.foldl (fun pairs ev_a => (pairs.insert H₂ (ev_a, value)).1) l.pairs }

def insert (l : LayeredChangeAwareSet α) (value : α) : LayeredChangeAwareSet α :=
  ((l.insert_pairs_with H₂ value).insert_single H value).1

def get_single (l : LayeredChangeAwareSet α) : ChangeAwareSet α := l.single

def get_pairs (l : LayeredChangeAwareSet α) : ChangeAwareSet (α × α) := l.pairs

def extend (l other : LayeredChangeAwareSet α) : LayeredChangeAwareSet α :=
  { l with single := l.single.extend H other.single, pairs := l.pairs.extend H₂ other.pairs }

/-! ## The pairs of positions -/

/-- `a` stands before `b` in `vs`, at two positions. -/
def ordered_pair (vs : List α) (a b : α) : Prop :=
  ∃ i j : ℕ, i < j ∧ vs[i]? = some a ∧ vs[j]? = some b

omit [DecidableEq α] in
theorem ordered_pair_append_singleton {vs : List α} {v a b : α} :
    ordered_pair (vs ++ [v]) a b ↔ ordered_pair vs a b ∨ (a ∈ vs ∧ b = v) := by
  constructor
  · rintro ⟨i, j, hij, hi, hj⟩
    rcases Nat.lt_trichotomy j vs.length with hjl | rfl | hjl
    · rw [List.getElem?_append_left (by omega)] at hi
      rw [List.getElem?_append_left hjl] at hj
      exact .inl ⟨i, j, hij, hi, hj⟩
    · rw [List.getElem?_append_left hij] at hi
      rw [List.getElem?_concat_length] at hj
      exact .inr ⟨List.mem_iff_getElem?.2 ⟨i, hi⟩, (Option.some.inj hj).symm⟩
    · rw [List.getElem?_eq_none (by simp; omega)] at hj
      cases hj
  · rintro (⟨i, j, hij, hi, hj⟩ | ⟨ha, rfl⟩)
    · have hjl : j < vs.length := (List.getElem?_eq_some_iff.1 hj).1
      exact ⟨i, j, hij, by rw [List.getElem?_append_left (by omega), hi],
        by rw [List.getElem?_append_left hjl, hj]⟩
    · obtain ⟨i, hi⟩ := List.mem_iff_getElem?.1 ha
      have hil : i < vs.length := (List.getElem?_eq_some_iff.1 hi).1
      exact ⟨i, vs.length, hil, by rw [List.getElem?_append_left hil, hi],
        List.getElem?_concat_length⟩

/-! ## The invariant of the insertions -/

/-- No non-empty set of distinct values of `vs` has hashes that XOR to 0. -/
def NoZeroXor (vs : List α) : Prop :=
  ∀ s : List α, s.Nodup → s ≠ [] → (∀ x ∈ s, x ∈ vs) → fingerprint H s ≠ 0

omit [DecidableEq α] in
theorem NoZeroXor.mono {vs vs' : List α} (h : NoZeroXor H vs') (hsub : ∀ x ∈ vs, x ∈ vs') :
    NoZeroXor H vs :=
  fun s hs hne hmem => h s hs hne fun x hx => hsub x (hmem x hx)

/-- Each remembered hash is the fingerprint of a set of values of `vs` that are all
    paired with the key. -/
def MemoSound (memo : α → UInt64) (pairs : ChangeAwareSet (α × α)) (vs : List α) : Prop :=
  ∀ w, ∃ S : List α, S.Nodup ∧ (∀ a ∈ S, a ∈ vs) ∧ memo w = fingerprint H S ∧
    ∀ a ∈ S, (a, w) ∈ pairs.set

omit [DecidableEq α] in
theorem MemoSound.mono {memo : α → UInt64} {pairs pairs' : ChangeAwareSet (α × α)}
    {vs vs' : List α} (h : MemoSound H memo pairs vs) (hp : ∀ p ∈ pairs.set, p ∈ pairs'.set)
    (hv : ∀ x ∈ vs, x ∈ vs') : MemoSound H memo pairs' vs' := by
  intro w
  obtain ⟨S, hS, hSvs, hmemo, hpaired⟩ := h w
  exact ⟨S, hS, fun a ha => hv a (hSvs a ha), hmemo, fun a ha => hp _ (hpaired a ha)⟩

/-- The layered set after inserting the values `vs`, in order. -/
structure LayeredInv (l : LayeredChangeAwareSet α) (vs : List α) : Prop where
  single_mem : ∀ x, x ∈ l.single.set ↔ x ∈ vs
  single_hash : l.single.HashExact H
  pairs_mem : ∀ a b, (a, b) ∈ l.pairs.set ↔ ordered_pair vs a b
  memo : MemoSound H l.hash_of_single_when_last_added l.pairs vs

omit [DecidableEq α] in
theorem new_inv : LayeredInv H (new : LayeredChangeAwareSet α) [] where
  single_mem _ := by simp [new, ChangeAwareSet.new]
  single_hash := rfl
  pairs_mem a b := by simp [new, ChangeAwareSet.new, ordered_pair]
  memo _ := ⟨[], List.nodup_nil, by simp, rfl, by simp⟩

variable {H}

/-- A skipped pairing loses nothing: when the single set has the hash remembered for
    `v`, every value in it is already paired with `v`. -/
theorem paired_of_hash_eq {l : LayeredChangeAwareSet α} {vs : List α} (hl : LayeredInv H l vs)
    (hx : NoZeroXor H vs) {v : α} (hskip : l.hash_of_single_when_last_added v = l.single.hash)
    {a : α} (ha : a ∈ vs) : (a, v) ∈ l.pairs.set := by
  obtain ⟨S, hS, hSvs, hmemo, hpaired⟩ := hl.memo v
  have hsub : ∀ x ∈ S, x ∈ l.single.set := fun x hx => (hl.single_mem x).2 (hSvs x hx)
  -- the single set and the remembered set have one fingerprint, so the rest XORs to 0
  have hzero : fingerprint H (rest l.single.set S) = 0 :=
    fingerprint_rest_eq_zero H l.single.nodup hS hsub (by rw [← hl.single_hash, ← hskip, hmemo])
  have hrest : rest l.single.set S = [] := by
    by_contra hne
    exact hx _ (rest_nodup l.single.nodup S) hne
      (fun x hx => (hl.single_mem x).1 (mem_rest.1 hx).1) hzero
  by_cases haS : a ∈ S
  · exact hpaired a haS
  · have : a ∈ rest l.single.set S := mem_rest.2 ⟨(hl.single_mem a).2 ha, haS⟩
    rw [hrest] at this
    cases this

theorem insert_pairs_with_single (l : LayeredChangeAwareSet α) (v : α) :
    (l.insert_pairs_with H₂ v).single = l.single := by
  unfold insert_pairs_with
  split <;> rfl

/-- After `insert_pairs_with v` the pairs are those before and each value with `v`, and
    the remembered hashes stay sound. -/
theorem insert_pairs_with_spec {l : LayeredChangeAwareSet α} {vs : List α}
    (hl : LayeredInv H l vs) (hx : NoZeroXor H vs) (v : α) :
    (∀ a b, (a, b) ∈ (l.insert_pairs_with H₂ v).pairs.set ↔
      (a, b) ∈ l.pairs.set ∨ (a ∈ vs ∧ b = v)) ∧
    MemoSound H (l.insert_pairs_with H₂ v).hash_of_single_when_last_added
      (l.insert_pairs_with H₂ v).pairs vs := by
  unfold insert_pairs_with
  split
  · next hskip =>
    refine ⟨fun a b => ⟨.inl, ?_⟩, hl.memo⟩
    rintro (h | ⟨ha, rfl⟩)
    · exact h
    · exact paired_of_hash_eq hl hx hskip ha
  · -- the pairs loop inserts each value of the single set with `v`
    have hpairs : ∀ a b, (a, b) ∈ (l.single.set.foldl
        (fun pairs ev_a => (pairs.insert H₂ (ev_a, v)).1) l.pairs).set ↔
        (a, b) ∈ l.pairs.set ∨ (a ∈ vs ∧ b = v) := by
      intro a b
      have hfold : (a, b) ∈ (l.pairs.insert_all H₂ (l.single.set.map fun ev_a => (ev_a, v))).set ↔
          (a, b) ∈ l.single.set.map (fun ev_a => (ev_a, v)) ∨ (a, b) ∈ l.pairs.set :=
        ChangeAwareSet.mem_insert_all H₂
      rw [ChangeAwareSet.insert_all, List.foldl_map] at hfold
      rw [hfold, List.mem_map]
      simp only [Prod.mk.injEq]
      constructor
      · rintro (⟨a', ha', rfl, rfl⟩ | h)
        · exact .inr ⟨(hl.single_mem a').1 ha', rfl⟩
        · exact .inl h
      · rintro (h | ⟨ha, rfl⟩)
        · exact .inr h
        · exact .inl ⟨a, (hl.single_mem a).2 ha, rfl, rfl⟩
    refine ⟨hpairs, ?_⟩
    intro w
    by_cases hw : w = v
    · -- `v` now remembers the whole single set, just paired with it
      subst hw
      refine ⟨l.single.set, l.single.nodup, fun a ha => (hl.single_mem a).1 ha,
        by dsimp only; rw [Function.update_self, hl.single_hash], fun a ha => ?_⟩
      exact (hpairs a w).2 (.inr ⟨(hl.single_mem a).1 ha, rfl⟩)
    · obtain ⟨S, hS, hSvs, hmemo, hpaired⟩ := hl.memo w
      refine ⟨S, hS, hSvs, by dsimp only; rw [Function.update_of_ne hw, hmemo], fun a ha => ?_⟩
      exact (hpairs a w).2 (.inl (hpaired a ha))

/-- **Step lemma.**  Inserting `v` after `vs` keeps the invariant, for `vs ++ [v]`. -/
theorem insert_inv {l : LayeredChangeAwareSet α} {vs : List α} (hl : LayeredInv H l vs)
    (hx : NoZeroXor H vs) (v : α) : LayeredInv H (l.insert H H₂ v) (vs ++ [v]) := by
  obtain ⟨hpairs, hmemo⟩ := insert_pairs_with_spec H₂ hl hx v
  have hsingle := insert_pairs_with_single H₂ l v
  have hvs : ∀ x ∈ vs, x ∈ vs ++ [v] := fun x hx => List.mem_append_left _ hx
  constructor
  · intro x
    show x ∈ ((l.insert_pairs_with H₂ v).single.insert H v).1.set ↔ x ∈ vs ++ [v]
    rw [ChangeAwareSet.mem_insert, hsingle, hl.single_mem x, List.mem_append, List.mem_singleton]
    tauto
  · show ((l.insert_pairs_with H₂ v).single.insert H v).1.HashExact H
    rw [hsingle]
    exact ChangeAwareSet.insert_hashExact H hl.single_hash v
  · intro a b
    show (a, b) ∈ (l.insert_pairs_with H₂ v).pairs.set ↔ _
    rw [hpairs, hl.pairs_mem, ordered_pair_append_singleton]
  · exact hmemo.mono H (fun p hp => hp) hvs

/-- **Run lemma.**  Inserting the values `vs'` after `vs` keeps the invariant. -/
theorem foldl_insert_inv {l : LayeredChangeAwareSet α} {vs : List α} (hl : LayeredInv H l vs)
    (vs' : List α) (hx : NoZeroXor H (vs ++ vs')) :
    LayeredInv H (vs'.foldl (insert H H₂) l) (vs ++ vs') := by
  induction vs' generalizing l vs with
  | nil => simpa using hl
  | cons v vs' ih =>
    have hx' : NoZeroXor H vs := hx.mono H fun x h => List.mem_append_left _ h
    have hstep := insert_inv H₂ hl hx' v
    rw [List.foldl_cons]
    rw [show vs ++ v :: vs' = vs ++ [v] ++ vs' by simp] at hx ⊢
    exact ih hstep hx

end LayeredChangeAwareSet

/-- **Change-aware sets keep their fingerprints exact.**  After any run of insertions,
    extensions and clears from a new set the hash is the XOR of the hashes of the
    elements.  Inserting the values `vs` in order into a new layered set, as long as no
    non-empty set of distinct inserted values has hashes that XOR to 0, leaves in the
    single set the values of `vs` and in the pairs the values at two positions of `vs`,
    in order, whatever pairings the remembered hashes skipped. -/
theorem change_aware_sets_exact {α : Type} [DecidableEq α] (H : α → UInt64)
    (H₂ : α × α → UInt64) :
    (∀ ops : List (SetOp α),
      (ops.foldl (ChangeAwareSet.apply H) ChangeAwareSet.new).hash =
        fingerprint H (ops.foldl (ChangeAwareSet.apply H) ChangeAwareSet.new).set) ∧
    ∀ vs : List α, LayeredChangeAwareSet.NoZeroXor H vs →
      (∀ x, x ∈ (vs.foldl (LayeredChangeAwareSet.insert H H₂)
          LayeredChangeAwareSet.new).get_single.set ↔ ∃ i : ℕ, vs[i]? = some x) ∧
      ∀ a b, (a, b) ∈ (vs.foldl (LayeredChangeAwareSet.insert H H₂)
          LayeredChangeAwareSet.new).get_pairs.set ↔
        ∃ i j : ℕ, i < j ∧ vs[i]? = some a ∧ vs[j]? = some b := by
  refine ⟨fun ops => ChangeAwareSet.run_hashExact H (ChangeAwareSet.new_hashExact H) ops,
    fun vs hx => ?_⟩
  have hinv := LayeredChangeAwareSet.foldl_insert_inv H₂ (LayeredChangeAwareSet.new_inv H) vs
    (by simpa using hx)
  rw [List.nil_append] at hinv
  exact ⟨fun x => (hinv.single_mem x).trans List.mem_iff_getElem?, hinv.pairs_mem⟩

/-- The value 1 inserted twice: it is paired with itself. -/
theorem change_aware_sets_exact_repeat :
    LayeredChangeAwareSet.NoZeroXor (fun n : ℕ => n.toUInt64) [1, 1] ∧
      (∀ x, x ∈ ([1, 1].foldl (LayeredChangeAwareSet.insert (fun n : ℕ => n.toUInt64) (fun _ => 0))
          LayeredChangeAwareSet.new).get_single.set ↔ ∃ i : ℕ, [1, 1][i]? = some x) ∧
      ∀ a b, (a, b) ∈ ([1, 1].foldl (LayeredChangeAwareSet.insert (fun n : ℕ => n.toUInt64)
          (fun _ => 0)) LayeredChangeAwareSet.new).get_pairs.set ↔
        ∃ i j : ℕ, i < j ∧ [1, 1][i]? = some a ∧ [1, 1][j]? = some b :=
  have hx : LayeredChangeAwareSet.NoZeroXor (fun n : ℕ => n.toUInt64) [1, 1] := by
    intro s hs hne hmem
    obtain ⟨a, t, rfl⟩ := List.exists_cons_of_ne_nil hne
    have ha : a = 1 := by simpa using hmem a List.mem_cons_self
    -- a duplicate-free list of ones has one element
    have ht : t = [] := by
      rcases t with _ | ⟨b, t⟩
      · rfl
      · have hb : b = 1 := by simpa using hmem b (by simp)
        simp [ha, hb] at hs
    subst ha ht
    decide
  ⟨hx, (change_aware_sets_exact _ _).2 [1, 1] hx⟩

end Abstraktor.Feedback
