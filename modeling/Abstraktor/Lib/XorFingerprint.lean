/-
  The XOR fingerprint of a finite set: the XOR of the 64-bit hashes of its elements.

  A set kept as a duplicate-free list has the fingerprint of its list, which does not
  depend on the order (`fingerprint_perm`).  Adding an element outside the set XORs
  its hash in.  When the elements of `s` are among those of `l`, the fingerprint of
  `l` is that of `s` XOR that of the rest, so two equal fingerprints of nested sets
  leave a rest of fingerprint 0 (`fingerprint_rest_eq_zero`): unless a non-empty set
  of hashes XORs to 0, equal fingerprints of nested sets mean equal sets.
-/
import Mathlib

namespace XorFingerprint

variable {α : Type*} (h : α → UInt64)

/-- The XOR of the hashes of the elements of `l`. -/
def fingerprint (l : List α) : UInt64 := l.foldr (fun a acc => h a ^^^ acc) 0

@[simp] theorem fingerprint_nil : fingerprint h [] = 0 := rfl

@[simp] theorem fingerprint_cons (a : α) (l : List α) :
    fingerprint h (a :: l) = h a ^^^ fingerprint h l := rfl

theorem fingerprint_append (l l' : List α) :
    fingerprint h (l ++ l') = fingerprint h l ^^^ fingerprint h l' := by
  induction l with
  | nil => simp
  | cons a l ih => rw [List.cons_append, fingerprint_cons, fingerprint_cons, ih, UInt64.xor_assoc]

instance xor_step_leftCommutative : LeftCommutative (fun (a : α) (acc : UInt64) => h a ^^^ acc) :=
  ⟨fun a b c => by rw [← UInt64.xor_assoc, UInt64.xor_comm (h a), UInt64.xor_assoc]⟩

theorem fingerprint_perm {l l' : List α} (hp : l.Perm l') : fingerprint h l = fingerprint h l' :=
  hp.foldr_eq 0

variable [DecidableEq α]

/-- The elements of `l` outside `s`. -/
def rest (l s : List α) : List α := l.filter fun a => a ∉ s

theorem rest_nodup {l : List α} (hl : l.Nodup) (s : List α) : (rest l s).Nodup :=
  List.Nodup.filter _ hl

theorem mem_rest {l s : List α} {a : α} : a ∈ rest l s ↔ a ∈ l ∧ a ∉ s := by
  simp [rest]

/-- Splitting a set around a subset: `l` is `s` and the rest. -/
theorem fingerprint_eq_xor_rest {l s : List α} (hl : l.Nodup) (hs : s.Nodup)
    (hsub : ∀ a ∈ s, a ∈ l) : fingerprint h l = fingerprint h s ^^^ fingerprint h (rest l s) := by
  -- the members of `l` in `s` are `s` itself, up to order
  have hin : (l.filter fun a => a ∈ s).Perm s := by
    rw [List.perm_ext_iff_of_nodup (List.Nodup.filter _ hl) hs]
    intro a
    simp only [List.mem_filter, decide_eq_true_eq]
    exact ⟨fun h => h.2, fun h => ⟨hsub a h, h⟩⟩
  have hsplit := List.filter_append_perm (fun a => decide (a ∈ s)) l
  rw [← fingerprint_perm h hsplit, fingerprint_append, fingerprint_perm h hin, rest]
  simp only [decide_not]

/-- **Nested sets of one fingerprint.**  If `s` is inside `l` and both have the same
    fingerprint, the rest of `l` has fingerprint 0. -/
theorem fingerprint_rest_eq_zero {l s : List α} (hl : l.Nodup) (hs : s.Nodup)
    (hsub : ∀ a ∈ s, a ∈ l) (heq : fingerprint h l = fingerprint h s) :
    fingerprint h (rest l s) = 0 := by
  have hsplit := fingerprint_eq_xor_rest h hl hs hsub
  rw [heq] at hsplit
  -- cancel `s`'s fingerprint on both sides
  have := congrArg (fun x => fingerprint h s ^^^ x) hsplit
  simp only [← UInt64.xor_assoc, UInt64.xor_self, UInt64.zero_xor] at this
  exact this.symm

end XorFingerprint
