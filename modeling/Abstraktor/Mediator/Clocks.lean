/-
  The clocks of the nodes (`ClockManager`, src/mallory/mediator/src/history/time.rs).

  A node's clock is registered as a pair of origins, one absolute (nanoseconds
  since the epoch, an `i64`) and one monotonic (the node's own nanoseconds, a
  `u64`); a time of one kind is converted to the other by the offset from its
  origin.  A monotonic time plus an offset that leaves the `u64` range is cut to
  `0` or to `u64::MAX` (`impl Add<TimestampOffset> for MonotonicTimestamp`).

  * `get_rel_if_registered` is monotone (`get_rel_mono`), and undoes
    `get_abs_if_registered` (`get_rel_get_abs`);
  * `get_abs_checked` is `get_abs_if_registered` with its `panic!`, on an offset from
    the monotonic origin that is not an `i64`, and the wrapping `+` of a release build;
    where neither happens it is `get_abs_if_registered` (`get_abs_checked_eq`).
-/
import Mathlib

namespace Abstraktor.Mediator

/-- `u64::MAX`. -/
def U64_MAX : ℕ := 2 ^ 64 - 1

/-- `MonotonicTimestamp + TimestampOffset`: the sum, or `0` or `u64::MAX` where it
    leaves the range of a `u64`. -/
def ts_add (ts : ℕ) (rhs : ℤ) : ℕ :=
  if 0 ≤ (ts : ℤ) + rhs ∧ (ts : ℤ) + rhs ≤ U64_MAX then ((ts : ℤ) + rhs).toNat
  else if rhs < 0 then 0 else U64_MAX

/-- `i64::MIN` and `i64::MAX`. -/
def I64_MIN : ℤ := -2 ^ 63
def I64_MAX : ℤ := 2 ^ 63 - 1

/-- The `+` of two `i64` in a release build: the sum wrapped into the `i64` range. -/
def i64_wrap (x : ℤ) : ℤ := (x + 2 ^ 63) % 2 ^ 64 - 2 ^ 63

theorem i64_wrap_of_mem {x : ℤ} (h₁ : I64_MIN ≤ x) (h₂ : x ≤ I64_MAX) : i64_wrap x = x := by
  unfold I64_MIN at h₁
  unfold I64_MAX at h₂
  unfold i64_wrap
  omega

/-- The `panic!` of the conversions. -/
inductive ClockPanic
  /-- `panic!("Could not get absolute timestamp for ... because it led to under/overflow
      when computing ... - ...")` -/
  | abs_under_overflow
deriving DecidableEq, Repr

/-- A node's clock: its absolute and its monotonic origin. -/
structure ClockDescriptor where
  absolute_origin_ns : ℤ
  monotonic_origin_ns : UInt64

/-- The registered clocks, by node. -/
structure ClockManager where
  clocks : ℕ → Option ClockDescriptor
  synchronized_to_within_ms : ℕ

def ClockManager.register_clock (c : ClockManager) (node_id : ℕ) (abs_ts : ℤ) (rel_ts : UInt64) :
    ClockManager :=
  { c with clocks := Function.update c.clocks node_id (some ⟨abs_ts, rel_ts⟩) }

def ClockManager.get_abs_if_registered (c : ClockManager) (node_id rel_ts : ℕ) : Option ℤ :=
  (c.clocks node_id).map fun clock =>
    clock.absolute_origin_ns + ((rel_ts : ℤ) - clock.monotonic_origin_ns.toNat)

/-- `get_abs_if_registered` with its `panic!`: the offset of the time from the monotonic
    origin must be an `i64` (`AbsoluteTimestamp::try_from`), and its sum with the
    absolute origin wraps. -/
def ClockManager.get_abs_checked (c : ClockManager) (node_id rel_ts : ℕ) :
    Except ClockPanic (Option ℤ) :=
  match c.clocks node_id with
  | none => .ok none
  | some clock =>
    let diff := (rel_ts : ℤ) - clock.monotonic_origin_ns.toNat
    if I64_MIN ≤ diff ∧ diff ≤ I64_MAX then .ok (some (i64_wrap (clock.absolute_origin_ns + diff)))
    else .error .abs_under_overflow

def ClockManager.get_rel_if_registered (c : ClockManager) (node_id : ℕ) (abs_ts : ℤ) : Option ℕ :=
  (c.clocks node_id).map fun clock =>
    ts_add clock.monotonic_origin_ns.toNat (abs_ts - clock.absolute_origin_ns)

theorem ts_add_of_mem {ts : ℕ} {rhs : ℤ} (h₁ : 0 ≤ (ts : ℤ) + rhs) (h₂ : (ts : ℤ) + rhs ≤ U64_MAX) :
    (ts_add ts rhs : ℤ) = ts + rhs := by
  rw [ts_add, if_pos ⟨h₁, h₂⟩, Int.toNat_of_nonneg h₁]

theorem ts_add_le_max (ts : ℕ) (rhs : ℤ) : ts_add ts rhs ≤ U64_MAX := by
  unfold ts_add
  split_ifs with h h'
  · omega
  · exact Nat.zero_le _
  · exact Nat.le_refl _

/-- A greater offset gives a time at least as great. -/
theorem ts_add_mono {ts : ℕ} (hts : ts ≤ U64_MAX) {rhs rhs' : ℤ} (h : rhs ≤ rhs') :
    ts_add ts rhs ≤ ts_add ts rhs' := by
  have hmax := ts_add_le_max ts rhs'
  unfold ts_add at hmax ⊢
  split_ifs at hmax ⊢ <;> omega

section Registered

variable {c : ClockManager} {node_id : ℕ} {clock : ClockDescriptor} (hc : c.clocks node_id = some clock)
include hc

theorem get_rel_of_registered (abs_ts : ℤ) :
    c.get_rel_if_registered node_id abs_ts =
      some (ts_add clock.monotonic_origin_ns.toNat (abs_ts - clock.absolute_origin_ns)) := by
  rw [ClockManager.get_rel_if_registered, hc, Option.map_some]

/-- Where the offset is an `i64` and the sum does not wrap, the conversion does not
    panic and is `get_abs_if_registered`. -/
theorem get_abs_checked_eq {rel_ts : ℕ}
    (h₁ : I64_MIN ≤ (rel_ts : ℤ) - clock.monotonic_origin_ns.toNat)
    (h₂ : (rel_ts : ℤ) - clock.monotonic_origin_ns.toNat ≤ I64_MAX)
    (h₃ : I64_MIN ≤ clock.absolute_origin_ns + ((rel_ts : ℤ) - clock.monotonic_origin_ns.toNat))
    (h₄ : clock.absolute_origin_ns + ((rel_ts : ℤ) - clock.monotonic_origin_ns.toNat) ≤ I64_MAX) :
    c.get_abs_checked node_id rel_ts = .ok (c.get_abs_if_registered node_id rel_ts) := by
  simp only [ClockManager.get_abs_checked, ClockManager.get_abs_if_registered, hc, Option.map_some]
  rw [if_pos ⟨h₁, h₂⟩, i64_wrap_of_mem h₃ h₄]

theorem get_abs_checked_panics {rel_ts : ℕ}
    (h : ¬ (I64_MIN ≤ (rel_ts : ℤ) - clock.monotonic_origin_ns.toNat ∧
      (rel_ts : ℤ) - clock.monotonic_origin_ns.toNat ≤ I64_MAX)) :
    c.get_abs_checked node_id rel_ts = .error .abs_under_overflow := by
  simp only [ClockManager.get_abs_checked, hc]
  rw [if_neg h]

/-- **Monotone.**  A later absolute time is a later time of the node's clock. -/
theorem get_rel_mono {abs_ts abs_ts' : ℤ} (h : abs_ts ≤ abs_ts') {t t' : ℕ}
    (ht : c.get_rel_if_registered node_id abs_ts = some t)
    (ht' : c.get_rel_if_registered node_id abs_ts' = some t') : t ≤ t' := by
  simp only [ClockManager.get_rel_if_registered, hc, Option.map_some, Option.some.injEq] at ht ht'
  rw [← ht, ← ht']
  have hts : clock.monotonic_origin_ns.toNat ≤ U64_MAX := by
    have := clock.monotonic_origin_ns.toNat_lt
    unfold U64_MAX
    omega
  exact ts_add_mono hts (by omega)

/-- **Round trip.**  The absolute time of a time of the node's clock converts back to it. -/
theorem get_rel_get_abs {rel_ts : ℕ} (h : rel_ts ≤ U64_MAX) :
    (c.get_abs_if_registered node_id rel_ts).bind (c.get_rel_if_registered node_id) =
      some rel_ts := by
  simp only [ClockManager.get_abs_if_registered, ClockManager.get_rel_if_registered, hc,
    Option.map_some, Option.bind_some, Option.some.injEq]
  -- the offset from the origin comes back to the time itself
  have h' : (ts_add clock.monotonic_origin_ns.toNat
      (clock.absolute_origin_ns + ((rel_ts : ℤ) - clock.monotonic_origin_ns.toNat) -
        clock.absolute_origin_ns) : ℤ) = rel_ts :=
    (ts_add_of_mem (by omega) (by omega)).trans (by omega)
  omega

/-- **The conversions are inverse and monotone.**  An absolute time whose offset from
    the absolute origin is an `i64` and lands, from the monotonic origin, inside the
    `u64` range converts to a time of the node's clock that converts back to it without
    a panic; and a later absolute time converts to a time at least as late, the
    conversion saturating at `0` and `u64::MAX`. -/
theorem clock_conversions_inverse_mono :
    (∀ a : ℤ, I64_MIN ≤ a → a ≤ I64_MAX →
      I64_MIN ≤ a - clock.absolute_origin_ns → a - clock.absolute_origin_ns ≤ I64_MAX →
      0 ≤ (clock.monotonic_origin_ns.toNat : ℤ) + (a - clock.absolute_origin_ns) →
      (clock.monotonic_origin_ns.toNat : ℤ) + (a - clock.absolute_origin_ns) ≤ U64_MAX →
      ∃ t, c.get_rel_if_registered node_id a = some t ∧
        c.get_abs_checked node_id t = .ok (some a)) ∧
    ∀ a a' : ℤ, a ≤ a' → ∃ t t', c.get_rel_if_registered node_id a = some t ∧
      c.get_rel_if_registered node_id a' = some t' ∧ t ≤ t' := by
  constructor
  · intro a ha₁ ha₂ hd₁ hd₂ hm₁ hm₂
    refine ⟨_, get_rel_of_registered hc a, ?_⟩
    -- the time of the node's clock is the origin plus the offset: no saturation
    have ht : (ts_add clock.monotonic_origin_ns.toNat (a - clock.absolute_origin_ns) : ℤ) =
        clock.monotonic_origin_ns.toNat + (a - clock.absolute_origin_ns) :=
      ts_add_of_mem hm₁ hm₂
    rw [get_abs_checked_eq hc (by omega) (by omega) (by omega) (by omega),
      ClockManager.get_abs_if_registered, hc, Option.map_some]
    congr 2
    omega
  · intro a a' haa'
    exact ⟨_, _, get_rel_of_registered hc a, get_rel_of_registered hc a',
      get_rel_mono hc haa' (get_rel_of_registered hc a) (get_rel_of_registered hc a')⟩

end Registered

/-- A node registered at absolute time 5 and monotonic time 10. -/
theorem clock_conversions_inverse_mono_registered :
    (ClockManager.register_clock ⟨fun _ => none, 1⟩ 1 5 10).clocks 1 = some ⟨5, 10⟩ ∧
      ((∀ a : ℤ, I64_MIN ≤ a → a ≤ I64_MAX → I64_MIN ≤ a - 5 → a - 5 ≤ I64_MAX →
        0 ≤ ((10 : UInt64).toNat : ℤ) + (a - 5) → ((10 : UInt64).toNat : ℤ) + (a - 5) ≤ U64_MAX →
        ∃ t, (ClockManager.register_clock ⟨fun _ => none, 1⟩ 1 5 10).get_rel_if_registered 1 a =
            some t ∧
          (ClockManager.register_clock ⟨fun _ => none, 1⟩ 1 5 10).get_abs_checked 1 t =
            .ok (some a)) ∧
      ∀ a a' : ℤ, a ≤ a' → ∃ t t',
        (ClockManager.register_clock ⟨fun _ => none, 1⟩ 1 5 10).get_rel_if_registered 1 a =
          some t ∧
        (ClockManager.register_clock ⟨fun _ => none, 1⟩ 1 5 10).get_rel_if_registered 1 a' =
          some t' ∧ t ≤ t') :=
  have hc : (ClockManager.register_clock ⟨fun _ => none, 1⟩ 1 5 10).clocks 1 = some ⟨5, 10⟩ := by
    simp [ClockManager.register_clock]
  ⟨hc, clock_conversions_inverse_mono hc⟩

end Abstraktor.Mediator
