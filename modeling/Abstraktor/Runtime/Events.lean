/-
  The event buffer of the instrumented runtime (src/llvm/src/afl-llvm-rt.o.c).

  The buffer `evtVec` is an array of `EVT_SIZE` slots of `struct Event`, a union of
  152 bytes under `#pragma pack(8)`.  Slot 0 holds the counter, a `u16`; an
  instrumented event takes the next slot by an atomic increment of the counter
  and writes its type, time, id and two names into it.  Threads run the two
  parts of a trigger interleaved, so a slot can be taken and still hold zeros.

  * `take_slot`, `record_event`: the two parts; `trigger_event` runs them for
    `trigger_block_event`, `trigger_func_event` and `trigger_const_event`;
  * `event_memory c slots`: the layout of a buffer with the counter `c` and the
    event `slots k`, or zeros, in slot `k`;
  * `EventSlots.step`: the threads' steps on the slots; `runtime_run_event_memory`:
    the memory after any run of steps from a fresh buffer is the layout of the
    slots (the code refines the layout).
-/
import Mathlib
import Abstraktor.Lib.Bytes

namespace Abstraktor.Runtime

open Bytes

def BLOCK_EVENT_TYPE : UInt64 := 1
def FUNC_EVENT_TYPE : UInt64 := 2
def CONST_EVENT_TYPE : UInt64 := 5

/-- `EVT_SIZE`, the number of slots (`1 << EVT_SIZE_POW`). -/
def EVT_SIZE : ℕ := 2 ^ 16

/-- `sizeof(struct Event)`: the size of its largest member, the three `u64` and two
    `char[64]` of an execution event. -/
def event_size : ℕ := 152

/-! ## The triggers -/

/-- The slot of the next event: the counter, a `u16` at the start of slot 0, plus one. -/
def next_slot (mem : ℕ → UInt8) : ℕ := (le_value mem 0 2 + 1) % 2 ^ 16

/-- `__atomic_add_fetch(&evtVec_ptr[0].evtCounter, 1, ...)`. -/
def take_slot (mem : ℕ → UInt8) : ℕ → UInt8 := write_le mem 0 2 (next_slot mem)

/-- An execution event as a trigger records it. -/
structure ExecEvent where
  type : UInt64
  timestamp : UInt64
  id : UInt64
  name : List UInt8
  state : List UInt8
deriving DecidableEq, Repr

/-- The fields an instrumented event writes into slot `loc`: the type, the time and the
    id at offsets 0, 8 and 16, and the two names, each by `strcpy`, at 24 and 88. -/
def record_event (mem : ℕ → UInt8) (loc : ℕ) (e : ExecEvent) : ℕ → UInt8 :=
  let base := event_size * loc
  let mem := write_le mem base 8 e.type.toNat
  let mem := write_le mem (base + 8) 8 e.timestamp.toNat
  let mem := write_le mem (base + 16) 8 e.id.toNat
  let mem := write_cstr mem (base + 24) e.name
  write_cstr mem (base + 88) e.state

/-- The body shared by the three triggers: take a slot, then record the event. -/
def trigger_event (type : UInt64) (mem : ℕ → UInt8) (evtID : UInt16) (time : UInt64)
    (name state : List UInt8) : ℕ → UInt8 :=
  record_event (take_slot mem) (next_slot mem) ⟨type, time, evtID.toUInt64, name, state⟩

/-- `trigger_block_event`, with the time and the state name it computes. -/
def trigger_block_event : (ℕ → UInt8) → UInt16 → UInt64 → List UInt8 → List UInt8 → ℕ → UInt8 :=
  trigger_event BLOCK_EVENT_TYPE

/-- `trigger_func_event`, with the time and the state name it computes. -/
def trigger_func_event : (ℕ → UInt8) → UInt16 → UInt64 → List UInt8 → List UInt8 → ℕ → UInt8 :=
  trigger_event FUNC_EVENT_TYPE

/-- `trigger_const_event`, with the time. -/
def trigger_const_event : (ℕ → UInt8) → UInt16 → UInt64 → List UInt8 → List UInt8 → ℕ → UInt8 :=
  trigger_event CONST_EVENT_TYPE

/-! ## The state of a block event

`trigger_block_event` names the state of the server from the values its parameters
point at, which it reads by their types: the server state, a `u16`, first; with two
parameters a candidate's quorum flag; with seven a leader's term, commit index, last
log index, quorum flag, quorum index and the term at that index.  A value is the
number read, a `bool` is true when it is not zero. -/

/-- The state of a leader from the values of its seven parameters; the quorum index
    itself does not enter. -/
def leader_block_state (current_term commit_index last_log_index : ℕ) (existIndex : Bool)
    (log_term_max_index_quorum : ℕ) : String :=
  let matching_quorum := existIndex && log_term_max_index_quorum == current_term
  let commit_at_end := commit_index == last_log_index
  if !matching_quorum && commit_at_end then "LeaderNotMatchingQuorumLogUpdated"
  else if matching_quorum && commit_at_end then "LeaderMatchingQuorumLogUpdated"
  else if !matching_quorum && !commit_at_end then "LeaderNotMatchingQuorumNotLogUpdated"
  else if matching_quorum && !commit_at_end then "LeaderMatchingQuorumNotLogUpdated"
  else "Leader"

/-- The state name that `trigger_block_event` records for `size` parameters. -/
def block_event_state (parameters : List ℕ) (size : ℕ) : String :=
  let state := parameters.getD 0 0
  if state = 0 then "Unavailable"
  else if state = 1 then "Follower"
  else if state = 2 then
    if size = 2 then
      if parameters.getD 1 0 ≠ 0 then "CandidateVotesInQuorum" else "CandidateNotVotesInQuorum"
    else "Candidate"
  else if state = 3 then
    if size = 7 then
      leader_block_state (parameters.getD 1 0) (parameters.getD 2 0) (parameters.getD 3 0)
        (parameters.getD 4 0 != 0) (parameters.getD 6 0)
    else "Leader"
  else "Unknown"

/-- A leader is in one of the two matching-quorum states exactly when its quorum flag
    is set and the term at the quorum index is its current term. -/
theorem leader_block_state_matching (current_term commit_index last_log_index : ℕ)
    (existIndex : Bool) (log_term_max_index_quorum : ℕ) :
    (leader_block_state current_term commit_index last_log_index existIndex
          log_term_max_index_quorum = "LeaderMatchingQuorumLogUpdated" ∨
        leader_block_state current_term commit_index last_log_index existIndex
          log_term_max_index_quorum = "LeaderMatchingQuorumNotLogUpdated") ↔
      existIndex = true ∧ log_term_max_index_quorum = current_term := by
  unfold leader_block_state
  -- the four names are told apart by the two flags
  cases existIndex <;> by_cases ht : log_term_max_index_quorum = current_term <;>
    by_cases hc : commit_index = last_log_index <;> simp [ht, hc]

/-! ## The layout of the buffer -/

/-- Byte `o` of a slot holding `e`, written over zeros. -/
def ExecEvent.byte (e : ExecEvent) (o : ℕ) : UInt8 :=
  if o < 8 then le_byte e.type.toNat o
  else if o < 16 then le_byte e.timestamp.toNat (o - 8)
  else if o < 24 then le_byte e.id.toNat (o - 16)
  else if o < 88 then e.name.getD (o - 24) 0
  else e.state.getD (o - 88) 0

theorem ExecEvent.byte_type (e : ExecEvent) {j : ℕ} (hj : j < 8) :
    e.byte j = le_byte e.type.toNat j := by
  rw [ExecEvent.byte, if_pos hj]

theorem ExecEvent.byte_timestamp (e : ExecEvent) {j : ℕ} (hj : j < 8) :
    e.byte (8 + j) = le_byte e.timestamp.toNat j := by
  rw [ExecEvent.byte, if_neg (by omega), if_pos (by omega), Nat.add_sub_cancel_left]

theorem ExecEvent.byte_id (e : ExecEvent) {j : ℕ} (hj : j < 8) :
    e.byte (16 + j) = le_byte e.id.toNat j := by
  rw [ExecEvent.byte, if_neg (by omega), if_neg (by omega), if_pos (by omega),
    Nat.add_sub_cancel_left]

theorem ExecEvent.byte_name (e : ExecEvent) {j : ℕ} (hj : j < 64) :
    e.byte (24 + j) = e.name.getD j 0 := by
  rw [ExecEvent.byte, if_neg (by omega), if_neg (by omega), if_neg (by omega), if_pos (by omega),
    Nat.add_sub_cancel_left]

theorem ExecEvent.byte_state (e : ExecEvent) (j : ℕ) : e.byte (88 + j) = e.state.getD j 0 := by
  rw [ExecEvent.byte, if_neg (by omega), if_neg (by omega), if_neg (by omega), if_neg (by omega),
    Nat.add_sub_cancel_left]

/-- The names of `e` fit their `char[64]` with the terminating zero, and hold no zero. -/
def ExecEvent.Fits (e : ExecEvent) : Prop :=
  e.name.length < 64 ∧ 0 ∉ e.name ∧ e.state.length < 64 ∧ 0 ∉ e.state

instance (e : ExecEvent) : Decidable e.Fits := by
  unfold ExecEvent.Fits
  infer_instance

/-- The buffer with the counter `c` in slot 0 and, in slot `k`, the event `slots k` or
    zeros. -/
def event_memory (c : ℕ) (slots : ℕ → Option ExecEvent) (i : ℕ) : UInt8 :=
  if i < event_size then (if i < 2 then le_byte c i else 0)
  else match slots (i / event_size) with
    | some e => e.byte (i % event_size)
    | none => 0

theorem event_memory_slot {c : ℕ} {slots : ℕ → Option ExecEvent} {k o : ℕ} (hk : 0 < k)
    (ho : o < event_size) :
    event_memory c slots (event_size * k + o) = match slots k with
      | some e => e.byte o
      | none => 0 := by
  have hdiv : (event_size * k + o) / event_size = k := by
    rw [Nat.mul_add_div (by decide), Nat.div_eq_of_lt ho, Nat.add_zero]
  have hmod : (event_size * k + o) % event_size = o := by
    rw [Nat.mul_add_mod, Nat.mod_eq_of_lt ho]
  have hge : ¬ event_size * k + o < event_size := by
    have : event_size ≤ event_size * k := Nat.le_mul_of_pos_right _ hk
    omega
  rw [event_memory, if_neg hge, hdiv, hmod]

/-- The counter, read back from slot 0. -/
theorem le_value_event_memory {c : ℕ} (slots : ℕ → Option ExecEvent) (hc : c < 2 ^ 16) :
    le_value (event_memory c slots) 0 2 = c := by
  have h : le_value (event_memory c slots) 0 2 = c % 256 ^ 2 := le_value_of_eq fun j hj => by
    rw [event_memory, if_pos (by unfold event_size; omega), if_pos (by omega), Nat.zero_add]
  rw [h, Nat.mod_eq_of_lt (by simpa using hc)]

/-! ## The steps of the threads -/

/-- The buffer seen as slots: the counter and the event recorded in each slot. -/
structure EventSlots where
  counter : ℕ
  slots : ℕ → Option ExecEvent

/-- A step of a thread of the runtime: take the next slot, or record an event in the
    slot it took. -/
inductive RuntimeStep
  | take
  | record (loc : ℕ) (e : ExecEvent)

/-- The step on the memory, as the code runs it. -/
def runtime_step (mem : ℕ → UInt8) : RuntimeStep → ℕ → UInt8
  | .take => take_slot mem
  | .record loc e => record_event mem loc e

/-- The steps on the memory, in order. -/
def runtime_run (mem : ℕ → UInt8) (steps : List RuntimeStep) : ℕ → UInt8 :=
  steps.foldl runtime_step mem

/-- The step on the slots: a slot is taken while the counter does not wrap, and an
    event that fits is recorded once, in a slot that was taken. -/
def EventSlots.step (s : EventSlots) : RuntimeStep → Option EventSlots
  | .take => if s.counter + 1 < EVT_SIZE then some ⟨s.counter + 1, s.slots⟩ else none
  | .record loc e =>
    if 0 < loc ∧ loc ≤ s.counter ∧ s.slots loc = none ∧ e.Fits then
      some ⟨s.counter, Function.update s.slots loc (some e)⟩
    else none

/-- The steps on the slots, in order, as long as each is allowed. -/
def EventSlots.run (s : EventSlots) : List RuntimeStep → Option EventSlots
  | [] => some s
  | st :: steps => (s.step st).bind fun s' => s'.run steps

/-- The slots are those of a buffer: the counter does not wrap, no event is recorded in
    slot 0 or past the counter, and every recorded event fits. -/
structure EventSlots.WF (s : EventSlots) : Prop where
  counter_lt : s.counter < EVT_SIZE
  slot_zero : s.slots 0 = none
  past_counter : ∀ k, s.counter < k → s.slots k = none
  fits : ∀ k e, s.slots k = some e → e.Fits

/-- A fresh buffer: no slot taken. -/
def EventSlots.init : EventSlots := ⟨0, fun _ => none⟩

theorem EventSlots.init_wf : EventSlots.init.WF :=
  ⟨by decide, rfl, fun _ _ => rfl, fun _ _ h => by cases h⟩

theorem event_memory_init : event_memory 0 (fun _ => none) = fun _ => 0 := by
  funext i
  unfold event_memory
  split_ifs with h₁ h₂
  · rw [le_byte_of_lt (Nat.pow_pos (by decide))]
  · rfl
  · rfl

/-- A trigger is a take of the next slot and a record of its event in that slot. -/
theorem trigger_event_eq_run (type : UInt64) (mem : ℕ → UInt8) (evtID : UInt16) (time : UInt64)
    (name state : List UInt8) :
    trigger_event type mem evtID time name state =
      runtime_run mem [.take, .record (next_slot mem) ⟨type, time, evtID.toUInt64, name, state⟩] :=
  rfl

/-! ## The code refines the layout -/

section Refinement

variable {c : ℕ} {slots : ℕ → Option ExecEvent}

theorem take_slot_event_memory (hc : c + 1 < EVT_SIZE) :
    take_slot (event_memory c slots) = event_memory (c + 1) slots := by
  have hnext : next_slot (event_memory c slots) = c + 1 := by
    rw [next_slot, le_value_event_memory slots (by unfold EVT_SIZE at hc; omega),
      Nat.mod_eq_of_lt (by unfold EVT_SIZE at hc; omega)]
  funext i
  rw [take_slot, hnext]
  by_cases hi : i < 2
  · rw [write_le_of_mem (Nat.zero_le i) (by omega), Nat.sub_zero, event_memory,
      if_pos (by unfold event_size; omega), if_pos hi]
  · rw [write_le_of_not_mem (by omega)]
    unfold event_memory
    simp only [hi, if_false]

/-- The bytes of slot `loc` after a record: those of the event, except in the gaps after
    each name, which keep what they held. -/
theorem record_event_at (mem : ℕ → UInt8) (loc : ℕ) {e : ExecEvent} (hfit : e.Fits) {o : ℕ}
    (ho : o < event_size) :
    record_event mem loc e (event_size * loc + o) =
      if (24 + e.name.length < o ∧ o < 88) ∨ 88 + e.state.length < o then
        mem (event_size * loc + o)
      else e.byte o := by
  obtain ⟨hn, -, hs, -⟩ := hfit
  unfold event_size at ho ⊢
  have hsub : ∀ a, 152 * loc + o - (152 * loc + a) = o - a := fun a => by omega
  simp only [record_event, write_cstr, write_le, ExecEvent.byte, event_size]
  -- one case for each field of the slot and each gap; the others contradict the bounds
  split_ifs <;> first
    | omega
    | simp only [hsub, Nat.add_sub_cancel_left]

/-- A record changes no byte outside its slot. -/
theorem record_event_of_div_ne (mem : ℕ → UInt8) {loc : ℕ} {e : ExecEvent} (hfit : e.Fits)
    {i : ℕ} (h : i / event_size ≠ loc) : record_event mem loc e i = mem i := by
  obtain ⟨hn, -, hs, -⟩ := hfit
  -- the slot is the range `[event_size * loc, event_size * loc + event_size)`
  have hout : i < event_size * loc ∨ event_size * loc + event_size ≤ i := by
    by_contra hin
    exact h (Nat.div_eq_of_lt_le (by rw [Nat.mul_comm]; omega)
      (by rw [Nat.succ_mul, Nat.mul_comm]; omega))
  unfold event_size at hout
  simp only [record_event, event_size]
  rw [write_cstr_of_not_mem (by omega), write_cstr_of_not_mem (by omega),
    write_le_of_not_mem (by omega), write_le_of_not_mem (by omega), write_le_of_not_mem (by omega)]

theorem record_event_event_memory {loc : ℕ} {e : ExecEvent} (hloc : 0 < loc)
    (hnone : slots loc = none) (hfit : e.Fits) :
    record_event (event_memory c slots) loc e =
      event_memory c (Function.update slots loc (some e)) := by
  funext i
  by_cases hi : i / event_size = loc
  · -- a byte of the slot: zero before, the event's after
    have ho : i % event_size < event_size := Nat.mod_lt _ (by decide)
    have hi' : i = event_size * loc + i % event_size := by
      rw [← hi, Nat.div_add_mod]
    rw [hi', record_event_at _ _ hfit ho, event_memory_slot hloc ho, event_memory_slot hloc ho,
      hnone, Function.update_self]
    dsimp only
    split_ifs with hgap
    · obtain ⟨hn, -, hs, -⟩ := hfit
      unfold ExecEvent.byte
      rcases hgap with hgap | hgap
      · rw [if_neg (by omega), if_neg (by omega), if_neg (by omega), if_pos hgap.2]
        exact (List.getD_eq_default _ _ (by omega)).symm
      · rw [if_neg (by omega), if_neg (by omega), if_neg (by omega), if_neg (by omega)]
        exact (List.getD_eq_default _ _ (by omega)).symm
    · rfl
  · rw [record_event_of_div_ne _ hfit hi]
    unfold event_memory
    rw [Function.update_of_ne hi]

end Refinement

/-- **Step lemma.**  A step allowed on the slots is, on the memory of their layout, the
    step of the code, and it keeps the slots those of a buffer. -/
theorem EventSlots.step_spec {s s' : EventSlots} {st : RuntimeStep} (hs : s.WF)
    (h : s.step st = some s') :
    runtime_step (event_memory s.counter s.slots) st = event_memory s'.counter s'.slots ∧ s'.WF := by
  cases st with
  | take =>
    simp only [EventSlots.step] at h
    split_ifs at h with hc
    cases h
    refine ⟨take_slot_event_memory hc, ⟨hc, hs.slot_zero, fun k hk => ?_, hs.fits⟩⟩
    exact hs.past_counter k (by simp only at hk; omega)
  | record loc e =>
    simp only [EventSlots.step] at h
    split_ifs at h with hg
    cases h
    obtain ⟨hloc, hle, hnone, hfit⟩ := hg
    refine ⟨record_event_event_memory hloc hnone hfit, ⟨hs.counter_lt, ?_, fun k hk => ?_, ?_⟩⟩
    · dsimp only
      rw [Function.update_of_ne (Nat.ne_of_lt hloc)]
      exact hs.slot_zero
    · dsimp only at hk ⊢
      rw [Function.update_of_ne (by omega)]
      exact hs.past_counter k hk
    · -- the new event fits, and so do the others
      intro k e' he'
      dsimp only at he'
      by_cases hk : k = loc
      · subst hk
        rw [Function.update_self, Option.some.injEq] at he'
        exact he' ▸ hfit
      · rw [Function.update_of_ne hk] at he'
        exact hs.fits k e' he'

/-- **Run lemma.**  Along any run allowed on the slots, the memory is the layout of the
    slots. -/
theorem EventSlots.run_spec :
    ∀ {s s' : EventSlots} {steps : List RuntimeStep}, s.WF → s.run steps = some s' →
      runtime_run (event_memory s.counter s.slots) steps = event_memory s'.counter s'.slots ∧ s'.WF
  | s, s', [], hs, h => by
    cases h
    exact ⟨rfl, hs⟩
  | s, s', st :: steps, hs, h => by
    obtain ⟨s₁, h₁, h₂⟩ := Option.bind_eq_some_iff.1 h
    obtain ⟨hmem, hs₁⟩ := EventSlots.step_spec hs h₁
    have ih := EventSlots.run_spec hs₁ h₂
    rw [runtime_run, List.foldl_cons, hmem]
    exact ih

/-- **The runtime fills a fresh buffer by the layout.**  After any run of the threads'
    steps from a fresh buffer, the memory holds the counter in slot 0 and, in each
    slot, the event recorded there or zeros. -/
theorem runtime_run_event_memory {s : EventSlots} {steps : List RuntimeStep}
    (h : EventSlots.init.run steps = some s) :
    runtime_run (fun _ => 0) steps = event_memory s.counter s.slots ∧ s.WF := by
  have hrun := EventSlots.run_spec EventSlots.init_wf h
  rwa [EventSlots.init, event_memory_init] at hrun

end Abstraktor.Runtime
