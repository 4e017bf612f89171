/-
  The summaries of the timeline and the cumulative summaries behind the rewards
  (`SummaryWrapper`, src/mallory/mediator/src/feedback/summary.rs), for a summary type
  with the calls of a `SummaryProducer`; and the `EventHistory` summary
  (producers/eventhistory.rs) as far as its cumulative summaries and its reward read it.

  The wrapper keeps a summary for each event being summarised.  The summary of a
  `CollateSummaries` event is finalised: the reward of its window is computed from the
  overall cumulative summary and its schedule's, then it is folded into its schedule's
  cumulative summary and stored by schedule and step.  The overall cumulative summary
  is kept lazily: when a later schedule shows up, the cumulative summary of the
  schedule it is marked with is folded in and the mark moves to the schedule before
  the current one.  Schedules more than two behind are dropped.

  An `EventHistory` is its vector clock's timestamps and the count of each state seen;
  a union merges the states only when some entry of the vector clock moves up.  The
  other fields of an `EventHistory` (counts, layers, the min-hashes of the states),
  the log files and the statistics are left out.

  * `finalise_and_report_reward_eq`: finalising a summary stores it, its reward
    computed first (`store_summary`);
  * `store_summary_inv` and `store_summaries_ok`: along schedules that start at 0 and
    go up one at a time, the cumulative summary that the overall one merges next is
    always there, so `maintain_overall_cumulative` never panics;
  * `union_of_not_raised`: a union whose clock raises no entry adds no state.
-/
import Mathlib
import Abstraktor.Lib.Counter
import Abstraktor.Lib.SortedMap
import Abstraktor.Mediator.Event

namespace Abstraktor.Feedback

open Abstraktor.Mediator Counter

/-- The calls that the wrapper makes on its summaries. -/
structure SummaryProducer (T : Type) where
  new : T
  update : T → LamportEvent → T
  merge : T → LamportEvent → T → LamportEvent → T
  union : T → T → T

/-- Which `assert!`, `expect` or `panic!` of the wrapper fails. -/
inductive SummaryPanic
  /-- `expect("Missing summary for dependency!")` -/
  | missing_summary
  /-- `assert!(.., "Missing summaries for ...")` of `merge_into` -/
  | missing_summaries
  /-- `expect("Marked summary as finalised, but it's not in summary_for_event!")` -/
  | not_finalised
  /-- `panic!("[SUMMARY] No cumulative summary for past schedule {}! ...")` -/
  | no_cumulative_summary
deriving DecidableEq, Repr

structure SummaryWrapper (T : Type) where
  summary_for_event : SortedMap LamportEvent T
  stored_summaries : SortedMap ℕ (SortedMap ℕ T)
  per_schedule_cumulative : SortedMap ℕ T
  overall_cumulative : ℕ × T

namespace SummaryWrapper

variable {T R : Type} (P : SummaryProducer T)

def new : SummaryWrapper T := ⟨.empty, .empty, .empty, (0, P.new)⟩

/-! ## The summaries of the events -/

/-- `initialize`: a new summary for `ev`. -/
def init_summary (w : SummaryWrapper T) (ev : LamportEvent) : SummaryWrapper T :=
  { w with summary_for_event := w.summary_for_event.insert ev P.new }

/-- Copy `pred_ev`'s summary into `this_ev`. -/
def copy (w : SummaryWrapper T) (pred_ev this_ev : LamportEvent) :
    Except SummaryPanic (SummaryWrapper T) :=
  match w.summary_for_event.get? pred_ev with
  | some this_summary =>
    .ok { w with summary_for_event := w.summary_for_event.insert this_ev this_summary }
  | none => .error .missing_summary

/-- Move `pred_ev`'s summary into `this_ev`. -/
def take_ownership (w : SummaryWrapper T) (pred_ev this_ev : LamportEvent) :
    Except SummaryPanic (SummaryWrapper T) :=
  match w.summary_for_event.get? pred_ev with
  | some this_summary =>
    .ok { w with
      summary_for_event := (w.summary_for_event.erase pred_ev).insert this_ev this_summary }
  | none => .error .missing_summary

def update (w : SummaryWrapper T) (this_ev : LamportEvent) :
    Except SummaryPanic (SummaryWrapper T) :=
  match w.summary_for_event.get? this_ev with
  | some this_summary =>
    .ok { w with
      summary_for_event := w.summary_for_event.insert this_ev (P.update this_summary this_ev) }
  | none => .error .missing_summary

/-- Merge `pred_ev`'s summary into `this_ev`'s; `get_many_mut` finds no two summaries
    for one event. -/
def merge_into (w : SummaryWrapper T) (pred_ev this_ev : LamportEvent) :
    Except SummaryPanic (SummaryWrapper T) :=
  match w.summary_for_event.get? pred_ev, w.summary_for_event.get? this_ev with
  | some dep_summary, some this_summary =>
    if pred_ev = this_ev then .error .missing_summaries
    else .ok { w with
      summary_for_event := w.summary_for_event.insert this_ev
        (P.merge this_summary this_ev dep_summary pred_ev) }
  | _, _ => .error .missing_summaries

def contains_summary_of (w : SummaryWrapper T) (ev : LamportEvent) : Bool :=
  (w.summary_for_event.get? ev).isSome

def remove_summary (w : SummaryWrapper T) (ev : LamportEvent) : SummaryWrapper T :=
  { w with summary_for_event := w.summary_for_event.erase ev }

/-! ### Which events have a summary -/

section Contains

variable {w w' : SummaryWrapper T} {ev pred_ev this_ev : LamportEvent}

theorem contains_init_summary :
    (w.init_summary P this_ev).contains_summary_of ev ↔ ev = this_ev ∨ w.contains_summary_of ev := by
  by_cases h : ev = this_ev <;> simp [init_summary, contains_summary_of, h]

theorem contains_remove_summary :
    (w.remove_summary pred_ev).contains_summary_of ev ↔ ev ≠ pred_ev ∧ w.contains_summary_of ev := by
  by_cases h : ev = pred_ev <;> simp [remove_summary, contains_summary_of, h]

theorem copy_eq_ok (h : w.contains_summary_of pred_ev) :
    ∃ w', w.copy pred_ev this_ev = .ok w' ∧
      ∀ ev, w'.contains_summary_of ev ↔ ev = this_ev ∨ w.contains_summary_of ev := by
  obtain ⟨summary, hs⟩ := Option.isSome_iff_exists.1 h
  refine ⟨_, by rw [copy, hs], fun ev => ?_⟩
  by_cases h' : ev = this_ev <;> simp [contains_summary_of, h']

theorem take_ownership_eq_ok (h : w.contains_summary_of pred_ev) :
    ∃ w', w.take_ownership pred_ev this_ev = .ok w' ∧
      ∀ ev, w'.contains_summary_of ev ↔ ev = this_ev ∨ (ev ≠ pred_ev ∧ w.contains_summary_of ev) := by
  obtain ⟨summary, hs⟩ := Option.isSome_iff_exists.1 h
  refine ⟨_, by rw [take_ownership, hs], fun ev => ?_⟩
  by_cases h' : ev = this_ev <;> by_cases h'' : ev = pred_ev <;> simp [contains_summary_of, h', h'']

theorem merge_into_eq_ok (h₁ : w.contains_summary_of pred_ev) (h₂ : w.contains_summary_of this_ev)
    (hne : pred_ev ≠ this_ev) :
    ∃ w', w.merge_into P pred_ev this_ev = .ok w' ∧
      ∀ ev, w'.contains_summary_of ev ↔ w.contains_summary_of ev := by
  obtain ⟨dep_summary, hd⟩ := Option.isSome_iff_exists.1 h₁
  obtain ⟨this_summary, ht⟩ := Option.isSome_iff_exists.1 h₂
  refine ⟨_, by rw [merge_into, hd, ht]; dsimp only; rw [if_neg hne], fun ev => ?_⟩
  by_cases h' : ev = this_ev
  · subst h'; simp [contains_summary_of, ht]
  · simp [contains_summary_of, h']

theorem update_eq_ok (h : w.contains_summary_of this_ev) :
    ∃ w', w.update P this_ev = .ok w' ∧
      ∀ ev, w'.contains_summary_of ev ↔ w.contains_summary_of ev := by
  obtain ⟨summary, hs⟩ := Option.isSome_iff_exists.1 h
  refine ⟨_, by rw [update, hs], fun ev => ?_⟩
  by_cases h' : ev = this_ev
  · subst h'; simp [contains_summary_of, hs]
  · simp [contains_summary_of, h']

end Contains

/-! ## The cumulative summaries -/

/-- Fold the cumulative summary of the marked schedule into the overall one, when a later
    schedule shows up, and mark the one before it. -/
def maintain_overall_cumulative (w : SummaryWrapper T) (current_schedule_id : ℕ) :
    Except SummaryPanic (SummaryWrapper T) :=
  let last_schedule_id := w.overall_cumulative.1
  if last_schedule_id < current_schedule_id then
    match w.per_schedule_cumulative.get? last_schedule_id with
    | some last_summary =>
      .ok { w with
        overall_cumulative := (current_schedule_id - 1, P.union w.overall_cumulative.2 last_summary) }
    | none => .error .no_cumulative_summary
  else .ok w

/-- Drop the schedules more than two behind (`checked_sub(..).unwrap_or(0)`). -/
def cleanup_schedules_older_than (w : SummaryWrapper T) (schedule_id : ℕ) : SummaryWrapper T :=
  let two_behind := schedule_id - 2
  { w with
    stored_summaries := w.stored_summaries.filterKeys fun sid => decide (two_behind ≤ sid)
    per_schedule_cumulative :=
      w.per_schedule_cumulative.filterKeys fun sid => decide (two_behind ≤ sid) }

/-- The stored part of `finalise_and_report_reward`, once the task and the summary are
    found: the reward, from the overall and the schedule's cumulative summary, and then
    the summary folded in and stored. -/
def store_summary (reward_function : SummaryTask → T → T → T → R) (w : SummaryWrapper T)
    (task : SummaryTask) (summary : T) : Except SummaryPanic (SummaryWrapper T × R) :=
  let schedule_id := task.schedule_id
  let schedule_cumulative := (w.per_schedule_cumulative.get? schedule_id).getD P.new
  let reward := reward_function task w.overall_cumulative.2 schedule_cumulative summary
  let w := { w with
    per_schedule_cumulative :=
      w.per_schedule_cumulative.insert schedule_id (P.union schedule_cumulative summary)
    stored_summaries := w.stored_summaries.insert schedule_id
      (((w.stored_summaries.get? schedule_id).getD .empty).insert task.step_id summary) }
  (fun w => (cleanup_schedules_older_than w schedule_id, reward)) <$>
    maintain_overall_cumulative P w schedule_id

/-- `finalise_and_report_reward` with a nemesis to report to: the reward of a
    `CollateSummaries` event, whose summary it stores, and none for another event. -/
def finalise_and_report_reward (reward_function : SummaryTask → T → T → T → R)
    (w : SummaryWrapper T) (our_event : LamportEvent) :
    Except SummaryPanic (SummaryWrapper T × Option R) :=
  match our_event.should_store_summary with
  | none => .ok (w, none)
  | some task =>
    match w.summary_for_event.get? our_event with
    | none => .error .not_finalised
    | some summary =>
      (fun r => (r.1, some r.2)) <$> store_summary P reward_function w task summary

theorem finalise_and_report_reward_eq (reward_function : SummaryTask → T → T → T → R)
    {w : SummaryWrapper T} {our_event : LamportEvent} {task : SummaryTask} {summary : T}
    (htask : our_event.should_store_summary = some task)
    (hsummary : w.summary_for_event.get? our_event = some summary) :
    w.finalise_and_report_reward P reward_function our_event =
      (fun r => (r.1, some r.2)) <$> store_summary P reward_function w task summary := by
  rw [finalise_and_report_reward, htask]
  simp only [hsummary]

/-- Maintaining the overall cumulative summary leaves the summaries of the events, or
    panics for want of the cumulative summary of the marked schedule. -/
theorem maintain_overall_cumulative_ok_or (w : SummaryWrapper T) (c : ℕ) :
    (∃ w', maintain_overall_cumulative P w c = .ok w' ∧
      w'.summary_for_event = w.summary_for_event) ∨
    maintain_overall_cumulative P w c = .error .no_cumulative_summary := by
  unfold maintain_overall_cumulative
  dsimp only
  split_ifs
  · cases w.per_schedule_cumulative.get? w.overall_cumulative.1 with
    | none => exact .inr rfl
    | some last_summary => exact .inl ⟨_, rfl, rfl⟩
  · exact .inl ⟨w, rfl, rfl⟩

/-- Finalising the summary of an event leaves the summaries of the events, or panics
    for want of a cumulative summary: the summary is there. -/
theorem finalise_and_report_reward_ok_or (reward_function : SummaryTask → T → T → T → R)
    {w : SummaryWrapper T} {our_event : LamportEvent} (h : w.contains_summary_of our_event) :
    (∃ w' r, w.finalise_and_report_reward P reward_function our_event = .ok (w', r) ∧
      w'.summary_for_event = w.summary_for_event) ∨
    w.finalise_and_report_reward P reward_function our_event = .error (.no_cumulative_summary) := by
  cases htask : our_event.should_store_summary with
  | none => exact .inl ⟨w, none, by rw [finalise_and_report_reward, htask], rfl⟩
  | some task =>
    obtain ⟨summary, hs⟩ := Option.isSome_iff_exists.1 h
    rw [finalise_and_report_reward_eq P reward_function htask hs, store_summary]
    -- the stored summary goes to the cumulative ones, not to the summaries of the events
    rcases maintain_overall_cumulative_ok_or P
      { w with
        per_schedule_cumulative := w.per_schedule_cumulative.insert task.schedule_id
          (P.union ((w.per_schedule_cumulative.get? task.schedule_id).getD P.new) summary)
        stored_summaries := w.stored_summaries.insert task.schedule_id
          (((w.stored_summaries.get? task.schedule_id).getD .empty).insert task.step_id summary) }
      task.schedule_id with ⟨w', hw', hfor⟩ | herr
    · exact .inl ⟨w'.cleanup_schedules_older_than task.schedule_id, _, by rw [hw']; rfl, hfor⟩
    · exact .inr (by rw [herr]; rfl)

/-! ## The overall cumulative summary never misses its schedule -/

/-- The schedule that may follow the last one finalised: 0 first, then the same or the
    next. -/
def next_schedule_ok : Option ℕ → ℕ → Prop
  | none, c => c = 0
  | some c, c' => c' = c ∨ c' = c + 1

/-- The schedules of a sequence of finalisations start at 0 and go up one at a time. -/
def consecutive_schedules : Option ℕ → List ℕ → Prop
  | _, [] => True
  | last, c :: cs => next_schedule_ok last c ∧ consecutive_schedules (some c) cs

/-- After finalising schedules up to `c`: the mark is `c - 1` or `c`, and the cumulative
    summaries from two schedules behind `c` on are there. -/
def CumulativeInv (w : SummaryWrapper T) : Option ℕ → Prop
  | none => w.overall_cumulative.1 = 0
  | some c => c - 1 ≤ w.overall_cumulative.1 ∧ w.overall_cumulative.1 ≤ c ∧
      ∀ s, c - 2 ≤ s → s ≤ c → (w.per_schedule_cumulative.get? s).isSome

theorem new_cumulativeInv : CumulativeInv (new P) none := rfl

/-- Where the marked schedule's cumulative summary is there when a later schedule shows
    up, the overall summary is maintained without a panic and marked with the greater of
    its mark and the schedule before the current one. -/
theorem maintain_overall_cumulative_ok {w : SummaryWrapper T} {c : ℕ}
    (h : w.overall_cumulative.1 < c → (w.per_schedule_cumulative.get? w.overall_cumulative.1).isSome) :
    ∃ w', maintain_overall_cumulative P w c = .ok w' ∧
      w'.per_schedule_cumulative = w.per_schedule_cumulative ∧
      w'.overall_cumulative.1 = max w.overall_cumulative.1 (c - 1) := by
  unfold maintain_overall_cumulative
  by_cases hlt : w.overall_cumulative.1 < c
  · obtain ⟨last_summary, hlast⟩ := Option.isSome_iff_exists.1 (h hlt)
    simp only [if_pos hlt, hlast]
    exact ⟨_, rfl, rfl, by simp only; omega⟩
  · simp only [if_neg hlt]
    exact ⟨w, rfl, rfl, by omega⟩

/-- **Step lemma.**  Storing a summary of a schedule that may come next does not panic,
    and keeps the invariant. -/
theorem store_summary_inv (reward_function : SummaryTask → T → T → T → R)
    {w : SummaryWrapper T} {last : Option ℕ} (hw : CumulativeInv w last) {task : SummaryTask}
    (hnext : next_schedule_ok last task.schedule_id) (summary : T) :
    ∃ w' r, store_summary P reward_function w task summary = .ok (w', r) ∧
      CumulativeInv w' (some task.schedule_id) := by
  -- the mark is at most the last schedule, and its cumulative summary is there
  have hmark : task.schedule_id - 2 ≤ w.overall_cumulative.1 ∧
      w.overall_cumulative.1 ≤ task.schedule_id ∧
      ∀ s, task.schedule_id - 2 ≤ s → s < task.schedule_id →
        (w.per_schedule_cumulative.get? s).isSome := by
    cases last with
    | none =>
      have hc0 : task.schedule_id = 0 := hnext
      simp only [CumulativeInv] at hw
      exact ⟨by omega, by omega, fun s _ hs => by omega⟩
    | some l =>
      obtain ⟨hlo, hhi, hsome⟩ := hw
      have hl : task.schedule_id = l ∨ task.schedule_id = l + 1 := hnext
      exact ⟨by omega, by omega, fun s hs₁ hs₂ => hsome s (by omega) (by omega)⟩
  obtain ⟨w₁, hw₁, hpsc₁, hmark₁⟩ := maintain_overall_cumulative_ok P
    (w := { w with
      per_schedule_cumulative := w.per_schedule_cumulative.insert task.schedule_id
        (P.union ((w.per_schedule_cumulative.get? task.schedule_id).getD P.new) summary)
      stored_summaries := w.stored_summaries.insert task.schedule_id
        (((w.stored_summaries.get? task.schedule_id).getD .empty).insert task.step_id summary) })
    (c := task.schedule_id) (by
      intro hlt
      dsimp only at hlt ⊢
      simp only [SortedMap.get?_insert]
      split_ifs
      · rfl
      · exact hmark.2.2 _ hmark.1 hlt)
  refine ⟨_, _, by rw [store_summary, hw₁]; rfl, ?_⟩
  dsimp only at hmark₁
  refine ⟨by simp only [cleanup_schedules_older_than]; omega,
    by simp only [cleanup_schedules_older_than]; omega, fun s hs₁ hs₂ => ?_⟩
  simp only [cleanup_schedules_older_than, SortedMap.get?_filterKeys, hpsc₁,
    SortedMap.get?_insert, decide_eq_true hs₁, if_true]
  split_ifs with hs
  · rfl
  · exact hmark.2.2 s hs₁ (by omega)

/-- Store the summaries of a sequence of tasks, one after the other: the rewards in
    order. -/
def store_summaries (reward_function : SummaryTask → T → T → T → R) (w : SummaryWrapper T) :
    List (SummaryTask × T) → Except SummaryPanic (SummaryWrapper T × List R)
  | [] => .ok (w, [])
  | (task, summary) :: rest => do
    let (w, r) ← store_summary P reward_function w task summary
    let (w, rs) ← store_summaries reward_function w rest
    pure (w, r :: rs)

/-- **Run lemma.**  Along schedules that start at 0 and go up one at a time, storing
    the summaries never panics. -/
theorem store_summaries_ok (reward_function : SummaryTask → T → T → T → R) :
    ∀ {w : SummaryWrapper T} {last : Option ℕ} (tasks : List (SummaryTask × T)),
      CumulativeInv w last → consecutive_schedules last (tasks.map (·.1.schedule_id)) →
      ∃ w' rs, store_summaries P reward_function w tasks = .ok (w', rs)
  | w, _, [], _, _ => ⟨w, [], rfl⟩
  | w, last, (task, summary) :: rest, hw, ⟨hnext, hrest⟩ => by
    obtain ⟨w₁, r, h₁, hw₁⟩ := store_summary_inv P reward_function hw hnext summary
    obtain ⟨w₂, rs, h₂⟩ := store_summaries_ok reward_function rest hw₁ hrest
    exact ⟨w₂, r :: rs, by rw [store_summaries, h₁]; simp only [ok_bind, h₂]; rfl⟩

end SummaryWrapper

/-! ## The `EventHistory` summary -/

/-- The parts of an `EventHistory` that its cumulative summaries and its reward read:
    the timestamps of its vector clock (`vc.v_ts`) and the count of each state seen. -/
structure EventHistory where
  v_ts : SortedMap ℕ ℕ
  unique_states : SortedMap ℕ ℕ
deriving DecidableEq

namespace EventHistory

def new : EventHistory := ⟨.empty, .empty⟩

/-- `VectorClock::get_ts`: a process without an entry is at 0. -/
def get_ts (v_ts : SortedMap ℕ ℕ) (proc : ℕ) : ℕ := (v_ts.get? proc).getD 0

/-- `VectorClock::merge_report`: raise each entry to the incoming one, and list the
    processes whose entry moved. -/
def merge_report (v_ts incoming : SortedMap ℕ ℕ) : SortedMap ℕ ℕ × List ℕ :=
  incoming.keys.foldl (fun acc proc =>
    if get_ts acc.1 proc < get_ts incoming proc then
      (acc.1.insert proc (get_ts incoming proc), acc.2 ++ [proc])
    else acc) (v_ts, [])

/-- The states of `other` merged in, each with the greater count. -/
def merge_states (mine other : SortedMap ℕ ℕ) : SortedMap ℕ ℕ :=
  other.toList.foldl (fun acc e => acc.insert e.1 (max ((acc.get? e.1).getD 0) e.2)) mine

/-- `traverse` on the two fields: the clocks merged, and the states of `other` merged in
    once for each process whose entry moved. -/
def traverse (self other : EventHistory) : EventHistory :=
  let report := merge_report self.v_ts other.v_ts
  ⟨report.1, report.2.foldl (fun states _ => merge_states states other.unique_states)
    self.unique_states⟩

def union (self other : EventHistory) : EventHistory := traverse self other

/-- `merge` traverses only on a `CollateSummaries` event. -/
def merge (self : EventHistory) (this_event : LamportEvent) (other : EventHistory)
    (_ : LamportEvent) : EventHistory :=
  if this_event.should_store_summary.isSome then traverse self other else self

/-- The events with an `EventKind`, which move the vector clock. -/
def has_event_kind (e : LamportEvent) : Bool :=
  match e.ev with
  | .BlockExecute _ | .FunctionExecute _ | .PacketSend .. | .PacketReceive ..
  | .TimelineEvent (.StartWindow _ _) => true
  | _ => false

def count_state (self : EventHistory) (state : ℕ) : EventHistory :=
  { self with unique_states := self.unique_states.insert state (get_ts self.unique_states state + 1) }

/-- `update`: an event with a kind moves its process's clock entry up to its time; a
    `CollateSummaries` event counts the state of the summary (`get_state_id`). -/
def update (get_state_id : EventHistory → ℕ) (self : EventHistory) (new_event : LamportEvent) :
    EventHistory :=
  let self :=
    if has_event_kind new_event ∧ get_ts self.v_ts new_event.proc < new_event.ts.ts then
      { self with v_ts := self.v_ts.insert new_event.proc new_event.ts.ts }
    else self
  if new_event.should_store_summary.isSome then self.count_state (get_state_id self) else self

def producer (get_state_id : EventHistory → ℕ) : SummaryProducer EventHistory :=
  ⟨new, update get_state_id, merge, union⟩

/-- The reward of a window: the state of its summary, and -1 if the overall or the
    schedule's cumulative summary has seen that state, else 0. -/
def reward_function (get_state_id : EventHistory → ℕ) (_ : SummaryTask)
    (overall_cumulative schedule_cumulative current : EventHistory) : ℕ × ℤ :=
  let this_state := get_state_id current
  (this_state, if (overall_cumulative.unique_states.get? this_state).isSome ||
      (schedule_cumulative.unique_states.get? this_state).isSome then -1 else 0)

/-- The report of a clock that no incoming entry raises. -/
theorem merge_report_of_not_raised {v_ts incoming : SortedMap ℕ ℕ}
    (h : ∀ p ∈ incoming.keys, get_ts incoming p ≤ get_ts v_ts p) :
    merge_report v_ts incoming = (v_ts, []) := by
  unfold merge_report
  -- the accumulator stays at its start along the keys
  suffices ∀ ps : List ℕ, (∀ p ∈ ps, get_ts incoming p ≤ get_ts v_ts p) →
      ps.foldl (fun acc proc =>
        if get_ts acc.1 proc < get_ts incoming proc then
          (acc.1.insert proc (get_ts incoming proc), acc.2 ++ [proc])
        else acc) (v_ts, []) = (v_ts, []) from this _ h
  intro ps hps
  induction ps with
  | nil => rfl
  | cons p ps ih =>
    rw [List.foldl_cons, if_neg (Nat.not_lt.2 (hps p List.mem_cons_self))]
    exact ih fun q hq => hps q (List.mem_cons_of_mem p hq)

/-- **A union can miss states.**  When no entry of `other`'s clock is ahead of `self`'s,
    the union adds none of `other`'s states. -/
theorem union_of_not_raised {self other : EventHistory}
    (h : ∀ p ∈ other.v_ts.keys, get_ts other.v_ts p ≤ get_ts self.v_ts p) :
    (self.union other).unique_states = self.unique_states := by
  simp only [union, traverse, merge_report_of_not_raised h, List.foldl_nil]

/-! ### The first window of a schedule -/

/-- A state function under which every window is in state 7. -/
def revisited_state (_ : EventHistory) : ℕ := 7

/-- The `CollateSummaries` event of process 1 at time `ts` for step 0 of a schedule. -/
def collate_event (ts schedule_id : ℕ) : LamportEvent :=
  ⟨⟨ts, 1⟩, .TimelineEvent (.CollateSummaries ⟨0, 0, .QLearning, schedule_id, 0, none, 0⟩)⟩

/-- The window of schedule 0: process 1 executes a block at time 5, and the window ends. -/
def first_schedule_window : EventHistory :=
  let P := producer revisited_state
  P.update (P.update new ⟨⟨5, 1⟩, .BlockExecute 0⟩) (collate_event 10 0)

/-- The first window of schedule 1, which ends before anything else happens. -/
def second_schedule_window : EventHistory :=
  (producer revisited_state).update new (collate_event 20 1)

/-- A wrapper holding the two windows' summaries, nothing finalised yet. -/
def two_windows : SummaryWrapper EventHistory :=
  { SummaryWrapper.new (producer revisited_state) with
    summary_for_event := (SortedMap.empty.insert (collate_event 10 0) first_schedule_window).insert
      (collate_event 20 1) second_schedule_window }

/-- **The first reward of a schedule does not see the schedule before.**  Finalising the
    window of schedule 0 and then the first window of schedule 1, both in state 7: when
    schedule 1's reward is computed, the summary stored for schedule 0 has state 7 while
    the overall cumulative summary has no state at all, so the revisit is rewarded 0,
    not -1.  The overall summary takes in schedule 0 only after that reward. -/
theorem first_reward_of_schedule_misses_previous :
    ∃ w₁ w₂ : SummaryWrapper EventHistory,
      two_windows.finalise_and_report_reward (producer revisited_state)
          (reward_function revisited_state) (collate_event 10 0) = .ok (w₁, some (7, 0)) ∧
      w₁.finalise_and_report_reward (producer revisited_state)
          (reward_function revisited_state) (collate_event 20 1) = .ok (w₂, some (7, 0)) ∧
      ((w₁.stored_summaries.get? 0).bind (·.get? 0)).map
          (fun summary => (summary.unique_states.get? 7).isSome) = some true ∧
      (w₁.overall_cumulative.2.unique_states.get? 7).isSome = false ∧
      (w₂.overall_cumulative.2.unique_states.get? 7).isSome = true :=
  ⟨_, _, rfl, rfl, rfl, rfl, rfl⟩

end EventHistory

end Abstraktor.Feedback
