/-
  The commit frontier of the timeline (`CommitManager`,
  src/mallory/mediator/src/history/timeline.rs).

  The manager keeps, per process, the time before which it has all events
  (`have_all_events_before`, raised by the watermarks), the time before which the
  windows are declared (`have_windows_before`), and the time up to which the
  timeline is committed (`committed_up_to`).  Before each batch,
  `ranges_for_processing` takes the least absolute time over the processes of
  the two watermarks, converts it back to each process's clock, and gives each
  process a range that starts at its committed time: the batch looks for the
  sources of causal links up to that time, and for their targets up to the
  uncertainty of the clocks before it.  The batch then commits each process up to
  the last event it needs, or to the end of its target range.

  * `commit_batch` is what a batch does to the manager, given the times of the
    last needed events its phases find;
  * `commit_run` runs watermarks, windows and batches.

  A batch fails only in its ranges (`commit_batch_ok`), and the committed times
  never go down along a run (`commit_run_mono`).  The ranges, though, fail the
  assertion that no source range ends before its committed time as soon as the
  least watermark drops below a committed time (`ranges_for_processing_of_late`),
  which a process that joins late with an early watermark does.
-/
import Abstraktor.Lib.Counter
import Abstraktor.Lib.SortedMap
import Abstraktor.Mediator.Clocks
import Mathlib

namespace Abstraktor.Mediator

/-- The state of the commit manager; the clocks are those it shares. -/
structure CommitManager where
  have_all_events_before : SortedMap ℕ ℕ
  have_windows_before : SortedMap ℕ ℕ
  committed_up_to : ℕ → Option ℕ
  clocks : ClockManager

def CommitManager.new (clocks : ClockManager) : CommitManager :=
  ⟨SortedMap.empty, SortedMap.empty, fun _ => none, clocks⟩

/-- Which `assert!`, `expect` or `panic!` of the manager fails. -/
inductive CommitPanic
  /-- `assert!(target_end >= 0)` -/
  | target_end_negative
  /-- `assert!(source_end >= target_end)` -/
  | target_after_source
  /-- `assert!(source_end >= last_committed)` -/
  | committed_after_source
  /-- `panic!("Trying to commit up to {} below previously-committed: {}")` -/
  | commit_below
  /-- the `expect` of a clock that `all_registered` says is there -/
  | clock_missing
deriving DecidableEq, Repr

/-! ## Watermarks and windows -/

/-- The entry of `proc` raised to `ts`: `entry(proc).or_insert(ts)`, then set to `ts` if
    it is not below; a lower `ts` is only logged. -/
def raise_entry (m : SortedMap ℕ ℕ) (proc ts : ℕ) : SortedMap ℕ ℕ :=
  let entry := (m.get? proc).getD ts
  let m := m.insert proc entry
  if ts ≥ entry then m.insert proc ts else m

/-- `have_events_before`: no more events of each process before its time. -/
def CommitManager.have_events_before (cm : CommitManager) (have_list : List (ℕ × ℕ)) :
    CommitManager :=
  { cm with
    have_all_events_before :=
      have_list.foldl (fun m h => raise_entry m h.1 h.2) cm.have_all_events_before }

/-- `declare_window`: the markers of a window, `(start, end)` for each process. -/
def CommitManager.declare_window (cm : CommitManager) (markers : List (ℕ × ℕ × ℕ)) :
    CommitManager :=
  { cm with
    have_windows_before :=
      markers.foldl (fun m w => raise_entry m w.1 w.2.2) cm.have_windows_before }

@[simp] theorem get?_raise_entry (m : SortedMap ℕ ℕ) (proc ts q : ℕ) :
    (raise_entry m proc ts).get? q =
      if q = proc then some (max ((m.get? proc).getD ts) ts) else m.get? q := by
  unfold raise_entry
  -- a raise sets the entry to the greater of the two; a lower time leaves it
  by_cases h : (m.get? proc).getD ts ≤ ts
  · rw [if_pos h]
    by_cases hq : q = proc <;> simp [hq, max_eq_right h]
  · rw [if_neg h]
    by_cases hq : q = proc <;> simp [hq, max_eq_left (le_of_lt (not_le.1 h))]

/-- Raising entries never lowers one. -/
theorem get?_foldl_raise_entry {α : Type} (f : α → ℕ) (g : α → ℕ) {q t : ℕ} :
    ∀ (l : List α) (m : SortedMap ℕ ℕ), m.get? q = some t →
      ∃ t', (l.foldl (fun m a => raise_entry m (f a) (g a)) m).get? q = some t' ∧ t ≤ t'
  | [], m, h => ⟨t, h, le_rfl⟩
  | a :: l, m, h => by
    have h₁ : ∃ t₁, (raise_entry m (f a) (g a)).get? q = some t₁ ∧ t ≤ t₁ := by
      rw [get?_raise_entry]
      by_cases hq : q = f a
      · rw [if_pos hq, ← hq, h, Option.getD_some]
        exact ⟨_, rfl, le_max_left _ _⟩
      · rw [if_neg hq]
        exact ⟨t, h, le_rfl⟩
    obtain ⟨t₁, ht₁, hle₁⟩ := h₁
    obtain ⟨t', ht', hle'⟩ := get?_foldl_raise_entry f g l _ ht₁
    exact ⟨t', by rw [List.foldl_cons]; exact ht', le_trans hle₁ hle'⟩

/-- A process with a watermark keeps one. -/
theorem mem_keys_have_events_before {cm : CommitManager} {have_list : List (ℕ × ℕ)} {p : ℕ}
    (hp : p ∈ cm.have_all_events_before.keys) :
    p ∈ (cm.have_events_before have_list).have_all_events_before.keys := by
  obtain ⟨t, ht⟩ := Option.isSome_iff_exists.1 (SortedMap.mem_keys.1 hp)
  obtain ⟨t', ht', -⟩ := get?_foldl_raise_entry (·.1) (·.2) have_list _ ht
  exact SortedMap.mem_keys.2 (Option.isSome_iff_exists.2 ⟨t', ht'⟩)

/-! ## Committing -/

/-- One entry of `commit`: a process not yet committed is committed to `ts`; a
    committed one is raised to a greater `ts`, kept at an equal one, and a lower one
    panics.  The flag says whether anything was updated. -/
def commit_entry (acc : (ℕ → Option ℕ) × Bool) (c : ℕ × ℕ) :
    Except CommitPanic ((ℕ → Option ℕ) × Bool) :=
  match acc.1 c.1 with
  | none => .ok (Function.update acc.1 c.1 (some c.2), true)
  | some old_ts =>
    if c.2 > old_ts then .ok (Function.update acc.1 c.1 (some c.2), true)
    else if c.2 < old_ts then .error .commit_below
    else .ok acc

/-- `commit`: the new committed times, and whether anything changed. -/
def CommitManager.commit (cm : CommitManager) (committed : List (ℕ × ℕ)) :
    Except CommitPanic (CommitManager × Bool) := do
  let (committed_up_to, any_updated) ← committed.foldlM commit_entry (cm.committed_up_to, false)
  pure ({ cm with committed_up_to }, any_updated)

/-! ## The ranges of a batch -/

/-- The ranges of one process, at the least absolute time `min_global_ts_ns`: its last
    committed time with the end of its source range, and with the end of its target
    range. -/
def CommitManager.proc_ranges (cm : CommitManager) (min_global_ts_ns : ℤ) (proc : ℕ) :
    Except CommitPanic ((ℕ × ℕ × ℕ) × (ℕ × ℕ × ℕ)) := do
  let last_committed := (cm.committed_up_to proc).getD 0
  let some local_watermark := cm.clocks.get_rel_if_registered proc min_global_ts_ns
    | throw .clock_missing
  let source_end := local_watermark
  let target_end := min_global_ts_ns - (cm.clocks.synchronized_to_within_ms : ℤ) * 1000000
  if target_end < 0 then throw .target_end_negative
  let some target_end := cm.clocks.get_rel_if_registered proc target_end
    | throw .clock_missing
  if source_end < target_end then throw .target_after_source
  if source_end < last_committed then throw .committed_after_source
  -- after a window the target range may fall behind the committed time
  let target_end := max target_end last_committed
  pure ((proc, last_committed, source_end), (proc, last_committed, target_end))

/-- The absolute time up to which a process has both its events and its windows. -/
def CommitManager.abs_watermark (cm : CommitManager) (node : ℕ) (rel_ts : ℕ) : Option ℤ :=
  let window_before := (cm.have_windows_before.get? node).getD 0
  cm.clocks.get_abs_if_registered node (min rel_ts window_before)

/-- Step 1 of `ranges_for_processing`: the least absolute watermark over the processes
    with a watermark, once all their clocks are registered. -/
def CommitManager.min_global_ts_ns (cm : CommitManager) : Option ℤ :=
  let abs_timestamps := cm.have_all_events_before.toList.map fun e => cm.abs_watermark e.1 e.2
  let all_registered := !abs_timestamps.isEmpty && abs_timestamps.all Option.isSome
  if all_registered then (abs_timestamps.filterMap id).min? else none

/-- `ranges_for_processing`: the source and the target ranges of the processes with a
    watermark, at the least absolute watermark (step 2). -/
def CommitManager.ranges_for_processing (cm : CommitManager) :
    Except CommitPanic (List (ℕ × ℕ × ℕ) × List (ℕ × ℕ × ℕ)) :=
  match cm.min_global_ts_ns with
  | none => pure ([], [])
  | some min_global_ts_ns => do
    let ranges ← cm.have_all_events_before.toList.mapM fun e =>
      cm.proc_ranges min_global_ts_ns e.1
    pure (ranges.map (·.1), ranges.map (·.2))

/-- What a batch does to the manager: the ranges, and unless no process has anything
    past its committed time, a commit of each process up to the time of the last event
    the batch needs of it (`last_needed_ev`), or to the end of its target range. -/
def CommitManager.commit_batch (cm : CommitManager) (last_needed : ℕ → Option ℕ) :
    Except CommitPanic CommitManager := do
  let (_, target_proc_ranges) ← cm.ranges_for_processing
  if !target_proc_ranges.any fun r => r.2.1 < r.2.2 then return cm
  let committed_up_to := target_proc_ranges.map fun r => (r.1, (last_needed r.1).getD r.2.2)
  let (cm, _) ← cm.commit committed_up_to
  pure cm

/-- The calls that move the commit frontier. -/
inductive CommitStep
  | have_events_before (have_list : List (ℕ × ℕ))
  | declare_window (markers : List (ℕ × ℕ × ℕ))
  /-- a batch, whose phases find the last needed events at these times -/
  | tick (last_needed : ℕ → Option ℕ)

def CommitManager.commit_step (cm : CommitManager) : CommitStep → Except CommitPanic CommitManager
  | .have_events_before have_list => .ok (cm.have_events_before have_list)
  | .declare_window markers => .ok (cm.declare_window markers)
  | .tick last_needed => cm.commit_batch last_needed

def CommitManager.commit_run (cm : CommitManager) (steps : List CommitStep) :
    Except CommitPanic CommitManager :=
  steps.foldlM CommitManager.commit_step cm

/-! ## What the commits keep -/

/-- A turn of `commit` never lowers a committed time. -/
theorem commit_entry_mono {acc acc' : (ℕ → Option ℕ) × Bool} {c : ℕ × ℕ}
    (h : commit_entry acc c = .ok acc') {p t : ℕ} (ht : acc.1 p = some t) :
    ∃ t', acc'.1 p = some t' ∧ t ≤ t' := by
  unfold commit_entry at h
  split at h
  · -- a process not committed before: `p` is another one
    rename_i hnone
    cases h
    have hp : p ≠ c.1 := fun hp => by rw [hp, hnone] at ht; cases ht
    exact ⟨t, by simp [Function.update_of_ne hp, ht], le_rfl⟩
  · rename_i old_ts hold
    split_ifs at h with hgt hlt
    · cases h
      by_cases hp : p = c.1
      · rw [hp, hold, Option.some.injEq] at ht
        exact ⟨c.2, by simp [hp], by omega⟩
      · exact ⟨t, by simp [Function.update_of_ne hp, ht], le_rfl⟩
    · cases h
      exact ⟨t, ht, le_rfl⟩

theorem foldlM_commit_entry_mono {l : List (ℕ × ℕ)} {acc acc' : (ℕ → Option ℕ) × Bool}
    (h : l.foldlM commit_entry acc = .ok acc') {p t : ℕ} (ht : acc.1 p = some t) :
    ∃ t', acc'.1 p = some t' ∧ t ≤ t' :=
  Counter.foldlM_inv (fun acc : (ℕ → Option ℕ) × Bool => ∃ t', acc.1 p = some t' ∧ t ≤ t')
    (fun _ _ _ _ ⟨_, ht₁, hle₁⟩ hstep =>
      (commit_entry_mono hstep ht₁).imp fun _ ht' => ⟨ht'.1, le_trans hle₁ ht'.2⟩)
    ⟨t, ht, le_rfl⟩ h

/-- After a turn of `commit` the process of the entry is committed to at least its time. -/
theorem commit_entry_ge {acc acc' : (ℕ → Option ℕ) × Bool} {c : ℕ × ℕ}
    (h : commit_entry acc c = .ok acc') : ∃ v, acc'.1 c.1 = some v ∧ c.2 ≤ v := by
  unfold commit_entry at h
  split at h
  · cases h
    exact ⟨c.2, by simp, le_rfl⟩
  · rename_i old_ts hold
    split_ifs at h with hgt hlt
    · cases h
      exact ⟨c.2, by simp, le_rfl⟩
    · -- an equal time keeps the entry
      cases h
      exact ⟨old_ts, hold, by omega⟩

theorem foldlM_commit_entry_ge :
    ∀ {l : List (ℕ × ℕ)} {acc acc' : (ℕ → Option ℕ) × Bool},
      l.foldlM commit_entry acc = .ok acc' → ∀ c ∈ l, ∃ v, acc'.1 c.1 = some v ∧ c.2 ≤ v
  | [], _, _, _, c, hc => absurd hc List.not_mem_nil
  | a :: l, acc, acc', h, c, hc => by
    rw [List.foldlM_cons] at h
    obtain ⟨acc₁, h₁, h₂⟩ := Counter.bind_eq_ok_iff.1 h
    rcases List.mem_cons.1 hc with rfl | hc
    · -- the later entries only raise the one of `c`
      obtain ⟨v₁, hv₁, hle₁⟩ := commit_entry_ge h₁
      obtain ⟨v, hv, hle⟩ := foldlM_commit_entry_mono h₂ hv₁
      exact ⟨v, hv, hle₁.trans hle⟩
    · exact foldlM_commit_entry_ge h₂ c hc

/-- A commit changes only the committed times. -/
theorem commit_eq {cm cm' : CommitManager} {committed : List (ℕ × ℕ)} {b : Bool}
    (h : cm.commit committed = .ok (cm', b)) :
    ∃ cu, committed.foldlM commit_entry (cm.committed_up_to, false) = .ok (cu, b) ∧
      cm' = { cm with committed_up_to := cu } := by
  obtain ⟨⟨cu, upd⟩, hfold, hres⟩ := Counter.bind_eq_ok_iff.1 h
  obtain ⟨rfl, rfl⟩ := Prod.mk.inj (Counter.pure_eq_ok_iff.1 hres)
  exact ⟨cu, hfold, rfl⟩

/-- **Commits only go up.** -/
theorem commit_mono {cm cm' : CommitManager} {committed : List (ℕ × ℕ)} {b : Bool}
    (h : cm.commit committed = .ok (cm', b)) {p t : ℕ} (ht : cm.committed_up_to p = some t) :
    ∃ t', cm'.committed_up_to p = some t' ∧ t ≤ t' := by
  obtain ⟨cu, hfold, rfl⟩ := commit_eq h
  exact foldlM_commit_entry_mono hfold ht

/-- A commit commits each process it names to at least the time it names. -/
theorem commit_ge {cm cm' : CommitManager} {committed : List (ℕ × ℕ)} {b : Bool}
    (h : cm.commit committed = .ok (cm', b)) :
    ∀ c ∈ committed, ∃ v, cm'.committed_up_to c.1 = some v ∧ c.2 ≤ v := by
  obtain ⟨cu, hfold, rfl⟩ := commit_eq h
  exact foldlM_commit_entry_ge hfold

/-- A commit succeeds when it raises each process, named once, to at least its committed
    time. -/
theorem commit_ok {cm : CommitManager} {committed : List (ℕ × ℕ)}
    (hnodup : (committed.map Prod.fst).Nodup)
    (hge : ∀ c ∈ committed, ∀ t, cm.committed_up_to c.1 = some t → t ≤ c.2) :
    ∃ cm' b, cm.commit committed = .ok (cm', b) := by
  -- every entry is at least the committed time of its process, before and after each turn
  have hinit : ∀ c ∈ committed, ∀ t, (cm.committed_up_to, false).1 c.1 = some t → t ≤ c.2 := hge
  obtain ⟨⟨cu, upd⟩, hfold, -⟩ := Counter.foldlM_exists (f := commit_entry)
    (fun acc : (ℕ → Option ℕ) × Bool => ∀ c ∈ committed, ∀ t, acc.1 c.1 = some t → t ≤ c.2)
    (fun acc c hc hacc => by
      -- the process of `c` is named by no other entry
      have hsame : ∀ c' ∈ committed, c'.1 = c.1 → c' = c := fun c' hc' he =>
        List.inj_on_of_nodup_map hnodup hc' hc he
      have hupd : ∀ c' ∈ committed, ∀ t,
          Function.update acc.1 c.1 (some c.2) c'.1 = some t → t ≤ c'.2 := fun c' hc' t ht => by
        by_cases he : c'.1 = c.1
        · rw [hsame c' hc' he] at ht ⊢
          rw [Function.update_self, Option.some.injEq] at ht
          omega
        · rw [Function.update_of_ne he] at ht
          exact hacc c' hc' t ht
      unfold commit_entry
      cases hold : acc.1 c.1 with
      | none => exact ⟨_, rfl, hupd⟩
      | some old_ts =>
        have hle := hacc c hc old_ts hold
        by_cases hgt : c.2 > old_ts
        · exact ⟨(Function.update acc.1 c.1 (some c.2), true), by simp only [if_pos hgt], hupd⟩
        · have hlt : ¬c.2 < old_ts := by omega
          exact ⟨acc, by simp only [if_neg hgt, if_neg hlt], hacc⟩)
    hinit
  exact ⟨_, upd, by rw [CommitManager.commit, hfold, Counter.ok_bind]; rfl⟩

/-! ## The ranges -/

/-- **What the ranges of a registered process are.**  The target range never ends after
    the source range, so of the assertions only two can fail: the one on the target end
    before the epoch, and the one on the source end before the committed time. -/
theorem proc_ranges_eq {cm : CommitManager} {m : ℤ} {p : ℕ} {clock : ClockDescriptor}
    (hc : cm.clocks.clocks p = some clock) :
    ∃ s t, cm.clocks.get_rel_if_registered p m = some s ∧ t ≤ s ∧
      cm.proc_ranges m p =
        if m - (cm.clocks.synchronized_to_within_ms : ℤ) * 1000000 < 0 then
          .error .target_end_negative
        else if s < (cm.committed_up_to p).getD 0 then .error .committed_after_source
        else .ok ((p, (cm.committed_up_to p).getD 0, s),
          (p, (cm.committed_up_to p).getD 0, max t ((cm.committed_up_to p).getD 0))) := by
  obtain ⟨s, hs⟩ : ∃ s, cm.clocks.get_rel_if_registered p m = some s :=
    ⟨_, by rw [ClockManager.get_rel_if_registered, hc]; rfl⟩
  obtain ⟨t, ht⟩ : ∃ t, cm.clocks.get_rel_if_registered p
      (m - (cm.clocks.synchronized_to_within_ms : ℤ) * 1000000) = some t :=
    ⟨_, by rw [ClockManager.get_rel_if_registered, hc]; rfl⟩
  -- the end of the target range is the source's, converted from an earlier time
  have hts : t ≤ s := get_rel_mono hc (by omega) ht hs
  refine ⟨s, t, hs, hts, ?_⟩
  simp only [CommitManager.proc_ranges, hs, ht]
  by_cases hneg : m - (cm.clocks.synchronized_to_within_ms : ℤ) * 1000000 < 0
  · simp only [hneg, if_true]
    rfl
  · simp only [hneg, if_false, if_neg (not_lt.2 hts)]
    rfl

/-- A process whose clock is not registered has no ranges. -/
theorem proc_ranges_unregistered {cm : CommitManager} {m : ℤ} {p : ℕ}
    (hc : cm.clocks.clocks p = none) : cm.proc_ranges m p = .error .clock_missing := by
  simp [CommitManager.proc_ranges, ClockManager.get_rel_if_registered, hc]
  rfl

/-- What a process's ranges are when they are found: they are its own, and start at its
    committed time, where the target range does not end before. -/
theorem proc_ranges_ok {cm : CommitManager} {m : ℤ} {p : ℕ} {r : (ℕ × ℕ × ℕ) × (ℕ × ℕ × ℕ)}
    (h : cm.proc_ranges m p = .ok r) :
    r.2.1 = p ∧ r.2.2.1 = (cm.committed_up_to p).getD 0 ∧
      (cm.committed_up_to p).getD 0 ≤ r.2.2.2 := by
  cases hc : cm.clocks.clocks p with
  | none => rw [proc_ranges_unregistered hc] at h; cases h
  | some clock =>
    obtain ⟨s, t, -, -, heq⟩ := proc_ranges_eq (m := m) hc
    rw [heq] at h
    -- the ranges are only returned past every assertion
    split_ifs at h
    cases h
    exact ⟨rfl, rfl, le_max_right _ _⟩

/-- The source range found for a process is its own. -/
theorem proc_ranges_source {cm : CommitManager} {m : ℤ} {p : ℕ}
    {r : (ℕ × ℕ × ℕ) × (ℕ × ℕ × ℕ)} (h : cm.proc_ranges m p = .ok r) : r.1.1 = p := by
  cases hc : cm.clocks.clocks p with
  | none => rw [proc_ranges_unregistered hc] at h; cases h
  | some clock =>
    obtain ⟨s, t, -, -, heq⟩ := proc_ranges_eq (m := m) hc
    rw [heq] at h
    split_ifs at h
    cases h
    rfl

/-- The least absolute watermark is at most that of each process with a watermark. -/
theorem min_global_ts_ns_le {cm : CommitManager} {m : ℤ} (hmin : cm.min_global_ts_ns = some m)
    {q tq : ℕ} (hq : (q, tq) ∈ cm.have_all_events_before.toList) {a : ℤ}
    (ha : cm.abs_watermark q tq = some a) : m ≤ a := by
  unfold CommitManager.min_global_ts_ns at hmin
  dsimp only at hmin
  split_ifs at hmin
  exact (List.min?_eq_some_iff.1 hmin).2 a
    (List.mem_filterMap.2 ⟨some a, List.mem_map.2 ⟨(q, tq), hq, ha⟩, rfl⟩)

/-- A least absolute watermark is only found when every process with a watermark has its
    clock registered. -/
theorem min_global_ts_ns_registered {cm : CommitManager} {m : ℤ}
    (hmin : cm.min_global_ts_ns = some m) {q tq : ℕ}
    (hq : (q, tq) ∈ cm.have_all_events_before.toList) :
    ∃ clock, cm.clocks.clocks q = some clock := by
  unfold CommitManager.min_global_ts_ns at hmin
  dsimp only at hmin
  split_ifs at hmin with hall
  simp only [Bool.and_eq_true, List.all_eq_true] at hall
  have hsome := hall.2 _ (List.mem_map_of_mem hq)
  simp only [CommitManager.abs_watermark, ClockManager.get_abs_if_registered,
    Option.isSome_map] at hsome
  exact Option.isSome_iff_exists.1 hsome

/-- **A late watermark panics the batch.**  When the absolute watermark of a process `q`,
    converted to the clock of a process `p`, falls below the time `p` is committed to, as
    it does when `q` joins with an earlier watermark than those before it, the ranges
    fail the assertion that no source range ends before its committed time. -/
theorem ranges_for_processing_of_late {cm : CommitManager} {m : ℤ}
    (hmin : cm.min_global_ts_ns = some m)
    (hδ : 0 ≤ m - (cm.clocks.synchronized_to_within_ms : ℤ) * 1000000)
    {p tp : ℕ} (hp : (p, tp) ∈ cm.have_all_events_before.toList)
    {q tq : ℕ} (hq : (q, tq) ∈ cm.have_all_events_before.toList) {a : ℤ}
    (ha : cm.abs_watermark q tq = some a) {s : ℕ}
    (hs : cm.clocks.get_rel_if_registered p a = some s)
    (hlate : s < (cm.committed_up_to p).getD 0) :
    cm.ranges_for_processing = .error .committed_after_source := by
  obtain ⟨clock, hc⟩ := min_global_ts_ns_registered hmin hp
  have hδ' : ¬m - (cm.clocks.synchronized_to_within_ms : ℤ) * 1000000 < 0 := Int.not_lt.2 hδ
  -- the least watermark converts to a time no later than the late one
  obtain ⟨s₀, t₀, hs₀, -, hp_eq⟩ := proc_ranges_eq (m := m) hc
  have hle : s₀ ≤ s := get_rel_mono hc (min_global_ts_ns_le hmin hq ha) hs₀ hs
  have hfail : cm.proc_ranges m p = .error .committed_after_source := by
    rw [hp_eq, if_neg hδ', if_pos (by omega)]
  -- every process is registered, so no other assertion can fail first
  have hall : ∀ e ∈ cm.have_all_events_before.toList, ∀ e',
      cm.proc_ranges m e.1 = .error e' → e' = .committed_after_source := by
    intro e he e' herr
    obtain ⟨clock', hc'⟩ := min_global_ts_ns_registered hmin he
    obtain ⟨s', t', -, -, heq⟩ := proc_ranges_eq (m := m) hc'
    rw [heq, if_neg hδ'] at herr
    split_ifs at herr
    cases herr
    rfl
  unfold CommitManager.ranges_for_processing
  rw [hmin]
  dsimp only
  rw [Counter.mapM_error_of_mem (g := fun e => cm.proc_ranges m e.1) hall (p, tp) hp hfail]
  rfl

/-- The ranges found for the processes with a watermark are in the order of the processes,
    when each range names its own. -/
theorem keys_eq_map_proc_ranges {cm : CommitManager} {m : ℤ}
    {rs : List ((ℕ × ℕ × ℕ) × (ℕ × ℕ × ℕ))}
    (hrs : cm.have_all_events_before.toList.mapM (fun e => cm.proc_ranges m e.1) = .ok rs)
    {f : (ℕ × ℕ × ℕ) × (ℕ × ℕ × ℕ) → ℕ} (hf : ∀ p r, cm.proc_ranges m p = .ok r → f r = p) :
    cm.have_all_events_before.keys = rs.map f := by
  have h₂ := (Counter.forall₂_of_mapM_ok hrs).imp fun e r h => (hf e.1 r h).symm
  rw [← List.forall₂_eq_eq_eq, SortedMap.keys]
  exact List.forall₂_map_left_iff.2 (List.forall₂_map_right_iff.2 h₂)

/-- The target ranges of a batch name each process once, and none ends before the
    process's committed time. -/
theorem ranges_for_processing_targets {cm : CommitManager}
    {ranges : List (ℕ × ℕ × ℕ) × List (ℕ × ℕ × ℕ)} (hr : cm.ranges_for_processing = .ok ranges) :
    (ranges.2.map (·.1)).Nodup ∧ ∀ r ∈ ranges.2, (cm.committed_up_to r.1).getD 0 ≤ r.2.2 := by
  unfold CommitManager.ranges_for_processing at hr
  cases hmin : cm.min_global_ts_ns with
  | none =>
    rw [hmin] at hr
    cases hr
    exact ⟨List.nodup_nil, fun r hr => absurd hr List.not_mem_nil⟩
  | some m =>
    rw [hmin] at hr
    obtain ⟨rs, hrs, hres⟩ := Counter.bind_eq_ok_iff.1 hr
    cases Counter.pure_eq_ok_iff.1 hres
    -- the processes of the target ranges are the keys of the watermarks, in order
    have hkeys : cm.have_all_events_before.keys = (rs.map (·.2)).map (·.1) := by
      rw [List.map_map]
      exact keys_eq_map_proc_ranges hrs fun _ _ h => (proc_ranges_ok h).1
    refine ⟨hkeys ▸ (SortedMap.keys_sorted _).imp ne_of_lt, ?_⟩
    intro r hr
    obtain ⟨y, hy, rfl⟩ := List.mem_map.1 hr
    obtain ⟨e, -, he⟩ := Counter.mem_of_mapM_ok hrs y hy
    obtain ⟨hp, -, hle⟩ := proc_ranges_ok he
    rw [hp]
    exact hle

/-- **The processes of a batch.**  The ranges of a batch, when there are any, are of the
    processes with a watermark, in order, and the target ranges start at their committed
    times. -/
theorem ranges_for_processing_procs {cm : CommitManager}
    {ranges : List (ℕ × ℕ × ℕ) × List (ℕ × ℕ × ℕ)} (hr : cm.ranges_for_processing = .ok ranges)
    (hne : ranges.2 ≠ []) :
    ranges.1.map (·.1) = cm.have_all_events_before.keys ∧
      ranges.2.map (·.1) = cm.have_all_events_before.keys ∧
      ∀ r ∈ ranges.2, r.2.1 = (cm.committed_up_to r.1).getD 0 := by
  unfold CommitManager.ranges_for_processing at hr
  cases hmin : cm.min_global_ts_ns with
  | none =>
    rw [hmin] at hr
    cases hr
    exact absurd rfl hne
  | some m =>
    rw [hmin] at hr
    obtain ⟨rs, hrs, hres⟩ := Counter.bind_eq_ok_iff.1 hr
    cases Counter.pure_eq_ok_iff.1 hres
    refine ⟨?_, ?_, fun r hr => ?_⟩
    · rw [List.map_map]
      exact (keys_eq_map_proc_ranges hrs fun _ _ h => proc_ranges_source h).symm
    · rw [List.map_map]
      exact (keys_eq_map_proc_ranges hrs fun _ _ h => (proc_ranges_ok h).1).symm
    · obtain ⟨y, hy, rfl⟩ := List.mem_map.1 hr
      obtain ⟨e, -, he⟩ := Counter.mem_of_mapM_ok hrs y hy
      obtain ⟨hp, hc, -⟩ := proc_ranges_ok he
      rw [hp]
      exact hc

/-! ## What a batch keeps -/

/-- **A batch fails only in its ranges.**  When they are found, and the batch needs no
    event of a process before the time it is committed to, the commit succeeds. -/
theorem commit_batch_ok {cm : CommitManager} {last_needed : ℕ → Option ℕ}
    {ranges : List (ℕ × ℕ × ℕ) × List (ℕ × ℕ × ℕ)} (hr : cm.ranges_for_processing = .ok ranges)
    (hneed : ∀ p t, last_needed p = some t → (cm.committed_up_to p).getD 0 ≤ t) :
    ∃ cm', cm.commit_batch last_needed = .ok cm' := by
  obtain ⟨hnodup, hend⟩ := ranges_for_processing_targets hr
  -- each process is committed to a time at least its committed one
  have hge : ∀ c ∈ ranges.2.map (fun r => (r.1, (last_needed r.1).getD r.2.2)),
      ∀ t, cm.committed_up_to c.1 = some t → t ≤ c.2 := by
    intro c hc t ht
    obtain ⟨r, hr', rfl⟩ := List.mem_map.1 hc
    have hlc : (cm.committed_up_to r.1).getD 0 = t := by rw [ht, Option.getD_some]
    cases hn : last_needed r.1 with
    | none => exact hlc ▸ hend r hr'
    | some x => exact hlc ▸ hneed r.1 x hn
  have hnodup' : ((ranges.2.map (fun r => (r.1, (last_needed r.1).getD r.2.2))).map
      Prod.fst).Nodup := by
    rw [List.map_map]
    exact hnodup
  obtain ⟨cm', b, hc⟩ := commit_ok hnodup' hge
  unfold CommitManager.commit_batch
  rw [hr, Counter.ok_bind]
  dsimp only
  split_ifs
  · exact ⟨cm, rfl⟩
  · rw [hc]
    exact ⟨cm', rfl⟩

/-- A batch never lowers a committed time. -/
theorem commit_batch_mono {cm cm' : CommitManager} {last_needed : ℕ → Option ℕ}
    (h : cm.commit_batch last_needed = .ok cm') {p t : ℕ} (ht : cm.committed_up_to p = some t) :
    ∃ t', cm'.committed_up_to p = some t' ∧ t ≤ t' := by
  unfold CommitManager.commit_batch at h
  obtain ⟨⟨_, target⟩, -, h⟩ := Counter.bind_eq_ok_iff.1 h
  dsimp only at h
  split_ifs at h
  · -- nothing past the committed times: the manager is kept
    cases h
    exact ⟨t, ht, le_rfl⟩
  · obtain ⟨⟨cm₁, b⟩, hcommit, hres⟩ := Counter.bind_eq_ok_iff.1 h
    cases Counter.pure_eq_ok_iff.1 hres
    exact commit_mono hcommit ht

theorem commit_step_mono {cm cm' : CommitManager} {step : CommitStep}
    (h : cm.commit_step step = .ok cm') {p t : ℕ} (ht : cm.committed_up_to p = some t) :
    ∃ t', cm'.committed_up_to p = some t' ∧ t ≤ t' := by
  cases step with
  | have_events_before have_list => cases h; exact ⟨t, ht, le_rfl⟩
  | declare_window markers => cases h; exact ⟨t, ht, le_rfl⟩
  | tick last_needed => exact commit_batch_mono h ht

/-- **The committed times never go down along a run.** -/
theorem commit_run_mono {cm cm' : CommitManager} {steps : List CommitStep}
    (h : cm.commit_run steps = .ok cm') {p t : ℕ} (ht : cm.committed_up_to p = some t) :
    ∃ t', cm'.committed_up_to p = some t' ∧ t ≤ t' :=
  Counter.foldlM_inv (fun c : CommitManager => ∃ t', c.committed_up_to p = some t' ∧ t ≤ t')
    (fun _ _ _ _ ⟨_, ht₁, hle₁⟩ hstep =>
      (commit_step_mono hstep ht₁).imp fun _ ht' => ⟨ht'.1, le_trans hle₁ ht'.2⟩)
    ⟨t, ht, le_rfl⟩ h

end Abstraktor.Mediator
