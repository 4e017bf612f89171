/-
  The dynamic timeline (`DynamicTimeline`, src/mallory/mediator/src/history/timeline.rs).

  The timeline keeps the events of each process in a sorted set, and links a
  packet's send to its receive, and a window's end on each process to the
  collation of the window.  A tick commits a batch in three phases:

  1. it walks the source range of each process, from its committed time to the
     least watermark, and records the sources of links (`phase_one`);
  2. starting from the last event of each target range, it walks forward process
     by process until every link whose target it has walked has its source walked
     too: the last event needed of a process rises to the source of such a link
     (`phase_two`, a fixpoint of two nested loops);
  3. it submits to the summaries, process by process, the events from its
     committed time up to the timestamp of its last needed event
     (`submit_to_summariser`), and commits each process to that timestamp.

  The summaries are modelled by the log of the calls the timeline makes to them.
  The loops of phase 2 are given as many turns as the timelines hold events, and
  one more: a turn that walks no event leaves the state as it was, so that the
  source would loop forever where the model runs out of turns.
-/
import Abstraktor.Lib.Counter
import Abstraktor.Lib.SortedMap
import Abstraktor.Mediator.Event
import Abstraktor.Mediator.CommitManager
import Abstraktor.Mediator.Watermarks

namespace Abstraktor.Mediator

open LamportEvent

/-- The calls the timeline makes to the `SummaryManager`. -/
inductive SummaryCall
  | register_process (proc : ℕ)
  | register_same_process_event (event : LamportEvent) (first_per_process_for_batch : Bool)
  | register_unfilled_same_process_dependent (event : LamportEvent)
  | register_interprocess_dependency (event depends_on : LamportEvent)
  | register_unfilled_interprocess_dependent (event : LamportEvent)
  | deregister_unfilled_interprocess_dependent (event : LamportEvent)
  | abandon_events (events : List LamportEvent)
deriving DecidableEq, Repr

/-- Which `assert!`, `expect`, `unwrap` or `panic!` of the timeline fails. -/
inductive TimelinePanic
  /-- one of the commit manager's -/
  | commit (p : CommitPanic)
  /-- `self.events.get(proc).unwrap()` of a process without events -/
  | no_timeline
  /-- `BTreeSet::range` with its start after its end -/
  | range_start_after_end
  /-- the `expect` of a match instruction, or an assertion on its behaviour or position -/
  | match_instruction
  /-- `panic_on_unsupported_event_kind` -/
  | unsupported_event_kind
  /-- `panic!("[TIMELINE] Target event {} was matched without its dependent ...")` -/
  | target_without_source
  /-- `expect("Process must have a resume-with event")`, and the panic of `done_with_proc` -/
  | no_resume_with
  /-- the `expect`s of a last needed event -/
  | no_last_needed
  /-- `assert!(range_start <= range_end, "Attempting to traverse backwards ...")` -/
  | traverse_backwards
  /-- `assert_eq!(last_ev, last_needed_ev ..., "last_submitted_ev and last_needed_ev are
      inconsistent")` -/
  | last_submitted_inconsistent
  /-- the loops of phase 2 did not end within their turns, where the source loops forever -/
  | fixpoint_fuel
deriving DecidableEq, Repr

/-- The timeline; the HashMaps and DashMaps of the source are maps, iterated in key
    order. -/
structure DynamicTimeline where
  events : SortedMap ℕ (SortedMap LamportEvent Unit)
  causal_links : ℕ → Option CausalLink
  num_causal_links : ℕ
  causal_link_dependencies : SortedMap LamportEvent (SortedMap ℕ Unit)
  summaries : List SummaryCall
  commit_manager : CommitManager
  matching_table : EventMatchKey → Option ℕ

namespace DynamicTimeline

def new (commit_manager : CommitManager) : DynamicTimeline :=
  ⟨SortedMap.empty, fun _ => none, 0, SortedMap.empty, [], commit_manager, fun _ => none⟩

/-- `self.events.get(proc).unwrap()`. -/
def timeline (t : DynamicTimeline) (proc : ℕ) : Except TimelinePanic (SortedMap LamportEvent Unit) :=
  match t.events.get? proc with
  | some timeline => pure timeline
  | none => throw .no_timeline

theorem timeline_eq_ok_iff {t : DynamicTimeline} {proc : ℕ} {tl : SortedMap LamportEvent Unit} :
    t.timeline proc = .ok tl ↔ t.events.get? proc = some tl := by
  unfold timeline
  cases h : t.events.get? proc with
  | none => simp [throw, throwThe, MonadExceptOf.throw]
  | some tl' => simp [pure, Except.pure]

def add_event (t : DynamicTimeline) (ev : LamportEvent) : DynamicTimeline :=
  { t with events := t.events.addTo ev.proc ev }

/-- The number of events the timelines hold. -/
def num_events (t : DynamicTimeline) : ℕ :=
  t.events.toList.foldl (fun n e => n + e.2.keys.length) 0

end DynamicTimeline

/-- `timeline.range((Excluded(lo), Included(hi)))`: the events after `lo` up to `hi`, in
    order; `BTreeSet::range` panics when the start is after the end. -/
def range_oc (timeline : SortedMap LamportEvent Unit) (lo hi : LamportEvent) :
    Except TimelinePanic (List LamportEvent) :=
  if hi < lo then throw .range_start_after_end
  else pure (timeline.keys.filter fun e => lo < e ∧ e ≤ hi)

theorem range_oc_of_le {timeline : SortedMap LamportEvent Unit} {lo hi : LamportEvent}
    (h : lo ≤ hi) :
    range_oc timeline lo hi = .ok (timeline.keys.filter fun e => lo < e ∧ e ≤ hi) := by
  rw [range_oc, if_neg (not_lt.2 h)]
  rfl

/-- The events of a range are those of the timeline after its start, up to its end. -/
theorem mem_of_range_oc {timeline : SortedMap LamportEvent Unit} {lo hi : LamportEvent}
    {evs : List LamportEvent} (h : range_oc timeline lo hi = .ok evs) {e : LamportEvent}
    (he : e ∈ evs) : e ∈ timeline.keys ∧ lo < e ∧ e ≤ hi := by
  unfold range_oc at h
  split_ifs at h
  obtain rfl := Counter.pure_eq_ok_iff.1 h
  simpa using List.mem_filter.1 he

/-! ## Causal links -/

namespace DynamicTimeline

def register_causal_link_dependency (t : DynamicTimeline) (link : CausalLink) (id : ℕ) :
    DynamicTimeline :=
  let deps := t.causal_link_dependencies.addTo link.source id
  let deps := match link.target with
    | some target => deps.addTo target id
    | none => deps
  { t with causal_link_dependencies := deps }

def remove_causal_links_dependent_on (t : DynamicTimeline) (ev : LamportEvent) :
    DynamicTimeline :=
  { t with
    causal_links := (t.causal_link_dependencies.members ev).foldl
      (fun links id => Function.update links id none) t.causal_links
    causal_link_dependencies := t.causal_link_dependencies.erase ev }

/-- `track_causal_link`: the link of a key is replaced, or added under the next index. -/
def track_causal_link (t : DynamicTimeline) (key : EventMatchKey) (link : CausalLink) :
    DynamicTimeline × ℕ :=
  match t.matching_table key with
  | some index => ({ t with causal_links := Function.update t.causal_links index (some link) }, index)
  | none =>
    let index := t.num_causal_links
    let t := { t with
      num_causal_links := index + 1
      causal_links := Function.update t.causal_links index (some link)
      matching_table := Function.update t.matching_table key (some index) }
    (t.register_causal_link_dependency link index, index)

/-- A send, or the end of a window, is the source of a new dangling link. -/
def track_link_sources (t : DynamicTimeline) (ev : LamportEvent) :
    Except TimelinePanic (DynamicTimeline × Option ℕ) :=
  match ev.ev with
  | .PacketSend .. | .TimelineEvent (.EndWindow ..) => do
    let link := CausalLink.new_dangling ev
    let some ⟨key, mb, pos⟩ := ev.match_instruction | throw .match_instruction
    if mb ≠ .Intrinsic ∨ pos ≠ .Source then throw .match_instruction
    let (t, index) := t.track_causal_link key link
    pure (t, some index)
  | _ => pure (t, none)

/-- The keys an event is a target of: a receive's own, and for a collation of summaries
    the end of its window on each process but Jepsen's. -/
def target_match_keys (t : DynamicTimeline) (ev : LamportEvent) :
    Except TimelinePanic (List EventMatchKey) :=
  match ev.ev with
  | .PacketReceive .. => do
    let some ⟨key, mb, pos⟩ := ev.match_instruction | throw .match_instruction
    if mb ≠ .Intrinsic ∨ pos ≠ .Target then throw .match_instruction
    pure [key]
  | .TimelineEvent (.CollateSummaries _) =>
    (t.events.keys.filter (· ≠ JEPSEN_NODE_ID)).mapM fun node_id => do
      let some ⟨key, mb, pos⟩ := ev.match_instruction_for_node node_id
        | throw .match_instruction
      if mb ≠ .Intrinsic ∨ pos ≠ .Target then throw .match_instruction
      pure key
  | _ => pure []

/-- One key of `attach_link_targets`: the link of the key gets `ev` as its target. -/
def attach_link_target (ev : LamportEvent) (acc : DynamicTimeline × List CausalLink)
    (match_key : EventMatchKey) : Except TimelinePanic (DynamicTimeline × List CausalLink) :=
  let (t, added) := acc
  match t.matching_table match_key with
  | some index =>
    match t.causal_links index with
    | some old_link =>
      let new_link := old_link.with_target ev
      let t := t.register_causal_link_dependency new_link index
      pure ({ t with causal_links := Function.update t.causal_links index (some new_link) },
        added ++ [new_link])
    | none => pure (t, added)
  | none =>
    -- a receive whose send is not known is only logged
    if ev.is_packet_receive then pure (t, added) else throw .target_without_source

/-- The links completed by `ev` as their target. -/
def attach_link_targets (t : DynamicTimeline) (ev : LamportEvent) :
    Except TimelinePanic (DynamicTimeline × List CausalLink) := do
  let match_keys ← t.target_match_keys ev
  match_keys.foldlM (attach_link_target ev) (t, [])

end DynamicTimeline

/-- `panic_on_unsupported_event_kind`: only intrinsic sources and targets are handled. -/
def panic_on_unsupported_event_kind (ev : LamportEvent) : Except TimelinePanic Unit :=
  match ev.match_instruction with
  | some ⟨_, .Intrinsic, .Any⟩ => throw .unsupported_event_kind
  | some ⟨_, .Extrinsic, _⟩ => throw .unsupported_event_kind
  | _ => pure ()

/-! ## Phase 1: the sources -/

/-- `phase_one`: the sources of links in the source range of each process
    `(proc, last_committed, source_end)`, with the links added or replaced in this run
    (`source_links_this_run`). -/
def DynamicTimeline.phase_one (t : DynamicTimeline) (source_proc_ranges : List (ℕ × ℕ × ℕ)) :
    Except TimelinePanic (DynamicTimeline × List ℕ) :=
  source_proc_ranges.foldlM (fun (t, links) (proc, last_committed, source_end) => do
    let timeline ← t.timeline proc
    let evs ← range_oc timeline (last_ev_at ⟨last_committed, proc⟩) (last_ev_at ⟨source_end, proc⟩)
    evs.foldlM (fun (t, links) ev => do
      panic_on_unsupported_event_kind ev
      let (t, li) ← t.track_link_sources ev
      pure (t, match li with
        | some li => links.insert li
        | none => links)) (t, links)) (t, [])

/-! ## Phase 2: the fixpoint -/

/-- What phase 2 threads: the timeline, the last event needed of each process, and the
    event each process resumes after. -/
structure PhaseTwo where
  tl : DynamicTimeline
  last_needed_ev : SortedMap ℕ LamportEvent
  resume_with : SortedMap ℕ LamportEvent

/-- Raise the last needed event of a link's source's process to the source: to the
    greater of the two, or of the source and the event the process resumes after. -/
def raise_last_needed (resume_with : SortedMap ℕ LamportEvent)
    (last_needed_ev : SortedMap ℕ LamportEvent) (cl : CausalLink) :
    Except TimelinePanic (SortedMap ℕ LamportEvent) := do
  let src_ev := cl.source
  let src_proc := src_ev.proc
  let last_known_ev ← match last_needed_ev.get? src_proc with
    | some ev => pure ev
    | none => match resume_with.get? src_proc with
      | some ev => pure ev
      | none => throw .no_resume_with
  pure (last_needed_ev.insert src_proc (max last_known_ev src_ev))

def DynamicTimeline.track_link_targets_and_dependencies (t : DynamicTimeline)
    (last_needed_ev resume_with : SortedMap ℕ LamportEvent) (ev : LamportEvent) :
    Except TimelinePanic (DynamicTimeline × SortedMap ℕ LamportEvent) := do
  let (t, «matches») ← t.attach_link_targets ev
  let last_needed_ev ← «matches».foldlM (raise_last_needed resume_with) last_needed_ev
  pure (t, last_needed_ev)

/-- A process is done when it has walked up to its last needed event, or needs none. -/
def done_with_proc (proc : ℕ) (resume_with last_needed_ev : SortedMap ℕ LamportEvent) :
    Except TimelinePanic Bool :=
  match resume_with.get? proc, last_needed_ev.get? proc with
  | some resume_with, some last_needed_ev => pure (resume_with == last_needed_ev)
  | _, none => pure true
  | none, some _ => throw .no_resume_with

def done_with_all (resume_with last_needed_ev : SortedMap ℕ LamportEvent) :
    Except TimelinePanic Bool :=
  last_needed_ev.keys.allM fun proc => done_with_proc proc resume_with last_needed_ev

/-- One turn of the inner loop of phase 2 on `proc`: walk its events after the one it
    resumes after, up to its last needed one, tracking the links they are targets of. -/
def phase_two_turn (proc : ℕ) (timeline : SortedMap LamportEvent Unit) (s : PhaseTwo) :
    Except TimelinePanic PhaseTwo := do
  let some range_start := s.resume_with.get? proc | throw .no_resume_with
  let some range_end := s.last_needed_ev.get? proc | throw .no_last_needed
  if ¬range_start ≤ range_end then throw .traverse_backwards
  let ev_range ← range_oc timeline range_start range_end
  ev_range.foldlM (fun s ev => do
    let (tl, last_needed_ev) ←
      s.tl.track_link_targets_and_dependencies s.last_needed_ev s.resume_with ev
    pure ⟨tl, last_needed_ev, s.resume_with.insert proc ev⟩) s

/-- The fixpoint loop of phase 2 over `processes`, each loop given `fuel` turns. -/
def phase_two (processes : List ℕ) (fuel : ℕ) (s : PhaseTwo) : Except TimelinePanic PhaseTwo :=
  Counter.whileM (fun s => done_with_all s.resume_with s.last_needed_ev)
    (fun s => processes.foldlM (fun s proc => do
        let timeline ← s.tl.timeline proc
        Counter.whileM (fun s => done_with_proc proc s.resume_with s.last_needed_ev)
          (phase_two_turn proc timeline) .fixpoint_fuel fuel s) s)
    .fixpoint_fuel fuel s

/-- The last event of each target range `(proc, last_committed, target_end)`, if any. -/
def DynamicTimeline.initial_last_needed (t : DynamicTimeline)
    (target_proc_ranges : List (ℕ × ℕ × ℕ)) : Except TimelinePanic (SortedMap ℕ LamportEvent) :=
  target_proc_ranges.foldlM (fun last_needed_ev (proc, last_committed, target_end) => do
    let timeline ← t.timeline proc
    let evs ← range_oc timeline (last_ev_at ⟨last_committed, proc⟩) (last_ev_at ⟨target_end, proc⟩)
    pure (match evs.getLast? with
      | some last_ev => last_needed_ev.insert proc last_ev
      | none => last_needed_ev)) SortedMap.empty

/-- Each process resumes after the last event at its committed time. -/
def initial_resume_with (target_proc_ranges : List (ℕ × ℕ × ℕ)) : SortedMap ℕ LamportEvent :=
  target_proc_ranges.foldl (fun resume_with (proc, start_ts, _) =>
    resume_with.insert proc (last_ev_at ⟨start_ts, proc⟩)) SortedMap.empty

/-! ## Phase 3: the submission -/

/-- The range each process with a last needed event submits, `(proc, start_ts, end_ts)`
    for `(Excluded(last_ev_at(start_ts)), Included(last_ev_at(end_ts)))`: up to the
    timestamp of its last needed event. -/
def batch_range (target_proc_ranges : List (ℕ × ℕ × ℕ))
    (last_needed_ev : SortedMap ℕ LamportEvent) : List (ℕ × ℕ × ℕ) :=
  target_proc_ranges.filterMap fun (proc, start_ts, _) =>
    (last_needed_ev.get? proc).map fun end_ev => (proc, start_ts, end_ev.ts.ts)

/-- `submit_link`: a link completed in an earlier batch first loses its edge to
    infinity; a link between two processes becomes a dependency; a dangling one, unless
    its packet was dropped, gets an edge to infinity. -/
def submit_link (summaries : List SummaryCall) (link : CausalLink) (completed_past_link : Bool) :
    List SummaryCall :=
  match link.target with
  | some target =>
    let summaries := if completed_past_link then
      summaries ++ [.deregister_unfilled_interprocess_dependent link.source] else summaries
    -- same-process links are never sent to the summaries
    if link.source.proc = target.proc then summaries
    else summaries ++ [.register_interprocess_dependency target link.source]
  | none =>
    if !link.source.is_dropped_packet_send then
      summaries ++ [.register_unfilled_interprocess_dependent link.source]
    else summaries

def DynamicTimeline.submit_links_for_event (t : DynamicTimeline) (source_links_this_run : List ℕ)
    (ev : LamportEvent) (summaries : List SummaryCall) : List SummaryCall :=
  (t.causal_link_dependencies.members ev).foldl (fun summaries cl_id =>
    match t.causal_links cl_id with
    | some link => submit_link summaries link (cl_id ∉ source_links_this_run)
    | none => summaries) summaries

/-- `submit_to_summariser`: the events of each batch range, each after its links, then
    for each process the last event submitted, which must be its last needed event. -/
def DynamicTimeline.submit_to_summariser (t : DynamicTimeline) (processes : List ℕ)
    (batch_range : List (ℕ × ℕ × ℕ)) (source_links_this_run : List ℕ)
    (last_needed_ev : SortedMap ℕ LamportEvent) : Except TimelinePanic DynamicTimeline := do
  let first_per_process_for_batch : SortedMap ℕ Bool :=
    processes.foldl (fun m proc => m.insert proc true) SortedMap.empty
  let summaries := processes.foldl (fun s proc => s ++ [.register_process proc]) t.summaries
  let (summaries, _, last_submitted_ev) ← batch_range.foldlM
    (fun (summaries, first, last_submitted) (proc, start_ts, end_ts) => do
      let timeline ← t.timeline proc
      let ev_range ← range_oc timeline (last_ev_at ⟨start_ts, proc⟩) (last_ev_at ⟨end_ts, proc⟩)
      let (summaries, fp, last_submitted) := ev_range.foldl
        (fun (summaries, fp, last_submitted) ev =>
          let summaries := t.submit_links_for_event source_links_this_run ev summaries
          (summaries ++ [.register_same_process_event ev fp], false,
            (last_submitted : SortedMap ℕ LamportEvent).insert proc ev))
        (summaries, (first.get? proc).getD true, last_submitted)
      pure (summaries, first.insert proc fp, last_submitted))
    (summaries, first_per_process_for_batch, SortedMap.empty)
  let summaries ← last_submitted_ev.toList.foldlM (fun summaries (proc, last_ev) => do
    let some needed := last_needed_ev.get? proc | throw .no_last_needed
    if last_ev ≠ needed then throw .last_submitted_inconsistent
    pure (summaries ++ [.register_unfilled_same_process_dependent last_ev])) summaries
  pure { t with summaries }

/-! ## A tick -/

/-- `construct_causal_links_and_commit_batch`: the three phases, and the commit of each
    process up to its last needed event, or to the end of its target range. -/
def DynamicTimeline.construct_causal_links_and_commit_batch (t : DynamicTimeline) :
    Except TimelinePanic DynamicTimeline := do
  let (source_proc_ranges, target_proc_ranges) ←
    t.commit_manager.ranges_for_processing.mapError .commit
  if !target_proc_ranges.any fun r => r.2.1 < r.2.2 then return t
  let (t, source_links_this_run) ← t.phase_one source_proc_ranges
  let last_needed_ev ← t.initial_last_needed target_proc_ranges
  let processes := source_proc_ranges.map (·.1)
  let s ← phase_two processes (t.num_events + 1)
    ⟨t, last_needed_ev, initial_resume_with target_proc_ranges⟩
  let t ← s.tl.submit_to_summariser processes (batch_range target_proc_ranges s.last_needed_ev)
    source_links_this_run s.last_needed_ev
  let committed_up_to := target_proc_ranges.map fun (proc, _, end_ts) =>
    (proc, match s.last_needed_ev.get? proc with
      | some last_ev => last_ev.ts.ts
      | none => end_ts)
  let (commit_manager, _) ← (t.commit_manager.commit committed_up_to).mapError .commit
  pure { t with commit_manager }

/-- **A late watermark panics the tick.**  On every timeline whose commit manager has a
    process `p` committed past the absolute watermark of a process `q`, converted to the
    clock of `p`, the tick fails the assertion `source_end >= last_committed` of its
    ranges, before it reads any timeline. -/
theorem DynamicTimeline.tick_of_late {t : DynamicTimeline} {m : ℤ}
    (hmin : t.commit_manager.min_global_ts_ns = some m)
    (hδ : 0 ≤ m - (t.commit_manager.clocks.synchronized_to_within_ms : ℤ) * 1000000)
    {p tp : ℕ} (hp : (p, tp) ∈ t.commit_manager.have_all_events_before.toList)
    {q tq : ℕ} (hq : (q, tq) ∈ t.commit_manager.have_all_events_before.toList) {a : ℤ}
    (ha : t.commit_manager.abs_watermark q tq = some a) {s : ℕ}
    (hs : t.commit_manager.clocks.get_rel_if_registered p a = some s)
    (hlate : s < (t.commit_manager.committed_up_to p).getD 0) :
    t.construct_causal_links_and_commit_batch = .error (.commit .committed_after_source) := by
  unfold construct_causal_links_and_commit_batch
  rw [ranges_for_processing_of_late hmin hδ hp hq ha hs hlate]
  rfl

/-- `clean_up_all_committed_before`: each process's events before its marker, cut to its
    committed time, go with the links that depend on them; a marker of a process that is
    committed nowhere stops the whole clean-up. -/
def DynamicTimeline.clean_up_all_committed_before (t : DynamicTimeline)
    (cleanup_markers : List (ℕ × ℕ)) : DynamicTimeline :=
  let committed_upto := t.commit_manager.committed_up_to
  if cleanup_markers.any (fun m => committed_upto m.1 = none) then t else
  let cleanup_markers := cleanup_markers.map fun (proc, cleanup_ts) =>
    (proc, min cleanup_ts ((committed_upto proc).getD cleanup_ts))
  let (t, cleaned_events) := cleanup_markers.foldl (fun (t, cleaned) (proc, cleanup_ts) =>
    match t.events.get? proc with
    | some timeline =>
      let removed := timeline.keys.takeWhile fun ev => ev.ts.ts < cleanup_ts
      let timeline := removed.foldl (fun s ev => s.erase ev) timeline
      let t := { t with events := t.events.insert proc timeline }
      (removed.foldl (fun t ev => t.remove_causal_links_dependent_on ev) t, cleaned ++ removed)
    | none => (t, cleaned)) (t, [])
  if cleaned_events.isEmpty then t
  else { t with summaries := t.summaries ++ [.abandon_events cleaned_events] }

/-- The calls that change the timeline. -/
inductive TimelineCall
  | add_event (ev : LamportEvent)
  | have_events_before (have_list : List (ℕ × ℕ))
  | declare_window (markers : List (ℕ × ℕ × ℕ))
  | tick
  | clean_up_all_committed_before (cleanup_markers : List (ℕ × ℕ))

def DynamicTimeline.step (t : DynamicTimeline) : TimelineCall → Except TimelinePanic DynamicTimeline
  | .add_event ev => pure (t.add_event ev)
  | .have_events_before have_list =>
    pure { t with commit_manager := t.commit_manager.have_events_before have_list }
  | .declare_window markers =>
    pure { t with commit_manager := t.commit_manager.declare_window markers }
  | .tick => t.construct_causal_links_and_commit_batch
  | .clean_up_all_committed_before cleanup_markers =>
    pure (t.clean_up_all_committed_before cleanup_markers)

def DynamicTimeline.run (t : DynamicTimeline) (calls : List TimelineCall) :
    Except TimelinePanic DynamicTimeline :=
  calls.foldlM DynamicTimeline.step t

/-- Processes `1` and `2` with clocks at the origin, within a millisecond of each other.
    Process `1` sends two packets at `1000005` ns, the second sorting after the first, and
    process `2` receives the first at `6` ns.  With the events and the windows of both up
    to `1000007` ns the target ranges end at `7` ns: phase 2 needs the receive, then its
    send, while phase 3 submits both sends. -/
theorem tick_submits_past_last_needed :
    (DynamicTimeline.new (CommitManager.new
        ⟨fun n => if n = 1 ∨ n = 2 then some ⟨0, 0⟩ else none, 1⟩)).run
      [.add_event ⟨⟨1000005, 1⟩, .PacketSend 0 2 0 1 false⟩,
        .add_event ⟨⟨1000005, 1⟩, .PacketSend 1 2 0 2 false⟩,
        .add_event ⟨⟨6, 2⟩, .PacketReceive 0 1 0 1⟩,
        .have_events_before [(1, 1000007), (2, 1000007)],
        .declare_window [(1, 0, 1000007), (2, 0, 1000007)], .tick] =
      .error .last_submitted_inconsistent := by
  rfl

/-- Processes `1` and `2` with clocks at the origin, within a millisecond of each other,
    and an event of each at 10 ms, past every range.  Process `1` has its events and its
    window up to 5 ms, and the first tick commits it to the end of its target range, 4 ms;
    process `2` then joins with its window and its events up to 3 ms, and the second tick
    panics in its ranges. -/
theorem commit_frontier_join_panics :
    (DynamicTimeline.new (CommitManager.new
        ⟨fun n => if n = 1 ∨ n = 2 then some ⟨0, 0⟩ else none, 1⟩)).run
      [.add_event ⟨⟨10000000, 1⟩, .BlockExecute 0⟩,
        .add_event ⟨⟨10000000, 2⟩, .BlockExecute 0⟩,
        .have_events_before [(1, 5000000)], .declare_window [(1, 0, 5000000)], .tick,
        .declare_window [(2, 0, 3000000)], .have_events_before [(2, 3000000)], .tick] =
      .error (.commit .committed_after_source) := by
  rfl

end Abstraktor.Mediator
