/-
  What the ticks of the timeline tell the summary manager (`submit_to_summariser`,
  src/mallory/mediator/src/history/timeline.rs, and `register_same_process_event`,
  src/mallory/mediator/src/feedback/summary.rs).

  The summary manager links each event that `register_same_process_event` gives it to
  the last one given on the same process, asserting that the new one is not before it,
  and with the `selfcheck` feature `ensure_node_for_event` panics on an event added
  twice.  Both rest on the timeline, which must register the events of each process in
  increasing order.

  * `same_process_events`: the events the calls register, in order, and
    `registered summaries p` those of process `p`;
  * `same_process_events_submit_to_summariser`: a submission registers `batch_events`,
    the events of its batch ranges, range after range; the calls for processes, links and
    the last events submitted register nothing;
  * `LinksOnly`: the first two phases of a tick change only the links
    (`phase_one_keeps`, `phase_two_keeps`: each phase keeps what each of its trackings
    keeps);
  * `RegisteredInv`: the events registered on each process are increasing, and not after
    its committed time; every call keeps it, as a tick registers only events past the
    committed time of their process, up to the time it commits it to.
-/
import Mathlib
import Abstraktor.Lib.Counter
import Abstraktor.Lib.SortedMap
import Abstraktor.Mediator.Event
import Abstraktor.Mediator.CommitManager
import Abstraktor.Mediator.Timeline
import Abstraktor.Mediator.PhaseTwo
import Abstraktor.Mediator.TimelineRun

namespace Abstraktor.Mediator

open LamportEvent Counter

/-! ## The events registered -/

/-- The events the calls register with `register_same_process_event`, in order. -/
def same_process_events (summaries : List SummaryCall) : List LamportEvent :=
  summaries.filterMap fun
    | .register_same_process_event event _ => some event
    | _ => none

/-- The events the calls register on the timeline of process `p`, in order: the summary
    manager links each to the one before it. -/
def registered (summaries : List SummaryCall) (p : ℕ) : List LamportEvent :=
  (same_process_events summaries).filter (·.proc = p)

/-- The events of the ranges `(proc, start_ts, end_ts)` of a batch, range after range. -/
def batch_events (events : SortedMap ℕ (SortedMap LamportEvent Unit))
    (batch_range : List (ℕ × ℕ × ℕ)) : List LamportEvent :=
  batch_range.flatMap fun x => (events.members x.1).filter fun e =>
    last_ev_at ⟨x.2.1, x.1⟩ < e ∧ e ≤ last_ev_at ⟨x.2.2, x.1⟩

@[simp] theorem same_process_events_append (l l' : List SummaryCall) :
    same_process_events (l ++ l') = same_process_events l ++ same_process_events l' :=
  List.filterMap_append

/-- The calls for a link register nothing. -/
@[simp] theorem same_process_events_submit_link (summaries : List SummaryCall)
    (link : CausalLink) (completed_past_link : Bool) :
    same_process_events (submit_link summaries link completed_past_link) =
      same_process_events summaries := by
  unfold submit_link
  split <;> split_ifs <;> simp [same_process_events]

@[simp] theorem DynamicTimeline.same_process_events_submit_links_for_event
    (t : DynamicTimeline) (source_links_this_run : List ℕ) (ev : LamportEvent)
    (summaries : List SummaryCall) :
    same_process_events (t.submit_links_for_event source_links_this_run ev summaries) =
      same_process_events summaries := by
  unfold DynamicTimeline.submit_links_for_event
  rw [foldl_extends same_process_events (fun _ => []) (fun s cl_id => ?_) rfl]
  · simp
  · split <;> simp

/-- The events of a range are those of the timeline after its start, up to its end. -/
theorem eq_of_range_oc {timeline : SortedMap LamportEvent Unit} {lo hi : LamportEvent}
    {evs : List LamportEvent} (h : range_oc timeline lo hi = .ok evs) :
    evs = timeline.keys.filter fun e => lo < e ∧ e ≤ hi := by
  unfold range_oc at h
  split_ifs at h
  exact (pure_eq_ok_iff.1 h).symm

/-- **What a submission registers**: the events of its batch ranges, range after range,
    each range in order.  The calls for the processes, for the links of each event and
    for the last events submitted register nothing. -/
theorem DynamicTimeline.same_process_events_submit_to_summariser {t t' : DynamicTimeline}
    {processes : List ℕ} {batch_range : List (ℕ × ℕ × ℕ)} {source_links_this_run : List ℕ}
    {last_needed_ev : SortedMap ℕ LamportEvent}
    (h : t.submit_to_summariser processes batch_range source_links_this_run last_needed_ev =
      .ok t') :
    same_process_events t'.summaries =
      same_process_events t.summaries ++ batch_events t.events batch_range := by
  unfold DynamicTimeline.submit_to_summariser at h
  obtain ⟨⟨summaries, first, last_submitted_ev⟩, hbatch, h⟩ := bind_eq_ok_iff.1 h
  dsimp only at h
  obtain ⟨summaries', hlast, h⟩ := bind_eq_ok_iff.1 h
  obtain rfl := pure_eq_ok_iff.1 h
  -- the processes register nothing
  have hprocs : same_process_events (processes.foldl
      (fun s proc => s ++ [SummaryCall.register_process proc]) t.summaries) =
      same_process_events t.summaries ++ processes.flatMap fun _ => [] :=
    foldl_extends _ _ (fun s proc => by simp [same_process_events]) rfl
  -- each range registers its events, after the calls for their links
  have hranges := foldlM_extends (fun acc => same_process_events acc.1)
    (fun x => (t.events.members x.1).filter fun e =>
      last_ev_at ⟨x.2.1, x.1⟩ < e ∧ e ≤ last_ev_at ⟨x.2.2, x.1⟩)
    (fun acc x acc' hx => ?_) hbatch
  -- the last events submitted register nothing
  have hlast' := foldlM_extends same_process_events (fun _ => []) (fun s x s' hx => ?_) hlast
  · rw [hlast', hranges, hprocs, List.flatMap_eq_nil_iff.2 fun _ _ => rfl,
      List.flatMap_eq_nil_iff.2 fun _ _ => rfl, List.append_nil, List.append_nil]
    rfl
  · obtain ⟨proc, last_ev⟩ := x
    dsimp only at hx
    split at hx
    · split_ifs at hx
      · cases hx
      · obtain rfl := pure_eq_ok_iff.1 hx
        simp [same_process_events]
    · cases hx
  · obtain ⟨proc, start_ts, end_ts⟩ := x
    obtain ⟨timeline, htl, hx⟩ := bind_eq_ok_iff.1 hx
    obtain ⟨ev_range, hev, hx⟩ := bind_eq_ok_iff.1 hx
    obtain rfl := pure_eq_ok_iff.1 hx
    dsimp only
    rw [foldl_extends (fun acc : List SummaryCall × Bool × SortedMap ℕ LamportEvent =>
      same_process_events acc.1) (fun ev => [ev]) (fun acc ev => ?_) rfl]
    · rw [List.flatMap_singleton', eq_of_range_oc hev,
        SortedMap.members_of_get? (timeline_eq_ok_iff.1 htl)]
    · rw [same_process_events_append, DynamicTimeline.same_process_events_submit_links_for_event]
      rfl

/-! ## The first two phases of a tick change only the links -/

/-- `t'` differs from `t` only in its links, their dependencies and the matching table. -/
structure LinksOnly (t t' : DynamicTimeline) : Prop where
  events : t'.events = t.events
  summaries : t'.summaries = t.summaries
  commit_manager : t'.commit_manager = t.commit_manager

namespace LinksOnly

variable {t t' t'' : DynamicTimeline}

theorem refl (t : DynamicTimeline) : LinksOnly t t := ⟨rfl, rfl, rfl⟩

theorem trans (h : LinksOnly t t') (h' : LinksOnly t' t'') : LinksOnly t t'' :=
  ⟨h'.events.trans h.events, h'.summaries.trans h.summaries,
    h'.commit_manager.trans h.commit_manager⟩

end LinksOnly

namespace DynamicTimeline

/-- **Phase 1 keeps what every tracking of a source keeps.** -/
theorem phase_one_keeps (P : DynamicTimeline → Prop)
    (htrack : ∀ t ev t' li, P t → t.track_link_sources ev = .ok (t', li) → P t')
    {t t₁ : DynamicTimeline} {source_proc_ranges : List (ℕ × ℕ × ℕ)} {links : List ℕ}
    (h : t.phase_one source_proc_ranges = .ok (t₁, links)) (ht : P t) : P t₁ := by
  refine foldlM_inv (fun acc : DynamicTimeline × List ℕ => P acc.1)
    (fun acc r acc' _ hP hacc' => ?_) ht h
  -- a range: each of its events tracks the links it is a source of
  obtain ⟨_, -, hacc'⟩ := bind_eq_ok_iff.1 hacc'
  obtain ⟨_, -, hinner⟩ := bind_eq_ok_iff.1 hacc'
  refine foldlM_inv (fun acc : DynamicTimeline × List ℕ => P acc.1)
    (fun acc₁ ev acc₂ _ hP₁ h₂ => ?_) hP hinner
  obtain ⟨_, -, h₂⟩ := bind_eq_ok_iff.1 h₂
  obtain ⟨⟨t₂, li⟩, htr, h₂⟩ := bind_eq_ok_iff.1 h₂
  obtain rfl := pure_eq_ok_iff.1 h₂
  exact htrack _ _ _ _ hP₁ htr

theorem track_causal_link_linksOnly (t : DynamicTimeline) (key : EventMatchKey)
    (link : CausalLink) : LinksOnly t (t.track_causal_link key link).1 := by
  unfold track_causal_link
  split <;> exact ⟨rfl, rfl, rfl⟩

theorem phase_one_linksOnly {t t₁ : DynamicTimeline} {source_proc_ranges : List (ℕ × ℕ × ℕ)}
    {links : List ℕ} (h : t.phase_one source_proc_ranges = .ok (t₁, links)) : LinksOnly t t₁ := by
  refine phase_one_keeps (LinksOnly t) (fun t₂ ev t₃ li h₂ htr => ?_) h (.refl t)
  rcases track_link_sources_eq htr with rfl | ⟨key, rfl⟩
  · exact h₂
  · exact h₂.trans (t₂.track_causal_link_linksOnly key _)

end DynamicTimeline

/-- **Phase 2 keeps what every tracking of a target keeps.** -/
theorem phase_two_keeps (P : DynamicTimeline → Prop)
    (htrack : ∀ t ln r ev t' ln', P t →
      t.track_link_targets_and_dependencies ln r ev = .ok (t', ln') → P t')
    {procs : List ℕ} {fuel : ℕ} {s s' : PhaseTwo} (h : phase_two procs fuel s = .ok s')
    (hs : P s.tl) : P s'.tl := by
  -- a turn on a process tracks the targets of each event of its range
  have hturn : ∀ p tl s s', P s.tl → phase_two_turn p tl s = .ok s' → P s'.tl := by
    intro p tl s s' hs h
    unfold phase_two_turn at h
    split at h
    · split at h
      · split_ifs at h
        swap
        · cases h
        obtain ⟨ev_range, -, h⟩ := bind_eq_ok_iff.1 h
        dsimp only at h
        refine foldlM_inv (fun s : PhaseTwo => P s.tl) (fun s₁ ev s₂ _ h₁ hstep => ?_) hs h
        obtain ⟨⟨tl', ln'⟩, htr, hstep⟩ := bind_eq_ok_iff.1 hstep
        obtain rfl := pure_eq_ok_iff.1 hstep
        exact htrack _ _ _ _ _ _ h₁ htr
      · cases h
    · cases h
  -- the passes of the outer loop, each an inner loop on every process
  refine (whileM_inv _ _ _ (fun s : PhaseTwo => P s.tl) (fun s₁ s₂ h₁ _ hpass => ?_) hs h).1
  refine foldlM_inv (fun s : PhaseTwo => P s.tl) (fun s₃ p s₄ _ h₃ hloop => ?_) h₁ hpass
  obtain ⟨tl, -, hloop⟩ := bind_eq_ok_iff.1 hloop
  exact (whileM_inv _ _ _ (fun s : PhaseTwo => P s.tl)
    (fun _ _ h _ ht => hturn p tl _ _ h ht) h₃ hloop).1

/-- Attaching a target changes only the links. -/
theorem attach_link_target_linksOnly {ev : LamportEvent}
    {acc acc' : DynamicTimeline × List CausalLink} {key : EventMatchKey}
    (h : DynamicTimeline.attach_link_target ev acc key = .ok acc') : LinksOnly acc.1 acc'.1 := by
  obtain ⟨t, added⟩ := acc
  unfold DynamicTimeline.attach_link_target at h
  dsimp only at h
  split at h
  · split at h
    · obtain rfl := pure_eq_ok_iff.1 h
      exact ⟨rfl, rfl, rfl⟩
    · obtain rfl := pure_eq_ok_iff.1 h
      exact .refl _
  · -- a receive whose send is not known changes nothing; another target panics
    split_ifs at h
    obtain rfl := pure_eq_ok_iff.1 h
    exact .refl _

theorem phase_two_linksOnly {procs : List ℕ} {fuel : ℕ} {s s' : PhaseTwo}
    (h : phase_two procs fuel s = .ok s') : LinksOnly s.tl s'.tl := by
  refine phase_two_keeps (LinksOnly s.tl) (fun t ln r ev t' ln' ht htr => ?_) h (.refl _)
  obtain ⟨⟨t₁, ms⟩, hattach, htr⟩ := bind_eq_ok_iff.1 htr
  obtain ⟨_, -, htr⟩ := bind_eq_ok_iff.1 htr
  obtain ⟨rfl, -⟩ := Prod.mk.inj (pure_eq_ok_iff.1 htr)
  obtain ⟨keys, -, hfold⟩ := bind_eq_ok_iff.1 hattach
  exact foldlM_inv (fun acc : DynamicTimeline × List CausalLink => LinksOnly s.tl acc.1)
    (fun _ _ _ _ hacc hstep => hacc.trans (attach_link_target_linksOnly hstep)) ht hfold

/-- A clean-up registers nothing: it only abandons the events it drops. -/
theorem DynamicTimeline.same_process_events_clean_up (t : DynamicTimeline)
    (cleanup_markers : List (ℕ × ℕ)) :
    same_process_events (t.clean_up_all_committed_before cleanup_markers).summaries =
      same_process_events t.summaries := by
  unfold DynamicTimeline.clean_up_all_committed_before
  dsimp only
  split_ifs
  · rfl
  all_goals
    try rw [same_process_events_append,
      show ∀ evs, same_process_events [.abandon_events evs] = [] from fun _ => rfl, List.append_nil]
    -- each marker drops events and links, and calls nothing
    refine List.foldlRecOn (motive := fun acc : DynamicTimeline × List LamportEvent =>
      same_process_events acc.1.summaries = same_process_events t.summaries) _ _ rfl
      fun acc hacc m _ => ?_
    split
    · rw [foldl_extends DynamicTimeline.summaries (fun _ => []) (fun _ _ => ?_) rfl,
        List.flatMap_eq_nil_iff.2 fun _ _ => rfl, List.append_nil]
      · exact hacc
      · exact (List.append_nil _).symm
    · exact hacc

/-! ## The batch of a tick -/

/-- The ranges of a batch are the target ranges of the processes with a last needed
    event, each up to the timestamp of that event. -/
theorem mem_batch_range {target_proc_ranges : List (ℕ × ℕ × ℕ)} {ln : SortedMap ℕ LamportEvent}
    {x : ℕ × ℕ × ℕ} (hx : x ∈ batch_range target_proc_ranges ln) :
    ∃ y ∈ target_proc_ranges, ∃ end_ev, ln.get? y.1 = some end_ev ∧
      x = (y.1, y.2.1, end_ev.ts.ts) := by
  obtain ⟨y, hy, hx⟩ := List.mem_filterMap.1 hx
  obtain ⟨end_ev, hend, rfl⟩ := Option.map_eq_some_iff.1 hx
  exact ⟨y, hy, end_ev, hend, rfl⟩

/-- The ranges of a batch are in the order of their processes, as the target ranges are. -/
theorem batch_range_sorted {target_proc_ranges : List (ℕ × ℕ × ℕ)}
    (ln : SortedMap ℕ LamportEvent) (h : (target_proc_ranges.map (·.1)).Pairwise (· < ·)) :
    (batch_range target_proc_ranges ln).Pairwise fun x y => x.1 < y.1 := by
  refine (List.pairwise_map.1 h).filterMap _ fun a a' haa' b hb b' hb' => ?_
  obtain ⟨_, -, rfl⟩ := Option.map_eq_some_iff.1 hb
  obtain ⟨_, -, rfl⟩ := Option.map_eq_some_iff.1 hb'
  exact haa'

section Batch

variable {events : SortedMap ℕ (SortedMap LamportEvent Unit)} {batch_range : List (ℕ × ℕ × ℕ)}
  (hproc : ∀ p e, e ∈ events.members p → e.proc = p)
include hproc

/-- An event of a batch is of the timeline of the process of its range, past the start of
    the range and not past its end. -/
theorem mem_batch_events {e : LamportEvent} (he : e ∈ batch_events events batch_range) :
    ∃ x ∈ batch_range, e.proc = x.1 ∧ x.2.1 < e.ts.ts ∧ e.ts.ts ≤ x.2.2 := by
  obtain ⟨x, hx, he⟩ := List.mem_flatMap.1 he
  obtain ⟨hmem, hlo, hhi⟩ : e ∈ events.members x.1 ∧ last_ev_at ⟨x.2.1, x.1⟩ < e ∧
      e ≤ last_ev_at ⟨x.2.2, x.1⟩ := by
    simpa using List.mem_filter.1 he
  have hp := hproc _ _ hmem
  exact ⟨x, hx, hp, (last_ev_at_lt_iff hp).1 hlo, (le_last_ev_at_iff hp).1 hhi⟩

/-- **The events of a batch are in order on each process**, when its ranges are of
    distinct processes. -/
theorem batch_events_sorted (hsorted : batch_range.Pairwise fun x y => x.1 < y.1) :
    (batch_events events batch_range).Pairwise fun a b => a.proc = b.proc → a < b := by
  refine List.pairwise_flatMap.2 ⟨fun x _ => ?_, hsorted.imp fun {x y} hxy a ha b hb hab => ?_⟩
  · refine ((SortedMap.members_sorted events x.1).filter _).imp ?_
    intro a b hab _
    exact hab
  · -- the events of two ranges are of distinct processes
    have ha' := hproc _ _ (List.mem_filter.1 ha).1
    have hb' := hproc _ _ (List.mem_filter.1 hb).1
    exact absurd (ha'.symm.trans (hab.trans hb')) hxy.ne

end Batch

/-! ## What a tick does -/

/-- Every process committed in `cu` is committed in `cu'`, no earlier. -/
def CommittedRaised (cu cu' : ℕ → Option ℕ) : Prop :=
  ∀ p c, cu p = some c → ∃ c', cu' p = some c' ∧ c ≤ c'

namespace CommittedRaised

variable {cu cu' : ℕ → Option ℕ}

/-- Read with a process never committed as at `0`, no committed time goes back. -/
theorem getD_le (h : CommittedRaised cu cu') (p : ℕ) : (cu p).getD 0 ≤ (cu' p).getD 0 := by
  cases hp : cu p with
  | none => exact Nat.zero_le _
  | some c =>
    obtain ⟨c', hc', hle⟩ := h p c hp
    rw [hc']
    exact hle

end CommittedRaised

/-- **What a tick does.**  Nothing, when no target range goes past its committed time;
    otherwise it keeps the events, registers those of its batch, commits each process with
    a last needed event at least up to that event, and moves no committed time back. -/
theorem DynamicTimeline.tick_spec {t t' : DynamicTimeline}
    (htick : t.construct_causal_links_and_commit_batch = .ok t') :
    t' = t ∨ ∃ srcs tgts, t.commit_manager.ranges_for_processing = .ok (srcs, tgts) ∧
      tgts ≠ [] ∧ ∃ ln : SortedMap ℕ LamportEvent, t'.events = t.events ∧
        same_process_events t'.summaries =
          same_process_events t.summaries ++ batch_events t.events (batch_range tgts ln) ∧
        (∀ x ∈ tgts, ∀ e, ln.get? x.1 = some e →
          ∃ v, t'.commit_manager.committed_up_to x.1 = some v ∧ e.ts.ts ≤ v) ∧
        CommittedRaised t.commit_manager.committed_up_to t'.commit_manager.committed_up_to := by
  unfold construct_causal_links_and_commit_batch at htick
  obtain ⟨⟨srcs, tgts⟩, hr, htick⟩ := bind_eq_ok_iff.1 htick
  rw [mapError_eq_ok_iff] at hr
  dsimp only at htick
  split_ifs at htick with hchanged
  · exact .inl (pure_eq_ok_iff.1 htick).symm
  obtain ⟨⟨t₁, links⟩, h₁, htick⟩ := bind_eq_ok_iff.1 htick
  obtain ⟨ln, -, htick⟩ := bind_eq_ok_iff.1 htick
  obtain ⟨s, hs, htick⟩ := bind_eq_ok_iff.1 htick
  obtain ⟨t₂, ht₂, htick⟩ := bind_eq_ok_iff.1 htick
  obtain ⟨⟨cm, b⟩, hcm, htick⟩ := bind_eq_ok_iff.1 htick
  rw [mapError_eq_ok_iff] at hcm
  obtain rfl := pure_eq_ok_iff.1 htick
  have hne : tgts ≠ [] := by
    rintro rfl
    simp at hchanged
  -- phases 1 and 2 change only the links, and the submission only the calls made
  have hlo : LinksOnly t s.tl := (phase_one_linksOnly h₁).trans (phase_two_linksOnly hs)
  have hsub := same_process_events_submit_to_summariser ht₂
  obtain ⟨summaries, rfl⟩ := submit_to_summariser_eq ht₂
  rw [hlo.commit_manager] at hcm
  refine .inr ⟨srcs, tgts, hr, hne, s.last_needed_ev, hlo.events, ?_,
    fun ⟨proc, start_ts, target_end⟩ hx e he => ?_, fun p c hc => commit_mono hcm hc⟩
  · rw [hsub, hlo.events, hlo.summaries]
  · obtain ⟨v, hv, hle⟩ := commit_ge hcm _ (List.mem_map_of_mem hx)
    simp only [he] at hv hle
    exact ⟨v, hv, hle⟩

/-! ## Every run registers the events of each process in order -/

/-- What the calls of every timeline a run reaches keep: the events registered on each
    process are increasing, and not after the time the process is committed to. -/
structure RegisteredInv (t : DynamicTimeline) : Prop where
  sorted : ∀ p, (registered t.summaries p).Pairwise (· < ·)
  committed : ∀ p e, e ∈ registered t.summaries p →
    e.ts.ts ≤ (t.commit_manager.committed_up_to p).getD 0

namespace RegisteredInv

variable {t t' : DynamicTimeline}

theorem new (cm : CommitManager) : RegisteredInv (DynamicTimeline.new cm) :=
  ⟨fun _ => List.Pairwise.nil, fun _ _ he => absurd he List.not_mem_nil⟩

/-- A call that registers nothing and keeps the committed times keeps the invariant. -/
theorem of_frame (h : RegisteredInv t)
    (hsum : same_process_events t'.summaries = same_process_events t.summaries)
    (hcm : t'.commit_manager.committed_up_to = t.commit_manager.committed_up_to) :
    RegisteredInv t' := by
  have hreg : ∀ p, registered t'.summaries p = registered t.summaries p := fun p => by
    rw [registered, hsum, registered]
  exact ⟨fun p => hreg p ▸ h.sorted p, fun p e he => hcm ▸ h.committed p e (hreg p ▸ he)⟩

/-- **A tick registers, on each process, events past its committed time and up to the time
    it commits it to, in order**, so it keeps the invariant. -/
theorem tick (hinv : TimelineInv t) (h : RegisteredInv t)
    (htick : t.construct_causal_links_and_commit_batch = .ok t') : RegisteredInv t' := by
  rcases t.tick_spec htick with rfl | ⟨srcs, tgts, hr, hne, ln, -, hsub, hnew, hraised⟩
  · exact h
  obtain ⟨-, htgt, hstart⟩ := ranges_for_processing_procs hr hne
  -- every event of the batch is past the committed time of its process, and committed now
  have hbatch : ∀ e ∈ batch_events t.events (batch_range tgts ln),
      (t.commit_manager.committed_up_to e.proc).getD 0 < e.ts.ts ∧
        e.ts.ts ≤ (t'.commit_manager.committed_up_to e.proc).getD 0 := by
    intro e he
    obtain ⟨x, hx, hp, hlo, hhi⟩ := mem_batch_events hinv.events_proc he
    obtain ⟨y, hy, end_ev, hend, rfl⟩ := mem_batch_range hx
    obtain ⟨v, hv, hle⟩ := hnew y hy end_ev hend
    dsimp only at hp hlo hhi
    rw [hp, ← hstart y hy, hv]
    exact ⟨hlo, hhi.trans hle⟩
  have hsorted := batch_events_sorted hinv.events_proc
    (batch_range_sorted ln (htgt ▸ SortedMap.keys_sorted _))
  have hreg : ∀ p, registered t'.summaries p = registered t.summaries p ++
      (batch_events t.events (batch_range tgts ln)).filter (·.proc = p) := by
    intro p
    rw [registered, hsub, List.filter_append, registered]
  refine ⟨fun p => ?_, fun p e he => ?_⟩
  · rw [hreg, List.pairwise_append]
    refine ⟨h.sorted p, (hsorted.filter _).imp_of_mem fun ha hb hab =>
      hab ((of_decide_eq_true (List.mem_filter.1 ha).2).trans
        (of_decide_eq_true (List.mem_filter.1 hb).2).symm), fun a ha b hb => ?_⟩
    -- an event registered before is committed, and one of the batch is past that
    have hap : a.proc = p := of_decide_eq_true (List.mem_filter.1 ha).2
    have hbp : b.proc = p := of_decide_eq_true (List.mem_filter.1 hb).2
    have hats := h.committed p a ha
    have hbts := (hbatch b (List.mem_filter.1 hb).1).1
    rw [hbp] at hbts
    exact lt_of_not_ge fun hba => absurd (ts_le_of_le hbp hap hba) (by omega)
  · rw [hreg, List.mem_append] at he
    rcases he with he | he
    · exact (h.committed p e he).trans (hraised.getD_le p)
    · have hep : e.proc = p := of_decide_eq_true (List.mem_filter.1 he).2
      exact hep ▸ (hbatch e (List.mem_filter.1 he).1).2

/-- **Every call keeps the invariant.** -/
theorem step (hinv : TimelineInv t) (h : RegisteredInv t) {call : TimelineCall}
    (hstep : t.step call = .ok t') : RegisteredInv t' := by
  cases call with
  | add_event ev =>
    obtain rfl := pure_eq_ok_iff.1 hstep
    exact h.of_frame rfl rfl
  | have_events_before have_list =>
    obtain rfl := pure_eq_ok_iff.1 hstep
    exact h.of_frame rfl rfl
  | declare_window markers =>
    obtain rfl := pure_eq_ok_iff.1 hstep
    exact h.of_frame rfl rfl
  | tick => exact h.tick hinv hstep
  | clean_up_all_committed_before cleanup_markers =>
    obtain rfl := pure_eq_ok_iff.1 hstep
    exact h.of_frame (t.same_process_events_clean_up cleanup_markers)
      (by rw [(t.clean_up_all_committed_before_cleaned cleanup_markers).commit_manager])

end RegisteredInv

/-- **Every run tells the summaries the events of each process in order, once committed.**
    On every timeline a run reaches from a new one, the events registered on the timeline
    of each process are strictly increasing, and none is after the time the process is
    committed to.  So the summary manager, which links each event registered to the last
    one registered on its process, never finds it before that one, nor the same event
    twice. -/
theorem registered_in_order {clocks : ClockManager} {calls : List TimelineCall}
    {t : DynamicTimeline}
    (hrun : (DynamicTimeline.new (CommitManager.new clocks)).run calls = .ok t) (p : ℕ) :
    (registered t.summaries p).Pairwise (· < ·) ∧
      ∀ e ∈ registered t.summaries p, e.ts.ts ≤ (t.commit_manager.committed_up_to p).getD 0 := by
  have h := foldlM_inv (fun t => TimelineInv t ∧ RegisteredInv t)
    (fun _ _ _ _ hi hstep => ⟨step_inv hi.1 hstep, hi.2.step hi.1 hstep⟩)
    ⟨TimelineInv.new _, RegisteredInv.new _⟩ hrun
  exact ⟨h.2.sorted p, h.2.committed p⟩

/-- Two ticks, each over a packet that process `1` sends and process `2` receives, the second
    after the windows move on: each process is told its events of both ticks. -/
theorem registered_in_order_two_ticks :
    ∃ t : DynamicTimeline, (DynamicTimeline.new (CommitManager.new
        ⟨fun n => if n = 1 ∨ n = 2 then some ⟨0, 0⟩ else none, 1⟩)).run
      [.add_event ⟨⟨1000005, 1⟩, .PacketSend 0 2 0 1 false⟩,
        .add_event ⟨⟨6, 2⟩, .PacketReceive 0 1 0 1⟩,
        .have_events_before [(1, 1000007), (2, 1000007)],
        .declare_window [(1, 0, 1000007), (2, 0, 1000007)], .tick,
        .add_event ⟨⟨2000005, 1⟩, .PacketSend 1 2 0 2 false⟩,
        .add_event ⟨⟨1000006, 2⟩, .PacketReceive 1 1 0 2⟩,
        .have_events_before [(1, 2000007), (2, 2000007)],
        .declare_window [(1, 1000007, 2000007), (2, 1000007, 2000007)], .tick] = .ok t ∧
    ∀ p, (registered t.summaries p).Pairwise (· < ·) ∧
      ∀ e ∈ registered t.summaries p, e.ts.ts ≤ (t.commit_manager.committed_up_to p).getD 0 := by
  refine ⟨?_, ?hrun, fun p => registered_in_order ?hrun p⟩
  case hrun => rfl

end Abstraktor.Mediator
