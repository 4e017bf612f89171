/-
  What every timeline the calls reach keeps, and why phase 2 of a tick ends there
  (`DynamicTimeline`, src/mallory/mediator/src/history/timeline.rs).

  The source of every causal link is an event of a process with a watermark, and it is
  still in the timeline of its process unless it is not after the time that process is
  committed to (`TimelineInv`): a link is made only for an event walked in phase 1, a
  link given a target keeps its source, and an event is cleaned up only once it is
  committed.  Every call keeps it (`step_inv`), so every run from a new timeline does
  (`run_inv`).  At the start of phase 2 of a tick it gives the invariant of phase 2
  (`phaseTwoInv_start`), so that phase 2 ends (`phase_two_ends`).
-/
import Mathlib
import Abstraktor.Lib.Counter
import Abstraktor.Lib.SortedMap
import Abstraktor.Mediator.Event
import Abstraktor.Mediator.CommitManager
import Abstraktor.Mediator.Timeline
import Abstraktor.Mediator.PhaseTwo

namespace Abstraktor.Mediator

open LamportEvent Counter

/-- What every timeline the calls reach keeps: the events of a process are its own, and
    the source of every link is of a process with a watermark, and is still in its
    timeline unless it is not after the time its process is committed to. -/
structure TimelineInv (t : DynamicTimeline) : Prop where
  events_proc : ∀ p e, e ∈ t.events.members p → e.proc = p
  link_proc : ∀ i l, t.causal_links i = some l →
    l.source.proc ∈ t.commit_manager.have_all_events_before.keys
  link_source : ∀ i l, t.causal_links i = some l →
    l.source ∈ t.events.members l.source.proc ∨
      l.source.ts.ts ≤ (t.commit_manager.committed_up_to l.source.proc).getD 0

namespace TimelineInv

variable {t t' : DynamicTimeline}

theorem new (cm : CommitManager) : TimelineInv (DynamicTimeline.new cm) where
  events_proc _ _ he := absurd he List.not_mem_nil
  link_proc _ _ hl := by cases hl
  link_source _ _ hl := by cases hl

/-- A call that keeps the events of each process its own, drops events only once
    committed, drops links, adds processes with a watermark and raises committed times
    keeps the invariant. -/
theorem of_frame (h : TimelineInv t) (hproc : ∀ p e, e ∈ t'.events.members p → e.proc = p)
    (hkeep : ∀ p e, e ∈ t.events.members p →
      e ∈ t'.events.members p ∨ e.ts.ts ≤ (t'.commit_manager.committed_up_to p).getD 0)
    (hlinks : ∀ i l, t'.causal_links i = some l → t.causal_links i = some l)
    (hkeys : ∀ p ∈ t.commit_manager.have_all_events_before.keys,
      p ∈ t'.commit_manager.have_all_events_before.keys)
    (hcommit : ∀ p, (t.commit_manager.committed_up_to p).getD 0 ≤
      (t'.commit_manager.committed_up_to p).getD 0) : TimelineInv t' where
  events_proc := hproc
  link_proc i l hl := hkeys _ (h.link_proc i l (hlinks i l hl))
  link_source i l hl := by
    rcases h.link_source i l (hlinks i l hl) with hmem | hts
    · exact hkeep _ _ hmem
    · exact .inr (hts.trans (hcommit _))

theorem add_event (h : TimelineInv t) (ev : LamportEvent) : TimelineInv (t.add_event ev) := by
  refine h.of_frame (fun p e he => ?_) (fun p e he => .inl (SortedMap.mem_members_addTo.2 (.inr he)))
    (fun _ _ hl => hl) (fun _ hp => hp) (fun _ => le_rfl)
  rcases SortedMap.mem_members_addTo.1 he with ⟨rfl, rfl⟩ | he
  · rfl
  · exact h.events_proc p e he

theorem have_events_before (h : TimelineInv t) (have_list : List (ℕ × ℕ)) :
    TimelineInv { t with commit_manager := t.commit_manager.have_events_before have_list } :=
  h.of_frame h.events_proc (fun _ _ he => .inl he) (fun _ _ hl => hl)
    (fun _ hp => mem_keys_have_events_before hp) (fun _ => le_rfl)

theorem declare_window (h : TimelineInv t) (markers : List (ℕ × ℕ × ℕ)) :
    TimelineInv { t with commit_manager := t.commit_manager.declare_window markers } :=
  h.of_frame h.events_proc (fun _ _ he => .inl he) (fun _ _ hl => hl) (fun _ hp => hp)
    (fun _ => le_rfl)

end TimelineInv

/-! ## The clean-up -/

/-- What a clean-up keeps of `t`: the commit manager, the events but some that are
    committed, and the links but some. -/
structure CleanedFrom (t t' : DynamicTimeline) : Prop where
  commit_manager : t'.commit_manager = t.commit_manager
  events_sub : ∀ p e, e ∈ t'.events.members p → e ∈ t.events.members p
  events_kept : ∀ p e, e ∈ t.events.members p →
    e ∈ t'.events.members p ∨ e.ts.ts ≤ (t.commit_manager.committed_up_to p).getD 0
  links_sub : ∀ i l, t'.causal_links i = some l → t.causal_links i = some l

namespace CleanedFrom

variable {t t' t'' : DynamicTimeline}

theorem refl (t : DynamicTimeline) : CleanedFrom t t :=
  ⟨rfl, fun _ _ he => he, fun _ _ he => .inl he, fun _ _ hl => hl⟩

theorem trans (h : CleanedFrom t t') (h' : CleanedFrom t' t'') : CleanedFrom t t'' where
  commit_manager := h'.commit_manager.trans h.commit_manager
  events_sub p e he := h.events_sub p e (h'.events_sub p e he)
  events_kept p e he := by
    rcases h.events_kept p e he with he' | hts
    · rcases h'.events_kept p e he' with he'' | hts
      · exact .inl he''
      · rw [h.commit_manager] at hts
        exact .inr hts
    · exact .inr hts
  links_sub i l hl := h.links_sub i l (h'.links_sub i l hl)

theorem with_summaries (h : CleanedFrom t t') (summaries : List SummaryCall) :
    CleanedFrom t { t' with summaries } :=
  ⟨h.commit_manager, h.events_sub, h.events_kept, h.links_sub⟩

end CleanedFrom

/-- Dropping the links of some indices leaves links that were there. -/
theorem foldl_update_none {ids : List ℕ} :
    ∀ {links : ℕ → Option CausalLink} {i : ℕ} {l : CausalLink},
      ids.foldl (fun links id => Function.update links id none) links i = some l →
        links i = some l := by
  induction ids with
  | nil => exact fun h => h
  | cons id ids ih =>
    intro links i l h
    have h' := ih h
    dsimp only at h'
    by_cases hi : i = id
    · subst hi
      rw [Function.update_self] at h'
      cases h'
    · rwa [Function.update_of_ne hi] at h'

theorem DynamicTimeline.foldl_remove_causal_links_dependent_on (t : DynamicTimeline) :
    ∀ evs : List LamportEvent,
      CleanedFrom t (evs.foldl (fun t ev => t.remove_causal_links_dependent_on ev) t) := by
  intro evs
  induction evs generalizing t with
  | nil => exact .refl t
  | cons ev evs ih =>
    rw [List.foldl_cons]
    refine CleanedFrom.trans ?_ (ih _)
    exact ⟨rfl, fun _ _ he => he, fun _ _ he => .inl he, fun _ _ hl => foldl_update_none hl⟩

/-- **One marker of a clean-up** drops the events of its process before its time, with the
    links that depend on them: when the time is not after the committed time of the
    process, what it drops is committed. -/
theorem CleanedFrom.clean_up_marker {t : DynamicTimeline} {proc cleanup_ts : ℕ}
    {timeline : SortedMap LamportEvent Unit} (htl : t.events.get? proc = some timeline)
    (hts : cleanup_ts ≤ (t.commit_manager.committed_up_to proc).getD 0) :
    CleanedFrom t ((timeline.keys.takeWhile fun ev => ev.ts.ts < cleanup_ts).foldl
      (fun t ev => t.remove_causal_links_dependent_on ev)
      { t with
        events := t.events.insert proc ((timeline.keys.takeWhile fun ev =>
          ev.ts.ts < cleanup_ts).foldl (fun s ev => s.erase ev) timeline) }) := by
  refine CleanedFrom.trans ?_ (DynamicTimeline.foldl_remove_causal_links_dependent_on _ _)
  refine ⟨rfl, fun p e he => ?_, fun p e he => ?_, fun _ _ hl => hl⟩
  all_goals simp only [SortedMap.members_insert] at he ⊢
  · split_ifs at he with hp
    · subst hp
      simpa [SortedMap.members, htl] using ((SortedMap.mem_keys_foldl_erase _ _).1 he).2
    · exact he
  · split_ifs with hp
    · subst hp
      have he' : e ∈ timeline.keys := by simpa [SortedMap.members, htl] using he
      -- an event not kept was dropped, so it is before the time of the marker
      by_cases hrem : e ∈ timeline.keys.takeWhile fun ev => ev.ts.ts < cleanup_ts
      · have hlt := List.mem_takeWhile_imp hrem
        simp only [decide_eq_true_eq] at hlt
        exact .inr (by omega)
      · exact .inl ((SortedMap.mem_keys_foldl_erase _ _).2 ⟨hrem, he'⟩)
    · exact .inl he

/-- **A clean-up** drops only committed events: each marker's time is cut to the committed
    time of its process, and a marker of a process committed nowhere stops it all. -/
theorem DynamicTimeline.clean_up_all_committed_before_cleaned (t : DynamicTimeline)
    (cleanup_markers : List (ℕ × ℕ)) :
    CleanedFrom t (t.clean_up_all_committed_before cleanup_markers) := by
  unfold DynamicTimeline.clean_up_all_committed_before
  dsimp only
  split_ifs with hany hempty
  · exact .refl t
  -- the fold over the markers, and the call abandoning the events it cleaned
  all_goals try refine CleanedFrom.with_summaries ?_ _
  all_goals
    refine List.foldlRecOn (motive := fun acc : DynamicTimeline × List LamportEvent =>
      CleanedFrom t acc.1) _ _ (.refl t)
      fun acc hacc m hm => ?_
    -- every marker left is not after the committed time of its process
    obtain ⟨m, hm', rfl⟩ := List.mem_map.1 hm
    obtain ⟨c, hc⟩ : ∃ c, t.commit_manager.committed_up_to m.1 = some c := by
      simp only [List.any_eq_true, decide_eq_true_eq, not_exists, not_and] at hany
      exact Option.ne_none_iff_exists'.1 (hany m hm')
    have hts : min m.2 ((t.commit_manager.committed_up_to m.1).getD m.2) ≤
        (acc.1.commit_manager.committed_up_to m.1).getD 0 := by
      rw [hacc.commit_manager, hc]
      exact min_le_right _ _
    dsimp only
    split
    · rename_i timeline htl
      exact hacc.trans (CleanedFrom.clean_up_marker htl hts)
    · exact hacc

theorem TimelineInv.of_cleanedFrom {t t' : DynamicTimeline} (h : TimelineInv t)
    (hc : CleanedFrom t t') : TimelineInv t' :=
  h.of_frame (fun p e he => h.events_proc p e (hc.events_sub p e he))
    (fun p e he => by rw [hc.commit_manager]; exact hc.events_kept p e he) hc.links_sub
    (fun _ hp => by rw [hc.commit_manager]; exact hp) (fun _ => by rw [hc.commit_manager])

/-! ## Phase 1 -/

/-- A link set at an index is that link, and the other links are those that were there. -/
theorem eq_or_of_update_some {links : ℕ → Option CausalLink} {j i : ℕ} {link l : CausalLink}
    (h : Function.update links j (some link) i = some l) : links i = some l ∨ l = link := by
  by_cases hi : i = j
  · subst hi
    rw [Function.update_self, Option.some.injEq] at h
    exact .inr h.symm
  · rw [Function.update_of_ne hi] at h
    exact .inl h

namespace DynamicTimeline

/-- Tracking a link keeps the events and the commit manager, and only adds the link. -/
theorem track_causal_link_spec (t : DynamicTimeline) (key : EventMatchKey) (link : CausalLink) :
    (t.track_causal_link key link).1.events = t.events ∧
      (t.track_causal_link key link).1.commit_manager = t.commit_manager ∧
      ∀ i l, (t.track_causal_link key link).1.causal_links i = some l →
        t.causal_links i = some l ∨ l = link := by
  unfold track_causal_link
  split
  · exact ⟨rfl, rfl, fun _ _ hl => eq_or_of_update_some hl⟩
  · exact ⟨rfl, rfl, fun _ _ hl => eq_or_of_update_some hl⟩

/-- A send or the end of a window tracks a link under its key; another event changes
    nothing. -/
theorem track_link_sources_eq {t t' : DynamicTimeline} {ev : LamportEvent}
    {li : Option ℕ} (h : t.track_link_sources ev = .ok (t', li)) :
    t' = t ∨ ∃ key, t' = (t.track_causal_link key (CausalLink.new_dangling ev)).1 := by
  unfold DynamicTimeline.track_link_sources at h
  split at h
  rotate_left 2
  · exact .inl (Prod.mk.inj (pure_eq_ok_iff.1 h)).1.symm
  -- a send, or the end of a window: a link under its key, or a panic
  all_goals
    dsimp only at h
    split at h
    · split_ifs at h
      · cases h
      · exact .inr ⟨_, (Prod.mk.inj (pure_eq_ok_iff.1 h)).1.symm⟩
    · cases h

/-- Tracking the sources of an event keeps the events and the commit manager, and the
    links it adds have the event as their source. -/
theorem track_link_sources_spec {t t' : DynamicTimeline} {ev : LamportEvent}
    {li : Option ℕ} (h : t.track_link_sources ev = .ok (t', li)) :
    t'.events = t.events ∧ t'.commit_manager = t.commit_manager ∧
      ∀ i l, t'.causal_links i = some l → t.causal_links i = some l ∨ l.source = ev := by
  rcases track_link_sources_eq h with rfl | ⟨key, rfl⟩
  · exact ⟨rfl, rfl, fun _ _ hl => .inl hl⟩
  · obtain ⟨hev, hcm, hlinks⟩ := t.track_causal_link_spec key (CausalLink.new_dangling ev)
    refine ⟨hev, hcm, fun i l hl => ?_⟩
    rcases hlinks i l hl with hl | rfl
    · exact .inl hl
    · exact .inr rfl

/-- **Phase 1** keeps the events and the commit manager, finds the timeline of every
    process with a source range, and adds links only for events of those timelines. -/
theorem phase_one_spec {t t₁ : DynamicTimeline} {source_proc_ranges : List (ℕ × ℕ × ℕ)}
    {links : List ℕ} (h : t.phase_one source_proc_ranges = .ok (t₁, links)) :
    t₁.events = t.events ∧ t₁.commit_manager = t.commit_manager ∧
      (∀ r ∈ source_proc_ranges, (t.events.get? r.1).isSome) ∧
      ∀ i l, t₁.causal_links i = some l →
        t.causal_links i = some l ∨ ∃ r ∈ source_proc_ranges, l.source ∈ t.events.members r.1 := by
  -- what the states of both loops keep
  let P : DynamicTimeline × List ℕ → Prop := fun acc =>
    acc.1.events = t.events ∧ acc.1.commit_manager = t.commit_manager ∧
      ∀ i l, acc.1.causal_links i = some l →
        t.causal_links i = some l ∨ ∃ r ∈ source_proc_ranges, l.source ∈ t.events.members r.1
  have hfold := foldlM_inv_step P (fun acc r acc' hr hP hacc' => ?_) ⟨rfl, rfl, fun _ _ hl => .inl hl⟩ h
  · obtain ⟨⟨hev, hcm, hlinks⟩, hsteps⟩ := hfold
    refine ⟨hev, hcm, fun r hr => ?_, hlinks⟩
    -- each range found the timeline of its process
    obtain ⟨acc, acc', hP, hacc⟩ := hsteps r hr
    obtain ⟨timeline, htl, -⟩ := bind_eq_ok_iff.1 hacc
    rw [← hP.1, timeline_eq_ok_iff.1 htl]
    rfl
  -- a range: the events walked are those of the timeline of its process
  obtain ⟨proc, lc, se⟩ := r
  obtain ⟨hev, hcm, hlinks⟩ := hP
  obtain ⟨timeline, htl, hacc'⟩ := bind_eq_ok_iff.1 hacc'
  obtain ⟨evs, hevs, hinner⟩ := bind_eq_ok_iff.1 hacc'
  have hmem : ∀ ev ∈ evs, ev ∈ t.events.members proc := fun ev hev' => by
    rw [← hev, SortedMap.members_of_get? (timeline_eq_ok_iff.1 htl)]
    exact (mem_of_range_oc hevs hev').1
  refine foldlM_inv P (fun acc₁ ev acc₂ hev' hP h₂ => ?_) ⟨hev, hcm, hlinks⟩ hinner
  obtain ⟨_, -, h₂⟩ := bind_eq_ok_iff.1 h₂
  obtain ⟨⟨t₂, li⟩, htrack, h₂⟩ := bind_eq_ok_iff.1 h₂
  obtain rfl := pure_eq_ok_iff.1 h₂
  obtain ⟨hev₂, hcm₂, hlinks₂⟩ := track_link_sources_spec htrack
  refine ⟨hev₂.trans hP.1, hcm₂.trans hP.2.1, fun i l hl => ?_⟩
  rcases hlinks₂ i l hl with hl | rfl
  · exact hP.2.2 i l hl
  · exact .inr ⟨(proc, lc, se), hr, hmem _ hev'⟩

/-- The last event of each target range is an event of the timeline of its process, past
    the committed time the range starts at. -/
theorem initial_last_needed_spec {t : DynamicTimeline} {target_proc_ranges : List (ℕ × ℕ × ℕ)}
    {ln : SortedMap ℕ LamportEvent} (h : t.initial_last_needed target_proc_ranges = .ok ln) :
    ∀ p e, ln.get? p = some e → ∃ r ∈ target_proc_ranges, r.1 = p ∧
      e ∈ t.events.members p ∧ last_ev_at ⟨r.2.1, p⟩ < e := by
  refine foldlM_inv (fun ln : SortedMap ℕ LamportEvent => ∀ p e, ln.get? p = some e →
      ∃ r ∈ target_proc_ranges, r.1 = p ∧ e ∈ t.events.members p ∧ last_ev_at ⟨r.2.1, p⟩ < e)
    (fun ln r ln' hr hP hln' => ?_) (fun _ _ he => by cases he) h
  obtain ⟨proc, lc, te⟩ := r
  obtain ⟨timeline, htl, hln'⟩ := bind_eq_ok_iff.1 hln'
  obtain ⟨evs, hevs, hln'⟩ := bind_eq_ok_iff.1 hln'
  obtain rfl := pure_eq_ok_iff.1 hln'
  intro p e he
  cases hlast : evs.getLast? with
  | none =>
    rw [hlast] at he
    exact hP p e he
  | some last =>
    rw [hlast] at he
    by_cases hp : p = proc
    · -- the new entry: the last event of the range
      subst hp
      rw [SortedMap.get?_insert_self, Option.some.injEq] at he
      subst he
      obtain ⟨hmem, hlo, -⟩ := mem_of_range_oc hevs (List.mem_of_getLast? hlast)
      exact ⟨(p, lc, te), hr, rfl,
        by rw [SortedMap.members_of_get? (timeline_eq_ok_iff.1 htl)]; exact hmem, hlo⟩
    · rw [SortedMap.get?_insert_ne _ _ hp] at he
      exact hP p e he

end DynamicTimeline

/-- Where each process resumes at the start of phase 2: after the last event at the time
    its target range starts, when every range of a process starts at the same time. -/
theorem get?_initial_resume_with {target_proc_ranges : List (ℕ × ℕ × ℕ)} {C : ℕ → ℕ}
    (hC : ∀ r ∈ target_proc_ranges, r.2.1 = C r.1) (p : ℕ) :
    (initial_resume_with target_proc_ranges).get? p =
      if p ∈ target_proc_ranges.map (·.1) then some (last_ev_at ⟨C p, p⟩) else none := by
  -- the fold from any map
  have hfold : ∀ (l : List (ℕ × ℕ × ℕ)) (m : SortedMap ℕ LamportEvent),
      (∀ r ∈ l, r.2.1 = C r.1) →
      (l.foldl (fun resume_with r => resume_with.insert r.1 (last_ev_at ⟨r.2.1, r.1⟩)) m).get? p =
        if p ∈ l.map (·.1) then some (last_ev_at ⟨C p, p⟩) else m.get? p := by
    intro l
    induction l with
    | nil => simp
    | cons r l ih =>
      intro m hl
      obtain ⟨proc, lc, te⟩ := r
      rw [List.foldl_cons, ih _ fun r hr => hl r (List.mem_cons_of_mem _ hr)]
      have hlc : lc = C proc := hl (proc, lc, te) List.mem_cons_self
      by_cases hp : p = proc
      · subst hp
        simp [hlc]
      · rw [SortedMap.get?_insert_ne _ _ hp]
        simp only [List.map_cons, List.mem_cons, hp, false_or]
  exact hfold target_proc_ranges SortedMap.empty hC

/-! ## The start of phase 2 -/

/-- **The invariant of phase 2 holds at its start.**  On a timeline with the invariant, when
    a batch has ranges: the processes of phase 2 are those with a watermark, each has a
    timeline and resumes after its committed time, the last event of each target range is
    an event of its timeline past that time, and every link has its source in its
    timeline, or not after the committed time of its process. -/
theorem phaseTwoInv_start {t t₁ : DynamicTimeline} (h : TimelineInv t)
    {ranges : List (ℕ × ℕ × ℕ) × List (ℕ × ℕ × ℕ)}
    (hr : t.commit_manager.ranges_for_processing = .ok ranges) (hne : ranges.2 ≠ [])
    {links : List ℕ} (h₁ : t.phase_one ranges.1 = .ok (t₁, links))
    {ln : SortedMap ℕ LamportEvent} (hln : t₁.initial_last_needed ranges.2 = .ok ln) :
    PhaseTwoInv (ranges.1.map (·.1)) ⟨t₁, ln, initial_resume_with ranges.2⟩ := by
  obtain ⟨hsrc, htgt, hstart⟩ := ranges_for_processing_procs hr hne
  obtain ⟨hev, -, htls, hlinks⟩ := DynamicTimeline.phase_one_spec h₁
  have hprocs : ∀ p, p ∈ ranges.2.map (·.1) ↔ p ∈ ranges.1.map (·.1) := by
    intro p
    rw [hsrc, htgt]
  -- each process resumes after the last event at its committed time
  have hres := get?_initial_resume_with
    (C := fun p => (t.commit_manager.committed_up_to p).getD 0) hstart
  have hres_of : ∀ p ∈ ranges.1.map (·.1), (initial_resume_with ranges.2).get? p =
      some (last_ev_at ⟨(t.commit_manager.committed_up_to p).getD 0, p⟩) := fun p hp => by
    rw [hres p, if_pos ((hprocs p).2 hp)]
  refine ⟨fun p hp => ?_, fun p e he => h.events_proc p e (hev ▸ he), fun p hp => ?_,
    fun p r hr' => ?_, fun p e he => ?_, fun i l hl => ?_⟩
  · obtain ⟨r, hr', rfl⟩ := List.mem_map.1 hp
    rw [hev]
    exact htls r hr'
  · rw [hres_of p hp]
    rfl
  · rw [hres p] at hr'
    split_ifs at hr'
    cases hr'
    rfl
  · -- the last event of a target range
    obtain ⟨r, hrm, rfl, hmem, hlt⟩ := DynamicTimeline.initial_last_needed_spec hln p e he
    have hp : r.1 ∈ ranges.1.map (·.1) := (hprocs _).1 (List.mem_map_of_mem hrm)
    rw [hstart r hrm] at hlt
    exact ⟨hp, _, hres_of r.1 hp, hlt.le, .inr hmem⟩
  · rcases hlinks i l hl with hold | ⟨r, hrm, hmem⟩
    · -- a link of an earlier batch
      have hp : l.source.proc ∈ ranges.1.map (·.1) := hsrc ▸ h.link_proc i l hold
      refine ⟨hp, ?_⟩
      rcases h.link_source i l hold with hmem | hts
      · exact .inl (hev ▸ hmem)
      · exact .inr ⟨_, hres_of _ hp, (le_last_ev_at_iff rfl).2 hts⟩
    · -- a link of phase 1, from an event of a source range
      have hproc : l.source.proc = r.1 := h.events_proc r.1 _ hmem
      refine ⟨hproc ▸ List.mem_map_of_mem hrm, .inl ?_⟩
      rw [hev, hproc]
      exact hmem

/-! ## A tick, and every call -/

/-- Submitting a batch only logs calls to the summaries. -/
theorem DynamicTimeline.submit_to_summariser_eq {t t' : DynamicTimeline} {processes : List ℕ}
    {batch_range : List (ℕ × ℕ × ℕ)} {source_links_this_run : List ℕ}
    {last_needed_ev : SortedMap ℕ LamportEvent}
    (h : t.submit_to_summariser processes batch_range source_links_this_run last_needed_ev = .ok t') :
    ∃ summaries, t' = { t with summaries } := by
  obtain ⟨_, -, h⟩ := bind_eq_ok_iff.1 h
  obtain ⟨summaries, -, h⟩ := bind_eq_ok_iff.1 h
  exact ⟨summaries, (pure_eq_ok_iff.1 h).symm⟩

/-- Where a process resumes at the end of phase 2 is not after the time the tick commits
    it to: its last needed event, or, with none, the end of its target range, which is not
    before the committed time it resumed after. -/
theorem resume_ts_le_commit {t : DynamicTimeline} {ranges : List (ℕ × ℕ × ℕ) × List (ℕ × ℕ × ℕ)}
    (hr : t.commit_manager.ranges_for_processing = .ok ranges) (hne : ranges.2 ≠ [])
    {s₀ s : PhaseTwo} (hs₀ : s₀.resume_with = initial_resume_with ranges.2) (hlater : Later s₀ s)
    (hdone : ∀ p e, s.last_needed_ev.get? p = some e → s.resume_with.get? p = some e)
    {x : ℕ × ℕ × ℕ} (hx : x ∈ ranges.2) {r : LamportEvent} (hres : s.resume_with.get? x.1 = some r) :
    r.ts.ts ≤ match s.last_needed_ev.get? x.1 with
      | some last_ev => last_ev.ts.ts
      | none => x.2.2 := by
  split
  · rename_i e he
    rw [hdone _ e he, Option.some.injEq] at hres
    rw [hres]
  · rename_i hnone
    -- the process resumes where it did at the start, after its committed time
    obtain ⟨-, htgt, hstart⟩ := ranges_for_processing_procs hr hne
    rw [hlater.frame _ hnone, hs₀,
      get?_initial_resume_with (C := fun p => (t.commit_manager.committed_up_to p).getD 0) hstart,
      if_pos (List.mem_map_of_mem hx), Option.some.injEq] at hres
    rw [← hres, ← hstart x hx]
    exact ((ranges_for_processing_targets hr).2 x hx).trans' (hstart x hx).le

/-- **A tick keeps the invariant.**  Phase 1 adds links from events of the timelines, phase 2
    keeps their sources, and the commit puts every source phase 2 did not walk past at or
    before the new committed time of its process. -/
theorem TimelineInv.tick {t t' : DynamicTimeline} (h : TimelineInv t)
    (htick : t.construct_causal_links_and_commit_batch = .ok t') : TimelineInv t' := by
  unfold DynamicTimeline.construct_causal_links_and_commit_batch at htick
  obtain ⟨⟨srcs, tgts⟩, hr, htick⟩ := bind_eq_ok_iff.1 htick
  rw [mapError_eq_ok_iff] at hr
  dsimp only at htick
  split_ifs at htick with hchanged
  · -- nothing past the committed times: the timeline stays
    rw [← pure_eq_ok_iff.1 htick]
    exact h
  obtain ⟨⟨t₁, links⟩, h₁, htick⟩ := bind_eq_ok_iff.1 htick
  obtain ⟨ln, hln, htick⟩ := bind_eq_ok_iff.1 htick
  obtain ⟨s, hs, htick⟩ := bind_eq_ok_iff.1 htick
  obtain ⟨t₂, ht₂, htick⟩ := bind_eq_ok_iff.1 htick
  obtain ⟨⟨cm, b⟩, hcm, htick⟩ := bind_eq_ok_iff.1 htick
  rw [mapError_eq_ok_iff] at hcm
  obtain rfl := pure_eq_ok_iff.1 htick
  have hne : tgts ≠ [] := by
    rintro rfl
    simp at hchanged
  obtain ⟨hsrc, htgt, -⟩ := ranges_for_processing_procs hr hne
  obtain ⟨hev₁, hcm₁, -, -⟩ := DynamicTimeline.phase_one_spec h₁
  have hfuel : (all_events t₁.events).length < t₁.num_events + 1 := by
    rw [num_events_eq]
    exact Nat.lt_succ_self _
  -- phase 2 ends, since the tick went on
  rcases phase_two_spec (phaseTwoInv_start h hr hne h₁ hln) hfuel with
    ⟨s', hs', hinv, hlater, hdone⟩ | herr
  rotate_left
  · rw [herr] at hs
    cases hs
  rw [hs'] at hs
  cases hs
  obtain ⟨summaries, rfl⟩ := DynamicTimeline.submit_to_summariser_eq ht₂
  obtain ⟨cu, hfold, rfl⟩ := commit_eq hcm
  have hev : s.tl.events = t.events := hlater.events.trans hev₁
  have hkeys : s.tl.commit_manager.have_all_events_before = t.commit_manager.have_all_events_before := by
    rw [hlater.commit_manager, hcm₁]
  refine ⟨fun p e he => h.events_proc p e (hev ▸ he), fun i l hl => ?_, fun i l hl => ?_⟩
  · have hp := (hinv.sources i l hl).1
    rw [hsrc] at hp
    show l.source.proc ∈ s.tl.commit_manager.have_all_events_before.keys
    rw [hkeys]
    exact hp
  · obtain ⟨hp, hmem | ⟨r, hres, hle⟩⟩ := hinv.sources i l hl
    · exact .inl (hev ▸ hmem)
    · -- a source not walked past: committed now
      refine .inr ?_
      have hp' : l.source.proc ∈ tgts.map (·.1) := (htgt.trans hsrc.symm) ▸ hp
      obtain ⟨x, hx, hxp⟩ := List.mem_map.1 hp'
      obtain ⟨v, hv, hle'⟩ := foldlM_commit_entry_ge hfold _ (List.mem_map_of_mem (f := fun x =>
        (x.1, match s.last_needed_ev.get? x.1 with
          | some last_ev => last_ev.ts.ts
          | none => x.2.2)) hx)
      dsimp only at hv hle'
      have hrts := resume_ts_le_commit hr hne rfl hlater hdone hx (hxp ▸ hres)
      have hsrc_le : l.source.ts.ts ≤ r.ts.ts := ts_le_of_le rfl (hinv.resume_proc _ r hres) hle
      show l.source.ts.ts ≤ (cu l.source.proc).getD 0
      rw [← hxp, hv]
      exact hsrc_le.trans (hrts.trans hle')

/-- **Every call keeps the invariant.** -/
theorem step_inv {t t' : DynamicTimeline} (h : TimelineInv t) {call : TimelineCall}
    (hstep : t.step call = .ok t') : TimelineInv t' := by
  cases call with
  | add_event ev =>
    obtain rfl := pure_eq_ok_iff.1 hstep
    exact h.add_event ev
  | have_events_before have_list =>
    obtain rfl := pure_eq_ok_iff.1 hstep
    exact h.have_events_before have_list
  | declare_window markers =>
    obtain rfl := pure_eq_ok_iff.1 hstep
    exact h.declare_window markers
  | tick => exact h.tick hstep
  | clean_up_all_committed_before cleanup_markers =>
    obtain rfl := pure_eq_ok_iff.1 hstep
    exact h.of_cleanedFrom (t.clean_up_all_committed_before_cleaned cleanup_markers)

/-- **Every timeline a run reaches from a new one has the invariant.** -/
theorem run_inv {clocks : ClockManager} {calls : List TimelineCall} {t : DynamicTimeline}
    (hrun : (DynamicTimeline.new (CommitManager.new clocks)).run calls = .ok t) :
    TimelineInv t :=
  foldlM_inv TimelineInv (fun _ _ _ _ hi hstep => step_inv hi hstep) (TimelineInv.new _) hrun

/-! ## Phase 2 of a tick ends -/

/-- **Phase 2 of a tick ends.**  On any timeline a run reaches from a new one, when a tick
    goes on to phase 2: every state its turns reach, in any order of the processes, has
    each last needed event not before where its process resumes, and an event of its
    timeline unless the process is done; a turn on a process not done moves where it
    resumes strictly forward, to an event of its timeline, or panics for a target whose
    source is not known; and phase 2 ends within its turns with every process resumed at
    its last needed event, or with that panic.  So it never walks a range backwards, runs
    out of turns or finds a process with nowhere to resume. -/
theorem phase_two_ends {clocks : ClockManager} {calls : List TimelineCall} {t : DynamicTimeline}
    (hrun : (DynamicTimeline.new (CommitManager.new clocks)).run calls = .ok t)
    {ranges : List (ℕ × ℕ × ℕ) × List (ℕ × ℕ × ℕ)}
    (hr : t.commit_manager.ranges_for_processing = .ok ranges)
    (hchanged : (ranges.2.any fun r => r.2.1 < r.2.2) = true)
    {t₁ : DynamicTimeline} {links : List ℕ} (h₁ : t.phase_one ranges.1 = .ok (t₁, links))
    {ln : SortedMap ℕ LamportEvent} (hln : t₁.initial_last_needed ranges.2 = .ok ln) :
    (∀ s, TurnReach (ranges.1.map (·.1)) ⟨t₁, ln, initial_resume_with ranges.2⟩ s →
      PhaseTwoInv (ranges.1.map (·.1)) s ∧
      ∀ p tl, s.tl.events.get? p = some tl →
        done_with_proc p s.resume_with s.last_needed_ev = .ok false →
        (∃ s', phase_two_turn p tl s = .ok s' ∧ ∃ a b, s.resume_with.get? p = some a ∧
          s'.resume_with.get? p = some b ∧ a < b ∧ b ∈ s.tl.events.members p) ∨
        phase_two_turn p tl s = .error .target_without_source) ∧
    ((∃ s, phase_two (ranges.1.map (·.1)) (t₁.num_events + 1)
        ⟨t₁, ln, initial_resume_with ranges.2⟩ = .ok s ∧
        ∀ p e, s.last_needed_ev.get? p = some e → s.resume_with.get? p = some e) ∨
      phase_two (ranges.1.map (·.1)) (t₁.num_events + 1) ⟨t₁, ln, initial_resume_with ranges.2⟩ =
        .error .target_without_source) := by
  have hne : ranges.2 ≠ [] := by
    rintro hnil
    rw [hnil] at hchanged
    cases hchanged
  have hstart := phaseTwoInv_start (run_inv hrun) hr hne h₁ hln
  refine ⟨fun s hs => ?_, ?_⟩
  · have hinv := hs.inv hstart
    refine ⟨hinv, fun p tl htl hd => ?_⟩
    rcases phase_two_turn_spec hinv htl hd with ⟨s', hturn, -, -, -, hmove⟩ | herr
    · exact .inl ⟨s', hturn, hmove⟩
    · exact .inr herr
  · have hfuel : (all_events t₁.events).length < t₁.num_events + 1 := by
      rw [num_events_eq]
      exact Nat.lt_succ_self _
    rcases phase_two_spec hstart hfuel with ⟨s, hs, -, -, hdone⟩ | herr
    · exact .inl ⟨s, hs, hdone⟩
    · exact .inr herr

/-- Process `1` sends a packet to process `2`, which receives it: phase 2 of the tick
    walks up to the receive, and then to its send. -/
theorem phase_two_ends_send_receive :
    ∃ (t : DynamicTimeline) (ranges : List (ℕ × ℕ × ℕ) × List (ℕ × ℕ × ℕ))
      (t₁ : DynamicTimeline) (links : List ℕ) (ln : SortedMap ℕ LamportEvent),
    (DynamicTimeline.new (CommitManager.new
        ⟨fun n => if n = 1 ∨ n = 2 then some ⟨0, 0⟩ else none, 1⟩)).run
      [.add_event ⟨⟨1000005, 1⟩, .PacketSend 0 2 0 1 false⟩,
        .add_event ⟨⟨6, 2⟩, .PacketReceive 0 1 0 1⟩,
        .have_events_before [(1, 1000007), (2, 1000007)],
        .declare_window [(1, 0, 1000007), (2, 0, 1000007)]] = .ok t ∧
    t.commit_manager.ranges_for_processing = .ok ranges ∧
    (ranges.2.any fun r => r.2.1 < r.2.2) = true ∧
    t.phase_one ranges.1 = .ok (t₁, links) ∧ t₁.initial_last_needed ranges.2 = .ok ln ∧
    (∀ s, TurnReach (ranges.1.map (·.1)) ⟨t₁, ln, initial_resume_with ranges.2⟩ s →
      PhaseTwoInv (ranges.1.map (·.1)) s ∧
      ∀ p tl, s.tl.events.get? p = some tl →
        done_with_proc p s.resume_with s.last_needed_ev = .ok false →
        (∃ s', phase_two_turn p tl s = .ok s' ∧ ∃ a b, s.resume_with.get? p = some a ∧
          s'.resume_with.get? p = some b ∧ a < b ∧ b ∈ s.tl.events.members p) ∨
        phase_two_turn p tl s = .error .target_without_source) ∧
    ((∃ s, phase_two (ranges.1.map (·.1)) (t₁.num_events + 1)
        ⟨t₁, ln, initial_resume_with ranges.2⟩ = .ok s ∧
        ∀ p e, s.last_needed_ev.get? p = some e → s.resume_with.get? p = some e) ∨
      phase_two (ranges.1.map (·.1)) (t₁.num_events + 1) ⟨t₁, ln, initial_resume_with ranges.2⟩ =
        .error .target_without_source) := by
  -- the run and each step of the tick up to phase 2, evaluated
  refine ⟨?_, ?_, ?_, ?_, ?_, ?hrun, ?hr, ?hchanged, ?h₁, ?hln,
    phase_two_ends ?hrun ?hr ?hchanged ?h₁ ?hln⟩
  case hrun => rfl
  case hr => rfl
  case hchanged => rfl
  case h₁ => rfl
  case hln => rfl

/-- A collation of summaries on process `1` whose window's end was never seen: phase 2
    walks it as the last event of the target range of `1`, finds no link for the window's
    end on `1`, and panics, where the outer loop never reaches `done_with_all`. -/
theorem phase_two_collation_without_window_end :
    ∃ (t : DynamicTimeline) (ranges : List (ℕ × ℕ × ℕ) × List (ℕ × ℕ × ℕ))
      (t₁ : DynamicTimeline) (links : List ℕ) (ln : SortedMap ℕ LamportEvent),
    (DynamicTimeline.new (CommitManager.new
        ⟨fun n => if n = 1 then some ⟨0, 0⟩ else none, 1⟩)).run
      [.add_event ⟨⟨5, 1⟩, .TimelineEvent (.CollateSummaries ⟨0, 0, .Noop, 0, 0, none, 0⟩)⟩,
        .have_events_before [(1, 1000007)], .declare_window [(1, 0, 1000007)]] = .ok t ∧
    t.commit_manager.ranges_for_processing = .ok ranges ∧
    (ranges.2.any fun r => r.2.1 < r.2.2) = true ∧
    t.phase_one ranges.1 = .ok (t₁, links) ∧ t₁.initial_last_needed ranges.2 = .ok ln ∧
    phase_two (ranges.1.map (·.1)) (t₁.num_events + 1) ⟨t₁, ln, initial_resume_with ranges.2⟩ =
      .error .target_without_source :=
  ⟨_, _, _, _, _, rfl, rfl, rfl, rfl, rfl, rfl⟩

end Abstraktor.Mediator
