/-
  The traversal of the timeline graph that builds the summaries
  (`SummaryManager::process_worklist`, src/mallory/mediator/src/feedback/summary.rs).

  The worklist starts with the nodes whose dependencies are all summarised.  An event
  taken from it starts from the summary of the event of its own process that it
  depends on, moved when it is the last event depending on it and copied otherwise,
  or from a new summary; it merges in the summaries of the events of other processes
  it depends on, removing each dependency, and a dependency no event depends on any
  more is removed with its summary; its own event updates its summary, which is
  finalised; then the events depending on it that have become ready join the
  worklist.

  * `summarise_event_spec`: summarising a ready event panics only for want of a
    cumulative summary, and otherwise summarises it and only removes nodes, edges and
    summaries in the ways `Shrinks` allows;
  * `TraversalInv` is kept by every turn (`traversal_turn_inv`);
  * `process_worklist_topological`: on a graph without cycles in which no event
    depends on two events of its own process, the traversal ends; it takes every
    event at most once and after the events it depends on, and leaves no event ready.
-/
import Mathlib
import Abstraktor.Lib.Counter
import Abstraktor.Feedback.Summary
import Abstraktor.Feedback.TimelineGraph

namespace Abstraktor.Feedback

open Abstraktor.Mediator Counter

namespace SummaryManager

variable {T R : Type} (P : SummaryProducer T) (reward_function : SummaryTask → T → T → T → R)

/-! ## One event -/

/-- (1a) and (1b): the summary of the event of the same process that `our_event`
    depends on, moved when `our_event` is the last event depending on it and copied
    otherwise, and the dependency removed. -/
def take_predecessor (m : SummaryManager T) (pred_ev our_event : LamportEvent) :
    Except ManagerPanic (SummaryManager T) := do
  let done_with_pred := (m.timeline.outgoing pred_ev).length = 1
  let summaries ← (if done_with_pred then m.summaries.take_ownership pred_ev our_event
    else m.summaries.copy pred_ev our_event).mapError .summary
  pure ({ m with summaries }.remove_dependency pred_ev our_event)

/-- (2a) and (2b): the summary of an event of another process merged in, and the
    dependency removed. -/
def merge_dependency (our_event : LamportEvent) (m : SummaryManager T) (dep_event : LamportEvent) :
    Except ManagerPanic (SummaryManager T) := do
  let summaries ← (m.summaries.merge_into P dep_event our_event).mapError .summary
  pure ({ m with summaries }.remove_dependency dep_event our_event)

/-- (1): the summary of `our_event` started from that of the one event of its own
    process it depends on, or from a new summary when there is none. -/
def start_summary (m : SummaryManager T) (our_event : LamportEvent) :
    List LamportEvent → Except ManagerPanic (SummaryManager T)
  | [] => pure { m with summaries := m.summaries.init_summary P our_event }
  | [pred_ev] => m.take_predecessor pred_ev our_event
  | _ => throw .same_process_dependencies

/-- Steps (1) to (3) of a turn of `process_worklist`: the summary of `our_event` built
    from those of its dependencies, updated with `our_event` and finalised, with the
    reward reported to the nemesis. -/
def summarise_event (m : SummaryManager T) (our_event : LamportEvent) :
    Except ManagerPanic (SummaryManager T × Option R) := do
  if our_event = EVENT_AT_INFINITY then throw .event_at_infinity
  if m.is_at_infinity our_event then throw .end_of_process
  let dependencies := m.timeline.incoming our_event
  if !dependencies.all m.is_summarised then throw .dependency_not_summarised
  let same_proc_dependencies := dependencies.filter fun ev => our_event.proc = ev.proc
  let m ← m.start_summary P our_event same_proc_dependencies
  let inter_proc_dependencies := dependencies.filter fun ev => our_event.proc ≠ ev.proc
  let m ← inter_proc_dependencies.foldlM (merge_dependency P our_event) m
  let summaries ← (m.summaries.update P our_event).mapError .summary
  let (summaries, reward) ←
    (summaries.finalise_and_report_reward P reward_function our_event).mapError .summary
  pure ({ m with summaries }, reward)

/-- (4): the events depending on `our_event` that can now be summarised. -/
def dependents_ready (m : SummaryManager T) (our_event : LamportEvent) : List LamportEvent :=
  (m.timeline.outgoing our_event).filter m.ready

end SummaryManager

/-! ## What summarising an event does to the manager -/

namespace SummaryManager

variable {T R : Type} (P : SummaryProducer T) (reward_function : SummaryTask → T → T → T → R)

/-- What summarising `x` may do to the manager: nodes and edges are only removed; an
    edge to another event than `x` between nodes that stay, stays; a node removed was
    summarised, and its edges went to `x` or to nodes removed too; no summary but that
    of `x` is added, and the nodes that stay keep theirs. -/
structure Shrinks (x : LamportEvent) (m m' : SummaryManager T) : Prop where
  end_node : m'.end_node = m.end_node
  keeps : x ∈ m.timeline.nodes → x ∈ m'.timeline.nodes
  nodes_sub : ∀ y ∈ m'.timeline.nodes, y ∈ m.timeline.nodes
  edges_sub : ∀ e ∈ m'.timeline.edges, e ∈ m.timeline.edges
  edges_kept : ∀ e ∈ m.timeline.edges, e.2 ≠ x → e.1 ∈ m'.timeline.nodes →
    e.2 ∈ m'.timeline.nodes → e ∈ m'.timeline.edges
  removed_summarised : ∀ y ∈ m.timeline.nodes, y ∉ m'.timeline.nodes → m.is_summarised y
  removed_edges : ∀ y ∈ m.timeline.nodes, y ∉ m'.timeline.nodes → ∀ z,
    (y, z) ∈ m.timeline.edges → z = x ∨ z ∉ m'.timeline.nodes
  summarised_sub : ∀ y, y ≠ x → m'.is_summarised y → m.is_summarised y
  summarised_kept : ∀ y ∈ m'.timeline.nodes, y ≠ x → m.is_summarised y → m'.is_summarised y

variable {x : LamportEvent} {m m₁ m₂ : SummaryManager T}

theorem Shrinks.refl (m : SummaryManager T) : Shrinks x m m :=
  ⟨rfl, id, fun _ h => h, fun _ h => h, fun _ h _ _ _ => h, fun _ h h' => absurd h h',
    fun _ h h' => absurd h h', fun _ _ h => h, fun _ _ _ h => h⟩

theorem Shrinks.trans (h₁ : Shrinks x m m₁) (h₂ : Shrinks x m₁ m₂) : Shrinks x m m₂ where
  end_node := h₂.end_node.trans h₁.end_node
  keeps hx := h₂.keeps (h₁.keeps hx)
  nodes_sub y hy := h₁.nodes_sub y (h₂.nodes_sub y hy)
  edges_sub e he := h₁.edges_sub e (h₂.edges_sub e he)
  edges_kept e he hx h₁' h₂' :=
    h₂.edges_kept e (h₁.edges_kept e he hx (h₂.nodes_sub _ h₁') (h₂.nodes_sub _ h₂')) hx h₁' h₂'
  removed_summarised y hy hy₂ := by
    by_cases hy₁ : y ∈ m₁.timeline.nodes
    · -- removed by the second step; `x` is never removed
      have hyx : y ≠ x := by
        rintro rfl
        exact hy₂ (h₂.keeps hy₁)
      exact h₁.summarised_sub y hyx (h₂.removed_summarised y hy₁ hy₂)
    · exact h₁.removed_summarised y hy hy₁
  removed_edges y hy hy₂ z hz := by
    by_cases hy₁ : y ∈ m₁.timeline.nodes
    · by_cases hz₁ : z ∈ m₁.timeline.nodes
      · by_cases hzx : z = x
        · exact .inl hzx
        · -- the edge stays after the first step, and the second one removes `y`
          exact h₂.removed_edges y hy₁ hy₂ z (h₁.edges_kept _ hz hzx hy₁ hz₁)
      · exact .inr fun h => hz₁ (h₂.nodes_sub z h)
    · rcases h₁.removed_edges y hy hy₁ z hz with h | h
      · exact .inl h
      · exact .inr fun h' => h (h₂.nodes_sub z h')
  summarised_sub y hy h := h₁.summarised_sub y hy (h₂.summarised_sub y hy h)
  summarised_kept y hy hyx h :=
    h₂.summarised_kept y hy hyx (h₁.summarised_kept y (h₂.nodes_sub y hy) hyx h)

variable {m' : SummaryManager T} {f : LamportEvent}

/-- A step that only changes summaries, none but that of `x`. -/
theorem Shrinks.of_summaries (ht : m'.timeline = m.timeline) (he : m'.end_node = m.end_node)
    (hs : ∀ y, y ≠ x → (m'.is_summarised y ↔ m.is_summarised y)) : Shrinks x m m' where
  end_node := he
  keeps h := ht ▸ h
  nodes_sub _ hy := ht ▸ hy
  edges_sub _ he := ht ▸ he
  edges_kept _ he _ _ _ := ht ▸ he
  removed_summarised _ hy hy' := absurd (ht ▸ hy) hy'
  removed_edges _ hy hy' := absurd (ht ▸ hy) hy'
  summarised_sub y hy h := (hs y hy).1 h
  summarised_kept y _ hy h := (hs y hy).2 h

/-- A step that removes the edge from `f` to `x`. -/
theorem Shrinks.of_remove_edges (ht : m'.timeline = m.timeline.remove_edges f x)
    (he : m'.end_node = m.end_node) (hs : ∀ y, y ≠ x → (m'.is_summarised y ↔ m.is_summarised y)) :
    Shrinks x m m' where
  end_node := he
  keeps h := by rw [ht]; exact h
  nodes_sub _ hy := by rw [ht] at hy; exact hy
  edges_sub e he := by
    rw [ht, TimelineGraph.mem_remove_edges_edges] at he
    exact he.1
  edges_kept e he hx _ _ := by
    rw [ht, TimelineGraph.mem_remove_edges_edges]
    exact ⟨he, fun h => hx (by rw [h])⟩
  removed_summarised _ hy hy' := absurd (by rw [ht]; exact hy) hy'
  removed_edges _ hy hy' := absurd (by rw [ht]; exact hy) hy'
  summarised_sub y hy h := (hs y hy).1 h
  summarised_kept y _ hy h := (hs y hy).2 h

/-- A step that removes the edge from `f` to `x`, the last edge from `f`, and then the node
    `f`, which was summarised. -/
theorem Shrinks.of_remove_node (ht : m'.timeline = (m.timeline.remove_edges f x).remove_node f)
    (hout : (m.timeline.remove_edges f x).outgoing f = []) (hfx : f ≠ x) (hf : m.is_summarised f)
    (he : m'.end_node = m.end_node) (hsub : ∀ y, y ≠ x → m'.is_summarised y → m.is_summarised y)
    (hkept : ∀ y, y ≠ f → y ≠ x → m.is_summarised y → m'.is_summarised y) : Shrinks x m m' where
  end_node := he
  keeps h := by
    rw [ht, TimelineGraph.mem_remove_node_nodes]
    exact ⟨hfx.symm, h⟩
  nodes_sub y hy := by
    rw [ht, TimelineGraph.mem_remove_node_nodes] at hy
    exact hy.2
  edges_sub e he := by
    rw [ht, TimelineGraph.mem_remove_node_edges, TimelineGraph.mem_remove_edges_edges] at he
    exact he.1.1
  edges_kept e he hx h₁ h₂ := by
    rw [ht, TimelineGraph.mem_remove_node_nodes] at h₁ h₂
    rw [ht, TimelineGraph.mem_remove_node_edges, TimelineGraph.mem_remove_edges_edges]
    exact ⟨⟨he, fun h => hx (by rw [h])⟩, h₁.1, h₂.1⟩
  removed_summarised y hy hy' := by
    -- the only node removed is `f`
    rw [ht, TimelineGraph.mem_remove_node_nodes] at hy'
    have hyf : y = f := by_contra fun h => hy' ⟨h, hy⟩
    rw [hyf]
    exact hf
  removed_edges y hy hy' z hz := by
    rw [ht, TimelineGraph.mem_remove_node_nodes] at hy'
    have hyf : y = f := by_contra fun h => hy' ⟨h, hy⟩
    subst hyf
    by_cases hzx : z = x
    · exact .inl hzx
    · -- an edge from `f` to another event than `x` would still leave `f`
      have hz' : z ∈ (m.timeline.remove_edges y x).outgoing y := by
        rw [TimelineGraph.mem_outgoing, TimelineGraph.mem_remove_edges_edges]
        exact ⟨hz, fun h => hzx (Prod.ext_iff.1 h).2⟩
      rw [hout] at hz'
      exact absurd hz' List.not_mem_nil
  summarised_sub := hsub
  summarised_kept y hy hyx h := by
    rw [ht, TimelineGraph.mem_remove_node_nodes] at hy
    exact hkept y hy.1 hyx h

/-- Removing the dependency of `x` on a summarised `f`. -/
theorem shrinks_remove_dependency (hfx : f ≠ x) (hf : m.is_summarised f) :
    Shrinks x m (m.remove_dependency f x) := by
  unfold remove_dependency
  dsimp only
  split_ifs with hout
  · refine .of_remove_node rfl hout hfx hf rfl (fun y _ h => ?_) (fun y hyf _ h => ?_)
    · exact (SummaryWrapper.contains_remove_summary.1 h).2
    · exact SummaryWrapper.contains_remove_summary.2 ⟨hyf, h⟩
  · exact .of_remove_edges rfl rfl fun _ _ => Iff.rfl

/-- What a step that removes the dependency on `d` leaves as it was: the other nodes, the
    edges between them and their summaries. -/
structure KeepsBut (d : LamportEvent) (m m' : SummaryManager T) : Prop where
  nodes : ∀ y ∈ m.timeline.nodes, y ≠ d → y ∈ m'.timeline.nodes
  edges : ∀ e ∈ m.timeline.edges, e.1 ≠ d → e.2 ≠ d → e ∈ m'.timeline.edges
  summarised : ∀ y, y ≠ d → m.is_summarised y → m'.is_summarised y

theorem keepsBut_remove_dependency (m : SummaryManager T) (f x : LamportEvent) :
    KeepsBut f m (m.remove_dependency f x) := by
  unfold remove_dependency
  dsimp only
  split_ifs
  · refine ⟨fun y hy hyf => ?_, fun e he h₁ h₂ => ?_, fun y hyf h => ?_⟩
    · exact TimelineGraph.mem_remove_node_nodes.2 ⟨hyf, hy⟩
    · rw [TimelineGraph.mem_remove_node_edges, TimelineGraph.mem_remove_edges_edges]
      exact ⟨⟨he, fun h => h₁ (by rw [h])⟩, h₁, h₂⟩
    · exact SummaryWrapper.contains_remove_summary.2 ⟨hyf, h⟩
  · refine ⟨fun y hy _ => hy, fun e he h₁ _ => ?_, fun _ _ h => h⟩
    rw [TimelineGraph.mem_remove_edges_edges]
    exact ⟨he, fun h => h₁ (by rw [h])⟩

/-- Summaries that keep every summary but that of `d`, then the dependency on `d` removed. -/
theorem keepsBut_remove_dependency_of_summaries {w : SummaryWrapper T}
    (hs : ∀ y, y ≠ d → m.is_summarised y → w.contains_summary_of y) (x : LamportEvent) :
    KeepsBut d m ({ m with summaries := w }.remove_dependency d x) :=
  have h := keepsBut_remove_dependency { m with summaries := w } d x
  ⟨h.nodes, h.edges, fun y hyd hy => h.summarised y hyd (hs y hyd hy)⟩

theorem remove_dependency_of_outgoing_eq_nil (h : (m.timeline.remove_edges f x).outgoing f = []) :
    m.remove_dependency f x =
      { m with summaries := m.summaries.remove_summary f,
               timeline := (m.timeline.remove_edges f x).remove_node f } := by
  unfold remove_dependency
  dsimp only
  rw [if_pos h]

/-- **(1a) and (1b)**: taking the summary of a summarised dependency of the same process
    succeeds, summarises `x` and removes the dependency. -/
theorem take_predecessor_spec {pred : LamportEvent} (hp : m.is_summarised pred)
    (hpx : (pred, x) ∈ m.timeline.edges) (hne : pred ≠ x) :
    ∃ m', m.take_predecessor pred x = .ok m' ∧ Shrinks x m m' ∧ KeepsBut pred m m' ∧
      m'.is_summarised x := by
  by_cases hdone : (m.timeline.outgoing pred).length = 1
  · -- `x` is the last event depending on `pred`: its summary is moved and `pred` removed
    obtain ⟨w', hw', hc⟩ : ∃ w', m.summaries.take_ownership pred x = .ok w' ∧ _ :=
      SummaryWrapper.take_ownership_eq_ok hp
    have hone : m.timeline.outgoing pred = [x] := by
      obtain ⟨a, ha⟩ := List.length_eq_one_iff.1 hdone
      have hx : x ∈ m.timeline.outgoing pred := TimelineGraph.mem_outgoing.2 hpx
      rw [ha, List.mem_singleton] at hx
      rw [ha, hx]
    have hout := TimelineGraph.outgoing_remove_edges_eq_nil hone
    have hkeeps := keepsBut_remove_dependency_of_summaries
      (fun y hyp hy => (hc y).2 (.inr ⟨hyp, hy⟩)) (m := m) x
    refine ⟨_, ?_, ?_, hkeeps, (keepsBut_remove_dependency _ pred x).summarised x hne.symm
      ((hc x).2 (.inl rfl))⟩
    · unfold take_predecessor
      dsimp only
      rw [if_pos hdone, hw']
      rfl
    · rw [remove_dependency_of_outgoing_eq_nil (m := { m with summaries := w' }) hout]
      refine .of_remove_node rfl hout hne hp rfl (fun y hyx h => ?_) (fun y hyp hyx h => ?_)
      · obtain ⟨-, h⟩ := SummaryWrapper.contains_remove_summary.1 h
        exact ((hc y).1 h).resolve_left hyx |>.2
      · exact SummaryWrapper.contains_remove_summary.2 ⟨hyp, (hc y).2 (.inr ⟨hyp, h⟩)⟩
  · -- other events still depend on `pred`: its summary is copied
    obtain ⟨w', hw', hc⟩ : ∃ w', m.summaries.copy pred x = .ok w' ∧ _ :=
      SummaryWrapper.copy_eq_ok hp
    have hkeeps := keepsBut_remove_dependency_of_summaries
      (fun y _ hy => (hc y).2 (.inr hy)) (m := m) (d := pred) x
    refine ⟨_, ?_, ?_, hkeeps, (keepsBut_remove_dependency _ pred x).summarised x hne.symm
      ((hc x).2 (.inl rfl))⟩
    · unfold take_predecessor
      dsimp only
      rw [if_neg hdone, hw']
      rfl
    · have hcopy : Shrinks x m { m with summaries := w' } :=
        .of_summaries rfl rfl fun y hyx => by simp only [is_summarised, hc y, hyx, false_or]
      exact hcopy.trans (shrinks_remove_dependency hne ((hc pred).2 (.inr hp)))

/-- **(2a) and (2b)**: merging in the summary of a summarised dependency of another process
    succeeds and removes the dependency. -/
theorem merge_dependency_spec {d : LamportEvent} (hd : m.is_summarised d)
    (hx : m.is_summarised x) (hdx : d ≠ x) :
    ∃ m', merge_dependency P x m d = .ok m' ∧ Shrinks x m m' ∧ KeepsBut d m m' := by
  obtain ⟨w', hw', hc⟩ := SummaryWrapper.merge_into_eq_ok P hd hx hdx
  have hmerge : Shrinks x m { m with summaries := w' } := .of_summaries rfl rfl fun y _ => hc y
  refine ⟨_, ?_, hmerge.trans (shrinks_remove_dependency hdx ((hc d).2 hd)),
    keepsBut_remove_dependency_of_summaries (fun y _ hy => (hc y).2 hy) x⟩
  unfold merge_dependency
  rw [hw']
  rfl

/-- The merges of the dependencies of other processes, one after the other: each is still
    a summarised dependency when its turn comes, since the merges before it removed only
    their own. -/
theorem foldlM_merge_dependency_spec (x : LamportEvent) :
    ∀ (deps : List LamportEvent) (m : SummaryManager T), deps.Nodup →
      (∀ d ∈ deps, d ≠ x ∧ (d, x) ∈ m.timeline.edges ∧ m.is_summarised d) → m.is_summarised x →
      ∃ m', deps.foldlM (merge_dependency P x) m = .ok m' ∧ Shrinks x m m' ∧ m'.is_summarised x
  | [], m, _, _, hx => ⟨m, rfl, .refl m, hx⟩
  | d :: deps, m, hnodup, hdeps, hx => by
    obtain ⟨hdx, -, hd⟩ := hdeps d List.mem_cons_self
    obtain ⟨m₁, h₁, hs₁, hk₁⟩ := merge_dependency_spec P hd hx hdx
    obtain ⟨hnotin, hnodup'⟩ := List.nodup_cons.1 hnodup
    -- the other dependencies keep their edge to `x` and their summary
    have hdeps₁ : ∀ d' ∈ deps, d' ≠ x ∧ (d', x) ∈ m₁.timeline.edges ∧ m₁.is_summarised d' := by
      intro d' hd'
      have hd'd : d' ≠ d := fun h => hnotin (h ▸ hd')
      obtain ⟨hd'x, he, hs⟩ := hdeps d' (List.mem_cons_of_mem _ hd')
      exact ⟨hd'x, hk₁.edges _ he hd'd hdx.symm, hk₁.summarised d' hd'd hs⟩
    obtain ⟨m', h', hs', hx'⟩ := foldlM_merge_dependency_spec x deps m₁ hnodup' hdeps₁
      (hk₁.summarised x hdx.symm hx)
    exact ⟨m', by rw [List.foldlM_cons, h₁, ok_bind, h'], hs₁.trans hs', hx'⟩

/-- **(1)**: starting the summary of `x`, which is not summarised and whose dependencies
    are, succeeds when it depends on at most one event of its own process; the
    dependencies of other processes keep their edge to `x` and their summary. -/
theorem start_summary_spec (hx : m.is_summarised x = false)
    (hall : ∀ d ∈ m.timeline.incoming x, m.is_summarised d)
    (hsame : ((m.timeline.incoming x).filter fun ev => x.proc = ev.proc).length ≤ 1) :
    ∃ m₁, m.start_summary P x ((m.timeline.incoming x).filter fun ev => x.proc = ev.proc) = .ok m₁ ∧
      Shrinks x m m₁ ∧ m₁.is_summarised x ∧
      ∀ d ∈ (m.timeline.incoming x).filter (fun ev => x.proc ≠ ev.proc),
        (d, x) ∈ m₁.timeline.edges ∧ m₁.is_summarised d := by
  -- no dependency is `x` itself, which is not summarised
  have hne : ∀ d ∈ m.timeline.incoming x, d ≠ x := fun d hd h => by
    have hd' := hall d hd
    rw [h, hx] at hd'
    exact Bool.false_ne_true hd'
  rcases hsp : (m.timeline.incoming x).filter (fun ev => x.proc = ev.proc)
    with _ | ⟨pred, _ | ⟨p₂, rest⟩⟩
  · -- none of its own process: a new summary
    rw [hsp]
    refine ⟨_, rfl, .of_summaries rfl rfl fun y hyx => ?_,
      (SummaryWrapper.contains_init_summary P).2 (.inl rfl), fun d hd => ?_⟩
    · simp only [is_summarised, SummaryWrapper.contains_init_summary, hyx, false_or]
    · have hd' := List.mem_of_mem_filter hd
      exact ⟨TimelineGraph.mem_incoming.1 hd',
        (SummaryWrapper.contains_init_summary P).2 (.inr (hall d hd'))⟩
  · -- one: its summary taken
    have hpred : pred ∈ (m.timeline.incoming x).filter (fun ev => x.proc = ev.proc) := by
      rw [hsp]
      exact List.mem_singleton_self _
    obtain ⟨hpin, hpproc⟩ := List.mem_filter.1 hpred
    obtain ⟨m₁, h₁, hs₁, hk₁, hx₁⟩ := take_predecessor_spec (hall pred hpin)
      (TimelineGraph.mem_incoming.1 hpin) (hne pred hpin)
    refine ⟨m₁, by rw [hsp]; exact h₁, hs₁, hx₁, fun d hd => ?_⟩
    obtain ⟨hdin, hdproc⟩ := List.mem_filter.1 hd
    -- a dependency of another process is not `pred`
    have hdp : d ≠ pred := by
      rintro rfl
      simp only [decide_eq_true_eq] at hdproc hpproc
      exact hdproc hpproc
    exact ⟨hk₁.edges _ (TimelineGraph.mem_incoming.1 hdin) hdp (hne pred hpin).symm,
      hk₁.summarised d hdp (hall d hdin)⟩
  · rw [hsp] at hsame
    simp at hsame

/-- **Summarising a ready event** panics only for want of a cumulative summary; otherwise
    it summarises the event and changes the manager only as `Shrinks` allows. -/
theorem summarise_event_spec (hready : m.ready x) (hsame : m.timeline.SameProcessUnique) :
    (∃ m' r, m.summarise_event P reward_function x = .ok (m', r) ∧ Shrinks x m m' ∧
      m'.is_summarised x) ∨
    m.summarise_event P reward_function x = .error (.summary .no_cumulative_summary) := by
  obtain ⟨hinf, hx, hall⟩ := ready_iff.1 hready
  have hx_inf : x ≠ EVENT_AT_INFINITY := by
    rintro rfl
    simp [is_at_infinity] at hinf
  have hall' : (m.timeline.incoming x).all m.is_summarised = true := List.all_eq_true.2 hall
  have hsame' : ((m.timeline.incoming x).filter fun ev => x.proc = ev.proc).length ≤ 1 := by
    have hfilter : ((m.timeline.incoming x).filter fun ev => x.proc = ev.proc) =
        (m.timeline.incoming x).filter fun d => d.proc = x.proc :=
      List.filter_congr fun _ _ => decide_eq_decide.2 eq_comm
    rw [hfilter]
    exact hsame x
  obtain ⟨m₁, h₁, hs₁, hx₁, hdeps₁⟩ := start_summary_spec P hx hall hsame'
  -- (2) the dependencies of other processes merged in
  obtain ⟨m₂, h₂, hs₂, hx₂⟩ := foldlM_merge_dependency_spec P x _ m₁
    ((m.timeline.incoming_nodup x).filter _) (fun d hd => ⟨fun h => by
      subst h
      simp at hd, (hdeps₁ d hd).1, (hdeps₁ d hd).2⟩) hx₁
  obtain ⟨w₃, h₃, hc₃⟩ := SummaryWrapper.update_eq_ok P hx₂
  -- (3) the summary finalised
  rcases SummaryWrapper.finalise_and_report_reward_ok_or P reward_function ((hc₃ x).2 hx₂)
    with ⟨w₄, r, h₄, hfor⟩ | herr
  · have hc₄ : ∀ y, w₄.contains_summary_of y ↔ m₂.is_summarised y := fun y => by
      rw [is_summarised, ← hc₃ y]
      simp only [SummaryWrapper.contains_summary_of, hfor]
    refine .inl ⟨{ m₂ with summaries := w₄ }, r, ?_,
      (hs₁.trans hs₂).trans (.of_summaries rfl rfl fun y _ => hc₄ y), (hc₄ x).2 hx₂⟩
    unfold summarise_event
    simp only [if_neg hx_inf, hinf, hall', Bool.not_true, Bool.false_eq_true, ↓reduceIte, h₁,
      ok_bind, h₂, h₃, Except.mapError, h₄]
    rfl
  · refine .inr ?_
    unfold summarise_event
    simp only [if_neg hx_inf, hinf, hall', Bool.not_true, Bool.false_eq_true, ↓reduceIte, h₁,
      ok_bind, h₂, h₃, Except.mapError, herr]
    rfl

/-! ### Readiness across a step -/

theorem is_at_infinity_of_end_node (h : m'.end_node = m.end_node) (y : LamportEvent) :
    m'.is_at_infinity y = m.is_at_infinity y := by
  unfold is_at_infinity
  rw [h]

theorem ready_eq_false_of_summarised {y : LamportEvent} (h : m.is_summarised y) :
    m.ready y = false := by
  simp [ready, h]

/-- An event ready before another is summarised stays a ready node. -/
theorem Shrinks.ready (hsh : Shrinks x m m') (hx' : m'.is_summarised x) {y : LamportEvent}
    (hy : y ∈ m.timeline.nodes) (hr : m.ready y) (hyx : y ≠ x) :
    y ∈ m'.timeline.nodes ∧ m'.ready y := by
  obtain ⟨hinf, hsum, hall⟩ := ready_iff.1 hr
  -- only summarised nodes are removed
  have hy' : y ∈ m'.timeline.nodes := by
    by_contra h
    rw [hsh.removed_summarised y hy h] at hsum
    simp at hsum
  refine ⟨hy', ready_iff.2 ⟨by rw [is_at_infinity_of_end_node hsh.end_node, hinf], ?_, ?_⟩⟩
  · cases h : m'.is_summarised y
    · rfl
    · rw [hsh.summarised_sub y hyx h] at hsum
      exact hsum
  · intro d hd
    have hd' := TimelineGraph.mem_incoming.1 hd
    by_cases hdx : d = x
    · rw [hdx]
      exact hx'
    · exact hsh.summarised_kept d (m'.timeline.mem_edges _ hd').1 hdx
        (hall d (TimelineGraph.mem_incoming.2 (hsh.edges_sub _ hd')))

/-- An event ready after `x` is summarised, and not depending on `x`, was ready before. -/
theorem Shrinks.ready_of_ready (hsh : Shrinks x m m') (hx' : m'.is_summarised x)
    {y : LamportEvent} (hy : y ∈ m'.timeline.nodes) (hr : m'.ready y)
    (hyx : y ∉ m'.timeline.outgoing x) : m.ready y := by
  obtain ⟨hinf, hsum, hall⟩ := ready_iff.1 hr
  have hne : y ≠ x := by
    rintro rfl
    rw [hx'] at hsum
    simp at hsum
  refine ready_iff.2 ⟨by rw [← is_at_infinity_of_end_node hsh.end_node, hinf], ?_, ?_⟩
  · cases h : m.is_summarised y
    · rfl
    · rw [hsh.summarised_kept y hy hne h] at hsum
      exact hsum
  · intro d hd
    have hd' := TimelineGraph.mem_incoming.1 hd
    by_cases hkept : (d, y) ∈ m'.timeline.edges
    · -- the edge is still there: `d` is summarised and is not `x`
      have hdx : d ≠ x := by
        rintro rfl
        exact hyx (TimelineGraph.mem_outgoing.2 hkept)
      exact hsh.summarised_sub d hdx (hall d (TimelineGraph.mem_incoming.2 hkept))
    · -- the edge went with the node `d`, which was summarised
      have hd_gone : d ∉ m'.timeline.nodes := fun h => hkept (hsh.edges_kept _ hd' hne h hy)
      exact hsh.removed_summarised d (m.timeline.mem_edges _ hd').1 hd_gone

end SummaryManager

/-! ## The loop -/

/-- The state of the traversal: the manager, the worklist, the events traversed (the
    record of `_selfcheck_register_traversed`) and the rewards reported. -/
structure Traversal (T R : Type) where
  manager : SummaryManager T
  worklist : List LamportEvent
  traversed : List LamportEvent
  rewards : List R

namespace Traversal

variable {T R : Type} (P : SummaryProducer T) (reward_function : SummaryTask → T → T → T → R)

/-- One turn of the loop: the first event of the worklist summarised, and the events
    that have become ready added at the back. -/
def turn (s : Traversal T R) : Except ManagerPanic (Traversal T R) :=
  match s.worklist with
  | [] => pure s
  | our_event :: worklist => do
    let (m, reward) ← s.manager.summarise_event P reward_function our_event
    pure ⟨m, worklist ++ m.dependents_ready our_event, s.traversed ++ [our_event],
      s.rewards ++ reward.toList⟩

/-- The loop, until the worklist is empty. -/
def loop (fuel : ℕ) (s : Traversal T R) : Except ManagerPanic (Traversal T R) :=
  whileM (fun s => pure s.worklist.isEmpty) (turn P reward_function) .out_of_turns fuel s

end Traversal

/-- `process_worklist`: the worklist constructed, then the loop, which takes each node
    at most once, so that one turn more than there are nodes is enough. -/
def SummaryManager.process_worklist {T R : Type} (P : SummaryProducer T)
    (reward_function : SummaryTask → T → T → T → R) (m : SummaryManager T) :
    Except ManagerPanic (Traversal T R) := do
  let (m, worklist) ← m.construct_worklist
  Traversal.loop P reward_function (m.timeline.nodes.length + 1) ⟨m, worklist, [], []⟩

/-! ## The invariant of the traversal -/

section Invariant

variable {T R : Type} (P : SummaryProducer T) (reward_function : SummaryTask → T → T → T → R)

/-- What holds after every turn of the traversal that started from `m₀`: the manager only
    lost nodes, edges and summaries as summarising allows; every event traversed was a
    node of `m₀`, not at infinity nor summarised, is traversed once, after the events it
    depends on in `m₀`, and is summarised while it is a node; and the worklist holds,
    once each, exactly the ready nodes. -/
structure TraversalInv (m₀ : SummaryManager T) (s : Traversal T R) : Prop where
  end_node : s.manager.end_node = m₀.end_node
  nodes_sub : ∀ y ∈ s.manager.timeline.nodes, y ∈ m₀.timeline.nodes
  edges_sub : ∀ e ∈ s.manager.timeline.edges, e ∈ m₀.timeline.edges
  summarised_new : ∀ y, s.manager.is_summarised y → m₀.is_summarised y ∨ y ∈ s.traversed
  summarised_kept : ∀ y ∈ s.manager.timeline.nodes, m₀.is_summarised y → s.manager.is_summarised y
  removed_deps : ∀ d y, (d, y) ∈ m₀.timeline.edges → (d, y) ∉ s.manager.timeline.edges →
    m₀.is_summarised d ∨ d ∈ s.traversed ∨ y ∉ s.manager.timeline.nodes ∨ y ∈ s.traversed
  traversed_nodup : s.traversed.Nodup
  traversed_fresh : ∀ y ∈ s.traversed, y ∈ m₀.timeline.nodes ∧ m₀.is_at_infinity y = false ∧
    m₀.is_summarised y = false
  traversed_order : ∀ (i : ℕ) y, s.traversed[i]? = some y → ∀ d ∈ m₀.timeline.incoming y,
    m₀.is_summarised d ∨ ∃ j < i, s.traversed[j]? = some d
  traversed_done : ∀ y ∈ s.traversed, y ∈ s.manager.timeline.nodes → s.manager.is_summarised y
  worklist_nodup : s.worklist.Nodup
  worklist_ready : ∀ y ∈ s.worklist, y ∈ s.manager.timeline.nodes ∧ s.manager.ready y
  ready_worklist : ∀ y ∈ s.manager.timeline.nodes, s.manager.ready y → y ∈ s.worklist

/-- The traversal as `process_worklist` starts it, with the worklist of `construct_worklist`. -/
theorem traversalInv_start (m₀ : SummaryManager T) :
    TraversalInv m₀ (⟨m₀, m₀.timeline.nodes.filter m₀.ready, [], []⟩ : Traversal T R) where
  end_node := rfl
  nodes_sub _ h := h
  edges_sub _ h := h
  summarised_new _ h := .inl h
  summarised_kept _ _ h := h
  removed_deps _ _ h h' := absurd h h'
  traversed_nodup := List.nodup_nil
  traversed_fresh _ h := absurd h List.not_mem_nil
  traversed_order _ _ h := by simp at h
  traversed_done _ h := absurd h List.not_mem_nil
  worklist_nodup := m₀.timeline.nodes_nodup.filter _
  worklist_ready _ h := List.mem_filter.1 h
  ready_worklist _ h hr := List.mem_filter.2 ⟨h, hr⟩

variable {m₀ m' : SummaryManager T} {s : Traversal T R} {x : LamportEvent}
  {rest : List LamportEvent}

open SummaryManager TimelineGraph in
/-- An event of the worklist is not yet traversed: the traversed nodes are summarised. -/
theorem TraversalInv.not_mem_traversed (hinv : TraversalInv m₀ s) (hx : x ∈ s.worklist) :
    x ∉ s.traversed := by
  intro ht
  obtain ⟨hxn, hxr⟩ := hinv.worklist_ready x hx
  rw [ready_eq_false_of_summarised (hinv.traversed_done x ht hxn)] at hxr
  simp at hxr

/-- An element of a list is at an index of it, also once another element is added. -/
theorem exists_getElem?_append_of_mem {α : Type} {l : List α} {a : α} (b : α) (h : a ∈ l) :
    ∃ j < l.length, (l ++ [b])[j]? = some a := by
  obtain ⟨j, hj⟩ := List.mem_iff_getElem?.1 h
  have hlt : j < l.length := (List.getElem?_eq_some_iff.1 hj).1
  exact ⟨j, hlt, by rw [List.getElem?_append_left hlt, hj]⟩

open SummaryManager TimelineGraph in
/-- **A turn keeps the invariant**: the manager after summarising the first event `x` of
    the worklist, the rest of the worklist with the dependents of `x` that became ready,
    and `x` traversed. -/
theorem TraversalInv.turn (hinv : TraversalInv m₀ s) (hw : s.worklist = x :: rest)
    (hsh : Shrinks x s.manager m') (hx' : m'.is_summarised x) (rewards : List R) :
    TraversalInv m₀
      (⟨m', rest ++ m'.dependents_ready x, s.traversed ++ [x], rewards⟩ : Traversal T R) := by
  have hxw : x ∈ s.worklist := by
    rw [hw]
    exact List.mem_cons_self
  obtain ⟨hxn, hxr⟩ := hinv.worklist_ready x hxw
  obtain ⟨hxinf, hxsum, hxall⟩ := ready_iff.1 hxr
  have hxt := hinv.not_mem_traversed hxw
  have hnodup := hinv.worklist_nodup
  rw [hw] at hnodup
  have hrest : ∀ y ∈ rest, y ≠ x := fun y hy h => (List.nodup_cons.1 hnodup).1 (h ▸ hy)
  have hrest_ready : ∀ y ∈ rest, y ∈ s.manager.timeline.nodes ∧ s.manager.ready y :=
    fun y hy => hinv.worklist_ready y (by rw [hw]; exact List.mem_cons_of_mem _ hy)
  refine
    { end_node := hsh.end_node.trans hinv.end_node
      nodes_sub := fun y hy => hinv.nodes_sub y (hsh.nodes_sub y hy)
      edges_sub := fun e he => hinv.edges_sub e (hsh.edges_sub e he)
      summarised_new := ?summarised_new
      summarised_kept := ?summarised_kept
      removed_deps := ?removed_deps
      traversed_nodup := hinv.traversed_nodup.append (List.nodup_singleton x)
        (List.disjoint_singleton.2 hxt)
      traversed_fresh := ?traversed_fresh
      traversed_order := ?traversed_order
      traversed_done := ?traversed_done
      worklist_nodup := ?worklist_nodup
      worklist_ready := ?worklist_ready
      ready_worklist := ?ready_worklist }
  case summarised_new =>
    intro y hy
    by_cases hyx : y = x
    · exact .inr (List.mem_append_right _ (List.mem_singleton.2 hyx))
    · rcases hinv.summarised_new y (hsh.summarised_sub y hyx hy) with h | h
      · exact .inl h
      · exact .inr (List.mem_append_left _ h)
  case summarised_kept =>
    intro y hy h₀
    by_cases hyx : y = x
    · rw [hyx]
      exact hx'
    · exact hsh.summarised_kept y hy hyx (hinv.summarised_kept y (hsh.nodes_sub y hy) h₀)
  case removed_deps =>
    intro d y h₀ hnot
    by_cases hm : (d, y) ∈ s.manager.timeline.edges
    · -- removed by this turn: into `x`, or with one of its ends
      by_cases hyx : y = x
      · exact .inr (.inr (.inr (List.mem_append_right _ (List.mem_singleton.2 hyx))))
      · by_cases hy : y ∈ m'.timeline.nodes
        · have hd : d ∉ m'.timeline.nodes := fun hd => hnot (hsh.edges_kept _ hm hyx hd hy)
          rcases hinv.summarised_new d
            (hsh.removed_summarised d (s.manager.timeline.mem_edges _ hm).1 hd) with h | h
          · exact .inl h
          · exact .inr (.inl (List.mem_append_left _ h))
        · exact .inr (.inr (.inl hy))
    · rcases hinv.removed_deps d y h₀ hm with h | h | h | h
      · exact .inl h
      · exact .inr (.inl (List.mem_append_left _ h))
      · exact .inr (.inr (.inl fun h' => h (hsh.nodes_sub y h')))
      · exact .inr (.inr (.inr (List.mem_append_left _ h)))
  case traversed_fresh =>
    intro y hy
    rcases List.mem_append.1 hy with h | h
    · exact hinv.traversed_fresh y h
    · rw [List.mem_singleton.1 h]
      refine ⟨hinv.nodes_sub x hxn, by rw [← is_at_infinity_of_end_node hinv.end_node, hxinf], ?_⟩
      cases h₀ : m₀.is_summarised x
      · rfl
      · rw [hinv.summarised_kept x hxn h₀] at hxsum
        exact hxsum
  case traversed_order =>
    intro i y hi d hd
    have hlt : i < s.traversed.length + 1 := by
      simpa using (List.getElem?_eq_some_iff.1 hi).1
    rcases Nat.lt_succ_iff_lt_or_eq.1 hlt with hi' | rfl
    · rw [List.getElem?_append_left hi'] at hi
      rcases hinv.traversed_order i y hi d hd with h | ⟨j, hj, hj'⟩
      · exact .inl h
      · exact .inr ⟨j, hj, by rw [List.getElem?_append_left (hj.trans hi'), hj']⟩
    · -- the event traversed in this turn is `x`, whose dependencies in `m₀` are
      -- summarised now, or went with a node summarised before
      have hy : y = x := by simpa using hi.symm
      subst hy
      have hdone : m₀.is_summarised d ∨ d ∈ s.traversed := by
        by_cases hm : (d, y) ∈ s.manager.timeline.edges
        · exact hinv.summarised_new d (hxall d (mem_incoming.2 hm))
        · rcases hinv.removed_deps d y (mem_incoming.1 hd) hm with h | h | h | h
          · exact .inl h
          · exact .inr h
          · exact absurd hxn h
          · exact absurd h hxt
      rcases hdone with h | h
      · exact .inl h
      · exact .inr (exists_getElem?_append_of_mem y h)
  case traversed_done =>
    intro y hy hyn
    by_cases hyx : y = x
    · rw [hyx]
      exact hx'
    · have ht : y ∈ s.traversed :=
        (List.mem_append.1 hy).resolve_right fun h => hyx (List.mem_singleton.1 h)
      exact hsh.summarised_kept y hyn hyx (hinv.traversed_done y ht (hsh.nodes_sub y hyn))
  case worklist_nodup =>
    refine (List.nodup_cons.1 hnodup).2.append ((m'.timeline.outgoing_nodup x).filter _) ?_
    -- an event of the worklist does not depend on `x`, which was not summarised
    intro y hy hy'
    have hxy : (x, y) ∈ s.manager.timeline.edges :=
      hsh.edges_sub _ (mem_outgoing.1 (List.mem_of_mem_filter hy'))
    have hxs := (ready_iff.1 (hrest_ready y hy).2).2.2 x (mem_incoming.2 hxy)
    rw [hxsum] at hxs
    simp at hxs
  case worklist_ready =>
    intro y hy
    rcases List.mem_append.1 hy with h | h
    · obtain ⟨hyn, hyr⟩ := hrest_ready y h
      exact hsh.ready hx' hyn hyr (hrest y h)
    · obtain ⟨hyo, hyr⟩ := List.mem_filter.1 h
      exact ⟨(m'.timeline.mem_edges _ (mem_outgoing.1 hyo)).2, hyr⟩
  case ready_worklist =>
    intro y hy hr
    by_cases hyo : y ∈ m'.timeline.outgoing x
    · exact List.mem_append_right _ (List.mem_filter.2 ⟨hyo, hr⟩)
    · have hyw := hinv.ready_worklist y (hsh.nodes_sub y hy) (hsh.ready_of_ready hx' hy hr hyo)
      rw [hw] at hyw
      rcases List.mem_cons.1 hyw with h | h
      · -- `x` is summarised now, so not ready
        rw [h, ready_eq_false_of_summarised hx'] at hr
        simp at hr
      · exact List.mem_append_left _ h

/-- The nodes of `m₀` not yet traversed, fewer after every turn. -/
def untraversed (m₀ : SummaryManager T) (s : Traversal T R) : ℕ :=
  (m₀.timeline.nodes.filter (· ∉ s.traversed)).length

theorem length_filter_not_mem_append_lt {α : Type} [DecidableEq α] {l t : List α} {a : α}
    (ha : a ∈ l) (ht : a ∉ t) :
    (l.filter (· ∉ t ++ [a])).length < (l.filter (· ∉ t)).length := by
  have hfilter : l.filter (· ∉ t ++ [a]) = (l.filter (· ∉ t)).filter (· ≠ a) := by
    rw [List.filter_filter]
    exact List.filter_congr fun b _ => by simp [and_comm]
  rw [hfilter]
  exact List.length_filter_lt_length_iff_exists.2 ⟨a, List.mem_filter.2 ⟨ha, by simpa using ht⟩,
    by simp⟩

/-- **One turn** on a worklist that is not empty keeps the invariant and traverses one more
    node of `m₀`, or panics for want of a cumulative summary. -/
theorem traversal_turn_inv (hsame : m₀.timeline.SameProcessUnique) (hinv : TraversalInv m₀ s)
    (hw : s.worklist = x :: rest) :
    (∃ s', s.turn P reward_function = .ok s' ∧ TraversalInv m₀ s' ∧
      untraversed m₀ s' < untraversed m₀ s) ∨
    s.turn P reward_function = .error (.summary .no_cumulative_summary) := by
  have hxw : x ∈ s.worklist := by
    rw [hw]
    exact List.mem_cons_self
  obtain ⟨hxn, hxr⟩ := hinv.worklist_ready x hxw
  rcases SummaryManager.summarise_event_spec P reward_function hxr (hsame.mono hinv.edges_sub)
    with ⟨m', r, hsum, hsh, hx'⟩ | herr
  · refine .inl ⟨_, ?_, hinv.turn hw hsh hx' (s.rewards ++ r.toList),
      length_filter_not_mem_append_lt (hinv.nodes_sub x hxn) (hinv.not_mem_traversed hxw)⟩
    simp only [Traversal.turn, hw, hsum, ok_bind]
    rfl
  · refine .inr ?_
    simp only [Traversal.turn, hw, herr, error_bind]

end Invariant

/-! ## The traversal is topological -/

open SummaryManager TimelineGraph in
/-- **`process_worklist` is a topological traversal.**  On a graph without cycles in which
    no event depends on two events of its own process, the traversal panics at most for
    want of a cumulative summary; otherwise it ends, having summarised every event it
    traversed once, each a node not at infinity nor summarised at the start, and after
    every event it depends on that was not; and it leaves no node that could be
    summarised unsummarised. -/
theorem process_worklist_topological {T R : Type} (P : SummaryProducer T)
    (reward_function : SummaryTask → T → T → T → R) (m : SummaryManager T)
    (hacyc : m.timeline.Acyclic) (hsame : m.timeline.SameProcessUnique) :
    (∃ s, m.process_worklist P reward_function = .ok s ∧
      s.traversed.Nodup ∧
      (∀ y ∈ s.traversed, y ∈ m.timeline.nodes ∧ m.is_at_infinity y = false ∧
        m.is_summarised y = false) ∧
      (∀ (i : ℕ) y, s.traversed[i]? = some y → ∀ d ∈ m.timeline.incoming y,
        m.is_summarised d ∨ ∃ j < i, s.traversed[j]? = some d) ∧
      (∀ y ∈ s.traversed, y ∈ s.manager.timeline.nodes → s.manager.is_summarised y) ∧
      ∀ y ∈ s.manager.timeline.nodes, s.manager.is_at_infinity y = false →
        (∀ d ∈ s.manager.timeline.incoming y, s.manager.is_summarised d) →
        s.manager.is_summarised y) ∨
    m.process_worklist P reward_function = .error (.summary .no_cumulative_summary) := by
  let done := fun s : Traversal T R => (pure s.worklist.isEmpty : Except ManagerPanic Bool)
  -- the loop keeps `TraversalInv m`, and every turn traverses a node not yet traversed
  have hloop := whileM_ok_or done (Traversal.turn P reward_function) .out_of_turns
    (TraversalInv m) (· = .summary .no_cumulative_summary) (untraversed m)
    (fun _ _ => ⟨_, rfl⟩) (fun s hinv hdone => by
      obtain ⟨x, rest, hw⟩ : ∃ x rest, s.worklist = x :: rest := by
        cases hw : s.worklist with
        | nil => simp [done, hw, pure_eq_ok_iff] at hdone
        | cons x rest => exact ⟨x, rest, rfl⟩
      rcases traversal_turn_inv P reward_function hsame hinv hw with h | h
      · exact .inl h
      · exact .inr ⟨_, h, rfl⟩)
    (traversalInv_start m) (Nat.lt_succ_of_le (List.length_filter_le _ _))
  rw [process_worklist, construct_worklist_of_acyclic hacyc, ok_bind]
  rcases hloop with ⟨s, hs, hinv, hdone⟩ | ⟨e, he, rfl⟩
  · refine .inl ⟨s, hs, hinv.traversed_nodup, hinv.traversed_fresh, hinv.traversed_order,
      hinv.traversed_done, fun y hy hinf hall => ?_⟩
    -- a node that could be summarised would be ready, and so in the empty worklist
    have hempty : s.worklist = [] := List.isEmpty_iff.1 (pure_eq_ok_iff.1 hdone)
    by_contra hsum
    have hr : s.manager.ready y := ready_iff.2 ⟨hinf, by simpa using hsum, hall⟩
    have hyw := hinv.ready_worklist y hy hr
    rw [hempty] at hyw
    exact List.not_mem_nil hyw
  · exact .inr he

/-- Process 1 executes a block at time 5, then another at time 6. -/
def first_block : LamportEvent := ⟨⟨5, 1⟩, .BlockExecute 0⟩

def second_block : LamportEvent := ⟨⟨6, 1⟩, .BlockExecute 0⟩

/-- The timeline of the two blocks, the second depending on the first. -/
def two_blocks : TimelineGraph :=
  ⟨[first_block, second_block], [(first_block, second_block)], by decide, by decide, by decide⟩

/-- A summary that records nothing. -/
def unit_producer : SummaryProducer Unit :=
  ⟨(), fun _ _ => (), fun _ _ _ _ => (), fun _ _ => ()⟩

def two_blocks_manager : SummaryManager Unit :=
  ⟨SummaryWrapper.new unit_producer, two_blocks, .empty⟩

theorem process_worklist_topological_two_blocks :
    two_blocks_manager.timeline.Acyclic ∧ two_blocks_manager.timeline.SameProcessUnique ∧
    ((∃ s, two_blocks_manager.process_worklist unit_producer (fun _ _ _ _ => ()) = .ok s ∧
      s.traversed.Nodup ∧
      (∀ y ∈ s.traversed, y ∈ two_blocks_manager.timeline.nodes ∧
        two_blocks_manager.is_at_infinity y = false ∧ two_blocks_manager.is_summarised y = false) ∧
      (∀ (i : ℕ) y, s.traversed[i]? = some y → ∀ d ∈ two_blocks_manager.timeline.incoming y,
        two_blocks_manager.is_summarised d ∨ ∃ j < i, s.traversed[j]? = some d) ∧
      (∀ y ∈ s.traversed, y ∈ s.manager.timeline.nodes → s.manager.is_summarised y) ∧
      ∀ y ∈ s.manager.timeline.nodes, s.manager.is_at_infinity y = false →
        (∀ d ∈ s.manager.timeline.incoming y, s.manager.is_summarised d) →
        s.manager.is_summarised y) ∨
    two_blocks_manager.process_worklist unit_producer (fun _ _ _ _ => ()) =
      .error (.summary .no_cumulative_summary)) :=
  have hacyc : two_blocks_manager.timeline.Acyclic :=
    Toposort.acyclic_of_rank (fun e : LamportEvent => e.clock.ts) (by decide)
  -- one edge: no event depends on two events at all
  have hsame : two_blocks_manager.timeline.SameProcessUnique := fun n =>
    calc ((two_blocks.incoming n).filter fun d => d.proc = n.proc).length
        ≤ (two_blocks.incoming n).length := List.length_filter_le _ _
      _ ≤ two_blocks.edges.length := by
        rw [TimelineGraph.incoming, List.length_map]
        exact List.length_filter_le _ _
      _ = 1 := rfl
  ⟨hacyc, hsame, process_worklist_topological unit_producer _ two_blocks_manager hacyc hsame⟩

/-- The traversal of the two blocks takes the first, then the second. -/
example : (two_blocks_manager.process_worklist unit_producer (fun _ _ _ _ => ())).toOption.map
    (·.traversed) = some [first_block, second_block] := by decide

end Abstraktor.Feedback
