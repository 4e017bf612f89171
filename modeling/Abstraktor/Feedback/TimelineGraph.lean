/-
  The timeline graph of the summary manager (`SummaryManager`,
  src/mallory/mediator/src/feedback/summary.rs): a node for each event, an edge from an
  event to each event that depends on it, and the summaries of the events.

  Events are the nodes: `index_for_event` gives each event one node, so a node is
  named by its event.  `add_edge_if_not_exists` adds no edge twice, and the graph
  only joins its own nodes; both facts are fields of `TimelineGraph`.  The node at
  infinity, whose event is `EVENT_AT_INFINITY`, and the end node of each process are
  the nodes at infinity, which are never summarised.

  * `remove_dependency`: the edges between two events removed, and the first event
    with its summary when no edge leaves it any more;
  * `construct_worklist`: after the cycles are cleaned up, the nodes not at
    infinity, not summarised, whose dependencies all are; on a graph without cycles
    the clean-up changes nothing (`detect_and_cleanup_cycles_of_acyclic`).

  The order in which `petgraph` lists the neighbours of a node is that of the list
  of edges, and a cycle is reported by the node that Kahn's sort is left with.
-/
import Mathlib
import Abstraktor.Lib.Counter
import Abstraktor.Lib.SortedMap
import Abstraktor.Lib.Toposort
import Abstraktor.Mediator.Clocks
import Abstraktor.Mediator.Event
import Abstraktor.Feedback.Summary

namespace Abstraktor.Feedback

open Abstraktor.Mediator Counter

/-- `MonotonicTimestamp::at_infinity`. -/
def MonotonicTimestamp.at_infinity (source : ℕ) : MonotonicTimestamp := ⟨U64_MAX, source⟩

/-- The event of the node at infinity, the end of the dependencies not yet known. -/
def EVENT_AT_INFINITY : LamportEvent := ⟨MonotonicTimestamp.at_infinity 0, .Unknown⟩

/-! ## The graph -/

/-- The graph `timeline`: its nodes in the order of their indices, and its edges, from
    an event to an event that depends on it. -/
structure TimelineGraph where
  nodes : List LamportEvent
  edges : List (LamportEvent × LamportEvent)
  nodes_nodup : nodes.Nodup
  edges_nodup : edges.Nodup
  mem_edges : ∀ e ∈ edges, e.1 ∈ nodes ∧ e.2 ∈ nodes

namespace TimelineGraph

/-- `neighbors_directed(n, Incoming)`: the events that `n` depends on. -/
def incoming (g : TimelineGraph) (n : LamportEvent) : List LamportEvent :=
  (g.edges.filter fun e => e.2 = n).map (·.1)

/-- `neighbors_directed(n, Outgoing)`: the events that depend on `n`. -/
def outgoing (g : TimelineGraph) (n : LamportEvent) : List LamportEvent :=
  (g.edges.filter fun e => e.1 = n).map (·.2)

/-- `remove_edges`: the edges from `from` to `to` removed. -/
def remove_edges (g : TimelineGraph) («from» «to» : LamportEvent) : TimelineGraph :=
  ⟨g.nodes, g.edges.filter (· ≠ («from», «to»)), g.nodes_nodup, g.edges_nodup.filter _,
    fun e he => g.mem_edges e (List.mem_of_mem_filter he)⟩

/-- `remove_node`: the node and the edges that touch it removed. -/
def remove_node (g : TimelineGraph) (n : LamportEvent) : TimelineGraph :=
  ⟨g.nodes.erase n, g.edges.filter fun e => e.1 ≠ n ∧ e.2 ≠ n, g.nodes_nodup.erase n,
    g.edges_nodup.filter _, fun e he => by
      simp only [List.mem_filter, decide_eq_true_eq] at he
      obtain ⟨h₁, h₂⟩ := g.mem_edges e he.1
      exact ⟨(g.nodes_nodup.mem_erase_iff).2 ⟨he.2.1, h₁⟩,
        (g.nodes_nodup.mem_erase_iff).2 ⟨he.2.2, h₂⟩⟩⟩

/-- `petgraph::algo::toposort`. -/
def toposort (g : TimelineGraph) : Except LamportEvent (List LamportEvent) :=
  Toposort.toposort g.nodes g.edges

/-- The graph has no cycle. -/
def Acyclic (g : TimelineGraph) : Prop := Toposort.Acyclic g.edges

/-- No event depends on two events of its own process. -/
def SameProcessUnique (g : TimelineGraph) : Prop :=
  ∀ n, ((g.incoming n).filter fun d => d.proc = n.proc).length ≤ 1

variable {g : TimelineGraph} {n d «from» «to» : LamportEvent}

@[simp] theorem mem_incoming : d ∈ g.incoming n ↔ (d, n) ∈ g.edges := by
  simp [incoming]

@[simp] theorem mem_outgoing : d ∈ g.outgoing n ↔ (n, d) ∈ g.edges := by
  simp [outgoing]

theorem incoming_nodup (g : TimelineGraph) (n : LamportEvent) : (g.incoming n).Nodup := by
  refine (g.edges_nodup.filter _).map_on fun a ha b hb hab => ?_
  simp only [List.mem_filter, decide_eq_true_eq] at ha hb
  exact Prod.ext hab (ha.2.trans hb.2.symm)

theorem outgoing_nodup (g : TimelineGraph) (n : LamportEvent) : (g.outgoing n).Nodup := by
  refine (g.edges_nodup.filter _).map_on fun a ha b hb hab => ?_
  simp only [List.mem_filter, decide_eq_true_eq] at ha hb
  exact Prod.ext (ha.2.trans hb.2.symm) hab

@[simp] theorem remove_edges_nodes : (g.remove_edges «from» «to»).nodes = g.nodes := rfl

@[simp] theorem mem_remove_edges_edges {e : LamportEvent × LamportEvent} :
    e ∈ (g.remove_edges «from» «to»).edges ↔ e ∈ g.edges ∧ e ≠ («from», «to») := by
  simp [remove_edges]

@[simp] theorem mem_remove_node_nodes : d ∈ (g.remove_node n).nodes ↔ d ≠ n ∧ d ∈ g.nodes :=
  g.nodes_nodup.mem_erase_iff

@[simp] theorem mem_remove_node_edges {e : LamportEvent × LamportEvent} :
    e ∈ (g.remove_node n).edges ↔ e ∈ g.edges ∧ e.1 ≠ n ∧ e.2 ≠ n := by
  simp [remove_node]

/-- An event with one event depending on it, which is `to`: after the edge to `to` is
    removed, none is left. -/
theorem outgoing_remove_edges_eq_nil (h : g.outgoing «from» = [«to»]) :
    (g.remove_edges «from» «to»).outgoing «from» = [] := by
  refine List.eq_nil_iff_forall_not_mem.2 fun x hx => ?_
  rw [mem_outgoing, mem_remove_edges_edges] at hx
  have hx' : x ∈ g.outgoing «from» := mem_outgoing.2 hx.1
  rw [h, List.mem_singleton] at hx'
  exact hx.2 (by rw [hx'])

/-- Removing edges keeps every event from depending on two events of its own process. -/
theorem SameProcessUnique.mono {g' : TimelineGraph} (hsub : ∀ e ∈ g'.edges, e ∈ g.edges)
    (h : g.SameProcessUnique) : g'.SameProcessUnique := by
  intro n
  have hsubperm : List.Subperm ((g'.incoming n).filter fun d => d.proc = n.proc)
      ((g.incoming n).filter fun d => d.proc = n.proc) := by
    refine ((g'.incoming_nodup n).filter _).subperm fun d hd => ?_
    rw [List.mem_filter, mem_incoming] at hd ⊢
    exact ⟨hsub _ hd.1, hd.2⟩
  exact hsubperm.length_le.trans (h n)

end TimelineGraph

/-! ## The summary manager -/

/-- Which `assert!` or `panic!` of the summary manager fails. -/
inductive ManagerPanic
  /-- `assert!(our_event != EVENT_AT_INFINITY, ..)` -/
  | event_at_infinity
  /-- `assert!(!self.is_at_infinity(node_id), ..)` -/
  | end_of_process
  /-- `assert!(self.is_summarised(*dep_id), "Dependency node .. not summarised!")` -/
  | dependency_not_summarised
  /-- `assert!(same_proc_dependencies.len() == 1, ..)` -/
  | same_process_dependencies
  /-- `panic!("Cycle still present after removing all inter-process non-administrative
      edges: ..")` -/
  | cycle_remains
  /-- A panic of a summary. -/
  | summary (e : SummaryPanic)
  /-- A loop given more turns than the model bounds it by. -/
  | out_of_turns
deriving DecidableEq

/-- The parts of a `SummaryManager` that the traversal reads: the summaries (one kind
    of summary), the timeline graph and the end node of each process. -/
structure SummaryManager (T : Type) where
  summaries : SummaryWrapper T
  timeline : TimelineGraph
  end_node : SortedMap ℕ LamportEvent

namespace SummaryManager

variable {T : Type}

/-- The node at infinity, or the end node of a process. -/
def is_at_infinity (m : SummaryManager T) (node : LamportEvent) : Bool :=
  decide (node = EVENT_AT_INFINITY) || m.end_node.toList.any fun e => decide (e.2 = node)

def is_summarised (m : SummaryManager T) (node : LamportEvent) : Bool :=
  m.summaries.contains_summary_of node

/-- All the events that `node` depends on are summarised. -/
def can_be_summarised (m : SummaryManager T) (node : LamportEvent) : Bool :=
  (m.timeline.incoming node).all m.is_summarised

/-- `remove_dependency`: the edge from `from` to `to` removed, and `from` with its
    summary when no edge leaves it any more. -/
def remove_dependency (m : SummaryManager T) («from» «to» : LamportEvent) : SummaryManager T :=
  let timeline := m.timeline.remove_edges «from» «to»
  if timeline.outgoing «from» = [] then
    { m with summaries := m.summaries.remove_summary «from», timeline := timeline.remove_node «from» }
  else { m with timeline }

/-! ### Cycles -/

/-- `_remove_all_interprocess_edges`: the edges between `node` and the events of other
    processes not at infinity, both kept by `ev_filter`, removed. -/
def remove_all_interprocess_edges (m : SummaryManager T) (node : LamportEvent)
    (ev_filter : LamportEvent → Bool) : SummaryManager T :=
  if !ev_filter node then m
  else
    let crosses := fun (other : LamportEvent) =>
      !m.is_at_infinity other && decide (other.proc ≠ node.proc) && ev_filter other
    let ip_outgoing := (m.timeline.outgoing node).filter crosses
    let ip_incoming := (m.timeline.incoming node).filter crosses
    let m := ip_outgoing.foldl
      (fun m succ => { m with timeline := m.timeline.remove_edges node succ }) m
    ip_incoming.foldl (fun m pred => { m with timeline := m.timeline.remove_edges pred node }) m

/-- `_remove_all_interprocess_nonadministrative_edges`, which panics if a cycle is left. -/
def remove_all_interprocess_nonadministrative_edges (m : SummaryManager T) :
    Except ManagerPanic (SummaryManager T) :=
  let m := m.timeline.nodes.foldl
    (fun m node => m.remove_all_interprocess_edges node fun ev => !ev.is_administrative_event) m
  match m.timeline.toposort with
  | .ok _ => pure m
  | .error _ => throw .cycle_remains

/-- One turn of `detect_and_cleanup_cycles`, on the graph and the count of turns. -/
def cleanup_turn (s : SummaryManager T × ℕ) : Except ManagerPanic (SummaryManager T × ℕ) :=
  match s.1.timeline.toposort with
  | .ok _ => pure s
  | .error cycle => do
    let m := s.1.remove_all_interprocess_edges cycle fun _ => true
    let iterations := s.2 + 1
    if iterations > 10 then pure (← m.remove_all_interprocess_nonadministrative_edges, iterations)
    else pure (m, iterations)

/-- `detect_and_cleanup_cycles`: while the sort finds a cycle, the inter-process edges of
    the node it reports are removed, and after ten turns all the inter-process edges
    between events that are not administrative.  That last removal leaves no cycle or
    panics, so the loop ends within twelve turns. -/
def detect_and_cleanup_cycles (m : SummaryManager T) : Except ManagerPanic (SummaryManager T) :=
  (·.1) <$> whileM (fun s => pure s.1.timeline.toposort.toBool) cleanup_turn .out_of_turns 12 (m, 0)

/-- The filter of `construct_worklist`. -/
def ready (m : SummaryManager T) (node : LamportEvent) : Bool :=
  !m.is_at_infinity node && !m.is_summarised node && m.can_be_summarised node

theorem ready_iff {m : SummaryManager T} {node : LamportEvent} :
    m.ready node ↔ m.is_at_infinity node = false ∧ m.is_summarised node = false ∧
      ∀ d ∈ m.timeline.incoming node, m.is_summarised d := by
  simp [ready, can_be_summarised, and_assoc]

/-- `construct_worklist`: after the cycles are cleaned up, the nodes not at infinity, not
    summarised, whose dependencies all are, in the order of their indices. -/
def construct_worklist (m : SummaryManager T) :
    Except ManagerPanic (SummaryManager T × List LamportEvent) := do
  let m ← m.detect_and_cleanup_cycles
  pure (m, m.timeline.nodes.filter m.ready)

/-- On a graph without cycles the sort succeeds, and the clean-up changes nothing. -/
theorem detect_and_cleanup_cycles_of_acyclic {m : SummaryManager T} (h : m.timeline.Acyclic) :
    m.detect_and_cleanup_cycles = .ok m := by
  obtain ⟨order, horder⟩ := Toposort.toposort_ok h m.timeline.nodes
  let done := fun s : SummaryManager T × ℕ =>
    (pure s.1.timeline.toposort.toBool : Except ManagerPanic Bool)
  have hdone : done (m, 0) = .ok true := by
    simp only [done, TimelineGraph.toposort] at horder ⊢
    rw [horder]
    rfl
  rw [detect_and_cleanup_cycles, whileM_of_done done cleanup_turn ManagerPanic.out_of_turns hdone]
  rfl

theorem construct_worklist_of_acyclic {m : SummaryManager T} (h : m.timeline.Acyclic) :
    m.construct_worklist = .ok (m, m.timeline.nodes.filter m.ready) := by
  rw [construct_worklist, detect_and_cleanup_cycles_of_acyclic h]
  rfl

end SummaryManager

end Abstraktor.Feedback
