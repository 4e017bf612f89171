/-
  The event graph of a mediator log (src/model/event_graph.rs).

  `parse_mediator_log_line` reads a record (node, transition, state) from a log
  line by first-occurrence searches for its markers; `build_event_graph` makes,
  for each node, the set of its states and the set of its edges, an edge going
  from the state of a record of the node, by the transition of that record, to
  the state of the next record of the node.

  A `HashSet` is a `SortedMap` to `Unit`: the code only iterates over a set
  before sorting what it collected, so the order of the iteration does not
  matter; the same holds of the ids of the nodes.

  * `collect_lines_eq`, `chain_records_inv`: the two loops, as folds over the
    records of the log (`log_records`);
  * `build_event_graph_nodes`: the nodes of the graph are the nodes of the
    records, each with the sorted set of its states and the sorted set of the
    edges between its consecutive records, and the graph of a node only depends
    on the records of that node.
-/
import Mathlib
import Abstraktor.Lib.SortedMap
import Abstraktor.Str

namespace Abstraktor

/-- A record of the log: `EventRecord`. -/
structure EventRecord where
  node_id : ℕ
  transition : List Char
  state : List Char
deriving DecidableEq, Repr

/-- An edge of the graph of a node. -/
structure Edge where
  «from» : List Char
  transition : List Char
  «to» : List Char
deriving DecidableEq, Repr

/-- The key by which edges are compared: source, target, transition. -/
def Edge.key (e : Edge) : List Char ×ₗ List Char ×ₗ List Char :=
  toLex (e.«from», toLex (e.«to», e.transition))

theorem Edge.key_injective : Function.Injective Edge.key := by
  intro a b h
  simp only [Edge.key, toLex_inj, Prod.mk.injEq] at h
  cases a
  cases b
  simp_all

instance : LinearOrder Edge := LinearOrder.lift' Edge.key Edge.key_injective

/-- The graph of one node: its states and its edges, each sorted. -/
structure NodeGraph where
  states : List (List Char)
  edges : List Edge
deriving DecidableEq, Repr

/-- The graphs of the nodes, by node id. -/
@[ext] structure EventGraph where
  nodes : SortedMap ℕ NodeGraph
deriving DecidableEq

/-- The parser of a line of the mediator log. -/
def parse_mediator_log_line (line : List Char) : Option EventRecord := do
  let relevant_part ← find line "[Node ".toList
  let relevant_part := line.drop relevant_part
  let node_start := "[Node ".toList.length
  let node_end ← find (relevant_part.drop node_start) " ".toList
  let node_id ← parse_u32 ((relevant_part.drop node_start).take node_end)
  let function_marker := "@ FunctionName ".toList
  let function_start := (← find relevant_part function_marker) + function_marker.length
  let function_end ← find (relevant_part.drop function_start) " @ ".toList
  let transition := (relevant_part.drop function_start).take function_end
  let state ← match find relevant_part "@ state ".toList with
    | some state_marker_pos =>
      some (trim (relevant_part.drop (state_marker_pos + "@ state ".toList.length)))
    | none =>
      match find relevant_part "@ constant ".toList with
      | some const_marker_pos =>
        some (trim (relevant_part.drop (const_marker_pos + "@ constant ".toList.length)))
      | none => none
  pure ⟨node_id, transition, state⟩

/-- The comparator of `sort_unstable_by` on edges: source, then target, then
    transition. -/
def edge_cmp (l r : Edge) : Ordering :=
  match cmp l.«from» r.«from» with
  | .eq =>
    match cmp l.«to» r.«to» with
    | .eq => cmp l.transition r.transition
    | o => o
  | o => o

/-- One line of the first loop: a trimmed line that is not blank and parses
    gives a record, and the state of the record goes to the set of its node. -/
def collect_line (acc : List EventRecord × SortedMap ℕ (SortedMap (List Char) Unit))
    (line : List Char) : List EventRecord × SortedMap ℕ (SortedMap (List Char) Unit) :=
  let trimmed := trim line
  if trimmed.isEmpty then acc
  else
    match parse_mediator_log_line trimmed with
    | some record => (acc.1 ++ [record], acc.2.addTo record.node_id record.state)
    | none => acc

/-- One record of the second loop: the edge from the last record of its node,
    if there is one, and the record becomes the last of its node. -/
def chain_record (acc : SortedMap ℕ (SortedMap Edge Unit) × SortedMap ℕ (List Char × List Char))
    (rec : EventRecord) :
    SortedMap ℕ (SortedMap Edge Unit) × SortedMap ℕ (List Char × List Char) :=
  let edges_by_node := match acc.2.get? rec.node_id with
    | some (prev_state, prev_transition) =>
      acc.1.addTo rec.node_id ⟨prev_state, prev_transition, rec.state⟩
    | none => acc.1
  (edges_by_node, acc.2.insert rec.node_id (rec.state, rec.transition))

/-- The graph of a node from the two maps of sets. -/
def node_graph (states_by_node : SortedMap ℕ (SortedMap (List Char) Unit))
    (edges_by_node : SortedMap ℕ (SortedMap Edge Unit)) (node_id : ℕ) : NodeGraph :=
  let states := states_by_node.members node_id
  let edges := edges_by_node.members node_id
  ⟨states.insertionSort (· ≤ ·), edges.insertionSort fun l r => edge_cmp l r != .gt⟩

/-- The function `build_event_graph`. -/
def build_event_graph (log : List Char) : EventGraph :=
  let (records, states_by_node) := (lines log).foldl collect_line ([], .empty)
  let (edges_by_node, _) := records.foldl chain_record (.empty, .empty)
  let all_node_ids : SortedMap ℕ Unit :=
    (states_by_node.keys ++ edges_by_node.keys).foldl (fun s k => s.insert k ()) .empty
  ⟨all_node_ids.keys.foldl
    (fun nodes node_id => nodes.insert node_id (node_graph states_by_node edges_by_node node_id))
    .empty⟩

/-! ## The order of edges -/

theorem edge_cmp_eq_lt_iff (l r : Edge) : edge_cmp l r = .lt ↔ l < r := by
  show _ ↔ l.key < r.key
  simp only [edge_cmp, Edge.key, Prod.Lex.toLex_lt_toLex]
  -- the comparator decides on the first field that differs
  rcases lt_trichotomy l.«from» r.«from» with h | h | h
  · simp [cmp_eq_lt_iff.2 h, h]
  · rw [cmp_eq_eq_iff.2 h]
    rcases lt_trichotomy l.«to» r.«to» with h' | h' | h'
    · simp [cmp_eq_lt_iff.2 h', h, h']
    · rw [cmp_eq_eq_iff.2 h']
      simp [h, h', cmp_eq_lt_iff]
    · simp [cmp_eq_gt_iff.2 h', h, not_lt_of_gt h', ne_of_gt h']
  · simp [cmp_eq_gt_iff.2 h, not_lt_of_gt h, ne_of_gt h]

/-! ## The records of a log -/

/-- The records of a log: its trimmed lines that are not blank and parse, in order. -/
def log_records (log : List Char) : List EventRecord :=
  (((lines log).map trim).filter fun l => !l.isEmpty).filterMap parse_mediator_log_line

/-- The records of node `n`, in order. -/
def node_records (records : List EventRecord) (n : ℕ) : List EventRecord :=
  records.filter (·.node_id = n)

/-- The edges between consecutive records: from the state of a record, by its
    transition, to the state of the next one. -/
def consecutive_edges : List EventRecord → List Edge
  | r :: r' :: rs => ⟨r.state, r.transition, r'.state⟩ :: consecutive_edges (r' :: rs)
  | _ => []

theorem consecutive_edges_append_singleton (r : EventRecord) :
    ∀ rs : List EventRecord, consecutive_edges (rs ++ [r]) =
      consecutive_edges rs ++ (rs.getLast?.map fun x => Edge.mk x.state x.transition r.state).toList
  | [] => rfl
  | [x] => rfl
  | x :: y :: rs => by
    rw [List.cons_append, List.cons_append, consecutive_edges, ← List.cons_append,
      consecutive_edges_append_singleton r (y :: rs), consecutive_edges,
      List.getLast?_cons_cons, List.cons_append]

/-- Both ends of an edge between consecutive records are states of the records. -/
theorem mem_consecutive_edges {e : Edge} :
    ∀ {rs : List EventRecord}, e ∈ consecutive_edges rs →
      e.«from» ∈ rs.map (·.state) ∧ e.«to» ∈ rs.map (·.state)
  | [], h => by cases h
  | [_], h => by cases h
  | x :: y :: rs, h => by
    rcases List.mem_cons.1 h with rfl | h
    · simp
    · obtain ⟨h₁, h₂⟩ := mem_consecutive_edges h
      exact ⟨List.mem_cons_of_mem _ h₁, List.mem_cons_of_mem _ h₂⟩

theorem node_records_append_singleton (P : List EventRecord) (r : EventRecord) (n : ℕ) :
    node_records (P ++ [r]) n = node_records P n ++ if r.node_id = n then [r] else [] := by
  by_cases h : r.node_id = n <;> simp [node_records, List.filter_append, h]

/-! ## The two loops -/

/-- The first loop: the records of the lines, and the states of each node. -/
theorem collect_lines_eq (ls : List (List Char)) :
    ∀ acc : List EventRecord × SortedMap ℕ (SortedMap (List Char) Unit),
      ls.foldl collect_line acc =
        (acc.1 ++ ((ls.map trim).filter fun l => !l.isEmpty).filterMap parse_mediator_log_line,
          (((ls.map trim).filter fun l => !l.isEmpty).filterMap parse_mediator_log_line).foldl
            (fun m r => m.addTo r.node_id r.state) acc.2) := by
  induction ls with
  | nil => intro acc; simp
  | cons l ls ih =>
    intro acc
    rw [List.foldl_cons, ih]
    unfold collect_line
    by_cases he : (trim l).isEmpty
    · simp [he]
    · cases hp : parse_mediator_log_line (trim l) with
      | none => simp [he, hp]
      | some record => simp [he, hp]

/-- What the second loop has built after the records `P`: the last record of
    each node, and the edges between the consecutive records of each node. -/
def ChainInv (P : List EventRecord)
    (acc : SortedMap ℕ (SortedMap Edge Unit) × SortedMap ℕ (List Char × List Char)) : Prop :=
  (∀ n, acc.2.get? n = ((node_records P n).getLast?).map fun r => (r.state, r.transition)) ∧
  (∀ n e, e ∈ acc.1.members n ↔ e ∈ consecutive_edges (node_records P n)) ∧
  (∀ n, (acc.1.get? n).isSome → n ∈ P.map (·.node_id))

theorem chain_record_inv {P : List EventRecord}
    {acc : SortedMap ℕ (SortedMap Edge Unit) × SortedMap ℕ (List Char × List Char)}
    (h : ChainInv P acc) (r : EventRecord) : ChainInv (P ++ [r]) (chain_record acc r) := by
  obtain ⟨hlast, hedges, hkeys⟩ := h
  -- the edge that the record adds, from the last record of its node
  have hnew : (chain_record acc r).1 = match (node_records P r.node_id).getLast? with
      | some x => acc.1.addTo r.node_id ⟨x.state, x.transition, r.state⟩
      | none => acc.1 := by
    simp only [chain_record, hlast]
    cases (node_records P r.node_id).getLast? <;> rfl
  refine ⟨fun n => ?_, fun n e => ?_, fun n hn => ?_⟩
  · simp only [chain_record, SortedMap.get?_insert, node_records_append_singleton]
    by_cases hn : n = r.node_id
    · subst hn; simp
    · simp [hn, Ne.symm hn, hlast]
  · rw [hnew, node_records_append_singleton]
    by_cases hn : r.node_id = n
    · subst hn
      rw [if_pos rfl, consecutive_edges_append_singleton]
      cases (node_records P r.node_id).getLast? with
      | none => simp [hedges]
      | some x => simp [SortedMap.mem_members_addTo, hedges, or_comm]
    · rw [if_neg hn, List.append_nil, ← hedges]
      cases (node_records P r.node_id).getLast? with
      | none => rfl
      | some x => simp [SortedMap.mem_members_addTo, Ne.symm hn]
  · rw [hnew] at hn
    simp only [List.map_append, List.mem_append, List.map_cons, List.map_nil, List.mem_singleton]
    cases hx : (node_records P r.node_id).getLast? with
    | none => rw [hx] at hn; exact Or.inl (hkeys n hn)
    | some x =>
      rw [hx] at hn
      rcases SortedMap.isSome_get?_addTo.1 hn with rfl | hn
      · exact Or.inr rfl
      · exact Or.inl (hkeys n hn)

/-- The second loop, run over all the records. -/
theorem chain_records_inv (records : List EventRecord) :
    ChainInv records (records.foldl chain_record (.empty, .empty)) := by
  induction records using List.reverseRecOn with
  | nil => exact ⟨fun n => rfl, fun n e => by simp [SortedMap.members_empty, node_records,
      consecutive_edges], fun n hn => by cases hn⟩
  | append_singleton P r ih =>
    rw [List.foldl_append, List.foldl_cons, List.foldl_nil]
    exact chain_record_inv ih r

/-! ## The graph -/

/-- The sets of states that the first loop builds from the records. -/
def states_of (records : List EventRecord) : SortedMap ℕ (SortedMap (List Char) Unit) :=
  records.foldl (fun m r => m.addTo r.node_id r.state) .empty

/-- The sets of edges that the second loop builds from the records. -/
def edges_of (records : List EventRecord) : SortedMap ℕ (SortedMap Edge Unit) :=
  (records.foldl chain_record (.empty, .empty)).1

section Records

variable (records : List EventRecord)

theorem mem_keys_states_of (n : ℕ) :
    n ∈ (states_of records).keys ↔ n ∈ records.map (·.node_id) := by
  rw [SortedMap.mem_keys, states_of, SortedMap.isSome_get?_foldl_addTo]
  simp

theorem mem_members_states_of (n : ℕ) (s : List Char) :
    s ∈ (states_of records).members n ↔ s ∈ (node_records records n).map (·.state) := by
  rw [states_of, SortedMap.mem_members_foldl_addTo, SortedMap.members_empty]
  simp [node_records, and_assoc]

theorem mem_members_edges_of (n : ℕ) (e : Edge) :
    e ∈ (edges_of records).members n ↔ e ∈ consecutive_edges (node_records records n) :=
  (chain_records_inv records).2.1 n e

theorem mem_keys_edges_of {n : ℕ} (h : n ∈ (edges_of records).keys) :
    n ∈ records.map (·.node_id) :=
  (chain_records_inv records).2.2 n (SortedMap.mem_keys.1 h)

/-- The sort of the collected sets leaves them in place: they are sorted already. -/
theorem node_graph_eq (n : ℕ) :
    node_graph (states_of records) (edges_of records) n =
      ⟨(states_of records).members n, (edges_of records).members n⟩ := by
  have hs := (SortedMap.members_sorted (states_of records) n).imp le_of_lt
  have he := (SortedMap.members_sorted (edges_of records) n).imp fun h =>
    show edge_cmp _ _ != .gt by rw [(edge_cmp_eq_lt_iff _ _).2 h]; rfl
  simp only [node_graph, List.Pairwise.insertionSort_eq hs, List.Pairwise.insertionSort_eq he]

end Records

section Graph

variable (log : List Char)

theorem get?_build_event_graph (n : ℕ) :
    (build_event_graph log).nodes.get? n =
      if n ∈ (states_of (log_records log)).keys ∨ n ∈ (edges_of (log_records log)).keys
      then some (node_graph (states_of (log_records log)) (edges_of (log_records log)) n)
      else none := by
  simp only [build_event_graph, collect_lines_eq, List.nil_append]
  simp only [SortedMap.get?_foldl_insert_fun, SortedMap.mem_keys_foldl_insert, List.mem_append,
    SortedMap.keys_empty, List.not_mem_nil, or_false, SortedMap.get?_empty]
  rfl

/-- The node `n` of the graph: present when a record has node `n`, with the
    states and the edges that the two loops collected for it. -/
theorem get?_build_event_graph_eq (n : ℕ) :
    (build_event_graph log).nodes.get? n =
      if n ∈ (log_records log).map (·.node_id)
      then some ⟨(states_of (log_records log)).members n, (edges_of (log_records log)).members n⟩
      else none := by
  rw [get?_build_event_graph, node_graph_eq]
  -- a node with edges has records
  have hkeys : n ∈ (edges_of (log_records log)).keys → n ∈ (log_records log).map (·.node_id) :=
    mem_keys_edges_of _
  by_cases hn : n ∈ (log_records log).map (·.node_id)
  · simp [hn, (mem_keys_states_of _ n).2 hn]
  · simp [hn, mt hkeys hn, mt (mem_keys_states_of _ n).1 hn]

/-- Edges sorted by the comparator are sorted by the order of edges. -/
theorem pairwise_edge_cmp_iff {es : List Edge} :
    es.Pairwise (fun a b => edge_cmp a b = .lt) ↔ es.Pairwise (· < ·) := by
  simp only [edge_cmp_eq_lt_iff]

/-- **The event graph of a log.**  Its nodes are the nodes of the records of the
    log; the graph of a node has the states of its records, sorted without
    repetition, and the edges between its consecutive records, sorted by source,
    target and transition without repetition, so that both ends of an edge are
    states; and it only depends on the records of that node, in their order. -/
theorem build_event_graph_nodes (log : List Char) :
    (∀ n, ((build_event_graph log).nodes.get? n).isSome ↔ n ∈ (log_records log).map (·.node_id)) ∧
    (∀ n g, (build_event_graph log).nodes.get? n = some g →
      g.states.Pairwise (· < ·) ∧
      (∀ s, s ∈ g.states ↔ s ∈ (node_records (log_records log) n).map (·.state)) ∧
      g.edges.Pairwise (fun a b => edge_cmp a b = .lt) ∧
      (∀ e, e ∈ g.edges ↔ e ∈ consecutive_edges (node_records (log_records log) n)) ∧
      ∀ e ∈ g.edges, e.«from» ∈ g.states ∧ e.«to» ∈ g.states) ∧
    ∀ log', (∀ n, node_records (log_records log') n = node_records (log_records log) n) →
      build_event_graph log' = build_event_graph log := by
  refine ⟨fun n => ?_, fun n g hg => ?_, fun log' hrec => ?_⟩
  · rw [get?_build_event_graph_eq]
    split_ifs with hn <;> simp [hn]
  · rw [get?_build_event_graph_eq] at hg
    split_ifs at hg with hn
    cases hg
    have hstates := mem_members_states_of (log_records log) n
    have hedges := mem_members_edges_of (log_records log) n
    refine ⟨SortedMap.members_sorted _ n, hstates, pairwise_edge_cmp_iff.2 (SortedMap.members_sorted _ n),
      hedges, fun e he => ?_⟩
    obtain ⟨hfrom, hto⟩ := mem_consecutive_edges ((hedges e).1 he)
    exact ⟨(hstates _).2 hfrom, (hstates _).2 hto⟩
  · -- node by node, the two graphs have the same members, each sorted
    refine EventGraph.ext (SortedMap.ext fun n => ?_)
    have hmem : n ∈ (log_records log').map (·.node_id) ↔ n ∈ (log_records log).map (·.node_id) := by
      simp only [List.mem_map]
      constructor
      · rintro ⟨r, hr, rfl⟩
        have : r ∈ node_records (log_records log) r.node_id := by
          rw [← hrec]; simp [node_records, hr]
        exact ⟨r, (List.mem_filter.1 this).1, rfl⟩
      · rintro ⟨r, hr, rfl⟩
        have : r ∈ node_records (log_records log') r.node_id := by
          rw [hrec]; simp [node_records, hr]
        exact ⟨r, (List.mem_filter.1 this).1, rfl⟩
    have hs : (states_of (log_records log')).members n = (states_of (log_records log)).members n :=
      SortedMap.eq_of_sorted_of_mem_iff (SortedMap.members_sorted _ n)
        (SortedMap.members_sorted _ n) fun s => by
          rw [mem_members_states_of, mem_members_states_of, hrec]
    have he : (edges_of (log_records log')).members n = (edges_of (log_records log)).members n :=
      SortedMap.eq_of_sorted_of_mem_iff (SortedMap.members_sorted _ n)
        (SortedMap.members_sorted _ n) fun e => by
          rw [mem_members_edges_of, mem_members_edges_of, hrec]
    simp only [get?_build_event_graph_eq, hmem, hs, he]

end Graph

end Abstraktor
