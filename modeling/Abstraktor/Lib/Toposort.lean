/-
  Kahn's topological sort of a finite graph given by a list of nodes and a list of
  edges, and why it succeeds on a graph without cycles.

  A round takes away the sources, the nodes that no edge from a remaining node
  enters; the sort fails with a remaining node when a round finds no source.  A graph
  is acyclic when no path of edges leads from a node back to it.  On the nodes of
  such a graph the paths form a well-founded order, whose least elements among the
  remaining nodes are sources (`sources_ne_nil`), so every round takes away a node
  and the sort succeeds within as many rounds as there are nodes (`toposort_ok`).
  A graph whose edges all go up in a rank is acyclic (`acyclic_of_rank`).
-/
import Mathlib

namespace Toposort

variable {α : Type} [DecidableEq α]

/-- The nodes of `nodes` that no edge from a node of `nodes` enters. -/
def sources (nodes : List α) (edges : List (α × α)) : List α :=
  nodes.filter fun n => !edges.any fun e => e.2 = n ∧ e.1 ∈ nodes

/-- Kahn's sort, a round of sources at a time, for at most `fuel` rounds: the nodes in
    an order in which every edge goes forward, or a node left when a round finds no
    source. -/
def kahn (edges : List (α × α)) : ℕ → List α → Except α (List α)
  | _, [] => .ok []
  | 0, n :: _ => .error n
  | fuel + 1, n :: nodes =>
    let s := sources (n :: nodes) edges
    if s = [] then .error n
    else (s ++ ·) <$> kahn edges fuel ((n :: nodes).filter (· ∉ s))

/-- The sort of a graph, with a round for each node. -/
def toposort (nodes : List α) (edges : List (α × α)) : Except α (List α) :=
  kahn edges nodes.length nodes

/-- No path of edges leads from a node back to it. -/
def Acyclic (edges : List (α × α)) : Prop :=
  ∀ n, ¬ Relation.TransGen (fun a b => (a, b) ∈ edges) n n

omit [DecidableEq α] in
/-- A graph whose edges all go up in some rank has no cycle. -/
theorem acyclic_of_rank {edges : List (α × α)} (rank : α → ℕ)
    (h : ∀ e ∈ edges, rank e.1 < rank e.2) : Acyclic edges := by
  -- along a path the rank goes up
  have hpath : ∀ {a b}, Relation.TransGen (fun a b => (a, b) ∈ edges) a b → rank a < rank b := by
    intro a b hab
    induction hab with
    | single hab => exact h _ hab
    | tail _ hbc ih => exact ih.trans (h _ hbc)
  exact fun n hn => lt_irrefl _ (hpath hn)

theorem mem_sources {nodes : List α} {edges : List (α × α)} {n : α} :
    n ∈ sources nodes edges ↔ n ∈ nodes ∧ ∀ p ∈ nodes, (p, n) ∉ edges := by
  simp only [sources, List.mem_filter, Bool.not_eq_true', List.any_eq_false, not_and,
    decide_eq_true_eq]
  constructor
  · rintro ⟨hn, h⟩
    exact ⟨hn, fun p hp he => h (p, n) he rfl hp⟩
  · rintro ⟨hn, h⟩
    refine ⟨hn, fun e he hen hp => h e.1 hp ?_⟩
    rw [← hen]
    exact he

/-- **A graph without cycles has a source** among any of its nodes: a least one in
    the order of paths, which is well founded on finitely many nodes. -/
theorem sources_ne_nil {edges : List (α × α)} (hacyc : Acyclic edges) {nodes : List α}
    (hne : nodes ≠ []) : sources nodes edges ≠ [] := by
  -- the order of paths between the listed nodes
  let path : {n // n ∈ nodes} → {n // n ∈ nodes} → Prop :=
    fun a b => Relation.TransGen (fun a b => (a, b) ∈ edges) a.1 b.1
  have htrans : IsTrans _ path := ⟨fun _ _ _ hab hbc => hab.trans hbc⟩
  have hirrefl : Std.Irrefl path := ⟨fun a => hacyc a.1⟩
  have hwf : WellFounded path := Finite.wellFounded_of_trans_of_irrefl path
  obtain ⟨n, hn⟩ := List.exists_mem_of_ne_nil _ hne
  obtain ⟨m, -, hmin⟩ := hwf.has_min Set.univ ⟨⟨n, hn⟩, trivial⟩
  -- nothing listed comes before the least node, so it is a source
  have hsource : m.1 ∈ sources nodes edges :=
    mem_sources.2 ⟨m.2, fun p hp he => hmin ⟨p, hp⟩ trivial (Relation.TransGen.single he)⟩
  exact List.ne_nil_of_mem hsource

/-- A round takes away at least one node. -/
theorem length_filter_not_mem_sources_lt {edges : List (α × α)} {nodes : List α}
    (hs : sources nodes edges ≠ []) :
    (nodes.filter (· ∉ sources nodes edges)).length < nodes.length := by
  obtain ⟨n, hn⟩ := List.exists_mem_of_ne_nil _ hs
  refine List.length_filter_lt_length_iff_exists.2 ⟨n, (mem_sources.1 hn).1, ?_⟩
  simpa using hn

theorem kahn_ok {edges : List (α × α)} (hacyc : Acyclic edges) :
    ∀ (fuel : ℕ) (nodes : List α), nodes.length ≤ fuel → ∃ order, kahn edges fuel nodes = .ok order
  | _, [], _ => ⟨[], by cases ‹ℕ› <;> rfl⟩
  | 0, n :: nodes, h => absurd h (by simp)
  | fuel + 1, n :: nodes, h => by
    have hs := sources_ne_nil hacyc (List.cons_ne_nil n nodes)
    -- the rest has fewer nodes than the rounds left
    obtain ⟨order, hrest⟩ := kahn_ok hacyc fuel ((n :: nodes).filter (· ∉ sources (n :: nodes) edges))
      (Nat.le_of_lt_succ (lt_of_lt_of_le (length_filter_not_mem_sources_lt hs) h))
    refine ⟨sources (n :: nodes) edges ++ order, ?_⟩
    rw [kahn, if_neg hs, hrest]
    rfl

/-- **Kahn's sort succeeds on a graph without cycles.** -/
theorem toposort_ok {edges : List (α × α)} (hacyc : Acyclic edges) (nodes : List α) :
    ∃ order, toposort nodes edges = .ok order :=
  kahn_ok hacyc _ nodes le_rfl

end Toposort
