/-
  The DOT text of the graph of a node (`dot_for_node_graph`, src/model/event_graph.rs).

  The edges are grouped by source and target in a B-tree map, the transitions of each
  group sorted.  The text has four header lines, a line for each state in order, a
  line for each group in increasing order of source and target, whose label joins the
  group's transitions by <BR/>, and a closing line.  Nothing is escaped.

  * `dot_for_node_graph_eq`: the text is the header, the lines of the states and the
    lines of the groups (`edge_groups`), then the closing line;
  * `mem_edge_groups`: a group is a pair of source and target of some edge, with the
    transitions of the edges of that pair, sorted;
  * `read_dot_dot_for_node_graph`: when no name holds a quote, a < or a line break,
    the text read back line by line (`read_dot`) gives the states and the edges of
    the groups, which are the edges of the graph up to order.
-/
import Mathlib
import Abstraktor.Lib.ListSearch
import Abstraktor.Lib.SortedMap
import Abstraktor.Str
import Abstraktor.EventGraph.Graph

namespace Abstraktor

open ListSearch

/-! ## The text -/

/-- The edges' transitions by source and target (`grouped`), each group sorted. -/
def edge_groups (edges : List Edge) : SortedMap (List Char ×ₗ List Char) (List (List Char)) :=
  (SortedMap.groupBy (fun e => toLex (e.«from», e.«to»)) (·.transition) edges).mapVal
    fun _ labels => labels.mergeSort fun a b => decide (a ≤ b)

/-- The four lines before the states. -/
def dot_header : List Char :=
  "digraph G\x7b\n".toList ++ "    rankdir=LR;\n".toList ++
    "    node [shape=circle, fontsize=10, width=0.5];\n".toList ++ "    edge [fontsize=9];\n".toList

/-- The line of a state. -/
def node_line (s : List Char) : List Char := "    \"".toList ++ s ++ "\";\n".toList

/-- The line of the edges from `from` to `to`, labelled with their transitions. -/
def edge_line («from» «to» : List Char) (labels : List (List Char)) : List Char :=
  let label_str := "<BR/>".toList.intercalate labels
  "    \"".toList ++ «from» ++ "\" -> \"".toList ++ «to» ++ "\" [label=<".toList ++ label_str ++
    ">];\n".toList

/-- The line of a group of the map. -/
def group_line (g : (List Char ×ₗ List Char) × List (List Char)) : List Char :=
  edge_line (ofLex g.1).1 (ofLex g.1).2 g.2

def dot_for_node_graph (node : NodeGraph) : List Char :=
  let grouped := edge_groups node.edges
  let out := dot_header
  let out := node.states.foldl (fun out s => out ++ node_line s) out
  let out := grouped.toList.foldl (fun out g => out ++ group_line g) out
  out ++ "\x7d\n".toList

theorem dot_for_node_graph_eq (node : NodeGraph) :
    dot_for_node_graph node = dot_header ++ (node.states.map node_line).flatten ++
      ((edge_groups node.edges).toList.map group_line).flatten ++ "\x7d\n".toList := by
  simp only [dot_for_node_graph, List.foldl_append_eq_append]

/-! ## The groups -/

/-- The edges from `f` to `t`. -/
def edges_between (edges : List Edge) (f t : List Char) : List Edge :=
  SortedMap.withKey (fun e => toLex (e.«from», e.«to»)) edges (toLex (f, t))

theorem get?_edge_groups (edges : List Edge) (f t : List Char) :
    (edge_groups edges).get? (toLex (f, t)) =
      if edges_between edges f t = [] then none
      else some (((edges_between edges f t).map (·.transition)).mergeSort fun a b => decide (a ≤ b)) := by
  rw [edge_groups, edges_between, SortedMap.get?_mapVal, SortedMap.get?_groupBy]
  split_ifs <;> rfl

/-- A group: a source and a target of some edge, with the transitions of the edges
    between them, sorted, none left out. -/
theorem mem_edge_groups {edges : List Edge} {f t : List Char} {labels : List (List Char)}
    (h : (toLex (f, t), labels) ∈ (edge_groups edges).toList) :
    edges_between edges f t ≠ [] ∧ labels.Pairwise (· ≤ ·) ∧
      labels.Perm ((edges_between edges f t).map (·.transition)) := by
  rw [SortedMap.mem_toList, get?_edge_groups] at h
  split_ifs at h with hne
  cases h
  have hsorted : (((edges_between edges f t).map (·.transition)).mergeSort
      fun a b => decide (a ≤ b)).Pairwise fun a b => decide (a ≤ b) = true :=
    List.pairwise_mergeSort
      (fun a b c hab hbc => by simpa using (of_decide_eq_true hab).trans (of_decide_eq_true hbc))
      (fun a b => by simpa using le_total a b) _
  exact ⟨hne, by simpa using hsorted, List.mergeSort_perm _ _⟩

theorem labels_ne_nil {edges : List Edge} {g : (List Char ×ₗ List Char) × List (List Char)}
    (h : g ∈ (edge_groups edges).toList) : g.2 ≠ [] := by
  obtain ⟨⟨f, t⟩, labels⟩ := g
  obtain ⟨hne, -, hperm⟩ := mem_edge_groups h
  rw [Ne, ← List.length_eq_zero_iff, hperm.length_eq, List.length_map, List.length_eq_zero_iff]
  exact hne

theorem mem_keys_edge_groups {edges : List Edge} {f t : List Char} :
    toLex (f, t) ∈ (edge_groups edges).keys ↔ ∃ e ∈ edges, e.«from» = f ∧ e.«to» = t := by
  rw [SortedMap.mem_keys, get?_edge_groups]
  split_ifs with h
  · simp only [Option.isSome_none, Bool.false_eq_true, false_iff, not_exists, not_and]
    intro e he hf ht
    exact List.filter_eq_nil_iff.1 h e he (by simp [hf, ht])
  · obtain ⟨e, he⟩ := List.exists_mem_of_ne_nil _ h
    simp only [edges_between, SortedMap.withKey, List.mem_filter, decide_eq_true_eq,
      toLex_inj, Prod.mk.injEq] at he
    simpa using ⟨e, he.1, he.2⟩

/-! ## Reading the text back -/

/-- The characters that the text would have to escape: quote, backslash, angle
    brackets, ampersand, line break. -/
def escaped_chars : List Char := ['"', '\\', '<', '>', '&', '\n']

/-- A name that the text holds as it is. -/
def plain_name (s : List Char) : Prop := ∀ c ∈ s, c ∉ escaped_chars

instance plain_name.decidablePred : DecidablePred plain_name := fun s =>
  inferInstanceAs (Decidable (∀ c ∈ s, c ∉ escaped_chars))

/-- The names of a graph, none of which holds an escaped character. -/
def plain_graph (g : NodeGraph) : Prop :=
  (∀ s ∈ g.states, plain_name s) ∧
    ∀ e ∈ g.edges, plain_name e.«from» ∧ plain_name e.transition ∧ plain_name e.«to»

instance plain_graph.decidablePred : DecidablePred plain_graph := fun g =>
  inferInstanceAs (Decidable ((∀ s ∈ g.states, plain_name s) ∧
    ∀ e ∈ g.edges, plain_name e.«from» ∧ plain_name e.transition ∧ plain_name e.«to»))

/-- A line of the body of the text. -/
inductive DotLine
  | node (s : List Char)
  | edge («from» «to» : List Char) (labels : List (List Char))
deriving DecidableEq

/-- The state of a node line. -/
def DotLine.state? : DotLine → Option (List Char)
  | .node s => some s
  | .edge .. => none

/-- The edges of an edge line, one for each transition of its label. -/
def DotLine.edges : DotLine → List Edge
  | .node _ => []
  | .edge «from» «to» labels => labels.map fun transition => ⟨«from», transition, «to»⟩

/-- Read a line of the body, without its line break: a quoted state, or a quoted
    source and target with a label whose transitions are cut at each <BR/>. -/
def read_line (line : List Char) : Option DotLine :=
  match split line ['"'] with
  | [indent, s, semi] =>
    if indent = "    ".toList ∧ semi = [';'] then some (.node s) else none
  | [indent, «from», arrow, «to», rest] =>
    if indent = "    ".toList ∧ arrow = " -> ".toList then
      (rest.dropPrefix? " [label=<".toList).bind fun rest =>
        (rest.dropSuffix? ">];".toList).map fun label_str =>
          .edge «from» «to» (split label_str "<BR/>".toList)
    else none
  | _ => none

/-- The header lines, without their line breaks. -/
def dot_header_lines : List (List Char) :=
  ["digraph G\x7b".toList, "    rankdir=LR;".toList,
    "    node [shape=circle, fontsize=10, width=0.5];".toList, "    edge [fontsize=9];".toList]

/-- Read a text: the header lines, the lines of the body, and the closing line
    followed by nothing; the states and the edges of the lines of the body. -/
def read_dot (text : List Char) : Option (List (List Char) × List Edge) :=
  match (split text ['\n']).reverse with
  | [] :: close :: rbody =>
    if close = "\x7d".toList ∧ rbody.reverse.take 4 = dot_header_lines then
      ((rbody.reverse.drop 4).mapM read_line).map fun body =>
        (body.filterMap DotLine.state?, body.flatMap DotLine.edges)
    else none
  | _ => none

/-! ### The lines, cut at their quotes -/

/-- The fields of the line of a state, between its quotes. -/
def node_fields (s : List Char) : List (List Char) := ["    ".toList, s, [';']]

/-- The fields of the line of an edge group, between its quotes. -/
def edge_fields («from» «to» : List Char) (labels : List (List Char)) : List (List Char) :=
  ["    ".toList, «from», " -> ".toList, «to»,
    " [label=<".toList ++ "<BR/>".toList.intercalate labels ++ ">];".toList]

theorem node_line_eq (s : List Char) :
    node_line s = ['"'].intercalate (node_fields s) ++ ['\n'] := by
  simp [node_line, node_fields]

theorem edge_line_eq («from» «to» : List Char) (labels : List (List Char)) :
    edge_line «from» «to» labels = ['"'].intercalate (edge_fields «from» «to» labels) ++ ['\n'] := by
  -- the literals of the line, cut at their quotes
  have h₁ : "    \"".toList = "    ".toList ++ ['"'] := by decide
  have h₂ : "\" -> \"".toList = ['"'] ++ (" -> ".toList ++ ['"']) := by decide
  have h₃ : "\" [label=<".toList = ['"'] ++ " [label=<".toList := by decide
  have h₄ : ">];\n".toList = ">];".toList ++ ['\n'] := by decide
  unfold edge_line edge_fields
  rw [h₁, h₂, h₃, h₄]
  simp only [List.intercalate_cons_cons, List.intercalate_singleton, List.append_assoc]

/-- A character of none of the literals of a state's line, and not of the state. -/
theorem not_mem_node_fields {c : Char} {s : List Char} (hlit : c ∉ "    ".toList ∧ c ≠ ';')
    (hs : c ∉ s) : ∀ l ∈ node_fields s, c ∉ l := by
  intro l hl
  simp only [node_fields, List.mem_cons, List.not_mem_nil, or_false] at hl
  rcases hl with rfl | rfl | rfl
  · exact hlit.1
  · exact hs
  · simpa using hlit.2

/-- A character of none of the literals of an edge line, and not of its names. -/
theorem not_mem_edge_fields {c : Char} {f t : List Char} {labels : List (List Char)}
    (hlit : c ∉ "    ".toList ∧ c ∉ " -> ".toList ∧ c ∉ " [label=<".toList ∧ c ∉ ">];".toList ∧
      c ∉ "<BR/>".toList)
    (hf : c ∉ f) (ht : c ∉ t) (hlabels : ∀ l ∈ labels, c ∉ l) :
    ∀ l ∈ edge_fields f t labels, c ∉ l := by
  obtain ⟨h₁, h₂, h₃, h₄, hsep⟩ := hlit
  intro l hl
  simp only [edge_fields, List.mem_cons, List.not_mem_nil, or_false] at hl
  rcases hl with rfl | rfl | rfl | rfl | rfl
  · exact h₁
  · exact hf
  · exact h₂
  · exact ht
  · -- the label, between its brackets
    simp only [List.mem_append, not_or]
    exact ⟨⟨h₃, not_mem_intercalate hsep hlabels⟩, h₄⟩

theorem split_node_fields {s : List Char} (hs : '"' ∉ s) :
    split (['"'].intercalate (node_fields s)) ['"'] = node_fields s :=
  splitOn_intercalate (List.cons_ne_nil _ _) (List.cons_ne_nil _ _) fun l hl =>
    noStart_of_not_mem (not_mem_node_fields (by decide) hs l hl)

theorem read_line_node {s : List Char} (hs : '"' ∉ s) :
    read_line (['"'].intercalate (node_fields s)) = some (.node s) := by
  rw [read_line, split_node_fields hs]
  simp [node_fields]

theorem split_edge_fields {f t : List Char} {labels : List (List Char)} (hf : '"' ∉ f)
    (ht : '"' ∉ t) (hlabels : ∀ l ∈ labels, '"' ∉ l) :
    split (['"'].intercalate (edge_fields f t labels)) ['"'] = edge_fields f t labels :=
  splitOn_intercalate (List.cons_ne_nil _ _) (List.cons_ne_nil _ _) fun l hl =>
    noStart_of_not_mem (not_mem_edge_fields (by decide) hf ht hlabels l hl)

/-- Cutting the label at each <BR/> gives the transitions back, when none holds a <. -/
theorem split_label {labels : List (List Char)} (hne : labels ≠ []) (hlabels : ∀ l ∈ labels, '<' ∉ l) :
    split ("<BR/>".toList.intercalate labels) "<BR/>".toList = labels := by
  have hsep : "<BR/>".toList = '<' :: "BR/>".toList := by decide
  rw [split, hsep]
  exact splitOn_intercalate (List.cons_ne_nil _ _) hne fun l hl => noStart_of_not_mem (hlabels l hl)

theorem read_line_edge {f t : List Char} {labels : List (List Char)} (hf : '"' ∉ f) (ht : '"' ∉ t)
    (hlabels : ∀ l ∈ labels, '"' ∉ l ∧ '<' ∉ l) (hne : labels ≠ []) :
    read_line (['"'].intercalate (edge_fields f t labels)) = some (.edge f t labels) := by
  rw [read_line, split_edge_fields hf ht fun l hl => (hlabels l hl).1]
  simp only [edge_fields, and_self, if_true, List.append_assoc]
  -- the label comes out of its brackets, then apart at its separators
  rw [List.dropPrefix?_append_of_beq _ (beq_self_eq_true _), Option.bind_some,
    List.dropSuffix?_eq_some_iff.2 ⟨">];".toList, rfl, beq_self_eq_true _⟩, Option.map_some,
    split_label hne fun l hl => (hlabels l hl).2]

/-! ### The text, cut at its line breaks -/

/-- The lines between the header and the closing line, without their line breaks. -/
def body_lines (node : NodeGraph) : List (List Char) :=
  node.states.map (fun s => ['"'].intercalate (node_fields s)) ++
    (edge_groups node.edges).toList.map fun g =>
      ['"'].intercalate (edge_fields (ofLex g.1).1 (ofLex g.1).2 g.2)

theorem dot_for_node_graph_lines (node : NodeGraph) :
    dot_for_node_graph node =
      ['\n'].intercalate (dot_header_lines ++ body_lines node ++ ["\x7d".toList] ++ [[]]) := by
  have hheader : (dot_header_lines.map (· ++ ['\n'])).flatten = dot_header := by decide
  have hclose : "\x7d".toList ++ ['\n'] = "\x7d\n".toList := by decide
  have hnodes : node.states.map node_line =
      node.states.map fun s => ['"'].intercalate (node_fields s) ++ ['\n'] :=
    List.map_congr_left fun s _ => node_line_eq s
  have hgroups : (edge_groups node.edges).toList.map group_line =
      (edge_groups node.edges).toList.map fun g =>
        ['"'].intercalate (edge_fields (ofLex g.1).1 (ofLex g.1).2 g.2) ++ ['\n'] :=
    List.map_congr_left fun g _ => edge_line_eq _ _ _
  rw [intercalate_append_singleton, dot_for_node_graph_eq, hnodes, hgroups]
  simp only [body_lines, List.map_append, List.flatten_append, List.map_map, List.append_nil,
    hheader, List.map_cons, List.map_nil, List.flatten_cons, List.flatten_nil, hclose]
  rfl

theorem mapM_read_line {α : Type} {l : List α} {f : α → List Char} {g : α → DotLine}
    (h : ∀ x ∈ l, read_line (f x) = some (g x)) : (l.map f).mapM read_line = some (l.map g) := by
  induction l with
  | nil => rfl
  | cons x l ih =>
    simp only [List.map_cons, List.mapM_cons, h x List.mem_cons_self,
      ih fun y hy => h y (List.mem_cons_of_mem x hy)]
    rfl

/-- A text cut into the header lines, a body and the closing line is read line by
    line. -/
theorem read_dot_of_split {text : List Char} {body : List (List Char)}
    (h : split text ['\n'] = dot_header_lines ++ body ++ ["\x7d".toList] ++ [[]]) :
    read_dot text = (body.mapM read_line).map fun body =>
      (body.filterMap DotLine.state?, body.flatMap DotLine.edges) := by
  have hrev : (split text ['\n']).reverse = [] :: "\x7d".toList :: (dot_header_lines ++ body).reverse := by
    rw [h]
    simp
  have hlen : dot_header_lines.length = 4 := rfl
  rw [read_dot, hrev]
  simp only [List.reverse_reverse, ← hlen, List.take_left, List.drop_left, and_self, if_true]

/-! ### Plain names -/

theorem plain_name.not_mem {s : List Char} (h : plain_name s) {c : Char} (hc : c ∈ escaped_chars) :
    c ∉ s := fun hs => h c hs hc

/-- The names of a group: its source, its target and its transitions are names of edges. -/
theorem plain_of_mem_edge_groups {edges : List Edge}
    (hplain : ∀ e ∈ edges, plain_name e.«from» ∧ plain_name e.transition ∧ plain_name e.«to»)
    {g : (List Char ×ₗ List Char) × List (List Char)} (hg : g ∈ (edge_groups edges).toList) :
    plain_name (ofLex g.1).1 ∧ plain_name (ofLex g.1).2 ∧ ∀ l ∈ g.2, plain_name l := by
  obtain ⟨⟨f, t⟩, labels⟩ := g
  obtain ⟨hne, -, hperm⟩ := mem_edge_groups hg
  -- every edge between `f` and `t` is an edge of the graph
  have hbetween : ∀ e ∈ edges_between edges f t, e ∈ edges ∧ e.«from» = f ∧ e.«to» = t := by
    intro e he
    simpa [edges_between, SortedMap.withKey] using he
  obtain ⟨e, he⟩ := List.exists_mem_of_ne_nil _ hne
  obtain ⟨hmem, rfl, rfl⟩ := hbetween e he
  refine ⟨(hplain e hmem).1, (hplain e hmem).2.2, fun l hl => ?_⟩
  obtain ⟨e', he', rfl⟩ := List.mem_map.1 (hperm.subset hl)
  exact (hplain e' (hbetween e' he').1).2.1

theorem newline_not_mem_node {s : List Char} (hs : '\n' ∉ s) :
    '\n' ∉ ['"'].intercalate (node_fields s) :=
  not_mem_intercalate (by decide) (not_mem_node_fields (by decide) hs)

theorem newline_not_mem_edge {f t : List Char} {labels : List (List Char)} (hf : '\n' ∉ f)
    (ht : '\n' ∉ t) (hlabels : ∀ l ∈ labels, '\n' ∉ l) :
    '\n' ∉ ['"'].intercalate (edge_fields f t labels) :=
  not_mem_intercalate (by decide) (not_mem_edge_fields (by decide) hf ht hlabels)

/-! ### The edges, read back -/

/-- The edges of the groups: one for each transition of a group. -/
def group_edges (edges : List Edge) : List Edge :=
  (edge_groups edges).toList.flatMap fun g =>
    g.2.map fun transition => ⟨(ofLex g.1).1, transition, (ofLex g.1).2⟩

/-- The groups hold the edges of the graph, rearranged. -/
theorem group_edges_perm (edges : List Edge) : (group_edges edges).Perm edges := by
  let mk : List Char ×ₗ List Char → List Char → Edge := fun k transition =>
    ⟨(ofLex k).1, transition, (ofLex k).2⟩
  -- sorting the transitions of a group only rearranges its edges
  have hsort : (group_edges edges).Perm
      ((SortedMap.groupBy (fun e => toLex (e.«from», e.«to»)) (·.transition) edges).toList.flatMap
        fun g => g.2.map (mk g.1)) := by
    simp only [group_edges, edge_groups, SortedMap.toList, SortedMap.mapVal, List.flatMap_map]
    exact List.Perm.flatMap_left _ fun g _ => (List.mergeSort_perm _ _).map _
  exact hsort.trans (SortedMap.flatMap_groupBy_perm _ _ mk (fun _ => rfl) edges)

/-- **Reading the text back.**  When no name holds an escaped character, the text
    of a graph is read back into its states, in order, and the edges of its groups. -/
theorem read_dot_dot_for_node_graph (node : NodeGraph) (hplain : plain_graph node) :
    read_dot (dot_for_node_graph node) = some (node.states, group_edges node.edges) := by
  obtain ⟨hstates, hedges⟩ := hplain
  have hheader : ∀ l ∈ dot_header_lines ++ ["\x7d".toList] ++ [[]], '\n' ∉ l := by decide
  -- no line holds a line break, so the text is cut into its lines
  have hsplit : split (dot_for_node_graph node) ['\n'] =
      dot_header_lines ++ body_lines node ++ ["\x7d".toList] ++ [[]] := by
    rw [dot_for_node_graph_lines]
    refine splitOn_intercalate (List.cons_ne_nil _ _) (by simp) fun l hl => noStart_of_not_mem ?_
    simp only [List.mem_append, body_lines, List.mem_map] at hl
    rcases hl with ((hl | ⟨s, hs, rfl⟩ | ⟨g, hg, rfl⟩) | hl) | hl
    · exact hheader l (List.mem_append_left _ (List.mem_append_left _ hl))
    · exact newline_not_mem_node ((hstates s hs).not_mem (by decide))
    · obtain ⟨hf, ht, hl⟩ := plain_of_mem_edge_groups hedges hg
      exact newline_not_mem_edge (hf.not_mem (by decide)) (ht.not_mem (by decide))
        fun l h => (hl l h).not_mem (by decide)
    · exact hheader l (List.mem_append_left _ (List.mem_append_right _ hl))
    · exact hheader l (List.mem_append_right _ hl)
  -- each line of the body is read back
  have hnodes := mapM_read_line (l := node.states) (g := DotLine.node) fun s hs =>
    read_line_node ((hstates s hs).not_mem (by decide))
  have hgroups := mapM_read_line (l := (edge_groups node.edges).toList)
    (g := fun g => DotLine.edge (ofLex g.1).1 (ofLex g.1).2 g.2) fun g hg => by
      obtain ⟨hf, ht, hl⟩ := plain_of_mem_edge_groups hedges hg
      exact read_line_edge (hf.not_mem (by decide)) (ht.not_mem (by decide))
        (fun l h => ⟨(hl l h).not_mem (by decide), (hl l h).not_mem (by decide)⟩) (labels_ne_nil hg)
  rw [read_dot_of_split hsplit, body_lines, List.mapM_append, hnodes, hgroups]
  simp [DotLine.state?, DotLine.edges, group_edges, List.filterMap_map, List.flatMap_map,
    Function.comp_def]

/-! ## The text determines the graph -/

/-- **The text of a graph determines the graph.**  The text is the four header
    lines, a line for each state in order, a line for each pair of source and target
    of the edges, in increasing order, labelled with the sorted transitions of the
    edges between them, and the closing line.  When no name holds an escaped
    character, reading it back, each label cut at <BR/>, gives the states and the
    edges up to order; so two such graphs with one text have the same states and
    the same edges up to order. -/
theorem dot_for_node_graph_determines (g : NodeGraph) (hg : plain_graph g) :
    (∃ groups : List ((List Char × List Char) × List (List Char)),
      dot_for_node_graph g = dot_header ++ (g.states.map node_line).flatten ++
          (groups.map fun p => edge_line p.1.1 p.1.2 p.2).flatten ++ "\x7d\n".toList ∧
        (groups.map fun p => toLex p.1).Pairwise (· < ·) ∧
        (∀ f t, (f, t) ∈ groups.map (·.1) ↔ ∃ e ∈ g.edges, e.«from» = f ∧ e.«to» = t) ∧
        ∀ p ∈ groups, p.2.Pairwise (· ≤ ·) ∧
          p.2.Perm ((g.edges.filter fun e => e.«from» = p.1.1 ∧ e.«to» = p.1.2).map (·.transition))) ∧
    (∃ edges, read_dot (dot_for_node_graph g) = some (g.states, edges) ∧ edges.Perm g.edges) ∧
    ∀ g', plain_graph g' → dot_for_node_graph g' = dot_for_node_graph g →
      g'.states = g.states ∧ g'.edges.Perm g.edges := by
  refine ⟨⟨(edge_groups g.edges).toList.map fun e => (ofLex e.1, e.2), ?_, ?_, ?_, ?_⟩,
    ⟨group_edges g.edges, read_dot_dot_for_node_graph g hg, group_edges_perm g.edges⟩, ?_⟩
  · rw [dot_for_node_graph_eq, List.map_map]
    rfl
  · -- the keys of the map, in increasing order
    have hkeys : ((edge_groups g.edges).toList.map fun e => (ofLex e.1, e.2)).map
        (fun p => toLex p.1) = (edge_groups g.edges).keys := by
      rw [List.map_map]
      rfl
    rw [hkeys]
    exact SortedMap.keys_sorted _
  · intro f t
    rw [← mem_keys_edge_groups]
    simp [SortedMap.keys, SortedMap.toList]
  · intro p hp
    obtain ⟨⟨⟨f, t⟩, labels⟩, hmem, rfl⟩ := List.mem_map.1 hp
    obtain ⟨-, hsorted, hperm⟩ := mem_edge_groups hmem
    refine ⟨hsorted, hperm.trans ?_⟩
    simp only [edges_between, SortedMap.withKey, toLex_inj, Prod.mk.injEq]
    rfl
  · -- both texts are read back the same
    intro g' hg' heq
    have h := read_dot_dot_for_node_graph g' hg'
    rw [heq, read_dot_dot_for_node_graph g hg] at h
    obtain ⟨hs, he⟩ := Prod.mk.inj (Option.some.inj h)
    have hperm : (group_edges g'.edges).Perm g.edges := he ▸ group_edges_perm g.edges
    exact ⟨hs.symm, (group_edges_perm g'.edges).symm.trans hperm⟩

/-- The graph of the log of the test renders_dot_labels_grouped_and_sorted: two states
    and two edges each way between them. -/
def grouped_labels_graph : NodeGraph :=
  ⟨[['s', '0'], ['s', '1']],
    [⟨['s', '0'], ['A'], ['s', '1']⟩, ⟨['s', '0'], ['C'], ['s', '1']⟩,
      ⟨['s', '1'], ['B'], ['s', '0']⟩, ⟨['s', '1'], ['D'], ['s', '0']⟩]⟩

theorem dot_for_node_graph_determines_grouped_labels :
    plain_graph grouped_labels_graph ∧
    (∃ groups : List ((List Char × List Char) × List (List Char)),
      dot_for_node_graph grouped_labels_graph = dot_header ++
          (grouped_labels_graph.states.map node_line).flatten ++
          (groups.map fun p => edge_line p.1.1 p.1.2 p.2).flatten ++ "\x7d\n".toList ∧
        (groups.map fun p => toLex p.1).Pairwise (· < ·) ∧
        (∀ f t, (f, t) ∈ groups.map (·.1) ↔
          ∃ e ∈ grouped_labels_graph.edges, e.«from» = f ∧ e.«to» = t) ∧
        ∀ p ∈ groups, p.2.Pairwise (· ≤ ·) ∧
          p.2.Perm ((grouped_labels_graph.edges.filter fun e =>
            e.«from» = p.1.1 ∧ e.«to» = p.1.2).map (·.transition))) ∧
    (∃ edges, read_dot (dot_for_node_graph grouped_labels_graph) =
      some (grouped_labels_graph.states, edges) ∧ edges.Perm grouped_labels_graph.edges) ∧
    ∀ g', plain_graph g' → dot_for_node_graph g' = dot_for_node_graph grouped_labels_graph →
      g'.states = grouped_labels_graph.states ∧ g'.edges.Perm grouped_labels_graph.edges :=
  have hplain : plain_graph grouped_labels_graph := by
    simp [plain_graph, grouped_labels_graph, plain_name, escaped_chars]
  ⟨hplain, dot_for_node_graph_determines grouped_labels_graph hplain⟩

end Abstraktor
