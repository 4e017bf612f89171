/-
  The variables of an annotation (`parse_target_line`, src/model/instrumentor.rs).

  Each match of `regex_variables` in the variable list is an entry: the name, and
  the numbers of its index path, each parsed as a `u32` with `unwrap`.  The map
  keeps, for each name, its nonempty paths in the order of the list, and the
  variables of the target are the entries of the map.

  * `variable_map_eq`: the map is a fold of the entries, once every entry parses;
  * `get?_foldl_add_variable`: the paths of a name are its nonempty paths in order;
  * `parse_target_line_var_info`: the variables of a parsed line are the names of
    the entries, each once and in increasing order, with their paths;
  * `parse_target_line_index_overflow`: an index that `\d+` accepts and `u32`
    cannot hold makes the line panic.
-/
import Abstraktor.Lib.Counter
import Abstraktor.Instrumentor.Targets

namespace Abstraktor

open Regex Counter

/-- The entry of one match of `regex_variables`: the name and its index path. -/
def var_entry (list : List Char) (mt : Match) : Except Panic (List Char × List ℕ) := do
  let numbers ← match mt.group list 2 with
    | some numbers_str => if !numbers_str.isEmpty then parse_indices numbers_str else pure []
    | none => pure []
  pure ((mt.group list 1).getD [], numbers)

/-- The nonempty index paths of `name` among the entries, in order. -/
def paths_of (entries : List (List Char × List ℕ)) (name : List Char) : List (List ℕ) :=
  (entries.filter fun e => e.1 = name && !e.2.isEmpty).map (·.2)

theorem foldlM_map_eq_map_mapM {m : Type → Type} [Monad m] [LawfulMonad m] {α β γ : Type}
    (g : α → m β) (h : γ → β → γ) :
    ∀ (xs : List α) (init : γ),
      xs.foldlM (fun acc x => (h acc ·) <$> g x) init = (fun ys => ys.foldl h init) <$> xs.mapM g
  | [], init => by simp
  | x :: xs, init => by
    simp only [List.foldlM_cons, List.mapM_cons, map_bind, bind_map_left, map_pure,
      List.foldl_cons, foldlM_map_eq_map_mapM g h xs]
    simp only [map_eq_pure_bind]

theorem add_match_eq (list : List Char) (map : SortedMap (List Char) (List (List ℕ))) (mt : Match) :
    add_match list map mt = (fun e => add_variable map e.1 e.2) <$> var_entry list mt := by
  unfold add_match var_entry
  rcases mt.group list 2 with _ | numbers_str
  · simp
  · by_cases hs : numbers_str.isEmpty <;> simp [hs]

/-- The map of the variables is the fold of the entries of the matches. -/
theorem variable_map_eq (U : UnicodeClasses) (list : List Char) :
    variable_map U list =
      (fun entries => entries.foldl (fun m e => add_variable m e.1 e.2) SortedMap.empty) <$>
        (captures_iter U regex_variables list).mapM (var_entry list) := by
  have h := foldlM_map_eq_map_mapM (var_entry list) (fun m e => add_variable m e.1 e.2)
    (captures_iter U regex_variables list) SortedMap.empty
  rw [← h, variable_map]
  exact congrArg (fun f => List.foldlM f SortedMap.empty (captures_iter U regex_variables list))
    (funext fun map => funext (add_match_eq list map))

theorem get?_add_variable (m : SortedMap (List Char) (List (List ℕ))) (name : List Char)
    (numbers : List ℕ) (k : List Char) :
    (add_variable m name numbers).get? k =
      if k = name then some ((m.get? name).getD [] ++ if numbers.isEmpty then [] else [numbers])
      else m.get? k := by
  unfold add_variable
  by_cases hn : numbers.isEmpty <;> simp [hn]

theorem paths_of_cons (name k : List Char) (numbers : List ℕ) (entries : List (List Char × List ℕ)) :
    paths_of ((name, numbers) :: entries) k =
      (if k = name ∧ numbers ≠ [] then [numbers] else []) ++ paths_of entries k := by
  by_cases hk : k = name
  · subst hk
    by_cases hn : numbers = [] <;> simp [paths_of, hn]
  · simp [paths_of, Ne.symm hk, hk]

theorem paths_of_eq_nil {entries : List (List Char × List ℕ)} {k : List Char}
    (h : k ∉ entries.map (·.1)) : paths_of entries k = [] := by
  refine List.map_eq_nil_iff.2 (List.filter_eq_nil_iff.2 fun e he => ?_)
  have hne : e.1 ≠ k := fun hek => h (List.mem_map.2 ⟨e, he, hek⟩)
  simp [hne]

/-- The paths of a name after a fold of entries: its nonempty paths in order,
    after those it had. -/
theorem get?_foldl_add_variable (k : List Char) :
    ∀ (entries : List (List Char × List ℕ)) (m : SortedMap (List Char) (List (List ℕ))),
      (entries.foldl (fun m e => add_variable m e.1 e.2) m).get? k =
        if k ∈ entries.map (·.1) then some ((m.get? k).getD [] ++ paths_of entries k)
        else m.get? k
  | [], m => by simp
  | (name, numbers) :: entries, m => by
    rw [List.foldl_cons, get?_foldl_add_variable k entries, get?_add_variable, paths_of_cons]
    -- whether `k` is named later decides where its paths come from
    by_cases hmem : k ∈ entries.map (·.1)
    · by_cases hk : k = name
      · subst hk
        by_cases hn : numbers = [] <;> simp [hmem, hn]
      · simp [hmem, hk]
    · rw [paths_of_eq_nil hmem]
      by_cases hk : k = name
      · subst hk
        by_cases hn : numbers = [] <;> simp [hmem, hn]
      · simp [hmem, hk]

/-- **The variables of a parsed line**: the names of the entries of its
    variable list, each once and in increasing order, each with its nonempty
    index paths in the order of the list. -/
theorem parse_target_line_var_info {U : UnicodeClasses} {line : List Char} {regex : Re Cls}
    {id id' : ℕ} {t : TargetInfo} (h : parse_target_line U line regex id = .ok (some t, id')) :
    ∃ mt entries, captures U regex line = some mt ∧
      (captures_iter U regex_variables ((mt.group line 1).getD [])).mapM
        (var_entry ((mt.group line 1).getD [])) = .ok entries ∧
      t.var_info.Pairwise (fun a b => a.var_name < b.var_name) ∧
      (∀ name, name ∈ t.var_info.map (·.var_name) ↔ name ∈ entries.map (·.1)) ∧
      ∀ v ∈ t.var_info, v.struct_index_groups = paths_of entries v.var_name := by
  unfold parse_target_line at h
  split at h
  · cases Prod.mk.inj (pure_eq_ok_iff.1 h) |>.1
  · rename_i mt hmt
    obtain ⟨map, hmap, h⟩ := bind_eq_ok_iff.1 h
    rw [variable_map_eq] at hmap
    obtain ⟨entries, hentries, rfl⟩ := map_eq_ok_iff.1 hmap
    refine ⟨mt, entries, hmt, hentries, ?_⟩
    -- the fold of the entries, from the empty map
    have hget := fun k => get?_foldl_add_variable k entries SortedMap.empty
    set map := entries.foldl (fun m e => add_variable m e.1 e.2) SortedMap.empty
    have hsorted : (map.toList.map fun e => VarInfo.mk e.1 e.2).Pairwise
        (fun a b => a.var_name < b.var_name) := by
      rw [List.pairwise_map]
      exact map.sorted
    -- the map is sorted by name, so `sort_by` leaves its entries in place
    have ht : t.var_info = map.toList.map fun e => VarInfo.mk e.1 e.2 := by
      dsimp only at h
      split at h <;> obtain ⟨_, -, h⟩ := bind_eq_ok_iff.1 h <;>
        cases (Prod.mk.inj (pure_eq_ok_iff.1 h)).1 <;>
        exact List.Pairwise.insertionSort_eq (hsorted.imp le_of_lt)
    rw [ht]
    refine ⟨hsorted, fun name => ?_, fun v hv => ?_⟩
    · rw [List.map_map]
      change name ∈ map.keys ↔ _
      rw [SortedMap.mem_keys, hget]
      split_ifs with hn <;> simp [hn]
    · obtain ⟨⟨k, paths⟩, hkp, rfl⟩ := List.mem_map.1 hv
      have hk := hget k
      rw [SortedMap.mem_toList.1 hkp] at hk
      split_ifs at hk with hn
      · simpa using hk
      · cases hk

/-- A line with an entry that does not parse fails with the panic of that entry. -/
theorem parse_target_line_eq_error {U : UnicodeClasses} {line : List Char} {regex : Re Cls}
    {id : ℕ} {mt : Match} {e : Panic} (hmt : captures U regex line = some mt)
    (he : variable_map U ((mt.group line 1).getD []) = .error e) :
    parse_target_line U line regex id = .error e := by
  unfold parse_target_line
  simp only [hmt, he]
  rfl

/-- **An index above `u32::MAX` panics.**  The function regex accepts the line
    `// ABSTRAKTOR_FUNC: r->4294967296`, as `\d+` has no bound, and the index
    `4294967296` does not parse as a `u32`, so its `unwrap` panics. -/
theorem parse_target_line_index_overflow (U : UnicodeClasses) (id : ℕ) :
    is_match U target_function_regex "// ABSTRAKTOR_FUNC: r->4294967296".toList = true ∧
      parse_target_line U "// ABSTRAKTOR_FUNC: r->4294967296".toList target_function_regex id =
        .error .parse_index := by
  have ha : U.AgreeOn ascii_classes "// ABSTRAKTOR_FUNC: r->4294967296".toList :=
    U.agreeOn_ascii (by decide +kernel)
  refine ⟨by rw [is_match_congr _ ha]; decide +kernel, ?_⟩
  rw [parse_target_line_congr _ id ha]
  -- the list that the function regex captures is `r->4294967296`
  have hlist : (captures ascii_classes target_function_regex
      "// ABSTRAKTOR_FUNC: r->4294967296".toList).map
      (fun mt => (mt.group "// ABSTRAKTOR_FUNC: r->4294967296".toList 1).getD []) =
      some "r->4294967296".toList := by
    decide +kernel
  obtain ⟨mt, hmt, hg⟩ := Option.map_eq_some_iff.1 hlist
  refine parse_target_line_eq_error hmt ?_
  rw [hg]
  decide +kernel

end Abstraktor
