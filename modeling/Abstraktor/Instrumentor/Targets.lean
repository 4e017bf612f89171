/-
  The instrumentation targets of the source files
  (`Instrumentor` in src/model/instrumentor.rs).

  * `parse_target_line` reads the variable list of an annotation line, merges
    the variables by name in a `BTreeMap`, sorts them, and numbers the group of
    the line with the counter `id`, which it advances when the line ends with
    `END`;
  * `find_next_block_start` is the line number of the next line that starts a
    block;
  * `process_line` is one iteration of the loop of `get_targets_single`, which
    runs it on every line of a file; `get_targets` threads one counter through
    all the files, in their order.

  A panic of the source is an `Except.error`: the `unwrap` of an index that
  `u32` cannot hold, and the overflow of `*id += 1` of a debug build.  The `u32`
  counter is a natural number that never reaches `2 ^ 32` without a panic.
-/
import Mathlib
import Abstraktor.Lib.SortedMap
import Abstraktor.Instrumentor.Regexes

namespace Abstraktor

open Regex

structure VarInfo where
  var_name : List Char
  struct_index_groups : List (List ℕ)
deriving DecidableEq, Repr

structure GroupInfo where
  end_mark : Bool
  id : ℕ
deriving DecidableEq, Repr

structure TargetInfo where
  var_info : List VarInfo
  group : GroupInfo
deriving DecidableEq, Repr

/-- The targets of one file, keyed by line number; `group_transition_names`
    maps group ids to the names of override annotations. -/
structure InstrumentationTargets where
  path : List Char
  targets_const : SortedMap ℕ (List Char)
  targets_block : SortedMap ℕ TargetInfo
  targets_function : SortedMap ℕ TargetInfo
  group_transition_names : SortedMap ℕ (List Char)
deriving DecidableEq

/-- The panics of the target extraction. -/
inductive Panic where
  /-- `s.parse::<u32>().unwrap()` on an index that does not parse -/
  | parse_index
  /-- `*id += 1` on the counter at `u32::MAX` -/
  | id_overflow
deriving DecidableEq, Repr

/-- The step `*id += 1` of the `u32` counter. -/
def bump (id : ℕ) : Except Panic ℕ :=
  if id + 1 < 2 ^ 32 then .ok (id + 1) else .error .id_overflow

/-- The indices of a variable:
    `numbers_str.split("->").filter(|s| !s.is_empty()).map(|s| s.parse::<u32>().unwrap())`. -/
def parse_indices (numbers_str : List Char) : Except Panic (List ℕ) :=
  ((split numbers_str "->".toList).filter fun s => !s.isEmpty).mapM fun s =>
    match parse_u32 s with
    | some v => .ok v
    | none => .error .parse_index

/-- One variable into the map: its index path is pushed when it has one, and the
    name is entered in any case. -/
def add_variable (map : SortedMap (List Char) (List (List ℕ))) (var_name : List Char)
    (numbers : List ℕ) : SortedMap (List Char) (List (List ℕ)) :=
  if !numbers.isEmpty then map.modify var_name fun g => g.getD [] ++ [numbers]
  else map.modify var_name fun g => g.getD []

/-- One match of `regex_variables` in the list into the map. -/
def add_match (list : List Char) (map : SortedMap (List Char) (List (List ℕ))) (mt : Match) :
    Except Panic (SortedMap (List Char) (List (List ℕ))) := do
  let var_name := (mt.group list 1).getD []
  let numbers ← match mt.group list 2 with
    | some numbers_str => if !numbers_str.isEmpty then parse_indices numbers_str else pure []
    | none => pure []
  pure (add_variable map var_name numbers)

/-- The map of the variables of a list, over the matches of `regex_variables`. -/
def variable_map (U : UnicodeClasses) (list : List Char) :
    Except Panic (SortedMap (List Char) (List (List ℕ))) :=
  List.foldlM (add_match list) SortedMap.empty (captures_iter U regex_variables list)

/-- Parse an annotation line with `regex`; returns the target and the counter. -/
def parse_target_line (U : UnicodeClasses) (line : List Char) (regex : Re Cls) (id : ℕ) :
    Except Panic (Option TargetInfo × ℕ) :=
  match captures U regex line with
  | none => pure (none, id)
  | some mt => do
    let list := (mt.group line 1).getD []
    let has_end := ends_with (trim_end line) "END".toList
    let map ← variable_map U list
    -- `sort_by` is a stable sort, as insertion sort is
    let var_info := (map.toList.map fun e => VarInfo.mk e.1 e.2).insertionSort
      fun a b => a.var_name ≤ b.var_name
    let group : GroupInfo := ⟨has_end, id⟩
    let id' ← if has_end then bump id else pure id
    pure (some ⟨var_info, group⟩, id')

/-- Whether a line starts a block. -/
def is_block_start (U : UnicodeClasses) (line : List Char) : Bool :=
  is_match U block_start_regex (trim_start line)

/-- The first block start among `ls`, numbered from `n`, as a 1-based line number. -/
def find_block_from (U : UnicodeClasses) : List (List Char) → ℕ → Option ℕ
  | [], _ => none
  | l :: ls, n => if is_block_start U l then some (n + 1) else find_block_from U ls (n + 1)

/-- The line number of the first block start at index `start_line_num` or later. -/
def find_next_block_start (U : UnicodeClasses) (lines : List (List Char)) (start_line_num : ℕ) :
    Option ℕ :=
  find_block_from U (lines.drop start_line_num) start_line_num

/-- The two maps of annotated targets. -/
inductive TargetKind where
  | function
  | block
deriving DecidableEq, Repr

/-- Record a target in one of the two maps. -/
def InstrumentationTargets.add (t : InstrumentationTargets) :
    TargetKind → ℕ → TargetInfo → InstrumentationTargets
  | .function, line, info => { t with targets_function := t.targets_function.insert line info }
  | .block, line, info => { t with targets_block := t.targets_block.insert line info }

/-- The annotation of a function or a block on line `line_num`:
    `if regex.is_match(line) { if let Some(t) = parse_target_line(..) { .. } }`. -/
def plain_target (U : UnicodeClasses) (lines : List (List Char)) (line_num : ℕ)
    (line : List Char) (regex : Re Cls) (kind : TargetKind)
    (targets : InstrumentationTargets) (id : ℕ) : Except Panic (InstrumentationTargets × ℕ) :=
  if is_match U regex line then do
    let (info, id) ← parse_target_line U line regex id
    match info with
    | none => pure (targets, id)
    | some info =>
      match find_next_block_start U lines line_num with
      | some block_line => pure (targets.add kind block_line info, id)
      | none => pure (targets, id)
  else pure (targets, id)

/-- An override annotation on line `line_num`: the transition name is recorded for
    the group, and the target goes to the map that the annotation names. -/
def override_target (U : UnicodeClasses) (lines : List (List Char)) (line_num : ℕ)
    (line : List Char) (targets : InstrumentationTargets) (id : ℕ) :
    Except Panic (InstrumentationTargets × ℕ) :=
  match captures U target_override_transition_name_regex line with
  -- unreachable: `is_match` holds
  | none => pure (targets, id)
  | some mt => do
    let transition_name := (mt.group line 1).getD []
    let kind := if (mt.group line 2).getD [] = "ABSTRAKTOR_FUNC".toList then TargetKind.function
      else TargetKind.block
    let parse_regex := match kind with
      | .function => target_override_func_regex
      | .block => target_override_block_regex
    let (info, id) ← parse_target_line U line parse_regex id
    match info with
    | none => pure (targets, id)
    | some info =>
      let targets := { targets with
        group_transition_names := targets.group_transition_names.insert info.group.id transition_name }
      match find_next_block_start U lines line_num with
      | some block_line => pure (targets.add kind block_line info, id)
      | none => pure (targets, id)

/-- A constant annotation on line `line_num`. -/
def const_target (U : UnicodeClasses) (lines : List (List Char)) (line_num : ℕ)
    (line : List Char) (targets : InstrumentationTargets) : InstrumentationTargets :=
  if is_match U target_const_regex line then
    match captures U target_const_regex line with
    -- unreachable: `is_match` holds
    | none => targets
    | some mt =>
      let const_name := (mt.group line 1).getD []
      match find_next_block_start U lines line_num with
      | some block_line => { targets with targets_const := targets.targets_const.insert block_line const_name }
      | none => targets
  else targets

/-- One iteration of the loop of `get_targets_single`, on the line of index `i`. -/
def process_line (U : UnicodeClasses) (lines : List (List Char)) (i : ℕ) (line : List Char)
    (targets : InstrumentationTargets) (id : ℕ) : Except Panic (InstrumentationTargets × ℕ) := do
  let line_num := i + 1
  let (targets, id) ←
    if is_match U target_override_transition_name_regex line then
      override_target U lines line_num line targets id
    else do
      let (targets, id) ← plain_target U lines line_num line target_function_regex .function targets id
      plain_target U lines line_num line target_block_regex .block targets id
  pure (const_target U lines line_num line targets, id)

/-- The loop of `get_targets_single` over the lines `rest`, the first of index `i`. -/
def get_targets_lines (U : UnicodeClasses) (lines : List (List Char)) :
    ℕ → List (List Char) → InstrumentationTargets → ℕ → Except Panic (InstrumentationTargets × ℕ)
  | _, [], targets, id => pure (targets, id)
  | i, line :: rest, targets, id => do
    let (targets, id) ← process_line U lines i line targets id
    get_targets_lines U lines (i + 1) rest targets id

/-- The targets of a file with no annotation. -/
def InstrumentationTargets.init (path : List Char) : InstrumentationTargets :=
  ⟨path, .empty, .empty, .empty, .empty⟩

/-- The targets of one file, from the counter `id`; returns the counter. -/
def get_targets_single (U : UnicodeClasses) (content path : List Char) (id : ℕ) :
    Except Panic (InstrumentationTargets × ℕ) :=
  get_targets_lines U (lines content) 0 (lines content) (.init path) id

/-- The targets of the files `(content, path)` in order, from the counter `id`. -/
def get_targets_from (U : UnicodeClasses) :
    List (List Char × List Char) → ℕ → Except Panic (List InstrumentationTargets)
  | [], _ => pure []
  | (content, path) :: files, id => do
    let (t, id) ← get_targets_single U content path id
    let ts ← get_targets_from U files id
    pure (t :: ts)

/-- The function `Instrumentor::get_targets`: one counter, from `0`, for all the files. -/
def get_targets (U : UnicodeClasses) (files : List (List Char × List Char)) :
    Except Panic (List InstrumentationTargets) :=
  get_targets_from U files 0

/-! ## Dependence on the Unicode tables

Every text that a regex reads is made of characters of the files, so the targets
only depend on `\w` and `\d` at those characters; on ASCII files they are the
targets computed with `ascii_classes`. -/

/-- Two interpretations of `\w` and `\d` agree on the characters of `s`. -/
def UnicodeClasses.AgreeOn (U V : UnicodeClasses) (s : List Char) : Prop :=
  ∀ c ∈ s, U.word c = V.word c ∧ U.digit c = V.digit c

section Congr

variable {U V : UnicodeClasses}

theorem UnicodeClasses.AgreeOn.mono {s s' : List Char} (h : U.AgreeOn V s)
    (hs : ∀ c ∈ s', c ∈ s) : U.AgreeOn V s' :=
  fun c hc => h c (hs c hc)

theorem UnicodeClasses.AgreeOn.holds {s : List Char} (h : U.AgreeOn V s) :
    Agree (Cls.holds U) (Cls.holds V) s := by
  intro c hc k
  obtain ⟨hw, hd⟩ := h c hc
  cases k <;> simp only [Cls.holds, hw, hd]

theorem captures_congr (r : Re Cls) {s : List Char} (h : U.AgreeOn V s) :
    captures U r s = captures V r s :=
  search_congr r h.holds

theorem is_match_congr (r : Re Cls) {s : List Char} (h : U.AgreeOn V s) :
    is_match U r s = is_match V r s := by
  simp only [is_match, captures_congr r h]

theorem captures_iter_congr (r : Re Cls) {s : List Char} (h : U.AgreeOn V s) :
    captures_iter U r s = captures_iter V r s :=
  findAll_congr r _ h.holds

theorem mem_of_mem_group {mt : Match} {text : List Char} {g : ℕ} {c : Char}
    (hc : c ∈ (mt.group text g).getD []) : c ∈ text := by
  cases hg : mt.caps.get g with
  | none => simp [Match.group, hg] at hc
  | some sp =>
    simp only [Match.group, hg, Option.map_some, Option.getD_some, slice] at hc
    exact List.mem_of_mem_drop (List.mem_of_mem_take hc)

theorem variable_map_congr {list : List Char} (h : U.AgreeOn V list) :
    variable_map U list = variable_map V list := by
  simp only [variable_map, captures_iter_congr regex_variables h]

theorem parse_target_line_congr {line : List Char} (r : Re Cls) (id : ℕ) (h : U.AgreeOn V line) :
    parse_target_line U line r id = parse_target_line V line r id := by
  unfold parse_target_line
  rw [captures_congr r h]
  cases captures V r line with
  | none => rfl
  | some mt => simp only [variable_map_congr (h.mono fun c hc => mem_of_mem_group hc)]

theorem find_block_from_congr :
    ∀ {ls : List (List Char)} (n : ℕ), (∀ l ∈ ls, U.AgreeOn V l) →
      find_block_from U ls n = find_block_from V ls n
  | [], _, _ => rfl
  | l :: ls, n, h => by
    have hl : U.AgreeOn V (trim_start l) :=
      (h l List.mem_cons_self).mono fun c hc => List.dropWhile_subset _ hc
    rw [find_block_from, find_block_from, is_block_start, is_block_start,
      is_match_congr block_start_regex hl,
      find_block_from_congr (n + 1) fun l' hl' => h l' (List.mem_cons_of_mem l hl')]

theorem find_next_block_start_congr {lines : List (List Char)} (n : ℕ)
    (h : ∀ l ∈ lines, U.AgreeOn V l) :
    find_next_block_start U lines n = find_next_block_start V lines n :=
  find_block_from_congr n fun l hl => h l (List.mem_of_mem_drop hl)

section Line

variable {lines : List (List Char)} {line : List Char} (hs : ∀ l ∈ lines, U.AgreeOn V l)
  (h : U.AgreeOn V line)
include hs h

theorem plain_target_congr (line_num : ℕ) (r : Re Cls) (kind : TargetKind)
    (t : InstrumentationTargets) (id : ℕ) :
    plain_target U lines line_num line r kind t id = plain_target V lines line_num line r kind t id := by
  simp only [plain_target, is_match_congr r h, parse_target_line_congr r id h,
    find_next_block_start_congr line_num hs]

theorem override_target_congr (line_num : ℕ) (t : InstrumentationTargets) (id : ℕ) :
    override_target U lines line_num line t id = override_target V lines line_num line t id := by
  unfold override_target
  rw [captures_congr _ h]
  cases captures V target_override_transition_name_regex line with
  | none => rfl
  | some mt =>
    simp only [parse_target_line_congr _ _ h, find_next_block_start_congr line_num hs]

theorem const_target_congr (line_num : ℕ) (t : InstrumentationTargets) :
    const_target U lines line_num line t = const_target V lines line_num line t := by
  simp only [const_target, is_match_congr _ h, captures_congr _ h,
    find_next_block_start_congr line_num hs]

theorem process_line_congr (i : ℕ) (t : InstrumentationTargets) (id : ℕ) :
    process_line U lines i line t id = process_line V lines i line t id := by
  simp only [process_line, is_match_congr _ h, override_target_congr hs h,
    plain_target_congr hs h, const_target_congr hs h]

end Line

theorem get_targets_lines_congr {lines : List (List Char)} (hs : ∀ l ∈ lines, U.AgreeOn V l) :
    ∀ {rest : List (List Char)} (i : ℕ) (t : InstrumentationTargets) (id : ℕ),
      (∀ l ∈ rest, U.AgreeOn V l) →
      get_targets_lines U lines i rest t id = get_targets_lines V lines i rest t id
  | [], _, _, _, _ => rfl
  | line :: rest, i, t, id, hr => by
    have ih := fun t' id' => get_targets_lines_congr hs (i + 1) t' id'
      fun l hl => hr l (List.mem_cons_of_mem line hl)
    simp only [get_targets_lines, process_line_congr hs (hr line List.mem_cons_self), ih]

theorem get_targets_single_congr {content : List Char} (path : List Char) (id : ℕ)
    (h : U.AgreeOn V content) :
    get_targets_single U content path id = get_targets_single V content path id := by
  have hl : ∀ l ∈ lines content, U.AgreeOn V l :=
    fun l hl => h.mono fun c hc => mem_of_mem_lines hl hc
  exact get_targets_lines_congr hl 0 _ id hl

theorem get_targets_from_congr :
    ∀ {files : List (List Char × List Char)} (id : ℕ), (∀ f ∈ files, U.AgreeOn V f.1) →
      get_targets_from U files id = get_targets_from V files id
  | [], _, _ => rfl
  | (content, path) :: files, id, h => by
    have ih := fun id' => get_targets_from_congr id' fun f hf => h f (List.mem_cons_of_mem _ hf)
    simp only [get_targets_from, get_targets_single_congr path id (h _ List.mem_cons_self), ih]

end Congr

theorem UnicodeClasses.agreeOn_ascii (U : UnicodeClasses) {s : List Char} (h : is_ascii s) :
    U.AgreeOn ascii_classes s := by
  intro c hc
  have hc : c.toNat < 128 := by simpa using List.all_eq_true.1 h c hc
  exact ⟨U.word_ascii c hc, U.digit_ascii c hc⟩

/-- On ASCII files the targets are those computed with `ascii_classes`. -/
theorem get_targets_ascii (U : UnicodeClasses) {files : List (List Char × List Char)}
    (h : ∀ f ∈ files, is_ascii f.1) : get_targets U files = get_targets ascii_classes files :=
  get_targets_from_congr 0 fun f hf => U.agreeOn_ascii (h f hf)

end Abstraktor
