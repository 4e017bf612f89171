/-
  Group numbering of the annotations (src/model/instrumentor.rs).

  A group id is the value of the counter when an annotation line is parsed, and
  the line moves the counter on when its text, trimmed, ends with `END`.

  * `parse_target_line_ok`: the group of a parsed line and the counter after it;
  * `send_function_end_mark`: the end test is textual, so a variable named
    `SEND` closes its group, and a line that both the function and the block
    regex accept moves the counter twice;
  * `get_targets_single_shift`: a file read from the counter `a` has the targets
    of the file read alone from `0`, with every group id moved by `a`;
  * `get_targets_open_group_shared`: a group left open at the end of a file
    takes in the first group of the next file;
  * `get_targets_perm`: for files that close all their groups, permuting the
    files permutes the targets up to one bijective renaming of the group ids, and
    no two files share a group id.
-/
import Abstraktor.Lib.Counter
import Abstraktor.Instrumentor.Targets

namespace Abstraktor

open Counter

/-! ## Renaming group ids -/

/-- Rename the group id of a target. -/
def TargetInfo.rename (ρ : ℕ → ℕ) (info : TargetInfo) : TargetInfo :=
  ⟨info.var_info, ⟨info.group.end_mark, ρ info.group.id⟩⟩

/-- Rename the group ids of the targets of a file: those of its function and
    block targets, and the keys of its transition names. -/
def InstrumentationTargets.rename (ρ : ℕ → ℕ) (t : InstrumentationTargets) :
    InstrumentationTargets :=
  ⟨t.path, t.targets_const, t.targets_block.mapVal fun _ => TargetInfo.rename ρ,
    t.targets_function.mapVal fun _ => TargetInfo.rename ρ, t.group_transition_names.mapKeys ρ⟩

/-- The group ids that the targets of a file use. -/
def InstrumentationTargets.group_ids (t : InstrumentationTargets) : List ℕ :=
  (t.targets_function.toList ++ t.targets_block.toList).map (·.2.group.id) ++
    t.group_transition_names.keys

namespace InstrumentationTargets

variable {ρ σ : ℕ → ℕ}

theorem rename_add (t : InstrumentationTargets) (kind : TargetKind) (line : ℕ)
    (info : TargetInfo) : (t.add kind line info).rename ρ = (t.rename ρ).add kind line (info.rename ρ) := by
  cases kind <;> simp only [add, rename, SortedMap.mapVal_insert]

theorem rename_init (path : List Char) : (init path).rename ρ = init path := rfl

theorem rename_insert_name (hρ : ρ.Injective) (t : InstrumentationTargets) (info : TargetInfo)
    (name : List Char) :
    { t with group_transition_names := t.group_transition_names.insert info.group.id name }.rename ρ =
      { t.rename ρ with
        group_transition_names :=
          (t.rename ρ).group_transition_names.insert (info.rename ρ).group.id name } := by
  simp only [rename, TargetInfo.rename, SortedMap.mapKeys_insert hρ]

theorem rename_rename (hρ : ρ.Injective) (hσ : σ.Injective) (t : InstrumentationTargets) :
    (t.rename ρ).rename σ = t.rename (σ ∘ ρ) := by
  simp only [rename, SortedMap.mapVal_mapVal, SortedMap.mapKeys_mapKeys hρ hσ]
  rfl

theorem rename_id (t : InstrumentationTargets) : t.rename id = t := by
  have h : (fun (_ : ℕ) => TargetInfo.rename id) = fun _ info => info := rfl
  simp only [rename, h, SortedMap.mapVal_self, SortedMap.mapKeys_id]

theorem id_mem_group_ids {t : InstrumentationTargets} {l : ℕ} {info : TargetInfo}
    (h : t.targets_function.get? l = some info ∨ t.targets_block.get? l = some info) :
    info.group.id ∈ t.group_ids := by
  refine List.mem_append_left _ (List.mem_map.2 ⟨(l, info), ?_, rfl⟩)
  rcases h with h | h
  · exact List.mem_append_left _ (SortedMap.mem_toList.2 h)
  · exact List.mem_append_right _ (SortedMap.mem_toList.2 h)

theorem rename_congr {t : InstrumentationTargets} (h : ∀ g ∈ t.group_ids, ρ g = σ g) :
    t.rename ρ = t.rename σ := by
  have hinfo : ∀ l info, (t.targets_function.get? l = some info ∨ t.targets_block.get? l = some info) →
      info.rename ρ = info.rename σ := fun l info hi => by
    rw [TargetInfo.rename, TargetInfo.rename, h _ (id_mem_group_ids hi)]
  have hf := SortedMap.mapVal_congr (m := t.targets_function) (f := fun _ => TargetInfo.rename ρ)
    (g := fun _ => TargetInfo.rename σ) fun l info hi => hinfo l info (Or.inl hi)
  have hb := SortedMap.mapVal_congr (m := t.targets_block) (f := fun _ => TargetInfo.rename ρ)
    (g := fun _ => TargetInfo.rename σ) fun l info hi => hinfo l info (Or.inr hi)
  have hk := SortedMap.mapKeys_congr (m := t.group_transition_names) (f := ρ) (g := σ)
    fun g hg => h g (List.mem_append_right _ hg)
  simp only [rename, hf, hb, hk]

/-- The group ids of a renamed file are the renamed group ids. -/
theorem mem_group_ids_rename (hρ : ρ.Injective) {t : InstrumentationTargets} {g : ℕ}
    (h : g ∈ (t.rename ρ).group_ids) : ∃ g' ∈ t.group_ids, ρ g' = g := by
  rcases List.mem_append.1 h with h | h
  · obtain ⟨⟨l, info⟩, he, rfl⟩ := List.mem_map.1 h
    have he : (l, info) ∈ (t.targets_function.toList ++ t.targets_block.toList).map
        fun e => (e.1, e.2.rename ρ) := by
      simpa [rename, SortedMap.toList, SortedMap.mapVal] using he
    obtain ⟨⟨l', info'⟩, he', hl⟩ := List.mem_map.1 he
    obtain ⟨rfl, rfl⟩ := Prod.mk.inj hl
    exact ⟨info'.group.id, List.mem_append_left _ (List.mem_map_of_mem he'), rfl⟩
  · obtain ⟨g', hg', rfl⟩ := (SortedMap.mem_keys_mapKeys hρ).1 h
    exact ⟨g', List.mem_append_right _ hg', rfl⟩

end InstrumentationTargets

/-! ## The group of a line -/

section Line

variable {U : UnicodeClasses} {lines : List (List Char)} {line : List Char}

/-- A parsed annotation line: its group is the counter, marked as an end when the
    trimmed line ends with `END`, and the counter moves on after a marked line. -/
theorem parse_target_line_ok {regex : Regex.Re Cls} {id id' : ℕ} {o : Option TargetInfo}
    (h : parse_target_line U line regex id = .ok (o, id')) :
    (∀ info ∈ o, info.group = ⟨ends_with (trim_end line) "END".toList, id⟩) ∧
      id' = if o.isSome && ends_with (trim_end line) "END".toList then id + 1 else id := by
  unfold parse_target_line at h
  split at h
  · obtain ⟨rfl, rfl⟩ := Prod.mk.inj (pure_eq_ok_iff.1 h)
    simp
  · obtain ⟨map, -, h⟩ := bind_eq_ok_iff.1 h
    dsimp only at h
    -- the do block joins the two ways of computing the next counter
    by_cases he : ends_with (trim_end line) "END".toList = true
    · rw [if_pos he] at h
      obtain ⟨id₁, hb, h⟩ := bind_eq_ok_iff.1 h
      obtain ⟨rfl, rfl⟩ := Prod.mk.inj (pure_eq_ok_iff.1 h)
      simp only [bump] at hb
      split at hb
      · cases hb
        refine ⟨fun info hi => by cases hi; rfl, ?_⟩
        simp only [Option.isSome_some, he, Bool.true_and, if_true]
      · cases hb
    · rw [if_neg he] at h
      obtain ⟨id₁, hb, h⟩ := bind_eq_ok_iff.1 h
      obtain ⟨rfl, rfl⟩ := Prod.mk.inj (pure_eq_ok_iff.1 h)
      cases pure_eq_ok_iff.1 hb
      refine ⟨fun info hi => by cases hi; rfl, ?_⟩
      simp only [Option.isSome_some, he, Bool.true_and, Bool.false_eq_true, if_false]

theorem parse_target_line_atLeast (regex : Regex.Re Cls) (id : ℕ) :
    AtLeast id (parse_target_line U line regex id) := by
  intro o id' h
  rw [(parse_target_line_ok h).2]
  split_ifs <;> omega

end Line

/-- **The end test is textual.**  On the line `// ABSTRAKTOR_FUNC: SEND` the
    variable list that the function regex captures runs to the end of the line,
    so the line has no `END` keyword, yet its group is marked as an end and closed.
    And a line that both the function and the block regex accept moves the
    counter twice, so that the next group is numbered `2` after one marked line. -/
theorem send_function_end_mark (U : UnicodeClasses) :
    (captures U target_function_regex "// ABSTRAKTOR_FUNC: SEND".toList).map
        (·.caps.get 1) = some (some (20, 24)) ∧
      (get_targets U [("// ABSTRAKTOR_FUNC: SEND\nint f() {}".toList, "a.c".toList)]).map
          (List.map fun t => t.targets_function.toList) =
        .ok [[(2, ⟨[⟨"SEND".toList, []⟩], ⟨true, 0⟩⟩)]] ∧
      (get_targets U [("// ABSTRAKTOR_FUNC: ABSTRAKTOR_BLOCK_EVENT END\nint f() {}\n// ABSTRAKTOR_FUNC: x END\nint g() {}".toList,
          "a.c".toList)]).map
          (List.map fun t => t.targets_function.toList.map fun e => (e.1, e.2.group.id)) =
        .ok [[(2, 0), (4, 2)]] := by
  refine ⟨?_, ?_, ?_⟩
  · rw [captures_ascii U _ (by decide +kernel)]
    decide +kernel
  · rw [get_targets_ascii U (by decide +kernel)]
    decide +kernel
  · rw [get_targets_ascii U (by decide +kernel)]
    decide +kernel

/-! ## Moving the counter

Started from a counter moved by `d`, each step of the loop gives the same
targets with their group ids moved by `d`. -/

section Shift

variable {U : UnicodeClasses} {lines : List (List Char)} {line : List Char}

theorem add_left_injective' (d : ℕ) : Function.Injective (d + ·) :=
  fun _ _ h => Nat.add_left_cancel h

theorem parse_target_line_shift (regex : Regex.Re Cls) {d id : ℕ} (hd : d + id < 2 ^ 32) :
    ShiftedBy (2 ^ 32) d (Option.map (TargetInfo.rename (d + ·)))
      (parse_target_line U line regex id) (parse_target_line U line regex (d + id)) := by
  unfold parse_target_line
  split
  · exact ShiftedBy.pure none hd
  · refine ShiftedBy.bind_same fun map _ => ?_
    dsimp only
    by_cases he : ends_with (trim_end line) "END".toList = true
    · rw [if_pos he, if_pos he]
      -- `bump` fails at the moved counter exactly when the moved result reaches `2 ^ 32`
      simp only [bump]
      exact ShiftedBy.succ_or Panic.id_overflow _
    · rw [if_neg he, if_neg he]
      exact ShiftedBy.pure _ hd

theorem plain_target_atLeast (line_num : ℕ) (regex : Regex.Re Cls) (kind : TargetKind)
    (t : InstrumentationTargets) (id : ℕ) :
    AtLeast id (plain_target U lines line_num line regex kind t id) := by
  unfold plain_target
  split_ifs
  · refine (parse_target_line_atLeast regex id).bind fun o m _ => ?_
    cases o with
    | none => exact AtLeast.pure _ le_rfl
    | some info =>
      cases find_next_block_start U lines line_num <;> exact AtLeast.pure _ le_rfl
  · exact AtLeast.pure _ le_rfl

theorem plain_target_shift (line_num : ℕ) (regex : Regex.Re Cls) (kind : TargetKind)
    (t : InstrumentationTargets) {d id : ℕ} (hd : d + id < 2 ^ 32) :
    ShiftedBy (2 ^ 32) d (InstrumentationTargets.rename (d + ·))
      (plain_target U lines line_num line regex kind t id)
      (plain_target U lines line_num line regex kind (t.rename (d + ·)) (d + id)) := by
  unfold plain_target
  split_ifs
  · refine (parse_target_line_shift regex hd).bind (fun o m _ hm => ?_) fun o m _ => ?_
    · cases o with
      | none => exact ShiftedBy.pure t hm
      | some info =>
        cases find_next_block_start U lines line_num with
        | none => exact ShiftedBy.pure t hm
        | some block_line =>
          show ShiftedBy _ _ _ (pure (t.add kind block_line info, m))
            (pure ((t.rename (d + ·)).add kind block_line (info.rename (d + ·)), d + m))
          rw [← InstrumentationTargets.rename_add]
          exact ShiftedBy.pure _ hm
    · cases o with
      | none => exact AtLeast.pure _ le_rfl
      | some info =>
        cases find_next_block_start U lines line_num <;> exact AtLeast.pure _ le_rfl
  · exact ShiftedBy.pure t hd

theorem override_target_atLeast (line_num : ℕ) (t : InstrumentationTargets) (id : ℕ) :
    AtLeast id (override_target U lines line_num line t id) := by
  unfold override_target
  split
  · exact AtLeast.pure _ le_rfl
  · refine (parse_target_line_atLeast _ id).bind fun o m _ => ?_
    cases o with
    | none => exact AtLeast.pure _ le_rfl
    | some info =>
      cases find_next_block_start U lines line_num <;> exact AtLeast.pure _ le_rfl

theorem override_target_shift (line_num : ℕ) (t : InstrumentationTargets) {d id : ℕ}
    (hd : d + id < 2 ^ 32) :
    ShiftedBy (2 ^ 32) d (InstrumentationTargets.rename (d + ·))
      (override_target U lines line_num line t id)
      (override_target U lines line_num line (t.rename (d + ·)) (d + id)) := by
  unfold override_target
  split
  · exact ShiftedBy.pure t hd
  · refine (parse_target_line_shift _ hd).bind (fun o m _ hm => ?_) fun o m _ => ?_
    · cases o with
      | none => exact ShiftedBy.pure t hm
      | some info =>
        -- the transition name goes to the moved group id
        dsimp only [Option.map_some]
        rw [← InstrumentationTargets.rename_insert_name (add_left_injective' d)]
        cases find_next_block_start U lines line_num with
        | none => exact ShiftedBy.pure _ hm
        | some block_line =>
          dsimp only
          rw [← InstrumentationTargets.rename_add]
          exact ShiftedBy.pure _ hm
    · cases o with
      | none => exact AtLeast.pure _ le_rfl
      | some info =>
        cases find_next_block_start U lines line_num <;> exact AtLeast.pure _ le_rfl

theorem const_target_rename (line_num : ℕ) (t : InstrumentationTargets) (ρ : ℕ → ℕ) :
    const_target U lines line_num line (t.rename ρ) = (const_target U lines line_num line t).rename ρ := by
  unfold const_target
  split_ifs
  · split
    · rfl
    · dsimp only
      split <;> rfl
  · rfl

theorem process_line_atLeast (i : ℕ) (t : InstrumentationTargets) (id : ℕ) :
    AtLeast id (process_line U lines i line t id) := by
  unfold process_line
  dsimp only
  split_ifs
  · exact (override_target_atLeast _ t id).bind fun t' m _ => AtLeast.pure _ le_rfl
  · exact (plain_target_atLeast _ _ _ t id).bind fun t' m _ =>
      (plain_target_atLeast _ _ _ t' m).bind fun t'' k _ => AtLeast.pure _ le_rfl

theorem process_line_shift (i : ℕ) (t : InstrumentationTargets) {d id : ℕ}
    (hd : d + id < 2 ^ 32) :
    ShiftedBy (2 ^ 32) d (InstrumentationTargets.rename (d + ·))
      (process_line U lines i line t id)
      (process_line U lines i line (t.rename (d + ·)) (d + id)) := by
  -- the constant annotation of the line, last, does not touch the counter
  have hconst : ∀ (t' : InstrumentationTargets) (m : ℕ), d + m < 2 ^ 32 →
      ShiftedBy (ε := Panic) (2 ^ 32) d (InstrumentationTargets.rename (d + ·))
        (pure (const_target U lines (i + 1) line t', m))
        (pure (const_target U lines (i + 1) line (t'.rename (d + ·)), d + m)) := by
    intro t' m hm
    rw [const_target_rename]
    exact ShiftedBy.pure _ hm
  unfold process_line
  dsimp only
  split_ifs
  · exact (override_target_shift _ t hd).bind (fun t' m _ hm => hconst t' m hm)
      fun t' m _ => AtLeast.pure _ le_rfl
  · refine (plain_target_shift _ _ _ t hd).bind (fun t' m _ hm => ?_) fun t' m _ =>
      (plain_target_atLeast _ _ _ t' m).bind fun t'' k _ => AtLeast.pure _ le_rfl
    exact (plain_target_shift _ _ _ t' hm).bind (fun t'' k _ hk => hconst t'' k hk)
      fun t'' k _ => AtLeast.pure _ le_rfl

theorem get_targets_lines_atLeast :
    ∀ (rest : List (List Char)) (i : ℕ) (t : InstrumentationTargets) (id : ℕ),
      AtLeast id (get_targets_lines U lines i rest t id)
  | [], _, t, _ => AtLeast.pure t le_rfl
  | line :: rest, i, t, id =>
    (@process_line_atLeast U lines line i t id).bind fun t' m _ =>
      get_targets_lines_atLeast rest (i + 1) t' m

/-- The loop over the lines moves with its counter. -/
theorem get_targets_lines_shift :
    ∀ (rest : List (List Char)) (i : ℕ) (t : InstrumentationTargets) {d id : ℕ},
      d + id < 2 ^ 32 →
      ShiftedBy (2 ^ 32) d (InstrumentationTargets.rename (d + ·))
        (get_targets_lines U lines i rest t id)
        (get_targets_lines U lines i rest (t.rename (d + ·)) (d + id))
  | [], _, t, _, _, hd => ShiftedBy.pure t hd
  | line :: rest, i, t, _, _, hd =>
    (@process_line_shift U lines line i t _ _ hd).bind
      (fun t' _ _ hm => get_targets_lines_shift rest (i + 1) t' hm)
      fun t' m _ => get_targets_lines_atLeast rest (i + 1) t' m

/-- **A file read from the counter `a`** has the targets of the file read alone
    from `0`, with every group id moved by `a`. -/
theorem get_targets_single_shift (content path : List Char) {a : ℕ} (ha : a < 2 ^ 32) :
    ShiftedBy (2 ^ 32) a (InstrumentationTargets.rename (a + ·))
      (get_targets_single U content path 0) (get_targets_single U content path a) := by
  have h := @get_targets_lines_shift U (lines content) (lines content) 0 (.init path) a 0 ha
  rwa [InstrumentationTargets.rename_init] at h

end Shift

/-! ## Reading the files in another order -/

/-- The counter at the end of a file read alone: the number of groups it closes. -/
def group_count (U : UnicodeClasses) (file : List Char × List Char) : ℕ :=
  match get_targets_single U file.1 file.2 0 with
  | .ok (_, e) => e
  | .error _ => 0

/-- Every group of a file read alone is closed in the file: its group ids are
    below the counter at the end of the file. -/
def closes_groups (U : UnicodeClasses) (file : List Char × List Char) : Bool :=
  match get_targets_single U file.1 file.2 0 with
  | .ok (t, e) => t.group_ids.all (· < e)
  | .error _ => true

section Files

variable {U : UnicodeClasses}

open InstrumentationTargets

theorem group_count_eq {file : List Char × List Char} {t : InstrumentationTargets} {e : ℕ}
    (h : get_targets_single U file.1 file.2 0 = .ok (t, e)) : group_count U file = e := by
  rw [group_count, h]

theorem lt_of_closes_groups {file : List Char × List Char} {t : InstrumentationTargets} {e : ℕ}
    (hc : closes_groups U file = true) (h : get_targets_single U file.1 file.2 0 = .ok (t, e)) :
    ∀ g ∈ t.group_ids, g < e := by
  rw [closes_groups, h] at hc
  intro g hg
  simpa using List.all_eq_true.1 hc g hg

/-- The ids of a closed file read from `a` lie in `[a, a + e)`. -/
theorem group_ids_rename_mem {t : InstrumentationTargets} {e a g : ℕ}
    (hc : ∀ g ∈ t.group_ids, g < e) (hg : g ∈ (t.rename (a + ·)).group_ids) : a ≤ g ∧ g < a + e := by
  obtain ⟨g', hg', rfl⟩ := mem_group_ids_rename (add_left_injective' a) hg
  have := hc g' hg'
  omega

theorem get_targets_from_nil {a : ℕ} {rs : List InstrumentationTargets} :
    get_targets_from U [] a = .ok rs ↔ rs = [] := by
  rw [get_targets_from, pure_eq_ok_iff, eq_comm]

/-- The first file of a run is read from `a`, as the file read alone with its ids
    moved by `a`, and the others from the counter it ends with. -/
theorem get_targets_from_cons (file : List Char × List Char) {files : List (List Char × List Char)}
    {a : ℕ} (ha : a < 2 ^ 32) {rs : List InstrumentationTargets} :
    get_targets_from U (file :: files) a = .ok rs ↔
      ∃ t e ts, get_targets_single U file.1 file.2 0 = .ok (t, e) ∧ a + e < 2 ^ 32 ∧
        get_targets_from U files (a + e) = .ok ts ∧ rs = t.rename (a + ·) :: ts := by
  obtain ⟨content, path⟩ := file
  have hs := get_targets_single_shift (U := U) content path ha
  simp only [get_targets_from, bind_eq_ok_iff, pure_eq_ok_iff]
  constructor
  · rintro ⟨⟨t', m'⟩, h₁, ts, h₂, rfl⟩
    obtain ⟨t, e, ht, he, rfl, rfl⟩ := (hs t' m').1 h₁
    exact ⟨t, e, ts, ht, he, h₂, rfl⟩
  · rintro ⟨t, e, ts, ht, he, h₂, rfl⟩
    exact ⟨(t.rename (a + ·), a + e), hs.ok ht he, ts, h₂, rfl⟩

/-- The ids of a run of closed files from `a` lie in `[a, a + n)`, for `n` the
    groups of all the files. -/
theorem group_ids_get_targets_from :
    ∀ {files : List (List Char × List Char)} {a : ℕ} {rs : List InstrumentationTargets},
      (∀ f ∈ files, closes_groups U f = true) → a < 2 ^ 32 → get_targets_from U files a = .ok rs →
      ∀ t ∈ rs, ∀ g ∈ t.group_ids, a ≤ g ∧ g < a + (files.map (group_count U)).sum
  | [], _, _, _, _, h => by
    rw [get_targets_from_nil.1 h]
    intro t ht
    cases ht
  | file :: files, a, _, hc, ha, h => by
    obtain ⟨t, e, ts, ht, he, hts, rfl⟩ := (get_targets_from_cons file ha).1 h
    have hcount : group_count U file = e := group_count_eq ht
    intro t' ht' g hg
    simp only [List.map_cons, List.sum_cons, hcount]
    rcases List.mem_cons.1 ht' with rfl | ht'
    · have := group_ids_rename_mem (lt_of_closes_groups (hc file List.mem_cons_self) ht) hg
      omega
    · have := group_ids_get_targets_from (fun f hf => hc f (List.mem_cons_of_mem _ hf)) he hts
        t' ht' g hg
      omega

/-- No two files of a run of closed files share a group id. -/
theorem get_targets_from_disjoint :
    ∀ {files : List (List Char × List Char)} {a : ℕ} {rs : List InstrumentationTargets},
      (∀ f ∈ files, closes_groups U f = true) → a < 2 ^ 32 → get_targets_from U files a = .ok rs →
      rs.Pairwise fun t t' => ∀ g ∈ t.group_ids, g ∉ t'.group_ids
  | [], _, _, _, _, h => by
    rw [get_targets_from_nil.1 h]
    exact List.Pairwise.nil
  | file :: files, a, _, hc, ha, h => by
    obtain ⟨t, e, ts, ht, he, hts, rfl⟩ := (get_targets_from_cons file ha).1 h
    have hrest : ∀ f ∈ files, closes_groups U f = true := fun f hf => hc f (List.mem_cons_of_mem _ hf)
    refine List.Pairwise.cons (fun t' ht' g hg hg' => ?_) (get_targets_from_disjoint hrest he hts)
    -- the first file ends below `a + e`, where the others start
    have h₁ := group_ids_rename_mem (lt_of_closes_groups (hc file List.mem_cons_self) ht) hg
    have h₂ := group_ids_get_targets_from hrest he hts t' ht' g hg'
    omega

/-- The targets of a run of closed files from `a` are unchanged by a renaming that
    fixes the ids in `[a, a + n)`. -/
theorem rename_get_targets_from {files : List (List Char × List Char)} {a : ℕ}
    {rs : List InstrumentationTargets} (hc : ∀ f ∈ files, closes_groups U f = true)
    (ha : a < 2 ^ 32) (h : get_targets_from U files a = .ok rs) {ρ : ℕ → ℕ}
    (hρ : ∀ g, a ≤ g ∧ g < a + (files.map (group_count U)).sum → ρ g = g) :
    (files.zip rs).map (fun p => (p.1, p.2.rename ρ)) = files.zip rs := by
  refine List.map_congr_left (fun p hp => ?_) |>.trans (List.map_id _)
  have ht := group_ids_get_targets_from hc ha h p.2 (List.of_mem_zip hp).2
  rw [rename_congr (σ := id) fun g hg => hρ g (ht g hg), rename_id]
  rfl

/-- **Reading closed files in another order** permutes their targets, with the
    group ids renamed by one permutation of the ids that fixes every id outside
    the range of the files. -/
theorem get_targets_from_perm {files files' : List (List Char × List Char)}
    (hp : files.Perm files') :
    (∀ f ∈ files, closes_groups U f = true) → ∀ {a : ℕ} {rs : List InstrumentationTargets},
      a < 2 ^ 32 → get_targets_from U files a = .ok rs →
      ∃ (rs' : List InstrumentationTargets) (ρ : Equiv.Perm ℕ), get_targets_from U files' a = .ok rs' ∧
        (∀ x, x < a ∨ a + (files.map (group_count U)).sum ≤ x → ρ x = x) ∧
        (files'.zip rs').Perm ((files.zip rs).map fun p => (p.1, p.2.rename ρ)) := by
  induction hp with
  | nil =>
    intro _ a rs _ h
    rw [get_targets_from_nil.1 h]
    exact ⟨[], Equiv.refl ℕ, rfl, fun _ _ => rfl, List.Perm.nil⟩
  | cons file _ ih =>
    intro hc a rs ha h
    obtain ⟨t, e, ts, ht, he, hts, rfl⟩ := (get_targets_from_cons file ha).1 h
    obtain ⟨ts', ρ, hts', hfix, hperm⟩ :=
      ih (fun f hf => hc f (List.mem_cons_of_mem _ hf)) he hts
    have hcount : group_count U file = e := group_count_eq ht
    -- the ids of the first file are below `a + e`, which `ρ` fixes
    have hhead : (t.rename (a + ·)).rename ρ = t.rename (a + ·) := by
      rw [rename_congr (σ := id) fun g hg => hfix g (Or.inl (group_ids_rename_mem
        (lt_of_closes_groups (hc file List.mem_cons_self) ht) hg).2), rename_id]
    refine ⟨t.rename (a + ·) :: ts', ρ, (get_targets_from_cons file ha).2
      ⟨t, e, ts', ht, he, hts', rfl⟩, fun x hx => hfix x ?_, ?_⟩
    · simp only [List.map_cons, List.sum_cons, hcount] at hx
      omega
    · simp only [List.zip_cons_cons, List.map_cons, hhead]
      exact hperm.cons _
  | swap x y files =>
    intro hc a rs ha h
    obtain ⟨ty, ey, rs₁, hty, hey, h₁, rfl⟩ := (get_targets_from_cons y ha).1 h
    obtain ⟨tx, ex, ts, htx, hex, hts, rfl⟩ := (get_targets_from_cons x hey).1 h₁
    have hcy := lt_of_closes_groups (hc y List.mem_cons_self) hty
    have hcx := lt_of_closes_groups (hc x (List.mem_cons_of_mem _ List.mem_cons_self)) htx
    have hrest : ∀ f ∈ files, closes_groups U f = true :=
      fun f hf => hc f (List.mem_cons_of_mem _ (List.mem_cons_of_mem _ hf))
    -- in the other order `x` is read from `a`, then `y` from `a + ex`
    have hrun : get_targets_from U (x :: y :: files) a =
        .ok (tx.rename (a + ·) :: ty.rename (a + ex + ·) :: ts) := by
      refine (get_targets_from_cons x ha).2 ⟨tx, ex, _, htx, by omega,
        (get_targets_from_cons y (by omega)).2 ⟨ty, ey, ts, hty, by omega, ?_, rfl⟩, rfl⟩
      rwa [show a + ex + ey = a + ey + ex by omega]
    -- `y`'s ids move up by `ex`, `x`'s down by `ey`, and the others stay
    have hy : (ty.rename (a + ·)).rename (blockSwap a ey ex) = ty.rename (a + ex + ·) := by
      rw [rename_rename (add_left_injective' a) (blockSwap a ey ex).injective]
      exact rename_congr fun g hg => blockSwap_first (hcy g hg)
    have hx : (tx.rename (a + ey + ·)).rename (blockSwap a ey ex) = tx.rename (a + ·) := by
      rw [rename_rename (add_left_injective' _) (blockSwap a ey ex).injective]
      exact rename_congr fun g hg => blockSwap_second (hcx g hg)
    have hfiles := rename_get_targets_from hrest hex hts (ρ := blockSwap a ey ex)
      fun g hg => blockSwap_of_notMem (Or.inr hg.1)
    refine ⟨_, blockSwap a ey ex, hrun, fun z hz => blockSwap_of_notMem ?_, ?_⟩
    · simp only [List.map_cons, List.sum_cons, group_count_eq hty, group_count_eq htx] at hz
      omega
    · simp only [List.zip_cons_cons, List.map_cons, hy, hx, hfiles]
      exact List.Perm.swap _ _ _
  | trans p₁ _ ih₁ ih₂ =>
    intro hc a rs ha h
    obtain ⟨rs₂, ρ₁, h₂, hfix₁, hperm₁⟩ := ih₁ hc ha h
    obtain ⟨rs₃, ρ₂, h₃, hfix₂, hperm₂⟩ := ih₂ (fun f hf => hc f (p₁.mem_iff.2 hf)) ha h₂
    have hsum := (p₁.map (group_count U)).sum_nat
    refine ⟨rs₃, ρ₁.trans ρ₂, h₃, fun x hx => ?_, ?_⟩
    · rw [Equiv.trans_apply, hfix₁ x hx, hfix₂ x (hsum ▸ hx)]
    · refine hperm₂.trans ((hperm₁.map _).trans ?_)
      rw [List.map_map]
      refine List.Perm.of_eq (List.map_congr_left fun p _ => ?_)
      simp only [Function.comp_apply, Equiv.coe_trans,
        rename_rename ρ₁.injective ρ₂.injective]

end Files

/-- **The targets do not depend on the order of the files** when every file
    closes its groups: for a permutation of the files, the targets of each file are
    its targets in the first order with the group ids renamed by one permutation of
    the ids, and no two files share a group id. -/
theorem get_targets_perm (U : UnicodeClasses) {files files' : List (List Char × List Char)}
    (hp : files.Perm files') (hc : ∀ f ∈ files, closes_groups U f = true)
    {rs : List InstrumentationTargets} (h : get_targets U files = .ok rs) :
    rs.Pairwise (fun t t' => ∀ g ∈ t.group_ids, g ∉ t'.group_ids) ∧
      ∃ rs', get_targets U files' = .ok rs' ∧ ∃ ρ : Equiv.Perm ℕ,
        (files'.zip rs').Perm ((files.zip rs).map fun p => (p.1, p.2.rename ρ)) := by
  have h0 : (0 : ℕ) < 2 ^ 32 := Nat.two_pow_pos 32
  obtain ⟨rs', ρ, h', -, hperm⟩ := get_targets_from_perm hp hc h0 h
  exact ⟨get_targets_from_disjoint hc h0 h, rs', h', ρ, hperm⟩

theorem get_targets_perm_two_files :
    (∀ f ∈ [("// ABSTRAKTOR_FUNC: x END\nint f() {}".toList, "a.c".toList),
        ("// ABSTRAKTOR_BLOCK_EVENT: y END\n  g();".toList, "b.c".toList)],
        closes_groups ascii_classes f = true) ∧
      get_targets ascii_classes [("// ABSTRAKTOR_FUNC: x END\nint f() {}".toList, "a.c".toList),
          ("// ABSTRAKTOR_BLOCK_EVENT: y END\n  g();".toList, "b.c".toList)] =
        .ok ((get_targets ascii_classes [("// ABSTRAKTOR_FUNC: x END\nint f() {}".toList, "a.c".toList),
          ("// ABSTRAKTOR_BLOCK_EVENT: y END\n  g();".toList, "b.c".toList)]).toOption.getD []) ∧
      ((get_targets ascii_classes [("// ABSTRAKTOR_FUNC: x END\nint f() {}".toList, "a.c".toList),
          ("// ABSTRAKTOR_BLOCK_EVENT: y END\n  g();".toList, "b.c".toList)]).toOption.getD []).Pairwise
          (fun t t' => ∀ g ∈ t.group_ids, g ∉ t'.group_ids) ∧
        ∃ rs', get_targets ascii_classes [("// ABSTRAKTOR_BLOCK_EVENT: y END\n  g();".toList, "b.c".toList),
            ("// ABSTRAKTOR_FUNC: x END\nint f() {}".toList, "a.c".toList)] = .ok rs' ∧
          ∃ ρ : Equiv.Perm ℕ, ([("// ABSTRAKTOR_BLOCK_EVENT: y END\n  g();".toList, "b.c".toList),
              ("// ABSTRAKTOR_FUNC: x END\nint f() {}".toList, "a.c".toList)].zip rs').Perm
            (([("// ABSTRAKTOR_FUNC: x END\nint f() {}".toList, "a.c".toList),
              ("// ABSTRAKTOR_BLOCK_EVENT: y END\n  g();".toList, "b.c".toList)].zip
              ((get_targets ascii_classes [("// ABSTRAKTOR_FUNC: x END\nint f() {}".toList, "a.c".toList),
                ("// ABSTRAKTOR_BLOCK_EVENT: y END\n  g();".toList, "b.c".toList)]).toOption.getD [])).map
              fun p => (p.1, p.2.rename ρ)) :=
  have hc : ∀ f ∈ [("// ABSTRAKTOR_FUNC: x END\nint f() {}".toList, "a.c".toList),
      ("// ABSTRAKTOR_BLOCK_EVENT: y END\n  g();".toList, "b.c".toList)],
      closes_groups ascii_classes f = true := by decide +kernel
  have h : get_targets ascii_classes [("// ABSTRAKTOR_FUNC: x END\nint f() {}".toList, "a.c".toList),
      ("// ABSTRAKTOR_BLOCK_EVENT: y END\n  g();".toList, "b.c".toList)] =
      .ok ((get_targets ascii_classes [("// ABSTRAKTOR_FUNC: x END\nint f() {}".toList, "a.c".toList),
        ("// ABSTRAKTOR_BLOCK_EVENT: y END\n  g();".toList, "b.c".toList)]).toOption.getD []) := by
    decide +kernel
  ⟨hc, h, get_targets_perm ascii_classes (List.Perm.swap _ _ []) hc h⟩

/-- **A group left open at the end of a file** takes in the first group of the
    next file: two files share the group id `0`, and the id of the open group
    depends on the order of the files, whatever the classes `\w` and `\d` are. -/
theorem get_targets_open_group_shared_of_classes (U : UnicodeClasses) :
    (get_targets U [("// ABSTRAKTOR_FUNC: x\nint f() {}".toList, "a.c".toList),
        ("// ABSTRAKTOR_FUNC: y END\nint g() {}".toList, "b.c".toList)]).map
        (List.map InstrumentationTargets.group_ids) = .ok [[0], [0]] ∧
      (get_targets U [("// ABSTRAKTOR_FUNC: y END\nint g() {}".toList, "b.c".toList),
        ("// ABSTRAKTOR_FUNC: x\nint f() {}".toList, "a.c".toList)]).map
        (List.map InstrumentationTargets.group_ids) = .ok [[0], [1]] := by
  refine ⟨?_, ?_⟩
  · rw [get_targets_ascii U (by decide +kernel)]
    decide +kernel
  · rw [get_targets_ascii U (by decide +kernel)]
    decide +kernel

/-- The open group on ASCII classes. -/
theorem get_targets_open_group_shared :
    (get_targets ascii_classes [("// ABSTRAKTOR_FUNC: x\nint f() {}".toList, "a.c".toList),
        ("// ABSTRAKTOR_FUNC: y END\nint g() {}".toList, "b.c".toList)]).map
        (List.map InstrumentationTargets.group_ids) = .ok [[0], [0]] ∧
      (get_targets ascii_classes [("// ABSTRAKTOR_FUNC: y END\nint g() {}".toList, "b.c".toList),
        ("// ABSTRAKTOR_FUNC: x\nint f() {}".toList, "a.c".toList)]).map
        (List.map InstrumentationTargets.group_ids) = .ok [[0], [1]] :=
  get_targets_open_group_shared_of_classes ascii_classes

end Abstraktor
