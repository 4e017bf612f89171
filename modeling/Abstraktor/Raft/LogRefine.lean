/-
  The circular log of log.c refines a list of entries
  (src/SUT/dqlite/dqlite-raft/src/log.c): read in order from `front`, its live slots are
  the entries that the calls on the log leave, and its queries are those of the list log
  of `Progress`.

  * `live l`, the live slots from `front`; `abs l : LogSpec`, what the log is for, its
    entries after the offset and its last snapshot; `LogSpec.toLog`, the log of terms
    that `Progress` reads;
  * `Shape`: the ends of the buffer are slots of it and the offset is not past the
    snapshot;
  * the queries: `locateEntry_cases`, `logTermOf_eq`, `logGet_eq`;
  * the calls: `ensureCapacity_spec`, `logAppend_spec`, `removeSuffix_spec`,
    `removePrefix_spec`, `logSnapshot_spec`, `logRestore_spec`, `logStart_spec`, each what
    the call does to `abs`, and that it keeps `Shape`.
-/
import Mathlib
import Abstraktor.Lib.Counter
import Abstraktor.Lib.CircularBuffer
import Abstraktor.Raft.Log

namespace Abstraktor.Raft.Circular

open CircularBuffer Counter

/-! ## The live entries, and the log they stand for -/

/-- The entries of a log in index order: its live slots from `front`. -/
def live (l : raft_log) : List raft_entry :=
  view l.entries raft_entry.zero l.front (logNumEntries l)

theorem logNumEntries_eq_count (l : raft_log) :
    logNumEntries l = count l.size l.front l.back := rfl

@[simp] theorem length_live (l : raft_log) : (live l).length = logNumEntries l := length_view

theorem getElem_live {l : raft_log} {i : ℕ} (hi : i < (live l).length) :
    (live l)[i] = entryAt l i := getElem_view hi

/-- What a log is for: the entries after `offset`, in index order, and the last
    snapshot. -/
structure LogSpec where
  entries : List raft_entry
  offset : ℕ
  snapshot : raft_log_snapshot
  deriving DecidableEq, Repr

/-- The log that a circular log stands for. -/
def abs (l : raft_log) : LogSpec := ⟨live l, l.offset, l.snapshot⟩

/-- The log of terms that `Progress` reads. -/
def LogSpec.toLog (L : LogSpec) (h : L.offset ≤ L.snapshot.last_index) : Raft.raft_log :=
  ⟨L.entries.map fun e => ⟨e.term⟩, L.offset, L.snapshot, h⟩

@[simp] theorem abs_entries (l : raft_log) : (abs l).entries = live l := rfl
@[simp] theorem abs_offset (l : raft_log) : (abs l).offset = l.offset := rfl
@[simp] theorem abs_snapshot (l : raft_log) : (abs l).snapshot = l.snapshot := rfl

section ToLog

variable {l : raft_log} (h : l.offset ≤ l.snapshot.last_index)

@[simp] theorem toLog_abs_entries :
    ((abs l).toLog h).entries = (live l).map fun e => ⟨e.term⟩ := rfl
@[simp] theorem toLog_abs_offset : ((abs l).toLog h).offset = l.offset := rfl
@[simp] theorem toLog_abs_snapshot : ((abs l).toLog h).snapshot = l.snapshot := rfl

@[simp] theorem logNumEntries_toLog : Raft.logNumEntries ((abs l).toLog h) = logNumEntries l := by
  simp [Raft.logNumEntries]

@[simp] theorem logLastIndex_toLog : Raft.logLastIndex ((abs l).toLog h) = logLastIndex l := by
  simp [Raft.logLastIndex, logLastIndex]

end ToLog

namespace LogSpec

variable {α : Type}

/-- An entry appended after the last. -/
def append (L : LogSpec) (e : raft_entry) : LogSpec := { L with entries := L.entries ++ [e] }

/-- The entries from `index` on dropped. -/
def truncate (L : LogSpec) (index : ℕ) : LogSpec :=
  { L with entries := L.entries.take (index - 1 - L.offset) }

/-- The entries up to `index` dropped, and the offset moved to it. -/
def compact (L : LogSpec) (index : ℕ) : LogSpec :=
  { L with entries := L.entries.drop (index - L.offset), offset := index }

/-- A snapshot taken at `last_index`, of term `last_term`, which compacts the entries up to
    `trailing` entries before it, if the log still holds them. -/
def takeSnapshot (L : LogSpec) (last_index trailing last_term : ℕ) : LogSpec :=
  let L := { L with snapshot := ⟨last_index, last_term⟩ }
  if last_index ≤ trailing ∨ last_index - trailing ≤ L.offset then L
  else L.compact (last_index - trailing)

/-- The log of no entries after a snapshot. -/
def restore (last_index last_term : ℕ) : LogSpec := ⟨[], last_index, ⟨last_index, last_term⟩⟩

/-- A log whose first index is `start_index`, after a snapshot. -/
def start (L : LogSpec) (snapshot_index snapshot_term start_index : ℕ) : LogSpec :=
  { L with offset := start_index - 1, snapshot := ⟨snapshot_index, snapshot_term⟩ }

/-- Appends one after the other append the entries in order. -/
theorem foldl_append (g : α → raft_entry) :
    ∀ (xs : List α) (L : LogSpec),
      xs.foldl (fun L x => L.append (g x)) L = { L with entries := L.entries ++ xs.map g }
  | [], L => by simp
  | x :: xs, L => by
    rw [List.foldl_cons, foldl_append g xs, List.map_cons, append, List.append_assoc]
    rfl

end LogSpec

/-- What every call keeps of a log: the ends of its buffer are slots of it, and its
    offset is not past its snapshot, which `logTermOf` asserts. -/
structure Shape (l : raft_log) : Prop where
  wf : Wf l.size l.front l.back
  offset_le : l.offset ≤ l.snapshot.last_index

/-! ## The queries -/

section Queries

variable {l : raft_log}

theorem size_pos (hwf : Wf l.size l.front l.back) (hn : 0 < logNumEntries l) : 0 < l.size :=
  Nat.pos_of_ne_zero fun h0 => absurd (count_zero_size hwf h0) hn.ne'

theorem positionAt_lt (hwf : Wf l.size l.front l.back) {k : ℕ} (hk : k < logNumEntries l) :
    positionAt l k < l.size :=
  Nat.mod_lt _ (size_pos hwf (Nat.lt_of_le_of_lt (Nat.zero_le k) hk))

/-- `locateEntry` finds the slot of the entry `index - 1 - offset` places from the first,
    or `size` where there is none. -/
theorem locateEntry_eq (index : ℕ) :
    locateEntry l index =
      if l.offset < index ∧ index - 1 - l.offset < logNumEntries l then
        positionAt l (index - 1 - l.offset)
      else l.size := by
  have hout : (logNumEntries l = 0 ∨ index < l.offset + 0 + 1 ∨
      index > l.offset + (logNumEntries l - 1) + 1) ↔
      ¬(l.offset < index ∧ index - 1 - l.offset < logNumEntries l) := by
    omega
  simp only [locateEntry, indexAt, hout, ite_not]

theorem locateEntry_toLog (h : l.offset ≤ l.snapshot.last_index) (index : ℕ) :
    Raft.locateEntry ((abs l).toLog h) index =
      if l.offset < index ∧ index - 1 - l.offset < logNumEntries l then
        some (index - 1 - l.offset)
      else none := by
  have hout : (logNumEntries l = 0 ∨ index < l.offset + 1 ∨ l.offset + logNumEntries l < index) ↔
      ¬(l.offset < index ∧ index - 1 - l.offset < logNumEntries l) := by
    omega
  simp only [Raft.locateEntry, logNumEntries_toLog, toLog_abs_offset, hout, ite_not]

/-- **`locateEntry` finds the slot of the entry that the list log finds**, and `size` where
    that finds none. -/
theorem locateEntry_cases (hwf : Wf l.size l.front l.back)
    (h : l.offset ≤ l.snapshot.last_index) (index : ℕ) :
    (Raft.locateEntry ((abs l).toLog h) index = none ∧ locateEntry l index = l.size) ∨
    ∃ k, Raft.locateEntry ((abs l).toLog h) index = some k ∧ k < logNumEntries l ∧
      locateEntry l index = positionAt l k ∧ positionAt l k < l.size := by
  rw [locateEntry_toLog, locateEntry_eq]
  split_ifs with hin
  · exact .inr ⟨_, rfl, hin.2, rfl, positionAt_lt hwf hin.2⟩
  · exact .inl ⟨rfl, rfl⟩

theorem getElem?_live {k : ℕ} (hk : k < logNumEntries l) : (live l)[k]? = some (entryAt l k) := by
  rw [List.getElem?_eq_getElem (by simpa using hk), getElem_live]

/-- **`logTermOf` is the term that the list log reads**, its assertions included. -/
theorem logTermOf_eq (h : Shape l) (index : ℕ) :
    logTermOf l index = Raft.logTermOf ((abs l).toLog h.offset_le) index := by
  rcases locateEntry_cases h.wf h.offset_le index with ⟨hnone, hsize⟩ | ⟨k, hsome, hk, hpos, hlt⟩
  · have hterm : Raft.entry_term ((abs l).toLog h.offset_le) index = none := by
      simp [Raft.entry_term, hnone]
    simp only [logTermOf, Raft.logTermOf, hterm, hsize, logLastIndex_toLog, toLog_abs_offset,
      toLog_abs_snapshot, h.offset_le, not_true_eq_false, ne_eq, false_and, lt_self_iff_false,
      not_false_eq_true, ↓reduceIte]
    split_ifs <;> rfl
  · have hterm : Raft.entry_term ((abs l).toLog h.offset_le) index =
        some (l.entries.getD (positionAt l k) raft_entry.zero).term := by
      simp [Raft.entry_term, hsome, getElem?_live hk, entryAt]
    simp only [logTermOf, Raft.logTermOf, hterm, hpos, hlt.ne, logLastIndex_toLog,
      toLog_abs_offset, toLog_abs_snapshot, h.offset_le, not_true_eq_false, not_false_eq_true,
      ne_eq, true_and, hlt, ↓reduceIte]
    -- both sides compare the entry's term with the snapshot's, in their own words
    split_ifs <;> first | rfl | (simp only [*, ↓reduceIte]; rfl)

/-- `logGet` reads the entry of the index, counted from the offset. -/
theorem logGet_eq (hwf : Wf l.size l.front l.back) (index : ℕ) :
    logGet l index = if l.offset < index then (live l)[index - 1 - l.offset]? else none := by
  unfold logGet
  rw [locateEntry_eq]
  by_cases hin : l.offset < index ∧ index - 1 - l.offset < logNumEntries l
  · rw [if_pos hin, if_neg (positionAt_lt hwf hin.2).ne, if_pos hin.1, getElem?_live hin.2]
    rfl
  · rw [if_neg hin, if_pos rfl]
    split_ifs with hidx
    · rw [List.getElem?_eq_none (by simp; omega)]
    · rfl

end Queries

/-! ## The calls that change only the table -/

section Refs

variable {l l' : raft_log} {term index : ℕ}

theorem refsGrow_refs (h : refsGrow l = .ok l') : ∃ r, l' = { l with refs := r } := by
  unfold refsGrow at h
  obtain ⟨table, -, h⟩ := bind_eq_ok_iff.1 h
  exact ⟨table, (pure_eq_ok_iff.1 h).symm⟩

theorem refsInitTry_refs :
    ∀ {tries : ℕ} {l l' : raft_log}, refsInitTry term index tries l = .ok l' →
      ∃ r, l' = { l with refs := r }
  | 0, _, _, h => by cases h
  | tries + 1, l, l', h => by
    rw [refsInitTry] at h
    obtain ⟨⟨table, collision⟩, -, h⟩ := bind_eq_ok_iff.1 h
    cases collision
    · exact ⟨table, (pure_eq_ok_iff.1 h).symm⟩
    · obtain ⟨l₁, hgrow, h⟩ := bind_eq_ok_iff.1 h
      obtain ⟨r₁, rfl⟩ := refsGrow_refs hgrow
      obtain ⟨r, rfl⟩ := refsInitTry_refs h
      exact ⟨r, rfl⟩

theorem refsInit_refs (h : refsInit l term index = .ok l') : ∃ r, l' = { l with refs := r } := by
  unfold refsInit at h
  obtain ⟨r, rfl⟩ := refsInitTry_refs h
  refine ⟨r, ?_⟩
  split_ifs <;> rfl

theorem refsIncr_refs (h : refsIncr l term index = .ok l') : ∃ r, l' = { l with refs := r } := by
  unfold refsIncr at h
  obtain ⟨j, -, h⟩ := bind_eq_ok_iff.1 h
  exact ⟨_, (pure_eq_ok_iff.1 h).symm⟩

theorem refsDecr_refs {unref : Bool} (h : refsDecr l term index = .ok (l', unref)) :
    ∃ r, l' = { l with refs := r } := by
  unfold refsDecr at h
  obtain ⟨j, -, h⟩ := bind_eq_ok_iff.1 h
  dsimp only at h
  split_ifs at h
  · exact ⟨_, (Prod.mk.inj (pure_eq_ok_iff.1 h)).1.symm⟩
  · exact ⟨_, (Prod.mk.inj (pure_eq_ok_iff.1 h)).1.symm⟩

end Refs

/-! ## The calls that change the log -/

section Calls

variable {l l' : raft_log}

theorem live_eq_map (l : raft_log) :
    live l = (List.range (logNumEntries l)).map (entryAt l) := rfl

theorem logNumEntries_le (hwf : Wf l.size l.front l.back) : logNumEntries l ≤ l.size := by
  rcases Nat.eq_zero_or_pos l.size with h0 | hs
  · rw [logNumEntries_eq_count, count_zero_size hwf h0]
    exact Nat.zero_le _
  · exact (count_lt hwf hs).le

theorem live_eq_nil (hn : logNumEntries l = 0) : live l = [] :=
  List.eq_nil_of_length_eq_zero (by rw [length_live, hn])

/-- A log whose entries `ys` fill its first slots, from `front = 0` to `back`. -/
theorem live_of_front_zero {ys zs : List raft_entry} (he : l.entries = ys ++ zs)
    (hf : l.front = 0) (hb : l.back = ys.length) :
    logNumEntries l = ys.length ∧ live l = ys := by
  have hn : logNumEntries l = ys.length := by
    unfold logNumEntries
    rw [hf, hb, if_pos (Nat.zero_le _), Nat.sub_zero]
  refine ⟨hn, ?_⟩
  rw [live, hn, he, hf]
  exact view_zero_append rfl

@[simp] theorem ensureCapacity_offset : (ensureCapacity l).offset = l.offset := by
  simp only [ensureCapacity]
  split_ifs <;> rfl

@[simp] theorem ensureCapacity_snapshot : (ensureCapacity l).snapshot = l.snapshot := by
  simp only [ensureCapacity]
  split_ifs <;> rfl

/-- **`ensureCapacity` makes room for one more entry**, and keeps the entries. -/
theorem ensureCapacity_spec (hwf : Wf l.size l.front l.back) :
    Wf (ensureCapacity l).size (ensureCapacity l).front (ensureCapacity l).back ∧
      logNumEntries (ensureCapacity l) + 1 < (ensureCapacity l).size ∧
      live (ensureCapacity l) = live l := by
  simp only [ensureCapacity]
  split_ifs with hroom
  · exact ⟨hwf, hroom, rfl⟩
  · -- the entries are copied to the first slots of an array of `(size + 1) * 2`
    have hle := logNumEntries_le hwf
    generalize hys : (List.range (logNumEntries l)).map (entryAt l) = ys
    have hlen : ys.length = logNumEntries l := by rw [← hys, List.length_map, List.length_range]
    set l₁ : raft_log := { l with
      entries := ys ++ List.replicate ((l.size + 1) * 2 - logNumEntries l) raft_entry.zero
      front := 0, back := logNumEntries l } with hl₁
    obtain ⟨hn, hlive⟩ := live_of_front_zero (l := l₁) rfl rfl hlen.symm
    have hsize : l₁.size = (l.size + 1) * 2 := by
      rw [raft_log.size, List.length_append, List.length_replicate, hlen]
      omega
    have hf : l₁.front = 0 := rfl
    have hb : l₁.back = logNumEntries l := rfl
    refine ⟨⟨fun _ => ?_, fun _ => ?_, fun h0 => ?_⟩, ?_, ?_⟩
    · rw [hf, hsize]
      omega
    · rw [hb, hsize]
      omega
    · rw [hsize] at h0
      omega
    · rw [hn, hlen, hsize]
      omega
    · rw [hlive, ← hys, live_eq_map]

/-- An entry written at `back` of a log with room for it is its last. -/
theorem push_spec (hwf : Wf l.size l.front l.back) (hroom : logNumEntries l + 1 < l.size)
    {e : raft_entry} (he : l'.entries = l.entries.set l.back e) (hf : l'.front = l.front)
    (hb : l'.back = (l.back + 1) % l.size) :
    Wf l'.size l'.front l'.back ∧ live l' = live l ++ [e] := by
  have hs : 0 < l.size := Nat.lt_of_le_of_lt (Nat.zero_le _) hroom
  have hsize : l'.size = l.size := by rw [raft_log.size, he, List.length_set]; rfl
  obtain ⟨hwf', hcount⟩ := count_push hwf hs hroom
  have hn : logNumEntries l' = logNumEntries l + 1 := by
    rw [logNumEntries_eq_count, hsize, hf, hb]
    exact hcount
  refine ⟨by rwa [hsize, hf, hb], ?_⟩
  rw [live, hn, he, hf, live]
  exact view_push (Nat.lt_trans (Nat.lt_succ_self _) hroom) (back_eq hwf hs)

/-- **`logAppend` appends the entry**, and keeps the shape of the log. -/
theorem logAppend_spec (h : Shape l) {term type : ℕ} {buf : List UInt8}
    (happ : logAppend l term type buf = .ok l') :
    Shape l' ∧ abs l' = (abs l).append ⟨term, type, buf⟩ := by
  unfold logAppend at happ
  obtain ⟨-, happ⟩ := ite_throw_eq_ok happ
  obtain ⟨-, happ⟩ := ite_throw_eq_ok happ
  obtain ⟨l₂, hinit, hres⟩ := bind_eq_ok_iff.1 happ
  obtain ⟨r, rfl⟩ := refsInit_refs hinit
  have hl' := (pure_eq_ok_iff.1 hres).symm
  obtain ⟨hwf₁, hroom₁, hlive₁⟩ := ensureCapacity_spec h.wf
  obtain ⟨hwf', hlive'⟩ : Wf l'.size l'.front l'.back ∧
      live l' = live (ensureCapacity l) ++ [⟨term, type, buf⟩] :=
    push_spec hwf₁ hroom₁ (by subst hl'; rfl) (by subst hl'; rfl) (by subst hl'; rfl)
  have hoffset : l'.offset = l.offset := by rw [hl', ensureCapacity_offset]
  have hsnapshot : l'.snapshot = l.snapshot := by rw [hl', ensureCapacity_snapshot]
  refine ⟨⟨hwf', hoffset ▸ hsnapshot ▸ h.offset_le⟩, ?_⟩
  rw [abs, hlive', hlive₁, hoffset, hsnapshot]
  rfl

@[simp] theorem clearIfEmpty_offset : (clearIfEmpty l).offset = l.offset := by
  unfold clearIfEmpty
  split_ifs <;> rfl

@[simp] theorem clearIfEmpty_snapshot : (clearIfEmpty l).snapshot = l.snapshot := by
  unfold clearIfEmpty
  split_ifs <;> rfl

/-- `clearIfEmpty` keeps the entries. -/
theorem clearIfEmpty_spec (hwf : Wf l.size l.front l.back) :
    Wf (clearIfEmpty l).size (clearIfEmpty l).front (clearIfEmpty l).back ∧
      live (clearIfEmpty l) = live l := by
  unfold clearIfEmpty
  split_ifs with hn
  · exact ⟨hwf, rfl⟩
  · refine ⟨⟨fun h0 => absurd h0 (lt_irrefl 0), fun h0 => absurd h0 (lt_irrefl 0),
      fun _ => ⟨rfl, rfl⟩⟩, ?_⟩
    rw [live_eq_nil (l := l) (by omega), live_eq_nil rfl]

/-- **`logAppendCommands` appends a command entry for each buffer**, in order. -/
theorem logAppendCommands_spec (h : Shape l) {term : ℕ} {bufs : List (List UInt8)}
    (happ : logAppendCommands l term bufs = .ok l') :
    Shape l' ∧ abs l' = { abs l with
      entries := live l ++ bufs.map fun buf => ⟨term, RAFT_COMMAND, buf⟩ } := by
  unfold logAppendCommands at happ
  replace happ := (ite_throw_eq_ok (ite_throw_eq_ok happ).2).2
  rw [← abs_entries, ← LogSpec.foldl_append]
  -- one `logAppend` per buffer, each an append of the list log
  induction bufs generalizing l with
  | nil =>
    cases pure_eq_ok_iff.1 happ
    exact ⟨h, rfl⟩
  | cons buf bufs ih =>
    rw [List.foldlM_cons] at happ
    obtain ⟨l₁, happ₁, happ⟩ := bind_eq_ok_iff.1 happ
    obtain ⟨h₁, habs₁⟩ := logAppend_spec h happ₁
    obtain ⟨h', habs'⟩ := ih h₁ happ
    rw [habs', habs₁, List.foldl_cons]
    exact ⟨h', rfl⟩

/-- **`removeSuffix` drops the entries from `index` on**, and keeps the shape of the log;
    its assertions ask for `index` to be that of an entry. -/
theorem removeSuffix_spec (h : Shape l) {index : ℕ} {destroy : Bool}
    {destroyed : List (ℕ × ℕ)} (hrem : removeSuffix l index destroy = .ok (l', destroyed)) :
    l.offset < index ∧ index ≤ logLastIndex l ∧ Shape l' ∧ abs l' = (abs l).truncate index := by
  unfold removeSuffix at hrem
  obtain ⟨hlo, hrem⟩ := ite_throw_eq_ok hrem
  obtain ⟨hhi, hrem⟩ := ite_throw_eq_ok hrem
  obtain ⟨⟨l₁, d₁⟩, hloop, hres⟩ := bind_eq_ok_iff.1 hrem
  have hl' : l' = clearIfEmpty l₁ := (Prod.mk.inj (pure_eq_ok_iff.1 hres)).1.symm
  have hn : logLastIndex l - index + 1 ≤ logNumEntries l := by
    unfold logLastIndex at hhi ⊢
    omega
  -- each turn moves `back` one slot back, over a live entry, and changes the table alone
  obtain ⟨back, r, hl₁, hwf₁, hcount₁⟩ := foldlM_inv_rest
    (fun rest (acc : raft_log × List (ℕ × ℕ)) => ∃ back r, acc.1 = { l with back, refs := r } ∧
      Wf l.size l.front back ∧
      count l.size l.front back = logNumEntries l - (logLastIndex l - index + 1) + rest.length)
    (by
      rintro a rest ⟨l₀, d⟩ acc' ⟨back, r, hl₀, hwf, hcount⟩ hstep
      cases hl₀
      obtain ⟨⟨l₂, u⟩, hdecr, hres⟩ := bind_eq_ok_iff.1 hstep
      obtain ⟨r', rfl⟩ := refsDecr_refs hdecr
      cases pure_eq_ok_iff.1 hres
      have hpos : 0 < count l.size l.front back := by
        rw [hcount, List.length_cons]
        omega
      obtain ⟨hwf', hcount'⟩ := count_pop_back hwf hpos
      exact ⟨_, r', rfl, hwf', hcount'.trans (by rw [hcount, List.length_cons]; omega)⟩)
    ⟨l.back, l.refs, rfl, h.wf, by rw [List.length_range, ← logNumEntries_eq_count]; omega⟩ hloop
  cases hl₁
  obtain ⟨hwf', hlive'⟩ := clearIfEmpty_spec (l := { l with back, refs := r }) hwf₁
  have hkept : logNumEntries l - (logLastIndex l - index + 1) = index - 1 - l.offset := by
    unfold logLastIndex at hhi ⊢
    omega
  -- the entries left are the first `index - 1 - offset`
  have hlive₁ : live { l with back, refs := r } = (live l).take (index - 1 - l.offset) := by
    change view l.entries raft_entry.zero l.front (count l.size l.front back) = _
    rw [hcount₁, List.length_nil, Nat.add_zero, hkept, live]
    exact view_take (by omega)
  subst hl'
  refine ⟨not_not.1 hlo, not_not.1 hhi, ⟨hwf', ?_⟩, ?_⟩
  · rw [clearIfEmpty_offset, clearIfEmpty_snapshot]
    exact h.offset_le
  · rw [abs, hlive', hlive₁, clearIfEmpty_offset, clearIfEmpty_snapshot]
    rfl

/-- **`logTruncate` drops the entries from `index` on.** -/
theorem logTruncate_spec (h : Shape l) {index : ℕ} {destroyed : List (ℕ × ℕ)}
    (htr : logTruncate l index = .ok (l', destroyed)) :
    Shape l' ∧ abs l' = (abs l).truncate index := by
  unfold logTruncate at htr
  split_ifs at htr with hn
  · -- an empty log stays as it is
    cases (Prod.mk.inj (pure_eq_ok_iff.1 htr)).1
    refine ⟨h, ?_⟩
    rw [abs, live_eq_nil hn, LogSpec.truncate, List.take_nil]
  · exact (removeSuffix_spec h htr).2.2

theorem logDiscard_spec (h : Shape l) {index : ℕ} (hd : logDiscard l index = .ok l') :
    Shape l' ∧ abs l' = (abs l).truncate index := by
  unfold logDiscard at hd
  obtain ⟨⟨l₁, d₁⟩, hrem, hres⟩ := bind_eq_ok_iff.1 hd
  cases pure_eq_ok_iff.1 hres
  exact (removeSuffix_spec h hrem).2.2

/-- **`removePrefix` drops the entries up to `index`**, and moves the offset to it; its
    assertion asks for `index` to be at most the last. -/
theorem removePrefix_spec (hwf : Wf l.size l.front l.back) {index : ℕ} (hidx : l.offset < index)
    {destroyed : List (ℕ × ℕ)} (hrem : removePrefix l index = .ok (l', destroyed)) :
    index ≤ logLastIndex l ∧ Wf l'.size l'.front l'.back ∧ abs l' = (abs l).compact index := by
  unfold removePrefix at hrem
  obtain ⟨-, hrem⟩ := ite_throw_eq_ok hrem
  obtain ⟨hhi, hrem⟩ := ite_throw_eq_ok hrem
  obtain ⟨⟨l₁, d₁⟩, hloop, hres⟩ := bind_eq_ok_iff.1 hrem
  have hl' : l' = clearIfEmpty l₁ := (Prod.mk.inj (pure_eq_ok_iff.1 hres)).1.symm
  have hn : index - indexAt l 0 + 1 = index - l.offset := by
    unfold indexAt
    omega
  have hle : index - l.offset ≤ logNumEntries l := by
    unfold logLastIndex at hhi
    omega
  rw [hn] at hloop
  -- each turn moves `front` one slot on, over a live entry, and the offset with it
  obtain ⟨front, offset, r, hl₁, hoffset, hwf₁, -, hview₁, -⟩ := foldlM_inv_rest
    (fun rest (acc : raft_log × List (ℕ × ℕ)) => ∃ front offset r,
      acc.1 = { l with front, offset, refs := r } ∧ offset + rest.length = index ∧
      Wf l.size front l.back ∧
      count l.size front l.back + (index - l.offset - rest.length) = logNumEntries l ∧
      view l.entries raft_entry.zero front (count l.size front l.back) =
        (live l).drop (index - l.offset - rest.length) ∧ rest.length ≤ index - l.offset)
    (by
      rintro a rest ⟨l₀, d⟩ acc' ⟨front, offset, r, hl₀, hoffset, hwf, hcount, hview, hlen⟩ hstep
      cases hl₀
      obtain ⟨⟨l₂, u⟩, hdecr, hres⟩ := bind_eq_ok_iff.1 hstep
      obtain ⟨r', rfl⟩ := refsDecr_refs hdecr
      cases pure_eq_ok_iff.1 hres
      rw [List.length_cons] at hoffset hcount hview hlen
      have hpos : 0 < count l.size front l.back := by omega
      have hs : 0 < l.size := Nat.pos_of_ne_zero fun h0 =>
        absurd (count_zero_size hwf h0) hpos.ne'
      obtain ⟨hwf', hcount'⟩ := count_pop_front hwf hpos
      have hcount'' : count l.size (if front = l.size - 1 then 0 else front + 1) l.back +
          (index - l.offset - rest.length) = logNumEntries l := by
        rw [hcount']
        omega
      have hview' : view l.entries raft_entry.zero (if front = l.size - 1 then 0 else front + 1)
          (count l.size (if front = l.size - 1 then 0 else front + 1) l.back) =
          (live l).drop (index - l.offset - rest.length) := by
        rw [hcount', next_eq_mod hwf hs]
        refine (view_drop 1).trans ?_
        rw [hview, List.drop_drop]
        congr 1
        omega
      exact ⟨_, offset + 1, r', rfl, by omega, hwf', hcount'', hview', by omega⟩)
    ⟨l.front, l.offset, l.refs, rfl, by rw [List.length_range]; omega, hwf,
      by rw [List.length_range, Nat.sub_self, Nat.add_zero]; rfl,
      by rw [List.length_range, Nat.sub_self, List.drop_zero]; rfl, le_of_eq (List.length_range)⟩
    hloop
  cases hl₁
  rw [List.length_nil, Nat.add_zero] at hoffset
  subst hl'
  obtain ⟨hwf', hlive'⟩ := clearIfEmpty_spec (l := { l with front, offset, refs := r }) hwf₁
  refine ⟨not_not.1 hhi, hwf', ?_⟩
  rw [abs, hlive', clearIfEmpty_offset, clearIfEmpty_snapshot]
  change LogSpec.mk (view l.entries raft_entry.zero front (count l.size front l.back)) offset _ = _
  rw [hview₁, List.length_nil, Nat.sub_zero, hoffset]
  rfl

/-- A term other than zero is read at an index past the offset, or at the snapshot's. -/
theorem offset_le_of_logTermOf {L : Raft.raft_log} {index t : ℕ}
    (h : Raft.logTermOf L index = .ok t) (ht : t ≠ 0) : L.offset ≤ index := by
  obtain ⟨h0, -⟩ := Raft.le_logLastIndex_of_logTermOf h ht
  refine Nat.le_of_not_lt fun hlt => ht ?_
  have hsnap := L.offset_le
  unfold Raft.logTermOf at h
  rw [if_neg h0.ne', if_pos (Or.inl ⟨by omega, by omega⟩)] at h
  exact (Except.ok.inj h).symm

/-- **`logSnapshot` takes a snapshot at the term of its entry**, and compacts the entries
    before it but the `trailing` last, when the log still holds them. -/
theorem logSnapshot_spec (h : Shape l) {last_index trailing : ℕ} {destroyed : List (ℕ × ℕ)}
    (hsnap : logSnapshot l last_index trailing = .ok (l', destroyed)) :
    Shape l' ∧ ∃ last_term, Raft.logTermOf ((abs l).toLog h.offset_le) last_index = .ok last_term ∧
      last_term ≠ 0 ∧ abs l' = (abs l).takeSnapshot last_index trailing last_term := by
  unfold logSnapshot at hsnap
  obtain ⟨last_term, hterm, hsnap⟩ := bind_eq_ok_iff.1 hsnap
  obtain ⟨hne, hsnap⟩ := ite_throw_eq_ok hsnap
  rw [logTermOf_eq h] at hterm
  have hin := Raft.le_logLastIndex_of_logTermOf hterm hne
  rw [logLastIndex_toLog] at hin
  have hoff : l.offset ≤ last_index := offset_le_of_logTermOf hterm hne
  -- `locateEntry` finds the first entry to keep exactly when it is past the offset
  have hlocate : (last_index ≤ trailing ∨ locateEntry l (last_index - trailing) = l.size) ↔
      (last_index ≤ trailing ∨ last_index - trailing ≤ l.offset) := by
    by_cases htr : last_index ≤ trailing
    · simp [htr]
    · simp only [htr, false_or]
      rw [locateEntry_eq]
      split_ifs with hat
      · exact iff_of_false (positionAt_lt h.wf hat.2).ne (by omega)
      · exact iff_of_true rfl (by unfold logLastIndex at hin; omega)
  have hl₁ : Shape { l with snapshot := ⟨last_index, last_term⟩ } := ⟨h.wf, hoff⟩
  dsimp only at hsnap
  split_ifs at hsnap with hkeep
  · cases (Prod.mk.inj (pure_eq_ok_iff.1 hsnap)).1
    refine ⟨hl₁, last_term, hterm, hne, ?_⟩
    simp only [LogSpec.takeSnapshot, abs_offset, hlocate.1 hkeep, ↓reduceIte]
    rfl
  · have hidx : l.offset < last_index - trailing := by
      have := mt hlocate.2 hkeep
      omega
    obtain ⟨-, hwf', habs⟩ := removePrefix_spec hl₁.wf hidx hsnap
    have hoffset : l'.offset = last_index - trailing := congrArg LogSpec.offset habs
    have hsnapshot : l'.snapshot = ⟨last_index, last_term⟩ := congrArg LogSpec.snapshot habs
    refine ⟨⟨hwf', by rw [hoffset, hsnapshot]; exact Nat.sub_le _ _⟩, last_term, hterm, hne, ?_⟩
    simp only [LogSpec.takeSnapshot, abs_offset, mt hlocate.2 hkeep, ↓reduceIte, habs]
    rfl

/-- **`logRestore` empties the log after the snapshot.** -/
theorem logRestore_spec (h : Shape l) {last_index last_term : ℕ} {destroyed : List (ℕ × ℕ)}
    (hres : logRestore l last_index last_term = .ok (l', destroyed)) :
    Shape l' ∧ abs l' = LogSpec.restore last_index last_term := by
  unfold logRestore at hres
  obtain ⟨-, hres⟩ := ite_throw_eq_ok hres
  obtain ⟨-, hres⟩ := ite_throw_eq_ok hres
  dsimp only at hres
  split_ifs at hres with hn
  · -- the entries from the first on go
    obtain ⟨⟨l₁, d₁⟩, htr, hres⟩ := bind_eq_ok_iff.1 hres
    cases (Prod.mk.inj (pure_eq_ok_iff.1 hres)).1
    obtain ⟨hs, habs⟩ := logTruncate_spec h htr
    have hlive : live l₁ = [] := by
      have hentries := congrArg LogSpec.entries habs
      simp only [abs_entries, LogSpec.truncate, abs_offset] at hentries
      rw [hentries, show logLastIndex l - logNumEntries l + 1 - 1 - l.offset = 0 by
        unfold logLastIndex; omega, List.take_zero]
    refine ⟨⟨hs.wf, le_refl _⟩, ?_⟩
    show LogSpec.mk (live l₁) last_index ⟨last_index, last_term⟩ = _
    rw [hlive]
    rfl
  · obtain ⟨⟨l₁, d₁⟩, htr, hres⟩ := bind_eq_ok_iff.1 hres
    cases (Prod.mk.inj (pure_eq_ok_iff.1 htr)).1
    cases (Prod.mk.inj (pure_eq_ok_iff.1 hres)).1
    refine ⟨⟨h.wf, le_refl _⟩, ?_⟩
    show LogSpec.mk (live l) last_index ⟨last_index, last_term⟩ = _
    rw [live_eq_nil (by omega)]
    rfl

theorem logStart_spec (h : Shape l) {snapshot_index snapshot_term start_index : ℕ}
    (hs : logStart l snapshot_index snapshot_term start_index = .ok l') :
    Shape l' ∧ abs l' = (abs l).start snapshot_index snapshot_term start_index := by
  unfold logStart at hs
  obtain ⟨-, hs⟩ := ite_throw_eq_ok hs
  obtain ⟨-, hs⟩ := ite_throw_eq_ok hs
  obtain ⟨hstart, hs⟩ := ite_throw_eq_ok hs
  obtain ⟨-, hs⟩ := ite_throw_eq_ok hs
  cases pure_eq_ok_iff.1 hs
  exact ⟨⟨h.wf, by dsimp only; omega⟩, rfl⟩

/-- The live slots from the `k`-th on, counted up to `back` as `logAcquire` counts them. -/
theorem acquire_count (hwf : Wf l.size l.front l.back) {k : ℕ} (hk : k < logNumEntries l) :
    (if positionAt l k < l.back then l.back - positionAt l k else l.size - positionAt l k + l.back) =
      logNumEntries l - k := by
  have hs := size_pos hwf (Nat.lt_of_le_of_lt (Nat.zero_le k) hk)
  -- the `k`-th live slot is not `back`, which is `count` slots on from `front`
  have hne : positionAt l k ≠ l.back := fun heq =>
    absurd (mod_add_inj (Nat.lt_trans hk (count_lt hwf hs)) (count_lt hwf hs)
      (heq.trans (back_eq hwf hs))) hk.ne
  rw [logNumEntries_eq_count, ← count_from hwf hk]
  unfold positionAt at hne ⊢
  unfold count
  split_ifs <;> first | rfl | omega

/-- **`logAcquire` returns the entries from `index` to the last**, and changes the table
    alone. -/
theorem logAcquire_spec (hwf : Wf l.size l.front l.back) {index : ℕ}
    {entries : List raft_entry} (hacq : logAcquire l index = .ok (l', entries)) :
    (∃ r, l' = { l with refs := r }) ∧
      entries = if l.offset < index then (live l).drop (index - 1 - l.offset) else [] := by
  unfold logAcquire at hacq
  obtain ⟨-, hacq⟩ := ite_throw_eq_ok hacq
  dsimp only at hacq
  by_cases hin : l.offset < index ∧ index - 1 - l.offset < logNumEntries l
  · have hi : locateEntry l index = positionAt l (index - 1 - l.offset) := by
      rw [locateEntry_eq, if_pos hin]
    rw [hi, if_neg (positionAt_lt hwf hin.2).ne, acquire_count hwf hin.2] at hacq
    obtain ⟨-, hacq⟩ := ite_throw_eq_ok hacq
    obtain ⟨l₁, hloop, hres⟩ := bind_eq_ok_iff.1 hacq
    obtain ⟨hl₁, rfl⟩ := Prod.mk.inj (pure_eq_ok_iff.1 hres)
    subst hl₁
    refine ⟨foldlM_inv (fun l₁ => ∃ r, l₁ = { l with refs := r }) ?_ ⟨l.refs, rfl⟩ hloop, ?_⟩
    · rintro l₀ j l₂ - ⟨r, rfl⟩ hincr
      obtain ⟨r', rfl⟩ := refsIncr_refs hincr
      exact ⟨r', rfl⟩
    · rw [if_pos hin.1]
      exact view_drop (index - 1 - l.offset)
  · have hi : locateEntry l index = l.size := by rw [locateEntry_eq, if_neg hin]
    rw [hi, if_pos rfl] at hacq
    obtain ⟨rfl, rfl⟩ := Prod.mk.inj (pure_eq_ok_iff.1 hacq)
    refine ⟨⟨l.refs, rfl⟩, ?_⟩
    split_ifs with hidx
    · rw [List.drop_eq_nil_of_le (by rw [length_live]; omega)]
    · rfl

/-- A log of three slots that wraps around: the entries of indexes `7` and `8` are in slots
    `2` and `0`. -/
theorem logAcquire_spec_wrapped :
    ∃ l l' entries, l = ⟨[⟨5, RAFT_COMMAND, []⟩, raft_entry.zero, ⟨4, RAFT_COMMAND, [1]⟩],
      2, 1, 6, [[⟨4, 7, 1⟩], [⟨5, 8, 1⟩]], ⟨6, 3⟩⟩ ∧
    logAcquire l 7 = .ok (l', entries) ∧ Wf l.size l.front l.back ∧
    (∃ r, l' = { l with refs := r }) ∧
      entries = if l.offset < 7 then (live l).drop (7 - 1 - l.offset) else [] := by
  refine ⟨_, ?_, ?_, rfl, ?hacq, ?hwf, logAcquire_spec ?hwf ?hacq⟩
  case hacq => rfl
  case hwf => exact ⟨fun _ => by decide, fun _ => by decide, fun h => absurd h (by decide)⟩

end Calls

end Abstraktor.Raft.Circular
