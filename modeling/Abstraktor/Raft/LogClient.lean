/-
  The references to the entries of the log of log.c
  (src/SUT/dqlite/dqlite-raft/src/log.c, and the contract of log.h): the log holds one
  reference to each of its entries, from `logAppend` until the entry leaves the log,
  and a caller that acquires entries holds one to each of them until it releases them;
  an entry whose last reference goes is freed.

  * `entryRefs`, `LogSpec.refs`, `acquiredRefs`: the references a run of entries, a log
    and an acquisition hold;
  * `logAppend_refs`, `removeSuffix_refs`, `removePrefix_refs`, `logAcquire_refs`,
    `logRelease_refs`: what each call does to the table, and which entries the calls that
    give references back report freed;
  * `RefsInv`, and its step lemmas: the log has its shape, the table its own, and the table
    counts exactly the references held;
  * `Reachable`: the logs, and the acquisitions held, that the calls of log.h and the
    acquisitions and releases of its callers reach from `logInit`; `Reachable.refsInv`, the
    run lemma, and what follows from it: `reachable_slot_counts`, `logRelease_reachable`,
    `logTruncate_reachable`.
-/
import Mathlib
import Abstraktor.Lib.Counter
import Abstraktor.Lib.CircularBuffer
import Abstraktor.Raft.LogRefine
import Abstraktor.Raft.LogRefs
import Abstraktor.Raft.LogRun

namespace Abstraktor.Raft.Circular

open CircularBuffer Counter

open scoped List

/-! ## The references held -/

/-- References to `entries`, the first of index `first`: one to each, by its term and
    index. -/
def entryRefs (first : ℕ) (entries : List raft_entry) : List (ℕ × ℕ) :=
  entries.mapIdx fun i e => (e.term, first + i)

/-- The references a log holds: one to each of its entries. -/
def LogSpec.refs (L : LogSpec) : List (ℕ × ℕ) := entryRefs (L.offset + 1) L.entries

/-- The references an acquisition of entries from an index holds: one to each. -/
def acquiredRefs (a : ℕ × List raft_entry) : List (ℕ × ℕ) := entryRefs a.1 a.2

section EntryRefs

variable {first : ℕ} {xs ys : List raft_entry}

@[simp] theorem length_entryRefs : (entryRefs first xs).length = xs.length := List.length_mapIdx

theorem getElem?_entryRefs (i : ℕ) :
    (entryRefs first xs)[i]? = xs[i]?.map fun e => (e.term, first + i) :=
  List.getElem?_mapIdx

theorem entryRefs_cons (x : raft_entry) :
    entryRefs first (x :: xs) = (x.term, first) :: entryRefs (first + 1) xs := by
  simp only [entryRefs, List.mapIdx_cons, Nat.add_zero]
  congr 1
  refine congrArg₂ _ ?_ rfl
  funext i e
  rw [Nat.add_assoc, Nat.add_comm i 1]

theorem entryRefs_append :
    entryRefs first (xs ++ ys) = entryRefs first xs ++ entryRefs (first + xs.length) ys := by
  simp only [entryRefs, List.mapIdx_append]
  congr 1
  refine congrArg₂ _ ?_ rfl
  funext i e
  rw [Nat.add_assoc, Nat.add_comm i]

theorem entryRefs_take (k : ℕ) : entryRefs first (xs.take k) = (entryRefs first xs).take k := by
  refine List.ext_getElem? fun i => ?_
  rw [getElem?_entryRefs, List.getElem?_take, List.getElem?_take, getElem?_entryRefs]
  split_ifs <;> rfl

theorem entryRefs_drop (k : ℕ) :
    entryRefs (first + k) (xs.drop k) = (entryRefs first xs).drop k := by
  refine List.ext_getElem? fun i => ?_
  rw [getElem?_entryRefs, List.getElem?_drop, List.getElem?_drop, getElem?_entryRefs,
    Nat.add_assoc]

/-- The indices of the references are those from `first` on. -/
theorem map_snd_entryRefs :
    ∀ {first : ℕ} {xs : List raft_entry},
      (entryRefs first xs).map Prod.snd = List.range' first xs.length
  | _, [] => rfl
  | first, x :: xs => by
    rw [entryRefs_cons, List.map_cons, map_snd_entryRefs, List.length_cons, List.range'_succ]

/-- **No two references of a run of entries are to one entry**: their indices differ. -/
theorem nodup_entryRefs : (entryRefs first xs).Nodup := by
  refine List.Nodup.of_map Prod.snd ?_
  rw [map_snd_entryRefs]
  exact List.nodup_range'

end EntryRefs

namespace LogSpec

variable {L : LogSpec}

theorem refs_append (e : raft_entry) :
    (L.append e).refs = L.refs ++ [(e.term, L.offset + 1 + L.entries.length)] := by
  rw [refs, append, entryRefs_append]
  rfl

theorem refs_truncate (index : ℕ) :
    (L.truncate index).refs = L.refs.take (index - 1 - L.offset) :=
  entryRefs_take _

theorem refs_compact {index : ℕ} (h : L.offset ≤ index) :
    (L.compact index).refs = L.refs.drop (index - L.offset) := by
  rw [refs, refs, ← entryRefs_drop]
  congr 1
  simp only [compact]
  omega

end LogSpec

/-- The reference to the `k`-th entry of a log, by its term and index. -/
theorem getElem?_refs_abs {l : raft_log} {k : ℕ} (hk : k < logNumEntries l) :
    (abs l).refs[k]? = some ((entryAt l k).term, l.offset + 1 + k) := by
  rw [LogSpec.refs, getElem?_entryRefs, abs_entries, getElem?_live hk]
  rfl

theorem nodup_refs_drop (L : LogSpec) (k : ℕ) : (L.refs.drop k).Nodup :=
  List.Nodup.sublist (List.drop_sublist _ _) nodup_entryRefs

section Turns

variable {α : Type} {xs : List α} {j : ℕ} {x : α}

/-- The elements from `j` on are the one at `j`, then those after it. -/
theorem drop_eq_cons_of_getElem? (hx : xs[j]? = some x) : xs.drop j = x :: xs.drop (j + 1) := by
  obtain ⟨hj, rfl⟩ := List.getElem?_eq_some_iff.1 hx
  exact List.drop_eq_getElem_cons hj

/-- In a list without duplicates, the element at `j` is not among the `j` before it. -/
theorem not_mem_take_of_getElem? (hxs : xs.Nodup) (hx : xs[j]? = some x) : x ∉ xs.take j := by
  have hnd := hxs.sublist (List.take_sublist (j + 1) xs)
  rw [List.take_add_one, hx, Option.toList_some] at hnd
  exact (List.nodup_cons.1 (List.nodup_append_comm.1 hnd)).1

/-- In a list without duplicates, the element at `j` is not among those after it. -/
theorem not_mem_drop_of_getElem? (hxs : xs.Nodup) (hx : xs[j]? = some x) :
    x ∉ xs.drop (j + 1) := by
  have hnd := hxs.sublist (List.drop_sublist j xs)
  rw [drop_eq_cons_of_getElem? hx] at hnd
  exact (List.nodup_cons.1 hnd).1

end Turns

/-- A turn that gives back the reference `p` reports it freed exactly when `base` does not
    hold it: the references reported stay those given back that `base` does not hold. -/
theorem filter_turn {u : Bool} {p : ℕ × ℕ} {base done : List (ℕ × ℕ)}
    (hu : u = true ↔ p ∉ base) :
    (if u = true then done.filter (fun q => q ∉ base) ++ [p]
      else done.filter (fun q => q ∉ base)) = (done ++ [p]).filter (fun q => q ∉ base) := by
  rw [List.filter_append]
  by_cases hp : p ∈ base
  · have hu' : u = false := Bool.eq_false_iff.2 fun hu'' => hu.1 hu'' hp
    simp [hp, hu']
  · simp [hp, hu.2 hp]

/-! ## What the calls do to the table -/

section Calls

variable {l l' : raft_log}

@[simp] theorem ensureCapacity_refs : (ensureCapacity l).refs = l.refs := by
  simp only [ensureCapacity]
  split_ifs <;> rfl

@[simp] theorem clearIfEmpty_refs : (clearIfEmpty l).refs = l.refs := by
  unfold clearIfEmpty
  split_ifs <;> rfl

theorem logNumEntries_ensureCapacity : logNumEntries (ensureCapacity l) = logNumEntries l := by
  simp only [ensureCapacity]
  split_ifs
  · rfl
  · -- the entries copied to the first slots, from `0` to `back`
    unfold logNumEntries
    rw [if_pos (Nat.zero_le _), Nat.sub_zero]

/-- **`logAppend` takes one reference, to the new entry.** -/
theorem logAppend_refs (htab : TableWf l.refs) {term type : ℕ} {buf : List UInt8}
    (happ : logAppend l term type buf = .ok l') :
    TableWf l'.refs ∧ tableRefs l'.refs ~ tableRefs l.refs ++ [(term, logLastIndex l + 1)] := by
  unfold logAppend at happ
  obtain ⟨-, happ⟩ := ite_throw_eq_ok happ
  obtain ⟨-, happ⟩ := ite_throw_eq_ok happ
  obtain ⟨l₂, hinit, hres⟩ := bind_eq_ok_iff.1 happ
  cases pure_eq_ok_iff.1 hres
  have hindex : logLastIndex (ensureCapacity l) = logLastIndex l := by
    rw [logLastIndex, logLastIndex, ensureCapacity_offset, logNumEntries_ensureCapacity]
  rw [hindex] at hinit
  have h := refsInit_spec (by rwa [ensureCapacity_refs]) hinit
  rwa [ensureCapacity_refs] at h

/-- **`removeSuffix` gives back the references of the entries it drops**, last first: the
    table, which counts `base` and those references, is left counting `base`; with
    `destroy`, the entries it reports freed are those dropped that `base` does not
    reference. -/
theorem removeSuffix_refs (h : Shape l) (htab : TableWf l.refs) {base : List (ℕ × ℕ)}
    {index : ℕ} {destroy : Bool} {destroyed : List (ℕ × ℕ)}
    (hperm : tableRefs l.refs ~ base ++ (abs l).refs.drop (index - 1 - l.offset))
    (hrem : removeSuffix l index destroy = .ok (l', destroyed)) :
    TableWf l'.refs ∧ tableRefs l'.refs ~ base ∧
      destroyed = if destroy then
        ((abs l).refs.drop (index - 1 - l.offset)).reverse.filter (fun p => p ∉ base)
      else [] := by
  unfold removeSuffix at hrem
  obtain ⟨hlo, hrem⟩ := ite_throw_eq_ok hrem
  obtain ⟨hhi, hrem⟩ := ite_throw_eq_ok hrem
  obtain ⟨⟨l₁, d₁⟩, hloop, hres⟩ := bind_eq_ok_iff.1 hrem
  obtain ⟨rfl, rfl⟩ := Prod.mk.inj (pure_eq_ok_iff.1 hres)
  have hnd := nodup_refs_drop (abs l) (index - 1 - l.offset)
  generalize hR : (abs l).refs.drop (index - 1 - l.offset) = R at hperm hnd ⊢
  generalize hn : logLastIndex l - index + 1 = n at hloop
  have hN : logNumEntries l = index - 1 - l.offset + n := by
    unfold logLastIndex at hhi hn
    omega
  have hRlen : R.length = n := by
    rw [← hR, List.length_drop, LogSpec.refs, length_entryRefs, abs_entries, length_live]
    omega
  -- the `k`-th turn gives back the reference to the last entry but `k`
  have hkey : ∀ k < n, R[n - k - 1]? = some
      ((entryAt l (index - 1 - l.offset + (n - k - 1))).term, index + n - k - 1) := by
    intro k hk
    rw [← hR, List.getElem?_drop, getElem?_refs_abs (by omega)]
    congr 3
    omega
  have hinv := foldlM_range_inv
    (fun k (acc : raft_log × List (ℕ × ℕ)) => ∃ back r,
      acc.1 = { l with back, refs := r } ∧ Wf l.size l.front back ∧
      count l.size l.front back = index - 1 - l.offset + (n - k) ∧
      TableWf r ∧ tableRefs r ~ base ++ R.take (n - k) ∧
      acc.2 = if destroy then (R.drop (n - k)).reverse.filter (fun p => p ∉ base) else [])
    ?step ?init hloop
  case step =>
    rintro k ⟨l₀, d⟩ acc' hk ⟨back, r, hl₀, hwf, hcount, htab₀, hperm₀, hd₀⟩ hstep
    cases hl₀
    have hpos : 0 < count l.size l.front back := by omega
    obtain ⟨hwf', hcount'⟩ := count_pop_back hwf hpos
    obtain ⟨⟨l₂, u⟩, hdecr, hres⟩ := bind_eq_ok_iff.1 hstep
    -- the slot before `back` holds the last live entry
    change refsDecr { l with back := if back = 0 then l.size - 1 else back - 1, refs := r }
      (l.entries.getD (if back = 0 then l.size - 1 else back - 1) raft_entry.zero).term
      (index + n - k - 1) = _ at hdecr
    have hprev := prev_eq_mod hwf hpos
    rw [hcount, show index - 1 - l.offset + (n - k) - 1 = index - 1 - l.offset + (n - k - 1) by
      omega] at hprev
    rw [hprev] at hwf' hcount' hdecr
    have htake : R.take (n - k) = R.take (n - k - 1) ++
        [((entryAt l (index - 1 - l.offset + (n - k - 1))).term, index + n - k - 1)] := by
      rw [show n - k = n - k - 1 + 1 by omega, List.take_add_one, hkey k hk, Option.toList_some,
        Nat.add_sub_cancel]
    rw [htake, ← List.append_assoc] at hperm₀
    obtain ⟨r', u', hdecr', htab', hperm', hunref⟩ := refsDecr_turn
      (l := { l with
        back := (l.front + (index - 1 - l.offset + (n - k - 1))) % l.size, refs := r })
      htab₀ hperm₀ List.not_mem_nil
    obtain ⟨rfl, rfl⟩ := Prod.mk.inj (Except.ok.inj (hdecr.symm.trans hdecr'))
    cases pure_eq_ok_iff.1 hres
    have hfresh := not_mem_take_of_getElem? hnd (hkey k hk)
    have hfreed : u = true ↔
        ((entryAt l (index - 1 - l.offset + (n - k - 1))).term, index + n - k - 1) ∉ base := by
      rw [hunref, List.mem_append, not_or, and_iff_left hfresh]
    have hdrop := drop_eq_cons_of_getElem? (hkey k hk)
    rw [show n - k - 1 + 1 = n - k by omega] at hdrop
    refine ⟨_, r', rfl, hwf', by rw [hcount', hcount]; omega, htab', ?_, ?_⟩
    · rw [show n - (k + 1) = n - k - 1 by omega]
      rwa [List.append_nil] at hperm'
    · rw [show n - (k + 1) = n - k - 1 by omega, hdrop, List.reverse_cons]
      cases destroy
      · simpa using hd₀
      · simp only [and_true, if_true] at hd₀ ⊢
        have hslot : (if back = 0 then ({ l with back, refs := r } : raft_log).size - 1
            else back - 1) = (l.front + (index - 1 - l.offset + (n - k - 1))) % l.size := hprev
        rw [hslot, hd₀]
        exact filter_turn hfreed
  case init =>
    refine ⟨l.back, l.refs, rfl, h.wf, ?_, htab, ?_, ?_⟩
    · rw [← logNumEntries_eq_count, hN, Nat.sub_zero]
    · rwa [Nat.sub_zero, List.take_of_length_le (le_of_eq hRlen)]
    · rw [Nat.sub_zero, List.drop_eq_nil_of_le (le_of_eq hRlen)]
      simp
  obtain ⟨back, r, hl₁, -, -, htab₁, hperm₁, hd₁⟩ := hinv
  cases hl₁
  rw [Nat.sub_self, List.take_zero, List.append_nil] at hperm₁
  rw [Nat.sub_self, List.drop_zero] at hd₁
  rw [clearIfEmpty_refs]
  exact ⟨htab₁, hperm₁, hd₁⟩

/-- **`removePrefix` gives back the references of the entries it drops**, first first: the
    table, which counts `base` and those references, is left counting `base`, and the
    entries it reports freed are those dropped that `base` does not reference. -/
theorem removePrefix_refs (hwf : Wf l.size l.front l.back) (htab : TableWf l.refs)
    {base : List (ℕ × ℕ)} {index : ℕ} (hidx : l.offset < index) {destroyed : List (ℕ × ℕ)}
    (hperm : tableRefs l.refs ~ base ++ (abs l).refs.take (index - l.offset))
    (hrem : removePrefix l index = .ok (l', destroyed)) :
    TableWf l'.refs ∧ tableRefs l'.refs ~ base ∧
      destroyed = ((abs l).refs.take (index - l.offset)).filter (fun p => p ∉ base) := by
  unfold removePrefix at hrem
  obtain ⟨-, hrem⟩ := ite_throw_eq_ok hrem
  obtain ⟨hhi, hrem⟩ := ite_throw_eq_ok hrem
  obtain ⟨⟨l₁, d₁⟩, hloop, hres⟩ := bind_eq_ok_iff.1 hrem
  obtain ⟨rfl, rfl⟩ := Prod.mk.inj (pure_eq_ok_iff.1 hres)
  have hnd : ((abs l).refs.take (index - l.offset)).Nodup :=
    List.Nodup.sublist (List.take_sublist _ _) nodup_entryRefs
  generalize hR : (abs l).refs.take (index - l.offset) = R at hperm hnd ⊢
  have hn : index - indexAt l 0 + 1 = index - l.offset := by
    unfold indexAt
    omega
  have hle : index - l.offset ≤ logNumEntries l := by
    unfold logLastIndex at hhi
    omega
  rw [hn] at hloop
  have hRlen : R.length = index - l.offset := by
    rw [← hR, List.length_take, LogSpec.refs, length_entryRefs, abs_entries, length_live]
    omega
  -- `k` turns in, `front` is at the `k`-th entry and the offset `k` on
  have hinv := foldlM_range_inv
    (fun k (acc : raft_log × List (ℕ × ℕ)) => ∃ front r,
      acc.1 = { l with front, offset := l.offset + k, refs := r } ∧ Wf l.size front l.back ∧
      count l.size front l.back + k = logNumEntries l ∧
      view l.entries raft_entry.zero front (count l.size front l.back) = (live l).drop k ∧
      TableWf r ∧ tableRefs r ~ base ++ R.drop k ∧ acc.2 = (R.take k).filter (fun p => p ∉ base))
    ?step ?init hloop
  case step =>
    rintro k ⟨l₀, d⟩ acc' hk ⟨front, r, hl₀, hwf₀, hcount, hview, htab₀, hperm₀, hd₀⟩ hstep
    cases hl₀
    have hpos : 0 < count l.size front l.back := by omega
    have hs : 0 < l.size := Nat.pos_of_ne_zero fun h0 =>
      absurd (count_zero_size hwf₀ h0) hpos.ne'
    have hentry : (live l)[k]? = some (l.entries.getD front raft_entry.zero) := by
      rw [← Nat.add_zero k, ← List.getElem?_drop, ← hview, view, List.getElem?_map,
        List.getElem?_range hpos, Option.map_some, Nat.add_zero,
        Nat.mod_eq_of_lt (show front < l.entries.length from hwf₀.front_lt hs)]
    have hkey : R[k]? = some ((l.entries.getD front raft_entry.zero).term, l.offset + k + 1) := by
      rw [← hR, List.getElem?_take, if_pos (by omega), LogSpec.refs, getElem?_entryRefs,
        abs_entries, hentry, Option.map_some, abs_offset, Nat.add_right_comm]
    rw [drop_eq_cons_of_getElem? hkey] at hperm₀
    obtain ⟨⟨l₂, u⟩, hdecr, hres⟩ := bind_eq_ok_iff.1 hstep
    obtain ⟨r', u', hdecr', htab', hperm', hfreed⟩ := refsDecr_turn
      (l := { l with
        front := if front = l.size - 1 then 0 else front + 1, offset := l.offset + k + 1,
        refs := r })
      htab₀ hperm₀ (not_mem_drop_of_getElem? hnd hkey)
    obtain ⟨rfl, rfl⟩ := Prod.mk.inj (Except.ok.inj (hdecr.symm.trans hdecr'))
    cases pure_eq_ok_iff.1 hres
    obtain ⟨hwf', hcount'⟩ := count_pop_front hwf₀ hpos
    refine ⟨if front = l.size - 1 then 0 else front + 1, r', rfl, hwf', by rw [hcount']; omega,
      ?_, htab', hperm', ?_⟩
    · rw [hcount', next_eq_mod hwf₀ hs]
      refine (view_drop 1).trans ?_
      rw [hview, List.drop_drop]
    · dsimp only at hd₀ ⊢
      rw [List.take_add_one, hkey, Option.toList_some, hd₀]
      exact filter_turn hfreed
  case init =>
    refine ⟨l.front, l.refs, rfl, hwf, ?_, ?_, htab, ?_, ?_⟩
    · rw [Nat.add_zero]
      rfl
    · rw [List.drop_zero]
      rfl
    · rwa [List.drop_zero]
    · rw [List.take_zero]
      rfl
  obtain ⟨front, r, hl₁, -, -, -, htab₁, hperm₁, hd₁⟩ := hinv
  cases hl₁
  rw [List.drop_eq_nil_of_le (le_of_eq hRlen), List.append_nil] at hperm₁
  rw [List.take_of_length_le (le_of_eq hRlen)] at hd₁
  rw [clearIfEmpty_refs]
  exact ⟨htab₁, hperm₁, hd₁⟩

/-- The reference that the `k`-th turn of `logAcquire` and `logRelease` takes or gives back. -/
theorem getElem?_entryRefs_getD {first k : ℕ} {xs : List raft_entry} (hk : k < xs.length) :
    (entryRefs first xs)[k]? = some ((xs.getD k raft_entry.zero).term, first + k) := by
  rw [getElem?_entryRefs, List.getElem?_eq_getElem hk, Option.map_some,
    List.getD_eq_getElem _ _ hk]

/-- **`logAcquire` takes one reference to each entry it returns**, and changes the table
    alone: the table, which counts `base`, holder of the references of the log, then counts
    the acquisition too.  No count may reach the bound of an `unsigned short`. -/
theorem logAcquire_refs (hwf : Wf l.size l.front l.back) (htab : TableWf l.refs)
    {base : List (ℕ × ℕ)} (hperm : tableRefs l.refs ~ base) (hsub : (abs l).refs ⊆ base)
    (hbound : ∀ p, base.count p + 1 < 65536) {index : ℕ} {entries : List raft_entry}
    (hacq : logAcquire l index = .ok (l', entries)) :
    l' = { l with refs := l'.refs } ∧ TableWf l'.refs ∧
      tableRefs l'.refs ~ base ++ acquiredRefs (index, entries) := by
  unfold logAcquire at hacq
  obtain ⟨-, hacq⟩ := ite_throw_eq_ok hacq
  dsimp only at hacq
  by_cases hin : l.offset < index ∧ index - 1 - l.offset < logNumEntries l
  · have hi : locateEntry l index = positionAt l (index - 1 - l.offset) := by
      rw [locateEntry_eq, if_pos hin]
    rw [hi, if_neg (positionAt_lt hwf hin.2).ne, acquire_count hwf hin.2] at hacq
    obtain ⟨-, hacq⟩ := ite_throw_eq_ok hacq
    obtain ⟨l₁, hloop, hres⟩ := bind_eq_ok_iff.1 hacq
    obtain ⟨rfl, hentries⟩ := Prod.mk.inj (pure_eq_ok_iff.1 hres)
    rw [hentries] at hloop
    have hlen : entries.length = logNumEntries l - (index - 1 - l.offset) := by
      rw [← hentries, List.length_map, List.length_range]
    -- the references acquired are those of the log from `index` on
    have hrefs : acquiredRefs (index, entries) = (abs l).refs.drop (index - 1 - l.offset) := by
      have hE : entries = (live l).drop (index - 1 - l.offset) :=
        hentries.symm.trans (view_drop (index - 1 - l.offset))
      rw [acquiredRefs, LogSpec.refs, abs_entries, abs_offset, ← entryRefs_drop, hE]
      congr 1
      omega
    have hnd : (acquiredRefs (index, entries)).Nodup := nodup_entryRefs
    rw [← hlen] at hloop
    have hinv := foldlM_range_inv
      (fun k l₀ => ∃ r, l₀ = { l with refs := r } ∧ TableWf r ∧
        tableRefs r ~ base ++ (acquiredRefs (index, entries)).take k)
      ?step ?init hloop
    case step =>
      rintro k l₀ l₂ hk ⟨r, rfl, htab₀, hperm₀⟩ hincr
      have hkey : (acquiredRefs (index, entries))[k]? =
          some ((entries.getD k raft_entry.zero).term, index + k) := getElem?_entryRefs_getD hk
      have hfresh := not_mem_take_of_getElem? hnd hkey
      have hmem : ((entries.getD k raft_entry.zero).term, index + k) ∈ base := by
        refine hsub (List.mem_of_mem_drop (i := index - 1 - l.offset) ?_)
        rw [← hrefs]
        exact List.mem_of_getElem? hkey
      obtain ⟨r', hincr', htab', hperm'⟩ := refsIncr_turn (l := { l with refs := r }) htab₀ hperm₀
        (List.mem_append_left _ hmem)
        (by rw [List.count_append, List.count_eq_zero_of_not_mem hfresh, Nat.add_zero]
            exact hbound _)
      cases Except.ok.inj (hincr.symm.trans hincr')
      refine ⟨r', rfl, htab', ?_⟩
      rw [List.take_add_one, hkey, Option.toList_some, ← List.append_assoc]
      exact hperm'
    case init =>
      exact ⟨l.refs, rfl, htab, by rwa [List.take_zero, List.append_nil]⟩
    obtain ⟨r, rfl, htab₁, hperm₁⟩ := hinv
    rw [List.take_of_length_le (by rw [acquiredRefs, length_entryRefs])] at hperm₁
    exact ⟨rfl, htab₁, hperm₁⟩
  · -- no entry from `index` on: nothing is acquired
    have hi : locateEntry l index = l.size := by rw [locateEntry_eq, if_neg hin]
    rw [hi, if_pos rfl] at hacq
    obtain ⟨rfl, rfl⟩ := Prod.mk.inj (pure_eq_ok_iff.1 hacq)
    refine ⟨rfl, htab, ?_⟩
    rwa [show acquiredRefs (index, []) = [] from rfl, List.append_nil]

/-- **`logRelease` gives back the references of an acquisition**: when the table counts
    them, with `base`, the release succeeds, leaves the table counting `base`, and reports
    freed the entries acquired that `base` does not reference. -/
theorem logRelease_refs (htab : TableWf l.refs) {base : List (ℕ × ℕ)} {index : ℕ}
    {entries : List raft_entry} (hperm : tableRefs l.refs ~ base ++ acquiredRefs (index, entries)) :
    ∃ r, logRelease l index entries =
        .ok ({ l with refs := r }, (acquiredRefs (index, entries)).filter (fun p => p ∉ base)) ∧
      TableWf r ∧ tableRefs r ~ base := by
  have hnd : (acquiredRefs (index, entries)).Nodup := nodup_entryRefs
  generalize hK : acquiredRefs (index, entries) = K at hperm hnd ⊢
  have hKlen : K.length = entries.length := by rw [← hK, acquiredRefs, length_entryRefs]
  -- `k` turns in, the references of the first `k` entries are given back
  let P : ℕ → raft_log × List (ℕ × ℕ) → Prop := fun k acc => ∃ r, acc.1 = { l with refs := r } ∧
    TableWf r ∧ tableRefs r ~ base ++ K.drop k ∧ acc.2 = (K.take k).filter (fun p => p ∉ base)
  have hrun : ∃ acc, logRelease l index entries = .ok acc ∧ P entries.length acc :=
    foldlM_range_ok P ?step ⟨l.refs, rfl, htab, by rwa [List.drop_zero], by rw [List.take_zero]; rfl⟩
  case step =>
    rintro k ⟨l₀, d⟩ hk ⟨r, hl₀, htab₀, hperm₀, hd₀⟩
    cases hl₀
    have hkey : K[k]? = some ((entries.getD k raft_entry.zero).term, index + k) := by
      rw [← hK]
      exact getElem?_entryRefs_getD hk
    rw [drop_eq_cons_of_getElem? hkey] at hperm₀
    obtain ⟨r', u, hdecr, htab', hperm', hfreed⟩ :=
      refsDecr_turn (l := { l with refs := r }) htab₀ hperm₀ (not_mem_drop_of_getElem? hnd hkey)
    refine ⟨({ l with refs := r' },
      if u then d ++ [((entries.getD k raft_entry.zero).term, index + k)] else d), ?_,
      r', rfl, htab', hperm', ?_⟩
    · dsimp only
      rw [hdecr]
      rfl
    · dsimp only at hd₀ ⊢
      rw [List.take_add_one, hkey, Option.toList_some, hd₀]
      exact filter_turn hfreed
  obtain ⟨⟨l', d⟩, hrel, r, hl', htab', hperm', hd⟩ := hrun
  cases hl'
  rw [List.drop_eq_nil_of_le (by omega), List.append_nil] at hperm'
  rw [List.take_of_length_le (by omega)] at hd
  refine ⟨r, ?_, htab', hperm'⟩
  rw [← hd]
  exact hrel

end Calls

/-! ## The references held along every run -/

section Held

variable {l l' : raft_log} {held : List (ℕ × List raft_entry)}

theorem count_entryRefs_le_one {first : ℕ} {xs : List raft_entry} (p : ℕ × ℕ) :
    (entryRefs first xs).count p ≤ 1 := by
  rw [List.Nodup.count nodup_entryRefs]
  split_ifs <;> omega

/-- Each acquisition holds at most one reference to an entry. -/
theorem count_held_le (p : ℕ × ℕ) :
    ∀ held : List (ℕ × List raft_entry), (held.flatMap acquiredRefs).count p ≤ held.length
  | [] => Nat.zero_le _
  | a :: held => by
    rw [List.flatMap_cons, List.count_append, List.length_cons]
    have ha : (acquiredRefs a).count p ≤ 1 := count_entryRefs_le_one p
    have hheld := count_held_le p held
    omega

theorem refs_abs_eq_nil (hn : logNumEntries l = 0) : (abs l).refs = [] := by
  rw [LogSpec.refs, abs_entries, live_eq_nil hn]
  rfl

theorem offset_lt_of_locateEntry {index : ℕ} (h : locateEntry l index ≠ l.size) :
    l.offset < index := by
  rw [locateEntry_eq] at h
  split_ifs at h with hin
  · exact hin.1
  · exact absurd rfl h

/-- The references of a log split at `m`: those before stay, those after go. -/
theorem perm_take_drop (A H : List (ℕ × ℕ)) (m : ℕ) : A ++ H ~ (A.take m ++ H) ++ A.drop m := by
  conv_lhs => rw [← List.take_append_drop m A]
  rw [List.append_assoc, List.append_assoc]
  exact List.Perm.append_left _ List.perm_append_comm

/-- The references of a log split at `m`: those before go, those after stay. -/
theorem perm_drop_take (A H : List (ℕ × ℕ)) (m : ℕ) : A ++ H ~ (A.drop m ++ H) ++ A.take m := by
  conv_lhs => rw [← List.take_append_drop m A]
  rw [List.append_assoc, List.append_assoc]
  exact (List.perm_append_comm_assoc _ _ _).trans (List.Perm.append_left _ List.perm_append_comm)

/-- What every reachable log keeps: its shape, that of its table, and that the table counts
    exactly the references held, the log's own and those of the acquisitions held. -/
structure RefsInv (l : raft_log) (held : List (ℕ × List raft_entry)) : Prop where
  shape : Shape l
  table : TableWf l.refs
  refs : tableRefs l.refs ~ (abs l).refs ++ held.flatMap acquiredRefs

namespace RefsInv

theorem init : RefsInv logInit [] := ⟨shape_logInit, TableWf.replicate_nil 0, List.Perm.refl _⟩

/-- A call that changes the table alone keeps the shape of the log. -/
theorem of_refs {r : List (List raft_entry_ref)} (h : Shape l) (htab : TableWf r)
    (hperm : tableRefs r ~ (abs l).refs ++ held.flatMap acquiredRefs) :
    RefsInv { l with refs := r } held :=
  ⟨⟨h.wf, h.offset_le⟩, htab, hperm⟩

theorem append (hinv : RefsInv l held) {term type : ℕ} {buf : List UInt8}
    (happ : logAppend l term type buf = .ok l') : RefsInv l' held := by
  obtain ⟨hshape, habs⟩ := logAppend_spec hinv.shape happ
  obtain ⟨htab, hperm⟩ := logAppend_refs hinv.table happ
  refine ⟨hshape, htab, hperm.trans ?_⟩
  rw [habs, LogSpec.refs_append, abs_entries, length_live, abs_offset,
    show l.offset + 1 + logNumEntries l = logLastIndex l + 1 by unfold logLastIndex; omega,
    List.append_assoc]
  exact (hinv.refs.append_right _).trans
    (by rw [List.append_assoc]; exact List.Perm.append_left _ List.perm_append_comm)

theorem appendCommands (hinv : RefsInv l held) {term : ℕ} {bufs : List (List UInt8)}
    (happ : logAppendCommands l term bufs = .ok l') : RefsInv l' held := by
  unfold logAppendCommands at happ
  replace happ := (ite_throw_eq_ok (ite_throw_eq_ok happ).2).2
  -- one `logAppend` per buffer
  induction bufs generalizing l with
  | nil =>
    cases pure_eq_ok_iff.1 happ
    exact hinv
  | cons buf bufs ih =>
    rw [List.foldlM_cons] at happ
    obtain ⟨l₁, happ₁, happ⟩ := bind_eq_ok_iff.1 happ
    exact ih (hinv.append happ₁) happ

/-- `removeSuffix` keeps the invariant; with `destroy`, it reports freed the entries
    dropped that neither the entries kept nor an acquisition reference. -/
theorem suffix (hinv : RefsInv l held) {index : ℕ} {destroy : Bool}
    {destroyed : List (ℕ × ℕ)} (hrem : removeSuffix l index destroy = .ok (l', destroyed)) :
    RefsInv l' held ∧ destroyed = if destroy then
      ((abs l).refs.drop (index - 1 - l.offset)).reverse.filter
        (fun p => p ∉ (abs l).refs.take (index - 1 - l.offset) ++ held.flatMap acquiredRefs)
      else [] := by
  obtain ⟨-, -, hshape, habs⟩ := removeSuffix_spec hinv.shape hrem
  obtain ⟨htab, hperm, hd⟩ := removeSuffix_refs hinv.shape hinv.table
    (hinv.refs.trans (perm_take_drop _ _ _)) hrem
  refine ⟨⟨hshape, htab, ?_⟩, hd⟩
  rw [habs, LogSpec.refs_truncate]
  exact hperm

theorem truncate (hinv : RefsInv l held) {index : ℕ} {destroyed : List (ℕ × ℕ)}
    (htr : logTruncate l index = .ok (l', destroyed)) : RefsInv l' held := by
  unfold logTruncate at htr
  split_ifs at htr
  · cases (Prod.mk.inj (pure_eq_ok_iff.1 htr)).1
    exact hinv
  · exact (hinv.suffix htr).1

theorem discard (hinv : RefsInv l held) {index : ℕ} (hd : logDiscard l index = .ok l') :
    RefsInv l' held := by
  unfold logDiscard at hd
  obtain ⟨⟨l₁, d₁⟩, hrem, hres⟩ := bind_eq_ok_iff.1 hd
  cases pure_eq_ok_iff.1 hres
  exact (hinv.suffix hrem).1

theorem snapshot (hinv : RefsInv l held) {last_index trailing : ℕ} {destroyed : List (ℕ × ℕ)}
    (hsnap : logSnapshot l last_index trailing = .ok (l', destroyed)) : RefsInv l' held := by
  have hshape := (logSnapshot_spec hinv.shape hsnap).1
  unfold logSnapshot at hsnap
  obtain ⟨last_term, -, hsnap⟩ := bind_eq_ok_iff.1 hsnap
  obtain ⟨-, hsnap⟩ := ite_throw_eq_ok hsnap
  dsimp only at hsnap
  split_ifs at hsnap with hkeep
  · -- the snapshot alone changes
    cases (Prod.mk.inj (pure_eq_ok_iff.1 hsnap)).1
    exact ⟨hshape, hinv.table, hinv.refs⟩
  · have hidx := offset_lt_of_locateEntry (not_or.1 hkeep).2
    obtain ⟨-, -, habs⟩ := removePrefix_spec (l := { l with snapshot := ⟨last_index, last_term⟩ })
      hinv.shape.wf hidx hsnap
    obtain ⟨htab, hperm, -⟩ := removePrefix_refs
      (l := { l with snapshot := ⟨last_index, last_term⟩ }) hinv.shape.wf hinv.table hidx
      (hinv.refs.trans (perm_drop_take _ _ _)) hsnap
    refine ⟨hshape, htab, ?_⟩
    rw [habs, LogSpec.refs_compact (le_of_lt hidx)]
    exact hperm

/-- A call that keeps the table, and leaves empty a log that was empty, keeps the
    invariant. -/
theorem of_nil (hinv : RefsInv l held) (hshape : Shape l') (hrefs : l'.refs = l.refs)
    (hnil : (abs l).refs = []) (hnil' : (abs l').refs = []) : RefsInv l' held := by
  refine ⟨hshape, hrefs ▸ hinv.table, ?_⟩
  have hperm := hinv.refs
  rw [hnil] at hperm
  rwa [hrefs, hnil']

theorem restore (hinv : RefsInv l held) {last_index last_term : ℕ} {destroyed : List (ℕ × ℕ)}
    (hres : logRestore l last_index last_term = .ok (l', destroyed)) : RefsInv l' held := by
  obtain ⟨hshape, habs⟩ := logRestore_spec hinv.shape hres
  have hnil : (abs l').refs = [] := by
    rw [habs]
    rfl
  unfold logRestore at hres
  obtain ⟨-, hres⟩ := ite_throw_eq_ok hres
  obtain ⟨-, hres⟩ := ite_throw_eq_ok hres
  dsimp only at hres
  split_ifs at hres with hn
  · -- the entries from the first on go
    obtain ⟨⟨l₁, d₁⟩, htr, hres⟩ := bind_eq_ok_iff.1 hres
    cases (Prod.mk.inj (pure_eq_ok_iff.1 hres)).1
    refine (hinv.truncate htr).of_nil hshape rfl ?_ hnil
    rw [(logTruncate_spec hinv.shape htr).2, LogSpec.refs_truncate, abs_offset,
      show logLastIndex l - logNumEntries l + 1 - 1 - l.offset = 0 by unfold logLastIndex; omega,
      List.take_zero]
  · obtain ⟨⟨l₁, d₁⟩, htr, hres⟩ := bind_eq_ok_iff.1 hres
    cases (Prod.mk.inj (pure_eq_ok_iff.1 htr)).1
    cases (Prod.mk.inj (pure_eq_ok_iff.1 hres)).1
    exact hinv.of_nil hshape rfl (refs_abs_eq_nil (by omega)) hnil

theorem start (hinv : RefsInv l held) {snapshot_index snapshot_term start_index : ℕ}
    (hs : logStart l snapshot_index snapshot_term start_index = .ok l') : RefsInv l' held := by
  obtain ⟨hshape, -⟩ := logStart_spec hinv.shape hs
  unfold logStart at hs
  obtain ⟨hn, hs⟩ := ite_throw_eq_ok hs
  obtain ⟨-, hs⟩ := ite_throw_eq_ok hs
  obtain ⟨-, hs⟩ := ite_throw_eq_ok hs
  obtain ⟨-, hs⟩ := ite_throw_eq_ok hs
  cases pure_eq_ok_iff.1 hs
  -- the log is empty before and after
  exact hinv.of_nil hshape rfl (refs_abs_eq_nil (not_not.1 hn)) (refs_abs_eq_nil (l := { l with
    snapshot := ⟨snapshot_index, snapshot_term⟩, offset := start_index - 1 }) (not_not.1 hn))

/-- **Step lemma**: every call of log.h that succeeds keeps the invariant. -/
theorem step (hinv : RefsInv l held) {c : LogCall} (hstep : logStep l c = .ok l') :
    RefsInv l' held := by
  cases c with
  | append term type buf => exact hinv.append hstep
  | appendCommands term bufs => exact hinv.appendCommands hstep
  | truncate index =>
    obtain ⟨⟨l₁, d⟩, htr, rfl⟩ := map_eq_ok_iff.1 hstep
    exact hinv.truncate htr
  | discard index => exact hinv.discard hstep
  | snapshot last_index trailing =>
    obtain ⟨⟨l₁, d⟩, hsnap, rfl⟩ := map_eq_ok_iff.1 hstep
    exact hinv.snapshot hsnap
  | restore last_index last_term =>
    obtain ⟨⟨l₁, d⟩, hres, rfl⟩ := map_eq_ok_iff.1 hstep
    exact hinv.restore hres
  | start snapshot_index snapshot_term start_index => exact hinv.start hstep

/-- An acquisition, while fewer than `65534` are held, takes one reference to each entry it
    returns: no count reaches the bound of an `unsigned short`. -/
theorem acquire (hinv : RefsInv l held) (hlen : held.length < 65534) {index : ℕ}
    {entries : List raft_entry} (hacq : logAcquire l index = .ok (l', entries)) :
    RefsInv l' (held ++ [(index, entries)]) := by
  have hbound : ∀ p, ((abs l).refs ++ held.flatMap acquiredRefs).count p + 1 < 65536 := by
    intro p
    have hlog : (abs l).refs.count p ≤ 1 := count_entryRefs_le_one p
    have hheld := count_held_le p held
    rw [List.count_append]
    omega
  obtain ⟨hl', htab, hperm⟩ := logAcquire_refs hinv.shape.wf hinv.table hinv.refs
    (List.subset_append_left _ _) hbound hacq
  rw [hl']
  refine of_refs hinv.shape htab ?_
  rwa [List.flatMap_append, List.flatMap_singleton, ← List.append_assoc]

/-- A release of an acquisition held succeeds, keeps the invariant, and frees the entries
    acquired that neither the log nor another acquisition references. -/
theorem release (hinv : RefsInv l held) {a : ℕ × List raft_entry} (ha : a ∈ held) :
    ∃ l', logRelease l a.1 a.2 = .ok (l', (acquiredRefs a).filter
        (fun p => p ∉ (abs l).refs ++ (held.erase a).flatMap acquiredRefs)) ∧
      RefsInv l' (held.erase a) := by
  have hperm : tableRefs l.refs ~
      ((abs l).refs ++ (held.erase a).flatMap acquiredRefs) ++ acquiredRefs (a.1, a.2) := by
    refine hinv.refs.trans ?_
    rw [List.append_assoc]
    refine List.Perm.append_left _ ?_
    refine ((List.perm_cons_erase ha).flatMap_right acquiredRefs).trans ?_
    rw [List.flatMap_cons]
    exact List.perm_append_comm
  obtain ⟨r, hrel, htab, hperm'⟩ := logRelease_refs hinv.table hperm
  exact ⟨_, hrel, of_refs hinv.shape htab hperm'⟩

end RefsInv

/-- The logs, and the acquisitions held, that the callers of log.h reach from `logInit`:
    a call that changes the log, an acquisition while fewer than `65534` are held, or the
    release of one held. -/
inductive Reachable : raft_log → List (ℕ × List raft_entry) → Prop
  | init : Reachable logInit []
  | call {l l' : raft_log} {held : List (ℕ × List raft_entry)} {c : LogCall} :
      Reachable l held → logStep l c = .ok l' → Reachable l' held
  | acquire {l l' : raft_log} {held : List (ℕ × List raft_entry)} {index : ℕ}
      {entries : List raft_entry} :
      Reachable l held → held.length < 65534 → logAcquire l index = .ok (l', entries) →
      Reachable l' (held ++ [(index, entries)])
  | release {l l' : raft_log} {held : List (ℕ × List raft_entry)} {a : ℕ × List raft_entry}
      {unrefs : List (ℕ × ℕ)} :
      Reachable l held → a ∈ held → logRelease l a.1 a.2 = .ok (l', unrefs) →
      Reachable l' (held.erase a)

/-- **Run lemma**: every log reached, and the acquisitions held there, keep the invariant:
    the table is well formed and counts exactly the references of the log to its entries
    and those of the acquisitions held. -/
theorem Reachable.refsInv (hr : Reachable l held) : RefsInv l held := by
  induction hr with
  | init => exact RefsInv.init
  | call _ hstep ih => exact ih.step hstep
  | acquire _ hlen hacq ih => exact ih.acquire hlen hacq
  | release _ ha hrel ih =>
    obtain ⟨l', hrel', hinv'⟩ := ih.release ha
    rw [hrel] at hrel'
    cases (Prod.mk.inj (Except.ok.inj hrel')).1
    exact hinv'

/-- **The table counts the references held**, along every run of the callers of log.h: the
    slot of an entry counts one reference for the log, while the entry is in it, and one for
    each acquisition held that returned it; every entry so referenced has its slot. -/
theorem reachable_slot_counts (hr : Reachable l held) :
    (∀ s ∈ l.refs.flatten, s.count = ((abs l).refs ++ held.flatMap acquiredRefs).count s.key) ∧
      ∀ p ∈ (abs l).refs ++ held.flatMap acquiredRefs, ∃ s ∈ l.refs.flatten, s.key = p := by
  have hinv := hr.refsInv
  refine ⟨fun s hs => ?_, fun p hp => ?_⟩
  · rw [← count_tableRefs hinv.table hs]
    exact hinv.refs.count_eq s.key
  · obtain ⟨s, hs, hkey, -⟩ := mem_tableRefs.1 (hinv.refs.symm.subset hp)
    exact ⟨s, hs, hkey⟩

set_option maxRecDepth 8000 in
/-- An entry appended, then acquired: its slot counts two references. -/
theorem reachable_slot_counts_acquired :
    ∃ l₁ l₂ entries, logStep logInit (.append 1 RAFT_COMMAND []) = .ok l₁ ∧
      logAcquire l₁ 1 = .ok (l₂, entries) ∧ Reachable l₂ [(1, entries)] ∧
      (∀ s ∈ l₂.refs.flatten,
        s.count = ((abs l₂).refs ++ [(1, entries)].flatMap acquiredRefs).count s.key) ∧
      ∀ p ∈ (abs l₂).refs ++ [(1, entries)].flatMap acquiredRefs,
        ∃ s ∈ l₂.refs.flatten, s.key = p := by
  refine ⟨?_, ?_, ?_, ?h₁, ?h₂, .acquire (.call .init ?h₁) (by decide) ?h₂,
    reachable_slot_counts (.acquire (.call .init ?h₁) (by decide) ?h₂)⟩
  case h₁ => rfl
  case h₂ => rfl

end Held

end Abstraktor.Raft.Circular
