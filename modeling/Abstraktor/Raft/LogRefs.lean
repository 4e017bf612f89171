/-
  The reference count table of log.c (src/SUT/dqlite/dqlite-raft/src/log.c): the references
  that each of its operations counts, and the shape of the table that they keep.

  * `slotRefs`, `tableRefs`: the references that a slot and a table count, the entry
    `(term, index)` once for each;
  * `TableWf`: every slot is in the bucket of its index, the slots of a bucket are of one
    index, no two slots count one entry, and every count is positive and fits an
    `unsigned short`;
  * `refsIncr_spec`, `refsDecr_spec`: the slot of an entry that is referenced is found, and
    its count goes up or down by one, the slot going when none is left;
  * `refsTryInsert_spec`, `refsMove_spec`, `refsGrow_spec`, `refsInit_spec`: a new entry gets
    a slot of one reference, in a table grown at a collision, the slots moved as they are;
  * `refsIncr_turn`, `refsDecr_turn`: a turn of the loops of `logAcquire`, `logRelease`
    and the removals, which take or give back the references of a run of entries.
-/
import Mathlib
import Abstraktor.Lib.Counter
import Abstraktor.Lib.Buckets
import Abstraktor.Raft.Log
import Abstraktor.Raft.LogRefine

namespace Abstraktor.Raft.Circular

open Counter Buckets

open scoped List

/-- The entry that a slot counts the references to. -/
def raft_entry_ref.key (s : raft_entry_ref) : ℕ × ℕ := (s.term, s.index)

/-- The references that a slot counts: its entry, `count` times. -/
def slotRefs (s : raft_entry_ref) : List (ℕ × ℕ) := List.replicate s.count s.key

/-- The references that a table counts. -/
def tableRefs (table : List (List raft_entry_ref)) : List (ℕ × ℕ) :=
  table.flatten.flatMap slotRefs

/-- The shape of the table that its operations keep: every slot is in the bucket of its
    index, the slots of a bucket are of one index, no two slots count one entry, and every
    count is positive and fits an `unsigned short`. -/
structure TableWf (table : List (List raft_entry_ref)) : Prop where
  keyed : ∀ k, ∀ s ∈ table.getD k [], refsKey s.index table.length = k
  index : ∀ bucket ∈ table, ∀ s ∈ bucket, ∀ s' ∈ bucket, s.index = s'.index
  unique : (table.flatten.map raft_entry_ref.key).Nodup
  count : ∀ s ∈ table.flatten, 0 < s.count ∧ s.count < 65536

section Table

variable {T : List (List raft_entry_ref)}

theorem tableRefs_perm {T' : List (List raft_entry_ref)} {xs ys : List raft_entry_ref}
    (h : T'.flatten ++ xs ~ T.flatten ++ ys) :
    tableRefs T' ++ xs.flatMap slotRefs ~ tableRefs T ++ ys.flatMap slotRefs := by
  unfold tableRefs
  rw [← List.flatMap_append, ← List.flatMap_append]
  exact h.flatMap_right slotRefs

theorem mem_tableRefs {p : ℕ × ℕ} :
    p ∈ tableRefs T ↔ ∃ s ∈ T.flatten, s.key = p ∧ 0 < s.count := by
  unfold tableRefs slotRefs
  simp only [List.mem_flatMap, List.mem_replicate]
  constructor
  · rintro ⟨s, hs, hpos, rfl⟩
    exact ⟨s, hs, rfl, Nat.pos_of_ne_zero hpos⟩
  · rintro ⟨s, hs, rfl, hpos⟩
    exact ⟨s, hs, hpos.ne', rfl⟩

theorem getD_mem {k : ℕ} {s : raft_entry_ref} (hs : s ∈ T.getD k []) : T.getD k [] ∈ T := by
  rcases Nat.lt_or_ge k T.length with hk | hk
  · rw [List.getD_eq_getElem _ _ hk]
    exact List.getElem_mem hk
  · rw [List.getD_eq_default _ _ hk] at hs
    exact absurd hs List.not_mem_nil

/-- **A slot is in the bucket of its index.** -/
theorem mem_bucket (hwf : TableWf T) {s : raft_entry_ref} (hs : s ∈ T.flatten) :
    s ∈ T.getD (refsKey s.index T.length) [] := by
  obtain ⟨b, hb, hsb⟩ := List.mem_flatten.1 hs
  obtain ⟨k, hk, rfl⟩ := List.getElem_of_mem hb
  have hsk : s ∈ T.getD k [] := by rwa [List.getD_eq_getElem _ _ hk]
  rwa [hwf.keyed k s hsk]

theorem TableWf.eq_of_key_eq (hwf : TableWf T) {s s' : raft_entry_ref} (hs : s ∈ T.flatten)
    (hs' : s' ∈ T.flatten) (h : s.key = s'.key) : s = s' :=
  List.inj_on_of_nodup_map hwf.unique hs hs' h

theorem count_slotRefs_of_ne {s : raft_entry_ref} {p : ℕ × ℕ} (h : s.key ≠ p) :
    (slotRefs s).count p = 0 := by
  rw [slotRefs, List.count_replicate, if_neg (by rwa [beq_iff_eq])]

/-- The count of the slot of an entry is the number of references to it. -/
theorem count_tableRefs (hwf : TableWf T) {s : raft_entry_ref} (hs : s ∈ T.flatten) :
    (tableRefs T).count s.key = s.count := by
  obtain ⟨A, B, hAB⟩ := List.append_of_mem hs
  have hnd := hwf.unique
  rw [hAB, List.map_append, List.map_cons, List.nodup_middle, List.nodup_cons,
    ← List.map_append] at hnd
  -- every other slot counts another entry
  have hzero : ∀ C : List raft_entry_ref, (∀ s' ∈ C, s' ∈ A ++ B) →
      (C.flatMap slotRefs).count s.key = 0 := by
    intro C hC
    refine List.count_eq_zero.2 fun h => ?_
    obtain ⟨s', hs', hp⟩ := List.mem_flatMap.1 h
    have hne : s'.key ≠ s.key := fun heq => hnd.1 (heq ▸ List.mem_map_of_mem (hC s' hs'))
    exact absurd (count_slotRefs_of_ne hne) (List.count_pos_iff.2 hp).ne'
  unfold tableRefs
  rw [hAB, List.flatMap_append, List.flatMap_cons, List.count_append, List.count_append,
    hzero A fun _ h => List.mem_append_left _ h, hzero B fun _ h => List.mem_append_right _ h]
  simp [slotRefs]

theorem getD_set {k k' : ℕ} (hk : k < T.length) (b : List raft_entry_ref) :
    (T.set k b).getD k' [] = if k = k' then b else T.getD k' [] := by
  simp only [List.getD_eq_getElem?_getD, List.getElem?_set, if_pos hk]
  split_ifs <;> rfl

/-- A bucket written at the key of its slots, all of one index, keeps the shape of the
    table when no two slots of the table then count one entry. -/
theorem TableWf.set (hwf : TableWf T) {k : ℕ} (hk : k < T.length) {b : List raft_entry_ref}
    (hkeyed : ∀ s ∈ b, refsKey s.index T.length = k)
    (hindex : ∀ s ∈ b, ∀ s' ∈ b, s.index = s'.index)
    (hcount : ∀ s ∈ b, 0 < s.count ∧ s.count < 65536)
    (hunique : ((T.set k b).flatten.map raft_entry_ref.key).Nodup) : TableWf (T.set k b) where
  keyed k' s hs := by
    rw [List.length_set]
    rw [getD_set hk] at hs
    split_ifs at hs with hkk
    · exact hkk ▸ hkeyed s hs
    · exact hwf.keyed k' s hs
  index b' hb' := by
    rcases List.mem_or_eq_of_mem_set hb' with hb' | rfl
    · exact hwf.index b' hb'
    · exact hindex
  unique := hunique
  count s hs := by
    rcases mem_flatten_set hs with hs | hs
    · exact hwf.count s hs
    · exact hcount s hs

/-- The walk of `findSlot` along a bucket of one index finds the slot of a term in it. -/
theorem findSlot_spec {term index : ℕ} :
    ∀ {bucket : List raft_entry_ref}, (∀ s ∈ bucket, s.index = index) →
      ∀ {s : raft_entry_ref}, s ∈ bucket → s.term = term →
        ∃ j, ∃ hj : j < bucket.length, findSlot term index bucket = .ok j ∧ bucket[j].term = term
  | [], _, _, hs, _ => absurd hs List.not_mem_nil
  | slot :: rest, hidx, s, hs, hterm => by
    rw [findSlot, if_neg (not_not.2 (hidx slot List.mem_cons_self))]
    by_cases hslot : slot.term = term
    · rw [if_pos hslot]
      exact ⟨0, Nat.zero_lt_succ _, rfl, hslot⟩
    · rw [if_neg hslot]
      have hs' : s ∈ rest := (List.mem_cons.1 hs).resolve_left fun h => hslot (h ▸ hterm)
      obtain ⟨j, hj, hfind, hjterm⟩ :=
        findSlot_spec (fun s' hs' => hidx s' (List.mem_cons_of_mem _ hs')) hs' hterm
      exact ⟨j + 1, Nat.succ_lt_succ hj, by rw [hfind]; rfl, hjterm⟩

theorem keys_perm {T' : List (List raft_entry_ref)} {xs ys : List raft_entry_ref}
    (h : T'.flatten ++ xs ~ T.flatten ++ ys) :
    T'.flatten.map raft_entry_ref.key ++ xs.map raft_entry_ref.key ~
      T.flatten.map raft_entry_ref.key ++ ys.map raft_entry_ref.key := by
  rw [← List.map_append, ← List.map_append]
  exact h.map _

/-- **The slot of an entry that the table references** is in the bucket of its index,
    where `findSlot` walks to it. -/
theorem locate_slot (hwf : TableWf T) {term index : ℕ} (hin : (term, index) ∈ tableRefs T) :
    ∃ s ∈ T.flatten, s.key = (term, index) ∧ refsKey index T.length < T.length ∧
      ∃ j, ∃ hj : j < (T.getD (refsKey index T.length) []).length,
        findSlot term index (T.getD (refsKey index T.length) []) = .ok j ∧
        (T.getD (refsKey index T.length) [])[j] = s := by
  obtain ⟨s, hs, hkey, -⟩ := mem_tableRefs.1 hin
  have hterm : s.term = term := congrArg Prod.fst hkey
  have hindex : s.index = index := congrArg Prod.snd hkey
  have hsb := mem_bucket hwf hs
  rw [hindex] at hsb
  have hk : refsKey index T.length < T.length := by
    by_contra hge
    rw [List.getD_eq_default _ _ (Nat.le_of_not_lt hge)] at hsb
    exact List.not_mem_nil hsb
  -- the slots of the bucket are of the index of `s`
  have hidx : ∀ s' ∈ T.getD (refsKey index T.length) [], s'.index = index := fun s' hs' =>
    (hwf.index _ (getD_mem hsb) s' hs' s hsb).trans hindex
  obtain ⟨j, hj, hfind, hjterm⟩ := findSlot_spec hidx hsb hterm
  refine ⟨s, hs, hkey, hk, j, hj, hfind, hwf.eq_of_key_eq ?_ hs ?_⟩
  · exact List.mem_flatten.2 ⟨_, getD_mem hsb, List.getElem_mem hj⟩
  · rw [hkey, raft_entry_ref.key, hjterm, hidx _ (List.getElem_mem hj)]

/-- A slot changed in place, to count its entry another positive number of times, keeps
    the shape of the table. -/
theorem TableWf.modify (hwf : TableWf T) {k j : ℕ} (hk : k < T.length)
    (hj : j < (T.getD k []).length) {f : raft_entry_ref → raft_entry_ref}
    (hkey : (f (T.getD k [])[j]).key = (T.getD k [])[j].key)
    (hcount : 0 < (f (T.getD k [])[j]).count ∧ (f (T.getD k [])[j]).count < 65536) :
    TableWf (T.set k ((T.getD k []).modify j f)) ∧
      (T.set k ((T.getD k []).modify j f)).flatten ++ [(T.getD k [])[j]] ~
        T.flatten ++ [f (T.getD k [])[j]] := by
  have hperm := flatten_set_perm_of_perm hk (modify_perm hj f)
  have hx : (T.getD k [])[j] ∈ T.getD k [] := List.getElem_mem hj
  have hindex : (f (T.getD k [])[j]).index = (T.getD k [])[j].index := congrArg Prod.snd hkey
  -- a slot of the new bucket is one of the bucket, or the slot changed
  have hold : ∀ s₁ ∈ (T.getD k []).modify j f, ∃ y ∈ T.getD k [], s₁.index = y.index := by
    intro s₁ hs₁
    rcases mem_modify hj hs₁ with hs₁ | rfl
    · exact ⟨s₁, hs₁, rfl⟩
    · exact ⟨_, hx, hindex⟩
  refine ⟨TableWf.set hwf hk ?_ ?_ ?_ ?_, hperm⟩
  · intro s₁ hs₁
    obtain ⟨y, hy, h⟩ := hold s₁ hs₁
    rw [h]
    exact hwf.keyed k y hy
  · intro s₁ hs₁ s₂ hs₂
    obtain ⟨y₁, hy₁, h₁⟩ := hold s₁ hs₁
    obtain ⟨y₂, hy₂, h₂⟩ := hold s₂ hs₂
    rw [h₁, h₂]
    exact hwf.index _ (getD_mem hy₁) y₁ hy₁ y₂ hy₂
  · intro s₁ hs₁
    rcases mem_modify hj hs₁ with hs₁ | rfl
    · exact hwf.count s₁ (List.mem_flatten.2 ⟨_, getD_mem hs₁, hs₁⟩)
    · exact hcount
  · -- the slot counts the same entry as before
    have hkeys := keys_perm hperm
    rw [List.map_singleton, List.map_singleton, hkey] at hkeys
    exact ((List.perm_append_right_iff _).1 hkeys).nodup_iff.2 hwf.unique

/-- **`refsIncr` counts one reference more** to an entry that the table references, when
    its count does not wrap. -/
theorem refsIncr_spec {l : raft_log} {term index : ℕ} (hwf : TableWf l.refs)
    (hin : (term, index) ∈ tableRefs l.refs)
    (hbound : (tableRefs l.refs).count (term, index) + 1 < 65536) :
    ∃ r, refsIncr l term index = .ok { l with refs := r } ∧ TableWf r ∧
      tableRefs r ~ tableRefs l.refs ++ [(term, index)] := by
  obtain ⟨s, hs, hkey, hk, j, hj, hfind, hjs⟩ := locate_slot hwf hin
  have hcount : s.count + 1 < 65536 := by rwa [← hkey, count_tableRefs hwf hs] at hbound
  obtain ⟨hwf', hperm⟩ := hwf.modify hk hj
    (f := fun slot => { slot with count := (slot.count + 1) % 65536 }) rfl
    (by rw [hjs]; dsimp only; rw [Nat.mod_eq_of_lt hcount]; omega)
  refine ⟨_, ?_, hwf', ?_⟩
  · unfold refsIncr
    rw [bind_eq_ok_iff]
    exact ⟨j, hfind, rfl⟩
  · -- the slot counts its entry once more
    have hrefs := tableRefs_perm hperm
    have hslot : slotRefs { s with count := (s.count + 1) % 65536 } =
        slotRefs s ++ [(term, index)] := by
      rw [slotRefs, slotRefs, Nat.mod_eq_of_lt hcount, List.replicate_succ', ← hkey]
      rfl
    rw [List.flatMap_singleton, List.flatMap_singleton, hjs, hslot, ← List.append_assoc] at hrefs
    refine (List.perm_append_right_iff (slotRefs s)).1 (hrefs.trans ?_)
    rw [List.append_assoc, List.append_assoc]
    exact List.perm_append_comm.append_left _

/-- A slot removed from its bucket keeps the shape of the table. -/
theorem TableWf.eraseIdx (hwf : TableWf T) {k j : ℕ} (hk : k < T.length)
    (hj : j < (T.getD k []).length) :
    TableWf (T.set k ((T.getD k []).eraseIdx j)) ∧
      (T.set k ((T.getD k []).eraseIdx j)).flatten ++ [(T.getD k [])[j]] ~ T.flatten := by
  have hperm := flatten_set_perm_of_perm hk
    (show (T.getD k []).eraseIdx j ++ [(T.getD k [])[j]] ~ T.getD k [] ++ [] by
      rw [List.append_nil]
      exact eraseIdx_perm hj)
  rw [List.append_nil] at hperm
  have hsub : ∀ s₁ ∈ (T.getD k []).eraseIdx j, s₁ ∈ T.getD k [] := fun s₁ hs₁ =>
    (List.eraseIdx_sublist _ _).subset hs₁
  refine ⟨TableWf.set hwf hk (fun s₁ hs₁ => hwf.keyed k s₁ (hsub s₁ hs₁))
    (fun s₁ hs₁ s₂ hs₂ => hwf.index _ (getD_mem (hsub s₁ hs₁)) s₁ (hsub s₁ hs₁) s₂ (hsub s₂ hs₂))
    (fun s₁ hs₁ => hwf.count s₁ (List.mem_flatten.2 ⟨_, getD_mem (hsub s₁ hs₁), hsub s₁ hs₁⟩))
    ?_, hperm⟩
  -- fewer slots, still no two of one entry
  have hkeys := hperm.map raft_entry_ref.key
  rw [List.map_append] at hkeys
  exact (hkeys.nodup_iff.2 hwf.unique).of_append_left

/-- **`refsDecr` counts one reference less** to an entry that the table references; the
    entry has none left, and its slot goes, exactly when this was its last. -/
theorem refsDecr_spec {l : raft_log} {term index : ℕ} (hwf : TableWf l.refs)
    (hin : (term, index) ∈ tableRefs l.refs) :
    ∃ r unref, refsDecr l term index = .ok ({ l with refs := r }, unref) ∧ TableWf r ∧
      tableRefs r ++ [(term, index)] ~ tableRefs l.refs ∧
      (unref = true ↔ (tableRefs l.refs).count (term, index) = 1) := by
  obtain ⟨s, hs, hkey, hk, j, hj, hfind, hjs⟩ := locate_slot hwf hin
  have hcount := count_tableRefs hwf hs
  rw [hkey] at hcount
  obtain ⟨hpos, hlt⟩ := hwf.count s hs
  -- `slot->count - 1`, in an `unsigned short`
  have hdecr : (((l.refs.getD (refsKey index l.refs.length) []).getD j ⟨0, 0, 0⟩).count + 65535) %
      65536 = s.count - 1 := by
    rw [List.getD_eq_getElem _ _ hj, hjs]
    omega
  by_cases hlast : s.count = 1
  · -- the last reference: the slot goes
    obtain ⟨hwf', hperm⟩ := hwf.eraseIdx hk hj
    refine ⟨_, true, ?_, hwf', ?_, by rw [hcount]; exact iff_of_true rfl hlast⟩
    · unfold refsDecr
      rw [bind_eq_ok_iff]
      refine ⟨j, hfind, ?_⟩
      dsimp only [raft_log.refs_size]
      rw [hdecr, hlast, if_neg (lt_irrefl 0)]
      rfl
    · have hrefs := tableRefs_perm (T := l.refs)
        (show _ ++ [(l.refs.getD (refsKey index l.refs.length) [])[j]] ~ l.refs.flatten ++ [] by
          rw [List.append_nil]
          exact hperm)
      rw [List.flatMap_singleton, List.flatMap_nil, List.append_nil, hjs, slotRefs, hlast,
        List.replicate_one, hkey] at hrefs
      exact hrefs
  · -- the slot counts its entry once less
    set c := (((l.refs.getD (refsKey index l.refs.length) []).getD j ⟨0, 0, 0⟩).count + 65535) %
      65536 with hc
    obtain ⟨hwf', hperm⟩ := hwf.modify hk hj (f := fun slot => { slot with count := c })
      (by simp only [raft_entry_ref.key]) (by dsimp only; rw [hdecr]; omega)
    refine ⟨_, false, ?_, hwf', ?_, by rw [hcount]; exact iff_of_false Bool.false_ne_true hlast⟩
    · unfold refsDecr
      rw [bind_eq_ok_iff]
      refine ⟨j, hfind, ?_⟩
      dsimp only [raft_log.refs_size]
      rw [if_pos (by rw [← hc, hdecr]; omega)]
      rfl
    · have hrefs := tableRefs_perm hperm
      have hslot : slotRefs s = slotRefs { s with count := c } ++ [(term, index)] := by
        have hkey' : (s.term, s.index) = (term, index) := hkey
        rw [slotRefs, slotRefs]
        dsimp only [raft_entry_ref.key]
        rw [hdecr, ← hkey', ← List.replicate_succ', Nat.sub_add_cancel hpos]
      rw [List.flatMap_singleton, List.flatMap_singleton, hjs, hslot, ← List.append_assoc] at hrefs
      refine (List.perm_append_right_iff (slotRefs { s with count := c })).1
        (List.Perm.trans ?_ hrefs)
      rw [List.append_assoc, List.append_assoc]
      exact List.perm_append_comm.append_left _

/-- The slot of a new entry appended to the bucket of its index, whose slots are all of
    that index, keeps the shape of the table. -/
theorem TableWf.append (hwf : TableWf T) {k : ℕ} (hk : k < T.length) {x : raft_entry_ref}
    (hkey : refsKey x.index T.length = k) (hidx : ∀ s ∈ T.getD k [], s.index = x.index)
    (hnew : ∀ s ∈ T.flatten, s.key ≠ x.key) (hcount : 0 < x.count ∧ x.count < 65536) :
    TableWf (T.set k (T.getD k [] ++ [x])) ∧ (T.set k (T.getD k [] ++ [x])).flatten ~ T.flatten ++ [x] := by
  have hperm := flatten_set_perm_of_perm hk
    (show T.getD k [] ++ [x] ++ [] ~ T.getD k [] ++ [x] by rw [List.append_nil])
  rw [List.append_nil] at hperm
  have hmem : ∀ s ∈ T.getD k [] ++ [x], s ∈ T.getD k [] ∨ s = x := fun s hs => by
    simpa using hs
  refine ⟨TableWf.set hwf hk ?_ ?_ ?_ ?_, hperm⟩
  · intro s hs
    rcases hmem s hs with hs | rfl
    · exact hwf.keyed k s hs
    · exact hkey
  · intro s hs s' hs'
    have hx : ∀ s ∈ T.getD k [] ++ [x], s.index = x.index := fun s hs => by
      rcases hmem s hs with hs | rfl
      · exact hidx s hs
      · rfl
    rw [hx s hs, hx s' hs']
  · intro s hs
    rcases hmem s hs with hs | rfl
    · exact hwf.count s (List.mem_flatten.2 ⟨_, getD_mem hs, hs⟩)
    · exact hcount
  · -- the new slot counts an entry that no slot counted
    have hkeys := (hperm.map raft_entry_ref.key).nodup_iff
    rw [List.map_append, List.map_singleton] at hkeys
    refine hkeys.2 (List.nodup_append.2 ⟨hwf.unique, List.nodup_singleton _, ?_⟩)
    intro a ha b hb
    rw [List.mem_singleton] at hb
    obtain ⟨s, hs, rfl⟩ := List.mem_map.1 ha
    rw [hb]
    exact hnew s hs

/-- A table of unused buckets, as `raft_calloc` gives it. -/
theorem TableWf.replicate_nil (n : ℕ) : TableWf (List.replicate n []) where
  keyed k s hs := by
    simp only [List.getD_eq_getElem?_getD, List.getElem?_replicate] at hs
    split_ifs at hs <;> simp at hs
  index b hb s hs := by
    rw [List.eq_of_mem_replicate hb] at hs
    exact absurd hs List.not_mem_nil
  unique := by simp
  count s hs := by simp at hs

/-- **`refsTryInsert` without a collision** adds a slot of the entry to the table, which
    keeps its shape: no slot counted the entry, since its bucket is unused or of its index
    with no slot of its term. -/
theorem refsTryInsert_spec (hwf : TableWf T) (hs : 0 < T.length) {term index count : ℕ}
    (hcount : 0 < count ∧ count < 65536) {T' : List (List raft_entry_ref)}
    (h : refsTryInsert T T.length term index count = .ok (T', false)) :
    T'.length = T.length ∧ TableWf T' ∧ T'.flatten ~ T.flatten ++ [⟨term, index, count⟩] := by
  have hk : refsKey index T.length < T.length := Nat.mod_lt _ hs
  -- a slot of the entry would be in the bucket of its index
  have hbucket : ∀ s ∈ T.flatten, s.key = (term, index) →
      s ∈ T.getD (refsKey index T.length) [] := by
    intro s hs' hkey
    have hsb := mem_bucket hwf hs'
    rwa [show s.index = index from congrArg Prod.snd hkey] at hsb
  unfold refsTryInsert at h
  dsimp only at h
  split at h
  · next hnil =>
    -- an unused bucket: the slot is its first
    obtain ⟨rfl, -⟩ := Prod.mk.inj (pure_eq_ok_iff.1 h)
    have happ := hwf.append (x := ⟨term, index, count⟩) hk rfl
      (by rw [hnil]; exact fun s hs => absurd hs List.not_mem_nil)
      (fun s hs' hkey => by
        have hsb := hbucket s hs' hkey
        rw [hnil] at hsb
        exact List.not_mem_nil hsb) hcount
    rw [hnil, List.nil_append] at happ
    exact ⟨List.length_set .., happ⟩
  · next bucket first rest hb =>
    split_ifs at h with hfirst
    · cases (Prod.mk.inj (pure_eq_ok_iff.1 h)).2
    obtain ⟨u, hfor, hres⟩ := bind_eq_ok_iff.1 h
    rw [forM_eq_ok_iff] at hfor
    obtain ⟨rfl, -⟩ := Prod.mk.inj (pure_eq_ok_iff.1 hres)
    -- the walk asserts every slot of the bucket of the index, and of another term
    have hslot : ∀ s ∈ first :: rest, s.index = index ∧ s.term ≠ term := by
      intro s hs'
      obtain ⟨hidx, hterm⟩ := ite_throw_eq_ok (hfor s hs')
      refine ⟨not_not.1 hidx, fun heq => ?_⟩
      rw [if_pos heq] at hterm
      cases hterm
    have hnew : ∀ s ∈ T.flatten, s.key ≠ (term, index) := by
      intro s hs' hkey
      have hsb := hbucket s hs' hkey
      rw [hb] at hsb
      exact (hslot s hsb).2 (congrArg Prod.fst hkey)
    have happ := hwf.append (x := ⟨term, index, count⟩) hk rfl
      (by rw [hb]; exact fun s hs => (hslot s hs).1) hnew hcount
    rw [hb] at happ
    exact ⟨List.length_set .., happ⟩

/-- **`refsMove` adds the slots of a bucket** to a table of `size` buckets, when none of
    them collides. -/
theorem refsMove_spec {bucket : List raft_entry_ref} {size : ℕ}
    (hcount : ∀ s ∈ bucket, 0 < s.count ∧ s.count < 65536) {T₀ T' : List (List raft_entry_ref)}
    (hwf : TableWf T₀) (hsize : T₀.length = size) (hs : 0 < size)
    (h : refsMove bucket T₀ size = .ok T') :
    T'.length = size ∧ TableWf T' ∧ T'.flatten ~ T₀.flatten ++ bucket := by
  -- the table holds the slots moved so far; those still to move are the rest of the bucket
  have hinv := foldlM_inv_rest (fun rest T => T.length = size ∧ TableWf T ∧
      T.flatten ++ rest ~ T₀.flatten ++ bucket ∧ ∀ s ∈ rest, 0 < s.count ∧ s.count < 65536)
    (by
      rintro a rest T T₁ ⟨hlen, hwf₁, hperm, hcounts⟩ hstep
      obtain ⟨⟨T₂, collision⟩, hins, hstep⟩ := bind_eq_ok_iff.1 hstep
      dsimp only at hstep
      cases collision
      · cases pure_eq_ok_iff.1 hstep
        rw [← hlen] at hins
        obtain ⟨hlen₂, hwf₂, hperm₂⟩ :=
          refsTryInsert_spec hwf₁ (hlen ▸ hs) (hcounts a List.mem_cons_self) hins
        refine ⟨hlen₂.trans hlen, hwf₂, ?_, fun s hs' => hcounts s (List.mem_cons_of_mem a hs')⟩
        refine List.Perm.trans ?_ hperm
        rw [← List.singleton_append, ← List.append_assoc]
        exact hperm₂.append_right rest
      · cases hstep)
    ⟨hsize, hwf, List.Perm.refl _, hcount⟩ h
  obtain ⟨hlen, hwf', hperm, -⟩ := hinv
  rw [List.append_nil] at hperm
  exact ⟨hlen, hwf', hperm⟩

end Table

/-! ## The table of a log -/

section Log

variable {l l' : raft_log} {term index : ℕ}

/-- **`refsGrow` doubles the table**, each slot moved to its bucket in the new one. -/
theorem refsGrow_spec (hwf : TableWf l.refs) (hs : 0 < l.refs.length)
    (h : refsGrow l = .ok l') :
    l'.refs.length = 2 * l.refs.length ∧ TableWf l'.refs ∧ l'.refs.flatten ~ l.refs.flatten := by
  unfold refsGrow at h
  obtain ⟨table, hloop, h⟩ := bind_eq_ok_iff.1 h
  cases pure_eq_ok_iff.1 h
  have hsize : 0 < l.refs_size * 2 := by
    unfold raft_log.refs_size
    omega
  -- the new table holds the slots of the buckets moved so far
  have hinv := foldlM_inv_rest (fun rest (T : List (List raft_entry_ref)) =>
      T.length = l.refs_size * 2 ∧ TableWf T ∧ T.flatten ++ rest.flatten ~ l.refs.flatten ∧
        ∀ b ∈ rest, ∀ s ∈ b, 0 < s.count ∧ s.count < 65536)
    (by
      rintro b rest T T₁ ⟨hlen, hwf₁, hperm, hcounts⟩ hstep
      have hcounts' : ∀ b' ∈ rest, ∀ s ∈ b', 0 < s.count ∧ s.count < 65536 :=
        fun b' hb' => hcounts b' (List.mem_cons_of_mem b hb')
      split_ifs at hstep with hb
      · -- an unused bucket is skipped
        cases pure_eq_ok_iff.1 hstep
        refine ⟨hlen, hwf₁, ?_, hcounts'⟩
        rwa [List.flatten_cons, hb, List.nil_append] at hperm
      · obtain ⟨hlen₂, hwf₂, hperm₂⟩ :=
          refsMove_spec (hcounts b List.mem_cons_self) hwf₁ hlen hsize hstep
        refine ⟨hlen₂, hwf₂, List.Perm.trans ?_ hperm, hcounts'⟩
        rw [List.flatten_cons, ← List.append_assoc]
        exact hperm₂.append_right _)
    ⟨List.length_replicate, TableWf.replicate_nil _, by simp,
      fun b hb s hs => hwf.count s (List.mem_flatten.2 ⟨b, hb, hs⟩)⟩ hloop
  obtain ⟨hlen, hwf', hperm, -⟩ := hinv
  rw [List.flatten_nil, List.append_nil] at hperm
  refine ⟨?_, hwf', hperm⟩
  rw [hlen, raft_log.refs_size, Nat.mul_comm]

/-- The tries of `refsInit` that succeed add one slot of the entry, counting one
    reference. -/
theorem refsInitTry_spec :
    ∀ {tries : ℕ} {l l' : raft_log}, TableWf l.refs → 0 < l.refs.length →
      refsInitTry term index tries l = .ok l' →
        TableWf l'.refs ∧ l'.refs.flatten ~ l.refs.flatten ++ [⟨term, index, 1⟩]
  | 0, _, _, _, _, h => by cases h
  | tries + 1, l, l', hwf, hs, h => by
    rw [refsInitTry] at h
    obtain ⟨⟨table, collision⟩, hins, h⟩ := bind_eq_ok_iff.1 h
    cases collision
    · -- no collision: the slot is in
      cases pure_eq_ok_iff.1 h
      obtain ⟨-, hwf', hperm⟩ := refsTryInsert_spec hwf hs ⟨Nat.one_pos, by decide⟩ hins
      exact ⟨hwf', hperm⟩
    · -- a collision: the table is doubled, and the insertion tried again
      obtain ⟨l₁, hgrow, h⟩ := bind_eq_ok_iff.1 h
      obtain ⟨hlen₁, hwf₁, hperm₁⟩ := refsGrow_spec hwf hs hgrow
      obtain ⟨hwf', hperm'⟩ := refsInitTry_spec hwf₁ (by rw [hlen₁]; omega) h
      exact ⟨hwf', hperm'.trans (hperm₁.append_right _)⟩

/-- **`refsInit` counts one reference** to the new entry, in a table that keeps its
    shape. -/
theorem refsInit_spec (hwf : TableWf l.refs) (h : refsInit l term index = .ok l') :
    TableWf l'.refs ∧ tableRefs l'.refs ~ tableRefs l.refs ++ [(term, index)] := by
  dsimp only [refsInit] at h
  -- the table the tries start from: a new one for a log without, else its own
  obtain ⟨l₁, hl₁, hwf₁, hs₁, hflat⟩ : ∃ l₁, refsInitTry term index 10 l₁ = .ok l' ∧
      TableWf l₁.refs ∧ 0 < l₁.refs.length ∧ l₁.refs.flatten = l.refs.flatten := by
    split_ifs at h with hnil
    · refine ⟨_, h, TableWf.replicate_nil _, ?_, by simp [hnil]⟩
      show 0 < (List.replicate LOG__REFS_INITIAL_SIZE ([] : List raft_entry_ref)).length
      rw [List.length_replicate]
      decide
    · exact ⟨_, h, hwf, List.length_pos_iff.2 hnil, rfl⟩
  obtain ⟨hwf', hperm⟩ := refsInitTry_spec hwf₁ hs₁ hl₁
  rw [hflat, ← List.append_nil l'.refs.flatten] at hperm
  have hrefs := tableRefs_perm hperm
  rw [List.flatMap_nil, List.append_nil, List.flatMap_singleton] at hrefs
  exact ⟨hwf', hrefs⟩

/-- A turn of a loop that takes references: the table counts `base`, which references the
    entry fewer than `65535` times. -/
theorem refsIncr_turn {base : List (ℕ × ℕ)} (hwf : TableWf l.refs)
    (hperm : tableRefs l.refs ~ base) (hin : (term, index) ∈ base)
    (hbound : base.count (term, index) + 1 < 65536) :
    ∃ r, refsIncr l term index = .ok { l with refs := r } ∧ TableWf r ∧
      tableRefs r ~ base ++ [(term, index)] := by
  obtain ⟨r, hincr, hwf', hperm'⟩ :=
    refsIncr_spec hwf (hperm.symm.subset hin) (by rwa [hperm.count_eq])
  exact ⟨r, hincr, hwf', hperm'.trans (hperm.append_right _)⟩

/-- A turn of a loop that gives back references: the table counts `base` and the keys
    still to go, the first of which the turn gives back; it has none left exactly when
    `base` does not count it. -/
theorem refsDecr_turn {base ks : List (ℕ × ℕ)} (hwf : TableWf l.refs)
    (hperm : tableRefs l.refs ~ base ++ (term, index) :: ks) (hks : (term, index) ∉ ks) :
    ∃ r unref, refsDecr l term index = .ok ({ l with refs := r }, unref) ∧ TableWf r ∧
      tableRefs r ~ base ++ ks ∧ (unref = true ↔ (term, index) ∉ base) := by
  obtain ⟨r, unref, hdecr, hwf', hperm', hunref⟩ :=
    refsDecr_spec hwf (hperm.symm.subset (List.mem_append_right _ List.mem_cons_self))
  refine ⟨r, unref, hdecr, hwf', ?_, ?_⟩
  · refine (List.perm_append_right_iff [(term, index)]).1 (hperm'.trans (hperm.trans ?_))
    exact List.perm_middle.trans (List.perm_append_singleton _ _).symm
  · rw [hunref, hperm.count_eq, List.count_append, List.count_cons_self,
      List.count_eq_zero_of_not_mem hks, ← List.count_eq_zero]
    omega

end Log

end Abstraktor.Raft.Circular
