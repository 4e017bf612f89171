/-
  Finite maps with ordered keys, as key-sorted association lists.

  A `SortedMap κ ν` carries the proof that its entries are strictly sorted by
  key, so the representation of a map is unique: two maps with the same lookups
  are equal (`SortedMap.ext`), and iterating over a map visits its keys in
  increasing order (`toList`).  This is the behaviour of an ordered map such as
  a B-tree map: `insert` replaces the value of a present key, `modify` is the
  entry API (`or_insert_with` followed by an update), `erase` removes a key.

  The range of a sorted list after `a` up to a member ends with that member
  (`getLast?_filter_Ioc`).
-/
import Mathlib

variable {κ κ' κ'' ν μ : Type} [LinearOrder κ] [LinearOrder κ'] [LinearOrder κ'']

namespace SortedMap

/-- The lookup of key `k` in an association list. -/
def lookup (k : κ) : List (κ × ν) → Option ν
  | [] => none
  | (k', v) :: t => if k = k' then some v else lookup k t

/-- Insertion into a key-sorted association list, replacing the entry of `k`. -/
def insertEntry (k : κ) (v : ν) : List (κ × ν) → List (κ × ν)
  | [] => [(k, v)]
  | (k', v') :: t =>
    if k < k' then (k, v) :: (k', v') :: t
    else if k = k' then (k, v) :: t
    else (k', v') :: insertEntry k v t

@[simp] theorem lookup_nil (k : κ) : lookup k ([] : List (κ × ν)) = none := rfl

theorem lookup_cons (k k' : κ) (v : ν) (t : List (κ × ν)) :
    lookup k ((k', v) :: t) = if k = k' then some v else lookup k t := rfl

theorem mem_insertEntry {k : κ} {v : ν} {a : κ × ν} :
    ∀ {l : List (κ × ν)}, a ∈ insertEntry k v l → a = (k, v) ∨ a ∈ l
  | [], h => by simpa [insertEntry] using h
  | (k', v') :: t, h => by
    simp only [insertEntry] at h
    split_ifs at h with h1 h2
    · simpa using h
    · rcases List.mem_cons.1 h with h | h
      · exact Or.inl h
      · exact Or.inr (List.mem_cons_of_mem _ h)
    · rcases List.mem_cons.1 h with h | h
      · exact Or.inr (h ▸ List.mem_cons_self)
      · rcases mem_insertEntry h with h | h
        · exact Or.inl h
        · exact Or.inr (List.mem_cons_of_mem _ h)

theorem insertEntry_sorted {k : κ} {v : ν} :
    ∀ {l : List (κ × ν)}, l.Pairwise (·.1 < ·.1) → (insertEntry k v l).Pairwise (·.1 < ·.1)
  | [], _ => by simp [insertEntry]
  | (k', v') :: t, h => by
    rw [List.pairwise_cons] at h
    simp only [insertEntry]
    split_ifs with h1 h2
    · refine List.Pairwise.cons (fun a ha => ?_) (List.Pairwise.cons h.1 h.2)
      rcases List.mem_cons.1 ha with rfl | ha
      · exact h1
      · exact h1.trans (h.1 a ha)
    · subst h2; exact List.Pairwise.cons h.1 h.2
    · refine List.Pairwise.cons (fun a ha => ?_) (insertEntry_sorted h.2)
      rcases mem_insertEntry ha with rfl | ha
      · exact lt_of_le_of_ne (not_lt.1 h1) (Ne.symm h2)
      · exact h.1 a ha

theorem lookup_insertEntry (k k' : κ) (v : ν) :
    ∀ l : List (κ × ν), lookup k' (insertEntry k v l) = if k' = k then some v else lookup k' l
  | [] => by simp [insertEntry, lookup_cons]
  | (k'', v'') :: t => by
    have ih := lookup_insertEntry k k' v t
    simp only [insertEntry]
    split_ifs with h1 h2 h3 h3 <;> simp only [lookup_cons] <;> split_ifs <;> simp_all

theorem lookup_eq_some_iff {k : κ} {v : ν} :
    ∀ {l : List (κ × ν)}, l.Pairwise (·.1 < ·.1) → (lookup k l = some v ↔ (k, v) ∈ l)
  | [], _ => by simp
  | (k', v') :: t, h => by
    rw [List.pairwise_cons] at h
    rw [lookup_cons, List.mem_cons]
    by_cases hk : k = k'
    · subst hk
      simp only [if_true, Option.some.injEq, Prod.mk.injEq, true_and]
      constructor
      · rintro rfl; exact Or.inl rfl
      · rintro (rfl | hm)
        · rfl
        · exact absurd (h.1 _ hm) (lt_irrefl _)
    · simp only [hk, if_false, Prod.mk.injEq, false_and, false_or]
      exact lookup_eq_some_iff h.2

theorem lookup_map_injective {f : κ → κ'} (hf : Function.Injective f) (k : κ) :
    ∀ l : List (κ × ν), lookup (f k) (l.map fun e => (f e.1, e.2)) = lookup k l
  | [] => rfl
  | (k', v) :: t => by
    simp only [List.map_cons, lookup_cons, hf.eq_iff, lookup_map_injective hf k t]

theorem lookup_eq_none_of_forall_ne {k : κ} :
    ∀ {l : List (κ × ν)}, (∀ e ∈ l, e.1 ≠ k) → lookup k l = none
  | [], _ => rfl
  | (k', v) :: t, h => by
    rw [lookup_cons, if_neg (h (k', v) List.mem_cons_self).symm,
      lookup_eq_none_of_forall_ne fun e he => h e (List.mem_cons_of_mem _ he)]

end SortedMap

/-- A finite map whose entries are strictly sorted by key. -/
structure SortedMap (κ ν : Type) [LinearOrder κ] where
  entries : List (κ × ν)
  sorted : entries.Pairwise (·.1 < ·.1)

namespace SortedMap

instance [DecidableEq κ] [DecidableEq ν] : DecidableEq (SortedMap κ ν) := fun m m' =>
  decidable_of_iff (m.entries = m'.entries) (by cases m; cases m'; simp)

/-- The empty map. -/
def empty : SortedMap κ ν := ⟨[], List.Pairwise.nil⟩

/-- The value at a key. -/
def get? (m : SortedMap κ ν) (k : κ) : Option ν := lookup k m.entries

/-- Set the value of a key. -/
def insert (m : SortedMap κ ν) (k : κ) (v : ν) : SortedMap κ ν :=
  ⟨insertEntry k v m.entries, insertEntry_sorted m.sorted⟩

/-- Set the value of a key from its present value, if any. -/
def modify (m : SortedMap κ ν) (k : κ) (f : Option ν → ν) : SortedMap κ ν :=
  m.insert k (f (m.get? k))

/-- Remove a key. -/
def erase (m : SortedMap κ ν) (k : κ) : SortedMap κ ν :=
  ⟨m.entries.filter (·.1 ≠ k), m.sorted.filter _⟩

/-- Keep the keys that pass `p`. -/
def filterKeys (m : SortedMap κ ν) (p : κ → Bool) : SortedMap κ ν :=
  ⟨m.entries.filter (p ·.1), m.sorted.filter _⟩

/-- The entries in increasing key order. -/
def toList (m : SortedMap κ ν) : List (κ × ν) := m.entries

/-- The keys in increasing order. -/
def keys (m : SortedMap κ ν) : List κ := m.entries.map (·.1)

/-- Apply a function to every value. -/
def mapVal (m : SortedMap κ ν) (f : κ → ν → μ) : SortedMap κ μ :=
  ⟨m.entries.map fun e => (e.1, f e.1 e.2), by
    rw [List.pairwise_map]; exact m.sorted⟩

/-- The map of a list of entries, a later entry of a key replacing an earlier one. -/
def ofList (l : List (κ × ν)) : SortedMap κ ν := l.foldl (fun m e => m.insert e.1 e.2) empty

/-- Rename the keys with `f`. -/
def mapKeys (m : SortedMap κ ν) (f : κ → κ') : SortedMap κ' ν :=
  ofList (m.entries.map fun e => (f e.1, e.2))

@[simp] theorem get?_empty (k : κ) : (empty : SortedMap κ ν).get? k = none := rfl

@[simp] theorem get?_insert (m : SortedMap κ ν) (k k' : κ) (v : ν) :
    (m.insert k v).get? k' = if k' = k then some v else m.get? k' :=
  lookup_insertEntry k k' v m.entries

theorem get?_insert_self (m : SortedMap κ ν) (k : κ) (v : ν) : (m.insert k v).get? k = some v := by
  simp

theorem get?_insert_ne (m : SortedMap κ ν) {k k' : κ} (v : ν) (h : k' ≠ k) :
    (m.insert k v).get? k' = m.get? k' := by
  simp [h]

@[simp] theorem get?_modify (m : SortedMap κ ν) (k k' : κ) (f : Option ν → ν) :
    (m.modify k f).get? k' = if k' = k then some (f (m.get? k)) else m.get? k' := by
  simp [modify]

theorem mem_toList {m : SortedMap κ ν} {k : κ} {v : ν} : (k, v) ∈ m.toList ↔ m.get? k = some v :=
  (lookup_eq_some_iff m.sorted).symm

theorem get?_eq_some_iff {m : SortedMap κ ν} {k : κ} {v : ν} :
    m.get? k = some v ↔ (k, v) ∈ m.entries :=
  lookup_eq_some_iff m.sorted

@[simp] theorem get?_erase (m : SortedMap κ ν) (k k' : κ) :
    (m.erase k).get? k' = if k' = k then none else m.get? k' := by
  split_ifs with h
  · subst h
    cases hg : (m.erase k').get? k' with
    | none => rfl
    | some v =>
      have := (get?_eq_some_iff.1 hg)
      simp [erase] at this
  · cases hg : m.get? k' with
    | none =>
      cases hg' : (m.erase k).get? k' with
      | none => rfl
      | some v =>
        have := get?_eq_some_iff.1 hg'
        simp only [erase, List.mem_filter] at this
        rw [get?_eq_some_iff.2 this.1] at hg; cases hg
    | some v =>
      refine get?_eq_some_iff.2 ?_
      simpa [erase, h] using get?_eq_some_iff.1 hg

@[simp] theorem get?_filterKeys (m : SortedMap κ ν) (p : κ → Bool) (k : κ) :
    (m.filterKeys p).get? k = if p k then m.get? k else none := by
  apply Option.ext
  intro v
  rw [get?_eq_some_iff]
  simp only [filterKeys, List.mem_filter]
  split_ifs with h
  · rw [get?_eq_some_iff]
    simp [h]
  · simp [h]

theorem mem_keys {m : SortedMap κ ν} {k : κ} : k ∈ m.keys ↔ (m.get? k).isSome := by
  simp only [keys, List.mem_map, Option.isSome_iff_exists]
  constructor
  · rintro ⟨⟨k', v⟩, hm, rfl⟩; exact ⟨v, get?_eq_some_iff.2 hm⟩
  · rintro ⟨v, hv⟩; exact ⟨(k, v), get?_eq_some_iff.1 hv, rfl⟩

/-- Erasing the keys of a list, one after the other. -/
theorem get?_foldl_erase {α : Type} (f : α → κ) (k : κ) :
    ∀ (rs : List α) (m : SortedMap κ ν),
      (rs.foldl (fun m r => m.erase (f r)) m).get? k = if k ∈ rs.map f then none else m.get? k
  | [], m => by simp
  | r :: rs, m => by
    rw [List.foldl_cons, get?_foldl_erase f k rs, get?_erase]
    by_cases hr : k = f r
    · simp [hr]
    · by_cases hrs : k ∈ rs.map f <;> simp [hr, hrs]

@[simp] theorem get?_mapVal (m : SortedMap κ ν) (f : κ → ν → μ) (k : κ) :
    (m.mapVal f).get? k = (m.get? k).map (f k) := by
  cases hg : m.get? k with
  | none =>
    cases hg' : (m.mapVal f).get? k with
    | none => rfl
    | some w =>
      obtain ⟨⟨k', v⟩, hm, he⟩ := List.mem_map.1 (get?_eq_some_iff.1 hg')
      simp only [Prod.mk.injEq] at he
      obtain ⟨rfl, -⟩ := he
      rw [get?_eq_some_iff.2 hm] at hg; cases hg
  | some v =>
    exact get?_eq_some_iff.2 (List.mem_map.2 ⟨(k, v), get?_eq_some_iff.1 hg, rfl⟩)

/-- Inserting entries with distinct keys: the lookup of the list, or of the map
    when the list does not have the key. -/
theorem get?_foldl_insert (k : κ) :
    ∀ {l : List (κ × ν)} (m : SortedMap κ ν), l.Pairwise (·.1 ≠ ·.1) →
      (l.foldl (fun m e => m.insert e.1 e.2) m).get? k = (lookup k l).or (m.get? k)
  | [], _, _ => by simp
  | (k', v) :: t, m, h => by
    rw [List.pairwise_cons] at h
    rw [List.foldl_cons, get?_foldl_insert k _ h.2, lookup_cons, get?_insert]
    by_cases hk : k = k'
    · subst hk
      rw [lookup_eq_none_of_forall_ne fun e he => (h.1 e he).symm]
      simp
    · simp [hk]

theorem keys_ne_of_sorted {l : List (κ × ν)} (h : l.Pairwise (·.1 < ·.1)) :
    l.Pairwise (·.1 ≠ ·.1) :=
  h.imp ne_of_lt

theorem get?_mapKeys {f : κ → κ'} (hf : Function.Injective f) (m : SortedMap κ ν) (k : κ) :
    (m.mapKeys f).get? (f k) = m.get? k := by
  have hd : (m.entries.map fun e => (f e.1, e.2)).Pairwise (·.1 ≠ ·.1) := by
    rw [List.pairwise_map]
    exact (keys_ne_of_sorted m.sorted).imp fun h he => h (hf he)
  rw [mapKeys, ofList, get?_foldl_insert _ _ hd, lookup_map_injective hf, get?_empty,
    Option.or_none]
  rfl

theorem get?_foldl_insert_of_forall_ne {k : κ} :
    ∀ {l : List (κ × ν)} (m : SortedMap κ ν), (∀ e ∈ l, e.1 ≠ k) →
      (l.foldl (fun m e => m.insert e.1 e.2) m).get? k = m.get? k
  | [], _, _ => rfl
  | (k', v) :: t, m, h => by
    rw [List.foldl_cons, get?_foldl_insert_of_forall_ne _ fun e he => h e (List.mem_cons_of_mem _ he),
      get?_insert_ne _ _ (h (k', v) List.mem_cons_self).symm]

theorem get?_mapKeys_of_forall_ne {f : κ → κ'} (m : SortedMap κ ν) {k' : κ'}
    (h : ∀ k, f k ≠ k') : (m.mapKeys f).get? k' = none := by
  rw [mapKeys, ofList, get?_foldl_insert_of_forall_ne _ fun e he => ?_]
  · rfl
  · obtain ⟨e', -, rfl⟩ := List.mem_map.1 he
    exact h e'.1

/-- Two strictly sorted lists with the same members are equal. -/
theorem eq_of_sorted_of_mem_iff {l l' : List κ} (hl : l.Pairwise (· < ·)) (hl' : l'.Pairwise (· < ·))
    (h : ∀ x, x ∈ l ↔ x ∈ l') : l = l' := by
  have hp : l.Perm l' := (List.perm_ext_iff_of_nodup (hl.imp ne_of_lt) (hl'.imp ne_of_lt)).2 h
  exact hp.eq_of_pairwise (fun a b _ _ hab hba => absurd (hab.trans hba) (lt_irrefl _)) hl hl'

/-- Maps with the same lookups are equal. -/
@[ext] theorem ext {m m' : SortedMap κ ν} (h : ∀ k, m.get? k = m'.get? k) : m = m' := by
  obtain ⟨l, hl⟩ := m
  obtain ⟨l', hl'⟩ := m'
  have hmem : ∀ a, a ∈ l ↔ a ∈ l' := fun a => by
    rw [← lookup_eq_some_iff hl, ← lookup_eq_some_iff hl']
    exact Eq.congr_left (h a.1)
  have hnd : l.Nodup := hl.imp fun hab he => (ne_of_lt hab) (congrArg Prod.fst he)
  have hnd' : l'.Nodup := hl'.imp fun hab he => (ne_of_lt hab) (congrArg Prod.fst he)
  have hp : l.Perm l' := (List.perm_ext_iff_of_nodup hnd hnd').2 hmem
  have : l = l' := hp.eq_of_pairwise (fun a b _ _ hab hba => absurd (hab.trans hba) (lt_irrefl _))
    hl hl'
  subst this; rfl

@[simp] theorem keys_empty : (empty : SortedMap κ ν).keys = [] := rfl

theorem keys_sorted (m : SortedMap κ ν) : m.keys.Pairwise (· < ·) := by
  rw [keys, List.pairwise_map]
  exact m.sorted

theorem mem_keys_insert {m : SortedMap κ ν} {k k' : κ} {v : ν} :
    k' ∈ (m.insert k v).keys ↔ k' = k ∨ k' ∈ m.keys := by
  rw [mem_keys, mem_keys, get?_insert]
  by_cases h : k' = k <;> simp [h]

/-- Erasing the keys of a list, one after the other. -/
theorem mem_keys_foldl_erase {k : κ} :
    ∀ (l : List κ) (m : SortedMap κ ν), k ∈ (l.foldl (fun m k => m.erase k) m).keys ↔
      k ∉ l ∧ k ∈ m.keys
  | [], m => by simp
  | k' :: l, m => by
    rw [List.foldl_cons, mem_keys_foldl_erase l, mem_keys, mem_keys, get?_erase]
    by_cases h : k = k' <;> simp [h]

/-! ### Renaming keys and values -/

theorem mapVal_insert (m : SortedMap κ ν) (f : κ → ν → μ) (k : κ) (v : ν) :
    (m.insert k v).mapVal f = (m.mapVal f).insert k (f k v) := by
  refine ext fun k' => ?_
  by_cases hk : k' = k
  · subst hk; simp
  · simp [hk]

theorem mapVal_mapVal (m : SortedMap κ ν) (f : κ → ν → μ) (g : κ → μ → ν) :
    (m.mapVal f).mapVal g = m.mapVal fun k v => g k (f k v) := by
  refine ext fun k => ?_
  simp only [get?_mapVal, Option.map_map]
  rfl

theorem mapVal_self (m : SortedMap κ ν) : m.mapVal (fun _ v => v) = m := by
  refine ext fun k => ?_
  simp

theorem mapVal_congr {m : SortedMap κ ν} {f g : κ → ν → μ}
    (h : ∀ k v, m.get? k = some v → f k v = g k v) : m.mapVal f = m.mapVal g := by
  refine ext fun k => ?_
  cases hv : m.get? k with
  | none => simp [hv]
  | some v => simp [hv, h k v hv]

theorem mapKeys_congr {m : SortedMap κ ν} {f g : κ → κ'} (h : ∀ k ∈ m.keys, f k = g k) :
    m.mapKeys f = m.mapKeys g := by
  have hl : (m.entries.map fun e => (f e.1, e.2)) = m.entries.map fun e => (g e.1, e.2) :=
    List.map_congr_left fun e he => by rw [h e.1 (List.mem_map_of_mem he)]
  simp only [mapKeys, hl]

section Injective

variable {f : κ → κ'} (hf : Function.Injective f)
include hf

theorem mapKeys_insert (m : SortedMap κ ν) (k : κ) (v : ν) :
    (m.insert k v).mapKeys f = (m.mapKeys f).insert (f k) v := by
  refine ext fun k' => ?_
  by_cases h : ∃ k₀, f k₀ = k'
  · obtain ⟨k₀, rfl⟩ := h
    rw [get?_mapKeys hf, get?_insert, get?_insert, get?_mapKeys hf]
    simp only [hf.eq_iff]
  · have hk : k' ≠ f k := fun he => h ⟨k, he.symm⟩
    rw [get?_mapKeys_of_forall_ne _ fun k₀ hk₀ => h ⟨k₀, hk₀⟩, get?_insert, if_neg hk,
      get?_mapKeys_of_forall_ne _ fun k₀ hk₀ => h ⟨k₀, hk₀⟩]

theorem mem_keys_mapKeys {m : SortedMap κ ν} {k' : κ'} :
    k' ∈ (m.mapKeys f).keys ↔ ∃ k ∈ m.keys, f k = k' := by
  rw [mem_keys]
  constructor
  · intro h
    by_cases hr : ∃ k, f k = k'
    · obtain ⟨k, rfl⟩ := hr
      rw [get?_mapKeys hf] at h
      exact ⟨k, mem_keys.2 h, rfl⟩
    · rw [get?_mapKeys_of_forall_ne _ fun k hk => hr ⟨k, hk⟩] at h
      cases h
  · rintro ⟨k, hk, rfl⟩
    rw [get?_mapKeys hf]
    exact mem_keys.1 hk

theorem mapKeys_mapKeys {g : κ' → κ''} (hg : Function.Injective g) (m : SortedMap κ ν) :
    (m.mapKeys f).mapKeys g = m.mapKeys (g ∘ f) := by
  refine ext fun k'' => ?_
  by_cases h : ∃ k, g (f k) = k''
  · obtain ⟨k, rfl⟩ := h
    rw [get?_mapKeys hg, get?_mapKeys hf, ← Function.comp_apply (f := g),
      get?_mapKeys (hg.comp hf)]
  · rw [get?_mapKeys_of_forall_ne (f := g ∘ f) _ fun k hk => h ⟨k, hk⟩]
    by_cases h' : ∃ k', g k' = k''
    · obtain ⟨k', rfl⟩ := h'
      rw [get?_mapKeys hg, get?_mapKeys_of_forall_ne _ fun k hk => h ⟨k, by rw [hk]⟩]
    · exact get?_mapKeys_of_forall_ne _ fun k' hk' => h' ⟨k', hk'⟩

end Injective

theorem mapKeys_id (m : SortedMap κ ν) : m.mapKeys id = m :=
  ext fun k => get?_mapKeys Function.injective_id m k


/-! ### Maps of sets

A map whose values are sets, each a map to `Unit`: `HashMap<K, HashSet<V>>`. -/

section Sets

variable {ν : Type} [LinearOrder ν]

/-- The members of the set at `k`, none if `k` has no set. -/
def members (m : SortedMap κ (SortedMap ν Unit)) (k : κ) : List ν := ((m.get? k).map keys).getD []

/-- Add `v` to the set at `k`, which is made empty first if `k` has none:
    `m.entry(k).or_default().insert(v)`. -/
def addTo (m : SortedMap κ (SortedMap ν Unit)) (k : κ) (v : ν) : SortedMap κ (SortedMap ν Unit) :=
  m.modify k fun s => (s.getD empty).insert v ()

theorem members_sorted (m : SortedMap κ (SortedMap ν Unit)) (k : κ) :
    (m.members k).Pairwise (· < ·) := by
  unfold members
  cases m.get? k with
  | none => exact List.Pairwise.nil
  | some s => exact s.keys_sorted

theorem members_empty (k : κ) : (empty : SortedMap κ (SortedMap ν Unit)).members k = [] := rfl

theorem members_of_get? {m : SortedMap κ (SortedMap ν Unit)} {k : κ} {s : SortedMap ν Unit}
    (h : m.get? k = some s) : m.members k = s.keys := by
  simp [members, h]

theorem members_insert (m : SortedMap κ (SortedMap ν Unit)) (k k' : κ) (s : SortedMap ν Unit) :
    (m.insert k s).members k' = if k' = k then s.keys else m.members k' := by
  unfold members
  by_cases h : k' = k <;> simp [h]

theorem isSome_get?_addTo {m : SortedMap κ (SortedMap ν Unit)} {k k' : κ} {v : ν} :
    ((m.addTo k v).get? k').isSome ↔ k' = k ∨ (m.get? k').isSome := by
  unfold addTo
  by_cases h : k' = k <;> simp [h]

theorem mem_members_addTo {m : SortedMap κ (SortedMap ν Unit)} {k k' : κ} {v v' : ν} :
    v' ∈ (m.addTo k v).members k' ↔ (k' = k ∧ v' = v) ∨ v' ∈ m.members k' := by
  unfold addTo members
  by_cases h : k' = k
  · subst h
    cases hs : m.get? k' with
    | none => simp [hs, mem_keys_insert, keys_empty]
    | some s => simp [hs, mem_keys_insert]
  · simp [h]

/-- The sets after adding, for each `a` of `l`, `g a` to the set at `f a`. -/
theorem mem_members_foldl_addTo {α : Type} (f : α → κ) (g : α → ν) (k : κ) (v : ν) :
    ∀ (l : List α) (m : SortedMap κ (SortedMap ν Unit)),
      v ∈ (l.foldl (fun m a => m.addTo (f a) (g a)) m).members k ↔
        v ∈ m.members k ∨ ∃ a ∈ l, f a = k ∧ g a = v
  | [], m => by simp
  | a :: l, m => by
    rw [List.foldl_cons, mem_members_foldl_addTo f g k v l, mem_members_addTo]
    constructor
    · rintro ((⟨rfl, rfl⟩ | h) | ⟨b, hb, hbk⟩)
      · exact Or.inr ⟨a, List.mem_cons_self, rfl, rfl⟩
      · exact Or.inl h
      · exact Or.inr ⟨b, List.mem_cons_of_mem _ hb, hbk⟩
    · rintro (h | ⟨b, hb, hbk, hbv⟩)
      · exact Or.inl (Or.inr h)
      · rcases List.mem_cons.1 hb with rfl | hb
        · exact Or.inl (Or.inl ⟨hbk.symm, hbv.symm⟩)
        · exact Or.inr ⟨b, hb, hbk, hbv⟩

theorem isSome_get?_foldl_addTo {α : Type} (f : α → κ) (g : α → ν) (k : κ) :
    ∀ (l : List α) (m : SortedMap κ (SortedMap ν Unit)),
      ((l.foldl (fun m a => m.addTo (f a) (g a)) m).get? k).isSome ↔
        (m.get? k).isSome ∨ ∃ a ∈ l, f a = k
  | [], m => by simp
  | a :: l, m => by
    rw [List.foldl_cons, isSome_get?_foldl_addTo f g k l, isSome_get?_addTo]
    constructor
    · rintro ((rfl | h) | ⟨b, hb, hbk⟩)
      · exact Or.inr ⟨a, List.mem_cons_self, rfl⟩
      · exact Or.inl h
      · exact Or.inr ⟨b, List.mem_cons_of_mem _ hb, hbk⟩
    · rintro (h | ⟨b, hb, hbk⟩)
      · exact Or.inl (Or.inr h)
      · rcases List.mem_cons.1 hb with rfl | hb
        · exact Or.inl (Or.inl hbk.symm)
        · exact Or.inr ⟨b, hb, hbk⟩

end Sets

/-- Inserting at each key of `l` a value that depends on the key only. -/
theorem get?_foldl_insert_fun {μ : Type} (G : κ → μ) (k : κ) :
    ∀ (l : List κ) (m : SortedMap κ μ),
      (l.foldl (fun m k => m.insert k (G k)) m).get? k = if k ∈ l then some (G k) else m.get? k
  | [], m => by simp
  | k' :: l, m => by
    rw [List.foldl_cons, get?_foldl_insert_fun G k l, get?_insert]
    by_cases h : k = k' <;> by_cases hl : k ∈ l <;> simp [h, hl]

theorem mem_keys_foldl_insert (k : κ) :
    ∀ (l : List κ) (m : SortedMap κ Unit),
      k ∈ (l.foldl (fun s k => s.insert k ()) m).keys ↔ k ∈ l ∨ k ∈ m.keys
  | [], m => by simp
  | k' :: l, m => by
    rw [List.foldl_cons, mem_keys_foldl_insert k l, mem_keys_insert, List.mem_cons]
    constructor
    · rintro (h | h | h)
      · exact Or.inl (Or.inr h)
      · exact Or.inl (Or.inl h)
      · exact Or.inr h
    · rintro ((h | h) | h)
      · exact Or.inr (Or.inl h)
      · exact Or.inl h
      · exact Or.inr (Or.inr h)

/-! ### Grouping a list by key

For each element `a` of a list, `m.entry(key(a)).or_default().push(val(a))`. -/

section GroupBy

variable {α : Type} (key : α → κ) (val : α → ν)

/-- The values of the elements of `l`, grouped by key, each group in the order of `l`. -/
def groupBy (l : List α) : SortedMap κ (List ν) :=
  l.foldl (fun m a => m.modify (key a) fun vs => vs.getD [] ++ [val a]) empty

/-- The elements of `l` with key `k`. -/
def withKey (l : List α) (k : κ) : List α := l.filter fun a => key a = k

theorem get?_foldl_push (k : κ) :
    ∀ (l : List α) (m : SortedMap κ (List ν)),
      (l.foldl (fun m a => m.modify (key a) fun vs => vs.getD [] ++ [val a]) m).get? k =
        if withKey key l k = [] then m.get? k
        else some ((m.get? k).getD [] ++ (withKey key l k).map val)
  | [], m => by simp [withKey]
  | a :: l, m => by
    rw [List.foldl_cons, get?_foldl_push k l, get?_modify]
    -- the element counts in the group of `k` exactly when its key is `k`
    by_cases ha : key a = k
    · subst ha
      have hcons : withKey key (a :: l) (key a) = a :: withKey key l (key a) := by
        simp [withKey]
      rw [hcons, if_neg (List.cons_ne_nil _ _), if_pos rfl]
      split_ifs with hl <;> simp [hl]
    · have hskip : withKey key (a :: l) k = withKey key l k := by
        simp [withKey, ha]
      rw [hskip, if_neg (Ne.symm ha)]

/-- The group of `k`: the values of the elements with key `k`, none if there is none. -/
theorem get?_groupBy (l : List α) (k : κ) :
    (groupBy key val l).get? k =
      if withKey key l k = [] then none else some ((withKey key l k).map val) := by
  rw [groupBy, get?_foldl_push]
  simp

theorem mem_keys_groupBy {l : List α} {k : κ} :
    k ∈ (groupBy key val l).keys ↔ ∃ a ∈ l, key a = k := by
  rw [mem_keys, get?_groupBy]
  split_ifs with h
  · simp only [Option.isSome_none, Bool.false_eq_true, false_iff]
    rintro ⟨a, ha, rfl⟩
    exact List.filter_eq_nil_iff.1 h a ha (by simp)
  · obtain ⟨a, ha⟩ := List.exists_mem_of_ne_nil _ h
    simp only [withKey, List.mem_filter, decide_eq_true_eq] at ha
    simpa using ⟨a, ha⟩

/-- Taking the elements of each key in turn, over keys without repetition that cover
    the keys of `l`, rearranges `l`. -/
theorem flatMap_withKey_perm {l : List α} :
    ∀ {ks : List κ}, ks.Nodup → (∀ a ∈ l, key a ∈ ks) → (ks.flatMap (withKey key l)).Perm l
  | [], _, hcov => by
    cases l with
    | nil => rfl
    | cons a l => exact absurd (hcov a List.mem_cons_self) List.not_mem_nil
  | k :: ks, hnd, hcov => by
    obtain ⟨hk, hnd⟩ := List.nodup_cons.1 hnd
    -- the other keys group the elements whose key is not `k`
    have hrest : ks.flatMap (withKey key l) =
        ks.flatMap (withKey key (l.filter fun a => ¬ key a = k)) := by
      refine List.flatMap_congr fun k' hk' => ?_
      have hne : k' ≠ k := fun h => hk (h ▸ hk')
      simp only [withKey, List.filter_filter]
      exact List.filter_congr fun a _ => by by_cases h : key a = k' <;> simp [h, hne]
    have hcov' : ∀ a ∈ l.filter (fun a => ¬ key a = k), key a ∈ ks := by
      intro a ha
      simp only [List.mem_filter, decide_eq_true_eq] at ha
      exact (List.mem_cons.1 (hcov a ha.1)).resolve_left ha.2
    have hsplit : (withKey key l k ++ l.filter fun a => ¬ key a = k).Perm l := by
      simpa [withKey] using List.filter_append_perm (fun a => decide (key a = k)) l
    rw [List.flatMap_cons, hrest]
    exact ((flatMap_withKey_perm hnd hcov').append_left _).trans hsplit

/-- The groups, read back into elements by `mk`, rearrange the list. -/
theorem flatMap_groupBy_perm (mk : κ → ν → α) (hmk : ∀ a, mk (key a) (val a) = a) (l : List α) :
    ((groupBy key val l).toList.flatMap fun e => e.2.map (mk e.1)).Perm l := by
  -- each entry reads back as the elements of its key
  have hentry : ∀ e ∈ (groupBy key val l).toList, e.2.map (mk e.1) = withKey key l e.1 := by
    rintro ⟨k, vs⟩ he
    rw [mem_toList, get?_groupBy] at he
    split_ifs at he
    cases he
    rw [List.map_map]
    conv_rhs => rw [← List.map_id (withKey key l k)]
    refine List.map_congr_left fun a ha => ?_
    simp only [withKey, List.mem_filter, decide_eq_true_eq] at ha
    simp [← ha.2, hmk]
  have hkeys : (groupBy key val l).keys.Nodup := (keys_sorted _).imp ne_of_lt
  have hbykey : (groupBy key val l).toList.flatMap (fun e => withKey key l e.1) =
      (groupBy key val l).keys.flatMap (withKey key l) := by
    simp only [keys, toList, List.flatMap_map]
  rw [List.flatMap_congr hentry, hbykey]
  exact flatMap_withKey_perm key hkeys fun a ha => mem_keys_groupBy key val |>.2 ⟨a, ha, rfl⟩

end GroupBy

/-! ## Ranges of a sorted list -/

section Ranges

variable {l : List κ} {a b : κ}

/-- The range up to a member of the list ends with the member. -/
theorem getLast?_filter_Ioc (hl : l.Pairwise (· < ·)) (hb : b ∈ l) (hab : a < b) :
    (l.filter (fun e => a < e ∧ e ≤ b)).getLast? = some b := by
  obtain ⟨s, t, rfl⟩ := List.append_of_mem hb
  obtain ⟨-, -, hst⟩ := List.pairwise_append.1 hl
  -- what follows `b` is past it
  have ht : t.filter (fun e => a < e ∧ e ≤ b) = [] := List.filter_eq_nil_iff.2
    fun e he h => absurd (of_decide_eq_true h).2
      (not_le.2 ((List.pairwise_cons.1 (List.pairwise_append.1 hl).2.1).1 e he))
  rw [List.filter_append, List.filter_cons, if_pos (by simp [hab]), ht]
  simp

end Ranges

end SortedMap
