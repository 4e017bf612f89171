/-
  The log of the dqlite raft as log.c keeps it (src/SUT/dqlite/dqlite-raft/src/log.c):
  the entries in a circular buffer, and a hash table counting the references to each
  entry, which callers take with `logAcquire` and give back with `logRelease`.

  The entries array has `size` slots, the live ones `[front, back)`; the entry at live
  position `i` has index `offset + i + 1`.  The table has `refs_size` buckets; the bucket
  of an index is `(index - 1) % refs_size`, and holds the slots of the entries of that
  index, one per term (two entries of one index and different terms are referenced at once
  when an entry is truncated while acquired).  A null array is the empty list; an unused
  bucket, whose first slot has a count of zero, is the empty list.  Failed assertions are
  errors with their text, as in `Progress`, and so is the `RAFT_NOMEM` of `refsInit` when
  ten doublings of the table leave a collision; allocations never fail here.  The
  payloads are kept as bytes, and the batch an entry was allocated in is left out, with
  the freeing of memory: the functions that free a payload return the entries they find
  unreferenced instead.

  * `refsTryInsert`, `refsMove`, `refsGrow`, `refsInit`, `refsIncr`, `refsDecr`: the
    reference count table;
  * `logAppend`, `logTruncate`, `logDiscard`, `logSnapshot`, `logRestore`, `logStart`:
    the calls that change the log, with `ensureCapacity`, `removeSuffix` and
    `removePrefix`;
  * `logNumEntries`, `logLastIndex`, `locateEntry`, `logTermOf`, `logLastTerm`, `logGet`:
    its queries; `logAcquire` and `logRelease`, and `logClose`, which asserts that no
    reference is left.
-/
import Mathlib
import Abstraktor.Lib.Counter
import Abstraktor.Lib.CircularBuffer
import Abstraktor.Raft.Progress

namespace Abstraktor.Raft.Circular

/-- `struct raft_entry`: its term, its type (`RAFT_COMMAND`, `RAFT_BARRIER` or
    `RAFT_CHANGE`, an `unsigned short`) and its payload. -/
structure raft_entry where
  term : ℕ
  type : ℕ
  buf : List UInt8
  deriving DecidableEq, Repr

def RAFT_COMMAND : ℕ := 1
def RAFT_BARRIER : ℕ := 2
def RAFT_CHANGE : ℕ := 3

/-- A slot of an entries array fresh from `raft_calloc`. -/
def raft_entry.zero : raft_entry := ⟨0, 0, []⟩

/-- `struct raft_entry_ref`: a slot of a bucket, counting the references to the entry of
    its term and index; the count is an `unsigned short`. -/
structure raft_entry_ref where
  term : ℕ
  index : ℕ
  count : ℕ
  deriving DecidableEq, Repr

def LOG__REFS_INITIAL_SIZE : ℕ := 256

/-- `struct raft_log`: the entries array, its live slots `[front, back)`, the index
    `offset` before the first entry, the reference count table, each bucket the list of
    its slots, and the last snapshot. -/
structure raft_log where
  entries : List raft_entry
  front : ℕ
  back : ℕ
  offset : ℕ
  refs : List (List raft_entry_ref)
  snapshot : raft_log_snapshot
  deriving DecidableEq, Repr

namespace raft_log

/-- `l->size`, the number of slots of the entries array. -/
def size (l : raft_log) : ℕ := l.entries.length

/-- `l->refs_size`, the number of buckets of the table. -/
def refs_size (l : raft_log) : ℕ := l.refs.length

end raft_log

/-! ## The reference count table -/

/-- `refsKey`: the bucket of an index in a table of `size` buckets. -/
def refsKey (index size : ℕ) : ℕ := (index - 1) % size

/-- `refsTryInsert`: a slot counting `count` references to the entry `(term, index)`:
    the first of an unused bucket, or the last of the bucket of its index, none of whose
    slots may be of its term.  The bucket of another index is a collision, and the table
    stays as it is. -/
def refsTryInsert (table : List (List raft_entry_ref)) (size term index count : ℕ) :
    Except String (List (List raft_entry_ref) × Bool) := do
  let key := refsKey index size
  match table.getD key [] with
  | [] => pure (table.set key [⟨term, index, count⟩], false)
  | bucket@(first :: _) =>
    if first.index ≠ index then return (table, true)
    bucket.forM fun next_slot => do
      if next_slot.index ≠ index then throw "next_slot->index == index"
      if next_slot.term = term then throw "next_slot->term != term"
    pure (table.set key (bucket ++ [⟨term, index, count⟩]), false)

/-- `refsMove`: the slots of a bucket inserted into a table of `size` buckets, which must
    not collide. -/
def refsMove (bucket : List raft_entry_ref) (table : List (List raft_entry_ref)) (size : ℕ) :
    Except String (List (List raft_entry_ref)) :=
  bucket.foldlM (fun table slot => do
    let (table, collision) ← refsTryInsert table size slot.term slot.index slot.count
    if collision then throw "!collision"
    pure table) table

/-- `refsGrow`: the table doubled, each used bucket moved into the new one. -/
def refsGrow (l : raft_log) : Except String raft_log := do
  let size := l.refs_size * 2
  let table ← l.refs.foldlM (fun table bucket =>
    if bucket = [] then pure table else refsMove bucket table size) (List.replicate size [])
  pure { l with refs := table }

/-- The tries of `refsInit`: insert, or grow the table and try again. -/
def refsInitTry (term index : ℕ) : ℕ → raft_log → Except String raft_log
  | 0, _ => throw "RAFT_NOMEM"
  | tries + 1, l => do
    let (table, collision) ← refsTryInsert l.refs l.refs_size term index 1
    if !collision then return { l with refs := table }
    let l ← refsGrow l
    refsInitTry term index tries l

/-- `refsInit`: one reference to the new entry `(term, index)`, in a table made at its
    initial size if there is none, and doubled at a collision, at most ten times. -/
def refsInit (l : raft_log) (term index : ℕ) : Except String raft_log :=
  let l := if l.refs = [] then { l with refs := List.replicate LOG__REFS_INITIAL_SIZE [] } else l
  refsInitTry term index 10 l

/-- The position of the slot of term `term` in a bucket of the index `index`, walking it as
    `refsIncr` and `refsDecr` do. -/
def findSlot (term index : ℕ) : List raft_entry_ref → Except String ℕ
  | [] => throw "slot != NULL"
  | slot :: rest =>
    if slot.index ≠ index then throw "slot->index == index"
    else if slot.term = term then pure 0
    else do pure ((← findSlot term index rest) + 1)

/-- `refsIncr`: one more reference to the entry `(term, index)`. -/
def refsIncr (l : raft_log) (term index : ℕ) : Except String raft_log := do
  let key := refsKey index l.refs_size
  let bucket := l.refs.getD key []
  let j ← findSlot term index bucket
  let bucket := bucket.modify j fun slot => { slot with count := (slot.count + 1) % 65536 }
  pure { l with refs := l.refs.set key bucket }

/-- `refsDecr`: one reference less to the entry `(term, index)`, and whether it has none
    left, in which case its slot goes from the bucket. -/
def refsDecr (l : raft_log) (term index : ℕ) : Except String (raft_log × Bool) := do
  let key := refsKey index l.refs_size
  let bucket := l.refs.getD key []
  let j ← findSlot term index bucket
  let count := ((bucket.getD j ⟨0, 0, 0⟩).count + 65535) % 65536
  if count > 0 then
    let bucket := bucket.modify j fun slot => { slot with count }
    return ({ l with refs := l.refs.set key bucket }, false)
  pure ({ l with refs := l.refs.set key (bucket.eraseIdx j) }, true)

/-! ## The circular buffer -/

def logInit : raft_log := ⟨[], 0, 0, 0, [], ⟨0, 0⟩⟩

def logNumEntries (l : raft_log) : ℕ :=
  if l.front ≤ l.back then l.back - l.front else l.size - l.front + l.back

def logLastIndex (l : raft_log) : ℕ := l.offset + logNumEntries l

/-- `indexAt`: the index of the `i`-th entry. -/
def indexAt (l : raft_log) (i : ℕ) : ℕ := l.offset + i + 1

/-- `positionAt`: the slot of the `i`-th entry. -/
def positionAt (l : raft_log) (i : ℕ) : ℕ := (l.front + i) % l.size

/-- `entryAt`: the `i`-th entry. -/
def entryAt (l : raft_log) (i : ℕ) : raft_entry := l.entries.getD (positionAt l i) raft_entry.zero

def logStart (l : raft_log) (snapshot_index snapshot_term start_index : ℕ) :
    Except String raft_log := do
  if logNumEntries l ≠ 0 then throw "logNumEntries(l) == 0"
  if start_index = 0 then throw "start_index > 0"
  if snapshot_index + 1 < start_index then throw "start_index <= snapshot_index + 1"
  if snapshot_index ≠ 0 ∧ snapshot_term = 0 then
    throw "snapshot_index == 0 || snapshot_term != 0"
  pure { l with snapshot := ⟨snapshot_index, snapshot_term⟩, offset := start_index - 1 }

/-- `ensureCapacity`: room for one more entry, or a new array of twice the size plus two,
    the entries copied to its start. -/
def ensureCapacity (l : raft_log) : raft_log :=
  let n := logNumEntries l
  if n + 1 < l.size then l
  else
    let size := (l.size + 1) * 2
    { l with
      entries := (List.range n).map (entryAt l) ++ List.replicate (size - n) raft_entry.zero
      front := 0
      back := n }

def logAppend (l : raft_log) (term type : ℕ) (buf : List UInt8) : Except String raft_log := do
  if term = 0 then throw "term > 0"
  if type ≠ RAFT_CHANGE ∧ type ≠ RAFT_BARRIER ∧ type ≠ RAFT_COMMAND then
    throw "type == RAFT_CHANGE || type == RAFT_BARRIER || type == RAFT_COMMAND"
  let l := ensureCapacity l
  let index := logLastIndex l + 1
  let l ← refsInit l term index
  pure { l with entries := l.entries.set l.back ⟨term, type, buf⟩, back := (l.back + 1) % l.size }

def logAppendCommands (l : raft_log) (term : ℕ) (bufs : List (List UInt8)) :
    Except String raft_log := do
  if term = 0 then throw "term > 0"
  if bufs = [] then throw "n > 0"
  bufs.foldlM (fun l buf => logAppend l term RAFT_COMMAND buf) l

/-- `locateEntry`: the slot of the entry of an index, or `size` for none. -/
def locateEntry (l : raft_log) (index : ℕ) : ℕ :=
  let n := logNumEntries l
  if n = 0 ∨ index < indexAt l 0 ∨ index > indexAt l (n - 1) then l.size
  else positionAt l (index - 1 - l.offset)

def logTermOf (l : raft_log) (index : ℕ) : Except String ℕ := do
  if index = 0 then throw "index > 0"
  if ¬l.offset ≤ l.snapshot.last_index then throw "l->offset <= l->snapshot.last_index"
  if (index < l.offset + 1 ∧ index ≠ l.snapshot.last_index) ∨ index > logLastIndex l then
    return 0
  if index = l.snapshot.last_index then
    if l.snapshot.last_term = 0 then throw "l->snapshot.last_term != 0"
    let i := locateEntry l index
    if i ≠ l.size ∧ (l.entries.getD i raft_entry.zero).term ≠ l.snapshot.last_term then
      throw "l->entries[i].term == l->snapshot.last_term"
    return l.snapshot.last_term
  let i := locateEntry l index
  if ¬i < l.size then throw "i < l->size"
  pure (l.entries.getD i raft_entry.zero).term

def logLastTerm (l : raft_log) : Except String ℕ :=
  let last_index := logLastIndex l
  if last_index > 0 then logTermOf l last_index else pure 0

/-- `logGet`: the entry of an index, `none` for `NULL`. -/
def logGet (l : raft_log) (index : ℕ) : Option raft_entry :=
  let i := locateEntry l index
  if i = l.size then none else some (l.entries.getD i raft_entry.zero)

/-- `logAcquire`: the entries from `index` to the last, each with one more reference. -/
def logAcquire (l : raft_log) (index : ℕ) : Except String (raft_log × List raft_entry) := do
  if index = 0 then throw "index > 0"
  let i := locateEntry l index
  if i = l.size then return (l, [])
  let n := if i < l.back then l.back - i else l.size - i + l.back
  if n = 0 then throw "*n > 0"
  let entries := (List.range n).map fun j => l.entries.getD ((i + j) % l.size) raft_entry.zero
  let l ← (List.range n).foldlM (fun l j =>
    refsIncr l (entries.getD j raft_entry.zero).term (index + j)) l
  pure (l, entries)

/-- `logRelease`: one reference less to each entry acquired from `index`; the entries left
    with none, `(term, index)`, are those whose memory it frees. -/
def logRelease (l : raft_log) (index : ℕ) (entries : List raft_entry) :
    Except String (raft_log × List (ℕ × ℕ)) :=
  (List.range entries.length).foldlM (fun (l, unrefs) i => do
    let entry := entries.getD i raft_entry.zero
    let (l, unref) ← refsDecr l entry.term (index + i)
    pure (l, if unref then unrefs ++ [(entry.term, index + i)] else unrefs)) (l, [])

/-- `clearIfEmpty`: the array goes when no entry is left. -/
def clearIfEmpty (l : raft_log) : raft_log :=
  if logNumEntries l > 0 then l else { l with entries := [], front := 0, back := 0 }

/-- `removeSuffix`: the entries from `index` on, last first, each with one reference less;
    with `destroy`, the entries left with none, `(term, index)`, are those it frees. -/
def removeSuffix (l : raft_log) (index : ℕ) (destroy : Bool) :
    Except String (raft_log × List (ℕ × ℕ)) := do
  if ¬index > l.offset then throw "index > l->offset"
  if ¬index ≤ logLastIndex l then throw "index <= logLastIndex(l)"
  let n := logLastIndex l - index + 1
  let (l, destroyed) ← (List.range n).foldlM (fun (l, destroyed) i => do
    let l := { l with back := if l.back = 0 then l.size - 1 else l.back - 1 }
    let entry := l.entries.getD l.back raft_entry.zero
    let (l, unref) ← refsDecr l entry.term (index + n - i - 1)
    pure (l, if unref ∧ destroy then destroyed ++ [(entry.term, index + n - i - 1)]
      else destroyed)) (l, [])
  pure (clearIfEmpty l, destroyed)

def logTruncate (l : raft_log) (index : ℕ) : Except String (raft_log × List (ℕ × ℕ)) :=
  if logNumEntries l = 0 then pure (l, []) else removeSuffix l index true

def logDiscard (l : raft_log) (index : ℕ) : Except String raft_log := do
  let (l, _) ← removeSuffix l index false
  pure l

/-- `removePrefix`: the entries up to `index`, first first, each with one reference less;
    the entries left with none, `(term, index)`, are those it frees. -/
def removePrefix (l : raft_log) (index : ℕ) : Except String (raft_log × List (ℕ × ℕ)) := do
  if index = 0 then throw "index > 0"
  if ¬index ≤ logLastIndex l then throw "index <= logLastIndex(l)"
  let n := index - indexAt l 0 + 1
  let (l, destroyed) ← (List.range n).foldlM (fun (l, destroyed) _ => do
    let entry := l.entries.getD l.front raft_entry.zero
    let l := { l with
      front := if l.front = l.size - 1 then 0 else l.front + 1
      offset := l.offset + 1 }
    let (l, unref) ← refsDecr l entry.term l.offset
    pure (l, if unref then destroyed ++ [(entry.term, l.offset)] else destroyed)) (l, [])
  pure (clearIfEmpty l, destroyed)

def logSnapshot (l : raft_log) (last_index trailing : ℕ) :
    Except String (raft_log × List (ℕ × ℕ)) := do
  let last_term ← logTermOf l last_index
  if last_term = 0 then throw "last_term != 0"
  let l := { l with snapshot := ⟨last_index, last_term⟩ }
  if last_index ≤ trailing ∨ locateEntry l (last_index - trailing) = l.size then
    return (l, [])
  removePrefix l (last_index - trailing)

def logRestore (l : raft_log) (last_index last_term : ℕ) :
    Except String (raft_log × List (ℕ × ℕ)) := do
  let n := logNumEntries l
  if last_index = 0 then throw "last_index > 0"
  if last_term = 0 then throw "last_term > 0"
  let (l, destroyed) ← if n > 0 then logTruncate l (logLastIndex l - n + 1) else pure (l, [])
  pure ({ l with snapshot := ⟨last_index, last_term⟩, offset := last_index }, destroyed)

/-- `logClose`: no entry may still be referenced but by the log, nor share its bucket. -/
def logClose (l : raft_log) : Except String Unit :=
  (List.range (logNumEntries l)).forM fun i =>
    match l.refs.getD (refsKey (indexAt l i) l.refs_size) [] with
    | [] => throw "slot->count == 1"
    | slot :: rest => do
      if slot.count ≠ 1 then throw "slot->count == 1"
      if rest ≠ [] then throw "slot->next == NULL"

end Abstraktor.Raft.Circular
