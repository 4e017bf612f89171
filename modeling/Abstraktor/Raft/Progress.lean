/-
  The leader's view of replication in the instrumented dqlite raft
  (src/SUT/dqlite/dqlite-raft/src/progress.c and log.c).

  The log is its entries from `offset + 1` on, after a snapshot that replaces the
  entries up to `snapshot.last_index`; the circular buffer is its entries in index
  order.  A leader keeps one progress record per server of its configuration.
  Indexes and terms (`ℕ`, `ℕ`) are `unsigned long long`; they are
  compared and counted, never wrap, and are natural numbers here.
  Abstraktor adds four test functions that the block events of the leader read:
  whether enough voters have replicated an index (`progressTestExistIndexQuorum`),
  the largest such index, found by a scan down from the last index
  (`progressTestGetMaxIndexQuorum`), and whether there is one.

  * `getMaxIndexQuorumFrom_eq_findGreatest`: the scan is `Nat.findGreatest`;
  * `progressTestExistIndexQuorum_iff`: the quorum test counts the voters' match
    indexes (`voter_match_indexes`), whatever the non-voters hold;
  * `progressTestGetMaxIndexQuorum_eq_min`: the scan returns the last index, capped
    by the order statistic of the voters' match indexes at the quorum size.
-/
import Mathlib
import Abstraktor.Lib.OrderStat

namespace Abstraktor.Raft

open OrderStat

/-- The roles of a server (include/raft.h). -/
inductive raft_role
  | RAFT_STANDBY
  | RAFT_VOTER
  | RAFT_SPARE
  deriving DecidableEq, Repr

/-- The states of a server (include/raft.h), kept as an `unsigned short`. -/
inductive raft_state
  | RAFT_UNAVAILABLE
  | RAFT_FOLLOWER
  | RAFT_CANDIDATE
  | RAFT_LEADER
  deriving DecidableEq, Repr

/-- The value of the enumerator. -/
def raft_state.toNat : raft_state → ℕ
  | .RAFT_UNAVAILABLE => 0
  | .RAFT_FOLLOWER => 1
  | .RAFT_CANDIDATE => 2
  | .RAFT_LEADER => 3

structure raft_server where
  role : raft_role
  deriving DecidableEq, Repr

structure raft_configuration where
  servers : List raft_server
  deriving DecidableEq, Repr

/-- The field `n` of the configuration. -/
def raft_configuration.n (c : raft_configuration) : ℕ := c.servers.length

structure raft_progress where
  match_index : ℕ
  deriving DecidableEq, Repr

structure raft_entry where
  term : ℕ
  deriving DecidableEq, Repr

/-- The last snapshot of the log, or zeros. -/
structure raft_log_snapshot where
  last_index : ℕ
  last_term : ℕ
  deriving DecidableEq, Repr

/-- `struct raft_log`: the entry at position `k` of `entries` has index `offset + k + 1`.
    No operation moves the offset past the snapshot (`logSnapshot` keeps trailing
    entries, `logRestore` puts both at the snapshot), which `logLastIndex` and
    `logTermOf` assert. -/
structure raft_log where
  entries : List raft_entry
  offset : ℕ
  snapshot : raft_log_snapshot
  offset_le : offset ≤ snapshot.last_index
  deriving DecidableEq

/-- The fields of `struct raft` that the leader's replication reads: the progress
    array of the leader state has one record per server of the configuration
    (`progressBuildArray`). -/
structure raft where
  current_term : ℕ
  log : raft_log
  configuration : raft_configuration
  commit_index : ℕ
  state : raft_state
  progress : List raft_progress
  progress_length : progress.length = configuration.n

/-! ## The log -/

def logNumEntries (l : raft_log) : ℕ := l.entries.length

def logLastIndex (l : raft_log) : ℕ := l.offset + logNumEntries l

/-- The position of the entry with the given index, `none` for `l->size`. -/
def locateEntry (l : raft_log) (index : ℕ) : Option ℕ :=
  let n := logNumEntries l
  if n = 0 ∨ index < l.offset + 1 ∨ l.offset + n < index then none
  else some (index - 1 - l.offset)

/-- The term of the entry at `locateEntry`, if there is one. -/
def entry_term (l : raft_log) (index : ℕ) : Option ℕ :=
  (locateEntry l index).bind fun i => (l.entries[i]?).map (·.term)

/-- `logTermOf`: 0 for an index past the log or compacted away, the snapshot's term
    at its last index, else the entry's term.  A failed assertion is an error with
    its text; `l->offset <= l->snapshot.last_index` is a field of the log. -/
def logTermOf (l : raft_log) (index : ℕ) : Except String ℕ :=
  if index = 0 then .error "index > 0"
  else if (index < l.offset + 1 ∧ index ≠ l.snapshot.last_index) ∨ logLastIndex l < index then
    .ok 0
  else if index = l.snapshot.last_index then
    if l.snapshot.last_term = 0 then .error "l->snapshot.last_term != 0"
    else match entry_term l index with
      | some term =>
        if term = l.snapshot.last_term then .ok l.snapshot.last_term
        else .error "l->entries[i].term == l->snapshot.last_term"
      | none => .ok l.snapshot.last_term
  else match entry_term l index with
    | some term => .ok term
    | none => .error "i < l->size"

theorem logTermOf_of_lt {l : raft_log} {index : ℕ} (h0 : 0 < index)
    (h : logLastIndex l < index) : logTermOf l index = .ok 0 := by
  rw [logTermOf, if_neg (Nat.pos_iff_ne_zero.1 h0), if_pos (Or.inr h)]

/-- A non-zero term is read inside the log. -/
theorem le_logLastIndex_of_logTermOf {l : raft_log} {index : ℕ} {t : ℕ}
    (h : logTermOf l index = .ok t) (ht : t ≠ 0) : 0 < index ∧ index ≤ logLastIndex l := by
  have h0 : 0 < index := by
    rcases Nat.eq_zero_or_pos index with rfl | h0
    · simp [logTermOf] at h
    · exact h0
  refine ⟨h0, Nat.le_of_not_lt fun hlt => ht ?_⟩
  rw [logTermOf_of_lt h0 hlt] at h
  exact (Except.ok.inj h).symm

/-! ## The configuration and the progress -/

/-- `c->servers[i].role == RAFT_VOTER`. -/
def is_voter (c : raft_configuration) (i : ℕ) : Bool :=
  (c.servers[i]?).any fun s => s.role == .RAFT_VOTER

def configurationVoterCount (c : raft_configuration) : ℕ :=
  (List.range c.n).countP fun i => is_voter c i

/-- `r->leader_state.progress[i].match_index >= index`. -/
def match_index_ge (r : raft) (i : ℕ) (index : ℕ) : Bool :=
  (r.progress[i]?).any fun p => index ≤ p.match_index

def progressTestExistIndex (r : raft) (i : ℕ) (index : ℕ) : Bool :=
  if r.configuration.n ≤ i then false else match_index_ge r i index

def progressTestExistIndexQuorum (r : raft) (index : ℕ) : Bool :=
  let n_voters := configurationVoterCount r.configuration
  let count := (List.range r.configuration.n).countP fun i =>
    is_voter r.configuration i && progressTestExistIndex r i index
  decide (n_voters / 2 + 1 ≤ count)

/-- The loop of `progressTestGetMaxIndexQuorum`, from `i` down to 1. -/
def getMaxIndexQuorumFrom (r : raft) : ℕ → ℕ
  | 0 => 0
  | i + 1 => if progressTestExistIndexQuorum r (i + 1) then i + 1 else getMaxIndexQuorumFrom r i

def progressTestGetMaxIndexQuorum (r : raft) : ℕ :=
  getMaxIndexQuorumFrom r (logLastIndex r.log)

def progressTestExistsOneIndexQuorum (r : raft) : Bool :=
  progressTestGetMaxIndexQuorum r != 0

/-! ## The voters' match indexes -/

/-- The match indexes of the voters, in the order of the configuration. -/
def voter_match_indexes (r : raft) : List ℕ :=
  (List.range r.configuration.n).filterMap fun i =>
    if is_voter r.configuration i then (r.progress[i]?).map (·.match_index) else none

/-- At least `⌊nv/2⌋ + 1` of the `nv` voters have replicated `index`. -/
def has_index_quorum (r : raft) (index : ℕ) : Prop :=
  configurationVoterCount r.configuration / 2 + 1 ≤ countGe (voter_match_indexes r) index

instance has_index_quorum.decidablePred (r : raft) : DecidablePred (has_index_quorum r) :=
  fun _ => inferInstanceAs (Decidable (_ ≤ _))

theorem progress_isSome (r : raft) {i : ℕ} (hi : i ∈ List.range r.configuration.n) :
    (r.progress[i]?).isSome := by
  rw [List.mem_range, ← r.progress_length] at hi
  simp [hi]

theorem voter_match_indexes_length (r : raft) :
    (voter_match_indexes r).length = configurationVoterCount r.configuration := by
  rw [voter_match_indexes, List.length_filterMap_eq_countP, configurationVoterCount]
  refine List.countP_congr fun i hi => ?_
  cases is_voter r.configuration i <;> simp [progress_isSome r hi]

/-- The loop counts the voters whose match index reaches `index`: the voters' match
    indexes that are at least `index`. -/
theorem count_voters_match_index_ge (r : raft) (index : ℕ) :
    (List.range r.configuration.n).countP (fun i =>
      is_voter r.configuration i && match_index_ge r i index) =
      countGe (voter_match_indexes r) index := by
  rw [voter_match_indexes, countGe, List.countP_filterMap]
  refine List.countP_congr fun i _ => ?_
  cases is_voter r.configuration i <;> rcases hp : r.progress[i]? with _ | p <;>
    simp [match_index_ge, hp]

theorem progressTestExistIndexQuorum_iff (r : raft) (index : ℕ) :
    progressTestExistIndexQuorum r index = true ↔ has_index_quorum r index := by
  have hloop : (List.range r.configuration.n).countP (fun i =>
      is_voter r.configuration i && progressTestExistIndex r i index) =
      (List.range r.configuration.n).countP (fun i =>
        is_voter r.configuration i && match_index_ge r i index) := by
    refine List.countP_congr fun i hi => ?_
    rw [progressTestExistIndex, if_neg (Nat.not_le.2 (List.mem_range.1 hi))]
  rw [progressTestExistIndexQuorum, decide_eq_true_iff, hloop, count_voters_match_index_ge,
    has_index_quorum]

/-- With no voter there is no quorum. -/
theorem not_has_index_quorum (r : raft) (h : configurationVoterCount r.configuration = 0)
    (index : ℕ) : ¬ has_index_quorum r index := by
  have hle := countGe_le_length (voter_match_indexes r) index
  rw [voter_match_indexes_length, h] at hle
  rw [has_index_quorum, h]
  omega

/-- With a voter, an index has a quorum exactly when the order statistic of the
    voters' match indexes at the quorum size reaches it. -/
theorem has_index_quorum_iff (r : raft) (h : 1 ≤ configurationVoterCount r.configuration)
    (index : ℕ) :
    has_index_quorum r index ↔ index ≤
      kthLargest (voter_match_indexes r) (configurationVoterCount r.configuration / 2 + 1) := by
  have hk : configurationVoterCount r.configuration / 2 + 1 ≤ (voter_match_indexes r).length := by
    rw [voter_match_indexes_length]
    omega
  rw [le_kthLargest_iff (Nat.succ_pos _) hk, has_index_quorum]

/-! ## The scan -/

theorem getMaxIndexQuorumFrom_eq_findGreatest (r : raft) (i : ℕ) :
    getMaxIndexQuorumFrom r i = Nat.findGreatest (has_index_quorum r) i := by
  induction i with
  | zero => rfl
  | succ i ih =>
    rw [getMaxIndexQuorumFrom, Nat.findGreatest_succ, ih]
    by_cases hq : has_index_quorum r (i + 1)
    · rw [if_pos ((progressTestExistIndexQuorum_iff r _).2 hq), if_pos hq]
    · rw [if_neg (mt (progressTestExistIndexQuorum_iff r _).1 hq), if_neg hq]

theorem progressTestGetMaxIndexQuorum_eq (r : raft) :
    progressTestGetMaxIndexQuorum r =
      Nat.findGreatest (has_index_quorum r) (logLastIndex r.log) :=
  getMaxIndexQuorumFrom_eq_findGreatest r _

theorem progressTestGetMaxIndexQuorum_le (r : raft) :
    progressTestGetMaxIndexQuorum r ≤ logLastIndex r.log := by
  rw [progressTestGetMaxIndexQuorum_eq]
  exact Nat.findGreatest_le _

/-- The scan passes over no index with a quorum. -/
theorem le_progressTestGetMaxIndexQuorum {r : raft} {index : ℕ}
    (hlast : index ≤ logLastIndex r.log) (hq : has_index_quorum r index) :
    index ≤ progressTestGetMaxIndexQuorum r := by
  rw [progressTestGetMaxIndexQuorum_eq]
  exact Nat.le_findGreatest hlast hq

theorem progressTestGetMaxIndexQuorum_eq_min (r : raft)
    (h : 1 ≤ configurationVoterCount r.configuration) :
    progressTestGetMaxIndexQuorum r = min (logLastIndex r.log)
      (kthLargest (voter_match_indexes r) (configurationVoterCount r.configuration / 2 + 1)) := by
  rw [progressTestGetMaxIndexQuorum_eq]
  exact findGreatest_eq_min (fun i _ => has_index_quorum_iff r h i) _

/-- Three voters and a standby far ahead: the second largest voter's index, 3, caps
    the last index, 4. -/
example : progressTestGetMaxIndexQuorum
    ⟨1, ⟨[⟨1⟩, ⟨1⟩, ⟨1⟩, ⟨1⟩], 0, ⟨0, 0⟩, le_refl 0⟩,
      ⟨[⟨.RAFT_VOTER⟩, ⟨.RAFT_VOTER⟩, ⟨.RAFT_VOTER⟩, ⟨.RAFT_STANDBY⟩]⟩, 0, .RAFT_LEADER,
      [⟨5⟩, ⟨3⟩, ⟨1⟩, ⟨9⟩], rfl⟩ = 3 := by decide

theorem progressTestGetMaxIndexQuorum_eq_zero (r : raft)
    (h : configurationVoterCount r.configuration = 0) : progressTestGetMaxIndexQuorum r = 0 := by
  rw [progressTestGetMaxIndexQuorum_eq, Nat.findGreatest_eq_zero_iff]
  exact fun i _ _ => not_has_index_quorum r h i

theorem progressTestExistsOneIndexQuorum_iff (r : raft) :
    progressTestExistsOneIndexQuorum r = true ↔ progressTestGetMaxIndexQuorum r ≠ 0 := by
  simp [progressTestExistsOneIndexQuorum]

/-- The scan returns the greatest index of the log with a quorum, or 0 when there is none. -/
theorem progressTestGetMaxIndexQuorum_isGreatest (r : raft) :
    IsGreatest {i | 1 ≤ i ∧ i ≤ logLastIndex r.log ∧ has_index_quorum r i}
        (progressTestGetMaxIndexQuorum r) ∨
      (progressTestGetMaxIndexQuorum r = 0 ∧
        ∀ i, 1 ≤ i → i ≤ logLastIndex r.log → ¬ has_index_quorum r i) := by
  rw [progressTestGetMaxIndexQuorum_eq]
  by_cases h0 : Nat.findGreatest (has_index_quorum r) (logLastIndex r.log) = 0
  · exact .inr ⟨h0, fun i h1 hi => Nat.findGreatest_eq_zero_iff.1 h0 h1 hi⟩
  · refine .inl ⟨⟨Nat.pos_of_ne_zero h0, Nat.findGreatest_le _,
      Nat.findGreatest_of_ne_zero rfl h0⟩, ?_⟩
    rintro i ⟨-, hi, hq⟩
    exact Nat.le_findGreatest hi hq

/-- **The quorum scan is an order statistic.**  `progressTestGetMaxIndexQuorum` returns
    the greatest index of the log that at least `⌊nv/2⌋ + 1` of the `nv` voters have
    replicated, or 0; with a voter this is the last index capped by the
    `(⌊nv/2⌋ + 1)`-th largest match index of the voters, and with none it is 0.
    `progressTestExistsOneIndexQuorum` tells whether it is non-zero. -/
theorem progressTestGetMaxIndexQuorum_order_statistic (r : raft) :
    (IsGreatest {i | 1 ≤ i ∧ i ≤ logLastIndex r.log ∧ has_index_quorum r i}
        (progressTestGetMaxIndexQuorum r) ∨
      (progressTestGetMaxIndexQuorum r = 0 ∧
        ∀ i, 1 ≤ i → i ≤ logLastIndex r.log → ¬ has_index_quorum r i)) ∧
    (1 ≤ configurationVoterCount r.configuration →
      progressTestGetMaxIndexQuorum r = min (logLastIndex r.log)
        (kthLargest (voter_match_indexes r) (configurationVoterCount r.configuration / 2 + 1))) ∧
    (configurationVoterCount r.configuration = 0 → progressTestGetMaxIndexQuorum r = 0) ∧
    (progressTestExistsOneIndexQuorum r = true ↔ progressTestGetMaxIndexQuorum r ≠ 0) :=
  ⟨progressTestGetMaxIndexQuorum_isGreatest r, progressTestGetMaxIndexQuorum_eq_min r,
    progressTestGetMaxIndexQuorum_eq_zero r, progressTestExistsOneIndexQuorum_iff r⟩

end Abstraktor.Raft
