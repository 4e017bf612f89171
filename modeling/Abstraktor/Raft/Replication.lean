/-
  The commit rule of the leader (`replicationQuorum`, src/SUT/dqlite/dqlite-raft/src/
  replication.c) with the block events that Abstraktor adds to it.

  On an index past its commit index the leader first runs the instrumented block: it
  computes the last index, whether some index has a quorum, the greatest such index
  and the term there, and records them with its state, term and commit index for
  `trigger_block_event`.  It then commits the index if its term is the current one and
  more than half of the voters have replicated it.  The block's test counts
  `⌊nv/2⌋ + 1` voters where the commit counts more than `nv/2`, and it reads the term at
  the greatest quorum index where the commit reads it at the index committed.

  * `commit_with_term_raises`: what a commit needs of the term and the votes;
  * `replicationQuorum_block_ok`: the recorded values, when some index has a quorum;
  * `block_event_state_quorum_parameters`: a leader's recorded values are classified
    by `leader_block_state`.
-/
import Abstraktor.Lib.Counter
import Abstraktor.Raft.Progress
import Abstraktor.Runtime.Events

namespace Abstraktor.Raft

open Counter OrderStat Abstraktor.Runtime

/-- The values that the block event `logTerm END` of `replicationQuorum` records: the
    fields `r->19`, `r->6` and `r->16` of the annotation, then the block's variables
    `log`, `exists`, `max` and `logTerm`. -/
def quorum_block_parameters (r : raft) (log : ℕ) («exists» : Bool) (max : ℕ)
    (logTerm : ℕ) : List ℕ :=
  [r.state.toNat, r.current_term, r.commit_index, log, «exists».toNat, max, logTerm]

/-- The instrumented block of the leader, which ends in its block event. -/
def replicationQuorum_block (r : raft) : Except String (List ℕ) :=
  let log := logLastIndex r.log
  let «exists» := progressTestExistsOneIndexQuorum r
  let max := progressTestGetMaxIndexQuorum r
  (fun logTerm => quorum_block_parameters r log «exists» max logTerm) <$>
    (if «exists» then logTermOf r.log max else .ok 0)

/-- The voters whose match index reaches `index`. -/
def replication_votes (r : raft) (index : ℕ) : ℕ :=
  (List.range r.configuration.n).countP fun i =>
    is_voter r.configuration i && match_index_ge r i index

/-- The rest of `replicationQuorum` once the term of `index` is read. -/
def commit_with_term (r : raft) (index : ℕ) (term : ℕ) : Except String raft :=
  if term = 0 then .ok r
  else if r.current_term < term then .error "!(term > r->current_term)"
  else if term < r.current_term then .ok r
  else if configurationVoterCount r.configuration / 2 < replication_votes r index then
    .ok { r with commit_index := index }
  else .ok r

/-- The terms that `logTermOf` reads at the indexes 1 to the last never decrease and
    never pass `current_term`. -/
def log_terms_monotone (l : raft_log) (current_term : ℕ) : Prop :=
  (∀ i j ti tj, 1 ≤ i → i ≤ j → j ≤ logLastIndex l →
      logTermOf l i = .ok ti → logTermOf l j = .ok tj → ti ≤ tj) ∧
    ∀ i t, 1 ≤ i → i ≤ logLastIndex l → logTermOf l i = .ok t → t ≤ current_term

/-- `replicationQuorum`: the state after the call, with the values of its block event
    when the leader's block ran. -/
def replicationQuorum (r : raft) (index : ℕ) :
    Except String (raft × Option (List ℕ)) :=
  if r.state ≠ .RAFT_LEADER then .error "r->state == RAFT_LEADER"
  else if index ≤ r.commit_index then .ok (r, none)
  else do
    let parameters ← replicationQuorum_block r
    let term ← logTermOf r.log index
    let r' ← commit_with_term r index term
    pure (r', some parameters)

/-! ## Steps of the commit -/

/-- A call that moves the commit index ran the block and the rest on the entry state. -/
theorem replicationQuorum_ok_of_ne {r r' : raft} {index : ℕ}
    {parameters : Option (List ℕ)} (h : replicationQuorum r index = .ok (r', parameters))
    (hne : r'.commit_index ≠ r.commit_index) :
    r.state = .RAFT_LEADER ∧ ∃ ps term, parameters = some ps ∧
      replicationQuorum_block r = .ok ps ∧ logTermOf r.log index = .ok term ∧
      commit_with_term r index term = .ok r' := by
  unfold replicationQuorum at h
  by_cases hl : r.state = .RAFT_LEADER
  · rw [if_neg (not_not.2 hl)] at h
    by_cases hc : index ≤ r.commit_index
    · rw [if_pos hc] at h
      cases h
      exact absurd rfl hne
    · rw [if_neg hc] at h
      obtain ⟨ps, hps, h⟩ := bind_eq_ok_iff.1 h
      obtain ⟨term, hterm, h⟩ := bind_eq_ok_iff.1 h
      obtain ⟨r'', hr'', h⟩ := bind_eq_ok_iff.1 h
      obtain ⟨rfl, rfl⟩ := Prod.mk.inj (pure_eq_ok_iff.1 h)
      exact ⟨hl, ps, term, rfl, hps, hterm, hr''⟩
  · rw [if_pos hl] at h
    cases h

/-- **What a commit needs.**  The rest of the call moves the commit index only to
    `index`, on a non-zero term that is the current one, with more than half of the
    voters. -/
theorem commit_with_term_raises {r r' : raft} {index : ℕ} {term : ℕ}
    (h : commit_with_term r index term = .ok r') (hne : r'.commit_index ≠ r.commit_index) :
    term ≠ 0 ∧ term = r.current_term ∧
      configurationVoterCount r.configuration / 2 < replication_votes r index ∧
      r'.commit_index = index := by
  unfold commit_with_term at h
  -- every branch but the commit returns the state as it was
  by_cases h0 : term = 0
  · rw [if_pos h0] at h
    cases h
    exact absurd rfl hne
  rw [if_neg h0] at h
  by_cases hgt : r.current_term < term
  · rw [if_pos hgt] at h
    cases h
  rw [if_neg hgt] at h
  by_cases hlt : term < r.current_term
  · rw [if_pos hlt] at h
    cases h
    exact absurd rfl hne
  rw [if_neg hlt] at h
  by_cases hv : configurationVoterCount r.configuration / 2 < replication_votes r index
  · rw [if_pos hv] at h
    cases h
    exact ⟨h0, by omega, hv, rfl⟩
  · rw [if_neg hv] at h
    cases h
    exact absurd rfl hne

/-- The votes of the commit are the quorum test's count. -/
theorem replication_votes_eq (r : raft) (index : ℕ) :
    replication_votes r index = countGe (voter_match_indexes r) index :=
  count_voters_match_index_ge r index

/-- With some index in quorum, the block reads the term at the greatest one. -/
theorem replicationQuorum_block_ok {r : raft} {ps : List ℕ}
    (h : replicationQuorum_block r = .ok ps) (hex : progressTestExistsOneIndexQuorum r = true) :
    ∃ logTerm, logTermOf r.log (progressTestGetMaxIndexQuorum r) = .ok logTerm ∧
      ps = quorum_block_parameters r (logLastIndex r.log) true
        (progressTestGetMaxIndexQuorum r) logTerm := by
  unfold replicationQuorum_block at h
  simp only [hex, if_true] at h
  obtain ⟨logTerm, hterm, hps⟩ := map_eq_ok_iff.1 h
  exact ⟨logTerm, hterm, hps.symm⟩

/-- The values a leader records are classified as a leader's seven. -/
theorem block_event_state_quorum_parameters {r : raft} (hl : r.state = .RAFT_LEADER)
    (log : ℕ) («exists» : Bool) (max : ℕ) (logTerm : ℕ) :
    block_event_state (quorum_block_parameters r log «exists» max logTerm)
        (quorum_block_parameters r log «exists» max logTerm).length =
      leader_block_state r.current_term r.commit_index log «exists» logTerm := by
  cases «exists» <;>
    simp [block_event_state, quorum_block_parameters, hl, raft_state.toNat]

/-! ## The abstraction of a commit -/

/-- **A commit is recorded as a matching quorum.**  On a leader whose log terms never
    decrease and never pass its term, a call of `replicationQuorum` that raises the
    commit index to `index` started from a state where some index has a quorum, the
    greatest such index is at least `index` and carries the current term; so the
    block event of the call is classified as one of the two matching-quorum states. -/
theorem replicationQuorum_commit_matching_quorum {r r' : raft} {index : ℕ}
    {parameters : Option (List ℕ)} (hterms : log_terms_monotone r.log r.current_term)
    (hrun : replicationQuorum r index = .ok (r', parameters))
    (hraise : r.commit_index < index) (hcommit : r'.commit_index = index) :
    progressTestExistsOneIndexQuorum r = true ∧ index ≤ progressTestGetMaxIndexQuorum r ∧
      logTermOf r.log (progressTestGetMaxIndexQuorum r) = .ok r.current_term ∧
      ∃ ps, parameters = some ps ∧
        (block_event_state ps ps.length = "LeaderMatchingQuorumLogUpdated" ∨
          block_event_state ps ps.length = "LeaderMatchingQuorumNotLogUpdated") := by
  have hne : r'.commit_index ≠ r.commit_index := by omega
  obtain ⟨hl, ps, term, rfl, hblock, hterm, hrest⟩ := replicationQuorum_ok_of_ne hrun hne
  obtain ⟨h0, hterm_cur, hvotes, -⟩ := commit_with_term_raises hrest hne
  obtain ⟨hpos, hlast⟩ := le_logLastIndex_of_logTermOf hterm h0
  -- the commit's majority of votes is the block's quorum of voters
  have hq : has_index_quorum r index := by
    rw [has_index_quorum, ← replication_votes_eq]
    omega
  have hmax : index ≤ progressTestGetMaxIndexQuorum r := le_progressTestGetMaxIndexQuorum hlast hq
  have hmax_last := progressTestGetMaxIndexQuorum_le r
  have hex : progressTestExistsOneIndexQuorum r = true :=
    (progressTestExistsOneIndexQuorum_iff r).2 (by omega)
  obtain ⟨logTerm, hlogTerm, rfl⟩ := replicationQuorum_block_ok hblock hex
  -- the term at the quorum index lies between the committed term and the current one
  have hge : term ≤ logTerm := hterms.1 _ _ _ _ hpos hmax hmax_last hterm hlogTerm
  have hle : logTerm ≤ r.current_term := hterms.2 _ _ (by omega) hmax_last hlogTerm
  have heq : logTerm = r.current_term := by omega
  refine ⟨hex, hmax, heq ▸ hlogTerm, _, rfl, ?_⟩
  rw [block_event_state_quorum_parameters hl]
  exact (leader_block_state_matching _ _ _ _ _).2 ⟨rfl, heq⟩

/-- A leader of one voter, with one entry of its term replicated and not yet committed. -/
def single_voter_leader : raft where
  current_term := 1
  log := ⟨[⟨1⟩], 0, ⟨0, 0⟩, le_refl 0⟩
  configuration := ⟨[⟨.RAFT_VOTER⟩]⟩
  commit_index := 0
  state := .RAFT_LEADER
  progress := [⟨1⟩]
  progress_length := rfl

theorem single_voter_leader_log_terms :
    log_terms_monotone single_voter_leader.log single_voter_leader.current_term := by
  have hlast : logLastIndex single_voter_leader.log = 1 := rfl
  have hterm : logTermOf single_voter_leader.log 1 = .ok 1 := rfl
  constructor
  · intro i j ti tj hi hij hj hti htj
    obtain rfl : j = 1 := by omega
    obtain rfl : i = 1 := by omega
    rw [hterm] at hti htj
    cases hti
    cases htj
    exact le_rfl
  · intro i t hi hi' ht
    obtain rfl : i = 1 := by omega
    rw [hterm] at ht
    cases ht
    exact le_rfl

/-- The single voter commits its entry, and the block records a matching quorum. -/
theorem replicationQuorum_commit_single_voter :
    log_terms_monotone single_voter_leader.log single_voter_leader.current_term ∧
      replicationQuorum single_voter_leader 1 =
        .ok ({ single_voter_leader with commit_index := 1 }, some [3, 1, 0, 1, 1, 1, 1]) ∧
      progressTestExistsOneIndexQuorum single_voter_leader = true ∧
      1 ≤ progressTestGetMaxIndexQuorum single_voter_leader ∧
      logTermOf single_voter_leader.log (progressTestGetMaxIndexQuorum single_voter_leader) =
        .ok single_voter_leader.current_term ∧
      ∃ ps, some [3, 1, 0, 1, 1, 1, 1] = some ps ∧
        (block_event_state ps ps.length = "LeaderMatchingQuorumLogUpdated" ∨
          block_event_state ps ps.length = "LeaderMatchingQuorumNotLogUpdated") :=
  have hrun : replicationQuorum single_voter_leader 1 =
      .ok ({ single_voter_leader with commit_index := 1 }, some [3, 1, 0, 1, 1, 1, 1]) := rfl
  ⟨single_voter_leader_log_terms, hrun,
    replicationQuorum_commit_matching_quorum single_voter_leader_log_terms hrun
      (by decide) rfl⟩

end Abstraktor.Raft
