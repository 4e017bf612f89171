/-
  The watermarks of the feedback manager (`FeedbackManager`,
  src/mallory/mediator/src/feedback/mod.rs).

  With every batch a node submits a watermark: it sends no more events from
  before that time.  Batches carry sequence numbers and may arrive out of order,
  so a submission waits in `unprocessed_submissions`, ordered by node and
  sequence number, until it is at most one past the node's last processed
  sequence number; `process_watermarks` then applies it, raises the node's
  `will_not_receive_events_before`, and hands the new watermark to the timeline.

  * `apply_submission` is one turn of the pass of `process_watermarks`, and
    `Pass.apply` what it does to a submission it applies;
  * `submitted_all_before` adds a submission and runs the pass; the Jepsen and
    nemesis submissions are submissions of sequence number 0;
  * `submit_initial_sequence_number` raises the node's last processed number;
  * the state keeps, as ghost, the submissions applied so far.

  Timestamps of node `n` are those of its own clock (the three callers build them
  with source `n`), so they are numbers here.
-/
import Abstraktor.Lib.Counter
import Abstraktor.Lib.SortedMap
import Mathlib

namespace Abstraktor.Mediator

/-- `JEPSEN_NODE_ID`. -/
def JEPSEN_NODE_ID : ℕ := 0

/-- The key of a waiting submission, node and sequence number, ordered as the
    `BTreeMap` orders its pairs: lexicographically. -/
abbrev SubmissionKey := ℕ ×ₗ ℕ

/-- The watermark state of the feedback manager. -/
structure Watermarks where
  will_not_receive_events_before : ℕ → Option ℕ
  last_processed_seq_num : ℕ → Option ℕ
  unprocessed_submissions : SortedMap SubmissionKey ℕ
  nemesis_node_id : ℕ
  /-- Ghost: the submissions applied so far, in order. -/
  applied : List (SubmissionKey × ℕ)

/-- The locals of the pass of `process_watermarks`. -/
structure Pass where
  last_processed_seq_num : ℕ → Option ℕ
  will_not_receive_events_before : ℕ → Option ℕ
  /-- `have`: the new watermarks, for the timeline. -/
  haves : List (ℕ × ℕ)
  to_remove : List (ℕ × ℕ)
  /-- Ghost: the submissions the pass applied. -/
  applied : List (SubmissionKey × ℕ)

/-- Which `assert!` of `process_watermarks` fails. -/
inductive WatermarkPanic
  | last_processed_missing
  | watermark_missing
deriving DecidableEq, Repr

/-- `new`: a zero watermark for each of `node_ids`, the ids it gives the Jepsen
    process, the nodes and the nemesis. -/
def Watermarks.new (node_ids : List ℕ) (nemesis_node_id : ℕ) : Watermarks :=
  ⟨fun n => if n ∈ node_ids then some 0 else none, fun _ => none, SortedMap.empty,
    nemesis_node_id, []⟩

/-- A submission applied: the node's last processed number becomes the greater of it
    and the submission's, its watermark the greater of the two times, the new
    watermark is handed on and the key removed after the pass. -/
def Pass.apply (p : Pass) (e : SubmissionKey × ℕ) (lp old_ts : ℕ) : Pass where
  last_processed_seq_num :=
    Function.update p.last_processed_seq_num (ofLex e.1).1 (some (max (ofLex e.1).2 lp))
  will_not_receive_events_before :=
    Function.update p.will_not_receive_events_before (ofLex e.1).1 (some (max e.2 old_ts))
  haves := p.haves ++ [((ofLex e.1).1, max e.2 old_ts)]
  to_remove := p.to_remove ++ [ofLex e.1]
  applied := p.applied ++ [e]

/-- One turn of the pass, at the submission `(node_id, seq_num) ↦ sub_ts`. -/
def apply_submission (p : Pass) (e : SubmissionKey × ℕ) : Except WatermarkPanic Pass :=
  let node_id := (ofLex e.1).1
  let seq_num := (ofLex e.1).2
  -- `entry(node_id).or_insert(seq_num)`: a node's first submission can be applied
  let lp := (p.last_processed_seq_num node_id).getD seq_num
  let p := { p with
    last_processed_seq_num := Function.update p.last_processed_seq_num node_id (some lp) }
  if seq_num ≤ lp ∨ seq_num = lp + 1 then
    match p.last_processed_seq_num node_id, p.will_not_receive_events_before node_id with
    | none, _ => .error .last_processed_missing
    | some _, none => .error .watermark_missing
    | some old, some old_ts => .ok (p.apply e old old_ts)
  else .ok p

/-- The pass over the waiting submissions, in key order. -/
def watermark_pass (st : Watermarks) : Except WatermarkPanic Pass :=
  st.unprocessed_submissions.toList.foldlM apply_submission
    ⟨st.last_processed_seq_num, st.will_not_receive_events_before, [], [], []⟩

/-- `process_watermarks`: the pass, then the applied submissions removed; with the
    watermarks handed to `timeline.have_events_before`. -/
def process_watermarks (st : Watermarks) :
    Except WatermarkPanic (Watermarks × List (ℕ × ℕ)) := do
  let p ← watermark_pass st
  pure (⟨p.will_not_receive_events_before, p.last_processed_seq_num,
    p.to_remove.foldl (fun m r => m.erase (toLex r)) st.unprocessed_submissions,
    st.nemesis_node_id, st.applied ++ p.applied⟩, p.haves)

/-- `submitted_all_before`: the submission waits, replacing one of the same key, and
    the pass runs. -/
def submitted_all_before (st : Watermarks) (node_id seq_num new_ts : ℕ) :
    Except WatermarkPanic (Watermarks × List (ℕ × ℕ)) :=
  process_watermarks { st with
    unprocessed_submissions := st.unprocessed_submissions.insert (toLex (node_id, seq_num)) new_ts }

def jepsen_submitted_all_before (st : Watermarks) (ts : ℕ) :
    Except WatermarkPanic (Watermarks × List (ℕ × ℕ)) :=
  submitted_all_before st JEPSEN_NODE_ID 0 ts

/-- `nemesis_submitted_all_before`, at the time of the nemesis clock. -/
def nemesis_submitted_all_before (st : Watermarks) (rel_ts : ℕ) :
    Except WatermarkPanic (Watermarks × List (ℕ × ℕ)) :=
  submitted_all_before st st.nemesis_node_id 0 rel_ts

/-- `submit_initial_sequence_number`: the node's last processed number becomes at
    least `seq_num`. -/
def submit_initial_sequence_number (st : Watermarks) (node_id seq_num : ℕ) : Watermarks :=
  let lp := (st.last_processed_seq_num node_id).getD seq_num
  { st with
    last_processed_seq_num :=
      Function.update st.last_processed_seq_num node_id (some (max seq_num lp)) }

/-- The calls that move the watermarks. -/
inductive WatermarkCall
  | initial (node_id seq_num : ℕ)
  | submitted (node_id seq_num new_ts : ℕ)
  | jepsen (ts : ℕ)
  | nemesis (rel_ts : ℕ)
deriving DecidableEq, Repr

/-- The node a call is about. -/
def WatermarkCall.node (nemesis_node_id : ℕ) : WatermarkCall → ℕ
  | .initial n _ => n
  | .submitted n _ _ => n
  | .jepsen _ => JEPSEN_NODE_ID
  | .nemesis _ => nemesis_node_id

/-- One call, with the watermarks it hands to the timeline. -/
def watermark_step (st : Watermarks) : WatermarkCall →
    Except WatermarkPanic (Watermarks × List (ℕ × ℕ))
  | .initial n s => .ok (submit_initial_sequence_number st n s, [])
  | .submitted n s ts => submitted_all_before st n s ts
  | .jepsen ts => jepsen_submitted_all_before st ts
  | .nemesis ts => nemesis_submitted_all_before st ts

/-- A run of calls, with all the watermarks handed to the timeline, in order. -/
def watermark_run (st : Watermarks) : List WatermarkCall →
    Except WatermarkPanic (Watermarks × List (ℕ × ℕ))
  | [] => .ok (st, [])
  | c :: cs => do
    let (st, h) ← watermark_step st c
    let (st, h') ← watermark_run st cs
    pure (st, h ++ h')

/-! ## One turn of the pass -/

section Turn

variable {p p' : Pass} {e : SubmissionKey × ℕ}

/-- The number the turn compares with: the node's last processed number, or the
    submission's own for a node without one. -/
def Pass.last (p : Pass) (e : SubmissionKey × ℕ) : ℕ :=
  (p.last_processed_seq_num (ofLex e.1).1).getD (ofLex e.1).2

theorem apply_submission_ready {w : ℕ} (hr : (ofLex e.1).2 ≤ p.last e + 1)
    (hw : p.will_not_receive_events_before (ofLex e.1).1 = some w) :
    apply_submission p e = .ok (p.apply e (p.last e) w) := by
  unfold Pass.last at hr ⊢
  have hr' : (ofLex e.1).2 ≤ (p.last_processed_seq_num (ofLex e.1).1).getD (ofLex e.1).2 ∨
      (ofLex e.1).2 = (p.last_processed_seq_num (ofLex e.1).1).getD (ofLex e.1).2 + 1 := by omega
  simp only [apply_submission, Function.update_self, hw, if_pos hr']
  -- the entry `or_insert` writes is overwritten by the update of the applied branch
  simp only [Pass.apply, Function.update_idem]

theorem apply_submission_unready (hr : p.last e + 1 < (ofLex e.1).2) :
    apply_submission p e = .ok p := by
  unfold Pass.last at hr
  -- a node without a number would compare with the submission's own, and be ready
  obtain ⟨lp, hlp⟩ : ∃ lp, p.last_processed_seq_num (ofLex e.1).1 = some lp := by
    cases h : p.last_processed_seq_num (ofLex e.1).1 with
    | none =>
      rw [h, Option.getD_none] at hr
      omega
    | some lp => exact ⟨lp, rfl⟩
  have hr' : ¬((ofLex e.1).2 ≤ (p.last_processed_seq_num (ofLex e.1).1).getD (ofLex e.1).2 ∨
      (ofLex e.1).2 = (p.last_processed_seq_num (ofLex e.1).1).getD (ofLex e.1).2 + 1) := by
    omega
  simp only [apply_submission, if_neg hr']
  rw [hlp, Option.getD_some, ← hlp, Function.update_eq_self]

/-- **What a turn does.**  A submission at most one past the node's number is applied,
    at the node's watermark; any other leaves the pass as it was. -/
theorem apply_submission_eq_ok (h : apply_submission p e = .ok p') :
    ((ofLex e.1).2 ≤ p.last e + 1 ∧ ∃ w, p.will_not_receive_events_before (ofLex e.1).1 = some w ∧
      p' = p.apply e (p.last e) w) ∨
    (p.last e + 1 < (ofLex e.1).2 ∧ p' = p) := by
  by_cases hr : (ofLex e.1).2 ≤ p.last e + 1
  · cases hw : p.will_not_receive_events_before (ofLex e.1).1 with
    | none =>
      -- the second assertion fails
      have hr' : (ofLex e.1).2 ≤ (p.last_processed_seq_num (ofLex e.1).1).getD (ofLex e.1).2 ∨
          (ofLex e.1).2 = (p.last_processed_seq_num (ofLex e.1).1).getD (ofLex e.1).2 + 1 := by
        unfold Pass.last at hr
        omega
      simp [apply_submission, hw, if_pos hr'] at h
    | some w =>
      rw [apply_submission_ready hr hw, Except.ok.injEq] at h
      exact Or.inl ⟨hr, w, rfl, h.symm⟩
  · rw [apply_submission_unready (by omega), Except.ok.injEq] at h
    exact Or.inr ⟨by omega, h.symm⟩

/-- A turn at another node leaves the node's number as it was. -/
theorem apply_submission_last_processed_of_ne {n : ℕ} (h : apply_submission p e = .ok p')
    (hn : (ofLex e.1).1 ≠ n) : p'.last_processed_seq_num n = p.last_processed_seq_num n := by
  rcases apply_submission_eq_ok h with ⟨-, w, -, rfl⟩ | ⟨-, rfl⟩
  · exact Function.update_of_ne (Ne.symm hn) _ _
  · rfl

end Turn

/-! ## The pass -/

/-- The pass marks keys for removal, and never unmarks one. -/
theorem foldlM_to_remove {l : List (SubmissionKey × ℕ)} {p p' : Pass}
    (h : l.foldlM apply_submission p = .ok p') : p.to_remove <+: p'.to_remove :=
  Counter.foldlM_inv (fun q : Pass => p.to_remove <+: q.to_remove) (fun q e q' _ hq hstep => by
    rcases apply_submission_eq_ok hstep with ⟨-, w, -, rfl⟩ | ⟨-, rfl⟩
    · exact hq.trans (List.prefix_append _ _)
    · exact hq) (List.prefix_refl _) h

/-- Frame of the pass: a node whose later submissions are all more than one past its
    number keeps its number. -/
theorem foldlM_last_processed {n lv : ℕ} {l : List (SubmissionKey × ℕ)} {p p' : Pass}
    (hp : p.last_processed_seq_num n = some lv)
    (hl : ∀ e ∈ l, (ofLex e.1).1 = n → lv + 1 < (ofLex e.1).2)
    (h : l.foldlM apply_submission p = .ok p') : p'.last_processed_seq_num n = some lv :=
  Counter.foldlM_inv (fun q : Pass => q.last_processed_seq_num n = some lv)
    (fun q (e : SubmissionKey × ℕ) q' he hq hstep => by
    by_cases hn : (ofLex e.1).1 = n
    · -- the node's own submission is not ready
      have hlast : q.last e = lv := by rw [Pass.last, hn, hq, Option.getD_some]
      rw [apply_submission_unready (by rw [hlast]; exact hl e he hn), Except.ok.injEq] at hstep
      rw [← hstep, hq]
    · rw [apply_submission_last_processed_of_ne hstep hn, hq]) hp h

/-- **What the pass leaves.**  Over submissions in key order, a submission the pass
    does not mark for removal is more than one past its node's final number. -/
theorem foldlM_unready :
    ∀ (l : List (SubmissionKey × ℕ)) (p p' : Pass), l.Pairwise (·.1 < ·.1) →
      l.foldlM apply_submission p = .ok p' →
        ∀ e ∈ l, ofLex e.1 ∉ p'.to_remove →
          ∃ lv, p'.last_processed_seq_num (ofLex e.1).1 = some lv ∧ lv + 1 < (ofLex e.1).2
  | [], _, _, _, _, e, he, _ => absurd he List.not_mem_nil
  | e :: l, p, p', hsorted, h, e', he', hrem => by
    rw [List.pairwise_cons] at hsorted
    rw [List.foldlM_cons] at h
    obtain ⟨p₁, h₁, h'⟩ := Counter.bind_eq_ok_iff.1 h
    rcases List.mem_cons.1 he' with rfl | he'
    · rcases apply_submission_eq_ok h₁ with ⟨-, w, -, rfl⟩ | ⟨hr, hp₁⟩
      · -- applied: its key is marked, and stays marked
        exact absurd ((foldlM_to_remove h').subset (by simp [Pass.apply])) hrem
      · -- not ready: its node's later submissions have greater numbers, and wait too
        rw [hp₁] at h'
        obtain ⟨lv, hlv⟩ : ∃ lv, p.last_processed_seq_num (ofLex e'.1).1 = some lv := by
          cases hc : p.last_processed_seq_num (ofLex e'.1).1 with
          | none =>
            rw [Pass.last, hc, Option.getD_none] at hr
            omega
          | some lv => exact ⟨lv, rfl⟩
        have hlast : p.last e' = lv := by rw [Pass.last, hlv, Option.getD_some]
        refine ⟨lv, foldlM_last_processed hlv (fun e'' he'' hn => ?_) h', by omega⟩
        have hlt := Prod.Lex.lt_iff.1 (hsorted.1 e'' he'')
        omega
    · exact foldlM_unready l p₁ p' hsorted.2 h' e' he' hrem

/-- **After a pass nothing waits that could be applied.**  Every submission still
    waiting is more than one past its node's last processed number. -/
theorem process_watermarks_unready {st st' : Watermarks} {h : List (ℕ × ℕ)}
    (hp : process_watermarks st = .ok (st', h)) :
    ∀ k ∈ st'.unprocessed_submissions.keys,
      ∃ lv, st'.last_processed_seq_num (ofLex k).1 = some lv ∧ lv + 1 < (ofLex k).2 := by
  obtain ⟨p, hpass, hres⟩ := Counter.bind_eq_ok_iff.1 hp
  obtain ⟨rfl, -⟩ := Prod.mk.inj (Counter.pure_eq_ok_iff.1 hres)
  intro k hk
  obtain ⟨v, hv⟩ := Option.isSome_iff_exists.1 (SortedMap.mem_keys.1 hk)
  rw [SortedMap.get?_foldl_erase] at hv
  split_ifs at hv with hrem
  exact foldlM_unready _ _ p st.unprocessed_submissions.sorted hpass (k, v)
    (SortedMap.mem_toList.2 hv) fun hk' => hrem (List.mem_map.2 ⟨ofLex k, hk', rfl⟩)

/-! ## The watermarks along a run -/

/-- The times of the applied submissions of node `n`. -/
def applied_times (n : ℕ) (applied : List (SubmissionKey × ℕ)) : List ℕ :=
  applied.filterMap fun e => if (ofLex e.1).1 = n then some e.2 else none

/-- The watermarks handed on for node `n`. -/
def node_haves (n : ℕ) (haves : List (ℕ × ℕ)) : List ℕ :=
  haves.filterMap fun h => if h.1 = n then some h.2 else none

theorem applied_times_append_singleton (n : ℕ) (applied : List (SubmissionKey × ℕ))
    (e : SubmissionKey × ℕ) :
    applied_times n (applied ++ [e]) =
      applied_times n applied ++ if (ofLex e.1).1 = n then [e.2] else [] := by
  by_cases hn : (ofLex e.1).1 = n <;> simp [applied_times, hn]

theorem node_haves_append_singleton (n : ℕ) (haves : List (ℕ × ℕ)) (h : ℕ × ℕ) :
    node_haves n (haves ++ [h]) = node_haves n haves ++ if h.1 = n then [h.2] else [] := by
  by_cases hn : h.1 = n <;> simp [node_haves, hn]

/-- The greatest of zero and the times of the applied submissions of node `n`. -/
def watermark_of (n : ℕ) (applied : List (SubmissionKey × ℕ)) : ℕ :=
  (applied_times n applied).foldl max 0

theorem watermark_of_append_singleton (n : ℕ) (applied : List (SubmissionKey × ℕ))
    (e : SubmissionKey × ℕ) :
    watermark_of n (applied ++ [e]) =
      if (ofLex e.1).1 = n then max (watermark_of n applied) e.2 else watermark_of n applied := by
  by_cases hn : (ofLex e.1).1 = n <;> simp [watermark_of, applied_times_append_singleton, hn]

/-- The invariant of the runs, over the watermarks, the watermarks handed on and the
    applied submissions: the registered nodes have a watermark, the greatest of zero and
    the times of their applied submissions, and what was handed on for a node goes up
    and stays below its watermark. -/
structure WatermarkInv (node_ids : List ℕ) (wnr : ℕ → Option ℕ) (haves : List (ℕ × ℕ))
    (applied : List (SubmissionKey × ℕ)) : Prop where
  watermark : ∀ n, wnr n = if n ∈ node_ids then some (watermark_of n applied) else none
  haves_sorted : ∀ n, (node_haves n haves).Pairwise (· ≤ ·)
  haves_le : ∀ n, ∀ v ∈ node_haves n haves, v ≤ watermark_of n applied

section Invariant

variable {node_ids : List ℕ} {H : List (ℕ × ℕ)} {A : List (SubmissionKey × ℕ)}

theorem WatermarkInv.of_some {wnr : ℕ → Option ℕ} (hinv : WatermarkInv node_ids wnr H A)
    {n w : ℕ} (hw : wnr n = some w) : n ∈ node_ids ∧ w = watermark_of n A := by
  rw [hinv.watermark n] at hw
  by_cases hn : n ∈ node_ids
  · rw [if_pos hn, Option.some.injEq] at hw
    exact ⟨hn, hw.symm⟩
  · rw [if_neg hn] at hw
    cases hw

/-- **Step lemma.**  Applying a submission keeps the invariant. -/
theorem WatermarkInv.apply {p : Pass} {e : SubmissionKey × ℕ} {w : ℕ} (lp : ℕ)
    (hinv : WatermarkInv node_ids p.will_not_receive_events_before (H ++ p.haves)
      (A ++ p.applied))
    (hw : p.will_not_receive_events_before (ofLex e.1).1 = some w) :
    WatermarkInv node_ids (p.apply e lp w).will_not_receive_events_before
      (H ++ (p.apply e lp w).haves) (A ++ (p.apply e lp w).applied) := by
  obtain ⟨hreg, rfl⟩ := hinv.of_some hw
  simp only [Pass.apply, ← List.append_assoc]
  refine ⟨fun n => ?_, fun n => ?_, fun n v hv => ?_⟩
  · -- the node's watermark takes the new time in; the others keep theirs
    rw [watermark_of_append_singleton]
    by_cases he : (ofLex e.1).1 = n
    · rw [if_pos he, ← he, Function.update_self, if_pos hreg, max_comm]
    · rw [if_neg he, Function.update_of_ne (Ne.symm he), hinv.watermark n]
  · rw [node_haves_append_singleton]
    by_cases he : (ofLex e.1).1 = n
    · -- the new watermark is above all that was handed on for the node
      rw [if_pos he, List.pairwise_append]
      refine ⟨hinv.haves_sorted n, List.pairwise_singleton _ _, fun a ha b hb => ?_⟩
      subst he
      rw [List.mem_singleton.1 hb]
      exact le_trans (hinv.haves_le _ a ha) (le_max_right _ _)
    · rw [if_neg he, List.append_nil]
      exact hinv.haves_sorted n
  · rw [node_haves_append_singleton] at hv
    rw [watermark_of_append_singleton]
    by_cases he : (ofLex e.1).1 = n
    · rw [if_pos he] at hv ⊢
      rcases List.mem_append.1 hv with hv | hv
      · exact le_trans (hinv.haves_le n v hv) (le_max_left _ _)
      · rw [List.mem_singleton.1 hv, ← he, max_comm]
    · rw [if_neg he, List.append_nil] at hv
      rw [if_neg he]
      exact hinv.haves_le n v hv

/-- **The pass keeps the invariant**, and over submissions of registered nodes it
    does not panic. -/
theorem pass_inv {l : List (SubmissionKey × ℕ)} {p : Pass}
    (hl : ∀ e ∈ l, (ofLex e.1).1 ∈ node_ids)
    (hinv : WatermarkInv node_ids p.will_not_receive_events_before (H ++ p.haves) (A ++ p.applied)) :
    ∃ p', l.foldlM apply_submission p = .ok p' ∧
      WatermarkInv node_ids p'.will_not_receive_events_before (H ++ p'.haves) (A ++ p'.applied) :=
  Counter.foldlM_exists
    (fun q : Pass =>
      WatermarkInv node_ids q.will_not_receive_events_before (H ++ q.haves) (A ++ q.applied))
    (fun q (e : SubmissionKey × ℕ) he hq => by
      -- a registered node has a watermark, so the second assertion holds
      have hw := hq.watermark (ofLex e.1).1
      rw [if_pos (hl e he)] at hw
      by_cases hr : (ofLex e.1).2 ≤ q.last e + 1
      · exact ⟨_, apply_submission_ready hr hw, hq.apply (q.last e) hw⟩
      · exact ⟨q, apply_submission_unready (by omega), hq⟩) hinv

/-- The invariant of the state of the feedback manager, with the watermarks handed on
    so far: that of the runs, and every waiting submission is of a registered node. -/
structure WatermarksInv (node_ids : List ℕ) (st : Watermarks) (haves : List (ℕ × ℕ)) :
    Prop where
  inv : WatermarkInv node_ids st.will_not_receive_events_before haves st.applied
  waiting : ∀ k ∈ st.unprocessed_submissions.keys, (ofLex k).1 ∈ node_ids

theorem WatermarksInv.new (node_ids : List ℕ) (nemesis_node_id : ℕ) :
    WatermarksInv node_ids (Watermarks.new node_ids nemesis_node_id) [] where
  inv := ⟨fun n => rfl, fun n => List.Pairwise.nil, fun n v hv => by simp [node_haves] at hv⟩
  waiting := fun k hk => by simp [SortedMap.keys, SortedMap.empty, Watermarks.new] at hk

/-- `process_watermarks` keeps the invariant and does not panic. -/
theorem process_watermarks_inv {st : Watermarks} (hinv : WatermarksInv node_ids st H) :
    ∃ st' h, process_watermarks st = .ok (st', h) ∧ WatermarksInv node_ids st' (H ++ h) ∧
      st'.nemesis_node_id = st.nemesis_node_id := by
  have hl : ∀ e ∈ st.unprocessed_submissions.toList, (ofLex e.1).1 ∈ node_ids :=
    fun e he => hinv.waiting e.1 (List.mem_map_of_mem he)
  have hinv₀ : WatermarkInv node_ids st.will_not_receive_events_before (H ++ [])
      (st.applied ++ []) := by
    simpa only [List.append_nil] using hinv.inv
  obtain ⟨p, hpass, hinv'⟩ := pass_inv (H := H) (A := st.applied)
    (p := ⟨st.last_processed_seq_num, st.will_not_receive_events_before, [], [], []⟩) hl hinv₀
  have hpass' : watermark_pass st = .ok p := hpass
  refine ⟨⟨p.will_not_receive_events_before, p.last_processed_seq_num,
    p.to_remove.foldl (fun m r => m.erase (toLex r)) st.unprocessed_submissions,
    st.nemesis_node_id, st.applied ++ p.applied⟩, p.haves,
    by rw [process_watermarks, hpass', Counter.ok_bind]; rfl, ⟨hinv', fun k hk => ?_⟩, rfl⟩
  -- what still waits was waiting before the pass
  obtain ⟨v, hv⟩ := Option.isSome_iff_exists.1 (SortedMap.mem_keys.1 hk)
  rw [SortedMap.get?_foldl_erase] at hv
  split_ifs at hv
  exact hinv.waiting k (SortedMap.mem_keys.2 (by rw [hv]; rfl))

/-- **Step lemma of the runs.**  A call about a registered node keeps the invariant and
    does not panic. -/
theorem watermark_step_inv {st : Watermarks} (hinv : WatermarksInv node_ids st H)
    {c : WatermarkCall} (hc : c.node st.nemesis_node_id ∈ node_ids) :
    ∃ st' h, watermark_step st c = .ok (st', h) ∧ WatermarksInv node_ids st' (H ++ h) ∧
      st'.nemesis_node_id = st.nemesis_node_id := by
  -- a submission of a registered node waits, then the pass runs
  have hsub : ∀ n s ts, n ∈ node_ids → ∃ st' h, submitted_all_before st n s ts = .ok (st', h) ∧
      WatermarksInv node_ids st' (H ++ h) ∧ st'.nemesis_node_id = st.nemesis_node_id :=
    fun n s ts hn => process_watermarks_inv ⟨hinv.inv, fun k hk => by
      rcases SortedMap.mem_keys_insert.1 hk with rfl | hk
      · exact hn
      · exact hinv.waiting k hk⟩
  cases c with
  | initial n s =>
    refine ⟨_, [], rfl, ?_, rfl⟩
    rw [List.append_nil]
    exact ⟨hinv.inv, hinv.waiting⟩
  | submitted n s ts => exact hsub n s ts hc
  | jepsen ts => exact hsub JEPSEN_NODE_ID 0 ts hc
  | nemesis ts => exact hsub st.nemesis_node_id 0 ts hc

/-- **Run lemma.**  A run of calls about registered nodes keeps the invariant and does
    not panic. -/
theorem watermark_run_inv :
    ∀ (calls : List WatermarkCall) (st : Watermarks) (H : List (ℕ × ℕ)),
      WatermarksInv node_ids st H → (∀ c ∈ calls, c.node st.nemesis_node_id ∈ node_ids) →
        ∃ st' h, watermark_run st calls = .ok (st', h) ∧ WatermarksInv node_ids st' (H ++ h)
  | [], st, H, hinv, _ => ⟨st, [], rfl, by rwa [List.append_nil]⟩
  | c :: calls, st, H, hinv, hc => by
    obtain ⟨st₁, h₁, hstep, hinv₁, hnem⟩ := watermark_step_inv hinv (hc c List.mem_cons_self)
    obtain ⟨st', h', hrun, hinv'⟩ := watermark_run_inv calls st₁ (H ++ h₁) hinv₁
      fun c' hc' => hnem ▸ hc c' (List.mem_cons_of_mem _ hc')
    refine ⟨st', h₁ ++ h', ?_, by rwa [← List.append_assoc]⟩
    simp only [watermark_run, hstep, hrun, Counter.ok_bind]
    rfl

end Invariant

/-- **Watermark sequencing.**  After every submission, nothing waits that could be
    applied; a turn of the pass applies a submission only at most one past its node's
    number, which it then raises to at most one more, and otherwise changes nothing;
    and along every run from `new` whose calls are about registered nodes, no assertion
    fails, each node's watermark is the greatest of zero and the times of its applied
    submissions, and the watermarks handed to the timeline for a node never go down. -/
theorem watermark_sequencing :
    (∀ (st st' : Watermarks) (n s ts : ℕ) (h : List (ℕ × ℕ)),
      submitted_all_before st n s ts = .ok (st', h) →
        ∀ k ∈ st'.unprocessed_submissions.keys,
          ∃ lv, st'.last_processed_seq_num (ofLex k).1 = some lv ∧ lv + 1 < (ofLex k).2) ∧
    (∀ (p p' : Pass) (e : SubmissionKey × ℕ), apply_submission p e = .ok p' →
      ((ofLex e.1).2 ≤ p.last e + 1 ∧
        p'.last_processed_seq_num (ofLex e.1).1 = some (max (ofLex e.1).2 (p.last e)) ∧
        p'.applied = p.applied ++ [e]) ∨ p' = p) ∧
    (∀ (node_ids : List ℕ) (nemesis_node_id : ℕ) (calls : List WatermarkCall),
      (∀ c ∈ calls, c.node nemesis_node_id ∈ node_ids) →
        ∃ st haves, watermark_run (Watermarks.new node_ids nemesis_node_id) calls = .ok (st, haves) ∧
          (∀ n ∈ node_ids,
            st.will_not_receive_events_before n = some (watermark_of n st.applied)) ∧
          ∀ n, (node_haves n haves).Pairwise (· ≤ ·)) := by
  refine ⟨fun st st' n s ts h hs => process_watermarks_unready hs, fun p p' e h => ?_,
    fun node_ids nemesis_node_id calls hc => ?_⟩
  · rcases apply_submission_eq_ok h with ⟨hr, w, -, rfl⟩ | ⟨-, rfl⟩
    · exact Or.inl ⟨hr, Function.update_self _ _ _, rfl⟩
    · exact Or.inr rfl
  · obtain ⟨st, haves, hrun, hinv⟩ :=
      watermark_run_inv calls _ [] (WatermarksInv.new node_ids nemesis_node_id) hc
    refine ⟨st, haves, hrun, fun n hn => ?_, hinv.inv.haves_sorted⟩
    rw [hinv.inv.watermark n, if_pos hn]

/-- A node's out-of-order batch waits for the one before it: the watermarks of the two
    are handed on in order once both are in. -/
theorem watermark_sequencing_reorder :
    (∀ c ∈ [WatermarkCall.initial 1 0, .submitted 1 2 20, .submitted 1 1 10, .jepsen 5],
      c.node 2 ∈ [0, 1, 2]) ∧
    ∃ st haves, watermark_run (Watermarks.new [0, 1, 2] 2)
        [.initial 1 0, .submitted 1 2 20, .submitted 1 1 10, .jepsen 5] = .ok (st, haves) ∧
      (∀ n ∈ [0, 1, 2], st.will_not_receive_events_before n = some (watermark_of n st.applied)) ∧
      ∀ n, (node_haves n haves).Pairwise (· ≤ ·) :=
  have hc : ∀ c ∈ [WatermarkCall.initial 1 0, .submitted 1 2 20, .submitted 1 1 10, .jepsen 5],
      c.node 2 ∈ [0, 1, 2] := by decide
  ⟨hc, watermark_sequencing.2.2 [0, 1, 2] 2 _ hc⟩

end Abstraktor.Mediator
