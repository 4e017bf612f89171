/-
  Runs of calls on the circular log of log.c (src/SUT/dqlite/dqlite-raft/src/log.c): the
  calls of log.h that change the log, made one after the other, and what each does to
  the list log that the log stands for (`LogRefine`).

  * `LogCall`, `logStep`, `logRun`: the calls, and a run of them from a log;
  * `LogSpec.Step`, `LogSpec.Run`: the same calls on the list log;
  * `logStep_spec`, `logRun_spec`: a call that succeeds keeps the shape of the log and is
    a step of the list log;
  * `logRun_refines`: every run from `logInit` that succeeds is a run of the list log, and
    `logTermOf` reads the terms of that list log.
-/
import Mathlib
import Abstraktor.Lib.Counter
import Abstraktor.Raft.LogRefine

namespace Abstraktor.Raft.Circular

open CircularBuffer Counter

/-- The calls of log.h that change the log. -/
inductive LogCall
  | append (term type : ℕ) (buf : List UInt8)
  | appendCommands (term : ℕ) (bufs : List (List UInt8))
  | truncate (index : ℕ)
  | discard (index : ℕ)
  | snapshot (last_index trailing : ℕ)
  | restore (last_index last_term : ℕ)
  | start (snapshot_index snapshot_term start_index : ℕ)
  deriving DecidableEq, Repr

/-- A call on the log; the entries that a call frees are left aside. -/
def logStep (l : raft_log) : LogCall → Except String raft_log
  | .append term type buf => logAppend l term type buf
  | .appendCommands term bufs => logAppendCommands l term bufs
  | .truncate index => Prod.fst <$> logTruncate l index
  | .discard index => logDiscard l index
  | .snapshot last_index trailing => Prod.fst <$> logSnapshot l last_index trailing
  | .restore last_index last_term => Prod.fst <$> logRestore l last_index last_term
  | .start snapshot_index snapshot_term start_index =>
    logStart l snapshot_index snapshot_term start_index

/-- Calls made one after the other. -/
def logRun (l : raft_log) (calls : List LogCall) : Except String raft_log :=
  calls.foldlM logStep l

namespace LogSpec

/-- What a call does to the list log: a snapshot is taken at the term that `logTermOf`
    reads. -/
inductive Step : LogSpec → LogCall → LogSpec → Prop
  | append (L : LogSpec) (term type : ℕ) (buf : List UInt8) :
      Step L (.append term type buf) (L.append ⟨term, type, buf⟩)
  | appendCommands (L : LogSpec) (term : ℕ) (bufs : List (List UInt8)) :
      Step L (.appendCommands term bufs)
        { L with entries := L.entries ++ bufs.map fun buf => ⟨term, RAFT_COMMAND, buf⟩ }
  | truncate (L : LogSpec) (index : ℕ) : Step L (.truncate index) (L.truncate index)
  | discard (L : LogSpec) (index : ℕ) : Step L (.discard index) (L.truncate index)
  | snapshot (L : LogSpec) (last_index trailing last_term : ℕ)
      (h : L.offset ≤ L.snapshot.last_index)
      (hterm : Raft.logTermOf (L.toLog h) last_index = .ok last_term) (hne : last_term ≠ 0) :
      Step L (.snapshot last_index trailing) (L.takeSnapshot last_index trailing last_term)
  | restore (L : LogSpec) (last_index last_term : ℕ) :
      Step L (.restore last_index last_term) (restore last_index last_term)
  | start (L : LogSpec) (snapshot_index snapshot_term start_index : ℕ) :
      Step L (.start snapshot_index snapshot_term start_index)
        (L.start snapshot_index snapshot_term start_index)

/-- Calls made one after the other on the list log. -/
inductive Run : LogSpec → List LogCall → LogSpec → Prop
  | nil (L : LogSpec) : Run L [] L
  | cons {L L₁ L₂ : LogSpec} {call : LogCall} {calls : List LogCall} :
      Step L call L₁ → Run L₁ calls L₂ → Run L (call :: calls) L₂

end LogSpec

section Runs

variable {l l' : raft_log}

/-- **Every call that succeeds is a step of the list log**, and keeps the shape of the
    log. -/
theorem logStep_spec (h : Shape l) {call : LogCall} (hstep : logStep l call = .ok l') :
    Shape l' ∧ LogSpec.Step (abs l) call (abs l') := by
  cases call with
  | append term type buf =>
    obtain ⟨h', habs⟩ := logAppend_spec h hstep
    exact ⟨h', habs ▸ .append _ _ _ _⟩
  | appendCommands term bufs =>
    obtain ⟨h', habs⟩ := logAppendCommands_spec h hstep
    exact ⟨h', habs ▸ .appendCommands _ _ _⟩
  | truncate index =>
    obtain ⟨⟨l₁, d⟩, htr, rfl⟩ := map_eq_ok_iff.1 hstep
    obtain ⟨h', habs⟩ := logTruncate_spec h htr
    exact ⟨h', habs ▸ .truncate _ _⟩
  | discard index =>
    obtain ⟨h', habs⟩ := logDiscard_spec h hstep
    exact ⟨h', habs ▸ .discard _ _⟩
  | snapshot last_index trailing =>
    obtain ⟨⟨l₁, d⟩, hsnap, rfl⟩ := map_eq_ok_iff.1 hstep
    obtain ⟨h', last_term, hterm, hne, habs⟩ := logSnapshot_spec h hsnap
    exact ⟨h', habs ▸ .snapshot _ _ _ _ h.offset_le hterm hne⟩
  | restore last_index last_term =>
    obtain ⟨⟨l₁, d⟩, hres, rfl⟩ := map_eq_ok_iff.1 hstep
    obtain ⟨h', habs⟩ := logRestore_spec h hres
    exact ⟨h', habs ▸ .restore _ _ _⟩
  | start snapshot_index snapshot_term start_index =>
    obtain ⟨h', habs⟩ := logStart_spec h hstep
    exact ⟨h', habs ▸ .start _ _ _ _⟩

/-- **Run lemma**: a run that succeeds keeps the shape of the log and is a run of the list
    log. -/
theorem logRun_spec :
    ∀ {calls : List LogCall} {l l' : raft_log}, Shape l → logRun l calls = .ok l' →
      Shape l' ∧ LogSpec.Run (abs l) calls (abs l')
  | [], l, l', h, hrun => by
    cases pure_eq_ok_iff.1 hrun
    exact ⟨h, .nil _⟩
  | call :: calls, l, l', h, hrun => by
    rw [logRun, List.foldlM_cons] at hrun
    obtain ⟨l₁, hstep, hrun⟩ := bind_eq_ok_iff.1 hrun
    obtain ⟨h₁, hstep'⟩ := logStep_spec h hstep
    obtain ⟨h', hrun'⟩ := logRun_spec h₁ hrun
    exact ⟨h', .cons hstep' hrun'⟩

theorem shape_logInit : Shape logInit :=
  ⟨⟨fun h0 => absurd h0 (lt_irrefl 0), fun h0 => absurd h0 (lt_irrefl 0), fun _ => ⟨rfl, rfl⟩⟩,
    le_refl 0⟩

/-- **The circular log refines the list log.**  Every run of calls from `logInit` that
    succeeds is a run of the list log, from the empty one, to the log that the circular
    log stands for; and the queries read that list log: `logTermOf` its terms, its
    assertions included, and `logGet` its entries. -/
theorem logRun_refines {calls : List LogCall} (hrun : logRun logInit calls = .ok l) :
    ∃ h : Shape l, LogSpec.Run ⟨[], 0, ⟨0, 0⟩⟩ calls (abs l) ∧
      (∀ index, logTermOf l index = Raft.logTermOf ((abs l).toLog h.offset_le) index) ∧
      ∀ index, logGet l index =
        if (abs l).offset < index then (abs l).entries[index - 1 - (abs l).offset]? else none := by
  obtain ⟨h, hspec⟩ := logRun_spec shape_logInit hrun
  exact ⟨h, hspec, logTermOf_eq h, logGet_eq h.wf⟩

set_option maxRecDepth 8000 in
theorem logRun_refines_truncate_snapshot :
    ∃ l, logRun logInit [.append 1 RAFT_COMMAND [], .append 1 RAFT_COMMAND [7],
      .append 2 RAFT_BARRIER [], .truncate 3, .snapshot 2 1] = .ok l ∧
    ∃ h : Shape l, LogSpec.Run ⟨[], 0, ⟨0, 0⟩⟩ [.append 1 RAFT_COMMAND [],
      .append 1 RAFT_COMMAND [7], .append 2 RAFT_BARRIER [], .truncate 3, .snapshot 2 1] (abs l) ∧
      (∀ index, logTermOf l index = Raft.logTermOf ((abs l).toLog h.offset_le) index) ∧
      ∀ index, logGet l index =
        if (abs l).offset < index then (abs l).entries[index - 1 - (abs l).offset]? else none := by
  refine ⟨?_, ?hrun, logRun_refines ?hrun⟩
  case hrun => rfl

end Runs

end Abstraktor.Raft.Circular
