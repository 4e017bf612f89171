/-
  The events of the timeline and their order (src/mallory/mediator/src/event.rs).

  An event of a process is a `LamportEvent`: the process's monotonic timestamp and
  the bare `Event`.  The timelines keep them in the order Rust derives for the two
  types: by timestamp, then by the variant of the event in the order of its
  declaration, then by its fields in order.  That order is given here by a key, a
  list of integers compared lexicographically.  A variant's key starts with its
  position; a number field is one entry; a vector or a string is its entries moved
  up by one and ended by `0`, so that a proper prefix comes first, as in Rust.  Rust
  never compares the timestamps of two processes (it panics if asked to); the key
  orders them by process after the timestamp.

  * `first_ev_at t` and `last_ev_at t` are the least and the greatest events at the
    time `t` (`first_ev_at_le`, `le_last_ev_at`), so that a range of events
    between two `last_ev_at`s is a range of timestamps (`le_last_ev_at_iff`,
    `last_ev_at_lt_iff`);
  * `match_instruction` gives a packet's send and its receive one key, and a
    window's end on each process and the collation of the window another.
-/
import Mathlib

namespace Abstraktor.Mediator

/-! ## Events -/

inductive ResponseStatus
  | Succeeded
  | Failed
  | Unknown
deriving DecidableEq, Repr

inductive SchedulerIdentifier
  | Noop
  | QLearning
  | Power
deriving DecidableEq, Repr

/-- A node's monotonic timestamp, with the node it is of. -/
structure MonotonicTimestamp where
  ts : ℕ
  source : ℕ
deriving DecidableEq, Repr

/-- The window whose summaries are collated; absolute timestamps are `i64`s. -/
structure SummaryTask where
  end_ts : ℤ
  start_ts : ℤ
  scheduler : SchedulerIdentifier
  schedule_id : ℕ
  step_id : ℕ
  state_id : Option ℕ
  action_id : ℕ
deriving DecidableEq, Repr

inductive AdministrativeEvent
  | CollateSummaries (task : SummaryTask)
  | EndWindow (schedule_id step_id : ℕ)
  | StartWindow (schedule_id step_id : ℕ)
  | EndSchedule (schedule_id : ℕ) (schedule_start : MonotonicTimestamp)
deriving DecidableEq, Repr

inductive Event
  | BlockExecute (block_id : ℕ)
  | FunctionExecute (function_id : ℕ)
  | ConstantExecute (const_id : ℕ)
  | AFLHitCount (branch_events : List ℕ)
  | PacketSend (data «to» network_id mediator_id : ℕ) (dropped : Bool)
  | PacketReceive (data «from» network_id mediator_id : ℕ)
  | ClientRequest (kind process : String)
  | ClientResponse (kind : String) (status : ResponseStatus) (process : String)
  | Fault (kind value : String)
  | TimelineEvent (a : AdministrativeEvent)
  | Unknown
deriving DecidableEq, Repr

structure LamportEvent where
  clock : MonotonicTimestamp
  ev : Event
deriving DecidableEq, Repr

/-! ## The derived order, as a key -/

/-- The key of a vector or of a string: its entries moved up by one, then `0`. -/
def keyList (l : List ℕ) : List ℤ := l.map (fun n : ℕ => (n : ℤ) + 1) ++ [0]

def keyString (s : String) : List ℤ := keyList (s.toList.map Char.toNat)

/-- `None` comes before every `Some`. -/
def keyOption : Option ℕ → List ℤ
  | none => [0]
  | some n => [1, n]

def ResponseStatus.key : ResponseStatus → ℤ
  | .Succeeded => 0
  | .Failed => 1
  | .Unknown => 2

def SchedulerIdentifier.key : SchedulerIdentifier → ℤ
  | .Noop => 0
  | .QLearning => 1
  | .Power => 2

def MonotonicTimestamp.key (t : MonotonicTimestamp) : List ℤ := [(t.ts : ℤ), t.source]

def SummaryTask.key (t : SummaryTask) : List ℤ :=
  [t.end_ts, t.start_ts, t.scheduler.key, t.schedule_id, t.step_id] ++ keyOption t.state_id ++
    [(t.action_id : ℤ)]

def AdministrativeEvent.key : AdministrativeEvent → List ℤ
  | .CollateSummaries task => 0 :: task.key
  | .EndWindow schedule_id step_id => [1, schedule_id, step_id]
  | .StartWindow schedule_id step_id => [2, schedule_id, step_id]
  | .EndSchedule schedule_id schedule_start => 3 :: schedule_id :: schedule_start.key

def Event.key : Event → List ℤ
  | .BlockExecute block_id => [0, block_id]
  | .FunctionExecute function_id => [1, function_id]
  | .ConstantExecute const_id => [2, const_id]
  | .AFLHitCount branch_events => 3 :: keyList branch_events
  | .PacketSend data «to» network_id mediator_id dropped =>
    [4, data, «to», network_id, mediator_id, if dropped then 1 else 0]
  | .PacketReceive data «from» network_id mediator_id => [5, data, «from», network_id, mediator_id]
  | .ClientRequest kind process => 6 :: keyString kind ++ keyString process
  | .ClientResponse kind status process => 7 :: keyString kind ++ status.key :: keyString process
  | .Fault kind value => 8 :: keyString kind ++ keyString value
  | .TimelineEvent a => 9 :: a.key
  | .Unknown => [10]

def LamportEvent.key (e : LamportEvent) : List ℤ := e.clock.key ++ e.ev.key

/-! ## The key determines the event -/

theorem keyList_append_inj {l l' : List ℕ} {r r' : List ℤ}
    (h : keyList l ++ r = keyList l' ++ r') : l = l' ∧ r = r' := by
  induction l generalizing l' with
  | nil =>
    cases l' with
    | nil => simpa [keyList] using h
    | cons b l' => simp [keyList] at h; omega
  | cons a l ih =>
    cases l' with
    | nil => simp [keyList] at h; omega
    | cons b l' =>
      simp only [keyList, List.map_cons, List.cons_append, List.cons.injEq] at h
      obtain ⟨hab, h⟩ := h
      obtain ⟨rfl⟩ : a = b := by omega
      exact (ih h).imp (congrArg _) id

theorem keyString_append_inj {s s' : String} {r r' : List ℤ}
    (h : keyString s ++ r = keyString s' ++ r') : s = s' ∧ r = r' := by
  obtain ⟨hs, hr⟩ := keyList_append_inj h
  refine ⟨String.toList_inj.1 ?_, hr⟩
  exact List.map_injective_iff.2 (fun a b h => Char.toNat_inj.1 h) hs

theorem keyString_injective : Function.Injective keyString := fun s s' h =>
  (keyString_append_inj (show keyString s ++ [] = keyString s' ++ [] by simpa using h)).1

theorem keyOption_append_inj {o o' : Option ℕ} {r r' : List ℤ}
    (h : keyOption o ++ r = keyOption o' ++ r') : o = o' ∧ r = r' := by
  cases o <;> cases o' <;> simp_all [keyOption]

theorem MonotonicTimestamp.key_injective : Function.Injective MonotonicTimestamp.key := by
  rintro ⟨t, p⟩ ⟨t', p'⟩ h
  simpa [MonotonicTimestamp.key, Int.natCast_inj] using h

theorem SummaryTask.key_injective : Function.Injective SummaryTask.key := by
  rintro ⟨e, s, sc, si, st, o, a⟩ ⟨e', s', sc', si', st', o', a'⟩ h
  simp only [SummaryTask.key, List.cons_append, List.cons.injEq, List.nil_append,
    Int.natCast_inj] at h
  obtain ⟨rfl, rfl, hsc, rfl, rfl, h⟩ := h
  obtain ⟨rfl, ha⟩ := keyOption_append_inj h
  cases sc <;> cases sc' <;> simp_all [SchedulerIdentifier.key]

theorem AdministrativeEvent.key_injective : Function.Injective AdministrativeEvent.key := by
  intro a a' h
  cases a <;> cases a' <;> simp only [AdministrativeEvent.key, List.cons.injEq, Int.natCast_inj,
    AdministrativeEvent.CollateSummaries.injEq, AdministrativeEvent.EndWindow.injEq,
    AdministrativeEvent.StartWindow.injEq, AdministrativeEvent.EndSchedule.injEq, true_and] at h ⊢ <;>
    first | omega | skip
  · exact SummaryTask.key_injective h
  · exact ⟨h.1, MonotonicTimestamp.key_injective h.2⟩

theorem keyList_injective : Function.Injective keyList := fun l l' h =>
  (keyList_append_inj (show keyList l ++ [] = keyList l' ++ [] by simpa using h)).1

theorem Event.key_injective : Function.Injective Event.key := by
  intro e e' h
  cases e <;> cases e' <;> simp only [Event.key, List.cons.injEq, List.cons_append,
    Int.natCast_inj, Event.BlockExecute.injEq, Event.FunctionExecute.injEq,
    Event.ConstantExecute.injEq, Event.AFLHitCount.injEq, Event.PacketSend.injEq,
    Event.PacketReceive.injEq, Event.ClientRequest.injEq, Event.ClientResponse.injEq,
    Event.Fault.injEq, Event.TimelineEvent.injEq, true_and] at h ⊢ <;>
    first | omega | skip
  case AFLHitCount.AFLHitCount => exact keyList_injective h
  case PacketSend.PacketSend dropped dropped' =>
    refine ⟨h.1, h.2.1, h.2.2.1, h.2.2.2.1, ?_⟩
    cases dropped <;> cases dropped' <;> simp_all
  case ClientRequest.ClientRequest =>
    obtain ⟨hk, hp⟩ := keyString_append_inj h
    exact ⟨hk, keyString_injective hp⟩
  case ClientResponse.ClientResponse status _ _ status' _ =>
    obtain ⟨hk, hs, hp⟩ := (keyString_append_inj h).imp_right List.cons.inj
    refine ⟨hk, ?_, keyString_injective hp⟩
    cases status <;> cases status' <;> simp_all [ResponseStatus.key]
  case Fault.Fault =>
    obtain ⟨hk, hv⟩ := keyString_append_inj h
    exact ⟨hk, keyString_injective hv⟩
  case TimelineEvent.TimelineEvent => exact AdministrativeEvent.key_injective h

theorem LamportEvent.key_injective : Function.Injective LamportEvent.key := by
  rintro ⟨c, e⟩ ⟨c', e'⟩ h
  obtain ⟨hc, he⟩ := List.append_inj h rfl
  rw [LamportEvent.mk.injEq]
  exact ⟨MonotonicTimestamp.key_injective hc, Event.key_injective he⟩

/-- The timelines' order on events. -/
instance : LinearOrder LamportEvent := LinearOrder.lift' LamportEvent.key LamportEvent.key_injective

/-! ## Lamport events -/

namespace LamportEvent

def proc (e : LamportEvent) : ℕ := e.clock.source

def ts (e : LamportEvent) : MonotonicTimestamp := e.clock

/-- The least event at `clock`. -/
def first_ev_at (clock : MonotonicTimestamp) : LamportEvent := ⟨clock, .BlockExecute 0⟩

/-- The greatest event at `clock`. -/
def last_ev_at (clock : MonotonicTimestamp) : LamportEvent := ⟨clock, .Unknown⟩

def is_packet_receive (e : LamportEvent) : Bool :=
  match e.ev with
  | .PacketReceive .. => true
  | _ => false

def is_dropped_packet_send (e : LamportEvent) : Bool :=
  match e.ev with
  | .PacketSend _ _ _ _ dropped => dropped
  | _ => false

/-- The task of a `CollateSummaries` event, whose summary is stored. -/
def should_store_summary (e : LamportEvent) : Option SummaryTask :=
  match e.ev with
  | .TimelineEvent (.CollateSummaries task) => some task
  | _ => none

def is_administrative_event (e : LamportEvent) : Bool :=
  match e.ev with
  | .TimelineEvent _ => true
  | _ => false

end LamportEvent

/-! ## Causal links -/

/-- The keys that match a source with its targets: the strings `Packet-{mediator_id}`
    and `EndWindow-{node}-{schedule}-{step}`, which no two different values give. -/
inductive EventMatchKey
  | Packet (mediator_id : ℕ)
  | EndWindow (node_id schedule_id step_id : ℕ)
deriving DecidableEq, Repr

inductive MatchingBehaviour
  | Intrinsic
  | Extrinsic
deriving DecidableEq, Repr

inductive ArrowPosition
  | Source
  | Target
  | Any
deriving DecidableEq, Repr

structure EventMatchInstruction where
  key : EventMatchKey
  behaviour : MatchingBehaviour
  position : ArrowPosition
deriving DecidableEq, Repr

/-- A packet's send and its receive share a key, and so do a window's end on a
    process and the collation of the window for that process. -/
def LamportEvent.match_instruction (e : LamportEvent) : Option EventMatchInstruction :=
  match e.ev with
  | .PacketSend _ _ _ mediator_id _ => some ⟨.Packet mediator_id, .Intrinsic, .Source⟩
  | .PacketReceive _ _ _ mediator_id => some ⟨.Packet mediator_id, .Intrinsic, .Target⟩
  | .TimelineEvent (.EndWindow schedule_id step_id) =>
    some ⟨.EndWindow e.proc schedule_id step_id, .Intrinsic, .Source⟩
  | _ => none

def LamportEvent.match_instruction_for_node (e : LamportEvent) (node_id : ℕ) :
    Option EventMatchInstruction :=
  match e.ev with
  | .TimelineEvent (.CollateSummaries task) =>
    some ⟨.EndWindow node_id task.schedule_id task.step_id, .Intrinsic, .Target⟩
  | _ => none

/-- A causal link, dangling while its target is not known. -/
structure CausalLink where
  source : LamportEvent
  target : Option LamportEvent
deriving DecidableEq, Repr

def CausalLink.new_dangling (source : LamportEvent) : CausalLink := ⟨source, none⟩

def CausalLink.with_target (link : CausalLink) (target : LamportEvent) : CausalLink :=
  ⟨link.source, some target⟩

/-! ## Ranges of timestamps -/

theorem LamportEvent.le_iff_key_le {e e' : LamportEvent} : e ≤ e' ↔ e.key ≤ e'.key := Iff.rfl

/-- `Unknown` is the last variant, so every event's key is at most its key. -/
theorem Event.key_le_unknown (ev : Event) : ev.key ≤ Event.Unknown.key := by
  cases ev <;> first | exact le_rfl | exact le_of_lt (List.Lex.rel (by decide))

section SameProcess

variable {e : LamportEvent} {p t : ℕ}

/-- The events of a process at or before `t` are those at or before its last event at
    `t`. -/
theorem le_last_ev_at_iff (h : e.proc = p) :
    e ≤ LamportEvent.last_ev_at ⟨t, p⟩ ↔ e.ts.ts ≤ t := by
  obtain ⟨⟨ts, q⟩, ev⟩ := e
  obtain rfl : q = p := h
  simp only [LamportEvent.le_iff_key_le, LamportEvent.key, LamportEvent.last_ev_at,
    MonotonicTimestamp.key, LamportEvent.ts, List.cons_append, List.nil_append]
  constructor
  · intro hle
    by_contra hlt
    -- a later timestamp already puts the event after the last event at `t`
    have hgt : List.Lex (· < ·) ((t : ℤ) :: (q : ℤ) :: Event.Unknown.key)
        ((ts : ℤ) :: (q : ℤ) :: ev.key) := List.Lex.rel (by omega)
    exact absurd hle (not_le.2 hgt)
  · intro hts
    rcases Nat.lt_or_eq_of_le hts with hlt | rfl
    · exact le_of_lt (List.Lex.rel (by omega))
    · exact List.cons_le_cons _ (List.cons_le_cons _ (Event.key_le_unknown ev))

/-- The events of a process after `t` are those after its last event at `t`. -/
theorem last_ev_at_lt_iff (h : e.proc = p) :
    LamportEvent.last_ev_at ⟨t, p⟩ < e ↔ t < e.ts.ts := by
  rw [← not_le, le_last_ev_at_iff h, not_le]

/-- Of two events of a process, the later one is at a timestamp no earlier. -/
theorem ts_le_of_le {e' : LamportEvent} (h : e.proc = p) (h' : e'.proc = p) (hle : e ≤ e') :
    e.ts.ts ≤ e'.ts.ts := by
  by_contra hlt
  -- `e'` is at most the last event at its timestamp, which is before `e`
  have h₁ : e' ≤ LamportEvent.last_ev_at ⟨e'.ts.ts, p⟩ := (le_last_ev_at_iff h').2 le_rfl
  have h₂ : LamportEvent.last_ev_at ⟨e'.ts.ts, p⟩ < e := (last_ev_at_lt_iff h).2 (by omega)
  exact absurd hle (not_le.2 (lt_of_le_of_lt h₁ h₂))

end SameProcess

end Abstraktor.Mediator
