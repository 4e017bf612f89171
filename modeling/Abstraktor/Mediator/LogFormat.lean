/-
  The event lines of the mediator log (src/mallory/mediator/src/feedback/mod.rs,
  `parse_and_add_instrumented_events`, and the record format of `setup_logging`
  in src/mallory/mediator/src/main.rs), read back by the log parser of
  abstraktor (`parse_mediator_log_line`, src/src/model/event_graph.rs).

  The two sides share no code: the mediator formats each event with `log::info!`
  (or `log::debug!` for a packet) behind a `fern` prefix
  `[<timestamp>][<LEVEL>] `, and the parser finds the node, function and state
  by the first occurrence of each of its markers.

  * `parse_mediator_log_line_append`: a head of the line where no `[Node `
    starts does not change the parse;
  * `parse_event_part`: from `[Node ` on, a line of the event format parses to
    its node, function and trimmed state, for a state or a constant marker;
  * `parse_mediator_log_line_of_not_mem`: a line without `@` does not parse;
  * `mediator_log_lines_parse`: each of the three execution-event lines, behind
    any prefix of the format, parses to its node, function and trimmed state,
    and a packet-event line parses to nothing.
-/
import Abstraktor.EventGraph.Graph

namespace Abstraktor

open ListSearch

/-! ## The formats of the mediator -/

/-- The levels of the `log` crate. -/
inductive Level
  | error | warn | info | debug | trace
deriving DecidableEq, Repr

/-- The `Display` of a level (`Level::as_str`). -/
def Level.as_str : Level → List Char
  | .error => "ERROR".toList
  | .warn => "WARN".toList
  | .info => "INFO".toList
  | .debug => "DEBUG".toList
  | .trace => "TRACE".toList

/-- A character of the timestamp `%Y-%m-%d %H:%M:%S.%6f` that `chrono` prints: a
    digit, a separator, or the sign of a year of more than four digits. -/
def is_timestamp_char (c : Char) : Bool :=
  c.isDigit || "-:. +".toList.contains c

/-- The record format of `setup_logging`: the timestamp and the level, each in
    brackets, a space, and the message. -/
def format_record (timestamp : List Char) (level : Level) (message : List Char) : List Char :=
  "[".toList ++ timestamp ++ "]".toList ++ "[".toList ++ level.as_str ++ "] ".toList ++ message

/-- The message of an execution event in `parse_and_add_instrumented_events`,
    `[<tag>][Node {} Batch {} Entry {} / {}] <verb> {} @ FunctionName {} @ <marker> {}`. -/
def execution_event_message (tag verb marker : List Char)
    (node_id batch_id db_entry_index db_evt_counter eid : ℕ)
    (function_str result_str : List Char) : List Char :=
  "[".toList ++ tag ++ "]".toList ++ "[Node ".toList ++ fmt_dec node_id ++ " Batch ".toList ++
    fmt_dec batch_id ++ " Entry ".toList ++ fmt_dec db_entry_index ++ " / ".toList ++
    fmt_dec db_evt_counter ++ "] ".toList ++ verb ++ " ".toList ++ fmt_dec eid ++
    " @ FunctionName ".toList ++ function_str ++ " @ ".toList ++ marker ++ " ".toList ++ result_str

/-- The line of a `BLOCK_EVENT_TYPE` event. -/
def block_event_message : ℕ → ℕ → ℕ → ℕ → ℕ → List Char → List Char → List Char :=
  execution_event_message "BLOCK_EVENT_TYPE".toList "BlockExecute".toList "state".toList

/-- The line of a `FUNC_EVENT_TYPE` event. -/
def func_event_message : ℕ → ℕ → ℕ → ℕ → ℕ → List Char → List Char → List Char :=
  execution_event_message "FUNC_EVENT_TYPE".toList "FunctionExecute".toList "state".toList

/-- The line of a `CONST_EVENT_TYPE` event. -/
def const_event_message : ℕ → ℕ → ℕ → ℕ → ℕ → List Char → List Char → List Char :=
  execution_event_message "CONST_EVENT_TYPE".toList "ConstantExecute".toList "constant".toList

/-- The message of a packet event in `parse_and_add_instrumented_events`,
    `[Node {} Batch {} Entry {} / {}] {} {}`, of type `PacketSend` or
    `PacketReceive`. -/
def packet_event_message (node_id batch_id pkt_entry_index pkt_evt_counter : ℕ)
    (is_send : Bool) (network_id : ℕ) : List Char :=
  let evt_type := if is_send then "PacketSend".toList else "PacketReceive".toList
  "[Node ".toList ++ fmt_dec node_id ++ " Batch ".toList ++ fmt_dec batch_id ++
    " Entry ".toList ++ fmt_dec pkt_entry_index ++ " / ".toList ++ fmt_dec pkt_evt_counter ++
    "] ".toList ++ evt_type ++ " ".toList ++ fmt_dec network_id

/-! ## Reading a line of the event format -/

theorem not_mem_fmt_dec {n : ℕ} {c : Char} (hc : c.isDigit = false) : c ∉ fmt_dec n :=
  fun h => by simp [isDigit_of_mem_fmt_dec h] at hc

/-- A head where no `[Node ` starts is skipped by the first search, and the rest of
    the parse only reads what follows it. -/
theorem parse_mediator_log_line_append {u : List Char} (hu : NoStart "[Node ".toList u)
    (line : List Char) : parse_mediator_log_line (u ++ line) = parse_mediator_log_line line := by
  unfold parse_mediator_log_line
  rw [find, find, findSub_append_of_noStart hu]
  cases findSub "[Node ".toList line with
  | none => rfl
  | some k =>
    have hd : (u ++ line).drop (u.length + k) = line.drop k := by simp
    simp only [Option.map_some, Option.bind_eq_bind, Option.bind_some, hd]

/-- **A line of the event format parses.**  From `[Node ` on, the node id, a part
    `mid` without `@`, the function marker, the function, and the state or
    constant marker give the node id, the function and the trimmed state. -/
theorem parse_event_part {n : ℕ} {mid f marker s : List Char} (hn : n < 2 ^ 32)
    (hsp : mid.head? = some ' ') (hmid : '@' ∉ mid) (hf : '@' ∉ f) (hs : '@' ∉ s)
    (hm : marker = "state".toList ∨ marker = "constant".toList) :
    parse_mediator_log_line ("[Node ".toList ++ fmt_dec n ++ mid ++ " @ FunctionName ".toList ++
      f ++ " @ ".toList ++ marker ++ " ".toList ++ s) = some ⟨n, f, trim s⟩ := by
  obtain ⟨mid, rfl⟩ : ∃ mid', mid = " ".toList ++ mid' := by
    cases mid with
    | nil => cases hsp
    | cons c mid' => exact ⟨mid', by rw [Option.some.inj hsp]; rfl⟩
  -- the part before the function marker, and the part after the function
  set A := "[Node ".toList ++ (fmt_dec n ++ (" ".toList ++ (mid ++ " ".toList))) with hA
  set T := " @ ".toList ++ (marker ++ (" ".toList ++ s)) with hT
  have hR : "[Node ".toList ++ fmt_dec n ++ (" ".toList ++ mid) ++ " @ FunctionName ".toList ++ f ++
      " @ ".toList ++ marker ++ " ".toList ++ s = A ++ ("@ FunctionName ".toList ++ (f ++ T)) := by
    simp only [hA, hT, List.append_assoc]
    rfl
  have hAt : '@' ∉ A := by
    simp only [hA, List.mem_append, not_or]
    exact ⟨by decide, not_mem_fmt_dec (by decide), by decide, fun h => hmid (by simp [h]),
      by decide⟩
  -- each search of the parser, in order
  have h1 : find (A ++ ("@ FunctionName ".toList ++ (f ++ T))) "[Node ".toList = some 0 :=
    findSub_of_prefix (by simp [hA])
  have hnode : (A ++ ("@ FunctionName ".toList ++ (f ++ T))).drop "[Node ".toList.length =
      fmt_dec n ++ (" ".toList ++ (mid ++ (" ".toList ++ ("@ FunctionName ".toList ++ (f ++ T))))) := by
    simp only [hA, List.append_assoc, List.drop_left]
  have h2 : find (fmt_dec n ++ (" ".toList ++ (mid ++ (" ".toList ++ ("@ FunctionName ".toList ++
      (f ++ T)))))) " ".toList = some (fmt_dec n).length :=
    findSub_append_of_noStart_prefix (noStart_of_not_mem (not_mem_fmt_dec (by decide))) _
  have h3 : find (A ++ ("@ FunctionName ".toList ++ (f ++ T))) "@ FunctionName ".toList =
      some A.length :=
    findSub_append_of_noStart_prefix (noStart_of_not_mem hAt) _
  have hfun : (A ++ ("@ FunctionName ".toList ++ (f ++ T))).drop
      (A.length + "@ FunctionName ".toList.length) = f ++ T := by
    simp
  -- `f` may end in a space, so the end of the function is found by its `@`
  have h4 : find (f ++ T) " @ ".toList = some f.length := by
    have e : " @ ".toList = [' ', '@', ' '] := rfl
    rw [find, hT, e, List.cons_append, findSub_append_of_second hf (by decide),
      ← List.cons_append, findSub_of_prefix (List.prefix_append _ _)]
    rfl
  -- up to the state or constant marker, the only `@` is that of the function marker
  set B := A ++ ("@ FunctionName ".toList ++ (f ++ " ".toList)) with hB
  have hBm : ∀ m : List Char, NoStart ('@' :: ' ' :: m) "@ FunctionName ".toList →
      NoStart ('@' :: ' ' :: m) B := fun m hm =>
    (noStart_of_not_mem hAt).append (hm.append ((noStart_of_not_mem hf).append
      (noStart_of_not_mem (by decide))))
  rw [hR]
  unfold parse_mediator_log_line
  simp only [h1, List.drop_zero, hnode, h2, List.take_left, parse_u32_fmt_dec hn, h3, hfun, h4,
    Option.bind_eq_bind, Option.bind_some]
  rcases hm with rfl | rfl
  · have hRB : A ++ ("@ FunctionName ".toList ++ (f ++ T)) = B ++ ("@ state ".toList ++ s) := by
      simp only [hB, hT, List.append_assoc]
      rfl
    have hst : findSub "@ state ".toList (B ++ ("@ state ".toList ++ s)) = some B.length :=
      findSub_append_of_noStart_prefix (hBm "state ".toList (by decide)) s
    rw [hRB, find, hst]
    simp
  · -- no state marker: the search goes on to the constant marker
    have hRB : A ++ ("@ FunctionName ".toList ++ (f ++ T)) = B ++ ("@ constant ".toList ++ s) := by
      simp only [hB, hT, List.append_assoc]
      rfl
    have hst : findSub "@ state ".toList (B ++ ("@ constant ".toList ++ s)) = none :=
      findSub_eq_none_of_noStart ((hBm "state ".toList (by decide)).append
        ((by decide : NoStart "@ state ".toList "@ constant ".toList).append
          (noStart_of_not_mem hs))) (by decide)
    have hco : findSub "@ constant ".toList (B ++ ("@ constant ".toList ++ s)) = some B.length :=
      findSub_append_of_noStart_prefix (hBm "constant ".toList (by decide)) s
    rw [hRB, find, hst, find, hco]
    simp

/-- A line without `@` has no function marker, so it does not parse. -/
theorem parse_mediator_log_line_of_not_mem {line : List Char} (h : '@' ∉ line) :
    parse_mediator_log_line line = none := by
  have hfind : ∀ k, find (line.drop k) "@ FunctionName ".toList = none := fun k =>
    findSub_eq_none_of_noStart (noStart_of_not_mem fun hm => h (List.mem_of_mem_drop hm))
      (by decide)
  unfold parse_mediator_log_line
  simp only [hfind, Option.bind_eq_bind, Option.bind_none, Option.bind_fun_none]

/-! ## The lines of the mediator log -/

section Format

variable {timestamp : List Char} (hts : ∀ c ∈ timestamp, is_timestamp_char c = true)
include hts

theorem timestamp_not_mem {c : Char} (hc : is_timestamp_char c = false) : c ∉ timestamp :=
  fun h => by simp [hts c h] at hc

/-- No `[Node ` starts in the prefix of a record. -/
theorem noStart_record_head (level : Level) :
    NoStart "[Node ".toList ("[".toList ++ timestamp ++ "]".toList ++ "[".toList ++
      level.as_str ++ "] ".toList) := by
  have hopen : NoStart ('[' :: 'N' :: "ode ".toList) ('[' :: (timestamp ++ "]".toList)) := by
    refine noStart_cons ?_ (by simp) ?_
    · simp only [List.mem_append, not_or]
      exact ⟨timestamp_not_mem hts (by decide), by decide⟩
    · -- the character after the opening bracket is a digit, a separator, or `]`
      cases timestamp with
      | nil => decide
      | cons c t =>
        have hc : c ≠ 'N' := fun h =>
          timestamp_not_mem hts (c := 'N') (by decide) (h ▸ List.mem_cons_self)
        simpa only [List.cons_append, List.head?_cons, ne_eq, Option.some.injEq] using hc
  have hlevel : NoStart "[Node ".toList ("[".toList ++ level.as_str ++ "] ".toList) := by
    cases level <;> decide
  have e : "[Node ".toList = '[' :: 'N' :: "ode ".toList := rfl
  have e' : "[".toList ++ timestamp = '[' :: timestamp := rfl
  rw [e, List.append_assoc, List.append_assoc, e', List.append_assoc]
  rw [e] at hlevel
  simpa only [List.cons_append, List.append_assoc] using hopen.append hlevel

omit hts in
/-- A record whose message ends in a part that is not blank is trimmed at the end
    of its message only. -/
theorem trim_format_record (level : Level) (H : List Char) {s : List Char}
    (hs : ∃ c ∈ s, is_whitespace c = false) :
    trim (format_record timestamp level (H ++ s)) = format_record timestamp level (H ++ trim_end s) := by
  rw [format_record, format_record, ← List.append_assoc, trim_append ?_ hs, List.append_assoc]
  exact ⟨'[', rfl, by decide⟩

/-- **An execution-event line, behind the prefix of the record format, parses** to
    its node, function and trimmed state, for a tag in which no `[Node ` starts, a
    verb without `@` and a state or constant marker. -/
theorem parse_format_execution_event (level : Level) {tag verb marker : List Char}
    (htag : NoStart "[Node ".toList ("[".toList ++ tag ++ "]".toList)) (hverb : '@' ∉ verb)
    (hm : marker = "state".toList ∨ marker = "constant".toList)
    {node_id : ℕ} (hn : node_id < 2 ^ 32) (batch_id db_entry_index db_evt_counter eid : ℕ)
    {f s : List Char} (hf : '@' ∉ f) (hs : '@' ∉ s) (hs' : ∃ c ∈ s, is_whitespace c = false) :
    parse_mediator_log_line (trim (format_record timestamp level
      (execution_event_message tag verb marker node_id batch_id db_entry_index db_evt_counter eid
        f s))) = some ⟨node_id, f, trim s⟩ := by
  -- the part between the node id and the function marker has no `@`
  have hmidt : '@' ∉ " Batch ".toList ++ fmt_dec batch_id ++ " Entry ".toList ++
      fmt_dec db_entry_index ++ " / ".toList ++ fmt_dec db_evt_counter ++ "] ".toList ++ verb ++
      " ".toList ++ fmt_dec eid := by
    have hdec : ∀ k, '@' ∉ fmt_dec k := fun k => not_mem_fmt_dec (by decide)
    simp [hdec, hverb]
  -- the message is a head followed by the state, which alone is trimmed
  have hmsg : ∀ r, execution_event_message tag verb marker node_id batch_id db_entry_index
      db_evt_counter eid f r = execution_event_message tag verb marker node_id batch_id
        db_entry_index db_evt_counter eid f [] ++ r := by
    intro r
    unfold execution_event_message
    rw [List.append_nil]
  -- the record is the prefix, the tag, and the event part
  have hrec : ∀ r, format_record timestamp level (execution_event_message tag verb marker node_id
      batch_id db_entry_index db_evt_counter eid f r) =
      ("[".toList ++ timestamp ++ "]".toList ++ "[".toList ++ level.as_str ++ "] ".toList) ++
        (("[".toList ++ tag ++ "]".toList) ++
        ("[Node ".toList ++ fmt_dec node_id ++ (" Batch ".toList ++ fmt_dec batch_id ++
          " Entry ".toList ++ fmt_dec db_entry_index ++ " / ".toList ++ fmt_dec db_evt_counter ++
          "] ".toList ++ verb ++ " ".toList ++ fmt_dec eid) ++ " @ FunctionName ".toList ++ f ++
          " @ ".toList ++ marker ++ " ".toList ++ r)) := by
    intro r
    unfold format_record execution_event_message
    simp only [List.append_assoc]
  have hs_end : '@' ∉ trim_end s := fun h => hs ((List.rdropWhile_prefix _ _).subset h)
  rw [hmsg, trim_format_record level _ hs', ← hmsg, hrec,
    parse_mediator_log_line_append (noStart_record_head hts level),
    parse_mediator_log_line_append htag, parse_event_part hn rfl hmidt hf hs_end hm, trim_trim_end]

/-- A packet-event line, behind the prefix of the record format, has no `@`. -/
theorem parse_format_packet_event (level : Level)
    (node_id batch_id pkt_entry_index pkt_evt_counter : ℕ) (is_send : Bool) (network_id : ℕ) :
    parse_mediator_log_line (trim (format_record timestamp level (packet_event_message node_id
      batch_id pkt_entry_index pkt_evt_counter is_send network_id))) = none := by
  apply parse_mediator_log_line_of_not_mem
  intro h
  have hdec : ∀ k, '@' ∉ fmt_dec k := fun k => not_mem_fmt_dec (by decide)
  have hts' : '@' ∉ timestamp := timestamp_not_mem hts (by decide)
  have hlevel : '@' ∉ level.as_str := by
    cases level <;> decide
  have h' := List.Sublist.mem h (trim_sublist _)
  unfold format_record packet_event_message at h'
  simp only [List.mem_append, hdec node_id, hdec batch_id, hdec pkt_entry_index,
    hdec pkt_evt_counter, hdec network_id, hts', hlevel, or_false] at h'
  -- what is left are the literal parts of the line
  revert h'
  cases is_send <;> decide

/-- **The event lines of the mediator parse back.**  Behind the prefix of any
    record (a timestamp of the format of `chrono`, any level), each of the three
    execution-event lines parses to its node id (any that a `u32` holds, so any
    `NodeId`), its function and its trimmed state, for a function and a state
    without `@` and a state that is not blank; a packet-event line parses to
    nothing. -/
theorem mediator_log_lines_parse (level : Level) {node_id : ℕ} (hn : node_id < 2 ^ 32)
    (batch_id entry_index evt_counter eid : ℕ) {f s : List Char} (hf : '@' ∉ f) (hs : '@' ∉ s)
    (hs' : ∃ c ∈ s, is_whitespace c = false) :
    parse_mediator_log_line (trim (format_record timestamp level
      (block_event_message node_id batch_id entry_index evt_counter eid f s))) =
        some ⟨node_id, f, trim s⟩ ∧
    parse_mediator_log_line (trim (format_record timestamp level
      (func_event_message node_id batch_id entry_index evt_counter eid f s))) =
        some ⟨node_id, f, trim s⟩ ∧
    parse_mediator_log_line (trim (format_record timestamp level
      (const_event_message node_id batch_id entry_index evt_counter eid f s))) =
        some ⟨node_id, f, trim s⟩ ∧
    ∀ is_send network_id, parse_mediator_log_line (trim (format_record timestamp level
      (packet_event_message node_id batch_id entry_index evt_counter is_send network_id))) = none :=
  ⟨parse_format_execution_event hts level (by decide) (by decide) (Or.inl rfl) hn _ _ _ _ hf hs hs',
    parse_format_execution_event hts level (by decide) (by decide) (Or.inl rfl) hn _ _ _ _ hf hs hs',
    parse_format_execution_event hts level (by decide) (by decide) (Or.inr rfl) hn _ _ _ _ hf hs hs',
    parse_format_packet_event hts level _ _ _ _⟩

end Format

/-- The lines of one event, logged at `INFO` at a time of day, parse back. -/
theorem mediator_log_lines_parse_idle :
    (∀ c ∈ "2025-11-10 19:56:55.000001".toList, is_timestamp_char c = true) ∧ 1 < 2 ^ 32 ∧
      '@' ∉ "start".toList ∧ '@' ∉ "idle".toList ∧ (∃ c ∈ "idle".toList, is_whitespace c = false) ∧
      parse_mediator_log_line (trim (format_record "2025-11-10 19:56:55.000001".toList .info
        (block_event_message 1 0 1 1 7 "start".toList "idle".toList))) =
          some ⟨1, "start".toList, trim "idle".toList⟩ ∧
      parse_mediator_log_line (trim (format_record "2025-11-10 19:56:55.000001".toList .info
        (func_event_message 1 0 1 1 7 "start".toList "idle".toList))) =
          some ⟨1, "start".toList, trim "idle".toList⟩ ∧
      parse_mediator_log_line (trim (format_record "2025-11-10 19:56:55.000001".toList .info
        (const_event_message 1 0 1 1 7 "start".toList "idle".toList))) =
          some ⟨1, "start".toList, trim "idle".toList⟩ ∧
      ∀ is_send network_id, parse_mediator_log_line (trim (format_record
        "2025-11-10 19:56:55.000001".toList .info
        (packet_event_message 1 0 1 1 is_send network_id))) = none :=
  ⟨List.all_eq_true.1 rfl, by decide, by decide, by decide, ⟨'i', by decide, by decide⟩,
    mediator_log_lines_parse (List.all_eq_true.1 rfl) .info (by decide) 0 1 1 7 (by decide)
      (by decide) ⟨'i', by decide, by decide⟩⟩

end Abstraktor
