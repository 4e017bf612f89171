/-
  The decoding of a batch by the mediator (`parse_and_add_instrumented_events`,
  src/mallory/mediator/src/feedback/mod.rs).

  The execution events are read from the copy of the event buffer: the counter,
  a `u16` at the start, then from offset `LOCAL_EVENT_SIZE` that many events, each
  read field by field: the type and the time, then for a block, function or
  constant event the id and two names of 64 bytes, and for any other type one
  more `u64`.  The packet events are read from the copy of the packets, three
  `u64` each, as many as `LOCAL_EVENT_SIZE` bytes fit in it.  Every read is
  unwrapped, so a read past the end panics, as does a packet of another type.
  Each copy is first decoded and decompressed by `decode_decomp`.

  * `parse_collect_events`: whatever the codec, the copy of the segment is read as
    the segment, since a cursor reads only the bytes of its data;
  * `read_execution_event_slot`: a slot that holds an event of a known type is
    read whole, and the cursor ends at the next slot;
  * `parse_execution_events_recorded`: a buffer whose taken slots all hold
    events and lie in the segment is decoded to exactly those events, and
    `decode_collected_events` does so from any run of the runtime;
  * `execution_events_misread`: a taken slot that still holds zeros is read as
    a run of 24-byte unknown events, and slots past the end of the segment make
    the decoding panic;
  * `parse_packet_events_collect`: the packets are decoded in order, but only the
    first `24 k / 152` of `k`.
-/
import Abstraktor.Lib.Counter
import Abstraktor.Runtime.Events
import Abstraktor.CovServer.Collect

namespace Abstraktor.Mediator

open Bytes Abstraktor.Runtime CovServer Counter

def BLOCK_EVENT_TYPE : ℕ := 1
def FUNC_EVENT_TYPE : ℕ := 2
def PACKET_SEND_EVENT_TYPE : ℕ := 3
def PACKET_RECV_EVENT_TYPE : ℕ := 4
def CONST_EVENT_TYPE : ℕ := 5

/-- `LOCAL_EVENT_SIZE`, the size of an execution event. -/
def LOCAL_EVENT_SIZE : ℕ := 152

/-- Why the decoding of a batch panics. -/
inductive DecodePanic
  /-- an `unwrap` of a read past the end of the data -/
  | read_past_end
  /-- `panic!("unknown event...")` of the packet loop -/
  | unknown_event
  /-- the `expect`s of `decode_decomp`, of the decoding or the decompression -/
  | decoding
deriving DecidableEq, Repr

/-! ## Reads of the cursor -/

/-- `read_u64::<BOrd>().unwrap()`. -/
def read_u64 (b : Buffer) (pos : ℕ) : Except DecodePanic (ℕ × ℕ) :=
  match b.read_le pos 8 with
  | some r => .ok r
  | none => .error .read_past_end

/-- `read_u16::<BOrd>().unwrap()`. -/
def read_u16 (b : Buffer) (pos : ℕ) : Except DecodePanic (ℕ × ℕ) :=
  match b.read_le pos 2 with
  | some r => .ok r
  | none => .error .read_past_end

/-- A name of an execution event: `read_exact` of 64 bytes, unwrapped, up to its first
    zero. -/
def read_name (b : Buffer) (pos : ℕ) : Except DecodePanic (List UInt8 × ℕ) :=
  match b.read_exact pos 64 with
  | some (buffer, pos) => .ok (buffer.takeWhile (· != 0), pos)
  | none => .error .read_past_end

/-! ## The execution events -/

/-- What the loop reads of an execution event of a known type. -/
structure ExecRecord where
  etype : ℕ
  ts : ℕ
  eid : ℕ
  function_str : List UInt8
  result_str : List UInt8
deriving DecidableEq, Repr

/-- The arms of the three known types: the id and the two names. -/
def read_named_event (b : Buffer) (etype ts pos : ℕ) :
    Except DecodePanic (Option ExecRecord × ℕ) := do
  let (eid, pos) ← read_u64 b pos
  let (function_str, pos) ← read_name b pos
  let (result_str, pos) ← read_name b pos
  pure (some ⟨etype, ts, eid, function_str, result_str⟩, pos)

/-- One turn of the execution-event loop: the type and the time, then the arm of the
    type; an unknown type reads one more `u64` and the event is skipped. -/
def read_execution_event (b : Buffer) (pos : ℕ) :
    Except DecodePanic ((ℕ × Option ExecRecord) × ℕ) := do
  let (etype, pos) ← read_u64 b pos
  let (ts, pos) ← read_u64 b pos
  let (ev, pos) ←
    if etype = BLOCK_EVENT_TYPE then read_named_event b etype ts pos
    else if etype = FUNC_EVENT_TYPE then read_named_event b etype ts pos
    else if etype = CONST_EVENT_TYPE then read_named_event b etype ts pos
    else do
      let (_, pos) ← read_u64 b pos
      pure (none, pos)
  pure ((ts, ev), pos)

/-- The loop over `n` execution events from `pos` (`for db_entry_index in
    1..=db_evt_counter`): the time of each, and the event if its type is known. -/
def execution_events_loop (b : Buffer) : ℕ → ℕ → Except DecodePanic (List (ℕ × Option ExecRecord)) :=
  run_steps (read_execution_event b)

/-- The execution events of a batch: the counter, a `u16` at the start, and from
    `LOCAL_EVENT_SIZE` on as many events as it says. -/
def parse_execution_events (db_cached_data : Buffer) :
    Except DecodePanic (List (ℕ × Option ExecRecord)) := do
  let (db_evt_counter, _) ← read_u16 db_cached_data 0
  execution_events_loop db_cached_data db_evt_counter LOCAL_EVENT_SIZE

/-! ## The packet events -/

/-- What the loop reads of a packet event. -/
structure PacketRecord where
  etype : ℕ
  ts : ℕ
  network_id : ℕ
deriving DecidableEq, Repr

/-- One turn of the packet loop: the type, the time and, for a sent or received packet,
    its network id; any other type panics. -/
def read_packet_event (b : Buffer) (pos : ℕ) : Except DecodePanic (PacketRecord × ℕ) := do
  let (etype, pos) ← read_u64 b pos
  let (ts, pos) ← read_u64 b pos
  if etype = PACKET_SEND_EVENT_TYPE ∨ etype = PACKET_RECV_EVENT_TYPE then
    let (network_id, pos) ← read_u64 b pos
    pure (⟨etype, ts, network_id⟩, pos)
  else throw .unknown_event

/-- The loop over `n` packet events from `pos` (`for pkt_entry_index in
    1..=pkt_evt_counter`). -/
def packet_events_loop (b : Buffer) : ℕ → ℕ → Except DecodePanic (List PacketRecord) :=
  run_steps (read_packet_event b)

/-- The packet events of a batch: `pkt_evt_counter`, the number of `LOCAL_EVENT_SIZE`
    bytes in the data, of them from the start. -/
def parse_packet_events (pkt_cached_data : Buffer) : Except DecodePanic (List PacketRecord) :=
  packet_events_loop pkt_cached_data (pkt_cached_data.len / LOCAL_EVENT_SIZE) 0

/-! ## The copies the server sends -/

variable {Wire : Type}

/-- `decode_decomp`: the bytes of a copy, or the panic of the `expect` of the decoding or
    the decompression. -/
def decode_decomp (codec : BatchCodec Wire) (raw_data : Wire) : Except DecodePanic Buffer :=
  match codec.decode_decomp raw_data with
  | some bytes => .ok (Buffer.ofList bytes)
  | none => .error .decoding

theorem decode_decomp_encode (codec : BatchCodec Wire) (bytes : List UInt8) :
    decode_decomp codec (codec.encode bytes) = .ok (Buffer.ofList bytes) := by
  rw [decode_decomp, codec.decode_encode]

section Agree

variable {b b' : Buffer} (h : b.Agree b')
include h

theorem read_u64_congr : read_u64 b = read_u64 b' := by
  funext pos
  rw [read_u64, read_u64, h.read_le]

theorem read_u16_congr : read_u16 b = read_u16 b' := by
  funext pos
  rw [read_u16, read_u16, h.read_le]

theorem read_name_congr : read_name b = read_name b' := by
  funext pos
  rw [read_name, read_name, h.read_exact]

theorem read_execution_event_congr : read_execution_event b = read_execution_event b' := by
  funext pos
  unfold read_execution_event read_named_event
  rw [read_u64_congr h, read_name_congr h]

/-- The decoding of the execution events reads only the bytes of the copy. -/
theorem parse_execution_events_congr : parse_execution_events b = parse_execution_events b' := by
  unfold parse_execution_events execution_events_loop
  rw [read_u16_congr h, read_execution_event_congr h]

end Agree

/-- **The copy of the segment is decoded as the segment.**  Whatever the codec, so long as
    it decodes what it encodes, the mediator reads the execution events from the bytes of
    the segment. -/
theorem parse_collect_events (codec : BatchCodec Wire) (shm : ℕ → UInt8) (shm_size : ℕ) :
    (decode_decomp codec (collect_events codec shm shm_size) >>= parse_execution_events) =
      parse_execution_events ⟨shm_size, shm⟩ := by
  rw [collect_events, decode_decomp_encode, ok_bind]
  exact parse_execution_events_congr (Buffer.agree_ofList_map_range shm shm_size)

/-! ## Reading the slots of the event buffer -/

theorem read_u64_of_le {b : Buffer} {pos : ℕ} (h : pos + 8 ≤ b.len) :
    read_u64 b pos = .ok (le_value b.byte pos 8, pos + 8) := by
  rw [read_u64, Buffer.read_le_of_le h]

theorem read_u64_of_lt {b : Buffer} {pos : ℕ} (h : b.len < pos + 8) :
    read_u64 b pos = .error .read_past_end := by
  rw [read_u64, Buffer.read_le_of_lt h]

theorem read_name_of_le {b : Buffer} {pos : ℕ} (h : pos + 64 ≤ b.len) :
    read_name b pos = .ok ((bytes_at b.byte pos 64).takeWhile (· != 0), pos + 64) := by
  rw [read_name, Buffer.read_exact_of_le h]

theorem read_name_of_lt {b : Buffer} {pos : ℕ} (h : b.len < pos + 64) :
    read_name b pos = .error .read_past_end := by
  rw [read_name, Buffer.read_exact_of_lt h]

/-- The record the loop should read of an event. -/
def record_of (e : ExecEvent) : ExecRecord :=
  ⟨e.type.toNat, e.timestamp.toNat, e.id.toNat, e.name, e.state⟩

/-- The type of `e` is that of one of the three triggers. -/
def ExecEvent_known (e : ExecEvent) : Prop :=
  e.type = Runtime.BLOCK_EVENT_TYPE ∨ e.type = Runtime.FUNC_EVENT_TYPE ∨
    e.type = Runtime.CONST_EVENT_TYPE

theorem known_toNat {e : ExecEvent} (h : ExecEvent_known e) :
    e.type.toNat = BLOCK_EVENT_TYPE ∨ e.type.toNat = FUNC_EVENT_TYPE ∨
      e.type.toNat = CONST_EVENT_TYPE := by
  rcases h with h | h | h <;> rw [h] <;> decide

/-- The three known types take the same arm of the loop. -/
theorem known_arm {α : Type} {etype : ℕ}
    (h : etype = BLOCK_EVENT_TYPE ∨ etype = FUNC_EVENT_TYPE ∨ etype = CONST_EVENT_TYPE) (x y : α) :
    (if etype = BLOCK_EVENT_TYPE then x else if etype = FUNC_EVENT_TYPE then x
      else if etype = CONST_EVENT_TYPE then x else y) = x := by
  rcases h with rfl | rfl | rfl <;> simp [BLOCK_EVENT_TYPE, FUNC_EVENT_TYPE, CONST_EVENT_TYPE]

/-- Any other type takes the arm that skips the event. -/
theorem unknown_arm {α : Type} {etype : ℕ} (h₁ : etype ≠ BLOCK_EVENT_TYPE)
    (h₂ : etype ≠ FUNC_EVENT_TYPE) (h₃ : etype ≠ CONST_EVENT_TYPE) (x y : α) :
    (if etype = BLOCK_EVENT_TYPE then x else if etype = FUNC_EVENT_TYPE then x
      else if etype = CONST_EVENT_TYPE then x else y) = y := by
  rw [if_neg h₁, if_neg h₂, if_neg h₃]

section Slot

variable {b : Buffer} {c : ℕ} {slots : ℕ → Option ExecEvent} (hb : b.byte = event_memory c slots)
  {k : ℕ} (hk : 0 < k) {e : ExecEvent} (he : slots k = some e)
include hb hk he

theorem byte_slot {o : ℕ} (ho : o < event_size) : b.byte (event_size * k + o) = e.byte o := by
  rw [hb, event_memory_slot hk ho, he]

/-- A number field of the event, of the 8 bytes at `off` of its slot. -/
theorem le_value_slot_field (off : ℕ) {v : ℕ} (hoff : off + 8 ≤ event_size) (hv : v < 2 ^ 64)
    (hbytes : ∀ j < 8, e.byte (off + j) = le_byte v j) :
    le_value b.byte (event_size * k + off) 8 = v :=
  le_value_of_eq_of_lt (fun j hj => by rw [Nat.add_assoc, byte_slot hb hk he (by omega), hbytes j hj])
    (by simpa using hv)

/-- A name of the event, of the 64 bytes at `off` of its slot. -/
theorem takeWhile_slot_name (off : ℕ) {s : List UInt8} (hoff : off + 64 ≤ event_size)
    (hs : s.length < 64) (h0 : 0 ∉ s) (hbytes : ∀ j ≤ s.length, e.byte (off + j) = s.getD j 0) :
    (bytes_at b.byte (event_size * k + off) 64).takeWhile (· != 0) = s :=
  takeWhile_bytes_at hs h0 fun j hj => by
    rw [Nat.add_assoc, byte_slot hb hk he (by omega), hbytes j hj]

/-- **A recorded slot is read whole.**  At the start of a slot that holds an event of a
    known type and lies in the buffer, the loop reads the event's record and the cursor
    ends at the next slot. -/
theorem read_execution_event_slot (hfit : e.Fits) (hknown : ExecEvent_known e)
    (hlen : event_size * (k + 1) ≤ b.len) :
    read_execution_event b (event_size * k) =
      .ok ((e.timestamp.toNat, some (record_of e)), event_size * (k + 1)) := by
  obtain ⟨hn, hn0, hs, hs0⟩ := hfit
  have hend : event_size * (k + 1) = event_size * k + 88 + 64 := by
    rw [Nat.mul_succ]
    rfl
  rw [hend] at hlen ⊢
  -- the five fields, one after the other
  have h1 : read_u64 b (event_size * k) = .ok (e.type.toNat, event_size * k + 8) := by
    have hv := le_value_slot_field hb hk he 0 (by decide) e.type.toNat_lt fun j hj => by
      rw [Nat.zero_add, e.byte_type hj]
    rw [Nat.add_zero] at hv
    rw [read_u64_of_le (by omega), hv]
  have h2 : read_u64 b (event_size * k + 8) = .ok (e.timestamp.toNat, event_size * k + 16) := by
    have hv := le_value_slot_field hb hk he 8 (by decide) e.timestamp.toNat_lt
      fun j hj => e.byte_timestamp hj
    rw [read_u64_of_le (by omega), hv]
  have h3 : read_u64 b (event_size * k + 16) = .ok (e.id.toNat, event_size * k + 24) := by
    have hv := le_value_slot_field hb hk he 16 (by decide) e.id.toNat_lt fun j hj => e.byte_id hj
    rw [read_u64_of_le (by omega), hv]
  have h4 : read_name b (event_size * k + 24) = .ok (e.name, event_size * k + 88) := by
    have hv := takeWhile_slot_name hb hk he 24 (by decide) hn hn0 fun j hj =>
      e.byte_name (by omega)
    rw [read_name_of_le (by omega), hv]
  have h5 : read_name b (event_size * k + 88) = .ok (e.state, event_size * k + 88 + 64) := by
    have hv := takeWhile_slot_name hb hk he 88 (by decide) hs hs0 fun j _ => e.byte_state j
    rw [read_name_of_le (by omega), hv]
  have h345 : read_named_event b e.type.toNat e.timestamp.toNat (event_size * k + 16) =
      .ok (some (record_of e), event_size * k + 88 + 64) := by
    simp only [read_named_event, h3, h4, h5, ok_bind]
    rfl
  simp only [read_execution_event, h1, h2, ok_bind, known_arm (known_toNat hknown), h345]
  rfl

end Slot

/-- A slot that is not all in the buffer makes one of the reads of its event panic. -/
theorem read_execution_event_slot_past_end {b : Buffer} {c : ℕ} {slots : ℕ → Option ExecEvent}
    (hb : b.byte = event_memory c slots) {k : ℕ} (hk : 0 < k) {e : ExecEvent}
    (he : slots k = some e) (hknown : ExecEvent_known e)
    (hlen : b.len < event_size * (k + 1)) :
    read_execution_event b (event_size * k) = .error .read_past_end := by
  have hend : event_size * (k + 1) = event_size * k + 88 + 64 := by
    rw [Nat.mul_succ]
    rfl
  rw [hend] at hlen
  -- the first read that does not fit panics
  by_cases h1 : b.len < event_size * k + 8
  · simp only [read_execution_event, read_u64_of_lt h1, error_bind]
  have hv1 := le_value_slot_field hb hk he 0 (by decide) e.type.toNat_lt fun j hj => by
    rw [Nat.zero_add, e.byte_type hj]
  rw [Nat.add_zero] at hv1
  by_cases h2 : b.len < event_size * k + 16
  · simp only [read_execution_event, read_u64_of_le (show event_size * k + 8 ≤ b.len by omega),
      ok_bind, read_u64_of_lt (show b.len < event_size * k + 8 + 8 by omega), error_bind]
  simp only [read_execution_event, read_u64_of_le (show event_size * k + 8 ≤ b.len by omega),
    ok_bind, read_u64_of_le (show event_size * k + 8 + 8 ≤ b.len by omega), hv1,
    known_arm (known_toNat hknown), read_named_event]
  by_cases h3 : b.len < event_size * k + 24
  · rw [read_u64_of_lt (show b.len < event_size * k + 8 + 8 + 8 by omega), error_bind, error_bind]
  rw [read_u64_of_le (show event_size * k + 8 + 8 + 8 ≤ b.len by omega), ok_bind]
  by_cases h4 : b.len < event_size * k + 88
  · rw [read_name_of_lt (show b.len < event_size * k + 8 + 8 + 8 + 64 by omega), error_bind,
      error_bind]
  rw [read_name_of_le (show event_size * k + 8 + 8 + 8 + 64 ≤ b.len by omega), ok_bind,
    read_name_of_lt (show b.len < event_size * k + 8 + 8 + 8 + 64 + 64 by omega), error_bind,
    error_bind]

/-- Where the slot holds zeros, the loop reads an event of type 0: it skips it after
    three `u64`, 24 bytes, whatever the size of a slot. -/
theorem read_execution_event_zeros {b : Buffer} {pos : ℕ} (hz : ∀ j < 24, b.byte (pos + j) = 0)
    (hlen : pos + 24 ≤ b.len) : read_execution_event b pos = .ok ((0, none), pos + 24) := by
  have hzero : ∀ off, off + 8 ≤ 24 → le_value b.byte (pos + off) 8 = 0 := fun off hoff => by
    have h : le_value b.byte (pos + off) 8 = 0 % 256 ^ 8 := le_value_of_eq fun j hj => by
      rw [Nat.add_assoc, hz (off + j) (by omega), le_byte_of_lt (Nat.pow_pos (by decide))]
    rwa [Nat.zero_mod] at h
  have h0 := hzero 0 (by decide)
  have h8 := hzero 8 (by decide)
  have h16 := hzero 16 (by decide)
  rw [Nat.add_zero] at h0
  simp only [read_execution_event, read_u64_of_le (show pos + 8 ≤ b.len by omega), h0, ok_bind,
    read_u64_of_le (show pos + 8 + 8 ≤ b.len by omega), h8,
    unknown_arm (show (0 : ℕ) ≠ BLOCK_EVENT_TYPE by decide) (by decide) (by decide),
    read_u64_of_le (show pos + 8 + 8 + 8 ≤ b.len by omega), h16]
  rfl

/-! ## The loop over the slots -/

/-- What the loop reads of a slot holding an event: its time and its record. -/
def slot_reading : Option ExecEvent → ℕ × Option ExecRecord
  | some e => (e.timestamp.toNat, some (record_of e))
  | none => (0, none)

/-- What the loop reads of the `n` slots from `k`, each holding an event. -/
def slot_readings (slots : ℕ → Option ExecEvent) (k n : ℕ) : List (ℕ × Option ExecRecord) :=
  (List.range' k n).map fun j => slot_reading (slots j)

@[simp] theorem length_slot_readings (slots : ℕ → Option ExecEvent) (k n : ℕ) :
    (slot_readings slots k n).length = n := by
  simp [slot_readings]

/-- Every slot from `k` on, `n` of them, holds an event that fits and is of a known type. -/
def Recorded (slots : ℕ → Option ExecEvent) (k n : ℕ) : Prop :=
  ∀ j < n, ∃ e, slots (k + j) = some e ∧ e.Fits ∧ ExecEvent_known e

theorem execution_events_loop_succ (b : Buffer) (n pos : ℕ) :
    execution_events_loop b (n + 1) pos =
      read_execution_event b pos >>= fun rp => (rp.1 :: ·) <$> execution_events_loop b n rp.2 :=
  run_steps_succ n pos

/-- **Loop lemma.**  Over recorded slots that lie in the buffer, the loop reads one slot a
    turn, and goes on from the next slot. -/
theorem execution_events_loop_recorded {b : Buffer} {c : ℕ} {slots : ℕ → Option ExecEvent}
    (hb : b.byte = event_memory c slots) (m n k : ℕ) (hk : 0 < k) (hrec : Recorded slots k n)
    (hlen : event_size * (k + n) ≤ b.len) :
    execution_events_loop b (n + m) (event_size * k) =
      (slot_readings slots k n ++ ·) <$> execution_events_loop b m (event_size * (k + n)) := by
  -- each turn reads the slot it stands at, by `read_execution_event_slot`
  have hreads : ∀ j (hj : j < (slot_readings slots k n).length),
      read_execution_event b (event_size * (k + j)) =
        .ok ((slot_readings slots k n)[j], event_size * (k + j + 1)) := fun j hj => by
    rw [length_slot_readings] at hj
    obtain ⟨e, he, hfit, hknown⟩ := hrec j hj
    have hslot : event_size * (k + j + 1) ≤ b.len :=
      Nat.le_trans (Nat.mul_le_mul_left _ (by omega)) hlen
    rw [read_execution_event_slot hb (by omega) he hfit hknown hslot]
    simp [slot_readings, slot_reading, he]
  have h := run_steps_stride m (slot_readings slots k n) k hreads
  rwa [length_slot_readings] at h

/-- The counter at the start of the buffer. -/
theorem read_u16_event_memory {b : Buffer} {c : ℕ} {slots : ℕ → Option ExecEvent}
    (hb : b.byte = event_memory c slots) (hc : c < 2 ^ 16) (hsize : 2 ≤ b.len) :
    read_u16 b 0 = .ok (c, 2) := by
  rw [read_u16, Buffer.read_le_of_le hsize, hb, le_value_event_memory slots hc]

/-- **The recorded slots are decoded.**  A buffer whose counter is below `2 ^ 16`, whose
    taken slots all hold events that fit and are of a known type, and which holds all of
    these slots, is decoded to their readings in slot order. -/
theorem parse_execution_events_recorded {b : Buffer} {c : ℕ} {slots : ℕ → Option ExecEvent}
    (hb : b.byte = event_memory c slots) (hc : c < 2 ^ 16) (hrec : Recorded slots 1 c)
    (hlen : event_size * (c + 1) ≤ b.len) :
    parse_execution_events b = .ok (slot_readings slots 1 c) := by
  have hloop := execution_events_loop_recorded hb 0 c 1 Nat.one_pos hrec
    (by rwa [Nat.add_comm 1 c])
  rw [Nat.add_zero, Nat.mul_one] at hloop
  simp only [parse_execution_events,
    read_u16_event_memory hb hc (by unfold event_size at hlen; omega), ok_bind]
  rw [show LOCAL_EVENT_SIZE = event_size from rfl, hloop]
  simp [execution_events_loop]

/-- **End to end, where the slots are all written.**  After any run of the threads of
    the runtime from a fresh buffer in which every taken slot holds its event, of a known
    type, and the taken slots lie in the segment, the mediator decodes the copy of the
    segment to these events in slot order. -/
theorem decode_collected_events (codec : BatchCodec Wire) {steps : List RuntimeStep}
    {s : EventSlots} (h : EventSlots.init.run steps = some s)
    (hrec : Recorded s.slots 1 s.counter) (hseg : event_size * (s.counter + 1) ≤ DB_SHM_SIZE) :
    (decode_decomp codec (collect_events codec (runtime_run (fun _ => 0) steps) DB_SHM_SIZE) >>=
      parse_execution_events) = .ok (slot_readings s.slots 1 s.counter) := by
  obtain ⟨hmem, hwf⟩ := runtime_run_event_memory h
  rw [parse_collect_events]
  exact parse_execution_events_recorded hmem hwf.counter_lt hrec hseg

/-- A thread takes slot 1 and records a block event in it: the mediator decodes that one
    event. -/
theorem decode_collected_events_block :
    ∃ s, EventSlots.init.run [.take, .record 1 ⟨1, 1, 7, [102], [115]⟩] = some s ∧
      Recorded s.slots 1 s.counter ∧ event_size * (s.counter + 1) ≤ DB_SHM_SIZE ∧
      (decode_decomp BatchCodec.plain (collect_events BatchCodec.plain
        (runtime_run (fun _ => 0) [.take, .record 1 ⟨1, 1, 7, [102], [115]⟩]) DB_SHM_SIZE) >>=
          parse_execution_events) = .ok (slot_readings s.slots 1 s.counter) := by
  refine ⟨?_, ?h, ?hrec, ?hseg, decode_collected_events BatchCodec.plain ?h ?hrec ?hseg⟩
  case h => rfl
  case hrec =>
    intro j hj
    obtain rfl : j = 0 := Nat.lt_one_iff.1 hj
    exact ⟨⟨1, 1, 7, [102], [115]⟩, rfl, by decide, Or.inl rfl⟩
  case hseg => decide

/-- A taken slot that still holds zeros is not skipped as one slot: with two slots taken
    and the first of them not yet written, both turns of the loop read inside the first
    slot, 24 bytes each, and the second slot is never read. -/
theorem parse_unwritten_slot_one {slots : ℕ → Option ExecEvent} (h1 : slots 1 = none) :
    parse_execution_events ⟨DB_SHM_SIZE, event_memory 2 slots⟩ =
      .ok [(0, none), (0, none)] := by
  have hz : ∀ o < 48, (Buffer.mk DB_SHM_SIZE (event_memory 2 slots)).byte
      (event_size * 1 + o) = 0 := fun o ho => by
    show event_memory 2 slots (event_size * 1 + o) = 0
    rw [event_memory_slot Nat.one_pos (by unfold event_size; omega), h1]
  have r1 : read_execution_event ⟨DB_SHM_SIZE, event_memory 2 slots⟩
      (event_size * 1) = .ok ((0, none), event_size * 1 + 24) :=
    read_execution_event_zeros (fun j hj => hz j (by omega))
      (show event_size * 1 + 24 ≤ DB_SHM_SIZE by decide)
  have r2 : read_execution_event ⟨DB_SHM_SIZE, event_memory 2 slots⟩
      (event_size * 1 + 24) = .ok ((0, none), event_size * 1 + 24 + 24) :=
    read_execution_event_zeros (fun j hj => by rw [Nat.add_assoc]; exact hz (24 + j) (by omega))
      (show event_size * 1 + 24 + 24 ≤ DB_SHM_SIZE by decide)
  simp only [parse_execution_events, read_u16_event_memory (b := ⟨DB_SHM_SIZE, event_memory 2 slots⟩)
    rfl (by decide) (show 2 ≤ DB_SHM_SIZE by decide), ok_bind, show LOCAL_EVENT_SIZE = event_size * 1 from rfl]
  rw [execution_events_loop_succ, r1, ok_bind, execution_events_loop_succ, r2, ok_bind]
  rfl

/-- Slots past the segment: the segment holds the counter and 10346 slots whole, so when
    more slots are taken and all hold events, the read of slot 10347 runs past the end of
    the copy and panics. -/
theorem parse_past_segment {c : ℕ} {slots : ℕ → Option ExecEvent} (hc : c < 2 ^ 16)
    (hover : DB_SHM_SIZE < event_size * (c + 1)) (hrec : Recorded slots 1 c) :
    parse_execution_events ⟨DB_SHM_SIZE, event_memory c slots⟩ =
      .error .read_past_end := by
  have hc' : 10346 < c := by
    unfold DB_SHM_SIZE event_size at hover
    omega
  have hfirst : Recorded slots 1 10346 := fun j hj => hrec j (by omega)
  obtain ⟨e, he, -, hknown⟩ := hrec 10346 hc'
  -- the first 10346 slots are read whole, and the loop stands at slot 10347
  have hloop : execution_events_loop ⟨DB_SHM_SIZE, event_memory c slots⟩
      c (event_size * 1) =
        (slot_readings slots 1 10346 ++ ·) <$> execution_events_loop
          ⟨DB_SHM_SIZE, event_memory c slots⟩ (c - 10346)
          (event_size * (1 + 10346)) := by
    have h := execution_events_loop_recorded
      (b := ⟨DB_SHM_SIZE, event_memory c slots⟩) rfl (c - 10346) 10346 1
      Nat.one_pos hfirst (show event_size * (1 + 10346) ≤ DB_SHM_SIZE by decide)
    rwa [Nat.add_sub_cancel' (Nat.le_of_lt hc')] at h
  have hlast : read_execution_event ⟨DB_SHM_SIZE, event_memory c slots⟩
      (event_size * (1 + 10346)) = .error .read_past_end :=
    read_execution_event_slot_past_end rfl (by decide) he hknown
      (show DB_SHM_SIZE < event_size * (1 + 10346 + 1) by decide)
  obtain ⟨m, hm⟩ : ∃ m, c - 10346 = m + 1 := ⟨c - 10347, by omega⟩
  simp only [parse_execution_events, read_u16_event_memory (b := ⟨DB_SHM_SIZE, event_memory c slots⟩)
    rfl hc (show 2 ≤ DB_SHM_SIZE by decide),
    ok_bind, show LOCAL_EVENT_SIZE = event_size * 1 from rfl]
  rw [hloop, hm, execution_events_loop_succ, hlast]
  rfl

/-- **The execution events are misread.**  Whatever the other slots hold, a taken slot 1
    that still holds zeros before slot 2 makes the loop read two skipped events inside
    slot 1, and never slot 2; and whenever more than 10346 slots are taken, all holding
    events, the decoding of the copy of the segment panics. -/
theorem execution_events_misread (codec : BatchCodec Wire) (slots : ℕ → Option ExecEvent) :
    (slots 1 = none →
      (decode_decomp codec (collect_events codec (event_memory 2 slots) DB_SHM_SIZE) >>=
        parse_execution_events) = .ok [(0, none), (0, none)]) ∧
    ∀ c < 2 ^ 16, DB_SHM_SIZE < event_size * (c + 1) → Recorded slots 1 c →
      (decode_decomp codec (collect_events codec (event_memory c slots) DB_SHM_SIZE) >>=
        parse_execution_events) = .error .read_past_end := by
  refine ⟨fun h1 => ?_, fun c hc hover hrec => ?_⟩
  · rw [parse_collect_events]
    exact parse_unwritten_slot_one h1
  · rw [parse_collect_events]
    exact parse_past_segment hc hover hrec

/-- A block event in slot 2 behind an unwritten slot 1 is not decoded, and 10347 slots
    holding it make the decoding panic. -/
theorem execution_events_misread_block :
    (fun k => if k = 2 then some (⟨1, 1, 7, [102], [115]⟩ : ExecEvent) else none) 1 = none ∧
      (decode_decomp BatchCodec.plain (collect_events BatchCodec.plain (event_memory 2 fun k =>
        if k = 2 then some ⟨1, 1, 7, [102], [115]⟩ else none) DB_SHM_SIZE) >>=
          parse_execution_events) = .ok [(0, none), (0, none)] ∧
      Recorded (fun k => if 0 < k ∧ k ≤ 10347 then some ⟨1, 1, 7, [102], [115]⟩ else none) 1
        10347 ∧
      (decode_decomp BatchCodec.plain (collect_events BatchCodec.plain (event_memory 10347
        fun k => if 0 < k ∧ k ≤ 10347 then some ⟨1, 1, 7, [102], [115]⟩ else none) DB_SHM_SIZE) >>=
          parse_execution_events) = .error .read_past_end := by
  have hrec : Recorded (fun k => if 0 < k ∧ k ≤ 10347 then
      some (⟨1, 1, 7, [102], [115]⟩ : ExecEvent) else none) 1 10347 := fun j hj =>
    ⟨_, if_pos ⟨by omega, by omega⟩, by decide, Or.inl rfl⟩
  exact ⟨rfl, (execution_events_misread BatchCodec.plain _).1 rfl, hrec,
    (execution_events_misread BatchCodec.plain _).2 10347 (by decide) (by decide) hrec⟩

/-! ## Reading the packets -/

/-- The record the packet loop should read of a packet entry. -/
def packet_record_of (p : PacketEntry) : PacketRecord :=
  ⟨p.event_type.toNat, p.monotonic_time.toNat, p.packet_id.toNat⟩

/-- The entry is of a sent or a received packet, the two types the server records. -/
def PacketEntry_reported (p : PacketEntry) : Prop :=
  p.event_type = CovServer.PACKET_SEND_EVENT_TYPE ∨ p.event_type = CovServer.PACKET_RECV_EVENT_TYPE

theorem reported_toNat {p : PacketEntry} (h : PacketEntry_reported p) :
    p.event_type.toNat = PACKET_SEND_EVENT_TYPE ∨ p.event_type.toNat = PACKET_RECV_EVENT_TYPE := by
  rcases h with h | h
  · exact Or.inl (by rw [h]; rfl)
  · exact Or.inr (by rw [h]; rfl)

/-- **An entry is read whole.**  At the start of entry `k` of the packets, of a reported
    type, the loop reads its record and the cursor ends at the next entry. -/
theorem read_packet_event_entry {ps : List PacketEntry} {k : ℕ} (hk : k < ps.length)
    (htype : PacketEntry_reported ps[k]) :
    read_packet_event (Buffer.ofList (packet_bytes ps)) (packet_entry_size * k) =
      .ok (packet_record_of ps[k], packet_entry_size * (k + 1)) := by
  have hend : packet_entry_size * (k + 1) = packet_entry_size * k + 8 + 8 + 8 := by
    rw [Nat.mul_succ]
    rfl
  have hlen : packet_entry_size * k + 8 + 8 + 8 ≤ (Buffer.ofList (packet_bytes ps)).len := by
    have h := Nat.mul_le_mul_left packet_entry_size (Nat.succ_le_of_lt hk)
    rwa [hend, ← length_packet_bytes, ← Buffer.ofList_len] at h
  -- a field of the entry, of the 8 bytes at `off` of it
  have hfield : ∀ off v, off + 8 ≤ packet_entry_size → v < 2 ^ 64 →
      (∀ j < 8, ps[k].byte (off + j) = le_byte v j) →
        le_value (Buffer.ofList (packet_bytes ps)).byte (packet_entry_size * k + off) 8 = v :=
    fun off v hoff hv hbytes => le_value_of_eq_of_lt (fun j hj => by
      rw [Nat.add_assoc, Buffer.ofList_byte (getElem?_packet_bytes (by omega)
        (List.getElem?_eq_getElem hk)), hbytes j hj]) (by simpa using hv)
  have h1 : read_u64 (Buffer.ofList (packet_bytes ps)) (packet_entry_size * k) =
      .ok (ps[k].event_type.toNat, packet_entry_size * k + 8) := by
    have hv := hfield 0 _ (by decide) ps[k].event_type.toNat_lt fun j hj => by
      rw [Nat.zero_add, PacketEntry.byte_event_type _ hj]
    rw [Nat.add_zero] at hv
    rw [read_u64_of_le (by omega), hv]
  have h2 : read_u64 (Buffer.ofList (packet_bytes ps)) (packet_entry_size * k + 8) =
      .ok (ps[k].monotonic_time.toNat, packet_entry_size * k + 8 + 8) := by
    have hv := hfield 8 _ (by decide) ps[k].monotonic_time.toNat_lt
      fun j hj => PacketEntry.byte_monotonic_time _ hj
    rw [read_u64_of_le (by omega), hv]
  have h3 : read_u64 (Buffer.ofList (packet_bytes ps)) (packet_entry_size * k + 8 + 8) =
      .ok (ps[k].packet_id.toNat, packet_entry_size * k + 8 + 8 + 8) := by
    have hv := hfield 16 _ (by decide) ps[k].packet_id.toNat_lt
      fun j _ => PacketEntry.byte_packet_id _ j
    rw [read_u64_of_le (by omega), hv]
  simp only [read_packet_event, h1, h2, ok_bind, if_pos (reported_toNat htype), h3, hend]
  rfl

/-- **Loop lemma of the packets.**  Over entries of reported types, the first `n` turns
    of the loop read the first `n` entries, in order. -/
theorem packet_events_loop_collect {ps : List PacketEntry}
    (hps : ∀ p ∈ ps, PacketEntry_reported p) {n : ℕ} (hn : n ≤ ps.length) :
    packet_events_loop (Buffer.ofList (packet_bytes ps)) n 0 =
      .ok ((ps.take n).map packet_record_of) := by
  have hreads : ∀ j (hj : j < ((ps.take n).map packet_record_of).length),
      read_packet_event (Buffer.ofList (packet_bytes ps)) (packet_entry_size * (0 + j)) =
        .ok (((ps.take n).map packet_record_of)[j], packet_entry_size * (0 + j + 1)) :=
    fun j hj => by
      have hj' : j < ps.length := by simp at hj; omega
      rw [Nat.zero_add, read_packet_event_entry hj' (hps _ (List.getElem_mem hj'))]
      simp
  have h := run_steps_stride 0 ((ps.take n).map packet_record_of) 0 hreads
  rw [List.length_map, List.length_take, Nat.min_eq_left hn, Nat.add_zero, Nat.mul_zero] at h
  rw [packet_events_loop, h]
  simp

/-- **Packets are lost.**  The packets of a batch, all sent or received, are decoded in
    order, but only as many of them as `LOCAL_EVENT_SIZE` bytes fit in their copy: the
    first `24 k / 152` of `k`, fewer than `k` whenever there are any. -/
theorem parse_packet_events_collect (codec : BatchCodec Wire) (ps : List PacketEntry)
    (hps : ∀ p ∈ ps, PacketEntry_reported p) :
    (decode_decomp codec (collect_and_clear_packets codec ps) >>= parse_packet_events) =
      .ok ((ps.take (packet_entry_size * ps.length / LOCAL_EVENT_SIZE)).map packet_record_of) ∧
    (ps ≠ [] → packet_entry_size * ps.length / LOCAL_EVENT_SIZE < ps.length) := by
  have hcount : packet_entry_size * ps.length / LOCAL_EVENT_SIZE ≤ ps.length :=
    Nat.div_le_of_le_mul (by unfold packet_entry_size LOCAL_EVENT_SIZE; omega)
  refine ⟨?_, fun hne => ?_⟩
  · rw [collect_and_clear_packets, decode_decomp_encode, ok_bind, parse_packet_events,
      Buffer.ofList_len, length_packet_bytes]
    exact packet_events_loop_collect hps hcount
  have hpos := List.length_pos_iff.2 hne
  exact Nat.div_lt_of_lt_mul (by unfold packet_entry_size LOCAL_EVENT_SIZE; omega)

/-- One sent packet is not decoded at all. -/
theorem parse_packet_events_collect_send :
    (∀ p ∈ [(⟨3, 1, 7⟩ : PacketEntry)], PacketEntry_reported p) ∧
      (decode_decomp BatchCodec.plain (collect_and_clear_packets BatchCodec.plain [⟨3, 1, 7⟩]) >>=
        parse_packet_events) = .ok [] := by
  have hps : ∀ p ∈ [(⟨3, 1, 7⟩ : PacketEntry)], PacketEntry_reported p := by
    intro p hp
    rw [List.mem_singleton.1 hp]
    exact Or.inl rfl
  refine ⟨hps, ?_⟩
  rw [(parse_packet_events_collect BatchCodec.plain _ hps).1]
  rfl

end Abstraktor.Mediator
