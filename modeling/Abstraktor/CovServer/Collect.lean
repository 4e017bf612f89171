/-
  The copies of the event buffer and of the packets that the coverage server
  sends with each batch (src/mallory/cov-server/src/main.rs).

  * `DB_SHM_SIZE` is the size of the shared segment that holds the event
    buffer: 24 bytes for each of `2 ^ 16` slots;
  * `collect_events` sends the whole segment;
  * `collect_and_clear_packets` sends the packet entries of the batch one after
    the other, each as its `repr(C)` bytes: three `u64` (`packet_bytes`).

  Both copies are compressed and encoded in base64 (`compress_prepend_size`,
  `base64::encode`), and the mediator's `decode_decomp` undoes the two.  The
  pair is a `BatchCodec`, which carries the law that it decodes what it
  encodes.
-/
import Abstraktor.Lib.Bytes

namespace Abstraktor.CovServer

open Bytes

/-- The size of the shared segment of the event buffer, `24 * (1 << 16)`. -/
def DB_SHM_SIZE : ℕ := 24 * 2 ^ 16

def PACKET_SEND_EVENT_TYPE : UInt64 := 3
def PACKET_RECV_EVENT_TYPE : UInt64 := 4

/-- How the copies of a batch travel: `base64::encode(compress_prepend_size(bytes))` on
    the server, and on the mediator `decode_decomp`, `base64::decode` then
    `decompress_size_prepended`, with `none` for the panic of their `expect`s.  The
    two crates decode what they encode. -/
structure BatchCodec (Wire : Type) where
  encode : List UInt8 → Wire
  decode_decomp : Wire → Option (List UInt8)
  decode_encode : ∀ bytes, decode_decomp (encode bytes) = some bytes

/-- The codec that sends the bytes as they are. -/
def BatchCodec.plain : BatchCodec (List UInt8) := ⟨id, some, fun _ => rfl⟩

variable {Wire : Type}

/-- `collect_events`: the `shm_size` bytes of the shared segment, compressed and
    encoded. -/
def collect_events (codec : BatchCodec Wire) (shm : ℕ → UInt8) (shm_size : ℕ) : Wire :=
  codec.encode ((List.range shm_size).map shm)

/-- A packet event that the server recorded. -/
structure PacketEntry where
  event_type : UInt64
  monotonic_time : UInt64
  packet_id : UInt64
deriving DecidableEq, Repr

/-- `size_of::<PacketEntry>()`: three `u64` under `repr(C, align(8))`. -/
def packet_entry_size : ℕ := 24

/-- Byte `o` of a packet entry in memory (`any_as_u8_slice`): its fields in order. -/
def PacketEntry.byte (p : PacketEntry) (o : ℕ) : UInt8 :=
  if o < 8 then le_byte p.event_type.toNat o
  else if o < 16 then le_byte p.monotonic_time.toNat (o - 8)
  else le_byte p.packet_id.toNat (o - 16)

theorem PacketEntry.byte_event_type (p : PacketEntry) {j : ℕ} (hj : j < 8) :
    p.byte j = le_byte p.event_type.toNat j := by
  rw [PacketEntry.byte, if_pos hj]

theorem PacketEntry.byte_monotonic_time (p : PacketEntry) {j : ℕ} (hj : j < 8) :
    p.byte (8 + j) = le_byte p.monotonic_time.toNat j := by
  rw [PacketEntry.byte, if_neg (by omega), if_pos (by omega), Nat.add_sub_cancel_left]

theorem PacketEntry.byte_packet_id (p : PacketEntry) (j : ℕ) :
    p.byte (16 + j) = le_byte p.packet_id.toNat j := by
  rw [PacketEntry.byte, if_neg (by omega), if_neg (by omega), Nat.add_sub_cancel_left]

/-- `any_as_u8_slice` of a packet entry: its `size_of::<PacketEntry>()` bytes. -/
def any_as_u8_slice (p : PacketEntry) : List UInt8 := (List.range packet_entry_size).map p.byte

/-- The bytes of the entries of the batch, concatenated. -/
def packet_bytes (packets : List PacketEntry) : List UInt8 := (packets.map any_as_u8_slice).flatten

/-- `collect_and_clear_packets`: the bytes of the entries of the batch, compressed and
    encoded. -/
def collect_and_clear_packets (codec : BatchCodec Wire) (packets : List PacketEntry) : Wire :=
  codec.encode (packet_bytes packets)

@[simp] theorem length_any_as_u8_slice (p : PacketEntry) :
    (any_as_u8_slice p).length = packet_entry_size := by
  simp [any_as_u8_slice]

theorem length_packet_bytes (packets : List PacketEntry) :
    (packet_bytes packets).length = packet_entry_size * packets.length := by
  induction packets with
  | nil => rfl
  | cons p ps ih =>
    simp only [packet_bytes, List.map_cons, List.flatten_cons, List.length_append] at ih ⊢
    rw [ih, length_any_as_u8_slice, List.length_cons, Nat.mul_succ, Nat.add_comm]

/-- Byte `o` of entry `k` of the batch is at `packet_entry_size * k + o` of its bytes. -/
theorem getElem?_packet_bytes {o : ℕ} (ho : o < packet_entry_size) {p : PacketEntry} :
    ∀ {packets : List PacketEntry} {k : ℕ}, packets[k]? = some p →
      (packet_bytes packets)[packet_entry_size * k + o]? = some (p.byte o)
  | [], _, hp => absurd hp (by simp)
  | q :: qs, 0, hp => by
    cases (List.getElem?_cons_zero ▸ hp : some q = some p)
    rw [packet_bytes, List.map_cons, List.flatten_cons, Nat.mul_zero, Nat.zero_add,
      List.getElem?_append_left (by rw [length_any_as_u8_slice]; exact ho), any_as_u8_slice,
      List.getElem?_map, List.getElem?_range ho, Option.map_some]
  | q :: qs, k + 1, hp => by
    have h := getElem?_packet_bytes ho (List.getElem?_cons_succ ▸ hp : qs[k]? = some p)
    rw [packet_bytes, List.map_cons, List.flatten_cons,
      List.getElem?_append_right (by rw [length_any_as_u8_slice, Nat.mul_succ]; omega),
      length_any_as_u8_slice, show packet_entry_size * (k + 1) + o - packet_entry_size =
        packet_entry_size * k + o by rw [Nat.mul_succ]; omega]
    exact h

end Abstraktor.CovServer
