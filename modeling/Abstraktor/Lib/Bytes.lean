/-
  Memories of bytes, little-endian numbers and C strings in them, and reading a
  buffer through a cursor.

  A memory is a function from addresses to bytes; a buffer is a memory with a
  length, whose cursor fails to read past the end.

  * `le_value m pos n` is the number held by the `n` bytes from `pos`, least
    significant first; `write_le` writes one, and `le_value_of_eq` reads back a
    number from bytes that are those of its encoding (`le_byte`);
  * `write_cstr` is `strcpy`: the bytes of a string and a terminating zero;
    `takeWhile_bytes_at` reads such a string back up to its first zero;
  * a write leaves every address outside its range as it was
    (`write_le_of_not_mem`, `write_cstr_of_not_mem`);
  * `Buffer.read_le` and `Buffer.read_exact` are the reads of a cursor, which read only
    the bytes of the buffer (`Buffer.Agree.read_le`, `Buffer.Agree.read_exact`);
    `Buffer.ofList` is the buffer of a list of bytes.
-/
import Mathlib

namespace Bytes

/-! ## Little-endian numbers -/

/-- The number held by the `n` bytes of `m` from `pos`, least significant first. -/
def le_value (m : ℕ → UInt8) (pos : ℕ) : ℕ → ℕ
  | 0 => 0
  | n + 1 => (m pos).toNat + 256 * le_value m (pos + 1) n

/-- Byte `i` of the little-endian encoding of `v`. -/
def le_byte (v i : ℕ) : UInt8 := UInt8.ofNat (v / 256 ^ i)

/-- The `n`-byte little-endian encoding of `v`, written at `pos`. -/
def write_le (m : ℕ → UInt8) (pos n v : ℕ) (i : ℕ) : UInt8 :=
  if pos ≤ i ∧ i < pos + n then le_byte v (i - pos) else m i

theorem le_byte_toNat (v i : ℕ) : (le_byte v i).toNat = v / 256 ^ i % 256 := by
  simp [le_byte]

theorem le_byte_succ (v i : ℕ) : le_byte v (i + 1) = le_byte (v / 256) i := by
  rw [le_byte, le_byte, Nat.pow_succ, Nat.mul_comm, ← Nat.div_div_eq_div_mul]

theorem le_byte_of_lt {v i : ℕ} (h : v < 256 ^ i) : le_byte v i = 0 := by
  rw [le_byte, Nat.div_eq_of_lt h]
  rfl

theorem le_value_congr {m m' : ℕ → UInt8} :
    ∀ {pos n : ℕ}, (∀ j < n, m (pos + j) = m' (pos + j)) → le_value m pos n = le_value m' pos n
  | _, 0, _ => rfl
  | pos, n + 1, h => by
    have h0 := h 0 (Nat.succ_pos n)
    rw [Nat.add_zero] at h0
    have hs : ∀ j < n, m (pos + 1 + j) = m' (pos + 1 + j) := fun j hj => by
      rw [Nat.add_assoc, Nat.add_comm 1 j]
      exact h (j + 1) (by omega)
    rw [le_value, le_value, h0, le_value_congr hs]

/-- Bytes that are those of the encoding of `v` hold `v`, up to the width. -/
theorem le_value_of_eq {m : ℕ → UInt8} :
    ∀ {pos n v : ℕ}, (∀ j < n, m (pos + j) = le_byte v j) → le_value m pos n = v % 256 ^ n
  | _, 0, v, _ => by simp [le_value, Nat.mod_one]
  | pos, n + 1, v, h => by
    have h0 := h 0 (Nat.succ_pos n)
    rw [Nat.add_zero] at h0
    -- the bytes after the first are those of `v / 256`
    have hs : ∀ j < n, m (pos + 1 + j) = le_byte (v / 256) j := fun j hj => by
      rw [Nat.add_assoc, Nat.add_comm 1 j, ← le_byte_succ]
      exact h (j + 1) (by omega)
    rw [le_value, h0, le_byte_toNat, le_value_of_eq hs, Nat.pow_zero, Nat.div_one, Nat.pow_succ,
      Nat.mul_comm _ 256, Nat.mod_mul]

theorem le_value_of_eq_of_lt {m : ℕ → UInt8} {pos n v : ℕ}
    (h : ∀ j < n, m (pos + j) = le_byte v j) (hv : v < 256 ^ n) : le_value m pos n = v := by
  rw [le_value_of_eq h, Nat.mod_eq_of_lt hv]

theorem le_value_lt (m : ℕ → UInt8) : ∀ (pos n : ℕ), le_value m pos n < 256 ^ n
  | _, 0 => by simp [le_value]
  | pos, n + 1 => by
    have h := le_value_lt m (pos + 1) n
    have hb := (m pos).toNat_lt
    rw [le_value, Nat.pow_succ]
    omega

theorem write_le_of_not_mem {m : ℕ → UInt8} {pos n v i : ℕ} (h : i < pos ∨ pos + n ≤ i) :
    write_le m pos n v i = m i := by
  rw [write_le, if_neg (by omega)]

theorem write_le_of_mem {m : ℕ → UInt8} {pos n v i : ℕ} (h₁ : pos ≤ i) (h₂ : i < pos + n) :
    write_le m pos n v i = le_byte v (i - pos) := by
  rw [write_le, if_pos ⟨h₁, h₂⟩]

/-! ## C strings -/

/-- `strcpy`: the bytes of `s` and a terminating zero, written at `pos`. -/
def write_cstr (m : ℕ → UInt8) (pos : ℕ) (s : List UInt8) (i : ℕ) : UInt8 :=
  if pos ≤ i ∧ i ≤ pos + s.length then s.getD (i - pos) 0 else m i

/-- The `n` bytes of `m` from `pos`. -/
def bytes_at (m : ℕ → UInt8) (pos : ℕ) : ℕ → List UInt8
  | 0 => []
  | n + 1 => m pos :: bytes_at m (pos + 1) n

theorem write_cstr_of_not_mem {m : ℕ → UInt8} {pos i : ℕ} {s : List UInt8}
    (h : i < pos ∨ pos + s.length < i) : write_cstr m pos s i = m i := by
  rw [write_cstr, if_neg (by omega)]

/-- A string without zeros, followed by a zero within `n` bytes, is what the `n`
    bytes hold up to their first zero. -/
theorem takeWhile_bytes_at {m : ℕ → UInt8} :
    ∀ {pos n : ℕ} {s : List UInt8}, s.length < n → 0 ∉ s →
      (∀ j ≤ s.length, m (pos + j) = s.getD j 0) → (bytes_at m pos n).takeWhile (· != 0) = s
  | _, 0, _, hn, _, _ => absurd hn (Nat.not_lt_zero _)
  | pos, n + 1, [], _, _, hm => by
    have h0 := hm 0 (Nat.le_refl 0)
    rw [Nat.add_zero] at h0
    simp [bytes_at, h0]
  | pos, n + 1, a :: s, hn, h0, hm => by
    have ha : m pos = a := by simpa using hm 0 (Nat.zero_le _)
    have hne : a ≠ 0 := fun h => h0 (h ▸ List.mem_cons_self)
    -- the rest of the bytes hold the rest of the string
    have hs : ∀ j ≤ s.length, m (pos + 1 + j) = s.getD j 0 := fun j hj => by
      rw [Nat.add_assoc, Nat.add_comm 1 j]
      simpa using hm (j + 1) (by simp; omega)
    have ih : (bytes_at m (pos + 1) n).takeWhile (· != 0) = s :=
      takeWhile_bytes_at (by simp at hn; omega) (fun h => h0 (List.mem_cons_of_mem a h)) hs
    simp [bytes_at, ha, hne, ih]

theorem bytes_at_congr {m m' : ℕ → UInt8} :
    ∀ {pos n : ℕ}, (∀ j < n, m (pos + j) = m' (pos + j)) → bytes_at m pos n = bytes_at m' pos n
  | _, 0, _ => rfl
  | pos, n + 1, h => by
    have h0 := h 0 (Nat.succ_pos n)
    rw [Nat.add_zero] at h0
    have hs : ∀ j < n, m (pos + 1 + j) = m' (pos + 1 + j) := fun j hj => by
      rw [Nat.add_assoc, Nat.add_comm 1 j]
      exact h (j + 1) (by omega)
    rw [bytes_at, bytes_at, h0, bytes_at_congr hs]

/-! ## Buffers and cursors -/

/-- A buffer of `len` bytes. -/
structure Buffer where
  len : ℕ
  byte : ℕ → UInt8

/-- A read of a number of `n` bytes at `pos` by a cursor (`read_u64`, `read_u16`):
    the number and the next position, or nothing past the end. -/
def Buffer.read_le (b : Buffer) (pos n : ℕ) : Option (ℕ × ℕ) :=
  if pos + n ≤ b.len then some (le_value b.byte pos n, pos + n) else none

/-- `read_exact` of `n` bytes at `pos` by a cursor. -/
def Buffer.read_exact (b : Buffer) (pos n : ℕ) : Option (List UInt8 × ℕ) :=
  if pos + n ≤ b.len then some (bytes_at b.byte pos n, pos + n) else none

section Cursor

variable {b : Buffer} {pos n : ℕ}

theorem Buffer.read_le_of_le (h : pos + n ≤ b.len) :
    b.read_le pos n = some (le_value b.byte pos n, pos + n) := by
  rw [Buffer.read_le, if_pos h]

theorem Buffer.read_le_of_lt (h : b.len < pos + n) : b.read_le pos n = none := by
  rw [Buffer.read_le, if_neg (by omega)]

theorem Buffer.read_exact_of_le (h : pos + n ≤ b.len) :
    b.read_exact pos n = some (bytes_at b.byte pos n, pos + n) := by
  rw [Buffer.read_exact, if_pos h]

theorem Buffer.read_exact_of_lt (h : b.len < pos + n) : b.read_exact pos n = none := by
  rw [Buffer.read_exact, if_neg (by omega)]

/-- The buffer of a list of bytes, as a cursor over a vector reads it. -/
def Buffer.ofList (l : List UInt8) : Buffer := ⟨l.length, fun i => l.getD i 0⟩

@[simp] theorem Buffer.ofList_len (l : List UInt8) : (Buffer.ofList l).len = l.length := rfl

theorem Buffer.ofList_byte {l : List UInt8} {i : ℕ} {x : UInt8} (h : l[i]? = some x) :
    (Buffer.ofList l).byte i = x := by
  simp only [Buffer.ofList, List.getD_eq_getElem?_getD, h, Option.getD_some]

/-- Two buffers of one length, with the same bytes up to it. -/
structure Buffer.Agree (b b' : Buffer) : Prop where
  len : b.len = b'.len
  byte : ∀ i < b.len, b.byte i = b'.byte i

/-- **A cursor reads only the bytes of its buffer.** -/
theorem Buffer.Agree.read_le {b' : Buffer} (h : b.Agree b') : b.read_le = b'.read_le := by
  funext pos n
  by_cases hle : pos + n ≤ b.len
  · rw [Buffer.read_le_of_le hle, Buffer.read_le_of_le (h.len ▸ hle),
      le_value_congr fun j hj => h.byte _ (by omega)]
  · rw [Buffer.read_le_of_lt (by omega), Buffer.read_le_of_lt (by rw [← h.len]; omega)]

theorem Buffer.Agree.read_exact {b' : Buffer} (h : b.Agree b') : b.read_exact = b'.read_exact := by
  funext pos n
  by_cases hle : pos + n ≤ b.len
  · rw [Buffer.read_exact_of_le hle, Buffer.read_exact_of_le (h.len ▸ hle),
      bytes_at_congr fun j hj => h.byte _ (by omega)]
  · rw [Buffer.read_exact_of_lt (by omega), Buffer.read_exact_of_lt (by rw [← h.len]; omega)]

/-- The first `n` bytes of a memory, as a list, make the buffer of those bytes. -/
theorem Buffer.agree_ofList_map_range (m : ℕ → UInt8) (n : ℕ) :
    (Buffer.ofList ((List.range n).map m)).Agree ⟨n, m⟩ where
  len := List.length_map _ |>.trans List.length_range
  byte i hi := by
    rw [Buffer.ofList_len, List.length_map, List.length_range] at hi
    exact Buffer.ofList_byte (by rw [List.getElem?_map, List.getElem?_range hi, Option.map_some])

end Cursor

end Bytes
