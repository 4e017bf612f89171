/-
  The Rust string operations that abstraktor and the mediator call, on strings
  modelled as lists of characters (a byte offset of the source is the matching
  character index here, which yields the same sub-strings).

  * `is_whitespace` is the Unicode `White_Space` property, as `char::is_whitespace`
    and the `\s` class of the regex crate use it; `trim`, `trim_start`, `trim_end`
    strip it;
  * `lines` splits at `\n`, dropping a `\r` before it, with no empty last line;
  * `find` is `ListSearch.findSub`, `split` is `ListSearch.splitOn`;
  * `parse_u32` is `u32::from_str`: an optional `+`, then ASCII digits, with no
    overflow past `u32::MAX`;
  * `fmt_dec` is the `Display` of an unsigned integer, and `parse_u32_fmt_dec`
    reads it back;
  * `cmp` is `Ord::cmp` of strings, the lexicographic order of the characters.
-/
import Mathlib
import Abstraktor.Lib.ListSearch

namespace Abstraktor

open ListSearch

/-- The Unicode `White_Space` property. -/
def is_whitespace (c : Char) : Bool :=
  let n := c.toNat
  (0x9 ≤ n && n ≤ 0xD) || n == 0x20 || n == 0x85 || n == 0xA0 || n == 0x1680 ||
    (0x2000 ≤ n && n ≤ 0x200A) || n == 0x2028 || n == 0x2029 || n == 0x202F ||
    n == 0x205F || n == 0x3000

/-- The operation `str::trim_start`. -/
def trim_start (s : List Char) : List Char := s.dropWhile is_whitespace

/-- The operation `str::trim_end`. -/
def trim_end (s : List Char) : List Char := s.rdropWhile is_whitespace

/-- The operation `str::trim`. -/
def trim (s : List Char) : List Char := trim_end (trim_start s)

/-- The operation `str::ends_with`, for a string pattern. -/
def ends_with (s pat : List Char) : Bool := pat.isSuffixOf s

/-- The operation `str::find`, for a string pattern. -/
def find (s pat : List Char) : Option ℕ := findSub pat s

/-- The operation `str::split`, for a non-empty string pattern. -/
def split (s pat : List Char) : List (List Char) := splitOn pat s

/-- One line of `str::lines`: the piece up to a `\n`, without a `\r` before it. -/
def strip_line_end (l : List Char) : List Char :=
  if l.getLast? = some '\r' then l.dropLast else l

/-- The operation `str::lines`, accumulating the current line `cur`: the text is cut at each
    `\n`, and a last line is yielded only when it is not empty. -/
def linesAux : List Char → List Char → List (List Char)
  | cur, [] => if cur.isEmpty then [] else [cur]
  | cur, '\n' :: s => strip_line_end cur :: linesAux [] s
  | cur, c :: s => linesAux (cur ++ [c]) s

/-- The operation `str::lines`. -/
def lines (s : List Char) : List (List Char) := linesAux [] s

theorem mem_of_mem_linesAux {c : Char} {l : List Char} :
    ∀ {cur s : List Char}, l ∈ linesAux cur s → c ∈ l → c ∈ cur ∨ c ∈ s
  | cur, [], hl, hc => by
    simp only [linesAux] at hl
    split_ifs at hl
    · simp at hl
    · rw [List.mem_singleton.1 hl] at hc; exact Or.inl hc
  | cur, x :: s, hl, hc => by
    by_cases hx : x = '\n'
    · subst hx
      simp only [linesAux, List.mem_cons] at hl
      rcases hl with rfl | hl
      · refine Or.inl ?_
        unfold strip_line_end at hc
        split_ifs at hc
        · exact List.mem_of_mem_dropLast hc
        · exact hc
      · rcases mem_of_mem_linesAux hl hc with h | h
        · simp at h
        · exact Or.inr (List.mem_cons_of_mem _ h)
    · have hl' : l ∈ linesAux (cur ++ [x]) s := by
        cases x
        simp_all [linesAux]
      rcases mem_of_mem_linesAux hl' hc with h | h
      · rcases List.mem_append.1 h with h | h
        · exact Or.inl h
        · exact Or.inr (List.mem_singleton.1 h ▸ List.mem_cons_self)
      · exact Or.inr (List.mem_cons_of_mem _ h)

/-- The characters of a line are characters of the text. -/
theorem mem_of_mem_lines {s l : List Char} {c : Char} (hl : l ∈ lines s) (hc : c ∈ l) : c ∈ s := by
  rcases mem_of_mem_linesAux hl hc with h | h
  · simp at h
  · exact h

/-! ## Trimming -/

section Trim

variable {α : Type} {p : α → Bool}

theorem rdropWhile_cons_of_neg {a : α} (l : List α) (h : p a = false) :
    (a :: l).rdropWhile p = a :: l.rdropWhile p := by
  simp only [List.rdropWhile, List.reverse_cons, List.dropWhile_append]
  split_ifs with he
  · rw [List.isEmpty_iff.1 he, List.dropWhile_cons_of_neg (by simp [h])]
    rfl
  · simp

/-- Trimming the end of a text keeps a head followed by a part that is not all
    stripped. -/
theorem rdropWhile_append_of_exists {X s : List α} (h : ∃ x ∈ s, p x = false) :
    (X ++ s).rdropWhile p = X ++ s.rdropWhile p := by
  obtain ⟨x, hx, hpx⟩ := h
  have hne : (s.reverse.dropWhile p).isEmpty = false := by
    rw [List.isEmpty_eq_false_iff, Ne, List.dropWhile_eq_nil_iff]
    intro hall
    simpa [hpx] using hall x (List.mem_reverse.2 hx)
  simp only [List.rdropWhile, List.reverse_append, List.dropWhile_append, hne]
  simp

/-- Stripping both ends, in either order. -/
theorem dropWhile_rdropWhile (s : List α) :
    (s.rdropWhile p).dropWhile p = (s.dropWhile p).rdropWhile p := by
  have hs := List.takeWhile_append_dropWhile (p := p) (l := s)
  -- split `s` into its stripped head and the rest, which starts with a kept element
  cases hd : s.dropWhile p with
  | nil =>
    have hall := List.dropWhile_eq_nil_iff.1 hd
    rw [List.rdropWhile_eq_nil_iff.2 hall]
    rfl
  | cons a d =>
    have ha : p a = false := by
      simpa [hd] using List.head_dropWhile_not p (l := s) (by simp [hd])
    have hhead : ∀ x ∈ s.takeWhile p, p x = true := fun x hx => List.mem_takeWhile_imp hx
    rw [hd] at hs
    rw [← hs, rdropWhile_append_of_exists ⟨a, List.mem_cons_self, ha⟩,
      rdropWhile_cons_of_neg d ha, List.dropWhile_append_of_pos hhead,
      List.dropWhile_cons_of_neg (by simp [ha])]

theorem trim_start_trim_end (s : List Char) : trim_start (trim_end s) = trim s :=
  dropWhile_rdropWhile s

theorem trim_trim_end (s : List Char) : trim (trim_end s) = trim s := by
  rw [trim, trim_start_trim_end, trim, trim_end, trim_end, List.rdropWhile_idempotent]

/-- A text that starts with a kept character and ends in a part that is not blank
    is trimmed at the end only. -/
theorem trim_append {X s : List Char} (hX : ∃ c ∈ X.head?, is_whitespace c = false)
    (hs : ∃ x ∈ s, is_whitespace x = false) : trim (X ++ s) = X ++ trim_end s := by
  obtain ⟨c, hc, hw⟩ := hX
  obtain ⟨X', rfl⟩ : ∃ X', X = c :: X' := by
    cases X with
    | nil => cases hc
    | cons d X' => exact ⟨X', by rw [Option.mem_some_iff.1 hc]⟩
  rw [trim, trim_start, List.cons_append, List.dropWhile_cons_of_neg (by simp [hw]), trim_end,
    ← List.cons_append, rdropWhile_append_of_exists hs]
  rfl

theorem trim_sublist (s : List Char) : List.Sublist (trim s) s :=
  (List.rdropWhile_prefix _ _).sublist.trans (List.dropWhile_suffix _).sublist

end Trim

/-- The value of a string of ASCII digits, or `none` if one is not a digit. -/
def digitsValue : List Char → ℕ → Option ℕ
  | [], acc => some acc
  | c :: s, acc => if c.isDigit then digitsValue s (10 * acc + (c.toNat - '0'.toNat)) else none

/-- The parser `u32::from_str`: an optional `+` and at least one ASCII digit, below `2 ^ 32`. -/
def parse_u32 (s : List Char) : Option ℕ :=
  let ds := match s with
    | '+' :: t => t
    | _ => s
  if ds.isEmpty then none
  else match digitsValue ds 0 with
    | some v => if v < 2 ^ 32 then some v else none
    | none => none

/-- The `Display` of an unsigned integer: its decimal digits. -/
def fmt_dec (n : ℕ) : List Char := Nat.toDigits 10 n

theorem digitsValue_eq {s : List Char} (h : ∀ c ∈ s, c.isDigit = true) (acc : ℕ) :
    digitsValue s acc = some (Nat.ofDigitChars 10 s acc) := by
  induction s generalizing acc with
  | nil => simp [digitsValue]
  | cons c s ih =>
    rw [digitsValue, if_pos (h c List.mem_cons_self),
      ih (fun d hd => h d (List.mem_cons_of_mem _ hd)), Nat.ofDigitChars_cons]

theorem isDigit_of_mem_fmt_dec {n : ℕ} {c : Char} (hc : c ∈ fmt_dec n) : c.isDigit = true :=
  Nat.isDigit_of_mem_toDigits (by decide) (by decide) hc

/-- A number below `2 ^ 32`, printed in decimal, parses back. -/
theorem parse_u32_fmt_dec {n : ℕ} (hn : n < 2 ^ 32) : parse_u32 (fmt_dec n) = some n := by
  obtain ⟨c, t, hct⟩ := List.exists_cons_of_ne_nil (Nat.toDigits_ne_nil (b := 10) (n := n))
  have hd : ∀ d ∈ c :: t, d.isDigit = true := fun d hd =>
    isDigit_of_mem_fmt_dec (by rw [fmt_dec, hct]; exact hd)
  -- the first digit is not a sign
  have hc : c ≠ '+' := fun h => by
    have := hd c List.mem_cons_self
    rw [h] at this
    exact absurd this (by decide)
  have hv : digitsValue (c :: t) 0 = some n := by
    rw [digitsValue_eq hd, ← hct, Nat.ofDigitChars_ten_toDigits]
  unfold parse_u32
  rw [fmt_dec, hct]
  split
  · rename_i h
    cases h
    exact absurd rfl hc
  · simpa [hv] using hn

/-- The method `Ord::cmp` of strings: lexicographic on the characters, which is
    the order of the bytes of their UTF-8 encodings. -/
def cmp (a b : List Char) : Ordering := compareOfLessAndEq a b

theorem cmp_eq_lt_iff {a b : List Char} : cmp a b = .lt ↔ a < b :=
  compareOfLessAndEq_eq_lt

theorem cmp_eq_eq_iff {a b : List Char} : cmp a b = .eq ↔ a = b :=
  compareOfLessAndEq_eq_eq le_refl not_le

theorem cmp_eq_gt_iff {a b : List Char} : cmp a b = .gt ↔ b < a :=
  compareOfLessAndEq_eq_gt (fun h h' => le_antisymm h h') le_total not_le a b

end Abstraktor
