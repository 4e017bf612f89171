/-
  The annotation regexes of `Instrumentor::new` (src/model/instrumentor.rs),
  written as `Regex.Re` terms over the classes of the regex crate.

  The crate runs in Unicode mode: `\s` is the `White_Space` property
  (`is_whitespace`), while `\w` and `\d` are the Unicode word and decimal digit
  classes.  Those two tables are not transcribed: a `UnicodeClasses` value
  stands for them, with the behaviour the crate documents on ASCII, and
  `ascii_classes` is one such value for computing on ASCII text
  (`captures_ascii`).

  `lit` is a literal, `plus` is `+`, `opt` is a greedy `?`, `seqs` a
  concatenation; a non-capturing group `(?:r)` is `r` itself.
-/
import Abstraktor.Lib.Regex
import Abstraktor.Str

namespace Abstraktor

open Regex

/-- The Unicode classes `\w` and `\d` of the regex crate: on ASCII, `\w` is
    `[0-9A-Za-z_]` and `\d` is `[0-9]`. -/
structure UnicodeClasses where
  word : Char → Bool
  digit : Char → Bool
  word_ascii : ∀ c : Char, c.toNat < 128 → word c = (c.isAlphanum || c == '_')
  digit_ascii : ∀ c : Char, c.toNat < 128 → digit c = c.isDigit

/-- The classes restricted to their ASCII members. -/
def ascii_classes : UnicodeClasses where
  word c := c.isAlphanum || c == '_'
  digit c := c.isDigit
  word_ascii _ _ := rfl
  digit_ascii _ _ := rfl

/-- The character classes of the annotation regexes. -/
inductive Cls where
  | word
  | digit
  | space
  | chr (c : Char)
  | ranges (rs : List (Char × Char))
  | dot

/-- Whether a class holds of a character. `.` is any character but `\n`. -/
def Cls.holds (U : UnicodeClasses) : Cls → Char → Bool
  | .word, c => U.word c
  | .digit, c => U.digit c
  | .space, c => is_whitespace c
  | .chr d, c => c == d
  | .ranges rs, c => rs.any fun r => r.1 ≤ c && c ≤ r.2
  | .dot, c => c != '\n'

/-- A literal string. -/
def lit (s : String) : Re Cls := s.toList.foldr (fun c r => .seq (.cls (.chr c)) r) .eps

/-- Concatenation of a list of regexes. -/
def seqs : List (Re Cls) → Re Cls
  | [] => .eps
  | [r] => r
  | r :: rs => .seq r (seqs rs)

/-- The iteration `r+`. -/
def plus (r : Re Cls) : Re Cls := .seq r (.star r)

/-- The greedy option `r?`. -/
def opt (r : Re Cls) : Re Cls := .alt r .eps

/-- The class `\s`. -/
def ws : Re Cls := .cls .space

/-- The class `\w`. -/
def wd : Re Cls := .cls .word

/-- The class `\d`. -/
def dg : Re Cls := .cls .digit

/-- One variable of an annotation, `\w+(?:->\d+)*`. -/
def var_item : Re Cls := seqs [plus wd, .star (seqs [lit "->", plus dg])]

/-- A variable list, `\w+(?:->\d+)*(?:\s*,\s*\w+(?:->\d+)*)*`. -/
def var_list : Re Cls := seqs [var_item, .star (seqs [.star ws, lit ",", .star ws, var_item])]

/-- The optional end of an annotation, `(?:\s+END)?\s*$`. -/
def end_tail : Re Cls := seqs [opt (seqs [plus ws, lit "END"]), .star ws, .eol]

/-- The regex `ABSTRAKTOR_CONST: (\w+)`. -/
def target_const_regex : Re Cls := seqs [lit "ABSTRAKTOR_CONST: ", .group 1 (plus wd)]

/-- The regex `ABSTRAKTOR_BLOCK_EVENT(?:\s*:\s*(LIST))?(?:\s+END)?\s*$`. -/
def target_block_regex : Re Cls :=
  seqs [lit "ABSTRAKTOR_BLOCK_EVENT", opt (seqs [.star ws, lit ":", .star ws, .group 1 var_list]),
    end_tail]

/-- The regex `^(([a-zA-z]{1}.*)|\})`, with the range `A-z` as written. -/
def block_start_regex : Re Cls :=
  seqs [.bol, .group 1 (.alt (.group 2 (seqs [.cls (.ranges [('a', 'z'), ('A', 'z')]),
    .star (.cls .dot)])) (.cls (.chr '}')))]

/-- The regex `ABSTRAKTOR_FUNC:\s*(LIST)(?:\s+END)?\s*$`. -/
def target_function_regex : Re Cls :=
  seqs [lit "ABSTRAKTOR_FUNC:", .star ws, .group 1 var_list, end_tail]

/-- The regex
    `ABSTRAKTOR_OVERRADE_TRANSITION_NAME:\s*(\w+)\s*,\s*(ABSTRAKTOR_FUNC|ABSTRAKTOR_BLOCK_EVENT)`. -/
def target_override_transition_name_regex : Re Cls :=
  seqs [lit "ABSTRAKTOR_OVERRADE_TRANSITION_NAME:", .star ws, .group 1 (plus wd), .star ws,
    lit ",", .star ws, .group 2 (.alt (lit "ABSTRAKTOR_FUNC") (lit "ABSTRAKTOR_BLOCK_EVENT"))]

/-- The head `ABSTRAKTOR_OVERRADE_TRANSITION_NAME:\s*\w+\s*,\s*` of the two override
    regexes. -/
def override_head : Re Cls :=
  seqs [lit "ABSTRAKTOR_OVERRADE_TRANSITION_NAME:", .star ws, plus wd, .star ws, lit ",", .star ws]

/-- The regex
    `ABSTRAKTOR_OVERRADE_TRANSITION_NAME:\s*\w+\s*,\s*ABSTRAKTOR_FUNC:\s*(LIST)(?:\s+END)?\s*$`. -/
def target_override_func_regex : Re Cls :=
  seqs [override_head, lit "ABSTRAKTOR_FUNC:", .star ws, .group 1 var_list, end_tail]

/-- The regex `ABSTRAKTOR_OVERRADE_TRANSITION_NAME:\s*\w+\s*,\s*ABSTRAKTOR_BLOCK_EVENT`
    `(?:\s*:\s*(LIST))?(?:\s+END)?\s*$`. -/
def target_override_block_regex : Re Cls :=
  seqs [override_head, lit "ABSTRAKTOR_BLOCK_EVENT",
    opt (seqs [.star ws, lit ":", .star ws, .group 1 var_list]), end_tail]

/-- The regex `(\w+)((?:->\d+)*)`, the variable scanner of `parse_target_line`. -/
def regex_variables : Re Cls := seqs [.group 1 (plus wd), .group 2 (.star (seqs [lit "->", plus dg]))]

/-- The leftmost match, `Regex::captures`. -/
def captures (U : UnicodeClasses) (r : Re Cls) (text : List Char) : Option Match :=
  r.search (Cls.holds U) 0 text

/-- Whether there is a match, `Regex::is_match`. -/
def is_match (U : UnicodeClasses) (r : Re Cls) (text : List Char) : Bool :=
  (captures U r text).isSome

/-- The successive matches, `Regex::captures_iter`. -/
def captures_iter (U : UnicodeClasses) (r : Re Cls) (text : List Char) : List Match :=
  r.findAll (Cls.holds U) (text.length + 1) 0 text

/-- A text is ASCII. -/
def is_ascii (s : List Char) : Bool := s.all fun c => c.toNat < 128

theorem holds_agree_ascii (U : UnicodeClasses) {s : List Char} (h : is_ascii s) :
    Agree (Cls.holds U) (Cls.holds ascii_classes) s := by
  intro x hx k
  have hx : x.toNat < 128 := by simpa using List.all_eq_true.1 h x hx
  cases k <;> simp only [Cls.holds, ascii_classes, U.word_ascii x hx, U.digit_ascii x hx]

/-- On ASCII text the regexes behave as with `ascii_classes`. -/
theorem captures_ascii (U : UnicodeClasses) (r : Re Cls) {s : List Char} (h : is_ascii s) :
    captures U r s = captures ascii_classes r s :=
  search_congr r (holds_agree_ascii U h)

end Abstraktor
