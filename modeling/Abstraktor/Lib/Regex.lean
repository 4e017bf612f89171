/-
  Backtracking regular expressions with capture groups.

  A regular expression is matched by a matcher in continuation-passing style:
  `Re.m r i s c k` matches `r` at position `i` of the rest `s` of the text, with
  the captures `c` so far, and hands every way of matching, in priority order, to
  the continuation `k` until one succeeds.  This is the leftmost-first semantics
  of Perl-style engines: alternatives are tried left to right, `star` is greedy,
  and a capture group holds the span of its last iteration on the successful
  path.  An iteration of `star` must consume a character, as in the engines that
  cut empty loops.

  * `Re.search` is the leftmost match: the first start position at which `r`
    matches, with the match that the priority order finds there;
  * `Re.findAll` is the iteration of non-overlapping matches;
  * `m_congr`: the outcome only depends on the classes at the characters read,
    so a match computed with one interpretation of the classes holds for every
    interpretation that agrees with it on the text.
-/
import Mathlib

namespace Regex

/-- Regular expressions over character classes `κ`.  `bol` and `eol` are the
    anchors at the start and the end of the text. -/
inductive Re (κ : Type) where
  | cls (k : κ)
  | eps
  | seq (r₁ r₂ : Re κ)
  | alt (r₁ r₂ : Re κ)
  | star (r : Re κ)
  | group (g : ℕ) (r : Re κ)
  | bol
  | eol

/-- Capture slots, the latest first: group, start and end position. -/
abbrev Caps := List (ℕ × ℕ × ℕ)

/-- The span of group `g`. -/
def Caps.get (c : Caps) (g : ℕ) : Option (ℕ × ℕ) :=
  (c.find? (·.1 = g)).map (·.2)

variable {κ : Type} (I : κ → Char → Bool) {α : Type}

/-- A matcher: position, rest of the text, captures, continuation. -/
abbrev Matcher (α : Type) :=
  ℕ → List Char → Caps → (ℕ → List Char → Caps → Option α) → Option α

/-- Greedy iteration of `body`, at most `n` times: one more iteration is
    preferred to stopping, and an iteration must advance. -/
def starLoop (body : Matcher α) : ℕ → Matcher α
  | 0, i, s, c, k => k i s c
  | n + 1, i, s, c, k =>
    (body i s c fun i' s' c' => if i < i' then starLoop body n i' s' c' k else none) <|> k i s c

/-- The matcher of a regular expression, where the class `k` holds of the
    character `x` when `I k x`. -/
def Re.m : Re κ → Matcher α
  | .cls k, i, x :: s, c, kont => if I k x then kont (i + 1) s c else none
  | .cls _, _, [], _, _ => none
  | .eps, i, s, c, kont => kont i s c
  | .seq r₁ r₂, i, s, c, kont => r₁.m i s c fun i' s' c' => r₂.m i' s' c' kont
  | .alt r₁ r₂, i, s, c, kont => r₁.m i s c kont <|> r₂.m i s c kont
  | .star r, i, s, c, kont => starLoop (r.m) (s.length + 1) i s c kont
  | .group g r, i, s, c, kont => r.m i s c fun i' s' c' => kont i' s' ((g, i, i') :: c')
  | .bol, i, s, c, kont => if i = 0 then kont i s c else none
  | .eol, i, s, c, kont => if s = [] then kont i s c else none

/-- A match of `r` that starts at `i`: its end and its captures. -/
def Re.matchAt (r : Re κ) (i : ℕ) (s : List Char) : Option (ℕ × Caps) :=
  r.m I i s [] fun j _ c => some (j, c)

/-- A match: start, end, captures. -/
structure Match where
  start : ℕ
  stop : ℕ
  caps : Caps
deriving DecidableEq, Repr

/-- The leftmost match of `r` in the text `s`, which starts at position `i`. -/
def Re.search (r : Re κ) : ℕ → List Char → Option Match
  | i, s =>
    match r.matchAt I i s with
    | some (j, c) => some ⟨i, j, c⟩
    | none =>
      match s with
      | [] => none
      | _ :: t => r.search (i + 1) t

/-- The successive non-overlapping matches of `r` in `s` (at position `i`), with
    `n` bounding their number; after an empty match the search moves on by one
    character. -/
def Re.findAll (r : Re κ) : ℕ → ℕ → List Char → List Match
  | 0, _, _ => []
  | n + 1, i, s =>
    match r.search I i s with
    | none => []
    | some mt =>
      let next := max mt.stop (mt.start + 1)
      mt :: r.findAll n next (s.drop (next - i))

/-- The text of a span. -/
def slice (text : List Char) (sp : ℕ × ℕ) : List Char :=
  (text.drop sp.1).take (sp.2 - sp.1)

/-- The text of group `g` of a match in `text`, if the group took part in it. -/
def Match.group (mt : Match) (text : List Char) (g : ℕ) : Option (List Char) :=
  (mt.caps.get g).map (slice text)

/-! ## Congruence

A matcher reads the text from left to right and hands suffixes of it to its
continuation, so two interpretations of the classes that agree on the
characters of the text give the same outcome. -/

section Congr

variable {I} {J : κ → Char → Bool}

/-- The two interpretations agree on the characters of `s`. -/
def Agree (I J : κ → Char → Bool) (s : List Char) : Prop := ∀ x ∈ s, ∀ k, I k x = J k x

theorem Agree.suffix {s s' : List Char} (h : Agree I J s) (hs : s' <:+ s) : Agree I J s' :=
  fun x hx => h x (hs.subset hx)

/-- Two matchers that agree on every text on which the interpretations agree,
    for continuations that agree on its suffixes. -/
def MatcherCongr (I J : κ → Char → Bool) (mI mJ : Matcher α) : Prop :=
  ∀ i s c k k', Agree I J s → (∀ i' s' c', s' <:+ s → k i' s' c' = k' i' s' c') →
    mI i s c k = mJ i s c k'

theorem starLoop_congr {b b' : Matcher α} (hb : MatcherCongr I J b b') :
    ∀ n, MatcherCongr I J (starLoop b n) (starLoop b' n)
  | 0, i, s, c, k, k', _, hk => by simp only [starLoop]; exact hk i s c List.suffix_rfl
  | n + 1, i, s, c, k, k', ha, hk => by
    simp only [starLoop]
    rw [hb i s c _ _ ha fun i' s' c' hs => ?_, hk i s c List.suffix_rfl]
    split_ifs
    · exact starLoop_congr hb n i' s' c' k k' (ha.suffix hs)
        fun i'' s'' c'' hs' => hk i'' s'' c'' (hs'.trans hs)
    · rfl

/-- The matcher of `r` only depends on the interpretation at the characters read. -/
theorem m_congr : ∀ r : Re κ, MatcherCongr (α := α) I J (r.m I) (r.m J)
  | .cls k, i, [], c, kont, kont', _, _ => rfl
  | .cls k, i, x :: s, c, kont, kont', ha, hk => by
    simp only [Re.m, ha x List.mem_cons_self k, hk (i + 1) s c (List.suffix_cons x s)]
  | .eps, i, s, c, kont, kont', _, hk => hk i s c List.suffix_rfl
  | .seq r₁ r₂, i, s, c, kont, kont', ha, hk =>
    m_congr r₁ i s c _ _ ha fun i' s' c' hs =>
      m_congr r₂ i' s' c' kont kont' (ha.suffix hs) fun i'' s'' c'' hs' => hk i'' s'' c'' (hs'.trans hs)
  | .alt r₁ r₂, i, s, c, kont, kont', ha, hk => by
    simp only [Re.m, m_congr r₁ i s c kont kont' ha hk, m_congr r₂ i s c kont kont' ha hk]
  | .star r, i, s, c, kont, kont', ha, hk =>
    starLoop_congr (m_congr r) (s.length + 1) i s c kont kont' ha hk
  | .group g r, i, s, c, kont, kont', ha, hk =>
    m_congr r i s c _ _ ha fun i' s' c' hs => hk i' s' _ hs
  | .bol, i, s, c, kont, kont', _, hk => by simp only [Re.m, hk i s c List.suffix_rfl]
  | .eol, i, s, c, kont, kont', _, hk => by simp only [Re.m, hk i s c List.suffix_rfl]

theorem search_congr (r : Re κ) : ∀ {i : ℕ} {s : List Char}, Agree I J s →
    r.search I i s = r.search J i s
  | i, s, ha => by
    have hm : r.matchAt I i s = r.matchAt J i s :=
      m_congr r i s [] _ _ ha fun _ _ _ _ => rfl
    cases s with
    | nil => simp only [Re.search, hm]
    | cons x t =>
      simp only [Re.search, hm, search_congr r (ha.suffix (List.suffix_cons x t))]

theorem findAll_congr (r : Re κ) : ∀ (n : ℕ) {i : ℕ} {s : List Char}, Agree I J s →
    r.findAll I n i s = r.findAll J n i s
  | 0, _, _, _ => rfl
  | n + 1, i, s, ha => by
    simp only [Re.findAll, search_congr r ha]
    cases r.search J i s with
    | none => rfl
    | some mt => simp only [findAll_congr r n (ha.suffix (List.drop_suffix _ s))]

end Congr

end Regex
