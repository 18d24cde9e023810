import Mathlib.Data.List.Basic
import StrikeDB.Bytes

/-!
# StrikeDB: glob patterns

`glob_match` of `acl.rs`, with its indices and its one saved position, and the
language of a pattern.

**Results.**
* `classLoop_spec`: the scan over a class reads the class that `readItems` reads.
* `step_spec`: what one round of the matcher preserves (`Sound`), and that it comes
  closer to an end.
* `glob_match_iff`: the matcher ends, and answers whether the string is in the
  language of the pattern.
-/

namespace StrikeDB
namespace Glob

def STAR : UInt8 := 42
def QUESTION : UInt8 := 63
def OPEN : UInt8 := 91
def CLOSE : UInt8 := 93
def BACKSLASH : UInt8 := 92
def CARET : UInt8 := 94
def MINUS : UInt8 := 45

/-! ## The matcher -/

/-- The loop of `class_match` from `j` on: where it ends, and what was matched. -/
def classLoop (pat : Bytes) (c : UInt8) : Nat → Nat → Bool → Bool → Nat × Bool
  | 0, j, _, matched => (j, matched)
  | fuel + 1, j, first, matched =>
      match pat[j]? with
      | none => (j, matched)
      | some b =>
          if b = CLOSE ∧ first = false then (j, matched)
          else if b = BACKSLASH ∧ j + 1 < pat.length then
            classLoop pat c fuel (j + 2) false (matched || pat[j + 1]? = some c)
          else if j + 2 < pat.length ∧ pat[j + 1]? = some MINUS ∧ pat[j + 2]? ≠ some CLOSE then
            let e := pat.getD (j + 2) 0
            let lo := if b ≤ e then b else e
            let hi := if b ≤ e then e else b
            classLoop pat c fuel (j + 3) false (matched || (c ≥ lo && c ≤ hi))
          else classLoop pat c fuel (j + 1) false (matched || b = c)

/-- Match `c` against the class that starts at `start`: whether it matched, and the
index behind the class, or `none` when the class is unterminated. -/
def class_match (pat : Bytes) (start : Nat) (c : UInt8) : Option (Bool × Nat) :=
  let negate : Bool := pat[start + 1]? = some CARET
  let r := classLoop pat c pat.length (if negate then start + 2 else start + 1) true false
  if r.1 ≥ pat.length then none else some (r.2 != negate, r.1 + 1)

/-- Where the matcher stands: in the pattern, in the string, and behind the last star
with the place in the string where its attempt began. -/
structure Cursor where
  p : Nat
  i : Nat
  star : Option (Nat × Nat)

inductive Move where
  | goOn (c : Cursor)
  | stop (matched : Bool)

/-- `while p < pat.len() && pat[p] == b'*' { p += 1 }`. -/
def skipStars (pat : Bytes) (p : Nat) : Nat := p + ((pat.drop p).takeWhile (· = STAR)).length

/-- Let the last star take one byte more. -/
def backtrack (c : Cursor) : Move :=
  match c.star with
  | some (sp, si) => .goOn { p := sp, i := si + 1, star := some (sp, si + 1) }
  | none => .stop false

/-- The element at `p` took a byte; the pattern goes on at `next`. -/
def Cursor.forth (c : Cursor) (next : Nat) : Move := .goOn { c with p := next, i := c.i + 1 }

/-- One round of the loop. -/
def step (pat s : Bytes) (c : Cursor) : Move :=
  match s[c.i]? with
  | none => .stop (skipStars pat c.p = pat.length)
  | some b =>
      match pat[c.p]? with
      | none => backtrack c
      | some x =>
          if x = STAR then
            let p := skipStars pat c.p
            if p = pat.length then .stop true
            else .goOn { p := p, i := c.i, star := some (p, c.i) }
          else if x = QUESTION then c.forth (c.p + 1)
          else if x = OPEN then
            match class_match pat c.p b with
            | some (true, next) => c.forth next
            | some (false, _) => backtrack c
            -- an unterminated class: the bracket stands for itself
            | none => if b = OPEN then c.forth (c.p + 1) else backtrack c
          else if x = BACKSLASH ∧ c.p + 1 < pat.length then
            if pat[c.p + 1]? = some b then c.forth (c.p + 2) else backtrack c
          else if x = b then c.forth (c.p + 1)
          else backtrack c

/-- The loop, for so many rounds. -/
def run (pat s : Bytes) : Nat → Cursor → Option Bool
  | 0, _ => none
  | fuel + 1, c =>
      match step pat s c with
      | .stop matched => some matched
      | .goOn c => run pat s fuel c

/-- More rounds than the matcher can need. -/
def rounds (pat s : Bytes) : Nat := (s.length + 2) * (pat.length + 1) + pat.length + 1

/-- Redis-style glob match. -/
def glob_match (pat s : Bytes) : Option Bool :=
  run pat s (rounds pat s) { p := 0, i := 0, star := none }

/-! ## The language of a pattern -/

/-- A member of a class. -/
inductive Item where
  | single (b : UInt8)
  | range (b e : UInt8)

/-- The bytes that a member stands for; a range may be written in either order. -/
def Item.has (c : UInt8) : Item → Bool
  | .single b => b = c
  | .range b e => (b ≤ c && c ≤ e) || (e ≤ c && c ≤ b)

/-- The member that begins with `b`, and how many more bytes it takes: an escaped byte,
a range unless the closing bracket ends it, or `b` itself. -/
def member (b : UInt8) : Bytes → Item × Nat
  | [] => (.single b, 0)
  | [x] => if b = BACKSLASH then (.single x, 1) else (.single b, 0)
  | x :: y :: _ =>
      if b = BACKSLASH then (.single x, 1)
      else if x = MINUS ∧ y ≠ CLOSE then (.range b y, 2)
      else (.single b, 0)

/-- The members of a class up to its closing bracket, and the pattern behind it;
`none` when nothing closes it.  A bracket in the first place is a member.  `skip`
bytes belong to a member that was read. -/
def readItems : Nat → Bool → Bytes → Option (List Item × Bytes)
  | _, _, [] => none
  | skip + 1, first, _ :: pat => readItems skip first pat
  | 0, first, b :: pat =>
      if b = CLOSE ∧ first = false then some ([], pat)
      else (readItems (member b pat).2 false pat).map fun r => ((member b pat).1 :: r.1, r.2)

/-- The class behind an opening bracket. -/
def readClass : Bytes → Option ((UInt8 → Bool) × Bytes)
  | [] => none
  | b :: pat =>
      if b = CARET then
        (readItems 0 true pat).map fun r => (fun c => !r.1.any (Item.has c), r.2)
      else (readItems 0 true (b :: pat)).map fun r => (fun c => r.1.any (Item.has c), r.2)

/-- The first element of a pattern that does not start with a star: the bytes that it
stands for, and the pattern behind it. -/
def element : Bytes → Option ((UInt8 → Bool) × Bytes)
  | [] => none
  | x :: pat =>
      if x = STAR then none
      else if x = QUESTION then some (fun _ => true, pat)
      else if x = OPEN then some ((readClass pat).getD (fun c => c = OPEN, pat))
      else
        match pat with
        | y :: pat' =>
            if x = BACKSLASH then some (fun c => y = c, pat') else some (fun c => x = c, pat)
        | [] => some (fun c => x = c, pat)

/-- The strings that a pattern describes. -/
inductive InLanguage : Bytes → Bytes → Prop
  | nil : InLanguage [] []
  | star {pat s : Bytes} (front : Bytes) (h : InLanguage pat s) :
      InLanguage (STAR :: pat) (front ++ s)
  | one {pat pat' s : Bytes} {has : UInt8 → Bool} {b : UInt8}
      (helem : element pat = some (has, pat')) (hb : has b = true) (h : InLanguage pat' s) :
      InLanguage pat (b :: s)

/-! ## Classes -/

theorem readItems_skip (n : Nat) (first : Bool) (pat : Bytes) :
    readItems n first pat = readItems 0 first (pat.drop n) := by
  induction n generalizing pat with
  | zero => rfl
  | succ n ih =>
      cases pat with
      | nil => rfl
      | cons b pat => exact ih pat

theorem drop_eq_cons {pat rest : Bytes} {j : Nat} {b : UInt8} (h : pat.drop j = b :: rest) :
    pat[j]? = some b ∧ pat.drop (j + 1) = rest ∧ j < pat.length := by
  refine ⟨?_, ?_, ?_⟩
  · rw [← List.head?_drop, h]
    rfl
  · rw [← List.drop_drop, h]
    rfl
  · have hlen := congrArg List.length h
    rw [List.length_drop, List.length_cons] at hlen
    omega

/-- What the scan over a class does with the member at `j`. -/
theorem classLoop_member {pat rest : Bytes} {j : Nat} {b c : UInt8} {first : Bool}
    (h : pat.drop j = b :: rest) (hopen : ¬ (b = CLOSE ∧ first = false)) (fuel : Nat)
    (matched : Bool) :
    classLoop pat c (fuel + 1) j first matched =
      classLoop pat c fuel (j + 1 + (member b rest).2) false
        (matched || (member b rest).1.has c) := by
  obtain ⟨hget, hrest, hlt⟩ := drop_eq_cons h
  rw [classLoop, hget]
  simp only
  rw [if_neg hopen]
  cases rest with
  | nil =>
      have hlen := congrArg List.length hrest
      rw [List.length_drop, List.length_nil] at hlen
      rw [if_neg (by omega), if_neg (by omega)]
      simp [member, Item.has]
  | cons x rest =>
      obtain ⟨hx, hrest', hlt'⟩ := drop_eq_cons hrest
      by_cases hback : b = BACKSLASH
      · have hmember : member b (x :: rest) = (.single x, 1) := by
          cases rest <;> simp [member, hback]
        rw [if_pos ⟨hback, hlt'⟩, hmember, hx]
        simp [Item.has]
      · rw [if_neg fun h => hback h.1]
        cases rest with
        | nil =>
            have hlen := congrArg List.length hrest'
            rw [List.length_drop, List.length_nil] at hlen
            rw [if_neg (by omega)]
            simp [member, hback, Item.has]
        | cons y rest =>
            obtain ⟨hy, _, hlt''⟩ := drop_eq_cons hrest'
            have hgetD : pat.getD (j + 2) 0 = y := by
              rw [List.getD_eq_getElem?_getD, hy]
              rfl
            by_cases hrange : x = MINUS ∧ y ≠ CLOSE
            · rw [if_pos ⟨hlt'', by rw [hx, hrange.1], by simpa [hy] using hrange.2⟩]
              simp only [hgetD, member, if_neg hback, if_pos hrange]
              congr 2
              simp only [Item.has]
              by_cases hle : b ≤ y
              · simp only [if_pos hle]
                by_cases hyc : y ≤ c ∧ c ≤ b
                · have hcy : c ≤ y := UInt8.le_trans hyc.2 hle
                  have hbc : b ≤ c := UInt8.le_trans hle hyc.1
                  simp [hcy, hbc]
                · simp [hyc]
              · simp only [if_neg hle]
                have hyb : y ≤ b := UInt8.le_of_lt (UInt8.not_le.mp hle)
                by_cases hbc : b ≤ c ∧ c ≤ y
                · exact absurd (UInt8.le_trans hbc.1 hbc.2) hle
                · simp [hbc]
            · rw [if_neg fun h => hrange ⟨by simpa [hx] using h.2.1, by simpa [hy] using h.2.2⟩]
              simp [member, hback, hrange, Item.has]

/-- The scan over a class reads the class that `readItems` reads. -/
theorem classLoop_spec (c : UInt8) {pat : Bytes} (fuel : Nat) {part : Bytes} {j : Nat}
    (h : pat.drop j = part) (hfuel : part.length ≤ fuel) (first matched : Bool) :
    (readItems 0 first part = none →
      pat.length ≤ (classLoop pat c fuel j first matched).1) ∧
    ∀ items rest, readItems 0 first part = some (items, rest) →
      ∃ j', classLoop pat c fuel j first matched = (j', matched || items.any (Item.has c)) ∧
        j ≤ j' ∧ j' < pat.length ∧ pat.drop (j' + 1) = rest := by
  induction fuel generalizing part j first matched with
  | zero =>
      obtain rfl : part = [] := List.eq_nil_of_length_eq_zero (Nat.le_zero.mp hfuel)
      refine ⟨fun _ => List.drop_eq_nil_iff.mp h, fun items rest hread => ?_⟩
      cases hread
  | succ fuel ih =>
      cases part with
      | nil =>
          have hlen := List.drop_eq_nil_iff.mp h
          rw [classLoop, List.getElem?_eq_none hlen]
          refine ⟨fun _ => hlen, fun items rest hread => ?_⟩
          cases hread
      | cons b part =>
          obtain ⟨hget, hrest, hlt⟩ := drop_eq_cons h
          by_cases hclose : b = CLOSE ∧ first = false
          · rw [readItems, if_pos hclose, classLoop, hget]
            simp only
            rw [if_pos hclose]
            refine ⟨fun hnone => (by cases hnone), fun items rest hread => ?_⟩
            cases hread
            exact ⟨j, by simp, le_rfl, hlt, hrest⟩
          · have hdrop : pat.drop (j + 1 + (member b part).2) = part.drop (member b part).2 := by
              rw [← List.drop_drop, hrest]
            have hshort : (part.drop (member b part).2).length ≤ fuel := by
              rw [List.length_cons] at hfuel
              rw [List.length_drop]
              omega
            obtain ⟨hnone, hsome⟩ := ih hdrop hshort false
              (matched || (member b part).1.has c)
            rw [classLoop_member h hclose, readItems, if_neg hclose, readItems_skip]
            refine ⟨fun hread => hnone (Option.map_eq_none_iff.mp hread), ?_⟩
            intro items rest hread
            obtain ⟨r, hr, heq⟩ := Option.map_eq_some_iff.mp hread
            rw [Prod.mk.injEq] at heq
            obtain ⟨rfl, rfl⟩ := heq
            obtain ⟨j', hloop, hle, hlt', hend⟩ := hsome r.1 r.2 hr
            refine ⟨j', ?_, by omega, hlt', hend⟩
            rw [hloop, List.any_cons, Bool.or_assoc]

/-- `class_match` reads a class. -/
theorem class_match_spec (c : UInt8) {pat part : Bytes} {start : Nat}
    (h : pat.drop (start + 1) = part) :
    (readClass part = none → class_match pat start c = none) ∧
    ∀ has rest, readClass part = some (has, rest) →
      ∃ next, class_match pat start c = some (has c, next) ∧
        start < next ∧ next ≤ pat.length ∧ pat.drop next = rest := by
  have hfuel : ∀ n, (pat.drop n).length ≤ pat.length := by
    intro n
    rw [List.length_drop]
    omega
  cases part with
  | nil =>
      have hlen := List.drop_eq_nil_iff.mp h
      refine ⟨fun _ => ?_, fun has rest hread => (by cases hread)⟩
      obtain ⟨hnone, _⟩ := classLoop_spec c pat.length h (by simp) true false
      rw [class_match, List.getElem?_eq_none hlen]
      simp only [reduceCtorEq, decide_false, Bool.false_eq_true, if_false]
      rw [if_pos (hnone rfl)]
  | cons b part =>
      obtain ⟨hget, hrest, hlt⟩ := drop_eq_cons h
      rw [readClass, class_match, hget]
      by_cases hneg : b = CARET
      · obtain ⟨hnone, hsome⟩ := classLoop_spec c pat.length hrest
          (hrest ▸ hfuel (start + 1 + 1)) true false
        simp only [hneg, if_true, decide_true]
        constructor
        · intro hread
          rw [if_pos (hnone (Option.map_eq_none_iff.mp hread))]
        · intro has rest hread
          obtain ⟨r, hr, heq⟩ := Option.map_eq_some_iff.mp hread
          rw [Prod.mk.injEq] at heq
          obtain ⟨rfl, rfl⟩ := heq
          obtain ⟨j', hloop, hle, hlt', hend⟩ := hsome r.1 r.2 hr
          refine ⟨j' + 1, ?_, by omega, by omega, hend⟩
          rw [hloop, if_neg (by simpa using hlt')]
          simp
      · obtain ⟨hnone, hsome⟩ := classLoop_spec c pat.length h (h ▸ hfuel (start + 1)) true false
        simp only [Option.some.injEq, hneg, decide_false, Bool.false_eq_true, if_false]
        constructor
        · intro hread
          rw [if_pos (hnone (Option.map_eq_none_iff.mp hread))]
        · intro has rest hread
          obtain ⟨r, hr, heq⟩ := Option.map_eq_some_iff.mp hread
          rw [Prod.mk.injEq] at heq
          obtain ⟨rfl, rfl⟩ := heq
          obtain ⟨j', hloop, hle, hlt', hend⟩ := hsome r.1 r.2 hr
          refine ⟨j' + 1, ?_, by omega, by omega, hend⟩
          rw [hloop, if_neg (by simpa using hlt')]
          simp

/-! ## The language, element by element -/

theorem language_nil {s : Bytes} : InLanguage [] s ↔ s = [] := by
  constructor
  · intro h
    cases h with
    | nil => rfl
    | one helem _ _ => cases helem
  · rintro rfl
    exact .nil

theorem language_element {pat rest : Bytes} {has : UInt8 → Bool}
    (helem : element pat = some (has, rest)) {s : Bytes} :
    InLanguage pat s ↔ ∃ b s', s = b :: s' ∧ has b = true ∧ InLanguage rest s' := by
  constructor
  · intro h
    cases h with
    | nil => cases helem
    | star front h => simp [element] at helem
    | one helem' hb h =>
        rw [helem, Option.some.injEq, Prod.mk.injEq] at helem'
        obtain ⟨rfl, rfl⟩ := helem'
        exact ⟨_, _, rfl, hb, h⟩
  · rintro ⟨b, s', rfl, hb, h⟩
    exact .one helem hb h

theorem language_star {pat s : Bytes} :
    InLanguage (STAR :: pat) s ↔ ∃ k, k ≤ s.length ∧ InLanguage pat (s.drop k) := by
  constructor
  · intro h
    cases h with
    | star front h => exact ⟨front.length, by simp, by simpa using h⟩
    | one helem _ _ => simp [element] at helem
  · rintro ⟨k, _, h⟩
    have hstar := InLanguage.star (s.take k) h
    rwa [List.take_append_drop] at hstar

/-- Several stars are one. -/
theorem language_stars {pat s : Bytes} :
    InLanguage (STAR :: pat) s ↔
      ∃ k, k ≤ s.length ∧ InLanguage (pat.dropWhile (· = STAR)) (s.drop k) := by
  induction pat generalizing s with
  | nil => exact language_star
  | cons x pat ih =>
      by_cases hx : x = STAR
      · subst hx
        rw [List.dropWhile_cons_of_pos (by simp), ← ih, language_star]
        constructor
        · rintro ⟨k, hk, h⟩
          obtain ⟨k', hk', h'⟩ := language_star.mp h
          rw [List.length_drop] at hk'
          rw [List.drop_drop] at h'
          exact language_star.mpr ⟨k + k', by omega, h'⟩
        · intro h
          exact ⟨0, Nat.zero_le _, h⟩
      · rw [List.dropWhile_cons_of_neg (by simpa using hx)]
        exact language_star

theorem language_empty {pat : Bytes} :
    InLanguage pat [] ↔ pat.dropWhile (· = STAR) = [] := by
  induction pat with
  | nil => exact iff_of_true .nil rfl
  | cons x pat ih =>
      by_cases hx : x = STAR
      · subst hx
        rw [List.dropWhile_cons_of_pos (by simp), ← ih, language_star]
        constructor
        · rintro ⟨k, _, h⟩
          rwa [List.drop_nil] at h
        · intro h
          exact ⟨0, le_rfl, h⟩
      · rw [List.dropWhile_cons_of_neg (by simpa using hx)]
        refine iff_of_false (fun h => ?_) (List.cons_ne_nil _ _)
        generalize hs : ([] : Bytes) = s at h
        cases h with
        | star front h => exact hx rfl
        | one helem hb h => cases hs

/-- The pattern behind so many elements, if there are so many in front of the first
star. -/
def behind : Nat → Bytes → Option Bytes
  | 0, pat => some pat
  | n + 1, pat => (element pat).bind fun e => behind n e.2

theorem behind_succ {n : Nat} {pat mid rest : Bytes} {has : UInt8 → Bool}
    (h : behind n pat = some mid) (helem : element mid = some (has, rest)) :
    behind (n + 1) pat = some rest := by
  induction n generalizing pat with
  | zero =>
      obtain rfl := Option.some.inj h
      rw [behind, helem]
      rfl
  | succ n ih =>
      rw [behind] at h ⊢
      obtain ⟨e, he, hmid⟩ := Option.bind_eq_some_iff.mp h
      rw [he]
      exact ih hmid

/-- Elements take one byte each. -/
theorem language_behind {n : Nat} {pat rest s : Bytes} (h : behind n pat = some rest)
    (hs : InLanguage pat s) :
    n ≤ s.length ∧ InLanguage rest (s.drop n) := by
  induction n generalizing pat s with
  | zero =>
      obtain rfl := Option.some.inj h
      exact ⟨Nat.zero_le _, hs⟩
  | succ n ih =>
      rw [behind] at h
      obtain ⟨e, he, hrest⟩ := Option.bind_eq_some_iff.mp h
      obtain ⟨b, s', rfl, _, hs'⟩ := (language_element he).mp hs
      obtain ⟨hle, hlang⟩ := ih hrest hs'
      exact ⟨Nat.succ_le_succ hle, hlang⟩


/-! ## Rounds -/

/-- A round on an element either takes the byte or goes back to the last star. -/
theorem step_element {pat s part rest : Bytes} {c : Cursor} {b : UInt8} {has : UInt8 → Bool}
    (hb : s[c.i]? = some b) (hdrop : pat.drop c.p = part)
    (helem : element part = some (has, rest)) :
    ∃ next, c.p < next ∧ next ≤ pat.length ∧ pat.drop next = rest ∧
      step pat s c = if has b then c.forth next else backtrack c := by
  cases part with
  | nil => cases helem
  | cons x part =>
      obtain ⟨hget, hrest, hlt⟩ := drop_eq_cons hdrop
      rw [step, hb]
      simp only [hget]
      rw [element.eq_def] at helem
      simp only at helem
      by_cases hstar : x = STAR
      · rw [if_pos hstar] at helem
        cases helem
      rw [if_neg hstar] at helem ⊢
      by_cases hquestion : x = QUESTION
      · rw [if_pos hquestion] at helem ⊢
        cases helem
        exact ⟨c.p + 1, by omega, hlt, hrest, rfl⟩
      rw [if_neg hquestion] at helem ⊢
      by_cases hopen : x = OPEN
      · rw [if_pos hopen] at helem ⊢
        obtain ⟨hnone, hsome⟩ := class_match_spec b hrest
        cases hread : readClass part with
        | none =>
            rw [hread] at helem
            cases helem
            rw [hnone hread]
            exact ⟨c.p + 1, by omega, hlt, hrest, by simp⟩
        | some r =>
            rw [hread] at helem
            obtain rfl : r = (has, rest) := Option.some.inj helem
            obtain ⟨next, hmatch, hlo, hhi, hnext⟩ := hsome has rest hread
            refine ⟨next, hlo, hhi, hnext, ?_⟩
            rw [hmatch]
            cases has b <;> rfl
      rw [if_neg hopen] at helem ⊢
      cases part with
      | nil =>
          have hlen := congrArg List.length hrest
          rw [List.length_drop, List.length_nil] at hlen
          rw [if_neg (by omega)]
          cases helem
          exact ⟨c.p + 1, by omega, hlt, hrest, by simp⟩
      | cons y part =>
          obtain ⟨hy, hrest', hlt'⟩ := drop_eq_cons hrest
          simp only at helem
          by_cases hback : x = BACKSLASH
          · rw [if_pos hback] at helem
            cases helem
            rw [if_pos ⟨hback, hlt'⟩, hy]
            exact ⟨c.p + 1 + 1, by omega, hlt', hrest', by simp⟩
          · rw [if_neg hback] at helem
            cases helem
            rw [if_neg fun h => hback h.1]
            exact ⟨c.p + 1, by omega, hlt, hrest, by simp⟩

/-- Only a star and the end have no element in front. -/
theorem element_cons {x : UInt8} (h : x ≠ STAR) (pat : Bytes) :
    ∃ e, element (x :: pat) = some e := by
  rw [element.eq_def]
  simp only
  rw [if_neg h]
  by_cases hquestion : x = QUESTION
  · exact ⟨_, if_pos hquestion⟩
  rw [if_neg hquestion]
  by_cases hopen : x = OPEN
  · exact ⟨_, if_pos hopen⟩
  rw [if_neg hopen]
  cases pat with
  | nil => exact ⟨_, rfl⟩
  | cons y pat =>
      by_cases hback : x = BACKSLASH
      · exact ⟨_, if_pos hback⟩
      · exact ⟨_, if_neg hback⟩

/-- Where a cursor can stand: behind the last star, it has taken one byte for each
element it went over. -/
structure Sound (pat s : Bytes) (c : Cursor) : Prop where
  p_le : c.p ≤ pat.length
  i_le : c.i ≤ s.length
  saved : ∀ sp si, c.star = some (sp, si) →
    sp ≤ pat.length ∧ ∃ n, c.i = si + n ∧ behind n (pat.drop sp) = some (pat.drop c.p)

/-- What the cursor has yet to find out: whether the rest matches the rest, or the rest
matches with the last star taking more. -/
def Open (pat s : Bytes) (c : Cursor) : Prop :=
  InLanguage (pat.drop c.p) (s.drop c.i) ∨
    ∃ sp si k, c.star = some (sp, si) ∧ si < k ∧ k ≤ s.length ∧
      InLanguage (pat.drop sp) (s.drop k)

/-- How far the cursor is from an end. -/
def distance (pat s : Bytes) (c : Cursor) : Nat :=
  match c.star with
  | none => (s.length + 2) * (pat.length + 1) + (pat.length - c.p)
  | some (_, si) => (s.length + 1 - si) * (pat.length + 1) + (pat.length - c.p)

/-- What a round does: it ends with the answer, or leaves the question as it is and
comes closer to an end. -/
def Keeps (pat s : Bytes) (c : Cursor) : Move → Prop
  | .stop matched => matched = true ↔ Open pat s c
  | .goOn c' => Sound pat s c' ∧ (Open pat s c' ↔ Open pat s c) ∧
      distance pat s c' < distance pat s c

/-- Going back to the last star, when the rest does not match the rest. -/
theorem backtrack_spec {pat s : Bytes} {c : Cursor} (hsound : Sound pat s c)
    (hlt : c.i < s.length) (hno : ¬ InLanguage (pat.drop c.p) (s.drop c.i)) :
    Keeps pat s c (backtrack c) := by
  rw [backtrack]
  cases hstar : c.star with
  | none =>
      simp only [Keeps, Open, hno, hstar, reduceCtorEq, false_and, exists_false, or_false,
        Bool.false_eq_true]
  | some saved =>
      obtain ⟨sp, si⟩ := saved
      obtain ⟨hsp, n, hi, hbehind⟩ := hsound.saved sp si hstar
      refine ⟨⟨hsp, ?_, ?_⟩, ?_, ?_⟩
      · show si + 1 ≤ s.length
        omega
      · intro sp' si' h
        cases h
        exact ⟨hsp, 0, rfl, rfl⟩
      · simp only [Open, hno, hstar, false_or, Option.some.injEq, Prod.mk.injEq]
        constructor
        · rintro (h | ⟨_, _, k, ⟨rfl, rfl⟩, hk, hle, h⟩)
          · exact ⟨sp, si, si + 1, ⟨rfl, rfl⟩, by omega, by omega, h⟩
          · exact ⟨_, si, k, ⟨rfl, rfl⟩, by omega, hle, h⟩
        · rintro ⟨_, _, k, ⟨rfl, rfl⟩, hk, hle, h⟩
          by_cases hnext : k = si + 1
          · subst hnext
            exact .inl h
          · exact .inr ⟨_, _, k, ⟨rfl, rfl⟩, by omega, hle, h⟩
      · simp only [distance, hstar]
        have hstep : s.length + 1 - si = (s.length + 1 - (si + 1)) + 1 := by omega
        rw [hstep, Nat.add_mul, Nat.one_mul]
        omega

theorem forth_spec {pat s part rest : Bytes} {c : Cursor} {b : UInt8} {has : UInt8 → Bool}
    {next : Nat} (hsound : Sound pat s c) (hb : s.drop c.i = b :: s.drop (c.i + 1))
    (hdrop : pat.drop c.p = part) (helem : element part = some (has, rest))
    (hhas : has b = true) (hlo : c.p < next) (hhi : next ≤ pat.length)
    (hnext : pat.drop next = rest) :
    Keeps pat s c (c.forth next) := by
  have hlen := congrArg List.length hb
  rw [List.length_drop, List.length_cons] at hlen
  refine ⟨⟨hhi, ?_, ?_⟩, ?_, ?_⟩
  · show c.i + 1 ≤ s.length
    omega
  · intro sp si h
    obtain ⟨hsp, n, hi, hbehind⟩ := hsound.saved sp si h
    refine ⟨hsp, n + 1, by simp only [hi]; omega, ?_⟩
    simp only [hnext]
    exact behind_succ (hdrop ▸ hbehind) helem
  · have hiff : InLanguage rest (s.drop (c.i + 1)) ↔
        InLanguage (pat.drop c.p) (s.drop c.i) := by
      rw [hdrop, hb, language_element helem]
      constructor
      · intro h
        exact ⟨b, _, rfl, hhas, h⟩
      · rintro ⟨b', s', heq, _, h⟩
        cases heq
        exact h
    simp only [Open, hnext, hiff]
  · simp only [distance]
    cases c.star <;> simp only <;> omega


theorem drop_skipStars (pat : Bytes) (p : Nat) :
    pat.drop (skipStars pat p) = (pat.drop p).dropWhile (· = STAR) := by
  rw [skipStars, ← List.drop_drop]
  generalize pat.drop p = part
  induction part with
  | nil => rfl
  | cons x part ih =>
      by_cases hx : x = STAR
      · rw [List.takeWhile_cons_of_pos (by simpa using hx),
          List.dropWhile_cons_of_pos (by simpa using hx)]
        exact ih
      · rw [List.takeWhile_cons_of_neg (by simpa using hx),
          List.dropWhile_cons_of_neg (by simpa using hx)]
        rfl

theorem skipStars_le {pat : Bytes} {p : Nat} (h : p ≤ pat.length) :
    skipStars pat p ≤ pat.length := by
  have hlen := (List.takeWhile_prefix (p := (· = STAR)) (l := pat.drop p)).length_le
  rw [List.length_drop] at hlen
  rw [skipStars]
  omega

theorem skipStars_end {pat : Bytes} {p : Nat} (h : p ≤ pat.length) :
    skipStars pat p = pat.length ↔ (pat.drop p).dropWhile (· = STAR) = [] := by
  rw [← drop_skipStars, List.drop_eq_nil_iff]
  have hle := skipStars_le h
  omega

/-- At the end of the string no other place of the last star is left to try. -/
theorem open_end {pat s : Bytes} {c : Cursor} (hsound : Sound pat s c) (hend : c.i = s.length) :
    Open pat s c ↔ InLanguage (pat.drop c.p) [] := by
  rw [Open, hend, List.drop_length]
  constructor
  · rintro (h | ⟨sp, si, k, hstar, hk, hle, h⟩)
    · exact h
    · obtain ⟨_, n, hi, hbehind⟩ := hsound.saved sp si hstar
      have hn := (language_behind hbehind h).1
      rw [List.length_drop] at hn
      omega
  · exact .inl

/-- A star in front makes the places of the last star before it superfluous. -/
theorem open_star {pat s t : Bytes} {c : Cursor} (hsound : Sound pat s c)
    (hdrop : pat.drop c.p = STAR :: t) :
    Open pat s c ↔
      ∃ k, c.i ≤ k ∧ k ≤ s.length ∧ InLanguage (t.dropWhile (· = STAR)) (s.drop k) := by
  have hstars : ∀ j, j ≤ s.length → (InLanguage (STAR :: t) (s.drop j) ↔
      ∃ k, j ≤ k ∧ k ≤ s.length ∧ InLanguage (t.dropWhile (· = STAR)) (s.drop k)) := by
    intro j hj
    rw [language_stars]
    constructor
    · rintro ⟨k, hk, h⟩
      rw [List.length_drop] at hk
      rw [List.drop_drop] at h
      exact ⟨j + k, by omega, by omega, h⟩
    · rintro ⟨k, hjk, hk, h⟩
      refine ⟨k - j, ?_, ?_⟩
      · rw [List.length_drop]
        omega
      · rwa [List.drop_drop, Nat.add_sub_cancel' hjk]
  rw [Open, hdrop, hstars c.i hsound.i_le]
  constructor
  · rintro (h | ⟨sp, si, k, hstar, hk, hle, h⟩)
    · exact h
    · obtain ⟨_, n, hi, hbehind⟩ := hsound.saved sp si hstar
      obtain ⟨hn, hlang⟩ := language_behind hbehind h
      rw [List.length_drop] at hn
      rw [hdrop, List.drop_drop] at hlang
      obtain ⟨k', hk', hle', h'⟩ := (hstars (k + n) (by omega)).mp hlang
      exact ⟨k', by omega, hle', h'⟩
  · exact .inl

/-- **One round.** -/
theorem step_spec {pat s : Bytes} {c : Cursor} (hsound : Sound pat s c) :
    Keeps pat s c (step pat s c) := by
  cases hb : s[c.i]? with
  | none =>
      have hend : c.i = s.length :=
        Nat.le_antisymm hsound.i_le (List.getElem?_eq_none_iff.mp hb)
      rw [step, hb]
      simp only [Keeps, decide_eq_true_eq]
      rw [open_end hsound hend, language_empty, skipStars_end hsound.p_le]
  | some b =>
      obtain ⟨hlt, hget⟩ := List.getElem?_eq_some_iff.mp hb
      have hs : s.drop c.i = b :: s.drop (c.i + 1) := by
        rw [List.drop_eq_getElem_cons hlt, hget]
      cases hdrop : pat.drop c.p with
      | nil =>
          rw [step, hb]
          simp only [List.getElem?_eq_none (List.drop_eq_nil_iff.mp hdrop)]
          refine backtrack_spec hsound hlt ?_
          rw [hdrop, hs, language_nil]
          exact List.cons_ne_nil _ _
      | cons x t =>
          obtain ⟨hx, hrest, hplt⟩ := drop_eq_cons hdrop
          by_cases hstar : x = STAR
          · subst hstar
            rw [step, hb]
            simp only [hx, if_true]
            have hskip : pat.drop (skipStars pat c.p) = t.dropWhile (· = STAR) := by
              rw [drop_skipStars, hdrop, List.dropWhile_cons_of_pos (by simp)]
            split
            · next hend =>
                rw [hend, List.drop_length] at hskip
                refine iff_of_true rfl ((open_star hsound hdrop).mpr ⟨s.length, hsound.i_le, le_rfl, ?_⟩)
                rw [← hskip, List.drop_length]
                exact .nil
            · next hmore =>
                have hle := skipStars_le hsound.p_le
                refine ⟨⟨hle, hsound.i_le, ?_⟩, ?_, ?_⟩
                · intro sp si h
                  cases h
                  exact ⟨hle, 0, rfl, rfl⟩
                · rw [open_star hsound hdrop]
                  simp only [Open, hskip, Option.some.injEq, Prod.mk.injEq]
                  constructor
                  · rintro (h | ⟨_, _, k, ⟨rfl, rfl⟩, hk, hle, h⟩)
                    · exact ⟨c.i, le_rfl, hsound.i_le, h⟩
                    · rw [hskip] at h
                      exact ⟨k, by omega, hle, h⟩
                  · rintro ⟨k, hk, hle, h⟩
                    rcases Nat.eq_or_lt_of_le hk with rfl | hlt'
                    · exact .inl h
                    · exact .inr ⟨_, _, k, ⟨rfl, rfl⟩, hlt', hle, by rwa [hskip]⟩
                · have hforth : c.p < skipStars pat c.p := by
                    rw [skipStars, hdrop, List.takeWhile_cons_of_pos (by simp), List.length_cons]
                    omega
                  simp only [distance]
                  cases hsaved : c.star with
                  | none =>
                      have hmul : (s.length + 1 - c.i) * (pat.length + 1) ≤
                          (s.length + 1) * (pat.length + 1) := Nat.mul_le_mul_right _ (by omega)
                      have hsplit : (s.length + 2) * (pat.length + 1) =
                          (s.length + 1) * (pat.length + 1) + (pat.length + 1) :=
                        Nat.succ_mul _ _
                      simp only
                      omega
                  | some saved =>
                      obtain ⟨sp, si⟩ := saved
                      obtain ⟨_, n, hi, _⟩ := hsound.saved sp si hsaved
                      have hmul : (s.length + 1 - c.i) * (pat.length + 1) ≤
                          (s.length + 1 - si) * (pat.length + 1) := Nat.mul_le_mul_right _ (by omega)
                      simp only
                      omega
          · obtain ⟨⟨has, rest⟩, helem⟩ := element_cons hstar t
            obtain ⟨next, hlo, hhi, hnext, hstep⟩ := step_element hb hdrop helem
            rw [hstep]
            cases hhas : has b with
            | true => exact forth_spec hsound hs hdrop helem hhas hlo hhi hnext
            | false =>
                refine backtrack_spec hsound hlt ?_
                rw [hdrop, hs, language_element helem]
                rintro ⟨b', s', heq, hb', _⟩
                cases heq
                rw [hhas] at hb'
                cases hb'

/-- The loop ends within as many rounds as the cursor is away from an end. -/
theorem run_spec {pat s : Bytes} {fuel : Nat} {c : Cursor} (hsound : Sound pat s c)
    (hfuel : distance pat s c < fuel) :
    ∃ matched, run pat s fuel c = some matched ∧ (matched = true ↔ Open pat s c) := by
  induction fuel generalizing c with
  | zero => exact absurd hfuel (Nat.not_lt_zero _)
  | succ fuel ih =>
      have hstep := step_spec hsound
      rw [run]
      cases hmove : step pat s c with
      | stop matched =>
          rw [hmove] at hstep
          exact ⟨matched, rfl, hstep⟩
      | goOn c' =>
          rw [hmove] at hstep
          obtain ⟨hsound', hopen, hcloser⟩ := hstep
          obtain ⟨matched, hrun, hiff⟩ := ih hsound' (by omega)
          exact ⟨matched, hrun, hiff.trans hopen⟩

/-- **The matcher decides the language.** -/
theorem glob_match_iff (pat s : Bytes) :
    ∃ matched, glob_match pat s = some matched ∧ (matched = true ↔ InLanguage pat s) := by
  have hsound : Sound pat s { p := 0, i := 0, star := none } :=
    ⟨Nat.zero_le _, Nat.zero_le _, fun _ _ h => nomatch h⟩
  have hfuel : distance pat s { p := 0, i := 0, star := none } < rounds pat s := by
    simp only [distance, rounds]
    omega
  obtain ⟨matched, hrun, hiff⟩ := run_spec hsound hfuel
  refine ⟨matched, hrun, hiff.trans ?_⟩
  simp [Open]

end Glob
end StrikeDB
