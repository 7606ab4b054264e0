import Mathlib.Data.List.Basic
import Mathlib.Data.List.Infix
import Mathlib.Tactic.Common

/-! # Strings as lists of characters

The string operations that the scripting languages share: searching for a character or a
substring, splitting at a substring and the character classes of ASCII text.
-/

/-- A script's string value. -/
abbrev Str := List Char

namespace Text

/-- First index of the substring `pat` in `s`. -/
def find (pat : Str) : Str → Option ℕ
  | [] => if pat = [] then some 0 else none
  | c :: s => if pat.isPrefixOf (c :: s) then some 0 else (find pat s).map (· + 1)

/-- `pat` occurs in `s`. -/
def contains (s pat : Str) : Bool := (find pat s).isSome

/-- `contains` finds a text anywhere. -/
theorem contains_iff {s pat : Str} : contains s pat = true ↔ pat <:+: s := by
  induction s with
  | nil =>
    rw [List.infix_nil]
    by_cases hpat : pat = [] <;> simp [contains, find, hpat]
  | cons c s ih =>
    rw [List.infix_cons_iff, ← ih, ← List.isPrefixOf_iff_prefix]
    by_cases hpre : pat.isPrefixOf (c :: s) = true <;> simp [contains, find, hpre]

/-- What follows `w` at the head of a text. -/
def after (w s : Str) : Option Str := if w.isPrefixOf s then some (s.drop w.length) else none

/-- `after` leaves what stands behind a prefix. -/
theorem after_eq_some_iff {w s t : Str} : after w s = some t ↔ s = w ++ t := by
  rw [after]
  split
  · next h =>
    obtain ⟨u, rfl⟩ := List.isPrefixOf_iff_prefix.mp h
    rw [List.drop_left, Option.some.injEq, List.append_right_inj]
  · next h =>
    refine iff_of_false (Option.some_ne_none t).symm ?_
    rintro rfl
    exact h (List.isPrefixOf_iff_prefix.mpr (List.prefix_append w t))

/-- A property of the characters of a fixed text, to be checked one by one. -/
theorem forall_mem_of_all {s : Str} {P : Char → Prop} [DecidablePred P]
    (h : s.all (fun c => decide (P c)) = true) : ∀ c ∈ s, P c :=
  fun c hc => of_decide_eq_true (List.all_eq_true.mp h c hc)

/-- A text without a character is passed over on the way to it. -/
theorem takeWhile_append_of_notMem {c : Char} {s : Str} (h : c ∉ s) (t : Str) :
    (s ++ t).takeWhile (· ≠ c) = s ++ t.takeWhile (· ≠ c) := by
  refine List.takeWhile_append_of_pos fun d hd => ?_
  rw [decide_eq_true_eq]
  rintro rfl
  exact h hd

/-- A text without the character is dropped whole. -/
theorem dropWhile_append_of_notMem {c : Char} {s : Str} (h : c ∉ s) (t : Str) :
    (s ++ t).dropWhile (· ≠ c) = t.dropWhile (· ≠ c) := by
  refine List.dropWhile_append_of_pos fun d hd => ?_
  rw [decide_eq_true_eq]
  rintro rfl
  exact h hd

/-- The pieces between elements of the class hold elements of the list outside of it. -/
theorem mem_of_mem_splitOnP {α : Type*} {p : α → Bool} {s piece : List α}
    (h : piece ∈ s.splitOnP p) : ∀ x ∈ piece, x ∈ s ∧ p x = false := by
  induction s generalizing piece with
  | nil =>
    rw [List.splitOnP_nil, List.mem_singleton] at h
    rw [h]
    exact fun x hx => absurd hx List.not_mem_nil
  | cons c s ih =>
    have htail : ∀ {q}, q ∈ s.splitOnP p → ∀ x ∈ q, x ∈ c :: s ∧ p x = false := fun hq x hx =>
      ⟨List.mem_cons_of_mem c (ih hq x hx).1, (ih hq x hx).2⟩
    obtain ⟨hd, tl, hsplit⟩ := List.exists_cons_of_ne_nil (List.splitOnP_ne_nil p s)
    rw [List.splitOnP_cons_eq_if_modifyHead] at h
    split at h
    · rcases List.mem_cons.mp h with rfl | h
      · exact fun x hx => absurd hx List.not_mem_nil
      · exact htail h
    · next hc =>
      rw [hsplit] at h htail
      rcases List.mem_cons.mp h with rfl | h
      · refine List.forall_mem_cons.mpr ⟨⟨List.mem_cons_self, ?_⟩, htail List.mem_cons_self⟩
        exact Bool.eq_false_iff.mpr hc
      · exact htail (List.mem_cons_of_mem hd h)

/-- The pieces of a split text hold no separator. -/
theorem notMem_of_mem_splitOn {sep : Char} {s piece : Str} (h : piece ∈ s.splitOn sep) :
    sep ∉ piece := by
  rw [List.splitOn_eq_splitOnP] at h
  intro hsep
  have hne := (mem_of_mem_splitOnP h sep hsep).2
  rw [BEq.rfl] at hne
  cases hne

/-- ASCII white space: `\s` of AutoHotkey, of VBScript and of Python 2, and what Python's `strip`
removes. -/
def isSpace (c : Char) : Bool :=
  c = ' ' || c = '\t' || c = '\n' || c = '\r' || c = '\x0b' || c = '\x0c'

/-- The characters matched by `[a-zA-Z0-9]`. -/
def isAlnum (c : Char) : Bool := c.isAlphanum

end Text
