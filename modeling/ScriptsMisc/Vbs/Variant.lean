import Mathlib.Data.Rat.Floor
import ScriptsMisc.Lib.Text

/-! # VBScript values

The values a worksheet cell hands to a script, with the operators and functions of VBScript the
scripts apply to them. `none` is a run-time error.
-/

namespace Vbs

/-- The value of a cell. Numbers stand for the finite doubles, dates for their serial numbers. -/
inductive Variant where
  | empty
  | string (s : Str)
  | number (x : ℚ)
  | date (x : ℚ)
  | boolean (b : Bool)
  | error (code : ℕ)
deriving DecidableEq, Repr

/-- What depends on the machine: the texts of numbers and dates, the number a text stands for, and
the rounding of a sum. -/
structure Host where
  numberText : ℚ → Str
  dateText : ℚ → Str
  cDbl : Str → Option ℚ
  add : ℚ → ℚ → ℚ

/-- The value as a number, where it is not a text: `Empty` is 0 and `True` is -1. -/
def Variant.toNumber : Variant → ℚ
  | .number x => x
  | .date x => x
  | .boolean true => -1
  | _ => 0

/-- The value as a text, as `&` and the string functions take it. -/
def Host.text (host : Host) : Variant → Option Str
  | .empty => some []
  | .string s => some s
  | .number x => some (host.numberText x)
  | .date x => some (host.dateText x)
  | .boolean b => some (if b then "True".toList else "False".toList)
  | .error _ => none

/-- The operator `&` with a text that is not null on one side: null counts as the empty text. -/
def shown (s : Option Str) : Str := s.getD []

/-- The operator `=`. `Empty` equals the empty text and the number 0; a text equals no number. -/
def eq : Variant → Variant → Option Bool
  | .error a, .error b => some (a == b)
  | .error _, _ => none
  | _, .error _ => none
  | .string s, .string t => some (s == t)
  | .string s, .empty => some s.isEmpty
  | .empty, .string t => some t.isEmpty
  | .string _, _ => some false
  | _, .string _ => some false
  | v, w => some (v.toNumber == w.toNumber)

/-- `inStr(s, t)`: the position of `t` in `s`, from 1, or 0. -/
def inStr (s t : Str) : ℕ :=
  if s = [] then 0 else ((Text.find t s).map (· + 1)).getD 0

/-- `split`, on the way through a text; `skip` characters of a separator are still to pass. -/
def splitFrom (sep : Str) : (skip : ℕ) → Str → List Str
  | _, [] => [[]]
  | skip + 1, _ :: s => splitFrom sep skip s
  | 0, c :: s =>
    if sep.isPrefixOf (c :: s) then [] :: splitFrom sep (sep.length - 1) s
    else (splitFrom sep 0 s).modifyHead (c :: ·)

/-- `split(s, sep)`. The empty text has no parts. -/
def split (s sep : Str) : List Str := if s = [] then [] else splitFrom sep 0 s

/-- The scripts' `ceil`. -/
def ceil (number : ℚ) : ℤ :=
  let ceil := ⌊number⌋
  if (ceil : ℚ) ≠ number then ceil + 1 else ceil

example : split "Last, First M".toList ", ".toList = ["Last".toList, "First M".toList] := by decide

/-! ## Comparison -/

/-- A value is equal to itself, unless it is an error. -/
theorem eq_self (v : Variant) : eq v v = some true := by
  cases v <;> simp [eq]

/-- A value that equals a text is the text. -/
theorem text_of_eq_string (host : Host) {v : Variant} {s : Str}
    (h : eq v (.string s) = some true) : host.text v = some s := by
  cases v with
  | empty =>
    rw [eq, Option.some.injEq, List.isEmpty_iff] at h
    rw [h]
    rfl
  | string t => simpa [eq, Host.text] using h
  | number | date | boolean | error => simp [eq] at h

/-- `inStr` finds what the text contains; in the empty text it finds nothing. -/
theorem inStr_ne_zero_iff {s t : Str} : inStr s t ≠ 0 ↔ s ≠ [] ∧ t <:+: s := by
  rw [← Text.contains_iff, Text.contains, inStr]
  split
  · next hs => exact iff_of_false (fun h => h rfl) fun h => h.1 hs
  · next hs => cases Text.find t s <;> simp [hs]

/-- A split text has a part. -/
theorem splitFrom_ne_nil (sep : Str) (skip : ℕ) (s : Str) : splitFrom sep skip s ≠ [] := by
  induction s generalizing skip with
  | nil => cases skip <;> exact List.cons_ne_nil [] []
  | cons c s ih =>
    cases skip with
    | zero =>
      rw [splitFrom]
      split
      · exact List.cons_ne_nil _ _
      · rw [ne_eq, List.modifyHead_eq_nil_iff]
        exact ih 0
    | succ skip => exact ih skip

/-- Splitting at a character removes it. -/
theorem flatten_splitFrom (c : Char) (s : Str) :
    (splitFrom [c] 0 s).flatten = s.filter (· ≠ c) := by
  induction s with
  | nil => rfl
  | cons d s ih =>
    obtain ⟨part, parts, hparts⟩ := List.exists_cons_of_ne_nil (splitFrom_ne_nil [c] 0 s)
    rw [splitFrom]
    by_cases hd : d = c
    · subst hd
      simpa using ih
    · have hcd : (c == d) = false := by simpa using fun h : c = d => hd h.symm
      rw [hparts] at ih ⊢
      simp only [List.isPrefixOf_cons_cons, hcd, Bool.false_and, Bool.false_eq_true, if_false,
        List.modifyHead_cons, List.flatten_cons, List.cons_append, ne_eq, hd, not_false_eq_true,
        decide_true, List.filter_cons_of_pos]
      simpa using ih

end Vbs
