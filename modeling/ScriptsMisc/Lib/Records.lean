import Mathlib.Data.List.TakeWhile
import Mathlib.Logic.Function.Basic
import Mathlib.Tactic.Common

/-! # Records of names and values, one on a line

A file of records is written record by record and read back line by line; a later record for a
name overrides an earlier one. What is read back for a name is the part of its last value before
the first character that the reader takes for a separator.
-/

namespace Records

variable {α κ β : Type*}

/-! ## Lines -/

section Lines

variable [DecidableEq α]

/-- The lines of a text; a line feed at the end does not start another line. -/
def lines (nl : α) : List α → List (List α)
  | [] => []
  | c :: s =>
    if c = nl then [] :: lines nl s
    else
      match lines nl s with
      | [] => [[c]]
      | line :: rest => (c :: line) :: rest

/-- The line that holds one record. -/
def line (sep : α) (e : List α × List α) : List α := e.1 ++ sep :: e.2

/-- The text of a list of records. -/
def render (nl sep : α) (es : List (List α × List α)) : List α :=
  es.flatMap fun e => line sep e ++ [nl]

/-- The first line goes up to the first line end. -/
theorem lines_append {nl : α} {l : List α} (hl : nl ∉ l) (rest : List α) :
    lines nl (l ++ nl :: rest) = l :: lines nl rest := by
  induction l with
  | nil => simp [lines]
  | cons c l ih =>
    obtain ⟨hc, hl⟩ := List.ne_and_not_mem_of_not_mem_cons hl
    rw [List.cons_append, lines, if_neg (Ne.symm hc), ih hl]

/-- A text of records is read back record by record. -/
theorem lines_render {nl sep : α} {es : List (List α × List α)}
    (hes : ∀ e ∈ es, nl ∉ line sep e) :
    lines nl (render nl sep es) = es.map (line sep) := by
  induction es with
  | nil => rfl
  | cons e es ih =>
    rw [List.forall_mem_cons] at hes
    rw [render, List.flatMap_cons, List.append_assoc, List.singleton_append,
      lines_append hes.1, List.map_cons, ← ih hes.2]
    rfl

end Lines

/-! ## Fields -/

/-- A line whose name has no separator in it is split into the name and the fields of the
value. -/
theorem splitOnP_line {isSep : α → Bool} {sep : α} (hsep : isSep sep = true)
    {e : List α × List α} (hname : ∀ c ∈ e.1, isSep c = false) :
    (line sep e).splitOnP isSep = e.1 :: e.2.splitOnP isSep :=
  List.splitOnP_append_cons_of_forall_mem hname sep hsep e.2

/-- The first field of a value ends at its first separator. -/
theorem getElem?_zero_splitOnP (isSep : α → Bool) (v : List α) :
    (v.splitOnP isSep)[0]? = some (v.takeWhile fun c => !isSep c) := by
  induction v with
  | nil => rfl
  | cons c v ih =>
    rw [List.splitOnP_cons_eq_if_modifyHead, List.takeWhile_cons]
    cases hc : isSep c with
    | true => rfl
    | false =>
      obtain ⟨f, fs, hfs⟩ := List.exists_cons_of_ne_nil (List.splitOnP_ne_nil isSep v)
      rw [hfs] at ih ⊢
      simpa using ih

/-- A value survives when no character of it is taken for a separator. -/
theorem takeWhile_eq_iff (isSep : α → Bool) (v : List α) :
    (v.takeWhile fun c => !isSep c) = v ↔ ∀ c ∈ v, isSep c = false := by
  rw [List.takeWhile_eq_self_iff]
  simp only [Bool.not_eq_true']

/-! ## Later records override earlier ones -/

variable [DecidableEq κ]

/-- The value of the last record for `k`. -/
def lastValue (k : κ) : List (κ × β) → Option β
  | [] => none
  | e :: es => (lastValue k es).or (if e.1 = k then some e.2 else none)

/-- A later record wins. -/
theorem lastValue_append (k : κ) (es fs : List (κ × β)) :
    lastValue k (es ++ fs) = (lastValue k fs).or (lastValue k es) := by
  induction es with
  | nil => simp [lastValue]
  | cons e es ih => rw [List.cons_append, lastValue, ih, lastValue, Option.or_assoc]

/-- Each key has the value that its record gives it. -/
theorem lastValue_map (k : κ) (ks : List κ) (value : κ → β) :
    lastValue k (ks.map fun k => (k, value k)) = if k ∈ ks then some (value k) else none := by
  induction ks with
  | nil => rfl
  | cons k' ks ih =>
    rw [List.map_cons, lastValue, ih]
    by_cases hmem : k ∈ ks
    · rw [if_pos hmem, if_pos (List.mem_cons_of_mem k' hmem), Option.some_or]
    · rw [if_neg hmem, Option.none_or]
      by_cases heq : k' = k
      · subst heq
        simp
      · simp [hmem, heq, Ne.symm heq]

/-- Assigning record after record leaves each name with its last value. -/
theorem foldl_update {γ : Type*} (f : β → γ) (es : List (κ × β)) (vars : κ → γ) (k : κ) :
    (es.foldl (fun vars e => Function.update vars e.1 (f e.2)) vars) k =
      ((lastValue k es).map f).getD (vars k) := by
  induction es generalizing vars with
  | nil => rfl
  | cons e es ih =>
    rw [List.foldl_cons, ih, lastValue]
    cases lastValue k es with
    | some v => rfl
    | none =>
      by_cases heq : e.1 = k
      · subst heq
        simp
      · simp [heq, Function.update_of_ne (Ne.symm heq)]

end Records
