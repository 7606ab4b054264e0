import Mathlib.Data.List.Basic
import Mathlib.Tactic.Common

/-! # Letter-to-letter transducers

A transducer reads one letter at a time, writes one letter for it and moves to a next state.
Two transducers that move alike when the second reads what the first wrote run in lock step,
so their composition is again a run and can be judged letter by letter.
-/

namespace Mealy

variable {σ α β γ : Type*}

/-- The letters written by a run from state `s`. -/
def run (step : σ → α → σ × β) : σ → List α → List β
  | _, [] => []
  | s, a :: as => (step s a).2 :: run step (step s a).1 as

/-- The state reached by a run from state `s`. -/
def final (step : σ → α → σ × β) : σ → List α → σ
  | s, [] => s
  | s, a :: as => final step (step s a).1 as

@[simp] theorem run_nil (step : σ → α → σ × β) (s : σ) : run step s [] = [] := rfl

@[simp] theorem run_cons (step : σ → α → σ × β) (s : σ) (a : α) (as : List α) :
    run step s (a :: as) = (step s a).2 :: run step (step s a).1 as := rfl

@[simp] theorem final_nil (step : σ → α → σ × β) (s : σ) : final step s [] = s := rfl

@[simp] theorem final_cons (step : σ → α → σ × β) (s : σ) (a : α) (as : List α) :
    final step s (a :: as) = final step (step s a).1 as := rfl

@[simp] theorem length_run (step : σ → α → σ × β) (s : σ) (as : List α) :
    (run step s as).length = as.length := by
  induction as generalizing s with
  | nil => rfl
  | cons a as ih => simp [ih]

/-- A second input goes on where the first one ends. -/
theorem final_append (step : σ → α → σ × β) (s : σ) (as bs : List α) :
    final step s (as ++ bs) = final step (final step s as) bs := by
  induction as generalizing s with
  | nil => rfl
  | cons a as ih => exact ih _

/-- The letter at position `i` is written from the state the letters before it lead to. -/
theorem getElem?_run (step : σ → α → σ × β) (s : σ) (as : List α) (i : ℕ) :
    (run step s as)[i]? = as[i]?.map fun a => (step (final step s (as.take i)) a).2 := by
  induction as generalizing s i with
  | nil => simp
  | cons a as ih =>
    cases i with
    | zero => simp
    | succ i => simp [ih]

/-- A prefix of the output is the output for a prefix of the input. -/
theorem take_run (step : σ → α → σ × β) (s : σ) (as : List α) (i : ℕ) :
    (run step s as).take i = run step s (as.take i) := by
  induction as generalizing s i with
  | nil => simp
  | cons a as ih =>
    cases i with
    | zero => rfl
    | succ i => simp [ih]

/-- The transducer that feeds the letter written by `e` to `d`, moving as `e` does. -/
def comp (e : σ → α → σ × β) (d : σ → β → σ × γ) (s : σ) (a : α) : σ × γ :=
  ((e s a).1, (d s (e s a).2).2)

/-- `d` moves on the letter written by `e` as `e` moved on the letter it read. -/
def LockStep (e : σ → α → σ × β) (d : σ → β → σ × γ) : Prop :=
  ∀ s a, (d s (e s a).2).1 = (e s a).1

/-- Transducers in lock step compose to one run. -/
theorem LockStep.run_run {e : σ → α → σ × β} {d : σ → β → σ × γ} (h : LockStep e d)
    (s : σ) (as : List α) : run d s (run e s as) = run (comp e d) s as := by
  induction as generalizing s with
  | nil => rfl
  | cons a as ih =>
    simp only [run_cons, comp, h s a]
    rw [ih]

/-- The second transducer of a lock step ends where the first one did. -/
theorem LockStep.final_run {e : σ → α → σ × β} {d : σ → β → σ × γ} (h : LockStep e d)
    (s : σ) (as : List α) : final d s (run e s as) = final e s as := by
  induction as generalizing s with
  | nil => rfl
  | cons a as ih =>
    rw [run_cons, final_cons, final_cons, h s a]
    exact ih _

/-- Lock step is kept by composing the first transducer with a second one. -/
theorem LockStep.comp {e : σ → α → σ × β} {d : σ → β → σ × γ} {f : σ → γ → σ × α}
    (hed : LockStep e d) (hdf : LockStep d f) : LockStep (Mealy.comp e d) f := by
  intro s a
  exact (hdf s (e s a).2).trans (hed s a)

/-- Feeding another machine does not change the states of the first. -/
theorem final_comp (e : σ → α → σ × β) (d : σ → β → σ × γ) (s : σ) (as : List α) :
    final (comp e d) s as = final e s as := by
  induction as generalizing s with
  | nil => rfl
  | cons a as ih => exact ih _

/-- Two runs over the same letters agree when they write the same letter everywhere. -/
theorem run_eq_run_iff (e : σ → α → σ × β) (f : σ → α → σ × β) (s : σ) (as : List α)
    (hmove : ∀ s a, (f s a).1 = (e s a).1) :
    run f s as = run e s as ↔
      ∀ i a, as[i]? = some a →
        (f (final e s (as.take i)) a).2 = (e (final e s (as.take i)) a).2 := by
  have hfinal : ∀ (s : σ) (as : List α), final f s as = final e s as := by
    intro s as
    induction as generalizing s with
    | nil => rfl
    | cons a as ih => simp only [final_cons, hmove]; exact ih _
  constructor
  · intro heq i a ha
    have hi := congrArg (·[i]?) heq
    simpa only [getElem?_run, ha, hfinal, Option.map_some, Option.some.injEq] using hi
  · intro h
    refine List.ext_getElem? fun i => ?_
    rw [getElem?_run, getElem?_run, hfinal]
    cases ha : as[i]? with
    | none => rfl
    | some a => exact congrArg some (h i a ha)

/-- A run returns its own input when it writes back every letter. -/
theorem run_eq_self_iff (e : σ → α → σ × α) (s : σ) (as : List α) :
    run e s as = as ↔
      ∀ i a, as[i]? = some a → (e (final e s (as.take i)) a).2 = a := by
  constructor
  · intro heq i a ha
    have hi := congrArg (·[i]?) heq
    simpa only [getElem?_run, ha, Option.map_some, Option.some.injEq] using hi
  · intro h
    refine List.ext_getElem? fun i => ?_
    rw [getElem?_run]
    cases ha : as[i]? with
    | none => rfl
    | some a => exact congrArg some (h i a ha)

end Mealy
