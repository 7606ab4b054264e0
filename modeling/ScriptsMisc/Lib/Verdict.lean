import Mathlib.Logic.Basic

/-! # Verdicts by absence of errors

A check runs over a log. It may stop with an exception, it may log errors, and its verdict is that
neither happened. A check decides a proposition when that is what its verdict says; checks are put
together in sequence and in loops, and so are the propositions they decide.
-/

namespace Verdict

variable {L α : Type*}

/-- From a log without errors the check ends without an exception and without errors exactly when
`P` holds, and errors stay errors. -/
def Decides (errors : L → Bool) (check : L → Option L) (P : Prop) : Prop :=
  ∀ log, (∃ log', check log = some log' ∧ errors log' = false) ↔ errors log = false ∧ P

variable {errors : L → Bool}

/-- A check decides whatever is equivalent. -/
theorem Decides.congr {check : L → Option L} {P Q : Prop} (h : Decides errors check P)
    (hPQ : P ↔ Q) : Decides errors check Q := fun log => by
  rw [h log, hPQ]

/-- The check that does nothing. -/
theorem decides_pass : Decides errors some True := fun log => by
  simp

/-- The check that raises an exception. -/
theorem decides_raise : Decides errors (fun _ => none) False := fun log => by
  simp

/-- A check that leaves an error in the log, or raises an exception on the way. -/
theorem decides_fail {check : L → Option L}
    (h : ∀ log log', check log = some log' → errors log' = true) : Decides errors check False := by
  intro log
  refine iff_of_false ?_ fun h => h.2
  rintro ⟨log', hcheck, herrors⟩
  rw [h log log' hcheck] at herrors
  exact absurd herrors Bool.false_ne_true.symm

/-- One check after the other. -/
theorem Decides.bind {check check' : L → Option L} {P Q : Prop} (h : Decides errors check P)
    (h' : Decides errors check' Q) :
    Decides errors (fun log => (check log).bind check') (P ∧ Q) := by
  intro log
  constructor
  · rintro ⟨log'', hbind, herrors⟩
    obtain ⟨log', hcheck, hcheck'⟩ := Option.bind_eq_some_iff.mp hbind
    obtain ⟨hmid, hQ⟩ := (h' log').mp ⟨log'', hcheck', herrors⟩
    obtain ⟨hstart, hP⟩ := (h log).mp ⟨log', hcheck, hmid⟩
    exact ⟨hstart, hP, hQ⟩
  · rintro ⟨hstart, hP, hQ⟩
    obtain ⟨log', hcheck, hmid⟩ := (h log).mpr ⟨hstart, hP⟩
    obtain ⟨log'', hcheck', herrors⟩ := (h' log').mpr ⟨hmid, hQ⟩
    exact ⟨log'', Option.bind_eq_some_iff.mpr ⟨log', hcheck, hcheck'⟩, herrors⟩

/-- A check of a value whose computation may raise an exception. -/
theorem Decides.value {o : Option α} {check : α → L → Option L} {P : α → Prop}
    (h : ∀ a, o = some a → Decides errors (check a) (P a)) :
    Decides errors (fun log => o.bind fun a => check a log) (∃ a, o = some a ∧ P a) := by
  cases o with
  | none => exact decides_raise.congr (by simp)
  | some a => exact (h a rfl).congr (by simp)

/-- A check decides by the branch that it takes. -/
theorem Decides.ite {c : Prop} [Decidable c] {check check' : L → Option L} {P Q : Prop}
    (h : c → Decides errors check P) (h' : ¬ c → Decides errors check' Q) :
    Decides errors (fun log => if c then check log else check' log)
      ((c → P) ∧ (¬ c → Q)) := by
  by_cases hc : c
  · simp only [hc, if_true]
    exact (h hc).congr (by simp)
  · simp only [hc, if_false]
    exact (h' hc).congr (by simp)

/-- A loop decides what its body decides, for all it runs over. -/
theorem Decides.foldlM {check : L → α → Option L} {P : α → Prop} {xs : List α}
    (h : ∀ x ∈ xs, Decides errors (fun log => check log x) (P x)) :
    Decides errors (fun log => xs.foldlM check log) (∀ x ∈ xs, P x) := by
  induction xs with
  | nil => exact decides_pass.congr (by simp)
  | cons x xs ih =>
    have htail := ih fun y hy => h y (List.mem_cons_of_mem x hy)
    exact ((h x List.mem_cons_self).bind htail).congr List.forall_mem_cons.symm

/-- The last element of a list with a property. -/
def LastHit (f : α → Option Bool) (xs : List α) (y : α) : Prop :=
  ∃ before after, xs = before ++ y :: after ∧ f y = some true ∧ ∀ x ∈ after, f x = some false

/-- The last hit is behind the first entry, or it is the first entry. -/
theorem lastHit_cons {f : α → Option Bool} {x y : α} {xs : List α} :
    LastHit f (x :: xs) y ↔
      LastHit f xs y ∨ x = y ∧ f y = some true ∧ ∀ z ∈ xs, f z = some false := by
  constructor
  · rintro ⟨before, after, hsplit, hy, hafter⟩
    cases before with
    | nil =>
      obtain ⟨rfl, rfl⟩ := List.cons.inj hsplit
      exact .inr ⟨rfl, hy, hafter⟩
    | cons z before =>
      obtain ⟨-, hxs⟩ := List.cons.inj hsplit
      exact .inl ⟨before, after, hxs, hy, hafter⟩
  · rintro (⟨before, after, rfl, hy, hafter⟩ | ⟨rfl, hx, hxs⟩)
    · exact ⟨x :: before, after, rfl, hy, hafter⟩
    · exact ⟨[], xs, rfl, hx, hxs⟩

/-- A loop that keeps each hit ends with the last one, or with what it started with. -/
theorem foldlM_eq_some_iff {f : α → Option Bool} {xs : List α} {a y : α} :
    xs.foldlM (fun found x => (f x).map fun hit => if hit then x else found) a = some y ↔
      (∀ x ∈ xs, (f x).isSome = true) ∧
        (LastHit f xs y ∨ a = y ∧ ∀ x ∈ xs, f x = some false) := by
  induction xs generalizing a with
  | nil => simp [LastHit]
  | cons x xs ih =>
    rw [List.foldlM_cons, List.forall_mem_cons, List.forall_mem_cons, lastHit_cons]
    cases hx : f x with
    | none => simp
    | some hit =>
      refine (ih (a := if hit then x else a)).trans ?_
      cases hit with
      | true =>
        -- a hit takes the place of what was found before
        have hxy : x = y → f y = some true := fun h => h ▸ hx
        simp only [if_true, Option.isSome_some, true_and, Option.some.injEq, Bool.true_eq_false,
          false_and, and_false, or_false]
        exact and_congr_right fun _ => or_congr_right
          ⟨fun h => ⟨h.1, hxy h.1, h.2⟩, fun h => ⟨h.1, h.2.2⟩⟩
      | false =>
        have hxy : ¬(x = y ∧ f y = some true ∧ ∀ z ∈ xs, f z = some false) := by
          rintro ⟨rfl, hy, -⟩
          rw [hx] at hy
          cases hy
        simp [hxy]

end Verdict
