import Mathlib.Data.List.DropRight
import Mathlib.Logic.Function.Basic
import Mathlib.Tactic.Common

/-! # Highlighting what was validated

`CommonBrowserFuncs.qfl` colours the elements it validates and marks them with an attribute, by
which `clearValidationHilighting` finds them again. `validateElement` marks an element with 1 when
it is right and with 0 when it is wrong; `validateField` of the CDR library marks the cells of a
title and of a value with 1 in either case.
-/

namespace Browser

inductive Colour where
  | green
  | red
deriving DecidableEq, Repr

/-- What the scripts set on an element: `style.background` and the attribute `validated`, which is
`1` or `0`. -/
structure Mark where
  background : Option Colour
  validated : Option Bool
deriving DecidableEq, Repr

/-- What the scripts do to the elements of a page. -/
inductive Step (κ : Type) where
  | validateElement (element : κ) (pass : Bool)
  | validateCell (element : κ) (colour : Colour)
  | clearValidationHilighting
deriving DecidableEq, Repr

variable {κ : Type} [DecidableEq κ]

/-- The mark that a step sets on an element, if it is about that element. -/
def Step.mark (e : κ) : Step κ → Option Mark
  | .validateElement element pass =>
    if element = e then some ⟨some (if pass then .green else .red), some pass⟩ else none
  | .validateCell element colour =>
    if element = e then some ⟨some colour, some true⟩ else none
  | .clearValidationHilighting => none

/-- The marks after a step. `getElementsByAttribute('validated','1')` finds the elements that are
marked with 1, and these lose their colour and keep the attribute. -/
def Step.apply (marks : κ → Mark) (s : Step κ) (e : κ) : Mark :=
  match s with
  | .clearValidationHilighting =>
    if (marks e).validated = some true then { marks e with background := none } else marks e
  | s => (s.mark e).getD (marks e)

/-- The marks after a run on a fresh page. -/
def run (steps : List (Step κ)) : κ → Mark := steps.foldl Step.apply fun _ => ⟨none, none⟩

/-! ## What is highlighted -/

/-- The mark that an element got last. -/
def lastMark (e : κ) (steps : List (Step κ)) : Option Mark :=
  (steps.filterMap (Step.mark e)).getLast?

/-- The steps after the last clearing. -/
def sinceClear (steps : List (Step κ)) : List (Step κ) :=
  steps.rtakeWhile (· ≠ .clearValidationHilighting)

/-- The mark of an element that `validateElement` found wrong. -/
def wrong : Mark := ⟨some .red, some false⟩

/-- The last step acts on what the steps before have left. -/
theorem run_concat (steps : List (Step κ)) (s : Step κ) (e : κ) :
    run (steps ++ [s]) e = s.apply (run steps) e := by
  rw [run, List.foldl_append]
  rfl

/-- The last mark of a run is that of its second part, if there is one. -/
theorem lastMark_append (e : κ) (steps steps' : List (Step κ)) :
    lastMark e (steps ++ steps') = (lastMark e steps').or (lastMark e steps) := by
  unfold lastMark
  rw [List.filterMap_append, List.getLast?_append]

theorem lastMark_concat (e : κ) (steps : List (Step κ)) (s : Step κ) :
    lastMark e (steps ++ [s]) = (s.mark e).or (lastMark e steps) := by
  rw [lastMark_append]
  congr 1
  unfold lastMark
  rw [List.filterMap_cons, List.filterMap_nil]
  cases s.mark e <;> rfl

/-- The last check since the last clearing is the last check. -/
theorem lastMark_of_sinceClear {e : κ} {steps : List (Step κ)} {m : Mark}
    (h : lastMark e (sinceClear steps) = some m) : lastMark e steps = some m := by
  obtain ⟨before, hsplit⟩ := List.rtakeWhile_suffix (p := fun s : Step κ =>
    decide (s ≠ .clearValidationHilighting)) (l := steps)
  rw [← hsplit, lastMark_append]
  show (lastMark e (sinceClear steps)).or _ = _
  rw [h, Option.some_or]

/-- An element that is never marked is not marked since the last clearing. -/
theorem lastMark_sinceClear_of_none {e : κ} {steps : List (Step κ)}
    (h : lastMark e steps = none) : lastMark e (sinceClear steps) = none := by
  rw [Option.eq_none_iff_forall_ne_some]
  intro m hm
  rw [lastMark_of_sinceClear hm] at h
  cases h

/-- Any other step comes after the last clearing. -/
theorem sinceClear_concat {s : Step κ} (h : s ≠ .clearValidationHilighting)
    (steps : List (Step κ)) : sinceClear (steps ++ [s]) = sinceClear steps ++ [s] :=
  List.rtakeWhile_concat_pos _ _ s (by simpa using h)

theorem sinceClear_clear (steps : List (Step κ)) :
    sinceClear (steps ++ [.clearValidationHilighting]) = [] :=
  List.rtakeWhile_concat_neg _ _ _ (by simp)

/-- What follows a clearing without another one is all since the last. -/
theorem sinceClear_append (steps : List (Step κ)) {steps' : List (Step κ)}
    (h : ∀ s ∈ steps', s ≠ .clearValidationHilighting) :
    sinceClear (steps ++ .clearValidationHilighting :: steps') = steps' := by
  induction steps' using List.reverseRecOn with
  | nil => exact sinceClear_clear steps
  | append_singleton steps' s ih =>
    have hs := h s (List.mem_append_right _ List.mem_cons_self)
    rw [← List.cons_append, ← List.append_assoc, sinceClear_concat hs,
      ih fun x hx => h x (List.mem_append_left _ hx)]

/-- A mark says wrong exactly when it is red for an element that `validateElement` looked at. -/
theorem eq_wrong_of_mark {e : κ} {s : Step κ} {m : Mark} (h : s.mark e = some m) :
    m.validated = some true ∨ m = wrong := by
  cases s with
  | validateElement element pass =>
    rw [Step.mark] at h
    split at h
    · obtain rfl := Option.some.inj h
      cases pass with
      | true => exact .inl rfl
      | false => exact .inr rfl
    · cases h
  | validateCell element colour =>
    rw [Step.mark] at h
    split at h
    · obtain rfl := Option.some.inj h
      exact .inl rfl
    · cases h
  | clearValidationHilighting => cases h

/-- The last mark is one that clearing finds, or that of an element found wrong. -/
theorem eq_wrong_of_lastMark {e : κ} {steps : List (Step κ)} {m : Mark}
    (h : lastMark e steps = some m) : m.validated = some true ∨ m = wrong := by
  obtain ⟨s, -, hs⟩ := List.mem_filterMap.mp (List.mem_of_getLast? h)
  exact eq_wrong_of_mark hs

/-- The mark of a cell is one that clearing finds. -/
theorem validated_of_lastMark {steps : List (Step κ)} {e : κ} {m : Mark}
    (h : ∀ element pass, Step.validateElement element pass ∉ steps)
    (hm : lastMark e steps = some m) : m.validated = some true := by
  obtain ⟨s, hmem, hs⟩ := List.mem_filterMap.mp (List.mem_of_getLast? hm)
  cases s with
  | validateElement element pass => exact absurd hmem (h element pass)
  | validateCell element colour =>
    rw [Step.mark] at hs
    split at hs
    · exact Option.some.inj hs ▸ rfl
    · cases hs
  | clearValidationHilighting => cases hs

/-- A step that is no clearing leaves every mark but its own. -/
theorem apply_of_ne {s : Step κ} (h : s ≠ .clearValidationHilighting) (marks : κ → Mark) (e : κ) :
    s.apply marks e = (s.mark e).getD (marks e) := by
  cases s with
  | validateElement => rfl
  | validateCell => rfl
  | clearValidationHilighting => exact absurd rfl h

/-- The attribute stays as it was set last. -/
theorem validated_run (steps : List (Step κ)) (e : κ) :
    (run steps e).validated = (lastMark e steps).bind Mark.validated := by
  induction steps using List.reverseRecOn with
  | nil => rfl
  | append_singleton steps s ih =>
    rw [run_concat, lastMark_concat]
    by_cases hs : s = .clearValidationHilighting
    · subst hs
      rw [Step.mark, Option.none_or, ← ih, Step.apply]
      split
      · rfl
      · rfl
    · rw [apply_of_ne hs]
      cases s.mark e with
      | none => exact ih
      | some m => rfl

/-- In every run an element shows the colour of the last check since the last clearing; where it
was not checked since, it is still highlighted exactly when `validateElement` found it wrong at its
last check. -/
theorem background_run (steps : List (Step κ)) (e : κ) :
    (run steps e).background =
      match lastMark e (sinceClear steps) with
      | some m => m.background
      | none => if lastMark e steps = some wrong then some .red else none := by
  induction steps using List.reverseRecOn with
  | nil => rfl
  | append_singleton steps s ih =>
    by_cases hs : s = .clearValidationHilighting
    · subst hs
      have hlast : lastMark e (steps ++ [.clearValidationHilighting]) = lastMark e steps := by
        rw [lastMark_concat, Step.mark, Option.none_or]
      rw [sinceClear_clear, hlast, run_concat, Step.apply, validated_run]
      show _ = if lastMark e steps = some wrong then some Colour.red else none
      cases hm : lastMark e steps with
      | none =>
        rw [lastMark_sinceClear_of_none hm, hm] at ih
        simpa using ih
      | some m =>
        rcases eq_wrong_of_lastMark hm with hright | rfl
        · have hne : m ≠ wrong := fun h => by
            rw [h] at hright
            cases hright
          simp [hright, hne]
        · -- what was found wrong is passed over and stays red
          rw [Option.bind_some, if_neg (by decide), ih, if_pos rfl]
          cases hsince : lastMark e (sinceClear steps) with
          | none => simp [hm]
          | some m =>
            obtain rfl := Option.some.inj ((lastMark_of_sinceClear hsince).symm.trans hm)
            rfl
    · rw [run_concat, apply_of_ne hs, sinceClear_concat hs, lastMark_concat, lastMark_concat]
      cases s.mark e with
      | none => exact ih
      | some m => rfl

/-- Where only cells are checked, clearing takes all colours away. -/
theorem background_of_cells {steps : List (Step κ)}
    (h : ∀ element pass, Step.validateElement element pass ∉ steps) (e : κ) :
    (run steps e).background = (lastMark e (sinceClear steps)).bind Mark.background := by
  induction steps using List.reverseRecOn with
  | nil => rfl
  | append_singleton steps s ih =>
    have hbefore : ∀ element pass, Step.validateElement element pass ∉ steps :=
      fun element pass hmem => h element pass (List.mem_append_left _ hmem)
    by_cases hs : s = .clearValidationHilighting
    · subst hs
      rw [sinceClear_clear, run_concat, Step.apply]
      split
      · rfl
      · next hmark =>
        -- what is not marked was not checked, and has no colour to lose
        have hnone : lastMark e steps = none := by
          rw [Option.eq_none_iff_forall_ne_some]
          intro m hm
          rw [validated_run, hm] at hmark
          exact hmark (validated_of_lastMark hbefore hm)
        rw [ih hbefore, lastMark_sinceClear_of_none hnone]
        rfl
    · rw [run_concat, apply_of_ne hs, sinceClear_concat hs, lastMark_concat]
      cases s.mark e with
      | none => exact ih hbefore
      | some m => rfl

end Browser
