import Mathlib.Data.List.SplitBy
import Mathlib.Tactic.Common

/-! # Group-by in one pass

A pass goes over a list with a state, writes, and may fail. It groups when its state sums up the run
it is in: an element that goes on with the run is added to the sum, any other one has the run
reported and begins the next. Runs are the parts of `List.splitBy`.

The last run is reported by a closing element that belongs to none.
-/

namespace Runs

variable {α β σ ε : Type*}

/-- What a pass leaves and writes, from state `s`. -/
def pass (step : σ → α → Except ε (σ × List β)) : σ → List α → Except ε (σ × List β)
  | s, [] => .ok (s, [])
  | s, x :: xs =>
    match step s x with
    | .error e => .error e
    | .ok (t, out) => (pass step t xs).map fun r => (r.1, out ++ r.2)

section Pass

variable {step : σ → α → Except ε (σ × List β)}

/-- A step that succeeds hands its state on. -/
theorem pass_cons_ok {s t : σ} {x : α} {out : List β} (h : step s x = .ok (t, out)) (xs : List α) :
    pass step s (x :: xs) = (pass step t xs).map fun r => (r.1, out ++ r.2) := by
  rw [pass, h]

theorem pass_cons_error {s : σ} {x : α} {e : ε} (h : step s x = .error e) (xs : List α) :
    pass step s (x :: xs) = .error e := by
  rw [pass, h]

/-- A pass goes on where it was left, unless it failed. -/
theorem pass_append (s : σ) (xs ys : List α) :
    pass step s (xs ++ ys) =
      (pass step s xs).bind fun r => (pass step r.1 ys).map fun q => (q.1, r.2 ++ q.2) := by
  induction xs generalizing s with
  | nil =>
    show pass step s ys = (pass step s ys).map fun q => (q.1, [] ++ q.2)
    cases pass step s ys <;> rfl
  | cons x xs ih =>
    rw [List.cons_append]
    cases hstep : step s x with
    | error e =>
      rw [pass_cons_error hstep, pass_cons_error hstep]
      rfl
    | ok r =>
      rw [pass_cons_ok hstep, pass_cons_ok hstep, ih]
      cases pass step r.1 xs with
      | error e => rfl
      | ok q =>
        show ((pass step q.1 ys).map _).map _ = (pass step q.1 ys).map _
        cases pass step q.1 ys with
        | error e => rfl
        | ok p => simp only [Except.map, List.append_assoc]

end Pass

/-- The run an element after the list would go on with. -/
def lastRun (same : α → α → Bool) (xs : List α) : List α := (xs.splitBy same).getLastD []

/-- The step of a pass that groups elements with `P`, `state run` being the state within a run and
`report run` what it writes about it. The pass fails on a run whose sum does not fit; a single
element is no sum. -/
structure Groups (same : α → α → Bool) (step : σ → α → Except ε (σ × List β)) (P : α → Prop)
    (state : List α → σ) (report : List α → List β) (Fits : List α → Prop) : Prop where
  goes : ∀ run x y, (∀ z ∈ run ++ [x] ++ [y], P z) → same x y = true → Fits (run ++ [x] ++ [y]) →
    step (state (run ++ [x])) y = .ok (state (run ++ [x] ++ [y]), [])
  overruns : ∀ run x y, (∀ z ∈ run ++ [x] ++ [y], P z) → same x y = true →
    ¬ Fits (run ++ [x] ++ [y]) → ∃ e, step (state (run ++ [x])) y = .error e
  breaks : ∀ run x y, (∀ z ∈ run ++ [x] ++ [y], P z) → same x y = false →
    step (state (run ++ [x])) y = .ok (state [y], report (run ++ [x]))
  closed : ∀ {g g'}, g <+: g' → Fits g' → Fits g
  single : ∀ x, Fits [x]

section Groups

variable {same : α → α → Bool}

/-- A single run is the last one. -/
theorem lastRun_of_isChain {run : List α} (hne : run ≠ []) (h : run.IsChain fun x y => same x y) :
    lastRun same run = run := by
  rw [lastRun, List.splitBy_of_isChain hne h]
  rfl

/-- A list that is not empty has a last run. -/
theorem lastRun_ne_nil {xs : List α} (h : xs ≠ []) : lastRun same xs ≠ [] := by
  have hne := List.splitBy_ne_nil (r := same).mpr h
  rw [lastRun, List.getLastD_eq_getLast?, List.getLast?_eq_some_getLast hne]
  exact List.ne_nil_of_mem_splitBy (List.getLast_mem hne)

/-- A list that begins with a run whose end is marked. -/
theorem splitBy_run_append {run : List α} {x y : α} {ys : List α}
    (h : (run ++ [x]).IsChain fun x y => same x y) (hxy : same x y = false) :
    (run ++ [x] ++ y :: ys).splitBy same = (run ++ [x]) :: (y :: ys).splitBy same := by
  rw [List.splitBy_append, List.splitBy_of_isChain (by simp) h]
  · rfl
  · simp [hxy]

/-- The last run is behind every break. -/
theorem lastRun_run_append {run : List α} {x y : α} {ys : List α}
    (h : (run ++ [x]).IsChain fun x y => same x y) (hxy : same x y = false) :
    lastRun same (run ++ [x] ++ y :: ys) = lastRun same (y :: ys) := by
  have hne := List.splitBy_ne_nil (r := same).mpr (List.cons_ne_nil y ys)
  rw [lastRun, splitBy_run_append h hxy, lastRun, List.getLastD_eq_getLast?,
    List.getLastD_eq_getLast?, List.getLast?_cons_of_ne_nil hne]

/-- A list that begins with a part of a run. -/
theorem splitBy_eq_cons_of_isChain (run : List α) (x : α) (ys : List α)
    (h : (run ++ [x]).IsChain fun x y => same x y) :
    ∃ g gs, (run ++ [x] ++ ys).splitBy same = g :: gs ∧ run ++ [x] <+: g := by
  induction ys generalizing run x with
  | nil => exact ⟨_, [], by rw [List.append_nil, List.splitBy_of_isChain (by simp) h],
      List.prefix_rfl⟩
  | cons y ys ih =>
    cases hxy : same x y with
    | true =>
      obtain ⟨g, gs, hsplit, hrun⟩ := ih (run ++ [x]) y (h.append (.singleton y) (by simp [hxy]))
      refine ⟨g, gs, ?_, (List.prefix_append _ _).trans hrun⟩
      rw [← hsplit, List.append_assoc (run ++ [x])]
      rfl
    | false => exact ⟨_, _, splitBy_run_append h hxy, List.prefix_rfl⟩

variable {step : σ → α → Except ε (σ × List β)} {P : α → Prop} {state : List α → σ}
  {report : List α → List β} {Fits : List α → Prop}

/-- A pass that groups goes on over runs that fit, and leaves the last one to be reported. -/
theorem Groups.pass_ok (h : Groups same step P state report Fits) (run : List α) (x : α)
    (ys : List α) (hchain : (run ++ [x]).IsChain fun x y => same x y)
    (hP : ∀ z ∈ run ++ [x] ++ ys, P z)
    (hfits : ∀ g ∈ (run ++ [x] ++ ys).splitBy same, Fits g) :
    ∃ out, pass step (state (run ++ [x])) ys =
        .ok (state (lastRun same (run ++ [x] ++ ys)), out) ∧
      out ++ report (lastRun same (run ++ [x] ++ ys)) =
        ((run ++ [x] ++ ys).splitBy same).flatMap report := by
  induction ys generalizing run x with
  | nil =>
    have hne : run ++ [x] ≠ [] := by simp
    rw [List.append_nil, lastRun_of_isChain hne hchain, List.splitBy_of_isChain hne hchain]
    exact ⟨[], rfl, by simp⟩
  | cons y ys ih =>
    have hP' : ∀ z ∈ run ++ [x] ++ [y], P z := fun z hz => hP z (by simp at hz ⊢; tauto)
    cases hxy : same x y with
    | true =>
      have hchain' := hchain.append (.singleton y) (by simp [hxy])
      have hsnoc : run ++ [x] ++ y :: ys = run ++ [x] ++ [y] ++ ys := by simp
      rw [hsnoc] at hP hfits ⊢
      obtain ⟨g, gs, hsplit, hrun⟩ := splitBy_eq_cons_of_isChain (run ++ [x]) y ys hchain'
      have hfit : Fits (run ++ [x] ++ [y]) :=
        h.closed hrun (hfits g (by rw [hsplit]; exact List.mem_cons_self))
      obtain ⟨out, hpass, hout⟩ := ih (run ++ [x]) y hchain' hP hfits
      refine ⟨out, ?_, hout⟩
      rw [pass_cons_ok (h.goes run x y hP' hxy hfit), hpass]
      rfl
    | false =>
      rw [splitBy_run_append hchain hxy] at hfits ⊢
      obtain ⟨out, hpass, hout⟩ := ih [] y (by simp) (fun z hz => hP z (by simp at hz ⊢; tauto))
        (fun g hg => hfits g (List.mem_cons_of_mem _ hg))
      rw [pass_cons_ok (h.breaks run x y hP' hxy), lastRun_run_append hchain hxy]
      simp only [List.nil_append, List.singleton_append] at hpass hout
      refine ⟨report (run ++ [x]) ++ out, ?_, ?_⟩
      · rw [hpass]
        rfl
      · rw [List.append_assoc, hout, List.flatMap_cons]

/-- The pass fails when a run does not fit. -/
theorem Groups.pass_error (h : Groups same step P state report Fits) (run : List α) (x : α)
    (ys : List α) (hchain : (run ++ [x]).IsChain fun x y => same x y)
    (hP : ∀ z ∈ run ++ [x] ++ ys, P z) (hfit : Fits (run ++ [x]))
    (hfits : ¬ ∀ g ∈ (run ++ [x] ++ ys).splitBy same, Fits g) :
    ∃ e, pass step (state (run ++ [x])) ys = .error e := by
  induction ys generalizing run x with
  | nil =>
    rw [List.append_nil, List.splitBy_of_isChain (by simp) hchain] at hfits
    exact absurd (by simpa using hfit) hfits
  | cons y ys ih =>
    have hP' : ∀ z ∈ run ++ [x] ++ [y], P z := fun z hz => hP z (by simp at hz ⊢; tauto)
    cases hxy : same x y with
    | true =>
      have hsnoc : run ++ [x] ++ y :: ys = run ++ [x] ++ [y] ++ ys := by simp
      rw [hsnoc] at hP hfits
      by_cases hfit' : Fits (run ++ [x] ++ [y])
      · obtain ⟨e, he⟩ := ih (run ++ [x]) y (hchain.append (.singleton y) (by simp [hxy])) hP
          hfit' hfits
        rw [pass_cons_ok (h.goes run x y hP' hxy hfit'), he]
        exact ⟨e, rfl⟩
      · obtain ⟨e, he⟩ := h.overruns run x y hP' hxy hfit'
        exact ⟨e, pass_cons_error he ys⟩
    | false =>
      rw [splitBy_run_append hchain hxy, List.forall_mem_cons, not_and] at hfits
      obtain ⟨e, he⟩ := ih [] y (by simp) (fun z hz => hP z (by simp at hz ⊢; tauto))
        (h.single y) (hfits hfit)
      rw [pass_cons_ok (h.breaks run x y hP' hxy)]
      rw [List.nil_append] at he
      rw [he]
      exact ⟨e, rfl⟩

/-- With an element that closes the last run, whatever it writes besides, every run is reported
once, in order. -/
theorem Groups.pass_closed (h : Groups same step P state report Fits) (x : α) (ys : List α)
    (hP : ∀ z ∈ x :: ys, P z) (hfits : ∀ g ∈ (x :: ys).splitBy same, Fits g) {z : α} {t : σ}
    {more : List β}
    (hclose : ∀ run y, step (state (run ++ [y])) z = .ok (t, report (run ++ [y]) ++ more)) :
    pass step (state [x]) (ys ++ [z]) =
      .ok (t, ((x :: ys).splitBy same).flatMap report ++ more) := by
  obtain ⟨out, hpass, hout⟩ := h.pass_ok [] x ys (by simp) hP hfits
  rw [List.nil_append, List.singleton_append] at hpass hout
  have hrun : lastRun same (x :: ys) ≠ [] := lastRun_ne_nil (List.cons_ne_nil x ys)
  obtain ⟨run, y, hlast⟩ := (List.eq_nil_or_concat _).resolve_left hrun
  rw [List.concat_eq_append] at hlast
  rw [hlast] at hpass hout
  rw [pass_append, ← hout, hpass]
  show (pass step (state (run ++ [y])) [z]).map _ = _
  rw [pass_cons_ok (hclose run y)]
  simp [pass, Except.map]

end Groups

end Runs
