import ScriptsMisc.Lib.Returns

/-! # Routines with additional guards

A routine that may stop at some of its steps for a further reason, compared with the routine
without these guards. It returns exactly when that one returns and the way from the first state to
the last one passes the guards; a way in two parts passes when both parts do.
-/

namespace Routine

variable {σ ε ε' α β τ : Type}

/-- The ways from state to state that pass some guards, among the ways `Along` that are taken at
all. -/
structure Guards (σ : Type) where
  Along : σ → σ → Prop
  Pass : σ → σ → Prop
  along_refl : ∀ s, Along s s
  along_trans : ∀ {s t u}, Along s t → Along t u → Along s u
  pass_refl : ∀ s, Pass s s
  pass_iff : ∀ {s t u}, Along s t → Along t u → (Pass s u ↔ Pass s t ∧ Pass t u)

/-- The first program is the second one with guards. -/
structure Guarded (G : Guards σ) (m : StateT σ (Except ε) α) (n : StateT σ (Except ε') α) :
    Prop where
  along : ∀ s r, n s = .ok r → G.Along s r.2
  run_iff : ∀ s r, m s = .ok r ↔ n s = .ok r ∧ G.Pass s r.2

variable {G : Guards σ}

/-- A program whose ways pass by themselves. -/
theorem Guarded.same {m : StateT σ (Except ε) α}
    (h : ∀ s r, m s = .ok r → G.Along s r.2 ∧ G.Pass s r.2) : Guarded G m m where
  along s r hrun := (h s r hrun).1
  run_iff s r := ⟨fun hrun => ⟨hrun, (h s r hrun).2⟩, fun hrun => hrun.1⟩

theorem Guarded.pure (a : α) :
    Guarded G (Pure.pure a : StateT σ (Except ε) α) (Pure.pure a : StateT σ (Except ε) α) := by
  refine Guarded.same fun s r hrun => ?_
  cases hrun
  exact ⟨G.along_refl s, G.pass_refl s⟩

theorem Guarded.get_bind {f : σ → StateT σ (Except ε) α} {g : σ → StateT σ (Except ε') α}
    (h : ∀ s, Guarded G (f s) (g s)) : Guarded G (get >>= f) (get >>= g) where
  along s r := (h s).along s r
  run_iff s r := (h s).run_iff s r

/-- The parts of a program have their own guards. -/
theorem Guarded.bind {m : StateT σ (Except ε) α} {n : StateT σ (Except ε') α}
    {f : α → StateT σ (Except ε) β} {g : α → StateT σ (Except ε') β} (hm : Guarded G m n)
    (hf : ∀ a, Guarded G (f a) (g a)) : Guarded G (m >>= f) (n >>= g) where
  along s r hrun := by
    obtain ⟨a, t, hn, hg⟩ := bind_eq_ok_iff.mp hrun
    exact G.along_trans (hm.along s _ hn) ((hf a).along t r hg)
  run_iff s r := by
    constructor
    · intro hrun
      obtain ⟨a, t, hm', hf'⟩ := bind_eq_ok_iff.mp hrun
      obtain ⟨hn, hfirst⟩ := (hm.run_iff s _).mp hm'
      obtain ⟨hg, hsecond⟩ := ((hf a).run_iff t r).mp hf'
      refine ⟨bind_eq_ok_iff.mpr ⟨a, t, hn, hg⟩, ?_⟩
      exact (G.pass_iff (hm.along s _ hn) ((hf a).along t r hg)).mpr ⟨hfirst, hsecond⟩
    · rintro ⟨hrun, hpass⟩
      obtain ⟨a, t, hn, hg⟩ := bind_eq_ok_iff.mp hrun
      obtain ⟨hfirst, hsecond⟩ :=
        (G.pass_iff (hm.along s _ hn) ((hf a).along t r hg)).mp hpass
      exact bind_eq_ok_iff.mpr
        ⟨a, t, (hm.run_iff s _).mpr ⟨hn, hfirst⟩, ((hf a).run_iff t r).mpr ⟨hg, hsecond⟩⟩

theorem Guarded.ite {c : Prop} [Decidable c] {m m' : StateT σ (Except ε) α}
    {n n' : StateT σ (Except ε') α} (h : Guarded G m n) (h' : Guarded G m' n') :
    Guarded G (if c then m else m') (if c then n else n') := by
  split
  · exact h
  · exact h'

/-- A loop over a list is guarded round by round. -/
theorem Guarded.forM {f g : β → StateT σ (Except ε) PUnit} (h : ∀ x, Guarded G (f x) (g x))
    (xs : List β) : Guarded G (xs.forM f) (xs.forM g) := by
  induction xs with
  | nil => exact Guarded.pure _
  | cons x xs ih => exact Guarded.bind (h x) fun _ => ih

/-- Loops with the same fuel. -/
theorem Guarded.loop {stuck : ε} {guard guard' : τ → StateT σ (Except ε) Bool}
    {body body' : τ → StateT σ (Except ε) τ} (hguard : ∀ x, Guarded G (guard x) (guard' x))
    (hbody : ∀ x, Guarded G (body x) (body' x)) (fuel : ℕ) (x : τ) :
    Guarded G (Routine.loop stuck guard body fuel x) (Routine.loop stuck guard' body' fuel x) := by
  induction fuel generalizing x with
  | zero =>
    refine Guarded.same fun s r hrun => ?_
    cases hrun
  | succ fuel ih =>
    refine Guarded.bind (hguard x) fun b => ?_
    cases b with
    | false => exact Guarded.pure x
    | true => exact Guarded.bind (hbody x) ih

end Routine
