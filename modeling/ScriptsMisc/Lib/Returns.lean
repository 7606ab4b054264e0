import ScriptsMisc.Lib.Routine

/-! # Where a routine returns

Rules that take a program part by part and find the exact condition under which it returns. The
condition of a later part is asked for in the states the earlier parts leave.
-/

namespace Routine

variable {σ ε α β τ : Type}

/-- The program comes to its end without an error. -/
def Returns (m : StateT σ (Except ε) α) (s : σ) : Prop := ∃ r, m s = .ok r

section Parts

variable {m : StateT σ (Except ε) α} {f : α → StateT σ (Except ε) β} {s s' : σ} {a : α}

/-- Behind a program that has run only the rest counts. -/
theorem returns_bind_run (h : m s = .ok (a, s')) : Returns (m >>= f) s ↔ Returns (f a) s' := by
  rw [Returns, bind_run h]
  rfl

/-- What does not return stops what follows. -/
theorem not_returns_bind (h : ¬ Returns m s) : ¬ Returns (m >>= f) s := by
  rintro ⟨r, hr⟩
  obtain ⟨a, s', hm, -⟩ := bind_eq_ok_iff.mp hr
  exact h ⟨(a, s'), hm⟩

/-- A program that fails does not return. -/
theorem not_returns_of_error {e : ε} (h : m s = .error e) : ¬ Returns m s := by
  rintro ⟨r, hr⟩
  rw [h] at hr
  cases hr

/-- One part after the other; the first one decides where the second one starts. -/
theorem returns_bind_iff {C D : Prop} (hm : Returns m s ↔ C)
    (hf : ∀ a s', m s = .ok (a, s') → (Returns (f a) s' ↔ D)) :
    Returns (m >>= f) s ↔ C ∧ D := by
  constructor
  · rintro ⟨r, hr⟩
    obtain ⟨a, s', hrun, hrest⟩ := bind_eq_ok_iff.mp hr
    exact ⟨hm.mp ⟨(a, s'), hrun⟩, (hf a s' hrun).mp ⟨r, hrest⟩⟩
  · rintro ⟨hC, hD⟩
    obtain ⟨⟨a, s'⟩, hrun⟩ := hm.mpr hC
    exact (returns_bind_run hrun).mpr ((hf a s' hrun).mpr hD)

/-- A second part that always returns asks for nothing more. -/
theorem returns_bind_iff_left (hf : ∀ a s', m s = .ok (a, s') → Returns (f a) s') :
    Returns (m >>= f) s ↔ Returns m s :=
  (returns_bind_iff Iff.rfl fun a s' hrun => iff_of_true (hf a s' hrun) trivial).trans
    (iff_of_eq (and_true _))

end Parts

/-- A list of parts that hand on the invariant `I`. -/
theorem returns_forM_iff {I : σ → Prop} {C : β → Prop} {f : β → StateT σ (Except ε) PUnit}
    (hkeep : ∀ x s s', I s → f x s = .ok ((), s') → I s')
    (hone : ∀ x s, I s → (Returns (f x) s ↔ C x)) (xs : List β) {s : σ} (hs : I s) :
    Returns (xs.forM f) s ↔ ∀ x ∈ xs, C x := by
  induction xs generalizing s with
  | nil => exact ⟨fun _ => List.forall_mem_nil _, fun _ => ⟨_, rfl⟩⟩
  | cons x xs ih =>
    rw [List.forall_mem_cons]
    exact returns_bind_iff (hone x s hs) fun _ s' hrun => ih (hkeep x s s' hs hrun)

/-- What the second program ensures the first one leaves where it returns. -/
theorem Refines.ensures {ε' : Type} {P : σ → Prop} {Q : α → σ → Prop}
    {m : StateT σ (Except ε) α} {n : StateT σ (Except ε') α} (h : Refines m n)
    (hn : Ensures P n Q) {s s' : σ} {a : α} (hs : P s) (hrun : m s = .ok (a, s')) : Q a s' := by
  obtain ⟨a', s'', hrun', hQ⟩ := hn s hs
  have hsame := hrun'.symm.trans (h s (a, s') hrun)
  cases hsame
  exact hQ

/-- The bodies of two loops need to agree only where a round is entered. -/
theorem Refines.loop_guarded {ε' : Type} {stuck : ε} {stuck' : ε'}
    {guard : τ → StateT σ (Except ε) Bool} {guard' : τ → StateT σ (Except ε') Bool}
    {body : τ → StateT σ (Except ε) τ} {body' : τ → StateT σ (Except ε') τ}
    (hguard : ∀ x, Refines (guard x) (guard' x))
    (hbody : ∀ x s s', guard x s = .ok (true, s') → ∀ r, body x s' = .ok r → body' x s' = .ok r)
    (fuel : ℕ) (x : τ) :
    Refines (Routine.loop stuck guard body fuel x)
      (Routine.loop stuck' guard' body' fuel x) := by
  induction fuel generalizing x with
  | zero =>
    intro s r h
    cases h
  | succ fuel ih =>
    intro s r h
    obtain ⟨b, s', hrun, hrest⟩ := bind_eq_ok_iff.mp h
    refine bind_eq_ok_iff.mpr ⟨b, s', hguard x s _ hrun, ?_⟩
    cases b with
    | false => exact Refines.pure x s' r hrest
    | true =>
      obtain ⟨x', s'', hround, hrest⟩ := bind_eq_ok_iff.mp hrest
      exact bind_eq_ok_iff.mpr ⟨x', s'', hbody x s s' hrun _ hround, ih x' s'' r hrest⟩

end Routine
