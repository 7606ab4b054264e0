import Mathlib.Order.Defs.Unbundled
import ScriptsMisc.Lib.Routine

/-! # What a routine looks at and what it changes

A property of programs that composition keeps holds of a routine when it holds of its calls. Two
such properties: to commute with a map of the state, so that the routine does not look at what the
map changes, and to keep to a relation, which bounds what the routine changes. A third kind of rule
follows a routine through the places where it may fail.
-/

namespace Routine

variable {σ ε α β τ : Type}

/-! ## Composition -/

/-- Programs with the property make up programs with the property. -/
structure Compositional (P : (α : Type) → StateT σ (Except ε) α → Prop) : Prop where
  pure : ∀ {α : Type} (a : α), P α (Pure.pure a)
  throw : ∀ {α : Type} (e : ε), P α (throw e)
  bind : ∀ {α β : Type} {m : StateT σ (Except ε) α} {f : α → StateT σ (Except ε) β},
    P α m → (∀ a, P β (f a)) → P β (m >>= f)

/-- A loop has the property when its guard and its body have it. -/
theorem Compositional.loop {P : (α : Type) → StateT σ (Except ε) α → Prop} (h : Compositional P)
    {stuck : ε} {guard : τ → StateT σ (Except ε) Bool} {body : τ → StateT σ (Except ε) τ}
    (hguard : ∀ x, P Bool (guard x)) (hbody : ∀ x, P τ (body x)) (fuel : ℕ) (x : τ) :
    P τ (Routine.loop stuck guard body fuel x) := by
  induction fuel generalizing x with
  | zero => exact h.throw stuck
  | succ fuel ih =>
    refine h.bind (hguard x) fun b => ?_
    cases b with
    | false => exact h.pure x
    | true => exact h.bind (hbody x) ih

theorem Compositional.forM {P : (α : Type) → StateT σ (Except ε) α → Prop} (h : Compositional P)
    {f : β → StateT σ (Except ε) PUnit} (hf : ∀ x, P PUnit (f x)) (xs : List β) :
    P PUnit (xs.forM f) := by
  induction xs with
  | nil => exact h.pure _
  | cons x xs ih => exact h.bind (hf x) fun _ => ih

/-! ## Maps of the state -/

/-- From the image of a state the program gives the same result, in the image of the state it gives
it in, or the same error. -/
def Commutes (φ : σ → σ) (α : Type) (m : StateT σ (Except ε) α) : Prop :=
  ∀ s, m (φ s) = (m s).map (Prod.map id φ)

variable {φ : σ → σ}

/-- A run goes on in the image as it does before. -/
theorem Commutes.run {m : StateT σ (Except ε) α} (h : Commutes φ α m) {s s' : σ} {a : α}
    (hrun : m s = .ok (a, s')) : m (φ s) = .ok (a, φ s') := by
  rw [h s, hrun]
  rfl

theorem Commutes.error {m : StateT σ (Except ε) α} (h : Commutes φ α m) {s : σ} {e : ε}
    (hrun : m s = .error e) : m (φ s) = .error e := by
  rw [h s, hrun]
  rfl

/-- An update commutes when its function does. -/
theorem Commutes.modify {g : σ → σ} (h : ∀ s, g (φ s) = φ (g s)) :
    Commutes φ PUnit (modify g : StateT σ (Except ε) PUnit) := by
  intro s
  show Except.ok (PUnit.unit, g (φ s)) = Except.ok (PUnit.unit, φ (g s))
  rw [h s]

/-- What is read of the state is the same in its image. -/
theorem Commutes.get_bind {f : σ → StateT σ (Except ε) α} (hread : ∀ s, f (φ s) = f s)
    (hf : ∀ s, Commutes φ α (f s)) : Commutes φ α (get >>= f) := by
  intro s
  rw [get_bind_run, get_bind_run, hread s]
  exact hf s s

/-- Programs that commute with a map are closed under sequence. -/
theorem commutes_compositional (φ : σ → σ) :
    Compositional (fun α (m : StateT σ (Except ε) α) => Commutes φ α m) where
  pure _ _ := rfl
  throw _ _ := rfl
  bind := by
    intro α β m f hm hf s
    cases hrun : m s with
    | error e =>
      rw [bind_error hrun, bind_error (hm.error hrun)]
      rfl
    | ok r =>
      have hrun' : m s = .ok (r.1, r.2) := hrun
      rw [bind_run hrun', bind_run (hm.run hrun')]
      exact hf r.1 r.2

/-! ## Relations between the states -/

/-- Every run that returns relates its two states. -/
def Relates (R : σ → σ → Prop) (α : Type) (m : StateT σ (Except ε) α) : Prop :=
  ∀ s a s', m s = .ok (a, s') → R s s'

variable {R : σ → σ → Prop}

/-- An update relates the states that its function relates. -/
theorem Relates.modify {g : σ → σ} (h : ∀ s, R s (g s)) :
    Relates R PUnit (modify g : StateT σ (Except ε) PUnit) := by
  intro s a s' hrun
  cases hrun
  exact h s

theorem Relates.get_bind {f : σ → StateT σ (Except ε) α} (h : ∀ s, Relates R α (f s)) :
    Relates R α (get >>= f) := fun s => h s s

/-- Programs that keep a preorder of the states are closed under sequence. -/
theorem relates_compositional (R : σ → σ → Prop) [Std.Refl R] [IsTrans σ R] :
    Compositional (fun α (m : StateT σ (Except ε) α) => Relates R α m) where
  pure := by
    intro α a s a' s' h
    cases h
    exact refl_of R s
  throw := by
    intro α e s a s' h
    cases h
  bind := by
    intro α β m f hm hf s b s' h
    obtain ⟨a, s₁, hrun, hrest⟩ := bind_eq_ok_iff.mp h
    exact trans_of R (hm s a s₁ hrun) (hf a s₁ b s' hrest)

/-! ## Returning and failing -/

/-- From every state with `P` the program returns with `Q` or fails with `E`. -/
def Leaves (P : σ → Prop) (m : StateT σ (Except ε) α) (Q : α → σ → Prop) (E : ε → Prop) : Prop :=
  ∀ s, P s → (∀ a s', m s = .ok (a, s') → Q a s') ∧ ∀ e, m s = .error e → E e

variable {P P' : σ → Prop} {E : ε → Prop}

/-- A stronger condition is enough. -/
theorem Leaves.mono {m : StateT σ (Except ε) α} {Q : α → σ → Prop} (h : Leaves P m Q E)
    (hP : ∀ s, P' s → P s) : Leaves P' m Q E := fun s hs => h s (hP s hs)

theorem Leaves.pure {Q : α → σ → Prop} (a : α) (h : ∀ s, P s → Q a s) :
    Leaves P (Pure.pure a : StateT σ (Except ε) α) Q E := by
  refine fun s hs => ⟨fun a' s' hrun => ?_, fun e hrun => ?_⟩
  · cases hrun
    exact h s hs
  · cases hrun

/-- An update never fails. -/
theorem Leaves.modify {g : σ → σ} {Q : PUnit → σ → Prop} (h : ∀ s, P s → Q ⟨⟩ (g s)) :
    Leaves P (modify g : StateT σ (Except ε) PUnit) Q E := by
  refine fun s hs => ⟨fun a s' hrun => ?_, fun e hrun => ?_⟩
  · cases hrun
    exact h s hs
  · cases hrun

/-- What the first program leaves, the second one starts from. -/
theorem Leaves.bind {m : StateT σ (Except ε) α} {f : α → StateT σ (Except ε) β}
    {R : α → σ → Prop} {Q : β → σ → Prop} (hm : Leaves P m R E)
    (hf : ∀ a, Leaves (R a) (f a) Q E) : Leaves P (m >>= f) Q E := by
  intro s hs
  cases hrun : m s with
  | error e =>
    rw [bind_error hrun]
    refine ⟨fun b s' h => ?_, fun e' h => ?_⟩
    · cases h
    · cases h
      exact (hm s hs).2 e hrun
  | ok r =>
    have hrun' : m s = .ok (r.1, r.2) := hrun
    rw [bind_run hrun']
    exact hf r.1 r.2 ((hm s hs).1 r.1 r.2 hrun')

theorem Leaves.get_bind {f : σ → StateT σ (Except ε) α} {Q : α → σ → Prop}
    (h : ∀ s, P s → Leaves P (f s) Q E) : Leaves P (get >>= f) Q E :=
  fun s hs => h s hs s hs

/-- A fact that needs no state is there from the start. -/
theorem Leaves.of_and {p : Prop} {m : StateT σ (Except ε) α} {Q : α → σ → Prop}
    (h : p → Leaves P m Q E) : Leaves (fun s => p ∧ P s) m Q E := fun s hs => h hs.1 s hs.2

/-- A loop keeps what its rounds keep, of its locals and of the state. -/
theorem Leaves.loop {J : τ → Prop} {stuck : ε} {guard : τ → StateT σ (Except ε) Bool}
    {body : τ → StateT σ (Except ε) τ} (hstuck : E stuck)
    (hguard : ∀ x, Leaves P (guard x) (fun _ => P) E)
    (hbody : ∀ x, J x → Leaves P (body x) (fun y s => J y ∧ P s) E) (fuel : ℕ) {x : τ}
    (hx : J x) : Leaves P (Routine.loop stuck guard body fuel x) (fun y s => J y ∧ P s) E := by
  induction fuel generalizing x with
  | zero =>
    refine fun s hs => ⟨fun a s' h => ?_, fun e h => ?_⟩
    · cases h
    · cases h
      exact hstuck
  | succ fuel ih =>
    refine Leaves.bind (hguard x) fun b => ?_
    cases b with
    | false => exact Leaves.pure x fun s hs => ⟨hx, hs⟩
    | true => exact Leaves.bind (hbody x hx) fun y => Leaves.of_and ih

/-- A loop over a list keeps what its rounds keep. -/
theorem Leaves.forM {f : β → StateT σ (Except ε) PUnit} {xs : List β}
    (h : ∀ x ∈ xs, Leaves P (f x) (fun _ => P) E) : Leaves P (xs.forM f) (fun _ => P) E := by
  induction xs with
  | nil => exact Leaves.pure _ fun _ hs => hs
  | cons x xs ih =>
    rw [List.forall_mem_cons] at h
    exact Leaves.bind h.1 fun _ => ih h.2

end Routine
