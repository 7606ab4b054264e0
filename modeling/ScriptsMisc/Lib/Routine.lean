import Mathlib.Tactic.Common

/-! # Routines that change a state and may fail

Rules for programs over a state with exceptions: what a program ensures from every state that
meets a condition, and that it returns. A loop is given a bound on its rounds; it returns when
every round lowers a measure that the bound exceeds.
-/

namespace Routine

variable {σ ε α β τ : Type}

/-- From every state with `P` the program returns, and leaves a result and a state with `Q`. -/
def Ensures (P : σ → Prop) (m : StateT σ (Except ε) α) (Q : α → σ → Prop) : Prop :=
  ∀ s, P s → ∃ a s', m s = .ok (a, s') ∧ Q a s'

/-- The program returns from every state with `P`, and keeps `P`. -/
def Keeps (P : σ → Prop) (m : StateT σ (Except ε) α) : Prop := Ensures P m fun _ => P

/-- `while guard: body` with at most `fuel` rounds; `stuck` reports that there were more. The
loop hands its local variables from round to round. -/
def loop (stuck : ε) (guard : τ → StateT σ (Except ε) Bool)
    (body : τ → StateT σ (Except ε) τ) : ℕ → τ → StateT σ (Except ε) τ
  | 0, _ => throw stuck
  | fuel + 1, x => do
    if ← guard x then
      let x ← body x
      loop stuck guard body fuel x
    else return x

variable {P P' : σ → Prop} {Q Q' : α → σ → Prop}

/-! ## Runs -/

theorem get_bind_run (f : σ → StateT σ (Except ε) α) (s : σ) : (get >>= f) s = f s s := rfl

/-- A program that returns hands its result and its state to the next one. -/
theorem bind_run {m : StateT σ (Except ε) α} {s s' : σ} {a : α} (h : m s = .ok (a, s'))
    (f : α → StateT σ (Except ε) β) : (m >>= f) s = f a s' := by
  show (m s >>= fun r => f r.1 r.2) = _
  rw [h]
  rfl

/-- A program that fails stops what follows. -/
theorem bind_error {m : StateT σ (Except ε) α} {s : σ} {e : ε} (h : m s = .error e)
    (f : α → StateT σ (Except ε) β) : (m >>= f) s = .error e := by
  show (m s >>= fun r => f r.1 r.2) = _
  rw [h]
  rfl

/-! ## Single programs -/

/-- The condition may be strengthened and the result weakened. -/
theorem Ensures.mono {m : StateT σ (Except ε) α} (h : Ensures P m Q) (hP : ∀ s, P' s → P s)
    (hQ : ∀ a s, Q a s → Q' a s) : Ensures P' m Q' := by
  intro s hs
  obtain ⟨a, s', hrun, hq⟩ := h s (hP s hs)
  exact ⟨a, s', hrun, hQ a s' hq⟩

theorem Ensures.pure {a : α} (h : ∀ s, P s → Q a s) :
    Ensures P (Pure.pure a : StateT σ (Except ε) α) Q :=
  fun s hs => ⟨a, s, rfl, h s hs⟩

/-- What the first program ensures, the second one starts from. -/
theorem Ensures.bind {m : StateT σ (Except ε) α} {f : α → StateT σ (Except ε) β}
    {R : α → σ → Prop} {Q : β → σ → Prop} (hm : Ensures P m R)
    (hf : ∀ a, Ensures (R a) (f a) Q) : Ensures P (m >>= f) Q := by
  intro s hs
  obtain ⟨a, s₁, hrun, hr⟩ := hm s hs
  obtain ⟨b, s₂, hrun', hq⟩ := hf a s₁ hr
  exact ⟨b, s₂, (bind_run hrun f).trans hrun', hq⟩

/-- Both branches ensure it. -/
theorem Ensures.ite {c : Prop} [Decidable c] {m m' : StateT σ (Except ε) α}
    (hm : c → Ensures P m Q) (hm' : ¬ c → Ensures P m' Q) :
    Ensures P (if c then m else m') Q := by
  split
  · next h => exact hm h
  · next h => exact hm' h

theorem Keeps.pure (a : α) : Keeps P (Pure.pure a : StateT σ (Except ε) α) :=
  Ensures.pure fun _ hs => hs

/-- A sequence keeps what both programs keep. -/
theorem Keeps.bind {m : StateT σ (Except ε) α} {f : α → StateT σ (Except ε) β}
    (hm : Keeps P m) (hf : ∀ a, Keeps P (f a)) : Keeps P (m >>= f) :=
  Ensures.bind hm hf

/-- A loop over a list keeps what its rounds keep. -/
theorem Keeps.forM {xs : List β} {f : β → StateT σ (Except ε) PUnit}
    (h : ∀ x ∈ xs, Keeps P (f x)) : Keeps P (xs.forM f) := by
  induction xs with
  | nil => exact Keeps.pure _
  | cons x xs ih =>
    rw [List.forall_mem_cons] at h
    exact Keeps.bind h.1 fun _ => ih h.2

/-! ## Loops -/

variable {stuck : ε} {guard : τ → StateT σ (Except ε) Bool} {body : τ → StateT σ (Except ε) τ}

/-- A loop ends where its guard fails. -/
theorem loop_of_false {x : τ} {s : σ} (h : guard x s = .ok (false, s)) (fuel : ℕ) :
    loop stuck guard body (fuel + 1) x s = .ok (x, s) := by
  rw [loop, bind_run h]
  rfl

/-- It makes a round where the guard holds. -/
theorem loop_of_true {x x' : τ} {s s' : σ} (h : guard x s = .ok (true, s))
    (hbody : body x s = .ok (x', s')) (fuel : ℕ) :
    loop stuck guard body (fuel + 1) x s = loop stuck guard body fuel x' s' := by
  rw [loop, bind_run h]
  exact bind_run hbody _

/-- `LoopRuns guard body n x s y t`: from the locals `x` and the state `s` the loop makes `n` rounds
and ends with `y` and `t`. -/
inductive LoopRuns (guard : τ → StateT σ (Except ε) Bool) (body : τ → StateT σ (Except ε) τ) :
    ℕ → τ → σ → τ → σ → Prop
  | stop {x : τ} {s : σ} : guard x s = .ok (false, s) → LoopRuns guard body 0 x s x s
  | round {n : ℕ} {x x' y : τ} {s s' t : σ} : guard x s = .ok (true, s) →
      body x s = .ok (x', s') → LoopRuns guard body n x' s' y t →
      LoopRuns guard body (n + 1) x s y t

/-- Fuel for more rounds than the loop makes gives its result. -/
theorem LoopRuns.run {n fuel : ℕ} {x y : τ} {s t : σ} (h : LoopRuns guard body n x s y t)
    (hfuel : n < fuel) : loop stuck guard body fuel x s = .ok (y, t) := by
  obtain ⟨fuel, rfl⟩ : ∃ k, fuel = k + 1 := ⟨fuel - 1, by omega⟩
  induction h generalizing fuel with
  | stop hguard => exact loop_of_false hguard fuel
  | round hguard hbody _ ih =>
    obtain ⟨k, rfl⟩ : ∃ k, fuel = k + 1 := ⟨fuel - 1, by omega⟩
    rw [loop_of_true hguard hbody]
    exact ih k (by omega)

/-- A loop keeps what its rounds keep; `I n` says that the measure is at most `n`. -/
theorem Keeps.loop {I : ℕ → σ → Prop} (hmono : ∀ m n s, m ≤ n → I m s → I n s)
    (hguard : ∀ x n, Ensures (I n) (guard x) fun b s => I n s ∧ (b = true → 0 < n))
    (hbody : ∀ x n, Ensures (I (n + 1)) (body x) fun _ => I n) {fuel n : ℕ} (hfuel : n < fuel)
    (x : τ) : Keeps (I n) (loop stuck guard body fuel x) := by
  induction fuel generalizing n x with
  | zero => omega
  | succ fuel ih =>
    refine Ensures.bind (hguard x n) fun b => ?_
    cases b with
    | false => exact Ensures.pure fun s hs => hs.1
    | true =>
      -- a round is only entered with a positive measure
      intro s hs
      have hpos := hs.2 rfl
      obtain ⟨k, rfl⟩ : ∃ k, n = k + 1 := ⟨n - 1, by omega⟩
      have hround := Ensures.bind (hbody x k) fun x' =>
        (ih (by omega) x').mono (fun _ h => h) fun _ s h => hmono k (k + 1) s (by omega) h
      exact hround s hs.1

/-! ## Stricter programs -/

section Refines

variable {ε' : Type}

/-- What a program returned, it returned through both parts. -/
theorem bind_eq_ok_iff {m : StateT σ (Except ε) α} {f : α → StateT σ (Except ε) β} {s : σ}
    {r : β × σ} :
    (m >>= f) s = .ok r ↔ ∃ a s', m s = .ok (a, s') ∧ f a s' = .ok r := by
  constructor
  · intro h
    cases hm : m s with
    | error e =>
      rw [bind_error hm] at h
      cases h
    | ok q =>
      have hq : m s = .ok (q.1, q.2) := hm
      rw [bind_run hq] at h
      exact ⟨q.1, q.2, rfl, h⟩
  · rintro ⟨a, s', hm, hf⟩
    rw [bind_run hm, hf]

/-- Where the first program returns the second one does the same; the first may fail more often. -/
def Refines (m : StateT σ (Except ε) α) (n : StateT σ (Except ε') α) : Prop :=
  ∀ s r, m s = .ok r → n s = .ok r

theorem Refines.pure (a : α) :
    Refines (Pure.pure a : StateT σ (Except ε) α) (Pure.pure a : StateT σ (Except ε') α) := by
  intro s r h
  cases h
  rfl

theorem Refines.get_bind {f : σ → StateT σ (Except ε) α} {g : σ → StateT σ (Except ε') α}
    (h : ∀ s, Refines (f s) (g s)) : Refines (get >>= f) (get >>= g) := fun s => h s s

/-- Sequences are compared part by part. -/
theorem Refines.bind {m : StateT σ (Except ε) α} {n : StateT σ (Except ε') α}
    {f : α → StateT σ (Except ε) β} {g : α → StateT σ (Except ε') β} (hm : Refines m n)
    (hf : ∀ a, Refines (f a) (g a)) : Refines (m >>= f) (n >>= g) := by
  intro s r h
  obtain ⟨a, s', hrun, hrest⟩ := bind_eq_ok_iff.mp h
  exact bind_eq_ok_iff.mpr ⟨a, s', hm s _ hrun, hf a s' r hrest⟩

theorem Refines.ite {c : Prop} [Decidable c] {m m' : StateT σ (Except ε) α}
    {n n' : StateT σ (Except ε') α} (h : Refines m n) (h' : Refines m' n') :
    Refines (if c then m else m') (if c then n else n') := by
  split
  · exact h
  · exact h'

/-- Loops over a list are compared round by round. -/
theorem Refines.forM {xs : List β} {f : β → StateT σ (Except ε) PUnit}
    {g : β → StateT σ (Except ε') PUnit} (h : ∀ x, Refines (f x) (g x)) :
    Refines (xs.forM f) (xs.forM g) := by
  induction xs with
  | nil => exact Refines.pure _
  | cons x xs ih => exact Refines.bind (h x) fun _ => ih

/-- Loops with the same fuel. -/
theorem Refines.loop {stuck : ε} {stuck' : ε'} {guard : τ → StateT σ (Except ε) Bool}
    {guard' : τ → StateT σ (Except ε') Bool} {body : τ → StateT σ (Except ε) τ}
    {body' : τ → StateT σ (Except ε') τ} (hguard : ∀ x, Refines (guard x) (guard' x))
    (hbody : ∀ x, Refines (body x) (body' x)) (fuel : ℕ) (x : τ) :
    Refines (Routine.loop stuck guard body fuel x) (Routine.loop stuck' guard' body' fuel x) := by
  induction fuel generalizing x with
  | zero =>
    intro s r h
    cases h
  | succ fuel ih =>
    refine Refines.bind (hguard x) fun b => ?_
    cases b with
    | false => exact Refines.pure x
    | true => exact Refines.bind (hbody x) ih

end Refines

end Routine
