import Mathlib
import ScriptsMisc.Lib.Text

/-! # The word game scripts

What `find-words.py` and `solver.py` share: reading text files line by line, dictionaries that
raise on a missing key, and the letter values of the game.
-/

namespace Words

/-- The exceptions of a lookup. -/
inductive PyError where
  | keyError (key : Str)
  | indexError
deriving DecidableEq, Repr

/-- `d[key]` of a dictionary. -/
def item (d : List (Str × ℕ)) (key : Str) : Except PyError ℕ :=
  match d.lookup key with
  | some value => .ok value
  | none => .error (.keyError key)

/-- `readlines ()`: every line but the last ends with its line feed. -/
def readlines : Str → List Str
  | [] => []
  | c :: s =>
    if c = '\n' then [c] :: readlines s
    else
      match readlines s with
      | [] => [[c]]
      | line :: lines => (c :: line) :: lines

/-- `string.strip (w)`. -/
def strip (w : Str) : Str := ((w.dropWhile Text.isSpace).reverse.dropWhile Text.isSpace).reverse

/-- A loop none of whose rounds raises collects what the rounds return. -/
theorem mapM_ok {ε α β : Type} {f : α → Except ε β} {g : α → β} {xs : List α}
    (h : ∀ x ∈ xs, f x = .ok (g x)) : xs.mapM f = .ok (xs.map g) := by
  induction xs with
  | nil => rfl
  | cons x xs ih =>
    rw [List.forall_mem_cons] at h
    rw [List.mapM_cons, h.1, ih h.2]
    rfl

/-- What a returned result says about the two parts of a computation. -/
theorem bind_ok {ε α β : Type} {x : Except ε α} {f : α → Except ε β} {b : β}
    (h : x >>= f = .ok b) : ∃ a, x = .ok a ∧ f a = .ok b := by
  cases x with
  | error e => cases h
  | ok a => exact ⟨a, rfl, h⟩

/-- A loop that returns has returned from every round. -/
theorem foldlM_ok_mem {ε α β : Type} {f : β → α → Except ε β} {xs : List α} {b r : β}
    (h : xs.foldlM f b = .ok r) {x : α} (hx : x ∈ xs) : ∃ b₁ b₂, f b₁ x = .ok b₂ := by
  induction xs generalizing b with
  | nil => exact absurd hx List.not_mem_nil
  | cons y ys ih =>
    rw [List.foldlM_cons] at h
    obtain ⟨b₂, hround, hrest⟩ := bind_ok h
    rcases List.mem_cons.mp hx with rfl | hmem
    · exact ⟨b, b₂, hround⟩
    · exact ih hrest hmem

/-- A property of the upper-case letters, to be checked one by one. -/
theorem forall_upper_of_all {P : Char → Prop} [DecidablePred P]
    (h : (List.range 26).all (fun n => decide (P (Char.ofNat (65 + n)))) = true) {c : Char}
    (hc : c.isUpper = true) : P c := by
  have hrange : 65 ≤ c.toNat ∧ c.toNat ≤ 90 := by
    simpa [Char.isUpper, UInt32.le_iff_toNat_le] using hc
  have hn := List.all_eq_true.mp h (c.toNat - 65) (List.mem_range.mpr (by omega))
  rw [show 65 + (c.toNat - 65) = c.toNat by omega, Char.ofNat_toNat] at hn
  exact of_decide_eq_true hn

end Words

namespace FindWords

open Words

/-! ## The tile values of `find-words.py` -/

/-- `charVals` of `find-words.py`. -/
def charVals : List (Str × ℕ) :=
  [(['A'], 1), (['B'], 4), (['C'], 4), (['D'], 2), (['E'], 1), (['F'], 4), (['G'], 3),
    (['H'], 3), (['I'], 1), (['J'], 10), (['K'], 5), (['L'], 2), (['M'], 4), (['N'], 2),
    (['O'], 1), (['P'], 4), (['Q'], 10), (['R'], 1), (['S'], 1), (['T'], 1), (['U'], 2),
    (['V'], 5), (['W'], 4), (['X'], 8), (['Y'], 3), (['Z'], 10)]

/-- The value of a tile of the game. -/
def tileValue (c : Char) : ℕ := (charVals.lookup [c]).getD 0

/-- `evalString (word)` of `find-words.py`. -/
def evalString (word : Str) : Except PyError ℕ :=
  word.foldlM (fun val c => do return val + (← item charVals [c])) 0

/-- Every upper-case letter has a value. -/
theorem item_charVals {c : Char} (hc : c.isUpper = true) :
    item charVals [c] = .ok (tileValue c) := by
  have hsome : (charVals.lookup [c]).isSome = true :=
    forall_upper_of_all (P := fun c => (charVals.lookup [c]).isSome = true) (by decide) hc
  obtain ⟨value, hvalue⟩ := Option.isSome_iff_exists.mp hsome
  rw [item, tileValue, hvalue]
  rfl

/-- `evalString` adds up the values of the letters. -/
theorem evalString_eq {word : Str} (hword : ∀ c ∈ word, c.isUpper = true) :
    evalString word = .ok (word.map tileValue).sum := by
  have hloop : ∀ (cs : Str) (val : ℕ), (∀ c ∈ cs, c.isUpper = true) →
      cs.foldlM (fun val c => do return val + (← item charVals [c])) val =
        (.ok (val + (cs.map tileValue).sum) : Except PyError ℕ) := by
    intro cs
    induction cs with
    | nil => exact fun val _ => rfl
    | cons c cs ih =>
      intro val hcs
      rw [List.forall_mem_cons] at hcs
      rw [List.foldlM_cons, item_charVals hcs.1, List.map_cons, List.sum_cons, ← add_assoc]
      exact ih _ hcs.2
  rw [evalString, hloop word 0 hword, Nat.zero_add]

end FindWords
