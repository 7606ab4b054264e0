import Mathlib.Data.List.Basic
import Mathlib.Data.List.Infix
import Mathlib.Tactic.Common

/-! # Words repeated for ever

Two words give the same sequence when they are repeated for ever exactly when they commute, and it
takes no more letters than the two words have together to tell.
-/

namespace Cyclic

variable {α : Type*} {u v : List α}

/-- The `n`-th letter of a word repeated for ever. -/
def letter (u : List α) (n : ℕ) : Option α := u[n % u.length]?

theorem letter_of_lt {n : ℕ} (h : n < u.length) : letter u n = u[n]? := by
  rw [letter, Nat.mod_eq_of_lt h]

/-- The letters come again after the length of the word. -/
theorem letter_add_length (u : List α) (n : ℕ) : letter u (n + u.length) = letter u n := by
  rw [letter, letter, Nat.add_mod_right]

/-- Below the length of both words the sequence is the one word after the other. -/
theorem getElem?_append_of_letter (h : ∀ n < u.length + v.length, letter u n = letter v n) {i : ℕ}
    (hi : i < u.length + v.length) : (u ++ v)[i]? = letter u i := by
  by_cases hlt : i < u.length
  · rw [List.getElem?_append_left hlt, letter_of_lt hlt]
  · have hv : i - u.length < v.length := by omega
    have hback : i - u.length + u.length = i := by omega
    calc (u ++ v)[i]? = v[i - u.length]? := List.getElem?_append_right (Nat.le_of_not_lt hlt)
      _ = letter v (i - u.length) := (letter_of_lt hv).symm
      _ = letter u (i - u.length) := (h _ (by omega)).symm
      _ = letter u (i - u.length + u.length) := (letter_add_length u _).symm
      _ = letter u i := by rw [hback]

/-- Words that agree for as long as both of them commute. -/
theorem append_comm_of_letter (h : ∀ n < u.length + v.length, letter u n = letter v n) :
    u ++ v = v ++ u := by
  refine List.ext_getElem? fun i => ?_
  by_cases hi : i < u.length + v.length
  · have h' : ∀ n < v.length + u.length, letter v n = letter u n := fun n hn =>
      (h n (by omega)).symm
    rw [getElem?_append_of_letter h hi, getElem?_append_of_letter h' (by omega), h i hi]
  · rw [List.getElem?_eq_none (by simp; omega), List.getElem?_eq_none (by simp; omega)]

/-- Words that give the same sequence give it also one after the other. -/
theorem letter_append (h : ∀ n, letter u n = letter v n) (n : ℕ) :
    letter (u ++ v) n = letter u n := by
  have hperiod : ∀ m q, letter u (m + (u.length + v.length) * q) = letter u m := by
    intro m q
    induction q with
    | zero => rfl
    | succ q ih =>
      have hstep : m + (u.length + v.length) * (q + 1) =
          m + (u.length + v.length) * q + v.length + u.length := by
        rw [Nat.mul_succ]
        omega
      rw [hstep, letter_add_length, h, letter_add_length, ← h, ih]
  by_cases hempty : u.length + v.length = 0
  · have hu : u = [] := List.length_eq_zero_iff.mp (by omega)
    rw [hu, List.nil_append, ← h n, hu]
  · have hlt : n % (u.length + v.length) < u.length + v.length :=
      Nat.mod_lt n (Nat.pos_of_ne_zero hempty)
    rw [letter, List.length_append, getElem?_append_of_letter (fun n _ => h n) hlt, ← hperiod _
      (n / (u.length + v.length)), Nat.mod_add_div]

/-- Words that commute have the same letters, however far they are read. -/
theorem letter_of_append_comm (hu : u ≠ []) (hv : v ≠ []) (h : u ++ v = v ++ u) (n : ℕ) :
    letter u n = letter v n := by
  -- the induction is on the length of both: the shorter word begins the longer one
  induction hlength : u.length + v.length using Nat.strong_induction_on generalizing u v n with
  | _ k ih =>
    have hshorter : ∀ {u v : List α}, u ≠ [] → v ≠ [] → u ++ v = v ++ u →
        u.length + v.length = k → u.length ≤ v.length → ∀ n, letter u n = letter v n := by
      intro u v hu hv h hk hle n
      have hprefix : u <+: v :=
        List.prefix_of_prefix_length_le (List.prefix_append u v) (h ▸ List.prefix_append v u) hle
      obtain ⟨t, rfl⟩ := hprefix
      by_cases ht : t = []
      · rw [ht, List.append_nil]
      · have hcomm : u ++ t = t ++ u := by
          rw [List.append_assoc] at h
          exact List.append_cancel_left h
        have hu' := List.length_pos_iff.mpr hu
        rw [List.length_append] at hk
        exact (letter_append (fun n => ih (u.length + t.length) (by omega) hu ht hcomm n rfl)
          n).symm
    rcases Nat.le_total u.length v.length with hle | hle
    · exact hshorter hu hv h hlength hle n
    · exact (hshorter hv hu h.symm (by omega) hle n).symm

end Cyclic
