import ScriptsMisc.Javascript.RoundTrip

/-! # Markup and punctuation

Tags and punctuation pass through `vigenere`: the cipher acts on the encodable characters alone,
as if the rest of the text were not there.
-/

namespace Vigenere

/-- The characters of `x` at its encodable positions, in order. -/
def encodablePart (x : Str) : Str :=
  (x.zipIdx.filter fun p => Encodable x p.2).map Prod.fst

/-- The encodable characters of a text that is entered with the tag flag `inTag`. -/
def partFrom (inTag : Bool) : Str → Str
  | [] => []
  | c :: x =>
    if nextInTag inTag c = false ∧ c ∈ alphabet then c :: partFrom (nextInTag inTag c) x
    else partFrom (nextInTag inTag c) x

/-! ## The encodable part read with the flag -/

/-- After `pre`, the encodable characters of the rest are those the flag finds. -/
theorem filter_zipIdx_eq_partFrom (key : Str) (forward : Bool) (pre rest : Str) :
    ((rest.zipIdx pre.length).filter fun p => Encodable (pre ++ rest) p.2).map Prod.fst =
      partFrom (Mealy.final (cipherStep key forward) (0, false) pre).2 rest := by
  induction rest generalizing pre with
  | nil => rfl
  | cons c rest ih =>
    have hget : (pre ++ c :: rest)[pre.length]? = some c := by simp
    have henc := encodable_iff key forward (pre ++ c :: rest) pre.length c hget
    rw [List.take_left] at henc
    have hrest := ih (pre ++ [c])
    rw [List.length_append, List.length_singleton, List.append_assoc, List.singleton_append,
      Mealy.final_append, Mealy.final_cons, Mealy.final_nil, cipherStep_inTag] at hrest
    rw [List.zipIdx_cons, partFrom]
    by_cases hE : Encodable (pre ++ c :: rest) pre.length
    · rw [List.filter_cons_of_pos (by simpa using hE), if_pos (henc.mpr hE), List.map_cons,
        hrest]
    · rw [List.filter_cons_of_neg (by simpa using hE), if_neg (fun h => hE (henc.mp h)), hrest]

/-- The text is read from outside of a tag. -/
theorem encodablePart_eq_partFrom (x : Str) : encodablePart x = partFrom false x :=
  filter_zipIdx_eq_partFrom [] true [] x

/-! ## The cipher on the encodable part -/

/-- The key index moves on encodable characters alone, so they meet the same key characters
when the others are taken out. -/
theorem partFrom_run (key : Option Str) (forward : Bool) (s : ℕ × Bool) (x : Str) :
    partFrom s.2 (Mealy.run (cipherStep (normalizedKey key) forward) s x) =
      Mealy.run (cipherStep (normalizedKey key) forward) (s.1, false) (partFrom s.2 x) := by
  induction x generalizing s with
  | nil => rfl
  | cons c x ih =>
    rw [Mealy.run_cons, partFrom, partFrom]
    by_cases hE : nextInTag s.2 c = false ∧ c ∈ alphabet
    · have hout := cipherStep_encodable key forward hE
      have halone : nextInTag (s.1, false).2 c = false ∧ c ∈ alphabet :=
        ⟨nextInTag_of_mem_alphabet hE.2 false, hE.2⟩
      rw [if_pos hout, if_pos hE, Mealy.run_cons, hout.1, hE.1]
      rw [cipherStep_pos hE, cipherStep_pos halone]
      exact congrArg _ (ih ((s.1 + 1) % (normalizedKey key).length, false))
    · rw [cipherStep_neg hE, if_neg hE, if_neg hE]
      exact ih (s.1, nextInTag s.2 c)

/-- A position of the output is encodable exactly when it was in the input. -/
theorem encodable_vigenere_iff (x : Str) (key : Option Str) (forward : Bool) (i : ℕ) :
    Encodable (vigenere x key forward) i ↔ Encodable x i := by
  cases hi : x[i]? with
  | none =>
    have hout : (vigenere x key forward)[i]? = none := by
      rw [List.getElem?_eq_none_iff, length_vigenere]
      exact List.getElem?_eq_none_iff.mp hi
    unfold Encodable
    rw [hi, hout]
    simp
  | some c =>
    have hlock := cipherStep_lockStep key forward forward
    have hx := encodable_iff (normalizedKey key) forward x i c hi
    -- the output up to `i` leads to the state the input up to `i` leads to
    have hy := encodable_iff (normalizedKey key) forward (vigenere x key forward) i
      (cipherStep (normalizedKey key) forward (Mealy.final (cipherStep (normalizedKey key) forward)
        (0, false) (x.take i)) c).2
      (by rw [vigenere_eq_run, Mealy.getElem?_run, hi, Option.map_some])
    rw [vigenere_eq_run, Mealy.take_run, hlock.final_run, ← vigenere_eq_run] at hy
    rw [← hx, ← hy]
    by_cases hE : nextInTag (Mealy.final (cipherStep (normalizedKey key) forward) (0, false)
        (x.take i)).2 c = false ∧ c ∈ alphabet
    · exact iff_of_true (cipherStep_encodable key forward hE) hE
    · rw [cipherStep_neg hE]

/-- Positions that are not encodable are copied. -/
theorem getElem?_vigenere_of_not_encodable {x : Str} {i : ℕ} (hi : ¬ Encodable x i)
    (key : Option Str) (forward : Bool) : (vigenere x key forward)[i]? = x[i]? := by
  rw [vigenere_eq_run, Mealy.getElem?_run]
  cases hget : x[i]? with
  | none => rfl
  | some c =>
    have hstep := fun h => hi ((encodable_iff (normalizedKey key) forward x i c hget).mp h)
    rw [Option.map_some, cipherStep_neg hstep]

/-- Outside the encodable positions the text is copied, the encodable positions stay what they
are, and on them the cipher does what it does on their characters alone. -/
theorem vigenere_transparent (x : Str) (key : Option Str) (forward : Bool) :
    (vigenere x key forward).length = x.length ∧
      (∀ i, ¬ Encodable x i → (vigenere x key forward)[i]? = x[i]?) ∧
      (∀ i, Encodable (vigenere x key forward) i ↔ Encodable x i) ∧
      encodablePart (vigenere x key forward) = vigenere (encodablePart x) key forward := by
  refine ⟨length_vigenere x key forward, ?_, encodable_vigenere_iff x key forward, ?_⟩
  · intro i hi
    exact getElem?_vigenere_of_not_encodable hi key forward
  · rw [encodablePart_eq_partFrom, encodablePart_eq_partFrom, vigenere_eq_run, vigenere_eq_run]
    exact partFrom_run key forward (0, false) x

example : encodablePart "a<b>c!".toList = "ac".toList := by decide

end Vigenere
