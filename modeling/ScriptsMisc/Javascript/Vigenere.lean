import ScriptsMisc.Lib.Mealy
import ScriptsMisc.Lib.Text
import Mathlib.Tactic.IntervalCases

/-! # The `vigenere` cipher

`vigenere.js`, `password-encoding.user.js` and the Android bookmark carry one cipher: each
character outside a tag that the alphabet holds is shifted inside its half of the alphabet by
the next key character.
-/

namespace Vigenere

/-- Both halves end with the digits, so every digit stands in the alphabet twice. -/
def alphabet : Str :=
  "ABCDEFGHIJKLMNOPQRSTUVWXYZ0123456789".toList ++ "abcdefghijklmnopqrstuvwxyz0123456789".toList

/-- `alphabet . indexOf (c)`: the first index, `-1` when there is none. -/
def indexOf (c : Char) : ℤ :=
  match alphabet.idxOf? c with
  | some i => i
  | none => -1

/-- `alphabet . charAt (i)`: the empty string outside the alphabet. -/
def charAt (i : ℤ) : Str := if i < 0 then [] else (alphabet[i.toNat]?).toList

/-- The upper case of one character. A character that has no ASCII letter in its upper case
keeps its place as itself: neither it nor its upper case is in the alphabet. -/
def upperChar (c : Char) : Str :=
  if 'a' ≤ c ∧ c ≤ 'z' then [Char.ofNat (c.toNat - 32)] else
  match c.toNat with
  | 0xdf => ['S', 'S']
  | 0x131 => ['I']
  | 0x149 => [Char.ofNat 0x2bc, 'N']
  | 0x17f => ['S']
  | 0x1f0 => ['J', Char.ofNat 0x30c]
  | 0x1e96 => ['H', Char.ofNat 0x331]
  | 0x1e97 => ['T', Char.ofNat 0x308]
  | 0x1e98 => ['W', Char.ofNat 0x30a]
  | 0x1e99 => ['Y', Char.ofNat 0x30a]
  | 0x1e9a => ['A', Char.ofNat 0x2be]
  | 0xfb00 => ['F', 'F']
  | 0xfb01 => ['F', 'I']
  | 0xfb02 => ['F', 'L']
  | 0xfb03 => ['F', 'F', 'I']
  | 0xfb04 => ['F', 'F', 'L']
  | 0xfb05 => ['S', 'T']
  | 0xfb06 => ['S', 'T']
  | _ => [c]

/-- `key . toUpperCase ()`, as far as the alphabet can tell. -/
def toUpperCase (key : Str) : Str := key.flatMap upperChar

/-- The key loop: keep the characters of the alphabet. -/
def adjustedKey (key : Str) : Str :=
  (toUpperCase key).foldl
    (fun adjusted c =>
      let keyChar := indexOf c
      if keyChar < 0 then adjusted else adjusted ++ charAt keyChar) []

/-- The key the main loop uses; a missing key is the empty one, an empty one is `a`. -/
def normalizedKey (key : Option Str) : Str :=
  let key := adjustedKey (key.getD [])
  if key.length = 0 then ['a'] else key

/-- The variables the main loop carries. -/
structure LoopState where
  output : Str
  keyIndex : ℕ
  inTag : Bool
deriving DecidableEq, Repr

/-- `indexOf` of the key character in use. -/
def keyValue (key : Str) (keyIndex : ℕ) : ℤ :=
  match key[keyIndex]? with
  | some c => indexOf c
  -- past the end `charAt` is the empty string, which `indexOf` finds at 0
  | none => 0

/-- The index of the character that replaces `inputCharValue`. -/
def shiftValue (forward : Bool) (inputCharValue keyValue : ℤ) : ℤ :=
  let lowercase := decide (inputCharValue ≥ 36)
  -- the 36 keeps a difference positive: `%` takes the sign of its left side
  let shifted :=
    if forward then inputCharValue + keyValue + 36 else inputCharValue - keyValue + 36
  if lowercase then shifted.tmod 36 + 36 else shifted.tmod 36

/-- The tag flag after reading a character. -/
def nextInTag (inTag : Bool) (inputChar : Char) : Bool :=
  if inputChar = '<' then true else if inputChar = '>' then false else inTag

/-- One round of the main loop. -/
def loopBody (key : Str) (forward : Bool) (s : LoopState) (inputChar : Char) : LoopState :=
  let inTag := nextInTag s.inTag inputChar
  if inTag then
    { s with output := s.output ++ [inputChar], inTag := inTag }
  else
    let inputCharValue := indexOf inputChar
    -- a closing `>` comes here, and is not in the alphabet
    if inputCharValue < 0 then
      { s with output := s.output ++ [inputChar], inTag := inTag }
    else
      { output := s.output ++
          charAt (shiftValue forward inputCharValue (keyValue key s.keyIndex))
        keyIndex := (s.keyIndex + 1) % key.length
        inTag := inTag }

/-- `vigenere (input, key, forward)`. -/
def vigenere (input : Str) (key : Option Str) (forward : Bool) : Str :=
  (input.foldl (loopBody (normalizedKey key) forward) ⟨[], 0, false⟩).output

/-! ## The alphabet, index by index -/

/-- The character at an index of the alphabet. -/
def letterAt (i : ℕ) : Char := alphabet.getD i 'A'

/-- The alphabet has 72 characters. -/
theorem charAt_of_lt {i : ℕ} (hi : i < 72) : charAt i = [letterAt i] := by
  have hlen : alphabet.length = 72 := by decide +kernel
  have hi' : i < alphabet.length := by omega
  simp [charAt, letterAt, List.getD_eq_getElem?_getD, List.getElem?_eq_getElem hi']

/-- `indexOf` finds the first copy: a digit of the second half is found in the first. -/
theorem indexOf_letterAt {i : ℕ} (hi : i < 72) :
    indexOf (letterAt i) = if i < 62 then (i : ℤ) else (i : ℤ) - 36 := by
  have hall : ∀ i < 72, indexOf (letterAt i) = if i < 62 then (i : ℤ) else (i : ℤ) - 36 := by
    decide +kernel
  exact hall i hi

/-- A digit stands twice in the alphabet, any other character once. -/
theorem letterAt_eq_iff {i j : ℕ} (hi : i < 62) (hj : j < 72) :
    letterAt j = letterAt i ↔ (if j < 62 then j else j - 36) = i := by
  constructor
  · intro h
    have hidx := congrArg indexOf h
    rw [indexOf_letterAt hj, indexOf_letterAt (by omega), if_pos hi] at hidx
    split at hidx <;> rename_i hlt <;> simp only [hlt, if_true, if_false] <;> omega
  · rintro rfl
    split
    · rfl
    · have hall : ∀ j < 72, ¬ j < 62 → letterAt j = letterAt (j - 36) := by decide +kernel
      exact hall j hj (by assumption)

/-- A character is outside the alphabet or stands at its first index, which is below 62. -/
theorem indexOf_cases (c : Char) :
    (indexOf c = -1 ∧ c ∉ alphabet) ∨ ∃ i : ℕ, i < 62 ∧ c = letterAt i ∧ indexOf c = i := by
  by_cases hc : c ∈ alphabet
  · have hall : ∀ c ∈ alphabet, (indexOf c).toNat < 62 ∧ c = letterAt (indexOf c).toNat ∧
        indexOf c = (indexOf c).toNat := Text.forall_mem_of_all (by decide +kernel)
    exact Or.inr ⟨_, hall c hc⟩
  · refine Or.inl ⟨?_, hc⟩
    simp [indexOf, List.idxOf?_eq_none_iff.mpr hc]

/-- Only what is not in the alphabet has no index. -/
theorem indexOf_neg_iff (c : Char) : indexOf c < 0 ↔ c ∉ alphabet := by
  rcases indexOf_cases c with ⟨h, hc⟩ | ⟨i, hi, rfl, h⟩
  · exact ⟨fun _ => hc, fun _ => by omega⟩
  · refine ⟨fun hneg => by omega, fun hc => absurd ?_ hc⟩
    have hall : ∀ i < 62, letterAt i ∈ alphabet := by decide +kernel
    exact hall i hi

theorem letterAt_mem {i : ℕ} (hi : i < 72) : letterAt i ∈ alphabet := by
  have hall : ∀ i < 72, letterAt i ∈ alphabet := by decide +kernel
  exact hall i hi

/-! ## The key -/

/-- No upper case holds a lower-case ASCII letter. -/
theorem upperChar_not_lower (c : Char) : ∀ d ∈ upperChar c, ¬ ('a' ≤ d ∧ d ≤ 'z') := by
  by_cases hc : 'a' ≤ c ∧ c ≤ 'z'
  · have hlo : 97 ≤ c.toNat := hc.1
    have hhi : c.toNat ≤ 122 := hc.2
    have hall : ∀ n < 123, 97 ≤ n → ¬ ('a' ≤ Char.ofNat (n - 32)) := by decide +kernel
    intro d hd
    simp only [upperChar, hc, and_self, if_true, List.mem_singleton] at hd
    subst hd
    exact fun h => hall c.toNat (by omega) hlo h.1
  · simp only [upperChar, hc, if_false]
    split
    all_goals first
      | exact Text.forall_mem_of_all (by decide)
      | (intro d hd; rw [List.mem_singleton] at hd; subst hd; exact hc)

/-- Every key character the loop keeps stands in the upper-case half. -/
theorem adjustedKey_indexOf {key : Str} {c : Char} (hc : c ∈ adjustedKey key) :
    0 ≤ indexOf c ∧ indexOf c < 36 := by
  have hloop : ∀ (cs out : Str), (∀ d ∈ cs, ¬ ('a' ≤ d ∧ d ≤ 'z')) →
      (∀ d ∈ out, 0 ≤ indexOf d ∧ indexOf d < 36) →
      ∀ d ∈ cs.foldl (fun adjusted c =>
        let keyChar := indexOf c
        if keyChar < 0 then adjusted else adjusted ++ charAt keyChar) out,
        0 ≤ indexOf d ∧ indexOf d < 36 := by
    intro cs
    induction cs with
    | nil => exact fun out _ hout => hout
    | cons e cs ih =>
      intro out hcs hout
      refine ih _ (fun d hd => hcs d (List.mem_cons_of_mem _ hd)) ?_
      rcases indexOf_cases e with ⟨he, -⟩ | ⟨i, hi, rfl, he⟩
      · simpa [he] using hout
      · -- an index from 36 on is a lower-case letter
        have hlow : ∀ i < 62, 36 ≤ i → 'a' ≤ letterAt i ∧ letterAt i ≤ 'z' := by decide +kernel
        have hi36 : i < 36 := by
          by_contra h
          exact hcs _ (List.mem_cons_self ..) (hlow i hi (by omega))
        intro d hd
        have hnn : ¬ ((i : ℤ) < 0) := by omega
        simp only [he, hnn, if_false, charAt_of_lt (show i < 72 by omega), List.mem_append,
          List.mem_singleton] at hd
        rcases hd with hd | rfl
        · exact hout d hd
        · omega
  refine hloop _ [] (fun d hd => ?_) (by simp) c hc
  obtain ⟨e, -, hd⟩ := List.mem_flatMap.mp hd
  exact upperChar_not_lower e d hd

/-- Only the stand-in key `a` reaches index 36, which shifts by nothing. -/
theorem keyValue_bounds (key : Option Str) (n : ℕ) :
    0 ≤ keyValue (normalizedKey key) n ∧ keyValue (normalizedKey key) n ≤ 36 := by
  have hmem : ∀ c ∈ normalizedKey key, 0 ≤ indexOf c ∧ indexOf c ≤ 36 := by
    intro c hc
    simp only [normalizedKey] at hc
    split at hc
    · rw [List.mem_singleton] at hc
      subst hc
      decide
    · have := adjustedKey_indexOf hc
      omega
  simp only [keyValue]
  split
  · next c hc => exact hmem c (List.mem_of_getElem? hc)
  · omega

/-! ## One character -/

/-- The character that replaces `c` under the key value `v`. -/
def shiftChar (forward : Bool) (v : ℤ) (c : Char) : Char :=
  letterAt (shiftValue forward (indexOf c) v).toNat

/-- The distance a key value shifts by. -/
def shiftOf (v : ℤ) : ℕ := (v % 36).toNat

/-- Shift an index by `n` inside its half. -/
def shiftIndex (forward : Bool) (i n : ℕ) : ℕ :=
  if i < 36 then (i + if forward then n else 36 - n) % 36
  else (i - 36 + if forward then n else 36 - n) % 36 + 36

/-- The index at which `indexOf` finds the character at index `j`. -/
def firstIndex (j : ℕ) : ℕ := if j < 62 then j else j - 36

theorem shiftOf_lt (v : ℤ) : shiftOf v < 36 := by
  unfold shiftOf
  omega

/-- The first 62 characters differ. -/
theorem firstIndex_lt {j : ℕ} (hj : j < 72) : firstIndex j < 62 := by
  unfold firstIndex
  split <;> omega

/-- A shifted index stays in the alphabet. -/
theorem shiftIndex_lt (forward : Bool) (i n : ℕ) : shiftIndex forward i n < 72 := by
  unfold shiftIndex
  split <;> omega

/-- The first index leads to the same character. -/
theorem letterAt_firstIndex {j : ℕ} (hj : j < 72) : letterAt (firstIndex j) = letterAt j := by
  have hall : ∀ j < 72, letterAt (firstIndex j) = letterAt j := by decide +kernel
  exact hall j hj

theorem firstIndex_of_lt {j : ℕ} (hj : j < 62) : firstIndex j = j := if_pos hj

/-- A shift stays in its half. -/
theorem shiftIndex_lt_36_iff (forward : Bool) (i n : ℕ) : shiftIndex forward i n < 36 ↔ i < 36 := by
  unfold shiftIndex
  split <;> omega

/-- Inside a half the two directions undo each other. -/
theorem shiftIndex_shiftIndex (forward : Bool) {i n : ℕ} (hi : i < 72) (hn : n < 36) :
    shiftIndex (!forward) (shiftIndex forward i n) n = i := by
  have hhalf := shiftIndex_lt_36_iff forward i n
  by_cases hlow : i < 36
  · rw [shiftIndex, if_pos (hhalf.mpr hlow), shiftIndex, if_pos hlow]
    cases forward <;> simp only [Bool.not_true, Bool.not_false, if_true, if_false,
      Bool.false_eq_true] <;> omega
  · rw [shiftIndex, if_neg (fun h => hlow (hhalf.mp h)), shiftIndex, if_neg hlow]
    cases forward <;> simp only [Bool.not_true, Bool.not_false, if_true, if_false,
      Bool.false_eq_true] <;> omega

/-- `shiftValue` is the shift inside the half. -/
theorem shiftValue_eq (forward : Bool) {i : ℕ} (hi : i < 62) {v : ℤ} (hv0 : 0 ≤ v)
    (hv : v ≤ 36) : shiftValue forward i v = (shiftIndex forward i (shiftOf v) : ℤ) := by
  have htmod : ∀ n : ℤ, 0 ≤ n → n.tmod 36 = n % 36 := fun n hn => Int.tmod_eq_emod_of_nonneg hn
  cases forward
  all_goals
    simp only [shiftValue, shiftIndex, shiftOf, ge_iff_le, decide_eq_true_eq, if_true, if_false,
      Bool.false_eq_true]
    rw [htmod _ (by omega)]
    by_cases hlow : i < 36
    · rw [if_neg (by omega), if_pos hlow]
      omega
    · rw [if_pos (by omega), if_neg hlow]
      omega

/-- A character of the alphabet is shifted by its first index. -/
theorem shiftChar_letterAt (forward : Bool) {j : ℕ} (hj : j < 72) {v : ℤ} (hv0 : 0 ≤ v)
    (hv : v ≤ 36) :
    shiftChar forward v (letterAt j) =
      letterAt (shiftIndex forward (firstIndex j) (shiftOf v)) := by
  have hidx : indexOf (letterAt j) = (firstIndex j : ℤ) := by
    rw [indexOf_letterAt hj, firstIndex]
    split <;> omega
  rw [shiftChar, hidx, shiftValue_eq forward (firstIndex_lt hj) hv0 hv, Int.toNat_natCast]

/-- The text appended for an encodable character is one character of the alphabet. -/
theorem charAt_shiftValue (forward : Bool) {c : Char} (hc : c ∈ alphabet) {v : ℤ}
    (hv0 : 0 ≤ v) (hv : v ≤ 36) :
    charAt (shiftValue forward (indexOf c) v) = [shiftChar forward v c] ∧
      shiftChar forward v c ∈ alphabet := by
  rcases indexOf_cases c with ⟨-, hnot⟩ | ⟨i, hi, rfl, hidx⟩
  · exact absurd hc hnot
  · have hlt := shiftIndex_lt forward i (shiftOf v)
    rw [shiftChar, hidx, shiftValue_eq forward hi hv0 hv, Int.toNat_natCast]
    exact ⟨charAt_of_lt hlt, letterAt_mem hlt⟩

/-- `c` is a lower-case letter that a shift by `n` carries onto a digit: the digit is then
found in the upper-case half. -/
def LosesCase (c : Char) (n : ℕ) : Prop :=
  c.isLower = true ∧ 26 ≤ (c.toNat - 'a'.toNat + n) % 36

instance (c : Char) (n : ℕ) : Decidable (LosesCase c n) := by
  unfold LosesCase; infer_instance

/-- The case is lost when the shifted index falls on the second copy of the digits. -/
theorem losesCase_letterAt_iff {i : ℕ} (hi : i < 62) (n : ℕ) :
    LosesCase (letterAt i) n ↔ 62 ≤ shiftIndex true i n := by
  have hall : ∀ i < 62, ((letterAt i).isLower = true ↔ 36 ≤ i) ∧
      (36 ≤ i → (letterAt i).toNat - 'a'.toNat = i - 36) := by decide +kernel
  obtain ⟨hlow, hpos⟩ := hall i hi
  rw [LosesCase, hlow, shiftIndex]
  by_cases h36 : 36 ≤ i
  · rw [hpos h36, if_neg (by omega), if_pos rfl]
    omega
  · rw [if_pos (by omega)]
    omega

/-- Decoding one character undoes encoding it unless its case is lost. -/
theorem shiftChar_shiftChar_iff {c : Char} (hc : c ∈ alphabet) {v : ℤ} (hv0 : 0 ≤ v)
    (hv : v ≤ 36) :
    shiftChar false v (shiftChar true v c) = c ↔ ¬ LosesCase c (shiftOf v) := by
  rcases indexOf_cases c with ⟨-, hnot⟩ | ⟨i, hi, rfl, -⟩
  · exact absurd hc hnot
  have henc := shiftIndex_lt true i (shiftOf v)
  rw [shiftChar_letterAt true (by omega) hv0 hv, firstIndex_of_lt hi,
    shiftChar_letterAt false henc hv0 hv, letterAt_eq_iff hi (shiftIndex_lt ..), ← firstIndex,
    losesCase_letterAt_iff hi]
  by_cases hcopy : shiftIndex true i (shiftOf v) < 62
  · have hback : shiftIndex false (shiftIndex true i (shiftOf v)) (shiftOf v) = i :=
      shiftIndex_shiftIndex true (by omega) (shiftOf_lt v)
    rw [firstIndex_of_lt hcopy, hback, firstIndex_of_lt hi]
    omega
  · -- the digit is decoded in the upper-case half, the letter came from the other
    have hupper : firstIndex (shiftIndex true i (shiftOf v)) < 36 := by
      rw [firstIndex, if_neg hcopy]
      omega
    have hdec := (shiftIndex_lt_36_iff false _ (shiftOf v)).mpr hupper
    have hi36 := shiftIndex_lt_36_iff true i (shiftOf v)
    rw [firstIndex_of_lt (by omega)]
    omega

/-- Encoding what decoding made of an encoded character gives the encoded character again,
so a lost case stays unseen. -/
theorem shiftChar_decode_encode {c : Char} (hc : c ∈ alphabet) {v : ℤ} (hv0 : 0 ≤ v)
    (hv : v ≤ 36) :
    shiftChar true v (shiftChar false v (shiftChar true v c)) = shiftChar true v c := by
  by_cases hcase : LosesCase c (shiftOf v)
  · rcases indexOf_cases c with ⟨-, hnot⟩ | ⟨i, hi, rfl, -⟩
    · exact absurd hc hnot
    have hcopy := (losesCase_letterAt_iff hi _).mp hcase
    have henc := shiftIndex_lt true i (shiftOf v)
    have hupper : firstIndex (shiftIndex true i (shiftOf v)) < 36 := by
      rw [firstIndex, if_neg (by omega)]
      omega
    have hdec := (shiftIndex_lt_36_iff false _ (shiftOf v)).mpr hupper
    rw [shiftChar_letterAt true (by omega) hv0 hv, firstIndex_of_lt hi,
      shiftChar_letterAt false henc hv0 hv, shiftChar_letterAt true (shiftIndex_lt ..) hv0 hv,
      firstIndex_of_lt (show shiftIndex false _ _ < 62 by omega)]
    have hback := shiftIndex_shiftIndex false (i := firstIndex (shiftIndex true i (shiftOf v)))
      (by omega) (shiftOf_lt v)
    rw [Bool.not_false] at hback
    rw [hback, letterAt_firstIndex henc]
  · rw [(shiftChar_shiftChar_iff hc hv0 hv).mpr hcase]

end Vigenere
