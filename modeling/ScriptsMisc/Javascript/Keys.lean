import ScriptsMisc.Javascript.RoundTrip
import ScriptsMisc.Lib.Cyclic

/-! # Keys that encrypt alike

Of a key the cipher uses the distances it shifts by, one after the other and again from the start. A
text uses as many of them as it has encodable positions.
-/

namespace Vigenere

/-- The distances a key shifts by. -/
def keyShifts (key : Option Str) : List ℕ := (normalizedKey key).map fun c => shiftOf (indexOf c)

/-- The normalised key is never empty. -/
theorem normalizedKey_ne_nil (key : Option Str) : normalizedKey key ≠ [] := by
  unfold normalizedKey
  dsimp only
  split
  · exact List.cons_ne_nil _ _
  · next h => exact fun hnil => h (List.length_eq_zero_iff.mpr hnil)

theorem keyShifts_ne_nil (key : Option Str) : keyShifts key ≠ [] := by
  simpa [keyShifts] using normalizedKey_ne_nil key

/-- The distance by which the `n`-th encodable position is shifted. -/
theorem letter_keyShifts (key : Option Str) (n : ℕ) :
    Cyclic.letter (keyShifts key) n =
      some (shiftOf (keyValue (normalizedKey key) (n % (normalizedKey key).length))) := by
  have hlt : n % (normalizedKey key).length < (normalizedKey key).length :=
    Nat.mod_lt n (List.length_pos_iff.mpr (normalizedKey_ne_nil key))
  rw [Cyclic.letter, keyShifts, List.length_map, List.getElem?_map, keyValue,
    List.getElem?_eq_getElem hlt]
  rfl

/-! ## One character -/

/-- A half of the alphabet holds no character twice. -/
theorem letterAt_inj {i j : ℕ} (hi : i < 72) (hj : j < 72) (hhalf : i < 36 ↔ j < 36)
    (h : letterAt i = letterAt j) : i = j := by
  have hidx := congrArg indexOf h
  rw [indexOf_letterAt hi, indexOf_letterAt hj] at hidx
  split at hidx <;> split at hidx <;> omega

/-- Key values that shift a character alike shift by the same distance. -/
theorem shiftChar_eq_iff (forward : Bool) {c : Char} (hc : c ∈ alphabet) {v v' : ℤ}
    (hv0 : 0 ≤ v) (hv : v ≤ 36) (hv0' : 0 ≤ v') (hv' : v' ≤ 36) :
    shiftChar forward v c = shiftChar forward v' c ↔ shiftOf v = shiftOf v' := by
  rcases indexOf_cases c with ⟨-, hnot⟩ | ⟨i, hi, rfl, -⟩
  · exact absurd hc hnot
  have hn := shiftOf_lt v
  have hn' := shiftOf_lt v'
  rw [shiftChar_letterAt forward (by omega) hv0 hv, shiftChar_letterAt forward (by omega) hv0' hv',
    firstIndex_of_lt hi]
  refine ⟨fun h => ?_, fun h => by rw [h]⟩
  have hindex := letterAt_inj (shiftIndex_lt ..) (shiftIndex_lt ..)
    ((shiftIndex_lt_36_iff forward i _).trans (shiftIndex_lt_36_iff forward i _).symm) h
  unfold shiftIndex at hindex
  split at hindex
  · cases forward <;> simp only [if_true, if_false, Bool.false_eq_true] at hindex <;> omega
  · cases forward <;> simp only [if_true, if_false, Bool.false_eq_true] at hindex <;> omega

/-! ## A text -/

/-- The encodable positions are numbered one after the other. -/
theorem forall_encodableBefore_iff (x : Str) (P : ℕ → Prop) (m : ℕ) :
    (∀ i < m, Encodable x i → P (encodableBefore x i)) ↔ ∀ n < encodableBefore x m, P n := by
  induction m with
  | zero => simp [encodableBefore]
  | succ m ih =>
    have hcount : encodableBefore x (m + 1) =
        encodableBefore x m + if Encodable x m then 1 else 0 := by
      rw [encodableBefore, List.range_succ, List.countP_append, ← encodableBefore,
        List.countP_singleton]
      simp
    rw [Nat.forall_lt_succ_right, ih, hcount]
    split
    · next hE => rw [Nat.forall_lt_succ_right]; simp [hE]
    · next hE => simp [hE]

/-- What is written at an encodable position. -/
theorem cipherStep_final_pos (key : Option Str) (forward : Bool) {x : Str} {i : ℕ} {c : Char}
    (hi : x[i]? = some c) (hE : Encodable x i) :
    (cipherStep (normalizedKey key) forward
        (Mealy.final (cipherStep (normalizedKey key) forward) (0, false) (x.take i)) c).2 =
      shiftChar forward (keyValue (normalizedKey key)
        (encodableBefore x i % (normalizedKey key).length)) c := by
  have hlen : i ≤ x.length := Nat.le_of_lt (List.getElem?_eq_some_iff.mp hi).1
  rw [cipherStep_pos ((encodable_iff _ _ x i c hi).mpr hE), final_keyIndex key forward x i hlen]

/-- Two keys encrypt a text alike when they shift its encodable positions alike. -/
theorem vigenere_eq_iff (x : Str) (k k' : Option Str) (forward : Bool) :
    vigenere x k forward = vigenere x k' forward ↔
      ∀ n < encodableBefore x x.length,
        Cyclic.letter (keyShifts k) n = Cyclic.letter (keyShifts k') n := by
  have hletters : vigenere x k forward = vigenere x k' forward ↔
      ∀ i, (vigenere x k forward)[i]? = (vigenere x k' forward)[i]? :=
    ⟨fun h i => by rw [h], List.ext_getElem?⟩
  rw [← forall_encodableBefore_iff, hletters]
  refine forall_congr' fun i => ?_
  rw [vigenere_eq_run, vigenere_eq_run, Mealy.getElem?_run, Mealy.getElem?_run]
  cases hi : x[i]? with
  | none =>
    have hlen : ¬ i < x.length := Nat.not_lt.mpr (List.getElem?_eq_none_iff.mp hi)
    exact iff_of_true rfl fun h => absurd h hlen
  | some c =>
    have hlen : i < x.length := (List.getElem?_eq_some_iff.mp hi).1
    rw [Option.map_some, Option.map_some, Option.some.injEq]
    by_cases hE : Encodable x i
    · obtain ⟨hv0, hv⟩ := keyValue_bounds k (encodableBefore x i % (normalizedKey k).length)
      obtain ⟨hv0', hv'⟩ := keyValue_bounds k' (encodableBefore x i % (normalizedKey k').length)
      have hc : c ∈ alphabet := ((encodable_iff (normalizedKey k) forward x i c hi).mpr hE).2
      rw [cipherStep_final_pos k forward hi hE, cipherStep_final_pos k' forward hi hE,
        shiftChar_eq_iff forward hc hv0 hv hv0' hv', letter_keyShifts, letter_keyShifts,
        Option.some.injEq]
      exact ⟨fun h _ _ => h, fun h => h hlen hE⟩
    · -- elsewhere both write the character itself
      rw [cipherStep_neg fun h => hE ((encodable_iff _ _ x i c hi).mp h),
        cipherStep_neg fun h => hE ((encodable_iff _ _ x i c hi).mp h)]
      exact iff_of_true rfl fun _ h => absurd h hE

/-! ## All texts -/

/-- A text of letters `A` is encodable throughout. -/
theorem encodableBefore_replicate (m : ℕ) :
    encodableBefore (List.replicate m 'A') (List.replicate m 'A').length = m := by
  have hE : ∀ i < m, Encodable (List.replicate m 'A') i := by
    intro i hi
    refine ⟨?_, 'A', by decide, by simp [hi]⟩
    rintro ⟨j, hj, hopen, -⟩
    rw [List.getElem?_replicate_of_lt (by omega)] at hopen
    exact absurd hopen (by decide)
  rw [encodableBefore, List.length_replicate]
  have hall : (List.range m).countP (fun j => Encodable (List.replicate m 'A') j) =
      (List.range m).length :=
    List.countP_eq_length.mpr fun i hi => decide_eq_true (hE i (List.mem_range.mp hi))
  rw [hall, List.length_range]

/-- A text tells two keys apart by the distances it uses. All texts together tell them apart unless
the distances commute, and then no text does; one text with as many encodable positions as the keys
have letters tells as much as all. -/
theorem vigenere_keys (k k' : Option Str) (forward : Bool) :
    (∀ x, vigenere x k forward = vigenere x k' forward ↔
      ∀ n < encodableBefore x x.length,
        Cyclic.letter (keyShifts k) n = Cyclic.letter (keyShifts k') n) ∧
    ((∀ x, vigenere x k forward = vigenere x k' forward) ↔
      keyShifts k ++ keyShifts k' = keyShifts k' ++ keyShifts k) ∧
    ∀ x, (keyShifts k).length + (keyShifts k').length ≤ encodableBefore x x.length →
      (vigenere x k forward = vigenere x k' forward ↔
        ∀ y, vigenere y k forward = vigenere y k' forward) := by
  have hone : ∀ x, (keyShifts k).length + (keyShifts k').length ≤ encodableBefore x x.length →
      vigenere x k forward = vigenere x k' forward →
      keyShifts k ++ keyShifts k' = keyShifts k' ++ keyShifts k := fun x hlong h =>
    Cyclic.append_comm_of_letter fun n hn =>
      (vigenere_eq_iff x k k' forward).mp h n (Nat.lt_of_lt_of_le hn hlong)
  have hall : keyShifts k ++ keyShifts k' = keyShifts k' ++ keyShifts k →
      ∀ x, vigenere x k forward = vigenere x k' forward := fun h x =>
    (vigenere_eq_iff x k k' forward).mpr fun n _ =>
      Cyclic.letter_of_append_comm (keyShifts_ne_nil k) (keyShifts_ne_nil k') h n
  refine ⟨fun x => vigenere_eq_iff x k k' forward, ⟨fun h => ?_, hall⟩,
    fun x hlong => ⟨fun h => hall (hone x hlong h), fun h => h x⟩⟩
  exact hone (List.replicate ((keyShifts k).length + (keyShifts k').length) 'A')
    (encodableBefore_replicate _).ge (h _)

/-- The six letters of `secret` tell that a doubled key encrypts like the key itself. -/
theorem vigenere_keys_doubled :
    vigenere "secret".toList (some ['a', 'b']) true =
        vigenere "secret".toList (some "ab.ab".toList) true ∧
      vigenere "Another".toList (some ['a', 'b']) true =
        vigenere "Another".toList (some "ab.ab".toList) true := by
  have hsame : vigenere "secret".toList (some ['a', 'b']) true =
      vigenere "secret".toList (some "ab.ab".toList) true := by decide +kernel
  have hlong := (vigenere_keys (some ['a', 'b']) (some "ab.ab".toList) true).2.2 "secret".toList
    (by decide +kernel)
  exact ⟨hsame, hlong.mp hsame "Another".toList⟩

end Vigenere
