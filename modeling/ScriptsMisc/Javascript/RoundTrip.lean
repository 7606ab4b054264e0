import ScriptsMisc.Javascript.Vigenere
import Mathlib.Data.List.TakeDrop

/-! # Decoding what was encoded

The main loop is a transducer over the tag flag and the key index. Encoding and decoding move
in lock step, so whether a text survives is decided character by character.
-/

namespace Vigenere

/-! ## The main loop as a transducer -/

/-- One round of the main loop on the key index and the tag flag. -/
def cipherStep (key : Str) (forward : Bool) (s : ℕ × Bool) (c : Char) : (ℕ × Bool) × Char :=
  let inTag := nextInTag s.2 c
  if inTag = false ∧ c ∈ alphabet then
    (((s.1 + 1) % key.length, inTag), shiftChar forward (keyValue key s.1) c)
  else ((s.1, inTag), c)

/-- A character of the alphabet outside of a tag is shifted. -/
theorem cipherStep_pos {key : Str} {forward : Bool} {s : ℕ × Bool} {c : Char}
    (h : nextInTag s.2 c = false ∧ c ∈ alphabet) :
    cipherStep key forward s c =
      (((s.1 + 1) % key.length, false), shiftChar forward (keyValue key s.1) c) := by
  simp only [cipherStep, h.1, h.2, and_self, if_true]

/-- Any other character is kept, and takes no letter of the key. -/
theorem cipherStep_neg {key : Str} {forward : Bool} {s : ℕ × Bool} {c : Char}
    (h : ¬ (nextInTag s.2 c = false ∧ c ∈ alphabet)) :
    cipherStep key forward s c = ((s.1, nextInTag s.2 c), c) := by
  simp only [cipherStep, if_neg h]

/-- The flag moves alike in both branches. -/
theorem cipherStep_inTag (key : Str) (forward : Bool) (s : ℕ × Bool) (c : Char) :
    (cipherStep key forward s c).1.2 = nextInTag s.2 c := by
  unfold cipherStep
  dsimp only
  split <;> rfl

/-- The body of the loop is a step of the cipher with its output appended. -/
theorem loopBody_eq_cipherStep (key : Option Str) (forward : Bool) (output : Str) (s : ℕ × Bool)
    (c : Char) :
    loopBody (normalizedKey key) forward ⟨output, s.1, s.2⟩ c =
      ⟨output ++ [(cipherStep (normalizedKey key) forward s c).2],
        (cipherStep (normalizedKey key) forward s c).1.1,
        (cipherStep (normalizedKey key) forward s c).1.2⟩ := by
  obtain ⟨hv0, hv⟩ := keyValue_bounds key s.1
  simp only [loopBody, cipherStep, indexOf_neg_iff]
  cases htag : nextInTag s.2 c with
  | true => simp
  | false =>
    by_cases hc : c ∈ alphabet
    · simp [hc, (charAt_shiftValue forward hc hv0 hv).1]
    · simp [hc]

/-- `vigenere` writes one character for each character of its input. -/
theorem vigenere_eq_run (input : Str) (key : Option Str) (forward : Bool) :
    vigenere input key forward =
      Mealy.run (cipherStep (normalizedKey key) forward) (0, false) input := by
  have hloop : ∀ (cs output : Str) (s : ℕ × Bool),
      (cs.foldl (loopBody (normalizedKey key) forward) ⟨output, s.1, s.2⟩).output =
        output ++ Mealy.run (cipherStep (normalizedKey key) forward) s cs := by
    intro cs
    induction cs with
    | nil => simp
    | cons c cs ih =>
      intro output s
      rw [List.foldl_cons, loopBody_eq_cipherStep, ih, Mealy.run_cons, List.append_assoc,
        List.singleton_append]
  exact hloop input [] (0, false)

/-- No character is lost or added. -/
@[simp] theorem length_vigenere (input : Str) (key : Option Str) (forward : Bool) :
    (vigenere input key forward).length = input.length := by
  rw [vigenere_eq_run, Mealy.length_run]

/-- No character of the alphabet is a bracket. -/
theorem nextInTag_of_mem_alphabet {c : Char} (hc : c ∈ alphabet) (inTag : Bool) :
    nextInTag inTag c = inTag := by
  have hne : ∀ d ∈ alphabet, d ≠ '<' ∧ d ≠ '>' :=
    Text.forall_mem_of_all (by decide)
  rw [nextInTag, if_neg (hne c hc).1, if_neg (hne c hc).2]

/-- A written character opens, closes and counts exactly as the one it replaces. -/
theorem cipherStep_lockStep (key : Option Str) (forward forward' : Bool) :
    Mealy.LockStep (cipherStep (normalizedKey key) forward)
      (cipherStep (normalizedKey key) forward') := by
  intro s c
  obtain ⟨hv0, hv⟩ := keyValue_bounds key s.1
  by_cases hc : nextInTag s.2 c = false ∧ c ∈ alphabet
  · obtain ⟨-, hmem⟩ := charAt_shiftValue forward hc.2 hv0 hv
    rw [cipherStep_pos hc, cipherStep_pos ⟨?_, hmem⟩]
    -- neither the character read nor the one written is a bracket
    rw [nextInTag_of_mem_alphabet hmem, ← nextInTag_of_mem_alphabet hc.2 s.2]
    exact hc.1
  · rw [cipherStep_neg hc, cipherStep_neg hc]

/-- A character written for an encodable one is encodable again. -/
theorem cipherStep_encodable (key : Option Str) (forward : Bool) {s : ℕ × Bool} {c : Char}
    (h : nextInTag s.2 c = false ∧ c ∈ alphabet) :
    nextInTag s.2 (cipherStep (normalizedKey key) forward s c).2 = false ∧
      (cipherStep (normalizedKey key) forward s c).2 ∈ alphabet := by
  obtain ⟨hv0, hv⟩ := keyValue_bounds key s.1
  have hflag := congrArg Prod.snd (cipherStep_lockStep key forward forward s c)
  rw [cipherStep_inTag, cipherStep_inTag, h.1] at hflag
  refine ⟨hflag, ?_⟩
  rw [cipherStep_pos h]
  exact (charAt_shiftValue forward h.2 hv0 hv).2

/-- A character is written in the alphabet when it was read in the alphabet. -/
theorem cipherStep_mem_iff (key : Option Str) (forward : Bool) (s : ℕ × Bool) (c : Char) :
    (cipherStep (normalizedKey key) forward s c).2 ∈ alphabet ↔ c ∈ alphabet := by
  by_cases hE : nextInTag s.2 c = false ∧ c ∈ alphabet
  · exact iff_of_true (cipherStep_encodable key forward hE).2 hE.2
  · rw [cipherStep_neg hE]

/-- Decoding the character written for an encodable one. -/
theorem comp_cipherStep_pos (key : Option Str) {s : ℕ × Bool} {c : Char}
    (h : nextInTag s.2 c = false ∧ c ∈ alphabet) :
    (Mealy.comp (cipherStep (normalizedKey key) true) (cipherStep (normalizedKey key) false)
        s c).2 =
      shiftChar false (keyValue (normalizedKey key) s.1)
        (shiftChar true (keyValue (normalizedKey key) s.1) c) := by
  have henc := cipherStep_encodable key true h
  rw [Mealy.comp, cipherStep_pos henc, cipherStep_pos h]

/-! ## Encodable positions -/

/-- Position `i` is inside a tag: since the last `<` there was no `>`. -/
def InTag (x : Str) (i : ℕ) : Prop :=
  ∃ j ≤ i, x[j]? = some '<' ∧ ∀ m ≤ i, j < m → x[m]? ≠ some '>'

instance (x : Str) (i : ℕ) : Decidable (InTag x i) := by
  unfold InTag; infer_instance

/-- Position `i` is outside a tag and holds a character of the alphabet. -/
def Encodable (x : Str) (i : ℕ) : Prop := ¬ InTag x i ∧ ∃ c ∈ alphabet, x[i]? = some c

instance (x : Str) (i : ℕ) : Decidable (Encodable x i) :=
  haveI : Decidable (∃ c ∈ alphabet, x[i]? = some c) := List.decidableBEx _ alphabet
  inferInstanceAs (Decidable (_ ∧ _))

/-- Number of encodable positions before `i`. -/
def encodableBefore (x : Str) (i : ℕ) : ℕ := (List.range i).countP (fun j => Encodable x j)

/-- The distance by which the `n`-th encodable position is shifted. -/
def keyShift (k : Str) (n : ℕ) : ℕ :=
  shiftOf (keyValue (normalizedKey (some k)) (n % (normalizedKey (some k)).length))

/-- No lower-case letter of `x` outside a tag is shifted onto a digit. -/
def KeepsCase (k x : Str) : Prop :=
  ∀ i c, x[i]? = some c → Encodable x i → ¬ LosesCase c (keyShift k (encodableBefore x i))

/-- A prefix grows by the next character. -/
theorem take_succ_of_getElem? {x : Str} {i : ℕ} {c : Char} (hi : x[i]? = some c) :
    x.take (i + 1) = x.take i ++ [c] := by
  rw [List.take_add_one, hi, Option.toList_some]

/-! A tag opens at `<`, is over at `>`, and goes on at any other character. -/

/-- The bracket that opens a tag is in it. -/
theorem inTag_of_open {x : Str} {i : ℕ} (hi : x[i]? = some '<') : InTag x i :=
  ⟨i, le_rfl, hi, fun _ hm hlt => absurd hlt (Nat.not_lt.mpr hm)⟩

/-- The one that closes it is not. -/
theorem not_inTag_of_close {x : Str} {i : ℕ} (hi : x[i]? = some '>') : ¬ InTag x i := by
  rintro ⟨j, hj, hopen, hno⟩
  rcases Nat.eq_or_lt_of_le hj with rfl | hlt
  · rw [hi, Option.some.injEq] at hopen
    exact absurd hopen (by decide)
  · exact hno i le_rfl hlt hi

/-- The first character is in no tag unless it opens one. -/
theorem not_inTag_zero {x : Str} {c : Char} (hi : x[0]? = some c) (hopen : c ≠ '<') :
    ¬ InTag x 0 := by
  rintro ⟨j, hj, hjopen, -⟩
  rw [Nat.le_zero.mp hj, hi, Option.some.injEq] at hjopen
  exact hopen hjopen

/-- Between brackets being in a tag does not change. -/
theorem inTag_succ_iff {x : Str} {i : ℕ} {c : Char} (hi : x[i + 1]? = some c) (hopen : c ≠ '<')
    (hclose : c ≠ '>') : InTag x (i + 1) ↔ InTag x i := by
  constructor
  · rintro ⟨j, hj, hjopen, hno⟩
    rcases Nat.eq_or_lt_of_le hj with rfl | hlt
    · rw [hi, Option.some.injEq] at hjopen
      exact absurd hjopen hopen
    · exact ⟨j, Nat.lt_succ_iff.mp hlt, hjopen, fun m hm => hno m (Nat.le_succ_of_le hm)⟩
  · rintro ⟨j, hj, hjopen, hno⟩
    refine ⟨j, Nat.le_succ_of_le hj, hjopen, fun m hm hlt => ?_⟩
    rcases Nat.eq_or_lt_of_le hm with rfl | hmi
    · rw [hi, ne_eq, Option.some.injEq]
      exact hclose
    · exact hno m (Nat.lt_succ_iff.mp hmi) hlt

/-- Brackets set the flag, so only before another character does the flag matter. -/
theorem nextInTag_iff {x : Str} {i : ℕ} {c : Char} {inTag : Bool} (hi : x[i]? = some c)
    (hkeep : c ≠ '<' → c ≠ '>' → (inTag = true ↔ InTag x i)) :
    nextInTag inTag c = true ↔ InTag x i := by
  unfold nextInTag
  split
  · next hopen => exact iff_of_true rfl (inTag_of_open (hopen ▸ hi))
  · next hopen =>
    split
    · next hclose => exact iff_of_false Bool.false_ne_true (not_inTag_of_close (hclose ▸ hi))
    · next hclose => exact hkeep hopen hclose

/-- The flag after reading position `i` says whether the position is in a tag. -/
theorem nextInTag_final_iff (key : Str) (forward : Bool) (x : Str) (i : ℕ) (c : Char)
    (hi : x[i]? = some c) :
    nextInTag (Mealy.final (cipherStep key forward) (0, false) (x.take i)).2 c = true ↔
      InTag x i := by
  induction i generalizing c with
  | zero =>
    apply nextInTag_iff hi
    intro hopen _
    exact iff_of_false Bool.false_ne_true (not_inTag_zero hi hopen)
  | succ i ih =>
    have hlt : i < x.length := Nat.lt_of_succ_lt (List.getElem?_eq_some_iff.mp hi).1
    have hget : x[i]? = some x[i] := List.getElem?_eq_getElem hlt
    apply nextInTag_iff hi
    intro hopen hclose
    rw [inTag_succ_iff hi hopen hclose, take_succ_of_getElem? hget, Mealy.final_append,
      Mealy.final_cons, Mealy.final_nil, cipherStep_inTag]
    exact ih x[i] hget

/-- The loop shifts exactly the encodable positions. -/
theorem encodable_iff (key : Str) (forward : Bool) (x : Str) (i : ℕ) (c : Char)
    (hi : x[i]? = some c) :
    (nextInTag (Mealy.final (cipherStep key forward) (0, false) (x.take i)).2 c = false ∧
      c ∈ alphabet) ↔ Encodable x i := by
  rw [Encodable, ← nextInTag_final_iff key forward x i c hi, Bool.not_eq_true]
  simp [hi]

/-- The key index counts the encodable positions read so far. -/
theorem final_keyIndex (key : Option Str) (forward : Bool) (x : Str) (i : ℕ)
    (hi : i ≤ x.length) :
    (Mealy.final (cipherStep (normalizedKey key) forward) (0, false) (x.take i)).1 =
      encodableBefore x i % (normalizedKey key).length := by
  induction i with
  | zero => simp [encodableBefore]
  | succ i ih =>
    have hget : x[i]? = some x[i] := List.getElem?_eq_getElem (by omega)
    have henc := encodable_iff (normalizedKey key) forward x i x[i] hget
    rw [take_succ_of_getElem? hget, Mealy.final_append, Mealy.final_cons, Mealy.final_nil,
      encodableBefore, List.range_succ, List.countP_append, ← encodableBefore]
    have ih' := ih (by omega)
    by_cases hE : Encodable x i
    · have hstep := henc.mpr hE
      rw [cipherStep_pos hstep, ih', List.countP_singleton, if_pos (by simpa using hE),
        Nat.mod_add_mod]
    · rw [cipherStep_neg (fun h => hE (henc.mp h)), ih', List.countP_singleton,
        if_neg (by simpa using hE), Nat.add_zero]

/-! ## The round trip -/

/-- The shift the loop applies at an encodable position. -/
theorem shiftOf_keyValue_final (k x : Str) (forward : Bool) {i : ℕ} (hi : i ≤ x.length) :
    shiftOf (keyValue (normalizedKey (some k))
      (Mealy.final (cipherStep (normalizedKey (some k)) forward) (0, false) (x.take i)).1) =
      keyShift k (encodableBefore x i) := by
  rw [final_keyIndex (some k) forward x i hi, keyShift]

/-- Decoding undoes encoding exactly on the texts whose case is kept. -/
theorem decode_encode_iff_keepsCase (k x : Str) :
    vigenere (vigenere x (some k) true) (some k) false = x ↔ KeepsCase k x := by
  rw [vigenere_eq_run, vigenere_eq_run, (cipherStep_lockStep (some k) true false).run_run,
    Mealy.run_eq_self_iff]
  refine forall_congr' fun i => forall_congr' fun c => forall_congr' fun hi => ?_
  have hlen : i < x.length := (List.getElem?_eq_some_iff.mp hi).1
  have henc := encodable_iff (normalizedKey (some k)) true x i c hi
  have hshift := shiftOf_keyValue_final k x true (Nat.le_of_lt hlen)
  rw [Mealy.final_comp]
  set s := Mealy.final (cipherStep (normalizedKey (some k)) true) (0, false) (x.take i) with hs
  obtain ⟨hv0, hv⟩ := keyValue_bounds (some k) s.1
  by_cases hE : nextInTag s.2 c = false ∧ c ∈ alphabet
  · rw [comp_cipherStep_pos (some k) hE, shiftChar_shiftChar_iff hE.2 hv0 hv, hshift]
    exact ⟨fun h _ => h, fun h => h (henc.mp hE)⟩
  · rw [Mealy.comp, cipherStep_neg hE, cipherStep_neg hE]
    exact ⟨fun _ h => absurd (henc.mpr h) hE, fun _ => rfl⟩

/-- Encoding cannot tell a text from what decoding made of its encoding. -/
theorem encode_decode_encode (k x : Str) :
    vigenere (vigenere (vigenere x (some k) true) (some k) false) (some k) true =
      vigenere x (some k) true := by
  have hed := cipherStep_lockStep (some k) true false
  have hde := hed.comp (cipherStep_lockStep (some k) false true)
  have hmove : ∀ s c, (Mealy.comp (Mealy.comp (cipherStep (normalizedKey (some k)) true)
      (cipherStep (normalizedKey (some k)) false)) (cipherStep (normalizedKey (some k)) true)
      s c).1 = (cipherStep (normalizedKey (some k)) true s c).1 := fun _ _ => rfl
  simp only [vigenere_eq_run]
  rw [hed.run_run, hde.run_run, Mealy.run_eq_run_iff _ _ _ _ hmove]
  intro i c _
  set s := Mealy.final (cipherStep (normalizedKey (some k)) true) (0, false) (x.take i)
  obtain ⟨hv0, hv⟩ := keyValue_bounds (some k) s.1
  by_cases hE : nextInTag s.2 c = false ∧ c ∈ alphabet
  · have hflag := (cipherStep_encodable (some k) false (cipherStep_encodable (some k) true hE))
    rw [Mealy.comp, Mealy.comp, cipherStep_pos hflag, cipherStep_pos (cipherStep_encodable
      (some k) true hE), cipherStep_pos hE]
    dsimp only
    exact shiftChar_decode_encode hE.2 hv0 hv
  · rw [Mealy.comp, Mealy.comp, cipherStep_neg hE, cipherStep_neg hE, cipherStep_neg hE]

/-- Decoding undoes encoding for the texts that keep their case under the key, and no others;
two base passwords can share a site password exactly when the key can lose a case. -/
theorem vigenere_roundTrip (k : Str) :
    (∀ x, vigenere (vigenere x (some k) true) (some k) false = x ↔ KeepsCase k x) ∧
      (Function.Injective (fun x => vigenere x (some k) true) ↔ ∀ x, KeepsCase k x) := by
  refine ⟨decode_encode_iff_keepsCase k, fun hinj x => ?_, fun h x y hxy => ?_⟩
  · have hsame := @hinj (vigenere (vigenere x (some k) true) (some k) false) x
      (encode_decode_encode k x)
    exact (decode_encode_iff_keepsCase k x).mp hsame
  · have hdec := congrArg (vigenere · (some k) false) hxy
    simpa only [(decode_encode_iff_keepsCase k _).mpr (h _)] using hdec

/-- `z` and `Z` share their site password under the key `b`, and `z` comes back as `Z`. -/
theorem vigenere_not_roundTrip :
    vigenere (vigenere ['z'] (some ['b']) true) (some ['b']) false ≠ ['z'] ∧
      vigenere ['z'] (some ['b']) true = vigenere ['Z'] (some ['b']) true := by
  decide

end Vigenere
