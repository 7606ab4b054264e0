import Mathlib
import ScriptsMisc.Javascript.RoundTrip

/-! # The password bar

`generatePass` of the user script and `gnP` of the Android bookmark run on every key in the bar
and on the Show button. Both encode the base password with the domain; the user script alone
strips and cuts the result for some sites, and only on the way to the password field.
-/

namespace PasswordEncoding

open Vigenere

/-- What a handler does to the page. -/
inductive Effect where
  | hidePassKey
  | focusPassword
  | setPasswordInput (value : Str)
  | prompt (message value : Str)
deriving DecidableEq, Repr

/-- `replace (/[^a-zA-Z0-9]/g, '')`. -/
def removeNonAlnum (s : Str) : Str := s.filter Text.isAlnum

/-- The site rules of `generatePass` under `flag`. -/
def applySiteRules (domain encodedPass : Str) : Str :=
  let encodedPass :=
    if Text.contains domain "assurant".toList then (removeNonAlnum encodedPass).take 8
    else encodedPass
  if Text.contains domain "kcpl".toList || Text.contains domain "timewarnercable".toList then
    removeNonAlnum encodedPass
  else encodedPass

/-- `generatePass (flag)`, with `event.keyCode` and the two values read from the bar. -/
def generatePass (keyCode : ℕ) (flag : Bool) (vigenerePassKey domain : Str) : List Effect :=
  if keyCode = 27 then [.hidePassKey]
  else if keyCode = 13 then [.hidePassKey, .focusPassword]
  else
    let encodedPass := vigenere vigenerePassKey (some domain) true
    if flag then [.setPasswordInput (applySiteRules domain encodedPass)]
    else [.prompt "Encoded Password:".toList encodedPass]

/-- `vg (input, k, forward)`: the bookmark's copy of the cipher. -/
def vg (input : Str) (k : Option Str) (forward : Bool) : Str := vigenere input k forward

/-- `gnP (flag)`: Escape has no branch of its own here. -/
def gnP (keyCode : ℕ) (flag : Bool) (vgPk domain : Str) : List Effect :=
  if keyCode = 13 then [.hidePassKey, .focusPassword]
  else
    let encPw := vg vgPk (some domain) true
    if flag then [.setPasswordInput encPw] else [.prompt "Encoded password:".toList encPw]

/-- The value a handler leaves in the password field. -/
def filled (effects : List Effect) : Option Str :=
  effects.foldl (fun v e => match e with | .setPasswordInput value => some value | _ => v) none

/-- The value a handler shows. -/
def displayed (effects : List Effect) : Option Str :=
  effects.foldl (fun v e => match e with | .prompt _ value => some value | _ => v) none

/-! ## Letters and digits through the cipher -/

/-- The alphabet holds exactly the characters of `[a-zA-Z0-9]`. -/
theorem mem_alphabet_iff (c : Char) : c ∈ alphabet ↔ Text.isAlnum c = true := by
  constructor
  · have hall : ∀ c ∈ alphabet, Text.isAlnum c = true :=
      Text.forall_mem_of_all (by decide)
    exact hall c
  · intro hc
    have hall : ∀ n < 128, Text.isAlnum (Char.ofNat n) = true → Char.ofNat n ∈ alphabet := by
      decide +kernel
    have hlt : c.toNat < 128 := by
      simp only [Text.isAlnum, Char.isAlphanum, Char.isAlpha, Char.isUpper, Char.isLower,
        Char.isDigit, Bool.or_eq_true, Bool.and_eq_true, decide_eq_true_eq, ge_iff_le,
        UInt32.le_iff_toNat_le] at hc
      have htoNat : c.toNat = c.val.toNat := rfl
      have hZ : 'Z'.val.toNat = 90 := rfl
      have hz : 'z'.val.toNat = 122 := rfl
      have h9 : '9'.val.toNat = 57 := rfl
      omega
    have hmem := hall c.toNat hlt
    rw [Char.ofNat_toNat] at hmem
    exact hmem hc

/-- Encoding keeps a text of letters and digits one, and makes no other text one. -/
theorem vigenere_forall_alnum_iff (x : Str) (key : Option Str) (forward : Bool) :
    (∀ c ∈ vigenere x key forward, Text.isAlnum c = true) ↔ ∀ c ∈ x, Text.isAlnum c = true := by
  simp only [← mem_alphabet_iff]
  rw [vigenere_eq_run]
  -- the induction is on the text, from any state
  generalize ((0, false) : ℕ × Bool) = s
  induction x generalizing s with
  | nil => simp
  | cons c x ih => simp only [Mealy.run_cons, List.forall_mem_cons, cipherStep_mem_iff, ih]

/-! ## The site rules -/

/-- A text is kept exactly when it has only letters and digits. -/
theorem removeNonAlnum_eq_self_iff (s : Str) :
    removeNonAlnum s = s ↔ ∀ c ∈ s, Text.isAlnum c = true := List.filter_eq_self

/-- A cut keeps it if it is short enough, too. -/
theorem take_removeNonAlnum_eq_self_iff (s : Str) (n : ℕ) :
    (removeNonAlnum s).take n = s ↔ (∀ c ∈ s, Text.isAlnum c = true) ∧ s.length ≤ n := by
  constructor
  · intro h
    have halnum : ∀ c ∈ s, Text.isAlnum c = true := by
      intro c hc
      rw [← h] at hc
      exact (List.mem_filter.mp (List.mem_of_mem_take hc)).2
    refine ⟨halnum, ?_⟩
    rw [(removeNonAlnum_eq_self_iff s).mpr halnum] at h
    exact List.take_eq_self_iff s |>.mp h
  · rintro ⟨halnum, hlen⟩
    rw [(removeNonAlnum_eq_self_iff s).mpr halnum]
    exact List.take_of_length_le hlen

/-- The site rules of a domain leave a password of this shape alone. -/
def SiteKeeps (domain pass : Str) : Prop :=
  (Text.contains domain "assurant".toList = true →
    (∀ c ∈ pass, Text.isAlnum c = true) ∧ pass.length ≤ 8) ∧
  (Text.contains domain "kcpl".toList = true ∨
      Text.contains domain "timewarnercable".toList = true →
    ∀ c ∈ pass, Text.isAlnum c = true)

instance (domain pass : Str) : Decidable (SiteKeeps domain pass) :=
  haveI : Decidable (∀ c ∈ pass, Text.isAlnum c = true) := List.decidableBAll _ pass
  inferInstanceAs (Decidable ((_ → _ ∧ _) ∧ (_ ∨ _ → _)))

/-- The rules keep a password exactly when it has the shape that they ask for. -/
theorem applySiteRules_eq_self_iff (domain pass : Str) :
    applySiteRules domain pass = pass ↔ SiteKeeps domain pass := by
  simp only [applySiteRules, SiteKeeps, Bool.or_eq_true]
  by_cases hcut : Text.contains domain "assurant".toList = true
  · by_cases hstrip : Text.contains domain "kcpl".toList = true ∨
        Text.contains domain "timewarnercable".toList = true
    · -- stripping after the cut changes nothing more
      have hidem : removeNonAlnum ((removeNonAlnum pass).take 8) = (removeNonAlnum pass).take 8 :=
        (removeNonAlnum_eq_self_iff _).mpr fun c hc =>
          (List.mem_filter.mp (List.mem_of_mem_take hc)).2
      rw [if_pos hcut, if_pos hstrip, hidem, take_removeNonAlnum_eq_self_iff]
      exact ⟨fun h => ⟨fun _ => h, fun _ => h.1⟩, fun h => h.1 hcut⟩
    · rw [if_pos hcut, if_neg hstrip, take_removeNonAlnum_eq_self_iff]
      exact ⟨fun h => ⟨fun _ => h, fun hs => absurd hs hstrip⟩, fun h => h.1 hcut⟩
  · by_cases hstrip : Text.contains domain "kcpl".toList = true ∨
        Text.contains domain "timewarnercable".toList = true
    · rw [if_neg hcut, if_pos hstrip, removeNonAlnum_eq_self_iff]
      exact ⟨fun h => ⟨fun hc => absurd hc hcut, fun _ => h⟩, fun h => h.2 hstrip⟩
    · rw [if_neg hcut, if_neg hstrip]
      exact iff_of_true rfl ⟨fun hc => absurd hc hcut, fun hs => absurd hs hstrip⟩

/-- Encoding does not change whether the site rules leave a password alone. -/
theorem siteKeeps_vigenere_iff (domain pass : Str) (key : Option Str) (forward : Bool) :
    SiteKeeps domain (vigenere pass key forward) ↔ SiteKeeps domain pass := by
  simp only [SiteKeeps, vigenere_forall_alnum_iff, length_vigenere]

/-! ## The three derivations -/

/-- The field of the user script, its Show button and the field of the bookmark agree exactly
on the passwords that the site rules of the domain leave alone. -/
theorem derivations_agree_iff (pass domain : Str) {keyFill keyShow keyAndroid : ℕ}
    (hFill : keyFill ≠ 13 ∧ keyFill ≠ 27) (hShow : keyShow ≠ 13 ∧ keyShow ≠ 27)
    (hAndroid : keyAndroid ≠ 13) :
    ((filled (generatePass keyFill true pass domain)).isSome = true ∧
      filled (generatePass keyFill true pass domain) =
        displayed (generatePass keyShow false pass domain) ∧
      filled (generatePass keyFill true pass domain) =
        filled (gnP keyAndroid true pass domain)) ↔
      SiteKeeps domain pass := by
  have hfill : filled (generatePass keyFill true pass domain) =
      some (applySiteRules domain (vigenere pass (some domain) true)) := by
    rw [generatePass, if_neg hFill.2, if_neg hFill.1, if_pos rfl]
    rfl
  have hshow : displayed (generatePass keyShow false pass domain) =
      some (vigenere pass (some domain) true) := by
    rw [generatePass, if_neg hShow.2, if_neg hShow.1, if_neg Bool.false_ne_true]
    rfl
  have handroid : filled (gnP keyAndroid true pass domain) =
      some (vigenere pass (some domain) true) := by
    rw [gnP, if_neg hAndroid, if_pos rfl]
    rfl
  rw [hfill, hshow, handroid, Option.some.injEq, applySiteRules_eq_self_iff,
    siteKeeps_vigenere_iff]
  exact ⟨fun h => h.2.1, fun h => ⟨rfl, h, h⟩⟩

/-- A letter typed in the bar and a click on Show, for `secret` on `google`. -/
theorem derivations_agree_google :
    (filled (generatePass 65 true "secret".toList "google".toList)).isSome = true ∧
      filled (generatePass 65 true "secret".toList "google".toList) =
        displayed (generatePass 0 false "secret".toList "google".toList) ∧
      filled (generatePass 65 true "secret".toList "google".toList) =
        filled (gnP 65 true "secret".toList "google".toList) :=
  (derivations_agree_iff "secret".toList "google".toList (by decide) (by decide)
    (by decide)).mpr (by decide)

/-- On `assurant` a base password of nine letters is cut in the field, but neither in what Show
displays nor on the bookmark. -/
theorem derivations_disagree_assurant :
    filled (generatePass 65 true "passwords".toList "assurant".toList) ≠
        displayed (generatePass 0 false "passwords".toList "assurant".toList) ∧
      filled (generatePass 65 true "passwords".toList "assurant".toList) ≠
        filled (gnP 65 true "passwords".toList "assurant".toList) := by
  decide +kernel

end PasswordEncoding
