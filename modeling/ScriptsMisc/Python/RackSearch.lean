import ScriptsMisc.Python.Words

/-! # The rack search of `find-words.py`

Every arrangement of every number of letters of the rack goes into a set, the set is sorted by
score and the arrangements that the dictionary holds are printed. Each printed word comes from a
choice of positions, and what counts in the end is how often it uses each letter.
-/

namespace FindWords

open Words List

/-- `itertools.permutations (s, i)`: the arrangements of `i` positions of `s`, by position. -/
def permutations : Str → ℕ → List Str
  | _, 0 => [[]]
  | s, i + 1 =>
    (List.finRange s.length).flatMap fun j : Fin s.length =>
      (permutations (s.eraseIdx j) i).map (s[j] :: ·)

/-- What the loop over `i` adds to `perms`, repeated arrangements included. -/
def arrangements (letters : Str) : List Str :=
  (List.range letters.length).flatMap fun i => permutations letters (i + 1)

/-- `order` is a way to iterate over the set of the elements of `members`. -/
structure SetOrder {α : Type} (order members : List α) : Prop where
  nodup : order.Nodup
  mem_iff : ∀ a, a ∈ order ↔ a ∈ members

/-- `sorted (xs, key=key)`: the keys are computed first, and equal keys keep their order. -/
def sortedBy (key : Str → Except PyError ℕ) (xs : List Str) : Except PyError (List Str) := do
  let keyed ← xs.mapM fun x => do return (← key x, x)
  return (keyed.mergeSort fun a b => a.1 ≤ b.1).map Prod.snd

/-- The search for the words that can be laid with `letters`: the score and the word of every
printed line. `iterate` is the order in which Python walks through a set. -/
def rackSearch (iterate : List Str → List Str) (dictionary letters : Str) :
    Except PyError (List (ℕ × Str)) := do
  let words := (readlines dictionary).map strip
  let perms ← sortedBy evalString (iterate (arrangements letters))
  (perms.filter (words.contains ·)).mapM fun p => do return (← evalString p, p)

/-! ## Arrangements -/

/-- An arrangement of `i` positions is a word of length `i` that uses no letter more often than
it is there. -/
theorem mem_permutations_iff (s : Str) (i : ℕ) (w : Str) :
    w ∈ permutations s i ↔ w.length = i ∧ w <+~ s := by
  induction i generalizing s w with
  | zero =>
    rw [permutations, List.mem_singleton, List.length_eq_zero_iff]
    exact ⟨fun h => ⟨h, h ▸ nil_subperm⟩, fun h => h.1⟩
  | succ i ih =>
    simp only [permutations, List.mem_flatMap, List.mem_finRange, true_and, List.mem_map, ih]
    constructor
    · rintro ⟨j, v, ⟨hlen, hsub⟩, rfl⟩
      refine ⟨by rw [List.length_cons, hlen], ?_⟩
      -- the letter at position `j` and the rest of the rack
      have hperm : s[j] :: s.eraseIdx j ~ s := getElem_cons_eraseIdx_perm j.isLt
      exact hperm.subperm_left.mp ((subperm_cons s[j]).mpr hsub)
    · rintro ⟨hlen, hsub⟩
      cases w with
      | nil => exact absurd hlen (Nat.succ_ne_zero i).symm
      | cons c v =>
        obtain ⟨j, hj, rfl⟩ := List.mem_iff_getElem.mp (hsub.subset (List.mem_cons_self ..))
        have hperm : s[j] :: s.eraseIdx j ~ s := getElem_cons_eraseIdx_perm hj
        have hrest := (subperm_cons s[j]).mp (hperm.subperm_left.mpr hsub)
        exact ⟨⟨j, hj⟩, v, ⟨Nat.succ.inj hlen, hrest⟩, rfl⟩

/-- The arrangements are the words that the letters make. -/
theorem mem_arrangements_iff (letters w : Str) :
    w ∈ arrangements letters ↔ w ≠ [] ∧ w <+~ letters := by
  simp only [arrangements, List.mem_flatMap, List.mem_range, mem_permutations_iff]
  constructor
  · rintro ⟨i, -, hlen, hsub⟩
    exact ⟨List.ne_nil_of_length_eq_add_one hlen, hsub⟩
  · rintro ⟨hne, hsub⟩
    have hpos := List.length_pos_iff.mpr hne
    have hle := hsub.length_le
    exact ⟨w.length - 1, by omega, by omega, hsub⟩

/-- A word can be laid when it uses each letter at most as often as the rack has it. -/
theorem subperm_iff_count_le (w letters : Str) :
    w <+~ letters ↔ ∀ c, w.count c ≤ letters.count c := by
  constructor
  · exact fun h c => h.count_le c
  · exact fun h => subperm_ext_iff.mpr fun c _ => h c

/-! ## Sorting -/

/-- Sorting by a key that never raises: the same elements in the order of the key. -/
theorem sortedBy_ok {key : Str → Except PyError ℕ} {k : Str → ℕ} {xs : List Str}
    (hkey : ∀ x ∈ xs, key x = .ok (k x)) :
    ∃ ys, sortedBy key xs = .ok ys ∧ ys ~ xs ∧ ys.Pairwise fun a b => k a ≤ k b := by
  set keyed := xs.map fun x => (k x, x) with hkeyed
  have hmap : (xs.mapM fun x => do return (← key x, x)) = Except.ok (ε := PyError) keyed := by
    apply mapM_ok
    intro x hx
    rw [hkey x hx]
    rfl
  set sorted := keyed.mergeSort fun a b => a.1 ≤ b.1 with hsorted
  have hperm : sorted ~ keyed := mergeSort_perm keyed _
  refine ⟨sorted.map Prod.snd, ?_, ?_, ?_⟩
  · rw [sortedBy, hmap]
    rfl
  · have hback : keyed.map Prod.snd = xs := by
      rw [hkeyed, List.map_map]
      exact List.map_id xs
    exact hback ▸ hperm.map Prod.snd
  · have hpair : sorted.Pairwise fun a b => a.1 ≤ b.1 := by
      have htrans : ∀ a b c : ℕ × Str, decide (a.1 ≤ b.1) = true → decide (b.1 ≤ c.1) = true →
          decide (a.1 ≤ c.1) = true := by
        intro a b c hab hbc
        exact decide_eq_true (Nat.le_trans (of_decide_eq_true hab) (of_decide_eq_true hbc))
      have htotal : ∀ a b : ℕ × Str, (decide (a.1 ≤ b.1) || decide (b.1 ≤ a.1)) = true := by
        intro a b
        simpa using Nat.le_total a.1 b.1
      exact (pairwise_mergeSort htrans htotal keyed).imp of_decide_eq_true
    rw [List.pairwise_map]
    -- every sorted pair still carries the key of its word
    have hfst : ∀ a ∈ sorted, a.1 = k a.2 := by
      intro a ha
      obtain ⟨x, -, rfl⟩ := List.mem_map.mp (hperm.mem_iff.mp ha)
      rfl
    refine hpair.imp_of_mem fun ha hb hle => ?_
    rwa [← hfst _ ha, ← hfst _ hb]

/-! ## The search -/

/-- The search prints the words of the dictionary that the rack can lay, each once and in the
order of their scores. -/
theorem rackSearch_correct (iterate : List Str → List Str) (dictionary letters : Str)
    (hletters : ∀ c ∈ letters, c.isUpper = true)
    (horder : SetOrder (iterate (arrangements letters)) (arrangements letters)) :
    ∃ out, rackSearch iterate dictionary letters = .ok out ∧
      (out.map Prod.snd).Nodup ∧
      (∀ w, w ∈ out.map Prod.snd ↔
        w ≠ [] ∧ w ∈ (readlines dictionary).map strip ∧ ∀ c, w.count c ≤ letters.count c) ∧
      out.Pairwise (fun a b => a.1 ≤ b.1) ∧
      ∀ line ∈ out, evalString line.2 = .ok line.1 := by
  have hvalue : ∀ w ∈ iterate (arrangements letters), evalString w = .ok (w.map tileValue).sum := by
    intro w hw
    have hsub := ((mem_arrangements_iff letters w).mp ((horder.mem_iff w).mp hw)).2
    exact evalString_eq fun c hc => hletters c (hsub.subset hc)
  obtain ⟨perms, hsorted, hperm, hpair⟩ := sortedBy_ok hvalue
  set found := perms.filter (((readlines dictionary).map strip).contains ·) with hfound
  have hprint : (found.mapM fun p => do return (← evalString p, p)) =
      Except.ok (ε := PyError) (found.map fun p => ((p.map tileValue).sum, p)) := by
    apply mapM_ok
    intro p hp
    rw [hvalue p (hperm.mem_iff.mp (List.mem_of_mem_filter hp))]
    rfl
  have hwords : (found.map fun p => ((p.map tileValue).sum, p)).map Prod.snd = found := by
    rw [List.map_map]
    exact List.map_id found
  refine ⟨found.map fun p => ((p.map tileValue).sum, p), ?_, ?_, ?_, ?_, ?_⟩
  · rw [rackSearch, hsorted]
    exact hprint
  · rw [hwords]
    exact (hperm.nodup_iff.mpr horder.nodup).filter _
  · intro w
    rw [hwords, hfound, List.mem_filter, List.contains_iff_mem, hperm.mem_iff, horder.mem_iff,
      mem_arrangements_iff, subperm_iff_count_le]
    exact ⟨fun h => ⟨h.1.1, h.2, h.1.2⟩, fun h => ⟨⟨h.1, h.2.2⟩, h.2.1⟩⟩
  · rw [List.pairwise_map]
    exact hpair.filter _
  · intro line hline
    obtain ⟨p, hp, rfl⟩ := List.mem_map.mp hline
    exact hvalue p (hperm.mem_iff.mp (List.mem_of_mem_filter hp))

/-- The rack `OOT` and a dictionary with `TOO` and `TOT`. -/
theorem rackSearch_correct_oot :
    ∃ out, rackSearch List.dedup "TOO\nTOT\n".toList "OOT".toList = .ok out ∧
      (out.map Prod.snd).Nodup ∧
      (∀ w, w ∈ out.map Prod.snd ↔
        w ≠ [] ∧ w ∈ (readlines "TOO\nTOT\n".toList).map strip ∧
          ∀ c, w.count c ≤ "OOT".toList.count c) ∧
      out.Pairwise (fun a b => a.1 ≤ b.1) ∧
      ∀ line ∈ out, evalString line.2 = .ok line.1 :=
  rackSearch_correct List.dedup _ _ (Text.forall_mem_of_all (by decide))
    ⟨List.nodup_dedup _, fun _ => List.mem_dedup⟩

end FindWords
