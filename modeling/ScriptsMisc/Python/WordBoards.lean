import ScriptsMisc.Python.WordScore

/-! # One board file, two boards

`solver.py` splits the lines of the board file at the blanks, `find-words.py` indexes the lines
themselves. So `find-words.py` meets the blanks between the tiles as if they were squares, and a
word gets the same score from both scripts when its letters weigh the same on both readings.
-/

/-! ## Loading the boards -/

namespace Solver

open Words

/-- `line.replace ('\n', '').split (' ')`. -/
def parseLine (line : Str) : List Str := (line.filter (· ≠ '\n')).splitOn ' '

/-- The loop over the lines of the board. It stops with an exception at a missing line of the
game, and further lines of the game stay strings, whose items are characters. -/
def load (boardText gameText : Str) : Except PyError (List (List Str) × List (List Str)) :=
  let board := readlines boardText
  let gameState := readlines gameText
  if gameState.length < board.length then .error .indexError
  else
    .ok (board.map parseLine,
      (gameState.take board.length).map parseLine ++
        (gameState.drop board.length).map fun line => line.map ([·]))

end Solver

namespace Words

/-- A file with one row of tiles on each line, a blank between the tiles. -/
structure BoardFile where
  rows : List (List Char)
  finalNewline : Bool
  rows_ne : ∀ r ∈ rows, r ≠ []
  tiles_ne : ∀ r ∈ rows, ∀ tile ∈ r, tile ≠ ' ' ∧ tile ≠ '\n'

def rowText (r : List Char) : Str := [' '].intercalate (r.map ([·]))

/-- The lines of a file, the last one with or without its line feed. -/
def fileText (finalNewline : Bool) : List Str → Str
  | [] => []
  | [line] => if finalNewline then line ++ ['\n'] else line
  | line :: lines => line ++ '\n' :: fileText finalNewline lines

def BoardFile.text (b : BoardFile) : Str := fileText b.finalNewline (b.rows.map rowText)

/-- The file of a game in which no square is taken. -/
def BoardFile.emptyGame (b : BoardFile) (finalNewline : Bool) : BoardFile where
  rows := b.rows.map fun r => r.map fun _ => '0'
  finalNewline := finalNewline
  rows_ne := by
    intro r hr
    obtain ⟨r', hr', rfl⟩ := List.mem_map.mp hr
    exact fun h => b.rows_ne r' hr' (List.map_eq_nil_iff.mp h)
  tiles_ne := by
    intro r hr tile htile
    obtain ⟨r', -, rfl⟩ := List.mem_map.mp hr
    obtain ⟨_, -, rfl⟩ := List.mem_map.mp htile
    decide

/-! ## Lines -/

/-- A line goes up to its line feed. -/
theorem readlines_line (line rest : Str) (hline : '\n' ∉ line) :
    readlines (line ++ '\n' :: rest) = (line ++ ['\n']) :: readlines rest := by
  induction line with
  | nil => rfl
  | cons c line ih =>
    obtain ⟨hc, hline⟩ := List.ne_and_not_mem_of_not_mem_cons hline
    rw [List.cons_append, readlines, if_neg (Ne.symm hc), ih hline]
    rfl

/-- The last line may have none. -/
theorem readlines_last (line : Str) (hne : line ≠ []) (hline : '\n' ∉ line) :
    readlines line = [line] := by
  induction line with
  | nil => exact absurd rfl hne
  | cons c line ih =>
    obtain ⟨hc, hline⟩ := List.ne_and_not_mem_of_not_mem_cons hline
    rw [readlines, if_neg (Ne.symm hc)]
    cases line with
    | nil => rfl
    | cons d line => rw [ih (List.cons_ne_nil d line) hline]

/-- A file is read back line by line, up to the line feeds. -/
theorem forall₂_readlines (finalNewline : Bool) (lines : List Str)
    (h : ∀ line ∈ lines, line ≠ [] ∧ '\n' ∉ line) :
    List.Forall₂ (fun line raw => raw = line ∨ raw = line ++ ['\n']) lines
      (readlines (fileText finalNewline lines)) := by
  induction lines with
  | nil => exact .nil
  | cons line lines ih =>
    rw [List.forall_mem_cons] at h
    obtain ⟨⟨hne, hline⟩, hlines⟩ := h
    cases lines with
    | nil =>
      cases finalNewline with
      | false =>
        show List.Forall₂ _ [line] (readlines line)
        rw [readlines_last line hne hline]
        exact .cons (Or.inl rfl) .nil
      | true =>
        show List.Forall₂ _ [line] (readlines (line ++ ['\n']))
        rw [readlines_line line [] hline]
        exact .cons (Or.inr rfl) .nil
    | cons next lines =>
      show List.Forall₂ _ (line :: next :: lines)
        (readlines (line ++ '\n' :: fileText finalNewline (next :: lines)))
      rw [readlines_line line _ hline]
      exact .cons (Or.inr rfl) (ih hlines)

/-! ## Rows -/

/-- The tiles of a row are divided by blanks. -/
theorem rowText_cons_cons (t u : Char) (r : List Char) :
    rowText (t :: u :: r) = t :: ' ' :: rowText (u :: r) := by
  simp [rowText, List.intercalate]

theorem rowText_ne_nil {r : List Char} (hr : r ≠ []) : rowText r ≠ [] := by
  cases r with
  | nil => exact absurd rfl hr
  | cons t r =>
    cases r with
    | nil => exact List.cons_ne_nil t []
    | cons u r =>
      rw [rowText_cons_cons]
      exact List.cons_ne_nil _ _

theorem mem_rowText {r : List Char} {c : Char} (hc : c ∈ rowText r) : c = ' ' ∨ c ∈ r := by
  induction r with
  | nil => exact Or.inr hc
  | cons t r ih =>
    cases r with
    | nil => exact Or.inr hc
    | cons u r =>
      rw [rowText_cons_cons, List.mem_cons, List.mem_cons] at hc
      rcases hc with rfl | rfl | hc
      · exact Or.inr (List.mem_cons_self ..)
      · exact Or.inl rfl
      · exact (ih hc).imp_right (List.mem_cons_of_mem t)

/-- What stands at column `y` of a line: a tile at the even columns, a blank between them. -/
def rawTile (r : List Char) (y : ℕ) : Char := if y % 2 = 0 then r.getD (y / 2) ' ' else ' '

/-- Every other character is a tile. -/
theorem getElem?_rowText {r : List Char} {y : ℕ} (hy : y + 1 < 2 * r.length) :
    (rowText r)[y]? = some (rawTile r y) := by
  induction r generalizing y with
  | nil => simp at hy
  | cons t r ih =>
    cases r with
    | nil =>
      have hy0 : y = 0 := by
        simp only [List.length_singleton] at hy
        omega
      subst hy0
      rfl
    | cons u r =>
      rw [rowText_cons_cons]
      rcases y with _ | _ | y
      · rfl
      · rfl
      · have hlt : y + 1 < 2 * (u :: r).length := by
          simp only [List.length_cons] at hy ⊢
          omega
        have hmod : (y + 1 + 1) % 2 = y % 2 := by omega
        have hdiv : (y + 1 + 1) / 2 = y / 2 + 1 := by omega
        rw [List.getElem?_cons_succ, List.getElem?_cons_succ, ih hlt, rawTile, rawTile, hmod,
          hdiv, List.getD_cons_succ]

/-- A line is split into its tiles. -/
theorem parseLine_rowText {r : List Char} (hne : r ≠ [])
    (htiles : ∀ t ∈ r, t ≠ ' ' ∧ t ≠ '\n') : Solver.parseLine (rowText r) = r.map ([·]) := by
  have hkeep : (rowText r).filter (· ≠ '\n') = rowText r := by
    rw [List.filter_eq_self]
    intro c hc
    rcases mem_rowText hc with rfl | hmem
    · decide
    · simpa using (htiles c hmem).2
  rw [Solver.parseLine, hkeep, rowText, List.splitOn_intercalate]
  · intro l hl
    obtain ⟨t, ht, rfl⟩ := List.mem_map.mp hl
    simpa using (htiles t ht).1.symm
  · exact fun h => hne (List.map_eq_nil_iff.mp h)

/-- A line feed at the end makes no difference. -/
theorem parseLine_line_feed (line : Str) :
    Solver.parseLine (line ++ ['\n']) = Solver.parseLine line := by
  rw [Solver.parseLine, List.filter_append]
  simp [Solver.parseLine]

/-! ## The two readings of a board file -/

/-- The lines of the file are those of the rows. -/
theorem BoardFile.forall₂_lines (b : BoardFile) :
    List.Forall₂ (fun r raw => raw = rowText r ∨ raw = rowText r ++ ['\n']) b.rows
      (readlines b.text) := by
  rw [← List.forall₂_map_left_iff (f := rowText) (R := fun line raw => raw = line ∨
    raw = line ++ ['\n'])]
  apply forall₂_readlines
  intro line hline
  obtain ⟨r, hr, rfl⟩ := List.mem_map.mp hline
  refine ⟨rowText_ne_nil (b.rows_ne r hr), fun h => ?_⟩
  rcases mem_rowText h with h | h
  · exact absurd h (by decide)
  · exact (b.tiles_ne r hr _ h).2 rfl

/-- `solver.py` finds the rows. -/
theorem BoardFile.map_parseLine (b : BoardFile) :
    (readlines b.text).map Solver.parseLine = b.rows.map fun r => r.map ([·]) := by
  have hlines := b.forall₂_lines
  have hrows : ∀ r ∈ b.rows, r ≠ [] ∧ ∀ t ∈ r, t ≠ ' ' ∧ t ≠ '\n' :=
    fun r hr => ⟨b.rows_ne r hr, b.tiles_ne r hr⟩
  -- the induction is on the rows and their lines together
  generalize b.rows = rows at hlines hrows ⊢
  generalize readlines b.text = lines at hlines ⊢
  induction hlines with
  | nil => rfl
  | cons hline _ ih =>
    rw [List.forall_mem_cons] at hrows
    rw [List.map_cons, List.map_cons, ih hrows.2]
    rcases hline with rfl | rfl
    · rw [parseLine_rowText hrows.1.1 hrows.1.2]
    · rw [parseLine_line_feed, parseLine_rowText hrows.1.1 hrows.1.2]

/-- The board and the empty game that `solver.py` works on. -/
theorem BoardFile.load_emptyGame (b : BoardFile) (finalNewline : Bool) :
    Solver.load b.text (b.emptyGame finalNewline).text =
      .ok (b.rows.map fun r => r.map ([·]), b.rows.map fun r => r.map fun _ => ['0']) := by
  have hboard := b.forall₂_lines.length_eq
  have hgame := (b.emptyGame finalNewline).forall₂_lines.length_eq
  have hlen : (readlines (b.emptyGame finalNewline).text).length = (readlines b.text).length := by
    rw [← hboard, ← hgame]
    exact List.length_map _
  unfold Solver.load
  simp only [hlen, Nat.lt_irrefl, if_false]
  rw [← hlen, List.take_length, List.drop_length, BoardFile.map_parseLine,
    BoardFile.map_parseLine]
  simp [BoardFile.emptyGame]

/-- The tile under letter `i`, as `solver.py` reads it. -/
def BoardFile.square (b : BoardFile) (row col : ℕ) (direction : ℤ) (i : ℕ) : Char :=
  (tileUnder b.rows row col direction i).getD ' '

/-- The character under letter `i`, as `find-words.py` reads it. -/
def BoardFile.rawSquare (b : BoardFile) (row col : ℕ) (direction : ℤ) (i : ℕ) : Char :=
  rawTile (b.rows.getD (row + i * rowInc direction) []) (col + i * colInc direction)

/-- Where a word fits on the rows, `find-words.py` stays inside the lines. -/
theorem BoardFile.tileUnder_readlines (b : BoardFile) {row col : ℕ} {direction : ℤ} {i : ℕ}
    (h : (tileUnder b.rows row col direction i).isSome = true) :
    tileUnder (readlines b.text) row col direction i = some (b.rawSquare row col direction i) := by
  obtain ⟨tile, htile⟩ := Option.isSome_iff_exists.mp h
  obtain ⟨r, hr, hcol⟩ := Option.bind_eq_some_iff.mp htile
  obtain ⟨hk, hget⟩ := List.getElem?_eq_some_iff.mp hr
  obtain ⟨hlen, hlines⟩ := List.forall₂_iff_get.mp b.forall₂_lines
  have hcol' := (List.getElem?_eq_some_iff.mp hcol).1
  have hraw := hlines _ hk (hlen ▸ hk)
  have hrow : b.rows.get ⟨row + i * rowInc direction, hk⟩ = r := hget
  rw [hrow] at hraw
  have htext := getElem?_rowText (r := r) (y := col + i * colInc direction) (by omega)
  unfold tileUnder BoardFile.rawSquare
  rw [List.getElem?_eq_getElem (hlen ▸ hk), Option.bind_some, List.getD_eq_getElem?_getD, hr]
  rw [List.get_eq_getElem] at hraw
  rcases hraw with hraw | hraw
  · rw [hraw]
    exact htext
  · rw [hraw, List.getElem?_append_left (List.getElem?_eq_some_iff.mp htext).1]
    exact htext

/-! ## Weights -/

/-- By how much letter `i` of a word of length `n` on free squares with these tiles counts. -/
def weight (tiles : ℕ → Char) (n i : ℕ) : ℕ :=
  letterMult ([tiles i], true) * ((List.range n).map fun j => wordMult ([tiles j], true)).prod

/-- The score is the sum of the letters, each with its weight. -/
theorem score_eq_sum_weight (value : Char → ℕ) (tiles : ℕ → Char) (word : Str) :
    score value (fun i => ([tiles i], true)) word =
      (word.zipIdx.map fun p => value p.1 * weight tiles word.length p.2).sum := by
  have hprod : (word.zipIdx.map fun p => wordMult ([tiles p.2], true)) =
      (List.range word.length).map fun j => wordMult ([tiles j], true) := by
    rw [List.range_eq_range', ← List.zipIdx_map_snd 0 word, List.map_map]
    rfl
  simp only [score, weight, hprod, ← mul_assoc]
  rw [List.sum_map_mul_right]

/-- A sum over the letters of a word is one over their positions. -/
theorem sum_zipIdx_map_range (letter : ℕ → Char) (f : Char → ℕ → ℕ) (n : ℕ) :
    ((((List.range n).map letter).zipIdx).map fun p => f p.1 p.2).sum =
      ∑ j ∈ Finset.range n, f (letter j) j := by
  have hzip : ((List.range n).map letter).zipIdx = (List.range n).map fun j => (letter j, j) := by
    apply List.ext_getElem
    · simp
    · intro j _ _
      simp
  rw [hzip, List.map_map]
  rfl

/-- Two letters of different values tell the weights of all positions. -/
theorem weights_eq_of_sum_eq (value : Char → ℕ) {w w' : ℕ → ℕ} {n : ℕ}
    (hA : value 'A' = 1) (hB : value 'B' = 4)
    (h : ∀ letter : ℕ → Char, (∀ j, letter j = 'A' ∨ letter j = 'B') →
      ∑ j ∈ Finset.range n, value (letter j) * w j =
        ∑ j ∈ Finset.range n, value (letter j) * w' j) :
    ∀ i < n, w i = w' i := by
  intro i hi
  have hmem : i ∈ Finset.range n := Finset.mem_range.mpr hi
  -- `A` everywhere, and `B` at position `i` alone
  have hall := h (fun _ => 'A') (fun _ => Or.inl rfl)
  have hone := h (fun j => if j = i then 'B' else 'A') (fun j => by
    by_cases hj : j = i
    · exact Or.inr (if_pos hj)
    · exact Or.inl (if_neg hj))
  have hrest : ∀ u : ℕ → ℕ, ∑ j ∈ (Finset.range n).erase i, value (if j = i then 'B' else 'A') * u j
      = ∑ j ∈ (Finset.range n).erase i, value 'A' * u j := by
    intro u
    apply Finset.sum_congr rfl
    intro j hj
    rw [if_neg (Finset.ne_of_mem_erase hj)]
  rw [← Finset.add_sum_erase _ _ hmem, ← Finset.add_sum_erase _ _ hmem] at hall hone
  rw [hrest, hrest, if_pos rfl, hB] at hone
  rw [hA] at hall hone
  omega

/-! ## Agreement -/

/-- A letter of both tables. -/
def Common (c : Char) : Prop :=
  (FindWords.charVals.lookup [c]).isSome = true ∧ (Solver.charVals.lookup [c]).isSome = true

/-- The two tables give a common letter the same value. -/
theorem item_of_common {c : Char} (hc : Common c) :
    item FindWords.charVals [c] = .ok (FindWords.tileValue c) ∧
      item Solver.charVals [c] = .ok (FindWords.tileValue c) := by
  have hall : ∀ p ∈ FindWords.charVals, FindWords.charVals.lookup p.1 = some p.2 ∧
      ((Solver.charVals.lookup p.1).isSome = true → Solver.charVals.lookup p.1 = some p.2) := by
    decide
  obtain ⟨p, hp, hkey⟩ := List.lookup_isSome_iff.mp hc.1
  rw [beq_iff_eq] at hkey
  obtain ⟨hfind, hsolver⟩ := hall p hp
  rw [← hkey] at hfind hsolver
  rw [item, item, FindWords.tileValue, hfind, hsolver hc.2]
  exact ⟨rfl, rfl⟩

/-- Both scripts return, and return the same score, for a word on the board and a game in which
no square is taken. -/
def BoardFile.Agree (b : BoardFile) (finalNewline : Bool) (row col : ℕ) (direction : ℤ)
    (word : Str) : Prop :=
  ∃ score, (FindWords.evalWord (readlines b.text) word row col direction).map Prod.snd =
      .ok score ∧
    (Solver.load b.text (b.emptyGame finalNewline).text >>= fun s =>
      (Solver.evalWord s.1 s.2 word row col direction).map Prod.snd) = .ok score

/-- What `find-words.py` returns. -/
theorem BoardFile.evalWord_find (b : BoardFile) {row col : ℕ} {direction : ℤ} {word : Str}
    (hfits : Fits b.rows row col direction word.length) (hword : ∀ c ∈ word, Common c) :
    (FindWords.evalWord (readlines b.text) word row col direction).map Prod.snd =
      .ok (word.zipIdx.map fun p => FindWords.tileValue p.1 *
        weight (b.rawSquare row col direction) word.length p.2).sum := by
  rw [← score_eq_sum_weight]
  unfold FindWords.evalWord
  rw [evalWordWith_ok (fun i => ([b.rawSquare row col direction i], true)) FindWords.tileValue ?_
    fun c hc => (item_of_common (hword c hc)).1]
  · rfl
  · intro i hi
    rw [← bind_assoc, subscript_tileUnder (b.tileUnder_readlines (hfits i hi))]
    rfl

/-- What `solver.py` returns. -/
theorem BoardFile.evalWord_solver (b : BoardFile) (finalNewline : Bool) {row col : ℕ}
    {direction : ℤ} {word : Str} (hfits : Fits b.rows row col direction word.length)
    (hword : ∀ c ∈ word, Common c) :
    (Solver.load b.text (b.emptyGame finalNewline).text >>= fun s =>
      (Solver.evalWord s.1 s.2 word row col direction).map Prod.snd) =
      .ok (word.zipIdx.map fun p => FindWords.tileValue p.1 *
        weight (b.square row col direction) word.length p.2).sum := by
  rw [b.load_emptyGame finalNewline]
  show (Solver.evalWord _ _ word row col direction).map Prod.snd = _
  rw [← score_eq_sum_weight, Solver.evalWord_ok FindWords.tileValue ?_ ?_
    fun c hc => (item_of_common (hword c hc)).2]
  · apply congrArg
    apply score_congr
    intro i hi
    obtain ⟨tile, htile⟩ := Option.isSome_iff_exists.mp (hfits i hi)
    rw [Solver.squaresUnder, tileUnder_map, tileUnder_map, BoardFile.square, htile]
    rfl
  · simp
  · intro i hi
    rw [tileUnder_map, Option.isSome_map]
    exact hfits i hi

/-- The scores agree when the letters of the word weigh the same on both readings. -/
theorem BoardFile.agree_iff_sum_eq (b : BoardFile) (finalNewline : Bool) {row col : ℕ}
    {direction : ℤ} {word : Str} (hfits : Fits b.rows row col direction word.length)
    (hword : ∀ c ∈ word, Common c) :
    b.Agree finalNewline row col direction word ↔
      (word.zipIdx.map fun p =>
        FindWords.tileValue p.1 * weight (b.rawSquare row col direction) word.length p.2).sum =
      (word.zipIdx.map fun p =>
        FindWords.tileValue p.1 * weight (b.square row col direction) word.length p.2).sum := by
  unfold BoardFile.Agree
  rw [b.evalWord_find hfits hword, b.evalWord_solver finalNewline hfits hword]
  constructor
  · rintro ⟨score, hfind, hsolver⟩
    exact (Except.ok.inj hfind).trans (Except.ok.inj hsolver).symm
  · intro heq
    exact ⟨_, rfl, congrArg _ heq.symm⟩

/-- On a square, a word of length `n` that fits gets the same score from both scripts when its
letters weigh the same on both readings of the file, and every such word does when every
position weighs the same. -/
theorem BoardFile.agree_iff (b : BoardFile) (finalNewline : Bool) (row col n : ℕ)
    (direction : ℤ) (hfits : Fits b.rows row col direction n) :
    (∀ word : Str, word.length = n → (∀ c ∈ word, Common c) →
      (b.Agree finalNewline row col direction word ↔
        (word.zipIdx.map fun p =>
          FindWords.tileValue p.1 * weight (b.rawSquare row col direction) n p.2).sum =
        (word.zipIdx.map fun p =>
          FindWords.tileValue p.1 * weight (b.square row col direction) n p.2).sum)) ∧
    ((∀ word : Str, word.length = n → (∀ c ∈ word, Common c) →
        b.Agree finalNewline row col direction word) ↔
      ∀ i < n, weight (b.rawSquare row col direction) n i =
        weight (b.square row col direction) n i) := by
  have hword : ∀ word : Str, word.length = n → (∀ c ∈ word, Common c) →
      (b.Agree finalNewline row col direction word ↔
        (word.zipIdx.map fun p =>
          FindWords.tileValue p.1 * weight (b.rawSquare row col direction) n p.2).sum =
        (word.zipIdx.map fun p =>
          FindWords.tileValue p.1 * weight (b.square row col direction) n p.2).sum) := by
    rintro word rfl hcommon
    exact b.agree_iff_sum_eq finalNewline hfits hcommon
  refine ⟨hword, ?_, ?_⟩
  · intro hall
    apply weights_eq_of_sum_eq FindWords.tileValue rfl rfl
    intro letter hletter
    have hcommon : ∀ c ∈ (List.range n).map letter, Common c := by
      intro c hc
      obtain ⟨j, -, rfl⟩ := List.mem_map.mp hc
      rcases hletter j with h | h
      · rw [h]
        exact ⟨rfl, rfl⟩
      · rw [h]
        exact ⟨rfl, rfl⟩
    have hlen : ((List.range n).map letter).length = n := by simp
    have hsum := (hword _ hlen hcommon).mp (hall _ hlen hcommon)
    rwa [sum_zipIdx_map_range letter fun c j => FindWords.tileValue c * weight _ n j,
      sum_zipIdx_map_range letter fun c j => FindWords.tileValue c * weight _ n j] at hsum
  · intro hweight word hlen hcommon
    rw [hword word hlen hcommon]
    apply congrArg
    apply List.map_congr_left
    intro p hp
    have hlt : p.2 < n := by
      have hsnd := List.snd_lt_of_mem_zipIdx hp
      omega
    rw [hweight p.2 hlt]

/-- The fourth row of `board.txt`, as a board of its own. -/
def jazzBoard : BoardFile where
  rows := ["T11R111D111R11T".toList]
  finalNewline := false
  rows_ne := by decide
  tiles_ne := fun r hr => by
    rw [List.mem_singleton.mp hr]
    exact Text.forall_mem_of_all (by decide)

/-- The word fits on the board. -/
theorem jazzBoard_fits : Fits jazzBoard.rows 0 0 0 4 := by
  unfold Fits
  decide

/-- The condition at the place where both scripts try `JAZZ`. -/
theorem agree_iff_jazz :
    (∀ word : Str, word.length = 4 → (∀ c ∈ word, Common c) →
      (jazzBoard.Agree true 0 0 0 word ↔
        (word.zipIdx.map fun p =>
          FindWords.tileValue p.1 * weight (jazzBoard.rawSquare 0 0 0) 4 p.2).sum =
        (word.zipIdx.map fun p =>
          FindWords.tileValue p.1 * weight (jazzBoard.square 0 0 0) 4 p.2).sum)) ∧
    ((∀ word : Str, word.length = 4 → (∀ c ∈ word, Common c) →
        jazzBoard.Agree true 0 0 0 word) ↔
      ∀ i < 4, weight (jazzBoard.rawSquare 0 0 0) 4 i = weight (jazzBoard.square 0 0 0) 4 i) :=
  jazzBoard.agree_iff true 0 0 4 0 jazzBoard_fits

/-- `JAZZ` scores 93 on the line and 153 on its tiles: its last `Z` lies on a triple letter that
`find-words.py` does not reach. -/
theorem not_agree_jazz :
    Fits jazzBoard.rows 0 0 0 "JAZZ".toList.length ∧ (∀ c ∈ "JAZZ".toList, Common c) ∧
      ¬ jazzBoard.Agree true 0 0 0 "JAZZ".toList := by
  refine ⟨jazzBoard_fits, ?_, ?_⟩
  · intro c hc
    have hmem : c = 'J' ∨ c = 'A' ∨ c = 'Z' := by simpa using hc
    rcases hmem with rfl | rfl | rfl
    all_goals exact ⟨rfl, rfl⟩
  · rintro ⟨score, hfind, hsolver⟩
    have hline : (FindWords.evalWord (readlines jazzBoard.text) "JAZZ".toList 0 0 0).map Prod.snd =
        .ok 93 := rfl
    have htiles : (Solver.load jazzBoard.text (jazzBoard.emptyGame true).text >>= fun s =>
        (Solver.evalWord s.1 s.2 "JAZZ".toList 0 0 0).map Prod.snd) = .ok 153 := rfl
    rw [hline] at hfind
    rw [htiles] at hsolver
    have heq : 93 = 153 := (Except.ok.inj hfind).trans (Except.ok.inj hsolver).symm
    exact absurd heq (by decide)

end Words
