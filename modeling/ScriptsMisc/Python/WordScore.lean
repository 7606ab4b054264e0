import ScriptsMisc.Python.Words

/-! # Scoring a word on the board

`find-words.py` and `solver.py` carry one scoring loop. It adds up the letters and multiplies
the word multipliers of the squares it passes; `solver.py` looks at a second grid before it lets
a premium square count.
-/

namespace Words

/-- The variables of the scoring loop. -/
structure Tally where
  outStr : Str
  wordVal : ℕ
  wordMult : ℕ
deriving DecidableEq, Repr

/-- One round of the loop. `premium` says whether the tile may multiply. -/
def scoreLetter (charVals : List (Str × ℕ)) (tile : Str) (premium : Bool) (letter : Char)
    (t : Tally) : Except PyError Tally := do
  let outStr := t.outStr ++ tile
  let (wordMult, charMult) :=
    if premium then
      if tile = ['T'] then (t.wordMult * 3, 1)
      else if tile = ['D'] then (t.wordMult * 2, 1)
      else if tile = ['B'] then (t.wordMult, 2)
      else if tile = ['R'] then (t.wordMult, 3)
      else (t.wordMult, 1)
    else (t.wordMult, 1)
  let value ← item charVals [letter]
  return ⟨outStr, t.wordVal + value * charMult, wordMult⟩

/-- The loop over the letters, which meet the squares `square 0`, `square 1` and so on: the
tiles that are printed below the word, and the score. -/
def evalWordWith (charVals : List (Str × ℕ)) (square : ℕ → Except PyError (Str × Bool))
    (word : Str) : Except PyError (Str × ℕ) := do
  let t ← word.zipIdx.foldlM (fun t p => do
    let s ← square p.2
    scoreLetter charVals s.1 s.2 p.1 t) ⟨[], 0, 1⟩
  return (t.outStr, t.wordVal * t.wordMult)

/-- `xs[i]` of a list or a string. -/
def subscript {α : Type} (xs : List α) (i : ℕ) : Except PyError α :=
  match xs[i]? with
  | some x => .ok x
  | none => .error .indexError

/-- `rowInc` (`xinc`): direction 1 runs down the rows. -/
def rowInc (direction : ℤ) : ℕ := if direction = 1 then 1 else 0

/-- `colInc` (`yinc`): every other direction runs along the columns. -/
def colInc (direction : ℤ) : ℕ := if direction = 1 then 0 else 1

end Words

namespace FindWords

open Words

/-- `evalWord (word, x, y, direction)` of `find-words.py`, where `board` holds the lines of the
file. -/
def evalWord (board : List Str) (word : Str) (x y : ℕ) (direction : ℤ) :
    Except PyError (Str × ℕ) :=
  evalWordWith charVals (fun i => do
    let tile ← subscript (← subscript board (x + i * rowInc direction)) (y + i * colInc direction)
    return ([tile], true)) word

end FindWords

namespace Solver

open Words

/-- `charVals` of `solver.py`. -/
def charVals : List (Str × ℕ) :=
  [(['A'], 1), (['B'], 4), (['C'], 4), (['D'], 2), (['E'], 1), (['F'], 4), (['G'], 3),
    (['H'], 3), (['I'], 1), (['J'], 10), (['K'], 5), (['L'], 2), (['M'], 4), (['N'], 2),
    (['O'], 1), (['P'], 4), (['Q'], 10), (['R'], 1), (['S'], 1), (['T'], 1), (['U'], 2),
    (['V'], 5), (['W'], 4), ("row".toList, 8), ("col".toList, 3), (['Z'], 10)]

/-- `evalWord (word, row, col, direction)` of `solver.py`. -/
def evalWord (board gameState : List (List Str)) (word : Str) (row col : ℕ) (direction : ℤ) :
    Except PyError (Str × ℕ) :=
  evalWordWith charVals (fun i => do
    let tile ← subscript (← subscript board (row + i * rowInc direction))
      (col + i * colInc direction)
    let state ← subscript (← subscript gameState (row + i * rowInc direction))
      (col + i * colInc direction)
    return (tile, state = ['0'])) word

end Solver

namespace Words

/-! ## Squares under a word -/

/-- The tile of `grid` under letter `i` of a word that starts at `row`, `col`. -/
def tileUnder {α : Type} (grid : List (List α)) (row col : ℕ) (direction : ℤ) (i : ℕ) :
    Option α :=
  (grid[row + i * rowInc direction]?).bind (·[col + i * colInc direction]?)

/-- Every letter of a word of length `n` lies on a square of the grid. -/
def Fits {α : Type} (grid : List (List α)) (row col : ℕ) (direction : ℤ) (n : ℕ) : Prop :=
  ∀ i < n, (tileUnder grid row col direction i).isSome = true

/-- Two grids of one shape have their squares at the same places. -/
theorem tileUnder_isSome_congr {α β : Type} {board : List (List α)} {gameState : List (List β)}
    (hshape : board.map List.length = gameState.map List.length) (row col : ℕ) (direction : ℤ)
    (i : ℕ) :
    (tileUnder board row col direction i).isSome =
      (tileUnder gameState row col direction i).isSome := by
  have hrow := congrArg (·[row + i * rowInc direction]?) hshape
  simp only [List.getElem?_map] at hrow
  unfold tileUnder
  cases hb : board[row + i * rowInc direction]? with
  | none =>
    rw [hb, Option.map_none, eq_comm, Option.map_eq_none_iff] at hrow
    rw [hrow]
    rfl
  | some line =>
    rw [hb, Option.map_some, eq_comm, Option.map_eq_some_iff] at hrow
    obtain ⟨line', hg, hlen⟩ := hrow
    rw [hg]
    rw [Bool.eq_iff_iff]
    simp only [Option.bind_some, Option.isSome_iff_ne_none, ne_eq, List.getElem?_eq_none_iff,
      hlen]

/-- A tile of a mapped board. -/
theorem tileUnder_map {α β : Type} (f : α → β) (grid : List (List α)) (row col : ℕ)
    (direction : ℤ) (i : ℕ) :
    tileUnder (grid.map fun r => r.map f) row col direction i =
      (tileUnder grid row col direction i).map f := by
  unfold tileUnder
  rw [List.getElem?_map]
  cases grid[row + i * rowInc direction]? with
  | none => rfl
  | some r => exact List.getElem?_map

theorem subscript_ok {α : Type} {xs : List α} {i : ℕ} {x : α} (h : xs[i]? = some x) :
    subscript xs i = .ok x := by
  rw [subscript, h]

/-- A square on the grid is found by the two subscripts. -/
theorem subscript_tileUnder {α : Type} {grid : List (List α)} {row col : ℕ} {direction : ℤ}
    {i : ℕ} {tile : α} (h : tileUnder grid row col direction i = some tile) :
    (subscript grid (row + i * rowInc direction) >>= fun line =>
      subscript line (col + i * colInc direction)) = .ok tile := by
  obtain ⟨line, hline, htile⟩ := Option.bind_eq_some_iff.mp h
  rw [subscript_ok hline]
  exact subscript_ok htile

/-! ## The score of a word -/

/-- By how much a square multiplies its letter; `s.2` says whether it is still free. -/
def letterMult (s : Str × Bool) : ℕ :=
  if s.2 = true ∧ s.1 = ['B'] then 2 else if s.2 = true ∧ s.1 = ['R'] then 3 else 1

/-- By how much a square multiplies the word. -/
def wordMult (s : Str × Bool) : ℕ :=
  if s.2 = true ∧ s.1 = ['D'] then 2 else if s.2 = true ∧ s.1 = ['T'] then 3 else 1

/-- The score of a word whose letters lie on `squares 0`, `squares 1` and so on. -/
def score (value : Char → ℕ) (squares : ℕ → Str × Bool) (word : Str) : ℕ :=
  (word.zipIdx.map fun p => value p.1 * letterMult (squares p.2)).sum *
    (word.zipIdx.map fun p => wordMult (squares p.2)).prod

/-- The score depends only on the squares below the word. -/
theorem score_congr {value : Char → ℕ} {squares squares' : ℕ → Str × Bool} {word : Str}
    (h : ∀ i < word.length, squares i = squares' i) :
    score value squares word = score value squares' word := by
  have hmem : ∀ p ∈ word.zipIdx, squares p.2 = squares' p.2 := by
    intro p hp
    apply h
    simpa using List.snd_lt_of_mem_zipIdx hp
  unfold score
  rw [List.map_congr_left fun p hp => by rw [hmem p hp],
    List.map_congr_left fun p hp => congrArg wordMult (hmem p hp)]

/-- A letter with a value is added to the tally. -/
theorem scoreLetter_ok {charVals : List (Str × ℕ)} {letter : Char} {value : ℕ}
    (hvalue : item charVals [letter] = .ok value) (s : Str × Bool) (t : Tally) :
    scoreLetter charVals s.1 s.2 letter t =
      .ok ⟨t.outStr ++ s.1, t.wordVal + value * letterMult s, t.wordMult * wordMult s⟩ := by
  obtain ⟨tile, premium⟩ := s
  unfold scoreLetter letterMult wordMult
  rw [hvalue]
  cases premium with
  | false => simp
  | true =>
    simp only [if_true, true_and]
    -- the four premium tiles exclude each other
    by_cases hT : tile = ['T']
    · subst hT; simp
    by_cases hD : tile = ['D']
    · subst hD; simp
    by_cases hB : tile = ['B']
    · subst hB; simp
    by_cases hR : tile = ['R']
    · subst hR; simp
    simp [hT, hD, hB, hR]

/-- When every square is on the board and every letter has a value, the loop returns the
score. -/
theorem evalWordWith_ok {charVals : List (Str × ℕ)} {square : ℕ → Except PyError (Str × Bool)}
    (squares : ℕ → Str × Bool) (value : Char → ℕ) {word : Str}
    (hsquare : ∀ i < word.length, square i = .ok (squares i))
    (hvalue : ∀ c ∈ word, item charVals [c] = .ok (value c)) :
    evalWordWith charVals square word =
      .ok ((word.zipIdx.map fun p => (squares p.2).1).flatten, score value squares word) := by
  have hloop : ∀ (ps : List (Char × ℕ)) (t : Tally),
      (∀ p ∈ ps, square p.2 = .ok (squares p.2) ∧ item charVals [p.1] = .ok (value p.1)) →
      ps.foldlM (fun t p => do
        let s ← square p.2
        scoreLetter charVals s.1 s.2 p.1 t) t =
      .ok (⟨t.outStr ++ (ps.map fun p => (squares p.2).1).flatten,
        t.wordVal + (ps.map fun p => value p.1 * letterMult (squares p.2)).sum,
        t.wordMult * (ps.map fun p => wordMult (squares p.2)).prod⟩ : Tally) := by
    intro ps
    induction ps with
    | nil =>
      intro t _
      simp
      rfl
    | cons p ps ih =>
      intro t hps
      rw [List.forall_mem_cons] at hps
      obtain ⟨⟨hsq, hval⟩, hrest⟩ := hps
      rw [List.foldlM_cons, hsq]
      show (scoreLetter charVals (squares p.2).1 (squares p.2).2 p.1 t >>= _) = _
      rw [scoreLetter_ok hval]
      refine (ih _ hrest).trans ?_
      simp [add_assoc, mul_assoc]
  have hmem : ∀ p ∈ word.zipIdx,
      square p.2 = .ok (squares p.2) ∧ item charVals [p.1] = .ok (value p.1) := by
    intro p hp
    have hget := List.mem_zipIdx_iff_getElem?.mp hp
    have hlt : p.2 < word.length := (List.getElem?_eq_some_iff.mp hget).1
    exact ⟨hsquare p.2 hlt, hvalue p.1 (List.mem_of_getElem? hget)⟩
  rw [evalWordWith, hloop _ _ hmem]
  show Except.ok _ = _
  simp only [List.nil_append, Nat.zero_add, Nat.one_mul, score]

/-- The loop only returns when every letter has a value. -/
theorem item_ok_of_evalWordWith {charVals : List (Str × ℕ)}
    {square : ℕ → Except PyError (Str × Bool)} {word : Str} {r : Str × ℕ}
    (h : evalWordWith charVals square word = .ok r) {c : Char} (hc : c ∈ word) :
    ∃ value, item charVals [c] = .ok value := by
  unfold evalWordWith at h
  obtain ⟨t, hloop, -⟩ := bind_ok h
  obtain ⟨i, hi⟩ := List.mem_iff_getElem?.mp hc
  have hmem : (c, i) ∈ word.zipIdx := List.mem_zipIdx_iff_getElem?.mpr hi
  obtain ⟨t₁, t₂, hround⟩ := foldlM_ok_mem hloop hmem
  obtain ⟨s, -, hletter⟩ := bind_ok hround
  unfold scoreLetter at hletter
  obtain ⟨value, hvalue, -⟩ := bind_ok hletter
  exact ⟨value, hvalue⟩

end Words

namespace Solver

open Words

/-- The squares under a word: the tile, and whether the game has left the square free. -/
def squaresUnder (board gameState : List (List Str)) (row col : ℕ) (direction : ℤ) (i : ℕ) :
    Str × Bool :=
  ((tileUnder board row col direction i).getD [],
    tileUnder gameState row col direction i = some ['0'])

/-- Both grids are read where the word fits. -/
theorem evalWord_ok {board gameState : List (List Str)} (value : Char → ℕ) {word : Str}
    {row col : ℕ} {direction : ℤ} (hshape : board.map List.length = gameState.map List.length)
    (hfits : Fits board row col direction word.length)
    (hvalue : ∀ c ∈ word, item charVals [c] = .ok (value c)) :
    (evalWord board gameState word row col direction).map Prod.snd =
      .ok (score value (squaresUnder board gameState row col direction) word) := by
  have hsquare : ∀ i < word.length, (do
      let tile ← subscript (← subscript board (row + i * rowInc direction))
        (col + i * colInc direction)
      let state ← subscript (← subscript gameState (row + i * rowInc direction))
        (col + i * colInc direction)
      return (tile, decide (state = ['0']))) =
      (.ok (squaresUnder board gameState row col direction i) : Except PyError (Str × Bool)) := by
    intro i hi
    have hboard := hfits i hi
    obtain ⟨tile, htile⟩ := Option.isSome_iff_exists.mp hboard
    rw [tileUnder_isSome_congr hshape] at hboard
    obtain ⟨state, hstate⟩ := Option.isSome_iff_exists.mp hboard
    rw [← bind_assoc, subscript_tileUnder htile]
    show (subscript gameState _ >>= fun line => subscript line _ >>= fun state => _) = _
    rw [← bind_assoc, subscript_tileUnder hstate, squaresUnder, htile, hstate]
    simp
  unfold evalWord
  rw [evalWordWith_ok _ _ hsquare hvalue]
  rfl

/-- The two letters that `charVals` does not list. -/
theorem item_charVals {c : Char} (hc : c.isUpper = true) (hX : c ≠ 'X') (hY : c ≠ 'Y') :
    item charVals [c] = .ok (FindWords.tileValue c) := by
  have hall : c = 'X' ∨ c = 'Y' ∨ charVals.lookup [c] = some (FindWords.tileValue c) :=
    forall_upper_of_all (P := fun c => c = 'X' ∨ c = 'Y' ∨
      charVals.lookup [c] = some (FindWords.tileValue c)) (by decide) hc
  rw [item, (hall.resolve_left hX).resolve_left hY]

/-- `evalWord` returns the score of a word on the board exactly when the word has neither an
`X` nor a `Y`, whose values `charVals` files under other names. -/
theorem evalWord_eq_score_iff (board gameState : List (List Str)) (word : Str) (row col : ℕ)
    (direction : ℤ) (hshape : board.map List.length = gameState.map List.length)
    (hword : ∀ c ∈ word, c.isUpper = true) (hfits : Fits board row col direction word.length) :
    (evalWord board gameState word row col direction).map Prod.snd =
        .ok (score FindWords.tileValue (squaresUnder board gameState row col direction) word) ↔
      'X' ∉ word ∧ 'Y' ∉ word := by
  constructor
  · intro h
    cases hr : evalWord board gameState word row col direction with
    | error e =>
      rw [hr] at h
      cases h
    | ok r =>
      have hno : ∀ c : Char, charVals.lookup [c] = none → c ∉ word := by
        intro c hnone hc
        unfold evalWord at hr
        obtain ⟨value, hvalue⟩ := item_ok_of_evalWordWith hr hc
        rw [item, hnone] at hvalue
        cases hvalue
      exact ⟨hno 'X' rfl, hno 'Y' rfl⟩
  · rintro ⟨hX, hY⟩
    apply evalWord_ok FindWords.tileValue hshape hfits
    intro c hc
    exact item_charVals (hword c hc) (fun h => hX (h ▸ hc)) (fun h => hY (h ▸ hc))

/-- `JAZZ` across an empty row with a free triple letter under its last `Z`. -/
theorem evalWord_eq_score_jazz :
    (evalWord [[['1'], ['1'], ['1'], ['R']]] [[['0'], ['0'], ['0'], ['0']]] "JAZZ".toList 0 0
        0).map Prod.snd =
        .ok (score FindWords.tileValue (squaresUnder [[['1'], ['1'], ['1'], ['R']]]
          [[['0'], ['0'], ['0'], ['0']]] 0 0 0) "JAZZ".toList) ↔
      'X' ∉ "JAZZ".toList ∧ 'Y' ∉ "JAZZ".toList :=
  evalWord_eq_score_iff _ _ _ _ _ _ rfl (Text.forall_mem_of_all (by decide)) (by
    unfold Fits
    decide)

/-- The word `X` on a board of one plain square raises `KeyError` instead of scoring 8. -/
theorem evalWord_x_keyError :
    evalWord [[['1']]] [[['0']]] ['X'] 0 0 0 = .error (.keyError ['X']) ∧
      (evalWord [[['1']]] [[['0']]] ['X'] 0 0 0).map Prod.snd ≠
        .ok (score FindWords.tileValue (squaresUnder [[['1']]] [[['0']]] 0 0 0) ['X']) := by
  have hkey : evalWord [[['1']]] [[['0']]] ['X'] 0 0 0 = .error (.keyError ['X']) := rfl
  refine ⟨hkey, ?_⟩
  rw [hkey]
  intro h
  cases h

end Solver
