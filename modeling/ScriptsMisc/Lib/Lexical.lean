import Mathlib.Data.List.Basic
import ScriptsMisc.Lib.Text

/-! # Lexical normalisation of paths

A path is normalised by its text alone: empty segments and `.` go, and `..` takes the segment
before it away. Whether the normal form lies inside a directory is found out without it, by
counting how deep the path has led.
-/

namespace Lexical

/-- The segments of a path whose separators are `/` and `\`. -/
def components (path : Str) : List Str := (path.splitOn '/').flatMap (·.splitOn '\\')

/-- One segment, and the segments before it that are left, the last of them first. -/
def push (stack : List Str) (c : Str) : List Str :=
  if c = [] ∨ c = ".".toList then stack
  else if c = "..".toList then
    match stack with
    | [] => [c]
    -- behind a leading `..` there is nothing to take away
    | top :: rest => if top = "..".toList then c :: top :: rest else rest
  else c :: stack

/-- The segments of the normal form. -/
def normalise (path : Str) : List Str := ((components path).foldl push []).reverse

/-- The path leads to something inside the directory `root`. -/
def Inside (root path : Str) : Prop := ∃ c cs, normalise path = root :: c :: cs

example : normalise "a/./b\\..\\..\\..//c".toList = ["..".toList, "c".toList] := by decide

/-! ## Depth -/

/-- What a segment does; `down` says whether it names the directory in question. -/
inductive Step where
  | stay
  | up
  | down (isRoot : Bool)
deriving DecidableEq, Repr

/-- What a segment does to a path. -/
def stepOf (root c : Str) : Step :=
  if c = [] ∨ c = ".".toList then .stay
  else if c = "..".toList then .up
  else .down (decide (c = root))

/-- A component counts only for what it is equal to. -/
theorem stepOf_congr {root c c' : Str}
    (h : ∀ w ∈ [[], ".".toList, "..".toList, root], c = w ↔ c' = w) :
    stepOf root c = stepOf root c' := by
  simp only [List.forall_mem_cons] at h
  obtain ⟨hnil, hdot, hdots, hroot, -⟩ := h
  simp only [stepOf, hnil, hdot, hdots, hroot]

/-- Where a path has led: `depth` levels below the directory, or below the one it stands in and
not through it, or above that one. -/
inductive Position where
  | inside (depth : ℕ)
  | beside (depth : ℕ)
  | above
deriving DecidableEq, Repr

/-- One step. From above there is no way back. -/
def Position.move : Position → Step → Position
  | p, .stay => p
  | .inside 0, .up => .beside 0
  | .inside (d + 1), .up => .inside d
  | .inside d, .down _ => .inside (d + 1)
  | .beside 0, .up => .above
  | .beside (d + 1), .up => .beside d
  | .beside 0, .down true => .inside 0
  | .beside d, .down _ => .beside (d + 1)
  | .above, _ => .above

/-- The position is inside the directory, not the directory itself. -/
def Position.isInside : Position → Bool
  | .inside (_ + 1) => true
  | _ => false

/-- The segments that are left, the last of them first, have led to the position. -/
def Position.Holds (root : Str) : Position → List Str → Prop
  | .inside d, stack =>
    stack.length = d + 1 ∧ "..".toList ∉ stack ∧ stack.getLast? = some root
  | .beside d, stack => stack.length = d ∧ "..".toList ∉ stack ∧ stack.getLast? ≠ some root
  | .above, stack => stack.getLast? = some "..".toList

/-- An empty component and a dot stay where they are. -/
theorem push_stay {c : Str} (h : c = [] ∨ c = ".".toList) (stack : List Str) :
    push stack c = stack := if_pos h

theorem push_name {c : Str} (h : ¬ (c = [] ∨ c = ".".toList)) (hup : c ≠ "..".toList)
    (stack : List Str) : push stack c = c :: stack := by
  rw [push.eq_def, if_neg h, if_neg hup]

/-- Two dots go up, if there is a name to leave. -/
theorem push_up_of_notMem {stack : List Str} (h : "..".toList ∉ stack) (hne : stack ≠ []) :
    push stack "..".toList = stack.tail := by
  obtain ⟨top, rest, rfl⟩ := List.exists_cons_of_ne_nil hne
  have htop : top ≠ "..".toList := fun htop => h (htop ▸ List.mem_cons_self)
  rw [push.eq_def, if_neg (by decide), if_pos rfl]
  exact if_neg htop

/-- A name below a leading `..` or a path with one more `..`. -/
theorem getLast?_push_above {stack : List Str} (h : stack.getLast? = some "..".toList) (c : Str) :
    (push stack c).getLast? = some "..".toList := by
  obtain ⟨top, rest, rfl⟩ : ∃ top rest, stack = top :: rest :=
    List.exists_cons_of_ne_nil fun hnil => by simp [hnil] at h
  rw [push]
  split
  · exact h
  split
  · split
    · rw [List.getLast?_cons_cons]
      exact h
    · next htop =>
      cases rest with
      | nil => exact absurd (Option.some.inj h) htop
      | cons x rest => rwa [List.getLast?_cons_cons] at h
  · rw [List.getLast?_cons_cons]
    exact h

variable {root : Str}

/-- The position follows two dots. -/
theorem Position.Holds.up {pos : Position} {stack : List Str} (h : pos.Holds root stack) :
    (pos.move .up).Holds root (push stack "..".toList) := by
  cases pos with
  | inside d =>
    obtain ⟨hlen, hmem, hlast⟩ := h
    obtain ⟨top, rest, rfl⟩ := List.exists_cons_of_length_eq_add_one hlen
    have hrest : "..".toList ∉ rest := fun h => hmem (List.mem_cons_of_mem top h)
    rw [push_up_of_notMem hmem (List.cons_ne_nil _ _), List.tail_cons]
    cases d with
    | zero =>
      rw [List.length_eq_zero_iff.mp (Nat.succ.inj hlen)]
      exact ⟨rfl, List.not_mem_nil, by simp⟩
    | succ d =>
      obtain ⟨x, rest, rfl⟩ := List.exists_cons_of_length_eq_add_one (Nat.succ.inj hlen)
      rw [List.getLast?_cons_cons] at hlast
      exact ⟨Nat.succ.inj hlen, hrest, hlast⟩
  | beside d =>
    obtain ⟨hlen, hmem, hlast⟩ := h
    cases d with
    | zero =>
      rw [List.length_eq_zero_iff.mp hlen]
      rfl
    | succ d =>
      obtain ⟨top, rest, rfl⟩ := List.exists_cons_of_length_eq_add_one hlen
      have hrest : "..".toList ∉ rest := fun h => hmem (List.mem_cons_of_mem top h)
      rw [push_up_of_notMem hmem (List.cons_ne_nil _ _), List.tail_cons]
      refine ⟨Nat.succ.inj hlen, hrest, ?_⟩
      cases rest with
      | nil => simp
      | cons x rest => rwa [List.getLast?_cons_cons] at hlast
  | above => exact getLast?_push_above h _

/-- It follows a name. -/
theorem Position.Holds.down {pos : Position} {stack : List Str} (h : pos.Holds root stack)
    {c : Str} (hstay : ¬ (c = [] ∨ c = ".".toList)) (hup : c ≠ "..".toList) :
    (pos.move (.down (decide (c = root)))).Holds root (push stack c) := by
  cases pos with
  | inside d =>
    obtain ⟨hlen, hmem, hlast⟩ := h
    obtain ⟨top, rest, rfl⟩ := List.exists_cons_of_length_eq_add_one hlen
    rw [push_name hstay hup]
    refine ⟨by rw [List.length_cons, hlen], ?_, by rw [List.getLast?_cons_cons, hlast]⟩
    exact List.not_mem_cons_of_ne_of_not_mem (Ne.symm hup) hmem
  | beside d =>
    obtain ⟨hlen, hmem, hlast⟩ := h
    have hmem' := List.not_mem_cons_of_ne_of_not_mem (Ne.symm hup) hmem
    rw [push_name hstay hup]
    cases d with
    | zero =>
      have hnil := List.length_eq_zero_iff.mp hlen
      subst hnil
      by_cases hc : c = root
      · rw [decide_eq_true hc]
        exact ⟨rfl, hmem', by rw [hc]; rfl⟩
      · rw [decide_eq_false hc]
        exact ⟨rfl, hmem', by simpa using hc⟩
    | succ d =>
      obtain ⟨top, rest, rfl⟩ := List.exists_cons_of_length_eq_add_one hlen
      refine ⟨by rw [List.length_cons, hlen], hmem', ?_⟩
      rwa [List.getLast?_cons_cons]
  | above => exact getLast?_push_above h c

/-- A segment leads from position to position. -/
theorem Position.Holds.move {pos : Position} {stack : List Str} (h : pos.Holds root stack)
    (c : Str) : (pos.move (stepOf root c)).Holds root (push stack c) := by
  by_cases hstay : c = [] ∨ c = ".".toList
  · rw [stepOf, if_pos hstay, push_stay hstay]
    cases pos <;> exact h
  by_cases hup : c = "..".toList
  · rw [stepOf, if_neg hstay, if_pos hup, hup]
    exact h.up
  · rw [stepOf, if_neg hstay, if_neg hup]
    exact h.down hstay hup

/-- It follows any path. -/
theorem Position.Holds.run {pos : Position} {stack : List Str} (h : pos.Holds root stack)
    (cs : List Str) :
    ((cs.map (stepOf root)).foldl Position.move pos).Holds root (cs.foldl push stack) := by
  induction cs generalizing pos stack with
  | nil => exact h
  | cons c cs ih => exact ih (h.move c)

/-- A path is inside the directory exactly when its depth says so. -/
theorem inside_iff (hroot : root ≠ "..".toList) (path : Str) :
    Inside root path ↔
      (((components path).map (stepOf root)).foldl Position.move (.beside 0)).isInside = true := by
  have hstart : (Position.beside 0).Holds root [] := ⟨rfl, List.not_mem_nil, by simp⟩
  have hrun := hstart.run (components path)
  have hinside : Inside root path ↔
      2 ≤ ((components path).foldl push []).length ∧
        ((components path).foldl push []).getLast? = some root := by
    rw [Inside, normalise, ← List.length_reverse, ← List.head?_reverse]
    match ((components path).foldl push []).reverse with
    | [] => simp
    | [x] => simp
    | x :: y :: xs => simp
  rw [hinside]
  cases hpos : ((components path).map (stepOf root)).foldl Position.move (.beside 0) with
  | inside d =>
    rw [hpos] at hrun
    obtain ⟨hlen, -, hlast⟩ := hrun
    cases d with
    | zero => exact iff_of_false (fun h => by omega) Bool.false_ne_true
    | succ d => exact iff_of_true ⟨by omega, hlast⟩ rfl
  | beside d =>
    rw [hpos] at hrun
    exact iff_of_false (fun h => hrun.2.2 h.2) Bool.false_ne_true
  | above =>
    rw [hpos] at hrun
    refine iff_of_false (fun h => hroot ?_) Bool.false_ne_true
    exact Option.some.inj (h.2.symm.trans hrun)

end Lexical
