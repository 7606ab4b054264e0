import ScriptsMisc.Cdr.TabValidation

/-! # What is highlighted after a test

A tab shows one benefit at a time, and `selectBenefit` clears what was highlighted for the benefit
before. So a test that ends with a coverage leaves only the cells of its last benefit highlighted.
A cell is the parent node of an element; nothing but the library colours and marks cells, and a cell
that is coloured stays in its document until the next one is loaded.
-/

namespace Cdr

open Browser Tours
open Vbs (shown)

variable {σ κ : Type} {env : Env σ κ}

/-! ## The steps of a visit -/

/-- The step of `validateCell`. -/
def cell (env : Env σ κ) (page : Page) (x : Str) (colour : Colour) : List (Step κ) :=
  (env.parentNode page x).toList.map (.validateCell · colour)

/-- What happens to the cells of a field. -/
def Item.steps (env : Env σ κ) (page : Page) (item : Item) (pass : Bool) : List (Step κ) :=
  cell env page item.title .green ++ cell env page item.value (if pass then .green else .red)

/-- What happens to the cells at a visit. -/
def Visit.steps (env : Env σ κ) : Visit → List (Step κ)
  | .fields polNo page row items =>
    items.flatMap fun item =>
      item.steps env page ((item.result env page row polNo).any Result.pass)
  | .noRows _ _ _ _ => []

/-- A cell is coloured where the id leads to one. -/
theorem validateCell_steps (s : Session σ κ) (x : Str) (colour : Colour) :
    (s.validateCell env x colour).steps = s.steps ++ cell env s.document.page x colour := by
  rw [Session.validateCell, cell]
  cases env.parentNode s.document.page x with
  | none => exact (List.append_nil _).symm
  | some node => rfl

/-- A result colours the cells of its title and its value. -/
theorem highlight_steps (s : Session σ κ) (item : Item) (r : Result) :
    (s.highlight env item r).steps = s.steps ++ item.steps env s.document.page r.pass := by
  rw [Session.highlight, validateCell_steps, Item.steps, ← List.append_assoc]
  congr 1
  · exact validateCell_steps s _ _
  · rw [writeResults_toPlace, validateCell_toPlace]

/-- Results one after the other colour their cells in order. -/
theorem highlights_steps (s : Session σ κ) (checked : List (Item × Result)) :
    (s.highlights env checked).steps =
      s.steps ++ checked.flatMap fun c => c.1.steps env s.document.page c.2.pass := by
  induction checked generalizing s with
  | nil => exact (List.append_nil _).symm
  | cons c checked ih =>
    rw [highlights_cons, ih, highlight_steps, highlight_toPlace, List.flatMap_cons,
      List.append_assoc]

/-- The steps of fields that are compared with one row. -/
theorem validateItems_steps {row : Row} {rows : List Row} {items : List Item}
    {s s' : Session σ κ} (h : items.foldlM (validateItem env (row :: rows)) s = some s') :
    s'.steps = s.steps ++ (s.toPlace.fields row items).steps env := by
  rw [validateItems_cons, Option.map_eq_some_iff] at h
  obtain ⟨rs, hrs, rfl⟩ := h
  rw [highlights_steps]
  congr 1
  have hall := results_eq_some_iff.mp hrs
  show _ = items.flatMap _
  clear hrs
  induction hall with
  | nil => rfl
  | cons hr _ ih => rw [List.zip_cons_cons, List.flatMap_cons, List.flatMap_cons, ih, hr]; rfl

/-! ## The steps of a benefit and of a coverage -/

section Coverage

variable {pol_no eff_dt tab_nm html_id_pref : Str} {s s' : Session σ κ}

/-- What a benefit does to the cells: all are cleared, and its fields are highlighted. -/
theorem validateBenefit_steps {i : ℕ}
    (h : validateBenefit env pol_no eff_dt tab_nm s i = some s') :
    ∃ v, benefitTour env pol_no eff_dt tab_nm i s.toPlace = some ([v], s'.toPlace) ∧
      s'.steps = s.steps ++ .clearValidationHilighting :: v.steps env := by
  obtain ⟨rs, hrs, hrest⟩ := Option.bind_eq_some_iff.mp h
  cases rs with
  | nil =>
    obtain rfl := Option.some.inj hrest
    let p := s.toPlace.selectBenefit env i
    refine ⟨.noRows p.polNo tab_nm (i + 1) (shown p.bntpKey), ?_, rfl⟩
    rw [benefitTour, Option.bind_eq_some_iff]
    exact ⟨[], hrs, rfl⟩
  | cons row rows =>
    have hfields : (validateCovrTab tab_nm).foldlM (validateItem env (row :: rows))
        (waitLoad env (selectBenefit env i s)) = some s' := hrest
    have hplace : s'.toPlace = (waitLoad env (selectBenefit env i s)).toPlace := by
      rw [validateItems_cons, Option.map_eq_some_iff] at hfields
      obtain ⟨_, -, rfl⟩ := hfields
      exact highlights_toPlace _ _ _
    refine ⟨_, ?_, (validateItems_steps hfields).trans (List.append_assoc _ [_] _)⟩
    rw [benefitTour, Option.bind_eq_some_iff, hplace]
    exact ⟨row :: rows, hrs, rfl⟩

/-- A coverage clears all cells; its last benefit is highlighted after that. -/
theorem validateCoverage_steps
    (h : validateCoverage env pol_no eff_dt tab_nm html_id_pref s = some s') :
    ∃ visits before, coverageTour env pol_no eff_dt tab_nm html_id_pref s.toPlace =
        some (visits, s'.toPlace) ∧
      s'.steps = before ++ .clearValidationHilighting ::
        (visits.getLast?.elim [] (Visit.steps env)) := by
  obtain ⟨⟨n, p⟩, hn, hloop⟩ := Option.bind_eq_some_iff.mp h
  let s₀ := (clickTab env tab_nm s).goto (p.fixHtmlIDs html_id_pref)
  have hloop' : (List.range n).foldlM (validateBenefit env pol_no eff_dt tab_nm) s₀ = some s' :=
    hloop
  have htour : coverageTour env pol_no eff_dt tab_nm html_id_pref s.toPlace =
      Tour.each (benefitTour env pol_no eff_dt tab_nm) (List.range n) s₀.toPlace :=
    congrArg (fun o => Option.bind o _) hn
  rw [htour]
  cases n with
  | zero =>
    obtain rfl := Option.some.inj hloop'
    exact ⟨[], s.steps, rfl, rfl⟩
  | succ k =>
    rw [List.range_succ, List.foldlM_append, Option.bind_eq_bind, Option.bind_eq_some_iff]
      at hloop'
    obtain ⟨s₁, hbefore, hlast⟩ := hloop'
    obtain ⟨v, hv, hsteps⟩ := validateBenefit_steps
      (h := by simpa [List.foldlM_cons] using hlast)
    -- the first benefits lead to the place where the last one is selected
    obtain ⟨vs, -, hvs, -⟩ := (Follows.each (follows_benefit env pol_no eff_dt tab_nm)
      (List.range k)).exists_visits hbefore
    refine ⟨vs ++ [v], s₁.steps, ?_, ?_⟩
    · rw [List.range_succ, Tour.each_append]
      show (Tour.each _ _ s₀.toPlace).bind _ = _
      rw [show Tour.each _ _ s₀.toPlace = some (vs, s₁.toPlace) from hvs]
      simp [Tour.each, Tour.andThen, hv]
    · rw [hsteps, List.getLast?_append]
      rfl

end Coverage

/-! ## Only cells are checked -/

/-- Nothing but cells was checked. -/
def CellsOnly (steps : List (Step κ)) : Prop :=
  ∀ element pass, Step.validateElement element pass ∉ steps

/-- Nothing but cells is checked when it is so in both parts. -/
theorem cellsOnly_append {xs ys : List (Step κ)} :
    CellsOnly (xs ++ ys) ↔ CellsOnly xs ∧ CellsOnly ys := by
  simp only [CellsOnly, List.mem_append, not_or, forall_and]

theorem cellsOnly_clear : CellsOnly ([.clearValidationHilighting] : List (Step κ)) := by
  intro element pass hmem
  cases List.mem_singleton.mp hmem

/-- A visit does nothing but colour cells. -/
theorem eq_validateCell_of_mem {v : Visit} {t : Step κ} (h : t ∈ v.steps env) :
    ∃ node colour, t = .validateCell node colour := by
  cases v with
  | noRows => exact absurd h List.not_mem_nil
  | fields polNo page row items =>
    obtain ⟨item, -, ht⟩ := List.mem_flatMap.mp h
    rcases List.mem_append.mp ht with ht | ht
    · obtain ⟨node, -, rfl⟩ := List.mem_map.mp ht
      exact ⟨node, _, rfl⟩
    · obtain ⟨node, -, rfl⟩ := List.mem_map.mp ht
      exact ⟨node, _, rfl⟩

theorem cellsOnly_visit (v : Visit) : CellsOnly (v.steps env) := by
  intro element pass hmem
  obtain ⟨node, colour, heq⟩ := eq_validateCell_of_mem hmem
  cases heq

/-- No call checks anything but cells. -/
theorem cellsOnly_runCall {s s' : Session σ κ} {call : Call} (h : runCall env s call = some s')
    (hs : CellsOnly s.steps) : CellsOnly s'.steps := by
  have hclear : CellsOnly (s.steps ++ [.clearValidationHilighting]) :=
    cellsOnly_append.mpr ⟨hs, cellsOnly_clear⟩
  cases call with
  | viewCDR policyNo =>
    obtain rfl := Option.some.inj h
    exact fun _ _ => List.not_mem_nil
  | validateCoverage cov pol_no eff_dt =>
    obtain ⟨⟨n, p⟩, -, hloop⟩ := Option.bind_eq_some_iff.mp h
    refine foldlM_keeps (I := fun s => CellsOnly s.steps) (fun s i s' hround hs => ?_) hloop hclear
    obtain ⟨v, -, hsteps⟩ := validateBenefit_steps hround
    rw [hsteps]
    exact cellsOnly_append.mpr ⟨hs, cellsOnly_append.mpr ⟨cellsOnly_clear, cellsOnly_visit v⟩⟩
  | validatePolicy pol_no =>
    obtain ⟨rs, -, hfields⟩ := Option.bind_eq_some_iff.mp h
    cases rs with
    | nil =>
      rw [validateItems_nil validatePolicyFields_ne_nil] at hfields
      cases hfields
    | cons row rows =>
      rw [validateItems_steps hfields]
      exact cellsOnly_append.mpr ⟨hclear, cellsOnly_visit _⟩

/-! ## What is red -/

/-- The cell is that of the value of a field that does not agree, and of no field behind it. -/
def Visit.Red (env : Env σ κ) (x : κ) : Visit → Prop
  | .fields _ page row items => ∃ before item after, items = before ++ item :: after ∧
      env.parentNode page item.value = some x ∧ ¬ item.Agrees env page row ∧
        ∀ later ∈ after, env.parentNode page later.title ≠ some x ∧
          env.parentNode page later.value ≠ some x
  | .noRows _ _ _ _ => False

/-- The last field either is the one, or does not have the cell. -/
theorem red_concat_iff (polNo : Option Str) (page : Page) (row : Row) (items : List Item)
    (item : Item) (x : κ) :
    (Visit.fields polNo page row (items ++ [item])).Red env x ↔
      env.parentNode page item.value = some x ∧ ¬ item.Agrees env page row ∨
      (env.parentNode page item.title ≠ some x ∧ env.parentNode page item.value ≠ some x) ∧
        (Visit.fields polNo page row items).Red env x := by
  constructor
  · rintro ⟨before, found, after, hsplit, hvalue, hdisagree, hlater⟩
    rcases List.eq_nil_or_concat after with rfl | ⟨after, last, rfl⟩
    · obtain ⟨-, hitem⟩ := List.append_inj' hsplit rfl
      obtain rfl := List.singleton_inj.mp hitem
      exact .inl ⟨hvalue, hdisagree⟩
    · rw [List.concat_eq_append] at hsplit hlater
      rw [← List.cons_append, ← List.append_assoc] at hsplit
      obtain ⟨hitems, hitem⟩ := List.append_inj' hsplit rfl
      obtain rfl := List.singleton_inj.mp hitem
      rw [List.forall_mem_append] at hlater
      exact .inr ⟨hlater.2 item List.mem_cons_self,
        before, found, after, hitems, hvalue, hdisagree, hlater.1⟩
  · rintro (⟨hvalue, hdisagree⟩ | ⟨hother, before, found, after, rfl, hvalue, hdisagree, hlater⟩)
    · exact ⟨items, item, [], rfl, hvalue, hdisagree, List.forall_mem_nil _⟩
    · refine ⟨before, found, after ++ [item], by simp, hvalue, hdisagree, ?_⟩
      exact List.forall_mem_append.mpr ⟨hlater, List.forall_mem_singleton.mpr hother⟩

/-- A result is wrong exactly when the field does not agree. -/
theorem pass_eq_false_iff (page : Page) (row : Row) (polNo : Option Str) (item : Item) :
    (item.result env page row polNo).any Result.pass = false ↔ ¬ item.Agrees env page row := by
  rw [← result_pass_iff polNo, ← Bool.not_eq_true, Option.any_eq_true]

variable [DecidableEq κ]

/-- The cell of an id is the only one that is marked. -/
theorem lastMark_cell (page : Page) (id : Str) (colour : Colour) (x : κ) :
    lastMark x (cell env page id colour) =
      if env.parentNode page id = some x then some ⟨some colour, some true⟩ else none := by
  rw [cell, lastMark]
  cases env.parentNode page id with
  | none => rfl
  | some node =>
    by_cases hx : node = x <;> simp [Step.mark, hx]

/-- A field sets the mark of a cell for its value, else for its title. -/
theorem lastMark_item (page : Page) (item : Item) (pass : Bool) (x : κ) :
    lastMark x (item.steps env page pass) =
      if env.parentNode page item.value = some x then
        some ⟨some (if pass then .green else .red), some true⟩
      else if env.parentNode page item.title = some x then some ⟨some .green, some true⟩
      else none := by
  rw [Item.steps, lastMark_append, lastMark_cell, lastMark_cell]
  split <;> rfl

/-- The last field that has a cell decides whether it is red. -/
theorem red_fields_iff (polNo : Option Str) (page : Page) (row : Row) (items : List Item) (x : κ) :
    (lastMark x ((Visit.fields polNo page row items).steps env)).bind Mark.background =
        some .red ↔ (Visit.fields polNo page row items).Red env x := by
  induction items using List.reverseRecOn with
  | nil =>
    refine iff_of_false (by simp [Visit.steps, lastMark]) ?_
    rintro ⟨before, item, after, hsplit, -⟩
    cases before <;> cases hsplit
  | append_singleton items item ih =>
    have hsteps : (Visit.fields polNo page row (items ++ [item])).steps env =
        (Visit.fields polNo page row items).steps env ++
          item.steps env page ((item.result env page row polNo).any Result.pass) := by
      simp [Visit.steps]
    rw [hsteps, lastMark_append, lastMark_item, red_concat_iff]
    by_cases hvalue : env.parentNode page item.value = some x
    · rw [if_pos hvalue, Option.some_or, Option.bind_some, and_iff_right hvalue,
        ← pass_eq_false_iff page row polNo item]
      cases (item.result env page row polNo).any Result.pass <;> simp [hvalue]
    · rw [if_neg hvalue]
      by_cases htitle : env.parentNode page item.title = some x
      · simp [htitle, hvalue]
      · rw [if_neg htitle, Option.none_or, ih]
        simp [htitle, hvalue]

/-- After a visit a cell is red exactly when it is that of a field that does not agree. -/
theorem red_visit_iff (v : Visit) (x : κ) :
    (lastMark x (v.steps env)).bind Mark.background = some .red ↔ v.Red env x := by
  cases v with
  | fields polNo page row items => exact red_fields_iff polNo page row items x
  | noRows => exact iff_of_false (by simp [Visit.steps, lastMark]) id

/-- After a test that ends with a coverage a cell is red exactly when at the last visit of that
coverage it is the cell of the value of a field that does not agree, and of no field behind it. What
was red before, for earlier benefits, calls and tabs, is not red any more. -/
theorem red_iff {calls : List Call} {cov : Coverage} {pol_no eff_dt : Str}
    {document : Document σ} {s : Session σ κ}
    (h : runCalls env (calls ++ [.validateCoverage cov pol_no eff_dt]) (.start document) =
      some s) :
    ∃ before p visits,
      testTour env calls (Session.start (κ := κ) document).toPlace = some (before, p) ∧
      coverageTour env pol_no eff_dt cov.tabName cov.htmlIdPref p = some (visits, s.toPlace) ∧
      ∀ x, (run s.steps x).background = some .red ↔ ∃ v ∈ visits.getLast?, v.Red env x := by
  rw [runCalls, List.foldlM_append, Option.bind_eq_bind, Option.bind_eq_some_iff] at h
  obtain ⟨s₀, hbefore, hlast⟩ := h
  have hcall : runCall env s₀ (.validateCoverage cov pol_no eff_dt) = some s := by
    simpa [List.foldlM_cons] using hlast
  obtain ⟨before, -, htour, -⟩ := (follows_runCalls env calls).exists_visits hbefore
  obtain ⟨visits, earlier, hvisits, hsteps⟩ := validateCoverage_steps hcall
  refine ⟨before, _, visits, htour, hvisits, fun x => ?_⟩
  have hcells₀ : CellsOnly s₀.steps :=
    foldlM_keeps (I := fun s => CellsOnly s.steps) (fun _ _ _ => cellsOnly_runCall) hbefore
      fun _ _ => List.not_mem_nil
  rw [background_of_cells (cellsOnly_runCall hcall hcells₀), hsteps]
  cases hv : visits.getLast? with
  | none =>
    rw [Option.elim_none, sinceClear_clear]
    simp [lastMark]
  | some v =>
    rw [Option.elim_some, sinceClear_append earlier fun t ht => ?_, red_visit_iff]
    · simp
    · obtain ⟨node, colour, rfl⟩ := eq_validateCell_of_mem ht
      exact fun h => by cases h

/-- A row with a text in every column of the gap tab. -/
def gapRow : Row where
  columns := (validateCovrTab Coverage.gap.tabName).filterMap fun
    | .field _ col _ => some (col, some ['1'])
    | .eoi => none

def wellnessId : Str := "VALUE_Gap_wellness".toList

/-- A gap tab with two benefits, of which the second has a row; the field `Wellness` shows something
else. -/
def wellnessEnv : Env Unit Str where
  cDate := some
  sqlFile := fun _ => some "N_BNTP_KEY_IN".toList
  query := fun sql => some (if sql = ['2'] then [gapRow] else [])
  innertext := fun _ x => some (if x = wellnessId then ['2'] else ['1'])
  parentNode := fun _ x => some x
  search := fun _ document => document
  click := fun _ document => document
  itemsCount := fun _ document => some (2, document)
  select := fun _ index document => (numberText (index + 1), document)
  load := id

/-- The run of these two calls leaves the cell red. -/
theorem runCalls_wellness :
    (runCalls wellnessEnv ([.viewCDR ['7']] ++ [.validateCoverage .gap ['7'] []])
      (.start ⟨(), []⟩)).map (fun s => (run s.steps wellnessId).background) =
        some (some .red) := by
  decide +kernel

/-- The cell of that field is red, as it is at the last visit. -/
theorem red_iff_wellness : ∃ visits v, visits.getLast? = some v ∧
    v.Red wellnessEnv wellnessId ∧ ∃ before p p',
      testTour wellnessEnv [.viewCDR ['7']] (Session.start (κ := Str) ⟨(), []⟩).toPlace =
        some (before, p) ∧
      coverageTour wellnessEnv ['7'] [] Coverage.gap.tabName Coverage.gap.htmlIdPref p =
        some (visits, p') := by
  obtain ⟨s, hs, hred⟩ := Option.map_eq_some_iff.mp runCalls_wellness
  obtain ⟨before, p, visits, htour, hvisits, hiff⟩ := red_iff hs
  obtain ⟨v, hv, hcell⟩ := (hiff wellnessId).mp hred
  exact ⟨visits, v, hv, hcell, before, p, _, htour, hvisits⟩

end Cdr
