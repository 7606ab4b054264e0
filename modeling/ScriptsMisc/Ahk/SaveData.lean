import ScriptsMisc.Lib.Records
import ScriptsMisc.Lib.Text

/-! # Saved settings

`case_select_gui.ahk` and `CompassMain.ahk` keep their settings in a file of `name|value` lines;
the Solar script appends one more line when its main button is pressed. Reading the file splits
each line at every character of the text `"|"`, quotation marks included, and assigns the second
part to the variable that the first part names.

A function has variables of its own. Those that it spells out are global only where the script
declares them `global` outside its functions, and the scripts that include `case_select_gui.ahk` do
not all declare the same ones.
-/

namespace SaveData

open Records

/-- Variables by name. AutoHotkey takes the letters of a name in either case; here a name is spelled
as `setSaveData` spells it. -/
abbrev Vars := Str → Str

/-- A name that a function spells out is that of a variable of its own, unless it is among the names
that the script declares to be global. -/
def Own (globals spelled : List Str) (name : Str) : Prop := name ∈ spelled ∧ name ∉ globals

instance (globals spelled : List Str) (name : Str) : Decidable (Own globals spelled name) :=
  inferInstanceAs (Decidable (_ ∧ _))

/-- The variables as a function finds them when it is called: its own are blank, and every other
name, as a dynamic reference may have it, is that of a global variable. -/
def enter (globals spelled : List Str) (vars : Vars) : Vars :=
  fun name => if Own globals spelled name then [] else vars name

/-- The global variables when the function is over, given how it leaves the ones it sees. -/
def leave (globals spelled : List Str) (vars after : Vars) : Vars :=
  fun name => if Own globals spelled name then vars name else after name

/-- `stringSplit, out, input, delimiters`: every character of the delimiters is one. -/
def stringSplit (delimiters input : Str) : List Str :=
  if input = [] then [] else input.splitOnP (· ∈ delimiters)

/-- The third parameter of `stringSplit` in `getSaveData`. -/
def delimiters : Str := ['"', '|', '"']

/-- `Loop, read`: the lines of a file without their line ends. -/
def loopRead (text : Str) : List Str :=
  (lines '\n' text).map fun l => if l.getLast? = some '\r' then l.dropLast else l

/-- The variables that change inside the loop of `getSaveData`. -/
structure Reader where
  curLine1 : Str
  curLine2 : Str
  vars : Vars

/-- The loop body. A part that a line does not have keeps its value from the line before. -/
def readLine (s : Reader) (l : Str) : Reader :=
  let curLine := stringSplit delimiters l
  let curLine1 := curLine[0]?.getD s.curLine1
  let curLine2 := curLine[1]?.getD s.curLine2
  ⟨curLine1, curLine2, Function.update s.vars curLine1 curLine2⟩

/-- The part of `getSaveData` below the defaults, with no file or the text of the file. -/
def restore (vars : Vars) : Option Str → Vars
  | none => vars
  | some text => ((loopRead text).foldl readLine ⟨[], [], vars⟩).vars

/-- ``fileAppend, name|%name%`n``. -/
def fileAppend (name value : Str) (file : Option Str) : Option Str :=
  some (file.getD [] ++ (name ++ '|' :: value ++ ['\n']))

/-- `fileDelete`, and one `fileAppend` for each name. -/
def rewrite (names : List Str) (vars : Vars) : Option Str :=
  names.foldl (fun file name => fileAppend name (vars name) file) none

end SaveData

/-! ## The scripts -/

namespace CaseSelect

open SaveData

/-- What `browser_controls.ahk` and `case_select_gui.ahk` declare to be global. -/
def libraryGlobals : List Str :=
  ["address_bar".toList, "alertTitle".toList, "browser".toList, "browserName".toList,
    "envString".toList, "suffix".toList, "DevSel".toList, "StageSel".toList, "ProdSel".toList,
    "debugEnabled".toList, "theTitle".toList, "buttonLabel".toList, "outputDir".toList,
    "caseListFile".toList, "saveDataFile".toList, "userNamePreset".toList,
    "passWordPreset".toList, "envPreset".toList, "winXpos".toList, "winYpos".toList,
    "noOutput".toList]

/-- A script that includes `case_select_gui.ahk`, with what it declares to be global itself. -/
structure Script where
  declared : List Str

def Script.globals (script : Script) : List Str := libraryGlobals ++ script.declared

/-- `Solar B_W.ahk` with `solar_functions.ahk`: the user name, the password and the environment are
not declared. -/
def solar : Script :=
  ⟨["effDate".toList, "group_list".toList, "plan_list".toList, "doc_list".toList,
    "solar_id".toList, "group_crit_id".toList]⟩

/-- `b_w.ahk`. -/
def b_w : Script :=
  ⟨["env".toList, "userNameSaved".toList, "passWordSaved".toList, "outputDir".toList]⟩

/-- The variables that `setSaveData` of `case_select_gui.ahk` writes. -/
def names : List Str :=
  ["caseListFile".toList, "outputDir".toList, "userNameSaved".toList, "passWordSaved".toList,
    "env".toList, "winXpos".toList, "winYpos".toList, "effDate".toList]

/-- `setSaveData` spells out every name that it writes. -/
def setSaveData (script : Script) (vars : Vars) : Option Str :=
  rewrite names (enter script.globals names vars)

/-- The names that `getSaveData` spells out; `effDate` comes from the file alone. -/
def spelled : List Str :=
  ["caseListFile".toList, "outputDir".toList, "userNameSaved".toList, "userNamePreset".toList,
    "passWordSaved".toList, "passWordPreset".toList, "env".toList, "envPreset".toList,
    "saveDataFile".toList, "curLine1".toList, "varName".toList, "val".toList,
    "curLine2".toList]

def getSaveData (script : Script) (vars : Vars) (file : Option Str) : Vars :=
  let inside := enter script.globals spelled vars
  let inside := Function.update inside "caseListFile".toList
    (inside "A_ScriptDir".toList ++ "\\cases.txt".toList)
  let inside := Function.update inside "outputDir".toList (inside "A_WorkingDir".toList)
  let inside := Function.update inside "userNameSaved".toList (inside "userNamePreset".toList)
  let inside := Function.update inside "passWordSaved".toList (inside "passWordPreset".toList)
  let inside := Function.update inside "env".toList (inside "envPreset".toList)
  leave script.globals spelled vars (restore inside file)

/-- `SolarMainButton`, up to the jump into the shared button code. It is no function: the names in
it are those of global variables. -/
def solarMainButton (effDate : Str) (file : Option Str) : Option Str :=
  fileAppend "effDate".toList effDate file

/-- What happens to the file; the values are those of the moment. `SolarMainButton` stands in the
script that declares `effDate`. -/
inductive Event (script : Script) where
  | setSaveData (vars : Vars)
  | solarMainButton (declares : "effDate".toList ∈ script.globals) (effDate : Str)

def step {script : Script} (file : Option Str) : Event script → Option Str
  | .setSaveData vars => setSaveData script vars
  | .solarMainButton _ effDate => solarMainButton effDate file

end CaseSelect

namespace Compass

open SaveData

/-- What `CompassMain.ahk` declares to be global. -/
def globals : List Str :=
  ["winXpos".toList, "winYpos".toList, "subDomain".toList, "dbName".toList, "saveLogin".toList,
    "userNamePreset".toList, "passWordPreset".toList, "userNameSaved".toList,
    "passWordSaved".toList, "envPreset".toList, "saveDataFile".toList, "buildSel".toList,
    "stageSel".toList, "compassSel".toList, "trainSel".toList, "testSel".toList]

/-- The variables that `setSaveData` of `CompassMain.ahk` writes. -/
def names : List Str :=
  ["userNameSaved".toList, "passWordSaved".toList, "compassSel".toList, "stageSel".toList,
    "trainSel".toList, "testSel".toList, "buildSel".toList, "dbName".toList, "winXpos".toList,
    "winYpos".toList]

/-- Nothing is written without `SaveLogin`. -/
def setSaveData (saveLogin : Bool) (vars : Vars) (file : Option Str) : Option Str :=
  if saveLogin then rewrite names (enter globals names vars) else file

/-- The names that `getSaveData` spells out. -/
def spelled : List Str :=
  ["caseListFile".toList, "outputDir".toList, "userNameSaved".toList, "userNamePreset".toList,
    "passWordSaved".toList, "passWordPreset".toList, "dbName".toList, "saveDataFile".toList,
    "curLine1".toList, "varName".toList, "val".toList, "curLine2".toList]

def getSaveData (vars : Vars) (file : Option Str) : Vars :=
  let inside := enter globals spelled vars
  let inside := Function.update inside "caseListFile".toList
    (inside "A_ScriptDir".toList ++ "\\cases.txt".toList)
  let inside := Function.update inside "outputDir".toList (inside "A_WorkingDir".toList)
  let inside := Function.update inside "userNameSaved".toList (inside "userNamePreset".toList)
  let inside := Function.update inside "passWordSaved".toList (inside "passWordPreset".toList)
  let inside := Function.update inside "dbName".toList "stage".toList
  leave globals spelled vars (restore inside file)

structure Event where
  saveLogin : Bool
  vars : Vars

def step (file : Option Str) (e : Event) : Option Str := setSaveData e.saveLogin e.vars file

end Compass

namespace SaveData

open Records

/-! ## The file as a list of records -/

/-- What a handler does to the list of records. -/
inductive Write where
  | rewrite (vars : Vars)
  | append (name value : Str)

/-- The records of the file. -/
def Write.log (names : List Str) (es : List (Str × Str)) : Write → List (Str × Str)
  | .rewrite vars => names.map fun name => (name, vars name)
  | .append name value => es ++ [(name, value)]

/-- The file itself. -/
def Write.apply (names : List Str) (file : Option Str) : Write → Option Str
  | .rewrite vars => SaveData.rewrite names vars
  | .append name value => fileAppend name value file

/-- The value last written for a variable, given what was written before. -/
def Write.last (names : List Str) (name : Str) (last : Option Str) : Write → Option Str
  | .rewrite vars => if name ∈ names then some (vars name) else last
  | .append name' value => if name' = name then some value else last

/-- The lines of more records come after those of the first. -/
theorem render_append (es fs : List (Str × Str)) :
    render '\n' '|' (es ++ fs) = render '\n' '|' es ++ render '\n' '|' fs :=
  List.flatMap_append

/-- A rewritten file has a line for every name. -/
theorem rewrite_eq_render (names : List Str) (vars : Vars) :
    (rewrite names vars).getD [] = render '\n' '|' (names.map fun name => (name, vars name)) := by
  have hloop : ∀ (ns : List Str) (file : Option Str),
      (ns.foldl (fun file name => fileAppend name (vars name) file) file).getD [] =
        file.getD [] ++ render '\n' '|' (ns.map fun name => (name, vars name)) := by
    intro ns
    induction ns with
    | nil => simp [render]
    | cons n ns ih =>
      intro file
      rw [List.foldl_cons, ih, fileAppend, Option.getD_some, List.map_cons, List.append_assoc]
      rfl
  exact hloop names none

/-- The file is the text of its records. -/
theorem apply_eq_render (names : List Str) (file : Option Str) (es : List (Str × Str))
    (h : file.getD [] = render '\n' '|' es) (w : Write) :
    (w.apply names file).getD [] = render '\n' '|' (w.log names es) := by
  cases w with
  | rewrite vars => exact rewrite_eq_render names vars
  | append name value =>
    show file.getD [] ++ _ = _
    rw [h, Write.log, render_append]
    simp [render, line]

/-- The file after some writes holds the records that were logged. -/
theorem foldl_apply_eq_render (names : List Str) (ws : List Write) :
    (ws.foldl (Write.apply names) none).getD [] =
      render '\n' '|' (ws.foldl (Write.log names) []) := by
  have hloop : ∀ (ws : List Write) (file : Option Str) (es : List (Str × Str)),
      file.getD [] = render '\n' '|' es →
      (ws.foldl (Write.apply names) file).getD [] =
        render '\n' '|' (ws.foldl (Write.log names) es) := by
    intro ws
    induction ws with
    | nil => exact fun file es h => h
    | cons w ws ih => exact fun file es h => ih _ _ (apply_eq_render names file es h w)
  exact hloop ws none [] rfl

/-- The records know the value last written for a variable. -/
theorem lastValue_log (names : List Str) (ws : List Write) {name : Str} (hname : name ∈ names) :
    lastValue name (ws.foldl (Write.log names) []) = ws.foldl (Write.last names name) none := by
  have hloop : ∀ (ws : List Write) (es : List (Str × Str)) (last : Option Str),
      lastValue name es = last →
      lastValue name (ws.foldl (Write.log names) es) = ws.foldl (Write.last names name) last := by
    intro ws
    induction ws with
    | nil => exact fun es last h => h
    | cons w ws ih =>
      intro es last h
      apply ih
      cases w with
      | rewrite vars =>
        show lastValue name (names.map fun name => (name, vars name)) = _
        rw [lastValue_map, Write.last, if_pos hname, if_pos hname]
      | append name' value =>
        show lastValue name (es ++ [(name', value)]) = if name' = name then some value else last
        rw [lastValue_append, h, lastValue, lastValue, Option.none_or]
        split
        · rfl
        · rfl
  exact hloop ws [] none rfl

/-! ## Reading the file back -/

/-- A line is split at bars and quotes. -/
theorem not_mem_delimiters_iff {c : Char} : c ∉ delimiters ↔ c ≠ '|' ∧ c ≠ '"' := by
  simp only [delimiters, List.mem_cons, List.not_mem_nil, or_false]
  tauto

/-- A text on one line. -/
def OneLine (s : Str) : Prop := '\n' ∉ s ∧ '\r' ∉ s

/-- A name that the reader finds again. -/
def IsName (name : Str) : Prop := OneLine name ∧ ∀ c ∈ name, c ∉ delimiters

/-- The names that a script writes are checked letter by letter. -/
theorem forall_isName {names : List Str}
    (h : names.all (fun name => name.all fun c =>
      decide (c ∉ delimiters ∧ c ≠ '\n' ∧ c ≠ '\r')) = true) :
    ∀ name ∈ names, IsName name := by
  intro name hname
  have hall := Text.forall_mem_of_all (List.all_eq_true.mp h name hname)
  refine ⟨⟨fun hc => ?_, fun hc => ?_⟩, fun c hc => (hall c hc).1⟩
  · exact (hall _ hc).2.1 rfl
  · exact (hall _ hc).2.2 rfl

/-- A record on one line. -/
def IsRecord (e : Str × Str) : Prop := IsName e.1 ∧ OneLine e.2

/-- What the reader keeps of a value. -/
def firstPart (value : Str) : Str := value.takeWhile fun c => !decide (c ∈ delimiters)

/-- A character that is neither in the name nor in the value nor the bar is not in the line. -/
theorem not_mem_line {e : Str × Str} {c : Char} (hname : c ∉ e.1) (hvalue : c ∉ e.2)
    (hc : c ≠ '|') : c ∉ line '|' e := by
  unfold line
  rw [List.mem_append, List.mem_cons]
  rintro (h | h | h)
  · exact hname h
  · exact hc h
  · exact hvalue h

/-- Records are read back line by line. -/
theorem loopRead_render {es : List (Str × Str)} (hes : ∀ e ∈ es, IsRecord e) :
    loopRead (render '\n' '|' es) = es.map (line '|') := by
  rw [loopRead, lines_render fun e he =>
    not_mem_line (hes e he).1.1.1 (hes e he).2.1 (by decide), List.map_map]
  apply List.map_congr_left
  intro e he
  have hr : '\r' ∉ line '|' e :=
    not_mem_line (hes e he).1.1.2 (hes e he).2.2 (by decide)
  exact if_neg fun hlast => hr (List.mem_of_getLast? hlast)

/-- One line sets the variable it names to the first part of its value. -/
theorem readLine_line (s : Reader) {e : Str × Str} (he : IsRecord e) :
    readLine s (line '|' e) =
      ⟨e.1, firstPart e.2, Function.update s.vars e.1 (firstPart e.2)⟩ := by
  have hne : line '|' e ≠ [] := by
    unfold line
    exact List.append_ne_nil_of_right_ne_nil _ (List.cons_ne_nil _ _)
  have hsplit : stringSplit delimiters (line '|' e) =
      e.1 :: e.2.splitOnP (· ∈ delimiters) := by
    rw [stringSplit, if_neg hne]
    exact splitOnP_line (by decide) fun c hc => decide_eq_false (he.1.2 c hc)
  have hfirst := getElem?_zero_splitOnP (fun c => decide (c ∈ delimiters)) e.2
  simp only [readLine, hsplit, List.getElem?_cons_zero, List.getElem?_cons_succ, hfirst,
    Option.getD_some]
  rfl

/-- The file sets each variable to the first part of its last value. -/
theorem restore_render {file : Option Str} {es : List (Str × Str)}
    (hfile : file.getD [] = render '\n' '|' es) (hes : ∀ e ∈ es, IsRecord e) (vars : Vars)
    (name : Str) :
    restore vars file name = ((lastValue name es).map firstPart).getD (vars name) := by
  have hloop : ∀ (es : List (Str × Str)) (s : Reader), (∀ e ∈ es, IsRecord e) →
      ((es.map (line '|')).foldl readLine s).vars =
        es.foldl (fun vars e => Function.update vars e.1 (firstPart e.2)) s.vars := by
    intro es
    induction es with
    | nil => exact fun s _ => rfl
    | cons e es ih =>
      intro s h
      rw [List.forall_mem_cons] at h
      rw [List.map_cons, List.foldl_cons, readLine_line s h.1, ih _ h.2]
      rfl
  have htext : restore vars file =
      ((loopRead (file.getD [])).foldl readLine ⟨[], [], vars⟩).vars := by
    cases file with
    | none => rfl
    | some text => rfl
  rw [htext, hfile, loopRead_render hes, hloop es _ hes, foldl_update]

/-- A handler writes on one line. -/
def Write.OneLine (names : List Str) : Write → Prop
  | .rewrite vars => ∀ name ∈ names, SaveData.OneLine (vars name)
  | .append name value => IsName name ∧ SaveData.OneLine value

/-- A write without line ends logs records. -/
theorem isRecord_log {names : List Str} (hnames : ∀ name ∈ names, IsName name)
    {es : List (Str × Str)} (hes : ∀ e ∈ es, IsRecord e) {w : Write} (hw : w.OneLine names) :
    ∀ e ∈ w.log names es, IsRecord e := by
  cases w with
  | rewrite vars =>
    intro e he
    obtain ⟨name, hname, rfl⟩ := List.mem_map.mp he
    exact ⟨hnames name hname, hw name hname⟩
  | append name value =>
    intro e he
    rcases List.mem_append.mp he with he | he
    · exact hes e he
    · obtain rfl := List.mem_singleton.mp he
      exact hw

theorem isRecord_foldl_log {names : List Str} (hnames : ∀ name ∈ names, IsName name)
    {ws : List Write} (hws : ∀ w ∈ ws, w.OneLine names) :
    ∀ e ∈ ws.foldl (Write.log names) [], IsRecord e := by
  have hloop : ∀ (ws : List Write) (es : List (Str × Str)), (∀ w ∈ ws, w.OneLine names) →
      (∀ e ∈ es, IsRecord e) → ∀ e ∈ ws.foldl (Write.log names) es, IsRecord e := by
    intro ws
    induction ws with
    | nil => exact fun es _ h => h
    | cons w ws ih =>
      intro es hws hes
      rw [List.forall_mem_cons] at hws
      exact ih _ hws.2 (isRecord_log hnames hes hws.1)
  exact hloop ws [] hws fun e he => absurd he List.not_mem_nil

/-- A restored value is the value last written when that holds no delimiter, and no other is. -/
theorem restore_eq_last_iff {names : List Str} (hnames : ∀ name ∈ names, IsName name)
    {ws : List Write} (hws : ∀ w ∈ ws, w.OneLine names) (vars : Vars) {name value : Str}
    (hname : name ∈ names) (hlast : ws.foldl (Write.last names name) none = some value) :
    restore vars (ws.foldl (Write.apply names) none) name = value ↔
      ∀ c ∈ value, c ∉ delimiters := by
  rw [restore_render (foldl_apply_eq_render names ws) (isRecord_foldl_log hnames hws),
    lastValue_log names ws hname, hlast, Option.map_some, Option.getD_some, firstPart,
    takeWhile_eq_iff]
  simp only [decide_eq_false_iff_not]

end SaveData

/-! ## The two libraries -/

namespace CaseSelect

open SaveData

variable {script : Script}

/-- The value that a variable had when it was last to be written. -/
def lastWritten (name : Str) (events : List (Event script)) : Option Str :=
  events.foldl (fun last e =>
    match e with
    | .setSaveData vars => if name ∈ names then some (vars name) else last
    | .solarMainButton _ effDate => if "effDate".toList = name then some effDate else last) none

/-- The values have no line breaks. -/
def Event.OneLine : Event script → Prop
  | .setSaveData vars => ∀ name ∈ names, SaveData.OneLine (vars name)
  | .solarMainButton _ effDate => SaveData.OneLine effDate

/-- What an event writes: `setSaveData` reads blank variables of its own for those that the script
does not declare. -/
def Event.write : Event script → Write
  | .setSaveData vars => .rewrite (enter script.globals names vars)
  | .solarMainButton _ effDate => .append "effDate".toList effDate

/-- When `getSaveData` gives a variable of the script a value that it had when it was last to be
written. A variable that the script does not declare is neither read by `setSaveData` nor set by
`getSaveData`, except for `effDate`, which is set to the blank that was written. -/
def Restorable (script : Script) (vars : Vars) (name value : Str) : Prop :=
  if name ∈ script.globals then ∀ c ∈ value, c ≠ '|' ∧ c ≠ '"'
  else if name = "effDate".toList then value = []
  else vars name = value

/-- The names of the variables that are saved hold no delimiters. -/
theorem isName_names : ∀ name ∈ names, IsName name := forall_isName (by decide)

/-- The file after some events is what their writes leave. -/
theorem foldl_step (events : List (Event script)) (file : Option Str) :
    events.foldl step file = (events.map Event.write).foldl (Write.apply names) file := by
  rw [List.foldl_map]
  apply congrArg (fun f => events.foldl f file)
  funext file e
  cases e with
  | setSaveData vars => rfl
  | solarMainButton declares effDate => rfl

/-- Of a variable that the script declares, what it holds is written, and of any other a blank. -/
theorem last_write_eq {name : Str} (hname : name ∈ names) (events : List (Event script)) :
    (events.map Event.write).foldl (Write.last names name) none =
      (lastWritten name events).map fun value => if name ∈ script.globals then value else [] := by
  have hloop : ∀ (events : List (Event script)) (last : Option Str),
      (events.map Event.write).foldl (Write.last names name)
          (last.map fun value => if name ∈ script.globals then value else []) =
        (events.foldl (fun last e =>
          match e with
          | .setSaveData vars => if name ∈ names then some (vars name) else last
          | .solarMainButton _ effDate => if "effDate".toList = name then some effDate else last)
          last).map fun value => if name ∈ script.globals then value else [] := by
    intro events
    induction events with
    | nil => exact fun last => rfl
    | cons e events ih =>
      intro last
      rw [List.map_cons, List.foldl_cons, List.foldl_cons, ← ih]
      apply congrArg (List.foldl _ · _)
      cases e with
      | setSaveData vars =>
        by_cases hglobal : name ∈ script.globals
        · simp [Event.write, Write.last, enter, Own, hname, hglobal]
        · simp [Event.write, Write.last, enter, Own, hname, hglobal]
      | solarMainButton declares effDate =>
        rw [Event.write, Write.last]
        by_cases heq : "effDate".toList = name
        · have hglobal : name ∈ script.globals := heq ▸ declares
          simp only [if_pos heq, Option.map_some, if_pos hglobal]
        · simp only [if_neg heq]
  exact hloop events none

theorem oneLine_write {events : List (Event script)} (hevents : ∀ e ∈ events, e.OneLine) :
    ∀ w ∈ events.map Event.write, w.OneLine names := by
  intro w hw
  obtain ⟨e, he, rfl⟩ := List.mem_map.mp hw
  have hline := hevents e he
  cases e with
  | setSaveData vars =>
    intro name hname
    rw [enter]
    split
    · exact ⟨List.not_mem_nil, List.not_mem_nil⟩
    · exact hline name hname
  | solarMainButton declares effDate => exact ⟨isName_names _ (by decide), hline⟩

/-- Of the saved variables, `effDate` alone is neither declared by the library nor spelled out by
`getSaveData`. -/
theorem mem_spelled_iff {name : Str} (hname : name ∈ names) (hown : name ∉ script.globals) :
    name ∈ spelled ↔ name ≠ "effDate".toList := by
  have hcases : ∀ name ∈ names, name ∉ libraryGlobals →
      (name ∈ spelled ↔ name ≠ "effDate".toList) := by decide
  exact hcases name hname fun hlibrary => hown (List.mem_append_left _ hlibrary)

/-- What `getSaveData` does to a variable of the case selection. -/
theorem getSaveData_eq_last_iff {events : List (Event script)}
    (hevents : ∀ e ∈ events, e.OneLine) (vars : Vars) {name value : Str} (hname : name ∈ names)
    (hlast : lastWritten name events = some value) :
    getSaveData script vars (events.foldl step none) name = value ↔
      Restorable script vars name value := by
  have hwrite := last_write_eq hname events
  rw [hlast, Option.map_some] at hwrite
  rw [foldl_step, getSaveData, leave, Restorable]
  by_cases hglobal : name ∈ script.globals
  · rw [if_neg fun hown : Own _ _ _ => hown.2 hglobal, if_pos hglobal]
    rw [if_pos hglobal] at hwrite
    rw [restore_eq_last_iff isName_names (oneLine_write hevents) _ hname hwrite]
    simp only [not_mem_delimiters_iff]
  · rw [if_neg hglobal] at hwrite ⊢
    by_cases heff : name = "effDate".toList
    · -- the blank that was written is restored
      have hblank : ∀ inside, restore inside
          ((events.map Event.write).foldl (Write.apply names) none) name = [] := fun inside =>
        (restore_eq_last_iff isName_names (oneLine_write hevents) inside hname hwrite).mpr
          fun c hc => absurd hc List.not_mem_nil
      rw [if_neg fun hown : Own _ _ _ => (mem_spelled_iff hname hglobal).mp hown.1 heff, hblank,
        if_pos heff, eq_comm]
    · rw [if_pos ⟨(mem_spelled_iff hname hglobal).mpr heff, hglobal⟩, if_neg heff]

end CaseSelect

namespace Compass

open SaveData

/-- The value that a variable had when it was last to be written. -/
def lastWritten (name : Str) (events : List Event) : Option Str :=
  events.foldl (fun last e =>
    if e.saveLogin = true ∧ name ∈ names then some (e.vars name) else last) none

/-- The values have no line breaks. -/
def Event.OneLine (e : Event) : Prop := ∀ name ∈ names, SaveData.OneLine (e.vars name)

/-- The calls that write. -/
def writes (events : List Event) : List Write :=
  (events.filter fun e => e.saveLogin).map fun e => .rewrite e.vars

/-- Nor do those of this script. -/
theorem isName_names : ∀ name ∈ names, IsName name := forall_isName (by decide)

/-- All variables that are saved are global here. -/
theorem mem_globals : ∀ name ∈ names, name ∈ globals := by decide

/-- The script declares every variable that it saves. -/
theorem setSaveData_eq (saveLogin : Bool) (vars : Vars) (file : Option Str) :
    setSaveData saveLogin vars file = if saveLogin then rewrite names vars else file := by
  have hvars : rewrite names (enter globals names vars) = rewrite names vars := by
    have henter : enter globals names vars = vars := by
      funext name
      rw [enter, if_neg fun hown : Own _ _ _ => hown.2 (mem_globals name hown.1)]
    rw [henter]
  rw [setSaveData, hvars]

/-- The file after some events is what their writes leave. -/
theorem foldl_step (events : List Event) (file : Option Str) :
    events.foldl step file = (writes events).foldl (Write.apply names) file := by
  induction events generalizing file with
  | nil => rfl
  | cons e events ih =>
    rw [List.foldl_cons, ih, writes, writes, List.filter_cons, step, setSaveData_eq]
    cases e.saveLogin with
    | true => rfl
    | false => rfl

/-- The value that was written last is that of the last write. -/
theorem lastWritten_eq (name : Str) (events : List Event) :
    lastWritten name events = (writes events).foldl (Write.last names name) none := by
  unfold lastWritten
  generalize (none : Option Str) = last
  induction events generalizing last with
  | nil => rfl
  | cons e events ih =>
    rw [List.foldl_cons, ih, writes, writes, List.filter_cons]
    cases e.saveLogin with
    | true => simp [Write.last]
    | false => simp

/-- What `getSaveData` does to a variable of the Compass login. -/
theorem getSaveData_eq_last_iff {events : List Event} (hevents : ∀ e ∈ events, e.OneLine)
    (vars : Vars) {name value : Str} (hname : name ∈ names)
    (hlast : lastWritten name events = some value) :
    getSaveData vars (events.foldl step none) name = value ↔ ∀ c ∈ value, c ≠ '|' ∧ c ≠ '"' := by
  rw [lastWritten_eq] at hlast
  rw [foldl_step, getSaveData, leave,
    if_neg fun hown : Own _ _ _ => hown.2 (mem_globals name hname)]
  simp only [← not_mem_delimiters_iff]
  apply restore_eq_last_iff isName_names ?_ _ hname hlast
  intro w hw
  obtain ⟨e, he, rfl⟩ := List.mem_map.mp hw
  exact hevents e (List.mem_of_mem_filter he)

end Compass

namespace SaveData

/-- After any sequence of writes on one line, `getSaveData` of either library sets a variable to the
value that it last had when it was to be written, exactly when the script declares the variable and
the value has no `|` and no quotation mark, or when it holds that value anyway. -/
theorem settings_restored_iff (vars : Vars) (name value : Str) :
    (∀ (script : CaseSelect.Script) (events : List (CaseSelect.Event script)),
      (∀ e ∈ events, e.OneLine) → name ∈ CaseSelect.names →
      CaseSelect.lastWritten name events = some value →
      (CaseSelect.getSaveData script vars (events.foldl CaseSelect.step none) name = value ↔
        CaseSelect.Restorable script vars name value)) ∧
    ∀ events : List Compass.Event,
      (∀ e ∈ events, e.OneLine) → name ∈ Compass.names →
      Compass.lastWritten name events = some value →
      (Compass.getSaveData vars (events.foldl Compass.step none) name = value ↔
        ∀ c ∈ value, c ≠ '|' ∧ c ≠ '"') :=
  ⟨fun _ _ hevents hname hlast =>
      CaseSelect.getSaveData_eq_last_iff hevents vars hname hlast,
    fun _ hevents hname hlast => Compass.getSaveData_eq_last_iff hevents vars hname hlast⟩

/-- A save of the Solar script, and a press of its main button. -/
def dateSaved : List (CaseSelect.Event CaseSelect.solar) :=
  [.setSaveData fun _ => "a b".toList, .solarMainButton (by decide) "01/02".toList]

/-- The effective date of the Solar script is restored. -/
theorem settings_restored_solar :
    CaseSelect.getSaveData CaseSelect.solar (fun _ => []) (dateSaved.foldl CaseSelect.step none)
        "effDate".toList = "01/02".toList ↔
      CaseSelect.Restorable CaseSelect.solar (fun _ => []) "effDate".toList "01/02".toList :=
  (settings_restored_iff _ _ _).1 CaseSelect.solar dateSaved
    (by
      intro e he
      rcases List.mem_cons.mp he with rfl | he
      · intro name _
        show OneLine "a b".toList
        exact ⟨by decide, by decide⟩
      · obtain rfl := List.mem_singleton.mp he
        exact ⟨by decide, by decide⟩)
    (by decide) rfl

/-- A save of `b_w.ahk` with the password `p"w`. -/
def quoteSaved : List (CaseSelect.Event CaseSelect.b_w) := [.setSaveData fun _ => "p\"w".toList]

/-- A save of the Solar script with the user name `joe`. -/
def joeSaved : List (CaseSelect.Event CaseSelect.solar) := [.setSaveData fun _ => "joe".toList]

/-- The password `p"w` comes back as `p`, and the user name of the Solar script does not come back
at all. -/
theorem not_restored_quote :
    (CaseSelect.lastWritten "passWordSaved".toList quoteSaved = some "p\"w".toList ∧
      CaseSelect.getSaveData CaseSelect.b_w (fun _ => []) (quoteSaved.foldl CaseSelect.step none)
        "passWordSaved".toList = "p".toList ∧ "p".toList ≠ "p\"w".toList) ∧
    CaseSelect.lastWritten "userNameSaved".toList joeSaved = some "joe".toList ∧
      CaseSelect.getSaveData CaseSelect.solar (fun _ => []) (joeSaved.foldl CaseSelect.step none)
        "userNameSaved".toList = [] ∧ [] ≠ "joe".toList := by
  decide

end SaveData
