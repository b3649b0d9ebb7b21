import SourceTidy.Program
import SourceTidy.Proofs.DiscoveredFiles
import SourceTidy.Proofs.Workers
import SourceTidy.Proofs.Pipeline

/-! # The counts of a run and what it tells

A run counts its findings while it tells them, but whether it succeeds it learns from the files, of
which each says whether it has passed. The two agree: a file passes exactly if its findings let it
pass, whether it was read, checked and written or not, and the findings of a run are those of its
files.

* `Mode.Accepts`: the findings that let a file pass;
* `agrees_inspect`, `agrees_commit`: what a step says of a file agrees with the findings in it;
* `Staffed.turn`, `Staffed.foldl_turn`: workers keep to that, whatever their schedule;
* `agrees_tell`: the counts of a run, from what its files say;
* `run_counts_what_it_tells`: the counts, the findings and the exit code of the program agree.
-/

namespace SourceTidy

/-- The findings let a file pass: none is an error and, unless corrections are written, none is
one. -/
def Mode.Accepts (mode : Mode) (findings : List Diagnostic) : Prop :=
  (∀ d ∈ findings, d.severity ≠ .error) ∧ (mode = .fix ∨ ∀ d ∈ findings, d.severity ≠ .fix)

/-- What is said of a file agrees with the findings in it. -/
def Processed.Agrees (mode : Mode) (p : Processed) : Prop :=
  p.passed = true ↔ mode.Accepts p.diagnostics

/-- The findings that a run has told. -/
def RunResult.told (result : RunResult) : List Diagnostic :=
  (Report.findings result.events).map Prod.snd

/-- The counts of a run over the given number of files agree with what it has told. -/
structure RunResult.Agrees (mode : Mode) (files : Nat) (result : RunResult) : Prop where
  files_eq : result.summary.files = files
  errors_eq : result.summary.errors = result.told.countP fun d => d.severity == .error
  warnings_eq : result.summary.warnings = result.told.countP fun d => d.severity == .warning
  fixes_eq : result.summary.fixes = result.told.countP fun d => d.severity == .fix
  success_iff : result.summary.success = true ↔
    (∀ d ∈ result.told, d.severity ≠ .error) ∧ (mode = .fix ∨ ∀ d ∈ result.told, d.severity ≠ .fix)
  /-- The last thing that is told are the counts. -/
  finish_eq : result.events.getLast? = some (.finish result.summary)

/-! ## The check of a file -/

section

variable {mode : Mode} {file : SourceFile} {rules : List Rule} {content : Bytes}

theorem hasError_eq_false_iff (outcome : Outcome) :
    outcome.hasError = false ↔ ∀ d ∈ outcome.diagnostics, d.severity ≠ .error := by
  simp [Outcome.hasError, Diagnostic.isError]

/-- The check of a file is completed exactly if no error is found. -/
theorem completed_iff_no_error :
    (checkFile mode file rules content).state = .completed ↔
      ∀ d ∈ (checkFile mode file rules content).diagnostics, d.severity ≠ .error := by
  induction rules generalizing content with
  | nil => simp [checkFile]
  | cons rule rules ih =>
    rw [completed_cons_iff, ih]
    cases herror : (rule.run file content).hasError with
    | true =>
      -- the error that ends the check is among the findings
      rw [checkFile_cons_of_error herror, ← hasError_eq_false_iff, herror]
      simp
    | false =>
      rw [checkFile_cons_of_ok herror, FileReport.after]
      simp only [true_and, List.forall_mem_append]
      rw [← hasError_eq_false_iff]
      simp [herror]

/-- A check passes exactly if its findings let the file pass. -/
theorem passed_iff_accepts :
    (checkFile mode file rules content).passed = true ↔
      mode.Accepts (checkFile mode file rules content).diagnostics := by
  rw [checkFile_passed_iff, completed_iff_no_error, Mode.Accepts]
  simp [FileReport.hasFix, Diagnostic.isFix]

end

theorem not_accepts_of_error {mode : Mode} {findings : List Diagnostic} {d : Diagnostic}
    (hd : d ∈ findings) (herror : d.severity = .error) : ¬ mode.Accepts findings := by
  intro haccepts
  exact haccepts.1 d hd herror

/-- The findings of all files let them pass if those of each file do. -/
theorem accepts_flatMap {mode : Mode} (ps : List Processed) :
    mode.Accepts (ps.flatMap Processed.diagnostics) ↔ ∀ p ∈ ps, mode.Accepts p.diagnostics := by
  simp only [Mode.Accepts, List.forall_mem_flatMap]
  cases mode <;> simp [forall_and]

namespace Run

/-! ## The steps of a run -/

variable {r : Run} {v : Volume} {path : FilePath} {mode : Mode}

/-- What a verdict says of the file. -/
def Verdict.processed : Verdict → Processed
  | .keep p => p
  | .change _ p => p

/-- What a look at a file says agrees with its findings. -/
theorem agrees_inspect (r : Run) (v : Volume) (path : FilePath) :
    (r.inspect v path).processed.Agrees r.mode := by
  unfold inspect
  cases Volume.read v path with
  | error e =>
    -- a file that cannot be read has an error, and has not passed
    exact iff_of_false (by simp [Verdict.processed])
      (not_accepts_of_error (List.mem_singleton_self _) rfl)
  | ok content =>
    simp only [judge]
    split <;> exact passed_iff_accepts

/-- Writing a file back keeps the agreement, as a refused write is an error. -/
theorem agrees_commit {p : Processed} (v : Volume) (path : FilePath) (content : Bytes)
    (h : p.Agrees mode) : (commit v path content p).2.Agrees mode := by
  unfold commit
  cases Volume.write v path content with
  | ok v' => exact h
  | error e =>
    -- a file that cannot be written has one more error, and has not passed either
    exact iff_of_false (by simp)
      (not_accepts_of_error (List.mem_append_right _ (List.mem_singleton_self _)) rfl)

theorem agrees_process (r : Run) (v : Volume) (path : FilePath) :
    (r.process v path).2.Agrees r.mode := by
  have hinspect := agrees_inspect r v path
  unfold process
  cases hverdict : r.inspect v path with
  | keep p =>
    rw [hverdict] at hinspect
    exact hinspect
  | change content p =>
    rw [hverdict] at hinspect
    exact agrees_commit v path content hinspect

/-! ## Workers -/

/-- What the worker has to say of its file so far agrees with the findings in it. -/
def Worker.Agrees (mode : Mode) : Worker → Prop
  | .waiting _ => True
  | .writing _ _ p => p.Agrees mode
  | .done p => p.Agrees mode

/-- A worker keeps to that in its next step. -/
theorem Worker.Agrees.advance {w : Worker} (h : w.Agrees r.mode) (v : Volume) :
    (r.advance v w).2.Agrees r.mode := by
  cases w with
  | waiting path =>
    have hinspect := agrees_inspect r v path
    rw [advance_waiting]
    cases hverdict : r.inspect v path <;> rw [hverdict] at hinspect <;> exact hinspect
  | writing path content p => exact agrees_commit v path content h
  | done p => exact h

/-- A worker that goes on to its end keeps to it. -/
theorem Worker.Agrees.complete {w : Worker} (h : w.Agrees r.mode) (v : Volume) :
    (r.complete v w).2.Agrees r.mode := by
  cases w with
  | waiting path => exact agrees_process r v path
  | writing path content p => exact agrees_commit v path content h
  | done p => exact h

/-- There are so many workers, and what they have to say agrees with their findings. -/
structure Staffed (mode : Mode) (files : Nat) (ws : List Worker) : Prop where
  length_eq : ws.length = files
  agrees : ∀ w ∈ ws, w.Agrees mode

/-- There is a worker for each file, with nothing to say yet. -/
theorem staffed_waiting (mode : Mode) (paths : List FilePath) :
    Staffed mode paths.length (paths.map .waiting) := by
  refine ⟨List.length_map _, ?_⟩
  intro w hw
  obtain ⟨path, -, rfl⟩ := List.mem_map.mp hw
  exact trivial

/-- One turn. -/
theorem Staffed.turn {files : Nat} {ws : List Worker} (h : Staffed r.mode files ws) (v : Volume)
    (n : Nat) : Staffed r.mode files (r.turn (v, ws) n).2 := by
  unfold Run.turn
  cases hworker : ws[n]? with
  | none => exact h
  | some w =>
    refine ⟨List.length_set.trans h.length_eq, ?_⟩
    intro w' hw'
    rcases List.mem_or_eq_of_mem_set hw' with hmem | rfl
    · exact h.agrees w' hmem
    · exact (h.agrees w (List.mem_of_getElem? hworker)).advance v

/-- All turns of a schedule. -/
theorem Staffed.foldl_turn {files : Nat} {ws : List Worker} (h : Staffed r.mode files ws)
    (v : Volume) (schedule : List Nat) :
    Staffed r.mode files (schedule.foldl r.turn (v, ws)).2 := by
  induction schedule generalizing v ws with
  | nil => exact h
  | cons n schedule ih => exact ih (h.turn v n) (r.turn (v, ws) n).1

/-- In the end there is an answer for each file, which agrees with its findings. -/
theorem Staffed.completeAll {files : Nat} {ws : List Worker} (h : Staffed r.mode files ws)
    (v : Volume) :
    (r.completeAll v ws).2.length = files ∧ ∀ p ∈ (r.completeAll v ws).2, p.Agrees r.mode := by
  induction ws generalizing v files with
  | nil => exact ⟨h.length_eq, by simp [Run.completeAll]⟩
  | cons w ws ih =>
    obtain ⟨hhead, htail⟩ := List.forall_mem_cons.mp h.agrees
    obtain ⟨hlength, hagrees⟩ := ih ⟨rfl, htail⟩ (r.complete v w).1
    have hsize : ws.length + 1 = files := h.length_eq
    simp only [Run.completeAll, List.length_cons, hlength, List.forall_mem_cons]
    exact ⟨hsize, hhead.complete v, hagrees⟩

/-! ## The counts -/

theorem findings_events (p : Processed) :
    (Report.findings p.events).map Prod.snd = p.diagnostics := by
  simp [Report.findings, Processed.events, List.filterMap_map, Function.comp_def]

theorem findings_append (first rest : List Event) :
    Report.findings (first ++ rest) = Report.findings first ++ Report.findings rest :=
  List.filterMap_append

/-- The findings that are told are those of the files. -/
theorem told_tell (s : Summary) (ps : List Processed) :
    (Report.findings (tell s ps).1).map Prod.snd = ps.flatMap Processed.diagnostics := by
  induction ps generalizing s with
  | nil => rfl
  | cons p ps ih =>
    simp only [tell, findings_append, List.map_append, findings_events, ih, List.flatMap_cons]

/-- The counts are told last. -/
theorem getLast?_tell (s : Summary) (ps : List Processed) :
    (tell s ps).1.getLast? = some (.finish (tell s ps).2) := by
  induction ps generalizing s with
  | nil => rfl
  | cons p ps ih => simp only [tell, List.getLast?_append, ih, Option.some_or]

/-- The counts at the end, from those at the start. -/
theorem summary_tell (s : Summary) (ps : List Processed) :
    (tell s ps).2 =
      { files := s.files + ps.length
        written := s.written + ps.countP Processed.written
        errors := s.errors + (ps.flatMap Processed.diagnostics).countP Diagnostic.isError
        warnings := s.warnings + (ps.flatMap Processed.diagnostics).countP Diagnostic.isWarning
        fixes := s.fixes + (ps.flatMap Processed.diagnostics).countP Diagnostic.isFix
        success := s.success && ps.all Processed.passed } := by
  induction ps generalizing s with
  | nil => simp [tell]
  | cons p ps ih =>
    simp only [tell, ih, Summary.add, Summary.account, foldl_record]
    cases hwritten : p.written <;> simp [hwritten, Nat.add_assoc, Nat.add_comm 1, Bool.and_assoc]

/-- What is counted is what is told. -/
theorem agrees_tell {ps : List Processed} {files : Nat} (hlength : ps.length = files)
    (h : ∀ p ∈ ps, p.Agrees mode) (v : Volume) :
    RunResult.Agrees mode files ⟨(tell .empty ps).1, (tell .empty ps).2, v⟩ := by
  have htold : RunResult.told ⟨(tell .empty ps).1, (tell .empty ps).2, v⟩ =
      ps.flatMap Processed.diagnostics := told_tell .empty ps
  have hcounts : (tell .empty ps).2 =
      { files := ps.length
        written := ps.countP Processed.written
        errors := (ps.flatMap Processed.diagnostics).countP Diagnostic.isError
        warnings := (ps.flatMap Processed.diagnostics).countP Diagnostic.isWarning
        fixes := (ps.flatMap Processed.diagnostics).countP Diagnostic.isFix
        success := ps.all Processed.passed } := by
    rw [summary_tell]
    simp [Summary.empty]
  constructor
  case files_eq => exact (congrArg Summary.files hcounts).trans hlength
  case errors_eq =>
    rw [htold]
    exact congrArg Summary.errors hcounts
  case warnings_eq =>
    rw [htold]
    exact congrArg Summary.warnings hcounts
  case fixes_eq =>
    rw [htold]
    exact congrArg Summary.fixes hcounts
  -- success is the conjunction of what the files say; by `h` each of them says what its findings
  -- say
  case success_iff =>
    have hfiles : ps.all Processed.passed = true ↔ ∀ p ∈ ps, mode.Accepts p.diagnostics := by
      rw [List.all_eq_true]
      exact forall₂_congr h
    rw [htold, hcounts]
    exact hfiles.trans (accepts_flatMap ps).symm
  case finish_eq => exact getLast?_tell .empty ps

/-- The counts of a run from file to file. -/
theorem agrees_sequential (r : Run) (v : Volume) (paths : List FilePath) :
    (r.sequential v paths).Agrees r.mode paths.length := by
  obtain ⟨hlength, hagrees⟩ := (staffed_waiting r.mode paths).completeAll v
  rw [sequential, sequentialFrom_eq]
  exact agrees_tell hlength hagrees _

/-- The counts of a run of workers, whatever their schedule. -/
theorem agrees_parallel (r : Run) (schedule : List Nat) (v : Volume) (paths : List FilePath) :
    (r.parallel schedule v paths).Agrees r.mode paths.length := by
  have hstaffed := (staffed_waiting r.mode paths).foldl_turn v schedule
  obtain ⟨hlength, hagrees⟩ :=
    hstaffed.completeAll (schedule.foldl r.turn (v, paths.map .waiting)).1
  exact agrees_tell hlength hagrees _

end Run

/-! ## A run in the root folder -/

open Run

/-- The settings of a run in the root folder, with nothing else said. -/
def rootSettings : Settings where
  root := ⟨true, []⟩
  file := none
  mode := .readOnly
  eol := RuleOptions.default.eol
  output := .human
  parallel := false
  log := Settings.defaultLog
  accept := Settings.defaultAccept
  ignore := Settings.defaultIgnore
  indentation := RuleOptions.default.indentation
  configSyntax := RuleOptions.default.configSyntax

/-- A run in a root folder without settings file. -/
theorem resolve_rootFolder {v : Volume} {listable : Bool} {entries : List (String × Node)}
    (hroot : v.root = .folder listable entries) (hcurrent : v.current = [])
    (hmissing : ∀ name ∈ Settings.fileNames, entries.lookup name = none) :
    Settings.resolve v {} = .ok rootSettings := by
  have hstart := Volume.find?_root hroot
  have hdot : FilePath.ofString "." = ⟨false, ["."]⟩ := by decide
  have hfollow : v.follow Volume.maxLinks v.current ["."] = .ok [] := by
    rw [hcurrent, Volume.follow, hstart]
    exact Volume.follow_nil v _ []
  have hcanonical : v.canonical (FilePath.ofString ".") = .ok [] := by
    rw [hdot]
    exact Volume.canonical_eq_ok_iff.mpr ⟨Or.inr (List.cons_ne_nil _ _), hfollow⟩
  have hfolder : Settings.findRoot v none = .ok ⟨true, []⟩ := by
    simp only [Settings.findRoot, Option.getD_none, hcanonical, hstart]
  -- none of the names that a settings file may have is in the root folder
  have hfile : Settings.findFile v ⟨true, []⟩ = none := by
    change (Settings.fileNames.map topLevel).find? v.isFile = none
    rw [List.find?_eq_none, List.forall_mem_map]
    intro name hname
    have hproper : ∀ name ∈ Settings.fileNames, name ≠ "." ∧ name ≠ ".." := by decide
    rw [isFile_topLevel_of_missing hroot (hmissing name hname) (hproper name hname)]
    exact Bool.false_ne_true
  simp only [Settings.resolve, hfolder, hfile, bind, Except.bind]
  rfl

/-- The three files are among those that are checked by default. -/
theorem exists_defaultFilter :
    ∃ filter, FileFilter.ofPatterns Settings.defaultAccept Settings.defaultIgnore = .ok filter ∧
      ∀ name ∈ ["a.txt", "b.txt", "c.txt"],
        filter.acceptsFile name = true ∧ filter.skipsFile name = false :=
  ⟨_, rfl, by decide⟩

def threeFilesPlan : Plan where
  settings := rootSettings
  rules := Rule.ordered RuleOptions.default [("neon", Decoder.neon)]
  files := threePaths

/-- The program finds them, and has the standard rules. -/
theorem prepare_threeFiles :
    Program.prepare ⟨false, none⟩ {} threeFiles = .ok threeFilesPlan := by
  have hmissing : ∀ name ∈ Settings.fileNames, threeFiles.root.entries.lookup name = none := by
    simp only [Settings.fileNames, List.forall_mem_cons]
    exact ⟨rfl, rfl, rfl, by simp⟩
  have hsettings : Settings.resolve threeFiles {} = .ok rootSettings :=
    resolve_rootFolder rfl rfl hmissing
  have hlog : LogFilter.isValid (Program.logFilter ⟨false, none⟩ rootSettings) = true := by decide
  obtain ⟨filter, hfilter, hnames⟩ := exists_defaultFilter
  have hsorted : ["a.txt", "b.txt", "c.txt"].Pairwise (· ≤ ·) := by decide
  have hfiles : findFiles threeFiles ⟨true, []⟩ filter = .ok threePaths := by
    have hfound := findFiles_topLevel (v := threeFiles) filter rfl (by exact hsorted)
    rw [hfound]
    simp [Node.discover, hnames, threePaths]
  have hplan : Plan.ofSettings threeFiles rootSettings = .ok threeFilesPlan := by
    simp only [Plan.ofSettings, rootSettings, Settings.ruleOptions, hfilter, hfiles,
      Except.mapError, bind, Except.bind]
    rfl
  simp only [Program.prepare, hsettings, bind, Except.bind, hlog, hplan]
  rfl

/-! ## The program -/

/-- The exit code tells success, once the run has started. -/
theorem exitCode_eq {env : Program.Environment} {arguments : List String} {v : Volume}
    {given : CommandLine.Given} {plan : Plan} (hparse : CommandLine.parse arguments = .ok given)
    (hprepare : Program.prepare env given.wishes v = .ok plan) :
    (Program.run env arguments v).exitCode = if (plan.run v).summary.success then 0 else 1 := by
  simp only [Program.run, hparse, hprepare]

theorem agrees_plan (p : Plan) (v : Volume) :
    (p.run v).Agrees p.settings.mode p.files.length := by
  let r : Run := ⟨p.settings.root, p.rules, p.settings.mode⟩
  unfold Plan.run Run.check
  split
  · exact Run.agrees_parallel r [] v p.files
  · exact Run.agrees_sequential r v p.files

/-- Whatever the files, the rules and the schedule, the counts of a run are those of the findings
that it tells, and it succeeds exactly if these let it. The exit code of the program says whether it
succeeds. -/
theorem run_counts_what_it_tells :
    (∀ (r : Run) (v : Volume) (paths : List FilePath),
      (r.sequential v paths).Agrees r.mode paths.length ∧
        ∀ schedule, (r.parallel schedule v paths).Agrees r.mode paths.length) ∧
      ∀ (env : Program.Environment) (arguments : List String) (v : Volume)
        (given : CommandLine.Given)
        (plan : Plan), CommandLine.parse arguments = .ok given →
        Program.prepare env given.wishes v = .ok plan →
        (plan.run v).Agrees plan.settings.mode plan.files.length ∧
          (Program.run env arguments v).exitCode =
            if (plan.run v).summary.success then 0 else 1 := by
  constructor
  · intro r v paths
    exact ⟨Run.agrees_sequential r v paths, fun schedule => Run.agrees_parallel r schedule v paths⟩
  · intro env arguments v given plan hparse hprepare
    exact ⟨agrees_plan plan v, exitCode_eq hparse hprepare⟩

/-- Nothing is written. The run fails, since there is something to correct in the first file. -/
theorem run_counts_what_it_tells_threeFiles :
    CommandLine.parse [] = .ok {} ∧
      Program.prepare ⟨false, none⟩ {} threeFiles = .ok threeFilesPlan ∧
      (threeFilesPlan.run threeFiles).summary.files = 3 ∧
      (Program.run ⟨false, none⟩ [] threeFiles).exitCode = 1 := by
  have hparse : CommandLine.parse [] = .ok {} := rfl
  obtain ⟨hagrees, hexit⟩ := run_counts_what_it_tells.2 _ _ _ _ _ hparse prepare_threeFiles
  refine ⟨hparse, prepare_threeFiles, hagrees.files_eq, ?_⟩
  obtain ⟨ha, -, -⟩ := locate_threeFiles
  have hstored : threeFiles.stored (topLevel "a.txt") = .ok ⟨Bytes.ascii "a \n", true, true⟩ :=
    Volume.stored_eq_ok_iff.mpr ⟨0, ha, rfl⟩
  have hfirst : (Run.process ⟨⟨true, []⟩, threeFilesPlan.rules, .readOnly⟩ threeFiles
      (topLevel "a.txt")).2.passed = false := by
    rw [process_eq_act, Volume.act_of_stored hstored]
    decide
  have hfailed : (threeFilesPlan.run threeFiles).summary.success = false := by
    change (Run.sequential ⟨⟨true, []⟩, threeFilesPlan.rules, .readOnly⟩ threeFiles
      threePaths).summary.success = false
    rw [sequential, sequentialFrom_eq]
    simp only [threePaths, List.map_cons, completeAll, complete, summary_tell,
      List.all_cons, hfirst, Bool.false_and, Bool.and_false]
  rw [hexit, hfailed]
  rfl

end SourceTidy
