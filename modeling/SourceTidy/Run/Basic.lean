import SourceTidy.Check
import SourceTidy.Run.Summary
import SourceTidy.Volume.Basic

/-! # Runs over many files

Each file is read, checked and, if it is to be corrected, written back. Files can be taken one after
the other, or by workers that share the volume: there is a worker for each file, it reads once and
then writes at most once, and the workers take their turns in any order. In both cases the findings
are told file by file, in the order of the files.

* `Run.sequential`: one file after the other;
* `Run.parallel`: workers that take their turns by a schedule.
-/

namespace SourceTidy

/-- What a run tells while it goes on. -/
inductive Event where
  /-- The turn of a file. -/
  | progress (file : SourceFile)
  | diagnostic (file : SourceFile) (d : Diagnostic)
  /-- The end of the run. -/
  | finish (summary : Summary)
deriving DecidableEq, Repr

/-- What a run tells of one file. -/
def Processed.events (p : Processed) : List Event :=
  .progress p.file :: p.diagnostics.map (.diagnostic p.file)

/-- What a run does to each file. -/
structure Run where
  /-- The folder below which the files are named. -/
  root : FilePath
  rules : List Rule
  mode : Mode

/-- What is left of a run. -/
structure RunResult where
  events : List Event
  summary : Summary
  volume : Volume
deriving Repr

namespace Run

/-! ## One file -/

/-- How a file is known in the findings. -/
def fileAt (r : Run) (path : FilePath) : SourceFile :=
  SourceFile.ofPath (FilePath.relative r.root path).toString

/-- What to do with a file that has been read and checked. -/
inductive Verdict where
  /-- It stays as it is. -/
  | keep (p : Processed)
  /-- It gets a new content. -/
  | change (content : Bytes) (p : Processed)
deriving Repr

/-- The verdict on a file with the given content. -/
def judge (r : Run) (file : SourceFile) (content : Bytes) : Verdict :=
  let report := checkFile r.mode file r.rules content
  let processed : Processed := ⟨file, report.diagnostics, false, report.passed⟩
  -- a check that an error has ended corrects nothing
  if report.state = .completed ∧ r.mode = .fix ∧ report.content ≠ content then
    .change report.content processed
  else .keep processed

/-- Reads and checks a file. -/
def inspect (r : Run) (v : Volume) (path : FilePath) : Verdict :=
  let file := r.fileAt path
  match v.read path with
  | .ok content => r.judge file content
  | .error e => .keep ⟨file, [.error ("cannot read file: " ++ e.message)], false, false⟩

/-- Writes a file back. -/
def commit (v : Volume) (path : FilePath) (content : Bytes) (p : Processed) : Volume × Processed :=
  match v.write path content with
  | .ok v' => (v', { p with written := true })
  | .error e =>
    let d : Diagnostic := .error ("cannot write file: " ++ e.message)
    (v, { p with diagnostics := p.diagnostics ++ [d], passed := false })

/-- Reads, checks and writes a file. -/
def process (r : Run) (v : Volume) (path : FilePath) : Volume × Processed :=
  match r.inspect v path with
  | .keep p => (v, p)
  | .change content p => commit v path content p

/-! ## One file after the other -/

/-- Goes on with the files that are left, from the counts so far. -/
def sequentialFrom (r : Run) (v : Volume) (s : Summary) : List FilePath → RunResult
  | [] => ⟨[.finish s], s, v⟩
  | path :: paths =>
    let (v', p) := r.process v path
    let rest := r.sequentialFrom v' (s.add p) paths
    { rest with events := p.events ++ rest.events }

/-- Checks the files one after the other. -/
def sequential (r : Run) (v : Volume) (paths : List FilePath) : RunResult :=
  r.sequentialFrom v .empty paths

/-! ## Workers -/

/-- How far the worker of a file has come. -/
inductive Worker where
  | waiting (path : FilePath)
  /-- It has read and checked the file, and has to write it. -/
  | writing (path : FilePath) (content : Bytes) (p : Processed)
  | done (p : Processed)
deriving Repr

/-- The next turn of a worker. -/
def advance (r : Run) (v : Volume) : Worker → Volume × Worker
  | .waiting path =>
    match r.inspect v path with
    | .keep p => (v, .done p)
    | .change content p => (v, .writing path content p)
  | .writing path content p =>
    let (v', p') := commit v path content p
    (v', .done p')
  | .done p => (v, .done p)

/-- All turns that a worker has left. -/
def complete (r : Run) (v : Volume) : Worker → Volume × Processed
  | .waiting path => r.process v path
  | .writing path content p => commit v path content p
  | .done p => (v, p)

/-- The next turn of the worker with the given number. -/
def turn (r : Run) (state : Volume × List Worker) (n : Nat) : Volume × List Worker :=
  match state.2[n]? with
  | none => state
  | some w =>
    let (v, w') := r.advance state.1 w
    (v, state.2.set n w')

/-- All turns that the workers have left, one worker after the other. -/
def completeAll (r : Run) (v : Volume) : List Worker → Volume × List Processed
  | [] => (v, [])
  | w :: ws =>
    let (v, p) := r.complete v w
    let (v, ps) := r.completeAll v ws
    (v, p :: ps)

/-- Tells what became of the files, from the counts so far. -/
def tell (s : Summary) : List Processed → List Event × Summary
  | [] => ([.finish s], s)
  | p :: ps =>
    let (events, total) := tell (s.add p) ps
    (p.events ++ events, total)

/-- Checks the files with a worker for each. The schedule has the numbers of the workers in the
order of their turns; what it leaves undone is done at its end. -/
def parallel (r : Run) (schedule : List Nat) (v : Volume) (paths : List FilePath) : RunResult :=
  let (v, workers) := schedule.foldl r.turn (v, paths.map .waiting)
  let (v, processed) := r.completeAll v workers
  let (events, summary) := tell .empty processed
  ⟨events, summary, v⟩

/-- Checks the files. Nothing is said about the order in which workers take their turns, and this
one is as good as any. -/
def check (r : Run) (parallel : Bool) (v : Volume) (paths : List FilePath) : RunResult :=
  if parallel then r.parallel [] v paths else r.sequential v paths

end Run

end SourceTidy
