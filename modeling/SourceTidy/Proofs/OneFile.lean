import SourceTidy.Proofs.Volume
import SourceTidy.Run.Basic

/-! # What a run does to one file

The steps of a run are accesses to one file. What they do depends on what is stored there, and on
nothing else in the volume.

* `Run.treat`: what a run makes of what is stored in a file;
* `process_eq_act`, `commit_eq_act`, `accesses_inspect`: the steps as accesses;
* `treat_cases`: the run changes what is stored exactly if it has something to write and may write
  it.
-/

namespace SourceTidy.Run

open Volume

variable {r : Run} {v : Volume} {path : FilePath} {s : Stored}

/-! ## The steps as accesses -/

/-- What is told of a file that cannot be read. -/
def unreadable (r : Run) (path : FilePath) (e : IoError) : Processed :=
  ⟨r.fileAt path, [.error ("cannot read file: " ++ e.message)], false, false⟩

/-- What is told of a file that cannot be written. -/
def unwritten (p : Processed) (e : IoError) : Processed :=
  { p with
    diagnostics := p.diagnostics ++ [.error ("cannot write file: " ++ e.message)], passed := false }

/-- Writes what is stored in a file, if that is allowed. -/
def overwrite (content : Bytes) (p : Processed) (s : Stored) : Stored × Processed :=
  if s.writable then ({ s with bytes := content }, { p with written := true })
  else (s, unwritten p .denied)

/-- The verdict on what is stored in a file. -/
def verdict (r : Run) (path : FilePath) (s : Stored) : Verdict :=
  if s.readable then r.judge (r.fileAt path) s.bytes else .keep (r.unreadable path .denied)

/-- What a run does to what is stored in a file. -/
def treat (r : Run) (path : FilePath) (s : Stored) : Stored × Processed :=
  match r.verdict path s with
  | .keep p => (s, p)
  | .change content p => overwrite content p s

/-- A look at a file that is there gives the verdict on what it holds. -/
theorem inspect_of_stored (h : v.stored path = .ok s) : r.inspect v path = r.verdict path s := by
  simp only [inspect, read_eq_stored, h, Except.bind, verdict]
  cases s.readable <;> rfl

/-- Where there is no file, the reason is told and nothing is left to write. -/
theorem inspect_of_not_stored {e : IoError} (h : v.stored path = .error e) :
    r.inspect v path = .keep (r.unreadable path e) := by
  simp only [inspect, read_eq_stored, h, Except.bind, unreadable]

/-- A write is an access; if it is refused, what is stored stays. -/
theorem commit_eq_act (v : Volume) (path : FilePath) (content : Bytes) (p : Processed) :
    commit v path content p = v.act path (unwritten p) (overwrite content p) := by
  unfold commit act
  rw [write_eq_stored]
  cases hstored : v.stored path with
  | error e => rfl
  | ok s =>
    simp only [Except.bind, overwrite]
    cases s.writable with
    | true => rfl
    | false => simp [setStored_stored hstored, unwritten]

/-- All that a run does to a path is one access, which treats what is stored there. -/
theorem process_eq_act (r : Run) (v : Volume) (path : FilePath) :
    r.process v path = v.act path (r.unreadable path) (r.treat path) := by
  unfold process
  cases hstored : v.stored path with
  | error e => rw [inspect_of_not_stored hstored, act_of_not_stored hstored]
  | ok s =>
    rw [inspect_of_stored hstored, act_of_stored hstored, treat]
    -- the verdict decides whether the second step, the write, is taken at all
    cases r.verdict path s with
    | keep p => simp only [setStored_stored hstored]
    | change content p => simp only [commit_eq_act, act_of_stored hstored]

theorem accesses_commit (path : FilePath) (content : Bytes) (p : Processed) :
    Accesses path fun v => commit v path content p := by
  simp only [commit_eq_act]
  exact accesses_act _ _ _

/-- A look changes nothing, and sees one file. -/
theorem accesses_inspect (r : Run) (path : FilePath) :
    Accesses path fun v => (v, r.inspect v path) := by
  refine ⟨fun e => .keep (r.unreadable path e), fun s => (s, r.verdict path s), ?_⟩
  intro v
  cases hstored : v.stored path with
  | error e => simp only [act_of_not_stored hstored, inspect_of_not_stored hstored]
  | ok s => simp only [act_of_stored hstored, inspect_of_stored hstored, setStored_stored hstored]

theorem accesses_process (r : Run) (path : FilePath) : Accesses path fun v => r.process v path := by
  simp only [process_eq_act]
  exact accesses_act _ _ _

/-! ## What is written -/

/-- The result of the check of a file with the given content. -/
def report (r : Run) (path : FilePath) (content : Bytes) : FileReport :=
  checkFile r.mode (r.fileAt path) r.rules content

/-- The run has something to write to a file: it can read it, and completes its check with another
content. -/
structure Corrects (r : Run) (path : FilePath) (s : Stored) : Prop where
  readable : s.readable = true
  mode_eq : r.mode = .fix
  completed : (r.report path s.bytes).state = .completed
  content_ne : (r.report path s.bytes).content ≠ s.bytes

/-- If there is something to write, the verdict is to write what the check has left. -/
theorem verdict_of_corrects (h : r.Corrects path s) :
    ∃ p : Processed, p.written = false ∧
      r.verdict path s = .change (r.report path s.bytes).content p := by
  refine ⟨⟨r.fileAt path, (r.report path s.bytes).diagnostics, false,
    (r.report path s.bytes).passed⟩, rfl, ?_⟩
  rw [verdict, if_pos h.readable, judge]
  exact if_pos ⟨h.completed, h.mode_eq, h.content_ne⟩

/-- Otherwise it is to leave the file, for each of the reasons there can be. -/
theorem verdict_of_not_corrects (h : ¬ r.Corrects path s) :
    ∃ p : Processed, p.written = false ∧ r.verdict path s = .keep p := by
  unfold verdict
  -- the file can be read but its check has nothing to write, or it cannot be read
  split
  · next hreadable =>
    refine ⟨⟨r.fileAt path, (r.report path s.bytes).diagnostics, false,
      (r.report path s.bytes).passed⟩, rfl, ?_⟩
    rw [judge]
    exact if_neg fun hchange => h ⟨hreadable, hchange.2.1, hchange.1, hchange.2.2⟩
  · exact ⟨r.unreadable path .denied, rfl, rfl⟩

/-- A run changes what is stored in a file exactly if it has something to write and may write it,
and counts the file then. -/
theorem treat_cases (r : Run) (path : FilePath) (s : Stored) :
    (r.Corrects path s ∧ s.writable = true ∧
        (r.treat path s).1 = { s with bytes := (r.report path s.bytes).content } ∧
        (r.treat path s).2.written = true) ∨
      (¬ (r.Corrects path s ∧ s.writable = true) ∧ (r.treat path s).1 = s ∧
        (r.treat path s).2.written = false) := by
  -- the verdict depends on `Corrects` alone; whether the write is then allowed is a second question
  by_cases hcorrects : r.Corrects path s
  · obtain ⟨p, hp, hverdict⟩ := verdict_of_corrects hcorrects
    simp only [treat, hverdict, overwrite]
    cases hwritable : s.writable with
    | true => exact Or.inl ⟨hcorrects, rfl, rfl, rfl⟩
    | false => exact Or.inr ⟨by simp, rfl, hp⟩
  · obtain ⟨p, hp, hverdict⟩ := verdict_of_not_corrects hcorrects
    simp only [treat, hverdict]
    exact Or.inr ⟨fun h => hcorrects h.1, trivial, hp⟩

/-- A file is counted as written exactly if it holds something else after the run. -/
theorem treat_written_iff (r : Run) (path : FilePath) (s : Stored) :
    (r.treat path s).2.written = true ↔ (r.treat path s).1 ≠ s := by
  rcases treat_cases r path s with ⟨hcorrects, -, hstored, hwritten⟩ | ⟨-, hstored, hwritten⟩
  · rw [hstored, hwritten]
    refine iff_of_true rfl ?_
    intro hsame
    exact hcorrects.content_ne (congrArg Stored.bytes hsame)
  · rw [hstored, hwritten]
    simp

end SourceTidy.Run
