import SourceTidy.Proofs.WrittenFiles

/-! # Workers do not get in each other's way

Workers on different files may take their turns in any order: the turn of one and the work of
another commute, since both are accesses to one file. So the work that is left at any point of a
schedule comes to the same as before the schedule began.

* `complete_advance_comm`: the turn of one worker and the work of another;
* `pairwise_apart_turn`, `completeAll_turn`: what a turn keeps;
* `completeAll_foldl_turn`: what a schedule keeps;
* `parallel_eq_sequential`: workers leave and tell what a run from file to file leaves and tells.
-/

namespace SourceTidy.Run

open Volume

variable {r : Run} {v : Volume} {path : FilePath} {paths : List FilePath}

/-! ## Workers -/

namespace Worker

/-- The file that a worker still has to do with. -/
def path? : Worker → Option FilePath
  | .waiting path => some path
  | .writing path _ _ => some path
  | .done _ => none

/-- The workers do not have to do with the same file. -/
def Apart (v : Volume) (w w' : Worker) : Prop :=
  ∀ p ∈ w.path?, ∀ q ∈ w'.path?, v.Apart p q

end Worker

/-- How a worker goes on after its verdict. -/
def Worker.after (path : FilePath) : Verdict → Worker
  | .keep p => .done p
  | .change content p => .writing path content p

theorem advance_waiting (r : Run) (v : Volume) (path : FilePath) :
    r.advance v (.waiting path) = (v, .after path (r.inspect v path)) := by
  simp only [advance]
  cases r.inspect v path <;> rfl

/-- A turn of a worker is an access to its file. -/
theorem accesses_advance (r : Run) {w : Worker} (h : w.path? = some path) :
    Accesses path fun v => r.advance v w := by
  cases w with
  | waiting p =>
    cases h
    simp only [advance_waiting]
    exact (accesses_inspect r path).map (Worker.after path)
  | writing p content processed =>
    cases h
    exact (accesses_commit path content processed).map Worker.done
  | done p => cases h

/-- All that is left to a worker is one access to its file. -/
theorem accesses_complete (r : Run) {w : Worker} (h : w.path? = some path) :
    Accesses path fun v => r.complete v w := by
  cases w with
  | waiting p =>
    cases h
    exact accesses_process r path
  | writing p content processed =>
    cases h
    exact accesses_commit path content processed
  | done p => cases h

/-- A worker may take a turn before the rest of its work. -/
theorem complete_advance (r : Run) (v : Volume) (w : Worker) :
    r.complete (r.advance v w).1 (r.advance v w).2 = r.complete v w := by
  cases w with
  | waiting path =>
    rw [advance_waiting]
    simp only [complete, process]
    cases r.inspect v path <;> rfl
  | writing path content p => rfl
  | done p => rfl

theorem Worker.eq_done_of_path?_eq_none {w : Worker} (h : w.path? = none) : ∃ p, w = .done p := by
  cases w with
  | done p => exact ⟨p, rfl⟩
  | _ => cases h

/-- No worker moves files. -/
theorem locate_complete (r : Run) (v : Volume) (w : Worker) (path : FilePath) :
    (r.complete v w).1.locate path = v.locate path := by
  cases hpath : w.path? with
  | none =>
    obtain ⟨p, rfl⟩ := Worker.eq_done_of_path?_eq_none hpath
    rfl
  | some p => exact (accesses_complete r hpath).locate_eq v path

theorem locate_advance (r : Run) (v : Volume) (w : Worker) (path : FilePath) :
    (r.advance v w).1.locate path = v.locate path := by
  cases hpath : w.path? with
  | none =>
    obtain ⟨p, rfl⟩ := Worker.eq_done_of_path?_eq_none hpath
    rfl
  | some p => exact (accesses_advance r hpath).locate_eq v path

/-- The turn of one worker and the work of another one do not see each other. -/
theorem complete_advance_comm (r : Run) {w w' : Worker} (h : w'.Apart v w) :
    r.complete (r.advance v w').1 w = ((r.advance (r.complete v w).1 w').1, (r.complete v w).2) ∧
      (r.advance (r.complete v w).1 w').2 = (r.advance v w').2 := by
  cases hpath : w.path? with
  | none =>
    obtain ⟨p, rfl⟩ := Worker.eq_done_of_path?_eq_none hpath
    exact ⟨rfl, rfl⟩
  | some q =>
    cases hpath' : w'.path? with
    | none =>
      obtain ⟨p, rfl⟩ := Worker.eq_done_of_path?_eq_none hpath'
      exact ⟨rfl, rfl⟩
    | some p =>
      have hapart : v.Apart p q := h p hpath' q hpath
      have hturn := accesses_advance r hpath'
      have hwork := accesses_complete r hpath
      refine ⟨hturn.comm hwork hapart, ?_⟩
      have hswap := hwork.comm hturn hapart.symm
      exact congrArg (fun result => result.2) hswap

/-! ## Schedules -/

theorem turn_cons_zero (r : Run) (v : Volume) (w : Worker) (ws : List Worker) :
    r.turn (v, w :: ws) 0 = ((r.advance v w).1, (r.advance v w).2 :: ws) := rfl

theorem turn_cons_succ (r : Run) (v : Volume) (w : Worker) (ws : List Worker) (n : Nat) :
    r.turn (v, w :: ws) (n + 1) = ((r.turn (v, ws) n).1, w :: (r.turn (v, ws) n).2) := by
  simp only [turn, List.getElem?_cons_succ]
  cases ws[n]? <;> rfl

/-- A turn of one of the workers, and the work of another one. -/
theorem complete_turn (r : Run) {w : Worker} {ws : List Worker}
    (h : ∀ w' ∈ ws, w.Apart v w') (n : Nat) :
    r.complete (r.turn (v, ws) n).1 w =
        ((r.turn ((r.complete v w).1, ws) n).1, (r.complete v w).2) ∧
      (r.turn ((r.complete v w).1, ws) n).2 = (r.turn (v, ws) n).2 := by
  unfold turn
  cases hworker : ws[n]? with
  | none => exact ⟨rfl, rfl⟩
  | some w' =>
    have happart : w'.Apart v w :=
      fun p hp q hq => (h w' (List.mem_of_getElem? hworker) q hq p hp).symm
    obtain ⟨hvolume, hworker'⟩ := complete_advance_comm r happart
    simp only [hvolume, hworker', and_self]

/-- A worker never turns to another file. -/
theorem path?_advance (r : Run) (v : Volume) (w : Worker) :
    ∀ p ∈ (r.advance v w).2.path?, p ∈ w.path? := by
  cases w with
  | waiting path =>
    rw [advance_waiting]
    intro p hp
    cases hverdict : r.inspect v path with
    | keep _ =>
      rw [hverdict] at hp
      cases hp
    | change _ _ =>
      rw [hverdict] at hp
      exact hp
  | writing path content p => simp [advance, Worker.path?]
  | done p => simp [advance]

theorem locate_turn (r : Run) (v : Volume) (ws : List Worker) (n : Nat) (path : FilePath) :
    (r.turn (v, ws) n).1.locate path = v.locate path := by
  unfold turn
  cases ws[n]? with
  | none => rfl
  | some w => exact locate_advance r v w path

/-- Workers that are apart stay so as long as no file is moved. -/
theorem Worker.Apart.congr {u : Volume} {w w' : Worker} (h : w.Apart v w')
    (hlocate : ∀ p, u.locate p = v.locate p) : w.Apart u w' := by
  intro p hp q hq n hn
  rw [hlocate] at hn ⊢
  exact h p hp q hq n hn

/-- Whoever is left after a turn was there before it, and has no other file. -/
theorem exists_of_mem_turn (r : Run) {ws : List Worker} {n : Nat} {w : Worker}
    (h : w ∈ (r.turn (v, ws) n).2) : ∃ w₀ ∈ ws, ∀ p ∈ w.path?, p ∈ w₀.path? := by
  unfold turn at h
  cases hworker : ws[n]? with
  | none =>
    rw [hworker] at h
    exact ⟨w, h, fun p hp => hp⟩
  | some w₀ =>
    rw [hworker] at h
    rcases List.mem_or_eq_of_mem_set h with hmem | rfl
    · exact ⟨w, hmem, fun p hp => hp⟩
    · exact ⟨w₀, List.mem_of_getElem? hworker, path?_advance r v w₀⟩

/-- Workers on different files stay on different files. -/
theorem pairwise_apart_turn (r : Run) {ws : List Worker}
    (h : ws.Pairwise (Worker.Apart v)) (n : Nat) :
    (r.turn (v, ws) n).2.Pairwise (Worker.Apart (r.turn (v, ws) n).1) := by
  suffices hold : (r.turn (v, ws) n).2.Pairwise (Worker.Apart v) from
    hold.imp fun hapart => hapart.congr (locate_turn r v ws n)
  induction ws generalizing n with
  | nil => exact h
  | cons w ws ih =>
    obtain ⟨hhead, htail⟩ := List.pairwise_cons.mp h
    cases n with
    | zero =>
      rw [turn_cons_zero]
      refine List.pairwise_cons.mpr ⟨?_, htail⟩
      intro w' hw' p hp
      exact hhead w' hw' p (path?_advance r v w p hp)
    | succ n =>
      rw [turn_cons_succ]
      refine List.pairwise_cons.mpr ⟨?_, ih htail n⟩
      intro w' hw' p hp q hq
      obtain ⟨w₀, hw₀, hpath⟩ := exists_of_mem_turn r hw'
      exact hhead w₀ hw₀ p hp q (hpath q hq)

/-- The turns that are left come to the same after one of them has been taken. -/
theorem completeAll_turn (r : Run) {ws : List Worker} (h : ws.Pairwise (Worker.Apart v)) (n : Nat) :
    r.completeAll (r.turn (v, ws) n).1 (r.turn (v, ws) n).2 = r.completeAll v ws := by
  induction ws generalizing v n with
  | nil => rfl
  | cons w ws ih =>
    obtain ⟨hhead, htail⟩ := List.pairwise_cons.mp h
    cases n with
    | zero =>
      rw [turn_cons_zero]
      simp only [completeAll, complete_advance]
    | succ n =>
      obtain ⟨hvolume, hworkers⟩ := complete_turn r hhead n
      have hrest : ws.Pairwise (Worker.Apart (r.complete v w).1) :=
        htail.imp fun hapart => hapart.congr (locate_complete r v w)
      have hsame := ih hrest n
      rw [turn_cons_succ]
      simp only [completeAll, hvolume, ← hworkers, hsame]

/-- What is left of a run does not depend on the turns that were taken. -/
theorem completeAll_foldl_turn (r : Run) (schedule : List Nat) {ws : List Worker}
    (h : ws.Pairwise (Worker.Apart v)) :
    r.completeAll (schedule.foldl r.turn (v, ws)).1 (schedule.foldl r.turn (v, ws)).2 =
      r.completeAll v ws := by
  induction schedule generalizing v ws with
  | nil => rfl
  | cons n schedule ih =>
    rw [List.foldl_cons, ← completeAll_turn r h n]
    exact ih (pairwise_apart_turn r h n)

/-- A run that goes from file to file tells at once what workers tell at the end. -/
theorem sequentialFrom_eq (r : Run) (v : Volume) (s : Summary) (paths : List FilePath) :
    r.sequentialFrom v s paths =
      let (v', processed) := r.completeAll v (paths.map .waiting)
      let (events, summary) := tell s processed
      ⟨events, summary, v'⟩ := by
  induction paths generalizing v s with
  | nil => rfl
  | cons path paths ih =>
    simp only [sequentialFrom, List.map_cons, completeAll, complete, tell, ih]

/-- Workers with different files are apart. -/
theorem pairwise_waiting (h : v.Distinct paths) :
    (paths.map Worker.waiting).Pairwise (Worker.Apart v) := by
  rw [List.pairwise_map]
  refine List.Pairwise.imp ?_ h
  intro p q hapart p' hp q' hq
  cases hp
  cases hq
  exact hapart

/-- Whatever the schedule, workers on different files leave the volume, the counts and the events
that are left when the files are taken one after the other. -/
theorem parallel_eq_sequential (r : Run) (schedule : List Nat) (v : Volume) (paths : List FilePath)
    (h : v.Distinct paths) : r.parallel schedule v paths = r.sequential v paths := by
  have hwork := completeAll_foldl_turn r schedule (pairwise_waiting h)
  rw [sequential, sequentialFrom_eq]
  simp only [parallel, hwork]

/-- The last file is read first, the second one is read before the first one is read and written. -/
theorem parallel_eq_sequential_threeFiles :
    threeFiles.Distinct threePaths ∧
      tidyRun.parallel [2, 1, 0, 0, 1] threeFiles threePaths =
        tidyRun.sequential threeFiles threePaths :=
  ⟨distinct_threeFiles, parallel_eq_sequential tidyRun _ _ _ distinct_threeFiles⟩

end SourceTidy.Run
