import SourceTidy.Proofs.PathOrder
import SourceTidy.Proofs.Workers

/-! # Files with more than one path

Each file is to be the work of one worker. The paths that are found are different, but two of them
lead to one file if a link is among them, or if the file has two names in the tree. Then two workers
have to do with that file, and may both correct what a run from file to file corrects once.

* `Volume.HardLinked`: two names of one file;
* `cases_of_locate_eq`: what makes two paths lead to one file;
* `distinct_findFiles_iff`: when that happens to none of the files;
* `found_files_apart_but_for_aliases`: links and second names are all that can go wrong, and workers
  on files without them do what is done from file to file;
* `FoundTwice`, `file_found_twice`: both do go wrong.
-/

namespace SourceTidy

/-- Both paths name one file, which has an entry at each of them. -/
def Volume.HardLinked (v : Volume) (p q : FilePath) : Prop :=
  ∃ number, v.EntryAt p (.file number) ∧ v.EntryAt q (.file number)

section

variable {v : Volume} {root : FilePath} {filter : FileFilter} {paths : List FilePath}
  {p q : FilePath}

/-- A path that names a file leads to it. -/
theorem Volume.locate_of_entryAt {number : Nat} (hv : v.WellFormed)
    (h : v.EntryAt p (.file number)) :
    v.locate p = .ok number := by
  obtain ⟨folder, name, way, rfl, hfolder, hfile⟩ := h
  have hentry := hfile
  rw [Node.find?_append] at hentry
  obtain ⟨node, hnode, hlast⟩ := Option.bind_eq_some_iff.mp hentry
  exact Volume.locate_of_canonical (Volume.canonical_below hv hfolder hnode hlast (by simp)) hfile

/-- Two names of one file lead to it. -/
theorem Volume.HardLinked.not_apart (hv : v.WellFormed) (h : v.HardLinked p q) : ¬ v.Apart p q := by
  obtain ⟨number, hp, hq⟩ := h
  intro hapart
  exact hapart number (Volume.locate_of_entryAt hv hp) (Volume.locate_of_entryAt hv hq)

/-- Two paths lead to the same file only if one of them names a link, or both name the file. -/
theorem cases_of_locate_eq (hv : v.WellFormed) (h : findFiles v root filter = .ok paths)
    (hp : p ∈ paths) (hq : q ∈ paths) {number : Nat} (hlocatep : v.locate p = .ok number)
    (hlocateq : v.locate q = .ok number) : v.IsLink p ∨ v.IsLink q ∨ v.HardLinked p q := by
  obtain ⟨n, hn, hp⟩ := found_cases hv h p hp
  obtain ⟨m, hm, hq⟩ := found_cases hv h q hq
  obtain rfl := Except.ok.inj (hn.symm.trans hlocatep)
  obtain rfl := Except.ok.inj (hm.symm.trans hlocateq)
  rcases hp with hlink | hentry
  · exact Or.inl hlink
  · rcases hq with hlink | hentry'
    · exact Or.inr (Or.inl hlink)
    · exact Or.inr (Or.inr ⟨_, hentry, hentry'⟩)

/-- All is well if no link leads to another file that is found, and no file is found by two
names. -/
theorem distinct_findFiles_iff (hv : v.WellFormed) (h : findFiles v root filter = .ok paths) :
    v.Distinct paths ↔
      ∀ p ∈ paths, ∀ q ∈ paths, p ≠ q → (v.IsLink p → v.Apart p q) ∧ ¬ v.HardLinked p q := by
  constructor
  · intro hdistinct p hp q hq hne
    have hsymm : Std.Symm v.Apart := ⟨fun _ _ hapart => hapart.symm⟩
    have hapart : v.Apart p q := hdistinct.forall hp hq hne
    exact ⟨fun _ => hapart, fun hlinked => hlinked.not_apart hv hapart⟩
  · intro haliases
    refine List.Pairwise.imp_of_mem ?_ (nodup_findFiles hv.unique h)
    intro p q hp hq hne number hlocatep hlocateq
    rcases cases_of_locate_eq hv h hp hq hlocatep hlocateq with hlink | hlink | hlinked
    · exact (haliases p hp q hq hne).1 hlink number hlocatep hlocateq
    · exact (haliases q hq p hp hne.symm).1 hlink number hlocateq hlocatep
    · exact (haliases p hp q hq hne).2 hlinked

end

/-! ## Two paths to one file -/

/-- A line with a blank at its end. -/
def untidyLine : Stored := ⟨Bytes.ascii "a \n", true, true⟩

/-- Two links with the given targets, and two files beside them. -/
def linkedFiles (first second : String) : Volume where
  root := .folder true
    [("a.txt", .link first), ("b.txt", .link second), ("c.dat", .file 0), ("d.dat", .file 1)]
  store := [untidyLine, untidyLine]
  current := []

/-- A file with two names. -/
def twiceNamed : Volume where
  root := .folder true [("a.txt", .file 0), ("b.txt", .file 0)]
  store := [untidyLine]
  current := []

/-- The pattern `*.txt`. -/
def textFiles : FileFilter :=
  ⟨[⟨[.anyRun, .char '.', .char 't', .char 'x', .char 't']⟩], [], []⟩

def textPaths : List FilePath := [Run.topLevel "a.txt", Run.topLevel "b.txt"]

/-- Wherever the links lead, the tree can stand on a disk. -/
theorem wellFormed_linkedFiles (first second : String) : (linkedFiles first second).WellFormed := by
  refine Volume.wellFormed_of_flat rfl ?_ ?_ ?_
  · simp [Node.isFolder]
  · change ["a.txt", "b.txt", "c.dat", "d.dat"].Nodup
    decide
  · simp

/-- The links lead to the first file or to the second one. -/
theorem locate_linkedFiles (first second : String) :
    (linkedFiles "c.dat" second).locate (Run.topLevel "a.txt") = .ok 0 ∧
      (linkedFiles first "c.dat").locate (Run.topLevel "b.txt") = .ok 0 ∧
      (linkedFiles first "d.dat").locate (Run.topLevel "b.txt") = .ok 1 := by
  have hc : FilePath.ofTarget "c.dat" = ⟨false, ["c.dat"]⟩ := by decide
  have hd : FilePath.ofTarget "d.dat" = ⟨false, ["d.dat"]⟩ := by decide
  exact ⟨locate_topLevel_link (wellFormed_linkedFiles _ _) rfl rfl hc rfl,
    locate_topLevel_link (wellFormed_linkedFiles _ _) rfl rfl hc rfl,
    locate_topLevel_link (wellFormed_linkedFiles _ _) rfl rfl hd rfl⟩

/-- Links that lead to files are found, whatever the names of the files. -/
theorem findFiles_linkedFiles {first second : String} {m n : Nat}
    (hfirst : (linkedFiles first second).locate (Run.topLevel "a.txt") = .ok m)
    (hsecond : (linkedFiles first second).locate (Run.topLevel "b.txt") = .ok n) :
    findFiles (linkedFiles first second) ⟨true, []⟩ textFiles = .ok textPaths := by
  have hnames : textFiles.acceptsFile "a.txt" = true ∧ textFiles.acceptsFile "b.txt" = true ∧
      textFiles.acceptsFile "c.dat" = false ∧ textFiles.acceptsFile "d.dat" = false := by decide
  have hskips : ∀ name, textFiles.skipsFile name = false := fun _ => rfl
  have hsorted : ["a.txt", "b.txt", "c.dat", "d.dat"].Pairwise (· ≤ ·) := by decide
  have hfound :=
    findFiles_topLevel (v := linkedFiles first second) textFiles rfl (by exact hsorted)
  rw [hfound]
  simp [Node.discover, hnames, hskips, Volume.isFile_of_locate hfirst,
    Volume.isFile_of_locate hsecond, textPaths]

/-- The tree with a file of two names can stand on a disk. -/
theorem wellFormed_twiceNamed : twiceNamed.WellFormed := by
  refine Volume.wellFormed_of_flat rfl ?_ ?_ ?_
  · simp [Node.isFolder]
  · change ["a.txt", "b.txt"].Nodup
    decide
  · simp

/-- Both names of the file are found. -/
theorem findFiles_twiceNamed : findFiles twiceNamed ⟨true, []⟩ textFiles = .ok textPaths := by
  have hnames : textFiles.acceptsFile "a.txt" = true ∧ textFiles.acceptsFile "b.txt" = true := by
    decide
  have hskips : ∀ name, textFiles.skipsFile name = false := fun _ => rfl
  have hsorted : ["a.txt", "b.txt"].Pairwise (· ≤ ·) := by decide
  rw [findFiles_topLevel (v := twiceNamed) textFiles rfl (by exact hsorted)]
  simp [Node.discover, hnames, hskips, textPaths]

/-- In a tree as it can stand on a disk, two paths to one untidy file are found. It is corrected
once if the workers come one after the other, and twice if both read it before one of them
writes. -/
structure FoundTwice (v : Volume) : Prop where
  wellFormed : v.WellFormed
  found : findFiles v ⟨true, []⟩ textFiles = .ok textPaths
  shared : ∀ p ∈ textPaths, v.locate p = .ok 0
  sequential : (Run.tidyRun.sequential v textPaths).summary.fixes = 1
  parallel : (Run.tidyRun.parallel [0, 1] v textPaths).summary.fixes = 2

/-- Two paths to one file are all that it takes. -/
theorem foundTwice_of_locate {v : Volume} (hv : v.WellFormed)
    (hfound : findFiles v ⟨true, []⟩ textFiles = .ok textPaths)
    (hfirst : v.locate (Run.topLevel "a.txt") = .ok 0)
    (hsecond : v.locate (Run.topLevel "b.txt") = .ok 0) (hstore : v.store[0]? = some untidyLine) :
    FoundTwice v := by
  have hstored : v.stored (Run.topLevel "a.txt") = .ok untidyLine :=
    Volume.stored_eq_ok_iff.mpr ⟨0, hfirst, hstore⟩
  have hstored' : v.stored (Run.topLevel "b.txt") = .ok untidyLine :=
    Volume.stored_eq_ok_iff.mpr ⟨0, hsecond, hstore⟩
  -- what is written under one name is read under the other
  have hshared :
      ∀ s, (v.setStored (Run.topLevel "a.txt") s).stored (Run.topLevel "b.txt") = .ok s := by
    intro s
    refine Volume.stored_eq_ok_iff.mpr ⟨0, ?_, Volume.store_setStored_self hstored hfirst s⟩
    rw [Volume.locate_setStored, hsecond]
  refine ⟨hv, hfound, by simp [textPaths, hfirst, hsecond], ?_, ?_⟩
  · simp only [Run.sequential, textPaths, Run.sequentialFrom, Run.process_eq_act,
      Volume.act_of_stored hstored, Volume.act_of_stored (hshared _)]
    decide
  · have hverdict : ∀ path, Run.tidyRun.verdict path untidyLine =
        .change (Bytes.ascii "a\n") ⟨Run.tidyRun.fileAt path,
          (Run.tidyRun.report path untidyLine.bytes).diagnostics, false, true⟩ := fun _ => rfl
    simp only [Run.parallel, textPaths, List.map_cons, List.map_nil, List.foldl_cons,
      List.foldl_nil, Run.turn_cons_zero, Run.turn_cons_succ, Run.advance_waiting,
      Run.inspect_of_stored hstored, Run.inspect_of_stored hstored', hverdict, Run.Worker.after,
      Run.completeAll, Run.complete, Run.commit_eq_act, Volume.act_of_stored hstored,
      Volume.act_of_stored (hshared _)]
    decide

/-! ## Files and workers -/

/-- Every path that is found leads to a file, and no path is found twice. Two of them lead to one
file only if a link is among the two or both are names of the file. If neither happens then,
whatever the schedule, workers leave and tell what a run from file to file leaves and tells. -/
theorem found_files_apart_but_for_aliases (v : Volume) (root : FilePath) (filter : FileFilter)
    (paths : List FilePath) (hv : v.WellFormed) (h : findFiles v root filter = .ok paths) :
    paths.Nodup ∧
      (∀ p ∈ paths, ∃ number, v.locate p = .ok number ∧ ∀ q ∈ paths, v.locate q = .ok number →
        p = q ∨ v.IsLink p ∨ v.IsLink q ∨ v.HardLinked p q) ∧
      (v.Distinct paths ↔
        ∀ p ∈ paths, ∀ q ∈ paths, p ≠ q → (v.IsLink p → v.Apart p q) ∧ ¬ v.HardLinked p q) ∧
      (v.Distinct paths → ∀ (r : Run) (schedule : List Nat),
        r.parallel schedule v paths = r.sequential v paths) := by
  refine ⟨nodup_findFiles hv.unique h, ?_, distinct_findFiles_iff hv h, ?_⟩
  · intro p hp
    obtain ⟨number, hlocate, -⟩ := found_cases hv h p hp
    refine ⟨number, hlocate, ?_⟩
    intro q hq hlocateq
    exact Or.inr (cases_of_locate_eq hv h hp hq hlocate hlocateq)
  · intro hdistinct r schedule
    have hwork := Run.completeAll_foldl_turn r schedule (Run.pairwise_waiting hdistinct)
    rw [Run.sequential, Run.sequentialFrom_eq]
    simp only [Run.parallel, hwork]

/-- The links lead to different files. -/
theorem found_files_apart_but_for_aliases_linkedFiles :
    (linkedFiles "c.dat" "d.dat").WellFormed ∧
      findFiles (linkedFiles "c.dat" "d.dat") ⟨true, []⟩ textFiles = .ok textPaths ∧
      Run.tidyRun.parallel [1, 0, 1, 0] (linkedFiles "c.dat" "d.dat") textPaths =
        Run.tidyRun.sequential (linkedFiles "c.dat" "d.dat") textPaths := by
  have hv := wellFormed_linkedFiles "c.dat" "d.dat"
  obtain ⟨hfirst, -, hsecond⟩ := locate_linkedFiles "c.dat" "d.dat"
  have hfound := findFiles_linkedFiles hfirst hsecond
  obtain ⟨-, -, -, hparallel⟩ := found_files_apart_but_for_aliases _ _ _ _ hv hfound
  refine ⟨hv, hfound, hparallel ?_ _ _⟩
  simp [Volume.Distinct, Volume.Apart, textPaths, hfirst, hsecond]

/-- A file to which two links lead is found under both names, and so is a file that has two
names. -/
theorem file_found_twice : FoundTwice (linkedFiles "c.dat" "c.dat") ∧ FoundTwice twiceNamed := by
  constructor
  · obtain ⟨hfirst, hsecond, -⟩ := locate_linkedFiles "c.dat" "c.dat"
    have hfound := findFiles_linkedFiles hfirst hsecond
    exact foundTwice_of_locate (wellFormed_linkedFiles _ _) hfound hfirst hsecond rfl
  · have hfirst : twiceNamed.locate (Run.topLevel "a.txt") = .ok 0 :=
      Run.locate_topLevel rfl rfl (by decide)
    have hsecond : twiceNamed.locate (Run.topLevel "b.txt") = .ok 0 :=
      Run.locate_topLevel rfl rfl (by decide)
    exact foundTwice_of_locate wellFormed_twiceNamed findFiles_twiceNamed hfirst hsecond rfl

end SourceTidy
