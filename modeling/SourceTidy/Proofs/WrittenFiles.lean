import Mathlib.Data.Finset.Card
import Mathlib.Data.Finset.Range
import SourceTidy.Proofs.OneFile
import SourceTidy.Rule.Encoding
import SourceTidy.Rule.Whitespace

/-! # What a run writes

A run that takes the files one after the other, for any list of paths of which no two lead to the
same file. Each file is treated as if it were the only one: what the run leaves in it is what it
makes of what was stored there before the run (`stored_sequentialFrom`). All else follows from what
is made of one file.

* `store_sequentialFrom`: files that are not in the list stay as they are;
* `written_sequentialFrom`: the files that count as written are those that have changed;
* `sequential_writes_only_completed`: a run that only reads changes nothing, and a run that corrects
  changes a file only to what its completed check has left.
-/

namespace SourceTidy.Run

open Volume Bytes

variable {r : Run} {v : Volume} {path : FilePath} {paths : List FilePath}

/-! ## What a run leaves -/

/-- The volume after the files have been taken one after the other. -/
theorem volume_sequentialFrom_cons (r : Run) (v : Volume) (s : Summary) (path : FilePath)
    (paths : List FilePath) :
    (r.sequentialFrom v s (path :: paths)).volume =
      (r.sequentialFrom (r.process v path).1 (s.add (r.process v path).2) paths).volume := rfl

/-- Files stay where they are, so paths to different files stay such. -/
theorem distinct_process (r : Run) (h : v.Distinct paths) (path : FilePath) :
    (r.process v path).1.Distinct paths := by
  refine List.Pairwise.imp ?_ h
  intro p q hapart n hp
  rw [(accesses_process r path).locate_eq] at hp ⊢
  exact hapart n hp

/-- A step leaves the tree as it is, and makes and removes no file. -/
theorem tree_process (r : Run) (v : Volume) (path : FilePath) :
    (r.process v path).1.root = v.root ∧ (r.process v path).1.current = v.current ∧
      (r.process v path).1.store.length = v.store.length := by
  rw [process_eq_act]
  unfold act
  split
  · exact ⟨root_setStored .., current_setStored .., length_store_setStored ..⟩
  · exact ⟨rfl, rfl, rfl⟩

/-- A run changes neither the tree nor the number of files. -/
theorem tree_sequentialFrom (r : Run) (v : Volume) (s : Summary) (paths : List FilePath) :
    (r.sequentialFrom v s paths).volume.root = v.root ∧
      (r.sequentialFrom v s paths).volume.current = v.current ∧
      (r.sequentialFrom v s paths).volume.store.length = v.store.length := by
  induction paths generalizing v s with
  | nil => exact ⟨rfl, rfl, rfl⟩
  | cons path paths ih =>
    obtain ⟨hroot, hcurrent, hlength⟩ := tree_process r v path
    obtain ⟨hroot', hcurrent', hlength'⟩ := ih (r.process v path).1 (s.add (r.process v path).2)
    exact ⟨hroot'.trans hroot, hcurrent'.trans hcurrent, hlength'.trans hlength⟩

/-- A step leaves all other files alone. -/
theorem store_process_of_ne (r : Run) {n : Nat} (h : v.locate path ≠ .ok n) :
    (r.process v path).1.store[n]? = v.store[n]? := by
  rw [process_eq_act]
  unfold act
  split
  · exact store_setStored_of_ne h _
  · rfl

/-- A file that is not among those of the run stays as it is. -/
theorem store_sequentialFrom (r : Run) (v : Volume) (s : Summary) {n : Nat}
    (h : ∀ path ∈ paths, v.locate path ≠ .ok n) :
    (r.sequentialFrom v s paths).volume.store[n]? = v.store[n]? := by
  induction paths generalizing v s with
  | nil => rfl
  | cons path paths ih =>
    obtain ⟨hpath, hpaths⟩ := List.forall_mem_cons.mp h
    rw [volume_sequentialFrom_cons, ih, store_process_of_ne r hpath]
    intro q hq
    rw [(accesses_process r path).locate_eq]
    exact hpaths q hq

/-- A file that no path of the list leads to is left alone. -/
theorem stored_sequentialFrom_of_apart (r : Run) (v : Volume) (s : Summary)
    (h : ∀ q ∈ paths, v.Apart path q) :
    (r.sequentialFrom v s paths).volume.stored path = v.stored path := by
  obtain ⟨hroot, hcurrent, -⟩ := tree_sequentialFrom r v s paths
  unfold stored
  rw [locate_congr hroot hcurrent]
  cases hlocate : v.locate path with
  | error e => rfl
  | ok n =>
    have hothers : ∀ q ∈ paths, v.locate q ≠ .ok n := fun q hq => h q hq n hlocate
    simp only [bind, Except.bind, store_sequentialFrom r v s hothers]

/-- What a run leaves in a file is what it makes of what was stored there before the run. -/
theorem stored_sequentialFrom (r : Run) (v : Volume) (s : Summary) (h : v.Distinct paths)
    (hpath : path ∈ paths) :
    (r.sequentialFrom v s paths).volume.stored path =
      (v.stored path).map fun s => (r.treat path s).1 := by
  induction paths generalizing v s with
  | nil => cases hpath
  | cons p paths ih =>
    obtain ⟨hhead, htail⟩ := List.pairwise_cons.mp h
    rw [volume_sequentialFrom_cons]
    rcases List.mem_cons.mp hpath with rfl | hmem
    · -- the files that follow are others
      have hothers : ∀ q ∈ paths, (r.process v path).1.Apart path q := by
        intro q hq n hn
        rw [(accesses_process r path).locate_eq] at hn ⊢
        exact hhead q hq n hn
      rw [stored_sequentialFrom_of_apart r _ _ hothers, process_eq_act, stored_act_self]
    · rw [ih _ _ (distinct_process r htail p) hmem, process_eq_act, stored_act_of_apart]
      exact hhead path hmem

/-! ## How many files are written -/

/-- Findings are counted by their severity, and nothing else is. -/
theorem foldl_record (ds : List Diagnostic) (s : Summary) :
    ds.foldl Summary.record s =
      { s with
        errors := s.errors + ds.countP Diagnostic.isError
        warnings := s.warnings + ds.countP Diagnostic.isWarning
        fixes := s.fixes + ds.countP Diagnostic.isFix } := by
  induction ds generalizing s with
  | nil => rfl
  | cons d ds ih =>
    rw [List.foldl_cons, ih]
    cases hseverity : d.severity <;>
      simp [Summary.record, Diagnostic.isError, Diagnostic.isWarning, Diagnostic.isFix,
        hseverity] <;> omega

theorem written_add (s : Summary) (p : Processed) :
    (s.add p).written = s.written + if p.written then 1 else 0 := by
  simp only [Summary.add, Summary.account, foldl_record]
  split <;> rfl

/-- The files in which the volumes differ. -/
def changed (v v' : Volume) : Finset Nat :=
  (Finset.range v.store.length).filter fun n => v'.store[n]? ≠ v.store[n]?

/-- A step to one file and the steps to others change different files. -/
theorem card_changed_trans {v₁ v₂ : Volume} (hlength : v₁.store.length = v.store.length)
    (h : ∀ n : Nat, v₁.store[n]? = v.store[n]? ∨ v₂.store[n]? = v₁.store[n]?) :
    (changed v v₂).card = (changed v v₁).card + (changed v₁ v₂).card := by
  have hunion : changed v v₂ = changed v v₁ ∪ changed v₁ v₂ := by
    ext n
    rcases h n with hn | hn <;> simp [changed, hlength, hn]
  have hdisjoint : Disjoint (changed v v₁) (changed v₁ v₂) := by
    rw [Finset.disjoint_left]
    intro n hfirst hsecond
    rcases h n with hn | hn
    · exact (Finset.mem_filter.mp hfirst).2 hn
    · exact (Finset.mem_filter.mp hsecond).2 hn
  rw [hunion, Finset.card_union_of_disjoint hdisjoint]

/-- A step changes one file if it counts as written, and else none. -/
theorem card_changed_process (r : Run) (v : Volume) (path : FilePath) :
    (changed v (r.process v path).1).card = if (r.process v path).2.written then 1 else 0 := by
  rw [process_eq_act]
  cases hstored : v.stored path with
  | error e => simp [act_of_not_stored hstored, changed, unreadable]
  | ok s =>
    rw [act_of_stored hstored]
    by_cases hsame : (r.treat path s).1 = s
    · have hquiet : ¬ (r.treat path s).2.written = true :=
        fun hwritten => (treat_written_iff r path s).mp hwritten hsame
      rw [if_neg hquiet, hsame, setStored_stored hstored]
      simp [changed]
    · have hwritten := (treat_written_iff r path s).mpr hsame
      obtain ⟨n, hlocate, hstore⟩ := stored_eq_ok_iff.mp hstored
      obtain ⟨hlt, -⟩ := List.getElem?_eq_some_iff.mp hstore
      -- the file that is treated is the only one that differs
      have hone : changed v (v.setStored path (r.treat path s).1) = {n} := by
        ext m
        simp only [changed, Finset.mem_filter, Finset.mem_range, Finset.mem_singleton]
        constructor
        · rintro ⟨-, hne⟩
          by_contra hm
          refine hne (store_setStored_of_ne ?_ _)
          rw [hlocate]
          simpa using Ne.symm hm
        · rintro rfl
          rw [store_setStored_self hstored hlocate, hstore]
          exact ⟨hlt, by simpa using hsame⟩
      rw [if_pos hwritten, hone, Finset.card_singleton]

/-- The run counts as written the files that it has changed. -/
theorem written_sequentialFrom (r : Run) (v : Volume) (s : Summary) (h : v.Distinct paths) :
    (r.sequentialFrom v s paths).summary.written =
      s.written + (changed v (r.sequentialFrom v s paths).volume).card := by
  induction paths generalizing v s with
  | nil => simp [sequentialFrom, changed]
  | cons path paths ih =>
    obtain ⟨hhead, htail⟩ := List.pairwise_cons.mp h
    obtain ⟨-, -, hlength⟩ := tree_process r v path
    have hrest :=
      ih (r.process v path).1 (s.add (r.process v path).2) (distinct_process r htail path)
    -- the file of the first path is none of the others
    have hother : ∀ n : Nat, (r.process v path).1.store[n]? = v.store[n]? ∨
        (r.sequentialFrom v s (path :: paths)).volume.store[n]? =
          (r.process v path).1.store[n]? := by
      intro n
      by_cases hn : v.locate path = .ok n
      · right
        rw [volume_sequentialFrom_cons]
        refine store_sequentialFrom r _ _ fun q hq => ?_
        rw [(accesses_process r path).locate_eq]
        exact hhead q hq n hn
      · left
        exact store_process_of_ne r hn
    rw [card_changed_trans hlength hother, card_changed_process, ← Nat.add_assoc, ← written_add]
    exact hrest

/-! ## Main results -/

/-- What a run may do to a volume. -/
structure WritesOnlyCompleted (r : Run) (v : Volume) (paths : List FilePath) (result : RunResult) :
    Prop where
  /-- The folders stay, and so does the number of files. -/
  tree : result.volume.root = v.root ∧ result.volume.current = v.current ∧
    result.volume.store.length = v.store.length
  /-- A run that only reads changes nothing. -/
  readOnly : r.mode = .readOnly → result.volume = v
  /-- A file that has changed is in the list, could be read, and its check was completed with
  another content, which is what it holds now. -/
  changes : ∀ (n : Nat) (old new : Stored), v.store[n]? = some old →
    result.volume.store[n]? = some new → new ≠ old →
    r.mode = .fix ∧ old.readable = true ∧ old.writable = true ∧
      ∃ path ∈ paths, v.locate path = .ok n ∧
      (r.report path old.bytes).state = .completed ∧ (r.report path old.bytes).content ≠ old.bytes ∧
      new = { old with bytes := (r.report path old.bytes).content }
  /-- Where that content can be written, the file holds it. -/
  corrected : ∀ path ∈ paths, ∀ (old : Bytes) (w : Volume), v.read path = .ok old → r.mode = .fix →
    (r.report path old).state = .completed → (r.report path old).content ≠ old →
    v.write path (r.report path old).content = .ok w →
    result.volume.read path = .ok (r.report path old).content
  /-- A file whose check was ended by a rule is what it was. -/
  abandoned : ∀ path ∈ paths, ∀ (old : Bytes) (rule : String), v.read path = .ok old →
    (r.report path old).state = .failed rule → result.volume.read path = .ok old
  /-- The run counts the files that have changed. -/
  written : result.summary.written =
    ((Finset.range v.store.length).filter fun n => result.volume.store[n]? ≠ v.store[n]?).card

/-- A run that only reads leaves the volume as it is. -/
theorem volume_sequentialFrom_of_readOnly (hmode : r.mode = .readOnly) (v : Volume) (s : Summary)
    (paths : List FilePath) : (r.sequentialFrom v s paths).volume = v := by
  have hprocess : ∀ path, (r.process v path).1 = v := by
    intro path
    rw [process_eq_act]
    cases hstored : v.stored path with
    | error e => rw [act_of_not_stored hstored]
    | ok s =>
      rw [act_of_stored hstored]
      rcases treat_cases r path s with ⟨hcorrects, -⟩ | ⟨-, hsame, -⟩
      · rw [hcorrects.mode_eq] at hmode
        cases hmode
      · rw [hsame, setStored_stored hstored]
  induction paths generalizing s with
  | nil => rfl
  | cons path paths ih => rw [volume_sequentialFrom_cons, hprocess, ih]

/-- What a run leaves in a file is what it makes of what was there. -/
theorem stored_sequential_of_stored {s : Stored} (h : v.Distinct paths) (hpath : path ∈ paths)
    (hstored : v.stored path = .ok s) :
    (r.sequential v paths).volume.stored path = .ok (r.treat path s).1 := by
  have hleft := stored_sequentialFrom r v .empty h hpath
  rw [hstored] at hleft
  exact hleft

/-- A file that has changed is one that the run had something to write to. -/
theorem corrects_of_changed {n : Nat} {old new : Stored} (h : v.Distinct paths)
    (hold : v.store[n]? = some old) (hnew : (r.sequential v paths).volume.store[n]? = some new)
    (hne : new ≠ old) :
    ∃ path ∈ paths, v.locate path = .ok n ∧ r.Corrects path old ∧ old.writable = true ∧
      new = { old with bytes := (r.report path old.bytes).content } := by
  -- the file has changed, so one of the paths leads to it
  obtain ⟨path, hpath, hlocate⟩ : ∃ path ∈ paths, v.locate path = .ok n := by
    by_contra hnone
    push Not at hnone
    have hsame := store_sequentialFrom r v .empty hnone
    rw [hold] at hsame
    exact hne (Option.some.inj (hnew.symm.trans hsame))
  have hbefore : v.stored path = .ok old := stored_eq_ok_iff.mpr ⟨n, hlocate, hold⟩
  have hafter : (r.sequential v paths).volume.stored path = .ok new := by
    obtain ⟨hroot, hcurrent, -⟩ := tree_sequentialFrom r v .empty paths
    exact stored_eq_ok_iff.mpr ⟨n, (locate_congr hroot hcurrent path).trans hlocate, hnew⟩
  have htreat : (r.treat path old).1 = new := by
    rw [stored_sequential_of_stored h hpath hbefore] at hafter
    exact Except.ok.inj hafter
  rcases treat_cases r path old with ⟨hcorrects, hwritable, hbytes, -⟩ | ⟨-, hsame, -⟩
  · exact ⟨path, hpath, hlocate, hcorrects, hwritable, htreat.symm.trans hbytes⟩
  · exact absurd (htreat.symm.trans hsame) hne

/-- A file that the run corrects has the corrected content. -/
theorem read_sequential_of_corrects {s : Stored} (h : v.Distinct paths) (hpath : path ∈ paths)
    (hstored : v.stored path = .ok s) (hcorrects : r.Corrects path s)
    (hwritable : s.writable = true) :
    (r.sequential v paths).volume.read path = .ok (r.report path s.bytes).content := by
  have hafter := stored_sequential_of_stored (r := r) h hpath hstored
  rcases treat_cases r path s with ⟨-, -, hbytes, -⟩ | ⟨hnot, -⟩
  · rw [hbytes] at hafter
    exact read_eq_ok_iff.mpr ⟨_, hafter, hcorrects.readable, rfl⟩
  · exact absurd ⟨hcorrects, hwritable⟩ hnot

/-- A file that it does not correct has its old content. -/
theorem read_sequential_of_not_corrects {s : Stored} (h : v.Distinct paths) (hpath : path ∈ paths)
    (hstored : v.stored path = .ok s) (hreadable : s.readable = true) (hnot : ¬ r.Corrects path s) :
    (r.sequential v paths).volume.read path = .ok s.bytes := by
  have hafter := stored_sequential_of_stored (r := r) h hpath hstored
  rcases treat_cases r path s with ⟨hcorrects, -⟩ | ⟨-, hsame, -⟩
  · exact absurd hcorrects hnot
  · rw [hsame] at hafter
    exact read_eq_ok_iff.mpr ⟨s, hafter, hreadable, rfl⟩

/-- For every list of different files: a run that only reads changes nothing, and a run that
corrects changes a file only to what its completed check has left. -/
theorem sequential_writes_only_completed (r : Run) (v : Volume) (paths : List FilePath)
    (h : v.Distinct paths) : r.WritesOnlyCompleted v paths (r.sequential v paths) := by
  constructor
  case tree => exact tree_sequentialFrom r v .empty paths
  case readOnly =>
    intro hmode
    exact volume_sequentialFrom_of_readOnly hmode v .empty paths
  case changes =>
    intro n old new hold hnew hne
    obtain ⟨path, hpath, hlocate, hcorrects, hwritable, hbytes⟩ :=
      corrects_of_changed h hold hnew hne
    exact ⟨hcorrects.mode_eq, hcorrects.readable, hwritable, path, hpath, hlocate,
      hcorrects.completed, hcorrects.content_ne, hbytes⟩
  case corrected =>
    intro path hpath old w hread hmode hcompleted hcontent hwrite
    obtain ⟨s, hstored, hreadable, rfl⟩ := read_eq_ok_iff.mp hread
    have hwritable := writable_of_write hwrite hstored
    exact read_sequential_of_corrects h hpath hstored
      ⟨hreadable, hmode, hcompleted, hcontent⟩ hwritable
  case abandoned =>
    intro path hpath old rule hread hfailed
    obtain ⟨s, hstored, hreadable, rfl⟩ := read_eq_ok_iff.mp hread
    refine read_sequential_of_not_corrects h hpath hstored hreadable ?_
    intro hcorrects
    rw [hcorrects.completed] at hfailed
    cases hfailed
  case written =>
    have hwritten := written_sequentialFrom r v .empty h
    rw [Summary.empty, Nat.zero_add] at hwritten
    exact hwritten

/-- Three files in the root folder. The first has a blank at the end of a line, and so has the
second, which is no text besides; the third is in order. -/
def threeFiles : Volume where
  root := .folder true [("a.txt", .file 0), ("b.txt", .file 1), ("c.txt", .file 2)]
  store := [⟨ascii "a \n", true, true⟩, ⟨[0xFF, 0x20, 0x0A], true, true⟩, ⟨ascii "c\n", true, true⟩]
  current := []

/-- The entry of that name in the root folder. -/
def topLevel (name : String) : FilePath := ⟨true, [name]⟩

/-- A name in the root folder leads to its file. -/
theorem locate_topLevel {name : String} {n : Nat} {listable : Bool} {entries : List (String × Node)}
    (hroot : v.root = .folder listable entries) (hentry : entries.lookup name = some (.file n))
    (hname : name ≠ "." ∧ name ≠ "..") : v.locate (topLevel name) = .ok n := by
  have hfollow : v.follow maxLinks [] [name] = .ok [name] := by
    rw [follow, hroot]
    simp only [Node.find?, hname.1, hname.2, if_false, hentry]
    rw [follow]
    rfl
  have hfind : v.root.find? [name] = some (.file n) := by
    simp only [hroot, Node.find?, Node.entries, hentry]
  have hcanonical : v.canonical (topLevel name) = .ok [name] := by
    simp only [canonical, topLevel, if_true, hfollow, Except.mapError]
  simp only [locate, resolve, hcanonical, hfind, bind, Except.bind]

def threePaths : List FilePath := [topLevel "a.txt", topLevel "b.txt", topLevel "c.txt"]

theorem locate_threeFiles :
    threeFiles.locate (topLevel "a.txt") = .ok 0 ∧ threeFiles.locate (topLevel "b.txt") = .ok 1 ∧
      threeFiles.locate (topLevel "c.txt") = .ok 2 :=
  ⟨locate_topLevel rfl rfl (by decide), locate_topLevel rfl rfl (by decide),
    locate_topLevel rfl rfl (by decide)⟩

theorem distinct_threeFiles : threeFiles.Distinct threePaths := by
  obtain ⟨ha, hb, hc⟩ := locate_threeFiles
  simp [Distinct, Volume.Apart, threePaths, ha, hb, hc]

/-- White space at the ends of lines is removed before the encoding is looked at. -/
def tidyRun : Run := ⟨⟨true, []⟩, [Rule.whitespace .lf, Rule.utf8], .fix⟩

/-- The first file is corrected. The second one is abandoned after its white space has been removed,
and keeps it. -/
theorem sequential_writes_only_completed_threeFiles :
    threeFiles.Distinct threePaths ∧
      (tidyRun.sequential threeFiles threePaths).volume.read (topLevel "a.txt") =
        .ok (ascii "a\n") ∧
      (tidyRun.sequential threeFiles threePaths).volume.read (topLevel "b.txt") =
        .ok [0xFF, 0x20, 0x0A] := by
  have hrun := sequential_writes_only_completed tidyRun threeFiles threePaths distinct_threeFiles
  obtain ⟨ha, hb, -⟩ := locate_threeFiles
  have hreadA : threeFiles.read (topLevel "a.txt") = .ok (ascii "a \n") := by
    simp only [Volume.read, ha]
    rfl
  have hreadB : threeFiles.read (topLevel "b.txt") = .ok [0xFF, 0x20, 0x0A] := by
    simp only [Volume.read, hb]
    rfl
  have hwrite : ∃ w, threeFiles.write (topLevel "a.txt") (ascii "a\n") = .ok w := by
    simp only [Volume.write, ha]
    exact ⟨_, rfl⟩
  obtain ⟨w, hwrite⟩ := hwrite
  refine ⟨distinct_threeFiles, ?_, ?_⟩
  · have hcontent : (tidyRun.report (topLevel "a.txt") (ascii "a \n")).content = ascii "a\n" := by
      decide
    have hcorrected := hrun.corrected (topLevel "a.txt") (by decide) (ascii "a \n") w hreadA rfl
      (by decide) (by decide)
    rw [hcontent] at hcorrected
    exact hcorrected hwrite
  · exact hrun.abandoned (topLevel "b.txt") (by decide) _ "utf8" hreadB (by decide)

end SourceTidy.Run
