import Mathlib.Logic.Relation
import Mathlib.Tactic.Common
import SourceTidy.Settings.Find

/-! # The search for a settings file

The search goes up from a folder, one folder after the other, until there is a settings file, a
repository or nothing above. What it finds is said without going up: it is the file of the nearest
folder that has one, and no folder on the way there is a repository.

* `look`, `Answers`: a look at one folder, and the search as one look after the other;
* `Settles`: the file that the search has to find;
* `settles_iff_of_above`: from a folder with nothing in it, it is found as from the one above;
* `findFile_finds_nearest`: the search ends, and finds that file and nothing else.
-/

namespace SourceTidy.Settings

open Relation

/-- The folder `e` is right above `d`. -/
def Above (d e : FilePath) : Prop := d.parent? = some e

/-- The file is the one that settings are read from in folder `d`: it comes before all others
there. -/
def IsFileOf (v : Volume) (d file : FilePath) : Prop :=
  ∃ before name after, fileNames = before ++ name :: after ∧ file = d.child name ∧
    v.isFile file = true ∧
    ∀ other ∈ before, v.isFile (d.child other) = false

/-- There is no settings file in folder `d`. -/
def HasNoFile (v : Volume) (d : FilePath) : Prop :=
  ∀ name ∈ fileNames, v.isFile (d.child name) = false

def IsRepository (v : Volume) (d : FilePath) : Prop := v.isPresent (d.child ".git") = true

/-- Folder `d` is `start` or above it, and the file is the one of the folder. From `start` up to the
folder, but for the folder itself, there is neither a settings file nor a repository. -/
structure Settles (v : Volume) (start d file : FilePath) : Prop where
  above : ReflTransGen Above start d
  file : IsFileOf v d file
  nearest : ∀ e, ReflTransGen Above start e → TransGen Above e d → HasNoFile v e
  inside : ∀ e, ReflTransGen Above start e → TransGen Above e d → ¬ IsRepository v e

/-- A look at one folder: the answer, or the folder to look at next. -/
def look (v : Volume) (d : FilePath) : Option FilePath ⊕ FilePath :=
  match fileIn? v d with
  | some file => .inl (some file)
  | none =>
    if v.isPresent (d.child ".git") then .inl none
    else match d.parent? with
      | none => .inl none
      | some above => .inr above

/-- The search from `d` goes up `n` times and then ends with the answer. -/
inductive Answers (v : Volume) :
    (n : Nat) → (d : FilePath) → (answer : Option FilePath) → Prop where
  | now {d : FilePath} {answer : Option FilePath} (h : look v d = .inl answer) :
      Answers v 0 d answer
  | next {n : Nat} {d above : FilePath} {answer : Option FilePath} (h : look v d = .inr above)
      (hnext : Answers v n above answer) : Answers v (n + 1) d answer

variable {v : Volume} {start d e above file : FilePath}

/-! ## One folder -/

/-- A settings file in a folder is the first one by its name. -/
theorem fileIn?_eq_some_iff : fileIn? v d = some file ↔ IsFileOf v d file := by
  rw [fileIn?, List.find?_eq_some_iff_append]
  constructor
  · rintro ⟨hfile, before, after, hnames, hbefore⟩
    obtain ⟨names, rest, hsplit, rfl, hrest⟩ := List.map_eq_append_iff.mp hnames
    obtain ⟨name, more, rfl, rfl, -⟩ := List.map_eq_cons_iff.mp hrest
    refine ⟨names, name, more, hsplit, rfl, hfile, ?_⟩
    intro other hother
    simpa using hbefore (d.child other) (List.mem_map_of_mem hother)
  · rintro ⟨before, name, after, hsplit, rfl, hfile, hbefore⟩
    refine ⟨hfile, before.map d.child, after.map d.child, ?_, ?_⟩
    · rw [hsplit, List.map_append, List.map_cons]
    · intro other hother
      obtain ⟨name', hname', rfl⟩ := List.mem_map.mp hother
      simpa using hbefore name' hname'

theorem fileIn?_eq_none_iff : fileIn? v d = none ↔ HasNoFile v d := by
  rw [fileIn?, List.find?_eq_none]
  simp [HasNoFile]

theorem IsFileOf.not_hasNoFile (h : IsFileOf v d file) : ¬ HasNoFile v d := by
  intro hnone
  rw [← fileIn?_eq_some_iff, fileIn?_eq_none_iff.mpr hnone] at h
  cases h

/-! ## Going up -/

/-- Each time up, the path is shorter by one name. -/
theorem Above.length (h : Above d e) : e.parts.length + 1 = d.parts.length := by
  unfold Above FilePath.parent? at h
  split_ifs at h with hempty
  cases h
  rw [List.isEmpty_iff] at hempty
  have hpos := List.length_pos_iff.mpr hempty
  rw [List.length_dropLast]
  omega

theorem Above.eq (h : Above d e) (h' : Above d above) : e = above :=
  Option.some.inj (h.symm.trans h')

/-- A path further up is shorter. -/
theorem length_lt_of_transGen (h : TransGen Above d e) : e.parts.length < d.parts.length := by
  induction h with
  | single h =>
    have hlength := h.length
    omega
  | tail _ h ih =>
    have hlength := h.length
    omega

/-- No folder is above itself. -/
theorem not_transGen_of_reflTransGen (h : ReflTransGen Above start e) :
    ¬ TransGen Above e start := by
  intro hup
  have hcycle := length_lt_of_transGen (TransGen.trans_right h hup)
  exact Nat.lt_irrefl _ hcycle

/-! ## One look after the other -/

/-- All that a look at a folder can tell. -/
inductive Looks (v : Volume) (d : FilePath) : Option FilePath ⊕ FilePath → Prop where
  | found {file : FilePath} (hfile : IsFileOf v d file) : Looks v d (.inl (some file))
  | repository (hnone : HasNoFile v d) (hrepository : IsRepository v d) : Looks v d (.inl none)
  | top (hnone : HasNoFile v d) (hrepository : ¬ IsRepository v d) (htop : ∀ e, ¬ Above d e) :
      Looks v d (.inl none)
  | up {above : FilePath} (hnone : HasNoFile v d) (hrepository : ¬ IsRepository v d)
      (habove : Above d above) :
      Looks v d (.inr above)

/-- A look at a folder tells one of these. -/
theorem looks_look (v : Volume) (d : FilePath) : Looks v d (look v d) := by
  unfold look
  cases hfile : fileIn? v d with
  | some file => exact .found (fileIn?_eq_some_iff.mp hfile)
  | none =>
    have hnone := fileIn?_eq_none_iff.mp hfile
    dsimp only
    split_ifs with hrepository
    · exact .repository hnone hrepository
    · cases hparent : d.parent? with
      | none =>
        refine .top hnone hrepository ?_
        intro e he
        exact Option.some_ne_none e (he.symm.trans hparent)
      | some above => exact .up hnone hrepository hparent

/-- The search in a folder that has one above it. -/
theorem findFile_concat (v : Volume) (absolute : Bool) (parts : List String) (name : String) :
    findFile v ⟨absolute, parts ++ [name]⟩ =
      match fileIn? v ⟨absolute, parts ++ [name]⟩ with
      | some file => some file
      | none =>
        if v.isPresent (FilePath.child ⟨absolute, parts ++ [name]⟩ ".git") then none
        else findFile v ⟨absolute, parts⟩ := by
  have hparts : (name :: parts.reverse).reverse = parts ++ [name] := by simp
  rw [findFile, List.reverse_append, List.reverse_singleton, List.singleton_append, search, hparts]
  rfl

/-- The search is made of such looks. -/
theorem findFile_of_look {r : Option FilePath ⊕ FilePath} (h : look v d = r) :
    findFile v d = r.elim id (findFile v) := by
  subst h
  obtain ⟨absolute, parts⟩ := d
  unfold look
  rcases List.eq_nil_or_concat parts with rfl | ⟨parts, name, rfl⟩
  -- at the root there is nothing above, so the search ends with this look
  · show fileIn? v ⟨absolute, []⟩ = _
    cases fileIn? v ⟨absolute, []⟩ with
    | some file => rfl
    | none =>
      dsimp only
      split_ifs <;> rfl
  · rw [List.concat_eq_append, findFile_concat]
    have hparent : FilePath.parent? ⟨absolute, parts ++ [name]⟩ = some ⟨absolute, parts⟩ := by
      simp [FilePath.parent?]
    cases fileIn? v ⟨absolute, parts ++ [name]⟩ with
    | some file => rfl
    | none =>
      dsimp only
      rw [hparent]
      split_ifs <;> rfl

/-- The search ends. -/
theorem exists_answers (v : Volume) (start : FilePath) :
    ∃ n, n ≤ start.parts.length ∧ Answers v n start (findFile v start) := by
  -- the path of the folder above has one name less
  induction hlength : start.parts.length using Nat.strongRecOn generalizing start with
  | _ length ih =>
    subst hlength
    cases hlook : look v start with
    | inl answer =>
      refine ⟨0, Nat.zero_le _, .now ?_⟩
      rw [hlook, findFile_of_look hlook]
      rfl
    | inr above =>
      have hcases := looks_look v start
      rw [hlook] at hcases
      cases hcases with
      | up hnone hrepository habove =>
        have hshorter := habove.length
        obtain ⟨n, hn, hanswers⟩ := ih above.parts.length (by omega) above rfl
        refine ⟨n + 1, by omega, .next hlook ?_⟩
        rw [findFile_of_look hlook]
        exact hanswers

/-! ## What is found -/

/-- If the folder has a file, that is the one. -/
theorem settles_iff_of_file {p : FilePath} (h : IsFileOf v start file) :
    (∃ d, Settles v start d p) ↔ file = p := by
  constructor
  · rintro ⟨d, hup, hp, hnearest, -⟩
    rcases reflTransGen_iff_eq_or_transGen.mp hup with rfl | hup
    · rw [← fileIn?_eq_some_iff] at h hp
      exact Option.some.inj (h.symm.trans hp)
    · exact absurd (hnearest start .refl hup) h.not_hasNoFile
  · rintro rfl
    refine ⟨start, .refl, h, ?_, ?_⟩
    · intro e he hup
      exact absurd hup (not_transGen_of_reflTransGen he)
    · intro e he hup
      exact absurd hup (not_transGen_of_reflTransGen he)

/-- Without a file in the folder, the file is found above, and not beyond a repository. -/
theorem Settles.transGen {p : FilePath} (hnone : HasNoFile v start) (h : Settles v start d p) :
    TransGen Above start d ∧ ¬ IsRepository v start := by
  rcases reflTransGen_iff_eq_or_transGen.mp h.above with rfl | hup
  · exact absurd hnone h.file.not_hasNoFile
  · exact ⟨hup, h.inside start .refl hup⟩

/-- From a folder with nothing in it, the same file is to be found as from the one above. -/
theorem settles_iff_of_above {p : FilePath} (hnone : HasNoFile v start)
    (hrepository : ¬ IsRepository v start) (habove : Above start above) :
    Settles v start d p ↔ Settles v above d p := by
  -- the way up from a folder starts with the one above it
  have hway : ∀ {e}, TransGen Above start e → ReflTransGen Above above e := by
    intro e hup
    obtain ⟨next, hnext, hmore⟩ := TransGen.head'_iff.mp hup
    obtain rfl := habove.eq hnext
    exact hmore
  constructor
  · intro h
    obtain ⟨hup, -⟩ := h.transGen hnone
    refine ⟨hway hup, h.file, ?_, ?_⟩
    · intro e he
      exact h.nearest e (.head habove he)
    · intro e he
      exact h.inside e (.head habove he)
  · intro h
    refine ⟨.head habove h.above, h.file, ?_, ?_⟩
    · intro e he hup
      rcases reflTransGen_iff_eq_or_transGen.mp he with rfl | he
      · exact hnone
      · exact h.nearest e (hway he) hup
    · intro e he hup
      rcases reflTransGen_iff_eq_or_transGen.mp he with rfl | he
      · exact hrepository
      · exact h.inside e (hway he) hup

/-- The search finds the file that it has to find. -/
theorem findFile_eq_some_iff {p : FilePath} :
    findFile v start = some p ↔ ∃ d, Settles v start d p := by
  -- as before, on the length of the path; each look settles the matter or leaves it to the folder
  -- above
  induction hlength : start.parts.length using Nat.strongRecOn generalizing start with
  | _ length ih =>
    subst hlength
    have hlook := looks_look v start
    generalize hr : look v start = r at hlook
    rw [findFile_of_look hr]
    cases hlook with
    | found hfile =>
      rw [settles_iff_of_file hfile]
      exact Option.some_inj
    | repository hnone hrepository =>
      refine iff_of_false (Option.some_ne_none p).symm ?_
      rintro ⟨d, hsettles⟩
      exact (hsettles.transGen hnone).2 hrepository
    | top hnone hrepository htop =>
      refine iff_of_false (Option.some_ne_none p).symm ?_
      rintro ⟨d, hsettles⟩
      obtain ⟨next, hnext, -⟩ := TransGen.head'_iff.mp (hsettles.transGen hnone).1
      exact htop next hnext
    | @up above hnone hrepository habove =>
      have hshorter := habove.length
      have hnext : findFile v above = some p ↔ ∃ d, Settles v above d p :=
        ih above.parts.length (by omega) rfl
      refine hnext.trans (exists_congr fun d => ?_)
      exact (settles_iff_of_above hnone hrepository habove).symm

/-- The search finds the file of the nearest folder that has one, unless it comes to a repository
before, and it goes up no more often than the path has names. -/
theorem findFile_finds_nearest (v : Volume) (start : FilePath) :
    (∀ file, findFile v start = some file ↔ ∃ d, Settles v start d file) ∧
      (findFile v start = none ↔ ¬ ∃ file d, Settles v start d file) ∧
      ∃ n, n ≤ start.parts.length ∧ Answers v n start (findFile v start) := by
  refine ⟨fun file => findFile_eq_some_iff, ?_, exists_answers v start⟩
  rw [Option.eq_none_iff_forall_ne_some, not_exists]
  exact forall_congr' fun file => not_congr findFile_eq_some_iff

end SourceTidy.Settings
