import Mathlib.Data.List.Nodup
import Mathlib.Data.List.Pairwise
import SourceTidy.Discovery
import SourceTidy.Proofs.WrittenFiles

/-! # Which files are found

The files that are found below a folder are entries of the tree, and each path to one of them names
a link or the file itself.

* `Volume.follow_append`, `Volume.follow_of_find?`: names in the tree lead where they are, links
  apart;
* `Volume.EntryAt`: the entry at a path, whether it is a link or not;
* `exists_entry_of_mem_discover`: what is found at or below an entry;
* `found_cases`: a path that is found names a link, or a file by its place in the tree.
-/

namespace SourceTidy

/-! ## Names in the tree -/

/-- The path with more names at its end. -/
def FilePath.below (p : FilePath) (names : List String) : FilePath :=
  { p with parts := p.parts ++ names }

namespace Node

/-- Every folder at or below the node has its entries under different names. -/
def NamesUnique (node : Node) : Prop :=
  ∀ way listable entries, node.find? way = some (.folder listable entries) →
    (entries.map Prod.fst).Nodup

/-- What holds of files and links, and of a folder if it holds of its entries, holds of all
nodes. -/
theorem inductionOn {motive : Node → Prop} (node : Node) (file : ∀ number, motive (.file number))
    (link : ∀ target, motive (.link target))
    (folder : ∀ listable entries, (∀ e ∈ entries, motive e.2) → motive (.folder listable entries)) :
    motive node := by
  refine @Node.rec motive (fun entries => ∀ e ∈ entries, motive e.2) (fun e => motive e.2)
    file folder link ?_ ?_ ?_ node
  · simp
  · intro e entries he hentries
    exact List.forall_mem_cons.mpr ⟨he, hentries⟩
  · intro name node hnode
    exact hnode

/-- Only a folder has something under a name. -/
theorem find?_cons_eq_some {node entry : Node} {name : String} {names : List String}
    (h : node.find? (name :: names) = some entry) :
    ∃ listable entries next, node = .folder listable entries ∧ entries.lookup name = some next ∧
      next.find? names = some entry := by
  rw [find?] at h
  cases node with
  | folder listable entries =>
    cases hnext : entries.lookup name with
    | none => simp only [Node.entries, hnext] at h; cases h
    | some next =>
      simp only [Node.entries, hnext] at h
      exact ⟨listable, entries, next, rfl, hnext, h⟩
  | file number => cases h
  | link target => cases h

theorem mem_of_lookup_eq_some {entries : List (String × Node)} {name : String} {node : Node}
    (h : entries.lookup name = some node) : (name, node) ∈ entries := by
  obtain ⟨before, after, rfl, -⟩ := List.lookup_eq_some_iff.mp h
  simp

/-- An entry is what its name leads to, if no other one has that name. -/
theorem lookup_eq_some_of_mem {entries : List (String × Node)} {e : String × Node}
    (hunique : (entries.map Prod.fst).Nodup) (he : e ∈ entries) :
    entries.lookup e.1 = some e.2 := by
  obtain ⟨before, after, rfl⟩ := List.append_of_mem he
  refine List.lookup_eq_some_iff.mpr ⟨before, after, rfl, ?_⟩
  intro other hother
  simp only [bne_iff_ne, ne_eq]
  intro hname
  rw [List.map_append, List.nodup_append] at hunique
  exact hunique.2.2 other.1 (List.mem_map_of_mem hother) e.1 (by simp) hname.symm

/-- In a folder with unique names, the name of an entry leads to that entry. -/
theorem NamesUnique.find?_cons {listable : Bool} {entries : List (String × Node)}
    {e : String × Node} (h : (Node.folder listable entries).NamesUnique) (he : e ∈ entries)
    (names : List String) :
    (Node.folder listable entries).find? (e.1 :: names) = e.2.find? names := by
  have hlookup := lookup_eq_some_of_mem (h [] listable entries rfl) he
  rw [find?, Node.entries, hlookup]

/-- Names are unique below each entry. -/
theorem NamesUnique.entry {listable : Bool} {entries : List (String × Node)} {e : String × Node}
    (h : (Node.folder listable entries).NamesUnique) (he : e ∈ entries) : e.2.NamesUnique := by
  intro way listable' entries' hfind
  exact h (e.1 :: way) listable' entries' (by rw [h.find?_cons he, hfind])

/-- Names are unique below all that can be reached. -/
theorem NamesUnique.of_find? {node next : Node} {way : List String} (h : node.NamesUnique)
    (hfind : node.find? way = some next) : next.NamesUnique := by
  intro way' listable entries hfolder
  refine h (way ++ way') listable entries ?_
  rw [find?_append, hfind]
  exact hfolder

end Node

/-! ## Discovery -/

/-- The entries of a folder are searched one by one, each under its own path. -/
theorem discoverEach_eq_map (v : Volume) (filter : FileFilter) (path : FilePath)
    (entries : List (String × Node)) :
    discoverEach v filter path entries =
      entries.map fun e => (e.1, e.2.discover v filter (path.child e.1) e.1) := by
  induction entries with
  | nil => rfl
  | cons e entries ih =>
    obtain ⟨name, node⟩ := e
    rw [discoverEach, ih, List.map_cons]

/-- Up to their order, the files below a folder are those below its entries. -/
theorem perm_discoverEach (v : Volume) (filter : FileFilter) (path : FilePath)
    (entries : List (String × Node)) :
    ((sortByName (discoverEach v filter path entries)).flatMap Prod.snd).Perm
      (entries.flatMap fun e => e.2.discover v filter (path.child e.1) e.1) := by
  have hsort := (List.mergeSort_perm (discoverEach v filter path entries)
    fun a b => decide (a.1 ≤ b.1)).flatMap_right Prod.snd
  rw [discoverEach_eq_map, List.flatMap_map] at hsort
  rw [discoverEach_eq_map]
  exact hsort

theorem FilePath.below_child (p : FilePath) (name : String) (names : List String) :
    (p.child name).below names = p.below (name :: names) := by
  simp [FilePath.below, FilePath.child]

/-- The entries that are found are files, and links that lead to files. -/
theorem exists_entry_of_mem_discover {v : Volume} {filter : FileFilter} {node : Node}
    (hunique : node.NamesUnique) {path q : FilePath} {name : String}
    (h : q ∈ node.discover v filter path name) :
    ∃ names, q = path.below names ∧ ((∃ number, node.find? names = some (.file number)) ∨
      (∃ target, node.find? names = some (.link target)) ∧ v.isFile q = true) := by
  -- on the tree: a file or a link is found at its own place, and what is found in a folder is found
  -- in one of its entries
  induction node using Node.inductionOn generalizing path name with
  | file number =>
    rw [Node.discover] at h
    split at h
    · rw [List.mem_singleton] at h
      exact ⟨[], by simp [h, FilePath.below], Or.inl ⟨number, rfl⟩⟩
    · cases h
  | link target =>
    rw [Node.discover] at h
    split at h
    · next hkept =>
      rw [List.mem_singleton] at h
      rw [Bool.and_eq_true] at hkept
      exact ⟨[], by simp [h, FilePath.below], Or.inr ⟨⟨target, rfl⟩, h ▸ hkept.2⟩⟩
    · cases h
  | folder listable entries ih =>
    rw [Node.discover] at h
    split at h
    · cases h
    · rw [(perm_discoverEach v filter path entries).mem_iff, List.mem_flatMap] at h
      obtain ⟨e, he, hq⟩ := h
      obtain ⟨names, rfl, hentry⟩ := ih e he (hunique.entry he) hq
      simp only [← hunique.find?_cons he] at hentry
      exact ⟨e.1 :: names, FilePath.below_child path e.1 names, hentry⟩

namespace Volume

variable {v : Volume} {here way names : List String} {links : Nat}

/-! ## Following names -/

theorem follow_nil (v : Volume) (links : Nat) (here : List String) :
    v.follow links here [] = .ok here := by
  rw [follow]

/-- Where some names have led, the names after them are followed, with the links that are left. -/
theorem follow_append (h : v.follow links here names = .ok way) :
    ∃ left, ∀ more, v.follow links here (names ++ more) = v.follow left way more := by
  fun_induction follow v links here names with
  | case1 links here =>
    obtain rfl := Except.ok.inj h
    exact ⟨links, fun more => rfl⟩
  | case2 links here names listable entries hfind ih =>
    obtain ⟨left, hleft⟩ := ih h
    refine ⟨left, fun more => ?_⟩
    rw [List.cons_append, follow, hfind]
    simpa using hleft more
  | case3 links here names listable entries hfind hdot ih =>
    obtain ⟨left, hleft⟩ := ih h
    refine ⟨left, fun more => ?_⟩
    rw [List.cons_append, follow, hfind]
    simpa using hleft more
  | case4 => cases h
  | case5 => cases h
  | case6 here name names listable entries hfind hdot hup target hentry links path ih =>
    -- the names of the target come before those that are left, and one link is used up
    obtain ⟨left, hleft⟩ := ih h
    refine ⟨left, fun more => ?_⟩
    rw [List.cons_append, follow, hfind]
    simp only [hdot, hup, hentry, if_false]
    rw [← List.append_assoc]
    exact hleft more
  | case7 links here name names listable entries hfind hdot hup node hnode hentry ih =>
    obtain ⟨left, hleft⟩ := ih h
    refine ⟨left, fun more => ?_⟩
    rw [List.cons_append, follow, hfind]
    simp only [hdot, hup, if_false, hentry]
    exact hleft more
  | case8 => cases h
  | case9 => cases h

/-- A tree as it can stand on a disk. -/
structure WellFormed (v : Volume) : Prop where
  /-- The entries of a folder have different names. -/
  unique : v.root.NamesUnique
  /-- None of them is called like the folder itself or the one above it. -/
  proper : ∀ way listable entries, v.root.find? way = some (.folder listable entries) →
    ∀ e ∈ entries, e.1 ≠ "." ∧ e.1 ≠ ".."

/-- The path names the node as an entry of a folder. Links may lead to the folder, but the entry
itself is not followed. -/
def EntryAt (v : Volume) (path : FilePath) (node : Node) : Prop :=
  ∃ folder name way, path = FilePath.child folder name ∧ v.canonical folder = .ok way ∧
    v.root.find? (way ++ [name]) = some node

/-- The entry at the path is a link, wherever it leads. -/
def IsLink (v : Volume) (path : FilePath) : Prop := ∃ target, v.EntryAt path (.link target)

/-- From a folder, names lead to the node that they name in the tree, if that is no link. -/
theorem follow_of_find? (hv : v.WellFormed) {node entry : Node}
    (hhere : v.root.find? here = some node) (hentry : node.find? names = some entry)
    (hlink : ∀ target, entry ≠ .link target) (links : Nat) :
    v.follow links here names = .ok (here ++ names) := by
  induction names generalizing here node with
  | nil => rw [follow_nil, List.append_nil]
  | cons name names ih =>
    obtain ⟨listable, entries, next, rfl, hlookup, hnext⟩ := Node.find?_cons_eq_some hentry
    obtain ⟨hdot, hup⟩ := hv.proper here listable entries hhere (name, next)
      (Node.mem_of_lookup_eq_some hlookup)
    have hstep : v.root.find? (here ++ [name]) = some next := by
      rw [Node.find?_append, hhere, Option.bind_some, Node.find?, Node.entries, hlookup]
      rfl
    have hrest := ih hstep hnext
    rw [List.append_assoc, List.singleton_append] at hrest
    rw [follow, hhere]
    simp only [hdot, hup, if_false, hlookup]
    cases next with
    | file number => exact hrest
    | folder listable entries => exact hrest
    | link target =>
      -- no names lead on from a link, so it would be the last node
      cases names with
      | nil => exact absurd (Option.some.inj hnext).symm (hlink target)
      | cons more names => cases hnext

/-- A path is resolved from the root or from the current folder; an empty one is not. -/
theorem canonical_eq_ok_iff {path : FilePath} :
    v.canonical path = .ok way ↔ (path.absolute = true ∨ path.parts ≠ []) ∧
      v.follow maxLinks (if path.absolute then [] else v.current) path.parts = .ok way := by
  have hmap : ∀ (result : Except IoError (List String)) (f : IoError → IoError),
      result.mapError f = .ok way ↔ result = .ok way := by
    intro result f
    cases result <;> simp [Except.mapError]
  rw [canonical, hmap]
  cases path.absolute with
  | true => simp
  | false => cases path.parts <;> simp

/-- Below a folder the names of the tree lead where they are, as long as the last is no link. -/
theorem canonical_below (hv : v.WellFormed) {path : FilePath} {node entry : Node}
    (hpath : v.canonical path = .ok way) (hway : v.root.find? way = some node)
    (hentry : node.find? names = some entry) (hlink : ∀ target, entry ≠ .link target) :
    v.canonical (path.below names) = .ok (way ++ names) := by
  obtain ⟨hstart, hfollow⟩ := canonical_eq_ok_iff.mp hpath
  obtain ⟨left, hleft⟩ := follow_append hfollow
  refine canonical_eq_ok_iff.mpr ⟨?_, ?_⟩
  · exact hstart.imp_right fun hparts => by simp [FilePath.below, hparts]
  · exact (hleft names).trans (follow_of_find? hv hway hentry hlink left)

/-- A path whose way ends at a file leads to the number of that file. -/
theorem locate_of_canonical {path : FilePath} {number : Nat} (hpath : v.canonical path = .ok way)
    (hfile : v.root.find? way = some (.file number)) : v.locate path = .ok number := by
  simp only [locate, resolve, hpath, hfile, bind, Except.bind]

/-- A path that has a number leads to a file. -/
theorem isFile_of_locate {path : FilePath} {number : Nat} (h : v.locate path = .ok number) :
    v.isFile path = true := by
  unfold locate at h
  unfold isFile
  cases hresolve : v.resolve path with
  | error e => rw [hresolve] at h; cases h
  | ok node =>
    rw [hresolve] at h
    cases node with
    | file number => rfl
    | folder listable entries => cases h
    | link target => cases h

/-- A path that leads to a file has a number. -/
theorem exists_locate_of_isFile {path : FilePath} (h : v.isFile path = true) :
    ∃ number, v.locate path = .ok number := by
  unfold isFile at h
  split at h
  · next number hresolve =>
    refine ⟨number, ?_⟩
    simp only [locate, hresolve, bind, Except.bind]
  · cases h

/-- Names in the tree name an entry, whatever leads to the folder where they start. -/
theorem entryAt_below (hv : v.WellFormed) {path : FilePath} {node entry : Node}
    (hpath : v.canonical path = .ok way) (hway : v.root.find? way = some node)
    (hentry : node.find? names = some entry) (hnames : names ≠ []) :
    v.EntryAt (path.below names) entry := by
  obtain ⟨front, name, rfl⟩ := List.eq_nil_or_concat names |>.resolve_left hnames
  rw [List.concat_eq_append] at hentry ⊢
  rw [Node.find?_append] at hentry
  obtain ⟨folder, hfolder, hlast⟩ := Option.bind_eq_some_iff.mp hentry
  -- the node above the entry has an entry, so it is a folder and no link itself
  obtain ⟨listable, entries, next, rfl, -, -⟩ := Node.find?_cons_eq_some hlast
  refine ⟨path.below front, name, way ++ front, ?_, ?_, ?_⟩
  · simp [FilePath.below, FilePath.child]
  · exact canonical_below hv hpath hway hfolder (by simp)
  · rw [Node.find?_append, Node.find?_append, hway, Option.bind_some, hfolder]
    exact hlast

theorem resolve_eq_ok {path : FilePath} {node : Node} (h : v.resolve path = .ok node) :
    ∃ way, v.canonical path = .ok way ∧ v.root.find? way = some node := by
  unfold resolve at h
  split at h
  · next way hway =>
    split at h
    · next found hfind =>
      obtain rfl := Except.ok.inj h
      exact ⟨way, hway, hfind⟩
    · cases h
  · cases h
  · cases h

end Volume

/-! ## The files that are found -/

section

variable {v : Volume} {root : FilePath} {filter : FileFilter} {paths : List FilePath}

/-- A search has a folder to start at, and finds what is in its entries. -/
theorem findFiles_eq_ok (h : findFiles v root filter = .ok paths) :
    ∃ way entries, v.canonical root = .ok way ∧ v.root.find? way = some (.folder true entries) ∧
      paths = (sortByName (discoverEach v filter root entries)).flatMap Prod.snd := by
  unfold findFiles at h
  cases hresolve : v.resolve root with
  | error e => rw [hresolve] at h; cases h
  | ok node =>
    rw [hresolve] at h
    obtain ⟨way, hway, hfind⟩ := Volume.resolve_eq_ok hresolve
    match node, h with
    | .folder true entries, h => exact ⟨way, entries, hway, hfind, (Except.ok.inj h).symm⟩

/-- A path that is found leads to a file. It names a link, or the file itself. -/
theorem found_cases (hv : v.WellFormed) (h : findFiles v root filter = .ok paths) :
    ∀ p ∈ paths, ∃ number, v.locate p = .ok number ∧ (v.IsLink p ∨ v.EntryAt p (.file number)) := by
  obtain ⟨way, entries, hway, hfind, rfl⟩ := findFiles_eq_ok h
  have hunique := hv.unique.of_find? hfind
  intro p hp
  rw [(perm_discoverEach v filter root entries).mem_iff, List.mem_flatMap] at hp
  obtain ⟨e, he, hp⟩ := hp
  obtain ⟨names, rfl, hentry⟩ := exists_entry_of_mem_discover (hunique.entry he) hp
  simp only [← hunique.find?_cons he] at hentry
  rw [FilePath.below_child] at hentry ⊢
  rcases hentry with ⟨number, hfile⟩ | ⟨⟨target, hlink⟩, hisFile⟩
  · -- no link is on the way from the folder of the search to a file in it
    have hplace : v.root.find? (way ++ e.1 :: names) = some (.file number) := by
      rw [Node.find?_append, hfind]
      exact hfile
    have hcanonical := Volume.canonical_below hv hway hfind hfile (by simp)
    have hentry := Volume.entryAt_below hv hway hfind hfile (List.cons_ne_nil _ _)
    exact ⟨number, Volume.locate_of_canonical hcanonical hplace, Or.inr hentry⟩
  · -- a link is only found if it leads to a file, which may be anywhere
    obtain ⟨number, hlocate⟩ := Volume.exists_locate_of_isFile hisFile
    have hentry := Volume.entryAt_below hv hway hfind hlink (List.cons_ne_nil _ _)
    exact ⟨number, hlocate, Or.inl ⟨target, hentry⟩⟩

end

/-! ## A root folder with files and links -/

section

variable {v : Volume} {listable : Bool} {entries : List (String × Node)} {name other : String}

/-- In a folder without folders there is nothing below the entries. -/
theorem Node.find?_flat {way : List String} {node : Node}
    (hflat : ∀ e ∈ entries, e.2.isFolder = false)
    (h : (Node.folder listable entries).find? way = some node) :
    node = .folder listable entries ∨ ∃ name, way = [name] ∧ (name, node) ∈ entries := by
  cases way with
  | nil => exact Or.inl (Option.some.inj h).symm
  | cons name way =>
    obtain ⟨_, _, next, hfolder, hlookup, hnext⟩ := find?_cons_eq_some h
    cases hfolder
    have hmem := mem_of_lookup_eq_some hlookup
    cases way with
    | nil =>
      obtain rfl := Option.some.inj hnext
      exact Or.inr ⟨name, rfl, hmem⟩
    | cons more way =>
      obtain ⟨_, _, _, rfl, -, -⟩ := find?_cons_eq_some hnext
      exact absurd (hflat _ hmem) (by simp [isFolder])

/-- For a root folder without folders it is enough to look at the names in it. -/
theorem Volume.wellFormed_of_flat (hroot : v.root = .folder listable entries)
    (hflat : ∀ e ∈ entries, e.2.isFolder = false) (hnames : (entries.map Prod.fst).Nodup)
    (hproper : ∀ e ∈ entries, e.1 ≠ "." ∧ e.1 ≠ "..") : v.WellFormed := by
  -- the root folder is the only one there is
  have hfolder : ∀ way listable' entries',
      v.root.find? way = some (.folder listable' entries') → entries' = entries := by
    intro way listable' entries' hfind
    rw [hroot] at hfind
    rcases Node.find?_flat hflat hfind with hnode | ⟨name, -, hmem⟩
    · exact (Node.folder.inj hnode).2
    · exact absurd (hflat _ hmem) (by simp [Node.isFolder])
  constructor
  · intro way listable' entries' hfind
    rw [hfolder way listable' entries' hfind]
    exact hnames
  · intro way listable' entries' hfind
    rw [hfolder way listable' entries' hfind]
    exact hproper

theorem Volume.find?_root (hroot : v.root = .folder listable entries) :
    v.root.find? [] = some (.folder listable entries) := by
  rw [hroot]
  rfl

/-- A link in the root folder leads to the file that it names. -/
theorem locate_topLevel_link {target : String} {number : Nat} (hv : v.WellFormed)
    (hroot : v.root = .folder listable entries) (hlink : entries.lookup name = some (.link target))
    (htarget : FilePath.ofTarget target = ⟨false, [other]⟩)
    (hfile : entries.lookup other = some (.file number)) :
    v.locate (Run.topLevel name) = .ok number := by
  have hstart := Volume.find?_root hroot
  have hfind : v.root.find? [other] = some (.file number) := by
    simp only [hroot, Node.find?, Node.entries, hfile]
  obtain ⟨hdot, hup⟩ :=
    hv.proper [] listable entries hstart (name, _) (Node.mem_of_lookup_eq_some hlink)
  have hfollow : ∀ links, v.follow (links + 1) [] [name] = .ok [other] := by
    intro links
    rw [Volume.follow, hstart]
    simp only [hdot, hup, if_false, hlink, htarget]
    exact Volume.follow_of_find? hv rfl hfind (by simp) links
  exact Volume.locate_of_canonical (Volume.canonical_eq_ok_iff.mpr ⟨Or.inl rfl, hfollow 39⟩) hfind

/-- A name that the root folder does not have leads to no file. -/
theorem isFile_topLevel_of_missing (hroot : v.root = .folder listable entries)
    (hmissing : entries.lookup name = none)
    (hname : name ≠ "." ∧ name ≠ "..") : v.isFile (Run.topLevel name) = false := by
  unfold Volume.isFile
  cases hresolve : v.resolve (Run.topLevel name) with
  | error e => rfl
  | ok node =>
    obtain ⟨way, hcanonical, -⟩ := Volume.resolve_eq_ok hresolve
    obtain ⟨-, hfollow⟩ := Volume.canonical_eq_ok_iff.mp hcanonical
    have hstart := Volume.find?_root hroot
    simp only [Run.topLevel, if_true] at hfollow
    rw [Volume.follow, hstart] at hfollow
    simp only [hname.1, hname.2, if_false, hmissing] at hfollow
    cases hfollow

/-- If the entries of the root are sorted, what is at or below them is found in their order. -/
theorem findFiles_topLevel (filter : FileFilter) (hroot : v.root = .folder true entries)
    (hsorted : (entries.map Prod.fst).Pairwise (· ≤ ·)) :
    findFiles v ⟨true, []⟩ filter =
      .ok (entries.flatMap fun e => e.2.discover v filter (Run.topLevel e.1) e.1) := by
  have hcanonical : v.canonical ⟨true, []⟩ = .ok [] :=
    Volume.canonical_eq_ok_iff.mpr ⟨Or.inl rfl, Volume.follow_nil v _ []⟩
  have hresolve : v.resolve ⟨true, []⟩ = .ok (.folder true entries) := by
    simp only [Volume.resolve, hcanonical, hroot, Node.find?]
  have hsort : sortByName (discoverEach v filter ⟨true, []⟩ entries) =
      discoverEach v filter ⟨true, []⟩ entries := by
    refine List.mergeSort_of_pairwise ?_
    rw [discoverEach_eq_map, List.pairwise_map]
    exact (List.pairwise_map.mp hsorted).imp fun hle => decide_eq_true hle
  simp only [findFiles, hresolve, bind, Except.bind, hsort]
  rw [discoverEach_eq_map, List.flatMap_map]
  rfl

end

end SourceTidy
