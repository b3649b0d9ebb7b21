import SourceTidy.Proofs.PathOrder

/-! # All files that are found

Below a folder exactly those files and links to files are found whose names are wanted and that lie
in folders which are entered, each of them once and in the order of the paths. The order in which
folders list their entries makes no difference.

* `Matches`, `Wanted`: what patterns say of a name;
* `Describes`, `describes_globFits`: a predicate that tells what patterns accept;
* `Findable`: what is to be found below a folder;
* `mem_discover_iff`, `mem_findFiles_iff`: it is found, and nothing else;
* `Node.Relisted`: entries in another order;
* `findFiles_finds_exactly`: the whole of it.
-/

namespace SourceTidy

/-! ## Names and patterns

What a pattern stands for is given by a predicate on patterns and names. Nothing but what it says of
the patterns of a filter matters.
-/

/-- One of the patterns stands for the name. -/
def Matches (fits : String → String → Prop) (patterns : List String) (name : String) : Prop :=
  ∃ pattern ∈ patterns, fits pattern name

/-- Files of the name are to be checked. -/
structure Wanted (fits : String → String → Prop) (accept ignore : List String) (name : String) :
    Prop where
  accepted : Matches fits accept name
  /-- An ignored name is that of an accepted pattern without wildcards. -/
  kept : Matches fits ignore name →
    name ∈ accept ∧ ∀ c ∈ name.toList, c ≠ '?' ∧ c ≠ '*' ∧ c ≠ '[' ∧ c ≠ ']'

/-- The predicate says which names the patterns accept. -/
def Describes (fits : String → String → Prop) (patterns : List String) : Prop :=
  ∀ pattern ∈ patterns, ∀ glob, Glob.parse pattern = .ok glob →
    ∀ name, glob.accepts name = true ↔ fits pattern name

/-- The pattern can be read, and then accepts the name. -/
def GlobFits (pattern name : String) : Prop :=
  ∃ glob, Glob.parse pattern = .ok glob ∧ glob.accepts name = true

/-- Patterns describe themselves. -/
theorem describes_globFits (patterns : List String) : Describes GlobFits patterns := by
  intro pattern _ glob hglob name
  constructor
  · intro haccepts
    exact ⟨glob, hglob, haccepts⟩
  · rintro ⟨glob', hglob', haccepts⟩
    obtain rfl := Except.ok.inj (hglob.symm.trans hglob')
    exact haccepts

section

variable {fits : String → String → Prop} {accept ignore : List String} {filter : FileFilter}
  {globs : List Glob}

/-- The patterns that were read accept what the predicate says. -/
theorem any_accepts_iff (hfits : Describes fits accept)
    (h : FileFilter.readPatterns accept = .ok globs) (name : String) :
    (globs.any (·.accepts name) = true) ↔ Matches fits accept name := by
  -- pattern by pattern; one that cannot be read would have ended the reading of all
  induction accept generalizing globs with
  | nil =>
    cases h
    simp [Matches]
  | cons pattern rest ih =>
    obtain ⟨hpattern, hrest⟩ := List.forall_mem_cons.mp hfits
    rw [FileFilter.readPatterns] at h
    split at h
    · cases h
    · next glob hglob =>
      cases hread : FileFilter.readPatterns rest with
      | error bad =>
        rw [hread] at h
        cases h
      | ok globs' =>
        rw [hread] at h
        cases h
        simp [Matches, hpattern glob hglob, ih hrest hread]

/-- What a filter accepts and skips is what its patterns say, and it keeps the plain names. -/
theorem ofPatterns_eq_ok (hfits : Describes fits (accept ++ ignore))
    (h : FileFilter.ofPatterns accept ignore = .ok filter) :
    (∀ name, filter.acceptsFile name = true ↔ Matches fits accept name) ∧
      (∀ name, filter.skipsFolder name = true ↔ Matches fits ignore name) ∧
      filter.names = accept.filter Glob.isLiteral := by
  obtain ⟨hfitsAccept, hfitsIgnore⟩ := List.forall_mem_append.mp hfits
  unfold FileFilter.ofPatterns at h
  cases haccept : FileFilter.readPatterns accept with
  | error bad =>
    rw [haccept] at h
    cases h
  | ok accepted =>
    cases hignore : FileFilter.readPatterns ignore with
    | error bad =>
      rw [haccept, hignore] at h
      cases h
    | ok ignored =>
      rw [haccept, hignore] at h
      cases h
      exact ⟨any_accepts_iff hfitsAccept haccept, any_accepts_iff hfitsIgnore hignore, rfl⟩

/-- A pattern is a plain name if none of its characters stands for others. -/
theorem isLiteral_iff {pattern : String} :
    Glob.isLiteral pattern = true ↔
      ∀ c ∈ pattern.toList, c ≠ '?' ∧ c ≠ '*' ∧ c ≠ '[' ∧ c ≠ ']' := by
  simp [Glob.isLiteral, and_assoc]

/-- A name is let through by the filter exactly if it is wanted. -/
theorem wanted_iff (hfits : Describes fits (accept ++ ignore))
    (h : FileFilter.ofPatterns accept ignore = .ok filter) (name : String) :
    (filter.acceptsFile name && !filter.skipsFile name) = true ↔
      Wanted fits accept ignore name := by
  obtain ⟨haccepts, hskips, hnames⟩ := ofPatterns_eq_ok hfits h
  -- a plain name among the accepted ones is wanted even if it is ignored
  have hplain : name ∈ filter.names ↔
      name ∈ accept ∧ ∀ c ∈ name.toList, c ≠ '?' ∧ c ≠ '*' ∧ c ≠ '[' ∧ c ≠ ']' := by
    rw [hnames, List.mem_filter, isLiteral_iff]
  rw [Bool.and_eq_true, haccepts, FileFilter.skipsFile]
  constructor
  · rintro ⟨haccepted, hkept⟩
    refine ⟨haccepted, fun hignored => hplain.mp ?_⟩
    simpa [(hskips name).mpr hignored] using hkept
  · rintro ⟨haccepted, hkept⟩
    refine ⟨haccepted, ?_⟩
    by_cases hignored : filter.skipsFolder name = true
    · have hname := hplain.mpr (hkept ((hskips name).mp hignored))
      simp [hignored, hname]
    · simp [hignored]

end

/-! ## What is to be found -/

/-- Names lead to a file, or to a link that leads to one, from the folder `top` at the path. The
folders on the way can be listed and are not skipped, and files of the last name are wanted. -/
structure Findable (v : Volume) (skips wants : String → Prop) (path : FilePath) (top : Node)
    (way : List String) :
    Prop where
  entry : (∃ number, top.find? way = some (.file number)) ∨
    (∃ target, top.find? way = some (.link target)) ∧ v.isFile (path.below way) = true
  folders : ∀ before name after, way = before ++ name :: after → after ≠ [] →
    (∃ entries, top.find? (before ++ [name]) = some (.folder true entries)) ∧ ¬ skips name
  last : ∃ name ∈ way.getLast?, wants name

section

variable {v w : Volume} {skips wants : String → Prop} {path : FilePath} {listable : Bool}
  {entries : List (String × Node)} {e : String × Node} {way rest : List String} {top : Node}

/-- What is to be found in a folder is at or below one of its entries. -/
theorem Findable.exists_entry (h : Findable v skips wants path (.folder listable entries) way) :
    ∃ e ∈ entries, ∃ rest, way = e.1 :: rest := by
  cases way with
  | nil =>
    obtain ⟨name, hname, -⟩ := h.last
    cases hname
  | cons name rest =>
    have hsome : ∃ node, (Node.folder listable entries).find? (name :: rest) = some node := by
      rcases h.entry with ⟨number, hfile⟩ | ⟨⟨target, hlink⟩, -⟩
      · exact ⟨_, hfile⟩
      · exact ⟨_, hlink⟩
    obtain ⟨node, hnode⟩ := hsome
    obtain ⟨_, _, next, hfolder, hlookup, -⟩ := Node.find?_cons_eq_some hnode
    cases hfolder
    exact ⟨(name, next), Node.mem_of_lookup_eq_some hlookup, rest, rfl⟩

/-- An entry is to be found if it is a file, or a link to one, with a wanted name. -/
theorem findable_singleton_iff (hunique : (Node.folder listable entries).NamesUnique)
    (he : e ∈ entries) :
    Findable v skips wants path (.folder listable entries) [e.1] ↔
      ((∃ number, e.2 = .file number) ∨ (∃ target, e.2 = .link target) ∧
        v.isFile (path.child e.1) = true) ∧
        wants e.1 := by
  have hfind : (Node.folder listable entries).find? [e.1] = some e.2 := hunique.find?_cons he []
  have hpath : path.below [e.1] = path.child e.1 := rfl
  constructor
  · rintro ⟨hentry, -, name, hname, hwants⟩
    cases hname
    refine ⟨?_, hwants⟩
    simpa only [hfind, hpath, Option.some.injEq] using hentry
  · rintro ⟨hentry, hwants⟩
    refine ⟨?_, ?_, e.1, rfl, hwants⟩
    · simpa only [hfind, hpath, Option.some.injEq] using hentry
    · intro before name after hway hafter
      rcases List.append_eq_singleton_iff.mp hway.symm with ⟨rfl, hlast⟩ | ⟨-, hnil⟩
      · cases hlast
        exact absurd rfl hafter
      · cases hnil

/-- Something below an entry is to be found if the entry is a folder that is entered. -/
theorem findable_cons_iff (hunique : (Node.folder listable entries).NamesUnique) (he : e ∈ entries)
    (hrest : rest ≠ []) :
    Findable v skips wants path (.folder listable entries) (e.1 :: rest) ↔
      ((∃ inner, e.2 = .folder true inner) ∧ ¬ skips e.1) ∧
      Findable v skips wants (path.child e.1) e.2 rest := by
  have hfind := hunique.find?_cons he
  have hlast : (e.1 :: rest).getLast? = rest.getLast? := List.getLast?_cons_of_ne_nil hrest
  have hbelow := path.below_child e.1 rest
  constructor
  · rintro ⟨hentry, hfolders, hwanted⟩
    rw [hfind, ← hbelow] at hentry
    rw [hlast] at hwanted
    have htop := hfolders [] e.1 rest rfl hrest
    rw [List.nil_append, hfind [], Node.find?] at htop
    refine ⟨by simpa using htop, hentry, ?_, hwanted⟩
    intro before name after hway hafter
    have hinner := hfolders (e.1 :: before) name after (by rw [hway]; rfl) hafter
    rwa [List.cons_append, hfind] at hinner
  · rintro ⟨htop, hentry, hfolders, hwanted⟩
    refine ⟨?_, ?_, ?_⟩
    · rwa [hfind, ← hbelow]
    · intro before name after hway hafter
      -- the first folder is the entry itself
      cases before with
      | nil =>
        cases hway
        rw [List.nil_append, hfind [], Node.find?]
        simpa using htop
      | cons first before =>
        obtain ⟨rfl, hinner⟩ := List.cons.inj hway
        rw [List.cons_append, hfind]
        exact hfolders before name after hinner hafter
    · rwa [hlast]

/-- What is to be found below a folder is to be found at or below one of its entries. -/
theorem exists_entry_findable_iff {q : FilePath} :
    (∃ e ∈ entries, ∃ rest, q = path.below (e.1 :: rest) ∧
      Findable v skips wants path (.folder listable entries) (e.1 :: rest)) ↔
    ∃ way, q = path.below way ∧ Findable v skips wants path (.folder listable entries) way := by
  constructor
  · rintro ⟨e, -, rest, hq, hfindable⟩
    exact ⟨e.1 :: rest, hq, hfindable⟩
  · rintro ⟨way, hq, hfindable⟩
    obtain ⟨e, he, rest, rfl⟩ := hfindable.exists_entry
    exact ⟨e, he, rest, hq, hfindable⟩

/-- What is to be found at or below an entry is the entry itself, or below it. -/
theorem exists_findable_cons_iff (hunique : (Node.folder listable entries).NamesUnique)
    (he : e ∈ entries) {q : FilePath} :
    (∃ rest, q = path.below (e.1 :: rest) ∧
      Findable v skips wants path (.folder listable entries) (e.1 :: rest)) ↔
    (q = path.child e.1 ∧ ((∃ number, e.2 = .file number) ∨
        (∃ target, e.2 = .link target) ∧ v.isFile (path.child e.1) = true) ∧ wants e.1) ∨
      ∃ inner, e.2 = .folder true inner ∧ ¬ skips e.1 ∧
        ∃ way, q = (path.child e.1).below way ∧
          Findable v skips wants (path.child e.1) (.folder true inner) way := by
  constructor
  · rintro ⟨rest, rfl, hfindable⟩
    cases rest with
    | nil => exact Or.inl ⟨rfl, (findable_singleton_iff hunique he).mp hfindable⟩
    | cons next rest =>
      obtain ⟨⟨⟨inner, hinner⟩, hskips⟩, hbelow⟩ :=
        (findable_cons_iff hunique he (List.cons_ne_nil next rest)).mp hfindable
      rw [hinner] at hbelow
      exact Or.inr ⟨inner, hinner, hskips, next :: rest, (path.below_child _ _).symm, hbelow⟩
  · rintro (⟨rfl, hentry⟩ | ⟨inner, hinner, hskips, way, rfl, hbelow⟩)
    · exact ⟨[], rfl, (findable_singleton_iff hunique he).mpr hentry⟩
    · obtain ⟨first, -, rest, rfl⟩ := hbelow.exists_entry
      rw [← hinner] at hbelow
      exact ⟨_, path.below_child _ _,
        (findable_cons_iff hunique he (List.cons_ne_nil _ rest)).mpr
          ⟨⟨⟨inner, hinner⟩, hskips⟩, hbelow⟩⟩

end

/-! ## What is found -/

section

variable {v : Volume} {skips wants : String → Prop} {filter : FileFilter} {path q : FilePath}
  {listable : Bool}
  {entries : List (String × Node)} {name : String} {node : Node}

/-- The files below a folder are those to be found there, if that is so of its entries. -/
theorem mem_discoverEach_iff
    (h : ∀ e ∈ entries, q ∈ e.2.discover v filter (path.child e.1) e.1 ↔
      ∃ rest, q = path.below (e.1 :: rest) ∧
      Findable v skips wants path (.folder listable entries) (e.1 :: rest)) :
    q ∈ (sortByName (discoverEach v filter path entries)).flatMap Prod.snd ↔
      ∃ way, q = path.below way ∧ Findable v skips wants path (.folder listable entries) way := by
  rw [(perm_discoverEach v filter path entries).mem_iff, List.mem_flatMap,
    ← exists_entry_findable_iff]
  exact exists_congr fun e => and_congr_right fun he => h e he

/-- The files at or below an entry are those to be found there. -/
theorem mem_discover_iff (hskips : ∀ name, filter.skipsFolder name = true ↔ skips name)
    (hwants : ∀ name, (filter.acceptsFile name && !filter.skipsFile name) = true ↔ wants name)
    (hunique : (Node.folder listable entries).NamesUnique) (he : (name, node) ∈ entries) :
    q ∈ node.discover v filter (path.child name) name ↔
      ∃ rest, q = path.below (name :: rest) ∧
        Findable v skips wants path (.folder listable entries) (name :: rest) := by
  -- on the tree; each entry is taken together with the folder that it is in, as `Findable` starts
  -- at a folder
  induction node using Node.inductionOn generalizing listable entries path name with
  | file number =>
    rw [exists_findable_cons_iff hunique he, Node.discover, ← hwants]
    simp [and_comm]
  | link target =>
    rw [exists_findable_cons_iff hunique he, Node.discover, ← hwants]
    simp [and_comm, and_left_comm]
  | folder listable' inner ih =>
    rw [exists_findable_cons_iff hunique he, Node.discover, ← hskips]
    split
    -- the folder is not entered, so nothing below it is to be found either
    · next hclosed =>
      simp only [Bool.or_eq_true, Bool.not_eq_true'] at hclosed
      rcases hclosed with hskipped | rfl
      · simp [hskipped]
      · simp
    · next hopen =>
      obtain ⟨hentered, rfl⟩ : ¬ filter.skipsFolder name = true ∧ listable' = true := by
        simpa using hopen
      have hinner := hunique.entry he
      rw [mem_discoverEach_iff fun e hmem => ih e hmem hinner hmem]
      simp [hentered]

/-- A search finds all that is to be found, and nothing else. -/
theorem mem_findFiles_iff (hskips : ∀ name, filter.skipsFolder name = true ↔ skips name)
    (hwants : ∀ name, (filter.acceptsFile name && !filter.skipsFile name) = true ↔ wants name)
    (hunique : v.root.NamesUnique) (hroot : v.resolve path = .ok (.folder true entries)) :
    ∃ paths, findFiles v path filter = .ok paths ∧
      ∀ q, q ∈ paths ↔ ∃ way, q = path.below way ∧
        Findable v skips wants path (.folder true entries) way := by
  obtain ⟨place, -, hplace⟩ := Volume.resolve_eq_ok hroot
  have hunique := hunique.of_find? hplace
  refine ⟨(sortByName (discoverEach v filter path entries)).flatMap Prod.snd, ?_, ?_⟩
  · rw [findFiles, hroot]
    rfl
  · intro q
    exact mem_discoverEach_iff fun e he => mem_discover_iff hskips hwants hunique he

end

/-! ## Entries in another order -/

namespace Node

/-- The trees differ by the order in which folders list their entries. -/
inductive Relisted : Node → Node → Prop where
  | refl (node : Node) : Relisted node node
  | order {listable : Bool} {entries entries' : List (String × Node)} :
      entries.Perm entries' → Relisted (.folder listable entries) (.folder listable entries')
  | entry {listable : Bool} {before after : List (String × Node)} {name : String}
      {node node' : Node} :
      Relisted node node' → Relisted (.folder listable (before ++ (name, node) :: after))
        (.folder listable (before ++ (name, node') :: after))
  | trans {a b c : Node} : Relisted a b → Relisted b c → Relisted a c

@[simp] theorem namesUnique_file (number : Nat) : (Node.file number).NamesUnique := by
  intro way listable entries hfind
  cases way <;> cases hfind

@[simp] theorem namesUnique_link (target : String) : (Node.link target).NamesUnique := by
  intro way listable entries hfind
  cases way <;> cases hfind

/-- Names are unique in a folder and below it if its own are and those below each entry. -/
theorem namesUnique_folder_iff {listable : Bool} {entries : List (String × Node)} :
    (Node.folder listable entries).NamesUnique ↔
      (entries.map Prod.fst).Nodup ∧ ∀ e ∈ entries, e.2.NamesUnique := by
  constructor
  · intro h
    exact ⟨h [] listable entries rfl, fun e he => h.entry he⟩
  · rintro ⟨hnames, hentries⟩ way listable' found hfind
    cases way with
    | nil =>
      cases hfind
      exact hnames
    | cons name rest =>
      obtain ⟨_, _, next, hfolder, hlookup, hnext⟩ := find?_cons_eq_some hfind
      cases hfolder
      exact hentries _ (mem_of_lookup_eq_some hlookup) _ _ _ hnext

/-- Names lead to the same entries in whichever order they are listed. -/
theorem lookup_eq_of_perm {entries entries' : List (String × Node)}
    (hunique : (entries.map Prod.fst).Nodup) (h : entries.Perm entries') (name : String) :
    entries'.lookup name = entries.lookup name := by
  have hunique' : (entries'.map Prod.fst).Nodup := (h.map Prod.fst).nodup_iff.mp hunique
  refine Option.ext fun node => ?_
  constructor
  · intro hlookup
    exact lookup_eq_some_of_mem hunique (h.mem_iff.mpr (mem_of_lookup_eq_some hlookup))
  · intro hlookup
    exact lookup_eq_some_of_mem hunique' (h.mem_iff.mp (mem_of_lookup_eq_some hlookup))

/-- With another entry under the same name, only that name leads elsewhere. -/
theorem lookup_replace (before after : List (String × Node)) (name : String) (node node' : Node)
    (other : String) :
    (before ++ (name, node') :: after).lookup other =
    (before ++ (name, node) :: after).lookup other ∨
      (before ++ (name, node) :: after).lookup other = some node ∧
        (before ++ (name, node') :: after).lookup other = some node' := by
  simp only [List.lookup_append, List.lookup_cons]
  cases before.lookup other with
  | some found => simp
  | none => cases other == name <;> simp

/-- Folders are alike if their entries are. -/
theorem alike_folder {listable : Bool} {entries entries' : List (String × Node)}
    (ha : (Node.folder listable entries).NamesUnique)
    (hnames : (entries.map Prod.fst).Perm (entries'.map Prod.fst))
    (hlookup : ∀ name, entries'.lookup name = entries.lookup name ∨
      ∃ node node', entries.lookup name = some node ∧ entries'.lookup name = some node' ∧
        node'.NamesUnique ∧ node.Alike node') :
    (Node.folder listable entries').NamesUnique ∧
    (Node.folder listable entries).Alike (.folder listable entries') := by
  -- what a name leads to is the same, or it is a pair of entries that are alike
  have hfind : ∀ name rest, (Node.folder listable entries').find? (name :: rest) =
      (Node.folder listable entries).find? (name :: rest) ∨
        ∃ node node' : Node, (Node.folder listable entries).find? (name :: rest) = node.find? rest ∧
          (Node.folder listable entries').find? (name :: rest) = node'.find? rest ∧
          node'.NamesUnique ∧ node.Alike node' := by
    intro name rest
    simp only [find?, Node.entries]
    rcases hlookup name with hsame | ⟨node, node', hnode, hnode', halike⟩
    · exact Or.inl (by rw [hsame])
    · exact Or.inr ⟨node, node', by rw [hnode], by rw [hnode'], halike⟩
  constructor
  · intro way listable' found hfound
    cases way with
    | nil =>
      cases hfound
      exact hnames.nodup_iff.mp (ha [] listable entries rfl)
    | cons name rest =>
      rcases hfind name rest with hsame | ⟨node, node', -, hnode', hunique, -⟩
      · exact ha _ _ _ (hsame ▸ hfound)
      · exact hunique _ _ _ (hnode' ▸ hfound)
  · intro way
    cases way with
    | nil => rfl
    | cons name rest =>
      rcases hfind name rest with hsame | ⟨node, node', hnode, hnode', -, halike⟩
      · rw [hsame]
      · rw [hnode, hnode', halike rest]

/-- In another order the names still lead to the same nodes. -/
theorem Relisted.alike {a b : Node} (h : a.Relisted b) (ha : a.NamesUnique) :
    b.NamesUnique ∧ a.Alike b := by
  -- one change after another, each of them in one folder
  induction h with
  | refl node => exact ⟨ha, fun _ => rfl⟩
  | order hperm =>
    refine alike_folder ha (hperm.map Prod.fst) ?_
    intro name
    exact Or.inl (lookup_eq_of_perm (ha [] _ _ rfl) hperm name)
  | @entry listable before after name node node' _ ih =>
    obtain ⟨hunique, halike⟩ := ih (ha.entry (e := (name, node)) (by simp))
    refine alike_folder ha (by simp) ?_
    intro other
    rcases lookup_replace before after name node node' other with hsame | ⟨hnode, hnode'⟩
    · exact Or.inl hsame
    · exact Or.inr ⟨node, node', hnode, hnode', hunique, halike⟩
  | trans _ _ ihab ihbc =>
    obtain ⟨hb, hab⟩ := ihab ha
    obtain ⟨hc, hbc⟩ := ihbc hb
    exact ⟨hc, fun way => (hbc way).trans (hab way)⟩

theorem Alike.symm {a b : Node} (h : a.Alike b) : b.Alike a := fun way => (h way).symm

end Node

section

variable {v w : Volume} {skips wants : String → Prop} {path : FilePath} {top top' : Node}
  {way : List String}

/-- In trees that are alike the same is to be found. -/
theorem Findable.of_alike (h : Findable v skips wants path top way) (htop : top.Alike top')
    (hfile : ∀ p, w.isFile p = v.isFile p) : Findable w skips wants path top' way := by
  obtain ⟨hentry, hfolders, hlast⟩ := h
  refine ⟨?_, ?_, hlast⟩
  · rcases hentry with ⟨number, hnumber⟩ | ⟨⟨target, htarget⟩, hisFile⟩
    · exact Or.inl ⟨number, Node.eq_of_bare rfl ((htop way).trans (congrArg _ hnumber))⟩
    · refine Or.inr ⟨⟨target, Node.eq_of_bare rfl ((htop way).trans (congrArg _ htarget))⟩, ?_⟩
      rw [hfile, hisFile]
  · intro before name after hway hafter
    obtain ⟨⟨entries, hentries⟩, hskips⟩ := hfolders before name after hway hafter
    exact ⟨Node.eq_folder_of_bare ((htop _).trans (congrArg _ hentries)), hskips⟩

/-- Paths in order are known by what is among them. -/
theorem eq_of_pairwise_before {paths paths' : List FilePath} (h : paths.Pairwise FilePath.Before)
    (h' : paths'.Pairwise FilePath.Before) (hmem : ∀ p, p ∈ paths ↔ p ∈ paths') :
    paths = paths' := by
  have hperm := (List.perm_ext_iff_of_nodup (nodup_of_pairwise_before h)
    (nodup_of_pairwise_before h')).mpr hmem
  refine List.Perm.eq_of_pairwise ?_ h h' hperm
  intro p q _ _ hbefore hafter
  exact absurd hafter hbefore.asymm

/-- The folder at a path is alike in trees that are. -/
theorem exists_resolve_of_alike {entries : List (String × Node)} (h : v.root.Alike w.root)
    (hcurrent : w.current = v.current) (hroot : v.resolve path = .ok (.folder true entries)) :
    ∃ entries', w.resolve path = .ok (.folder true entries') ∧
      (Node.folder true entries).Alike (.folder true entries') := by
  obtain ⟨place, hplace, hfind⟩ := Volume.resolve_eq_ok hroot
  obtain ⟨entries', hfind', -⟩ := h.folder hfind
  have hplace' : w.canonical path = .ok place :=
    (Volume.canonical_of_alike h hcurrent path).trans hplace
  refine ⟨entries', by simp only [Volume.resolve, hplace', hfind'], ?_⟩
  intro way
  have hway := h (place ++ way)
  rwa [Node.find?_append, Node.find?_append, hfind, hfind'] at hway

/-- The order in which folders list their entries does not change what is found. -/
theorem findFiles_eq_of_relisted {filter : FileFilter} {paths : List FilePath}
    {entries : List (String × Node)} (hunique : v.root.NamesUnique)
    (hroot : v.resolve path = .ok (.folder true entries)) (h : findFiles v path filter = .ok paths)
    (hrelisted : v.root.Relisted w.root) (hcurrent : w.current = v.current) :
    findFiles w path filter = .ok paths := by
  obtain ⟨hunique', halike⟩ := hrelisted.alike hunique
  have hfile := Volume.isFile_of_alike halike hcurrent
  obtain ⟨entries', hroot', htop⟩ := exists_resolve_of_alike halike hcurrent hroot
  -- both searches find what is to be found, which is the same, and in the order of the paths
  obtain ⟨found, hfound, hmem⟩ :=
    mem_findFiles_iff (fun _ => Iff.rfl) (fun _ => Iff.rfl) hunique hroot
  obtain ⟨found', hfound', hmem'⟩ :=
    mem_findFiles_iff (fun _ => Iff.rfl) (fun _ => Iff.rfl) hunique' hroot'
  obtain rfl := Except.ok.inj (h.symm.trans hfound)
  rw [hfound',
    eq_of_pairwise_before (pairwise_findFiles hunique' hfound') (pairwise_findFiles hunique hfound)]
  intro p
  rw [hmem, hmem']
  refine exists_congr fun way => and_congr_right fun _ => ⟨?_, ?_⟩
  · intro hfindable
    exact hfindable.of_alike htop.symm fun p => (hfile p).symm
  · intro hfindable
    exact hfindable.of_alike htop hfile

end

/-! ## The whole of it -/

/-- Of a folder that can be listed, exactly the files and links to files are found that are wanted
by name and lie in folders which can be listed and are not ignored, whatever the patterns are said
to stand for. They are in the order of their paths, so none is found twice, and it makes no
difference in which order folders list their entries. -/
theorem findFiles_finds_exactly (v : Volume) (root : FilePath) (entries : List (String × Node))
    (fits : String → String → Prop) (accept ignore : List String) (filter : FileFilter)
    (hunique : v.root.NamesUnique) (hroot : v.resolve root = .ok (.folder true entries))
    (hfits : Describes fits (accept ++ ignore))
    (hfilter : FileFilter.ofPatterns accept ignore = .ok filter) :
    ∃ paths, findFiles v root filter = .ok paths ∧
      (∀ p, p ∈ paths ↔ ∃ way, p = root.below way ∧
        Findable v (Matches fits ignore) (Wanted fits accept ignore) root
          (.folder true entries) way) ∧
      paths.Pairwise FilePath.Before ∧
      ∀ w : Volume, v.root.Relisted w.root → w.current = v.current →
        findFiles w root filter = .ok paths := by
  obtain ⟨-, hskips, -⟩ := ofPatterns_eq_ok hfits hfilter
  have hwants := wanted_iff hfits hfilter
  obtain ⟨paths, hpaths, hmem⟩ := mem_findFiles_iff hskips hwants hunique hroot
  refine ⟨paths, hpaths, hmem, pairwise_findFiles hunique hpaths, ?_⟩
  intro w hrelisted hcurrent
  exact findFiles_eq_of_relisted hunique hroot hpaths hrelisted hcurrent

/-- Files, a link and folders: one with an ignored name, one that is entered and one that cannot be
listed. -/
def siteEntries : List (String × Node) :=
  [(".git", .folder true [("x.txt", .file 0)]), (".htaccess", .file 1), (".x.txt", .file 2),
    ("a", .folder true [("z.txt", .file 3)]), ("a.txt", .link ".htaccess"),
      ("b", .folder false [("y.txt", .file 4)])]

def site (entries : List (String × Node)) : Volume where
  root := .folder true entries
  store := []
  current := []

/-- The patterns `*.txt` and `.htaccess`, without those names that begin with a dot. -/
def siteFilter : FileFilter where
  accept :=
    [⟨[.anyRun, .char '.', .char 't', .char 'x', .char 't']⟩, ⟨".htaccess".toList.map .char⟩]
  ignore := [⟨[.char '.', .anyRun]⟩]
  names := [".htaccess"]

/-- The folder `a` comes before `a.txt`, though a slash comes after a dot. -/
def sitePaths : List FilePath := [⟨true, [".htaccess"]⟩, ⟨true, ["a", "z.txt"]⟩, ⟨true, ["a.txt"]⟩]

theorem resolve_site (entries : List (String × Node)) :
    (site entries).resolve ⟨true, []⟩ = .ok (.folder true entries) := by
  have hcanonical : (site entries).canonical ⟨true, []⟩ = .ok [] :=
    Volume.canonical_eq_ok_iff.mpr ⟨Or.inl rfl, Volume.follow_nil _ _ []⟩
  simp only [Volume.resolve, hcanonical]
  rfl

/-- The link leads to the file next to it. -/
theorem isFile_site_link : (site siteEntries).isFile ⟨true, ["a.txt"]⟩ = true := by
  have hstart : (site siteEntries).root.find? [] = some (.folder true siteEntries) := rfl
  have hlink : siteEntries.lookup "a.txt" = some (.link ".htaccess") := rfl
  have hfile : siteEntries.lookup ".htaccess" = some (.file 1) := rfl
  have htarget : FilePath.ofTarget ".htaccess" = ⟨false, [".htaccess"]⟩ := by decide
  have hfollow : (site siteEntries).follow 40 [] ["a.txt"] = .ok [".htaccess"] := by
    rw [Volume.follow, hstart]
    simp only [hlink, htarget]
    rw [if_neg (by decide), if_neg (by decide)]
    show (site siteEntries).follow 39 [] [".htaccess"] = _
    rw [Volume.follow, hstart]
    simp only [hfile]
    rw [if_neg (by decide), if_neg (by decide), Volume.follow_nil]
    rfl
  have hcanonical : (site siteEntries).canonical ⟨true, ["a.txt"]⟩ = .ok [".htaccess"] :=
    Volume.canonical_eq_ok_iff.mpr ⟨Or.inl rfl, hfollow⟩
  exact Volume.isFile_of_locate (Volume.locate_of_canonical hcanonical rfl)

theorem findFiles_site : findFiles (site siteEntries) ⟨true, []⟩ siteFilter = .ok sitePaths := by
  have hskips : siteFilter.skipsFolder ".git" = true ∧ siteFilter.skipsFolder "a" = false ∧
      siteFilter.skipsFile ".x.txt" = true := by decide +kernel
  have hwanted : ∀ name ∈ [".htaccess", "z.txt", "a.txt"],
      (siteFilter.acceptsFile name && !siteFilter.skipsFile name) = true := by decide +kernel
  simp only [List.forall_mem_cons] at hwanted
  have hlink := isFile_site_link
  rw [findFiles_topLevel siteFilter rfl (by decide)]
  generalize site siteEntries = v at hlink ⊢
  simp [siteEntries, Node.discover, hskips, hwanted, hlink, discoverEach, sortByName, Run.topLevel,
    FilePath.child, sitePaths]

theorem findFiles_finds_exactly_site :
    (site siteEntries).root.NamesUnique ∧
      (site siteEntries).resolve ⟨true, []⟩ = .ok (.folder true siteEntries) ∧
      FileFilter.ofPatterns ["*.txt", ".htaccess"] [".*"] = .ok siteFilter ∧
      findFiles (site siteEntries) ⟨true, []⟩ siteFilter = .ok sitePaths ∧
      (∀ p, p ∈ sitePaths ↔ ∃ way, p = FilePath.below ⟨true, []⟩ way ∧
        Findable (site siteEntries) (Matches GlobFits [".*"])
          (Wanted GlobFits ["*.txt", ".htaccess"] [".*"]) ⟨true, []⟩
            (.folder true siteEntries) way) ∧
      findFiles (site siteEntries.reverse) ⟨true, []⟩ siteFilter = .ok sitePaths := by
  have hunique : (site siteEntries).root.NamesUnique := by
    refine Node.namesUnique_folder_iff.mpr ⟨by decide, ?_⟩
    simp [siteEntries, Node.namesUnique_folder_iff]
  have hroot := resolve_site siteEntries
  have hfilter : FileFilter.ofPatterns ["*.txt", ".htaccess"] [".*"] = .ok siteFilter := by
    decide +kernel
  obtain ⟨paths, hpaths, hmem, -, hrelisted⟩ :=
    findFiles_finds_exactly _ _ _ GlobFits _ _ _ hunique hroot
    (describes_globFits _) hfilter
  obtain rfl := Except.ok.inj (hpaths.symm.trans findFiles_site)
  refine ⟨hunique, hroot, hfilter, hpaths, hmem, hrelisted _ ?_ rfl⟩
  exact .order siteEntries.reverse_perm.symm

end SourceTidy
