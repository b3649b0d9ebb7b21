import Mathlib.Tactic.Common
import SourceTidy.Volume.Basic

/-! # Access to the files of a volume

What is done to one file is a look at what is stored there and perhaps a change of it. Where a path
leads depends on the tree alone, which no such access touches. So accesses to different files do not
see each other, and it does not matter which of them comes first. Nor does it matter in which order
folders list their entries.

* `Node.Alike`, `follow_of_alike`: trees in which the same names lead to the same nodes;
* `Volume.act`: an access to one file;
* `Accesses.comm`: accesses to different files commute;
* `read_eq_stored`, `write_eq_stored`: reading and writing are such accesses.
-/

namespace SourceTidy

/-! ## Trees that are alike -/

namespace Node

/-- The node without its entries. -/
def bare : Node → Node
  | .folder listable _ => .folder listable []
  | node => node

/-- The same names lead to the same nodes, up to the order of the entries of folders. -/
def Alike (a b : Node) : Prop := ∀ way, (b.find? way).map bare = (a.find? way).map bare

/-- A way can be followed in two parts. -/
theorem find?_append (node : Node) (names more : List String) :
    node.find? (names ++ more) = (node.find? names).bind fun entry => entry.find? more := by
  induction names generalizing node with
  | nil => rw [List.nil_append, find?]; rfl
  | cons name names ih =>
    rw [List.cons_append, find?, find?]
    cases node.entries.lookup name with
    | none => rfl
    | some entry => exact ih entry

/-- What looks like a folder without its entries is a folder with some entries. -/
theorem eq_folder_of_bare {node? : Option Node} {listable : Bool}
    (h : node?.map bare = some (.folder listable [])) :
    ∃ entries, node? = some (.folder listable entries) := by
  obtain ⟨node, rfl, hnode⟩ := Option.map_eq_some_iff.mp h
  cases node with
  | folder listable' entries =>
    cases hnode
    exact ⟨entries, rfl⟩
  | file number => cases hnode
  | link target => cases hnode

/-- Only folders have entries, so any other node is the same without them. -/
theorem eq_of_bare {node? : Option Node} {node : Node} (hnode : node.isFolder = false)
    (h : node?.map bare = some node.bare) : node? = some node := by
  obtain ⟨found, rfl, hfound⟩ := Option.map_eq_some_iff.mp h
  cases node with
  | folder listable entries => cases hnode
  | file number =>
    cases found <;> cases hfound
    rfl
  | link target =>
    cases found <;> cases hfound
    rfl

/-- Where one tree has a folder so has the other one, and the entries are alike. -/
theorem Alike.folder {a b : Node} (h : a.Alike b) {way : List String} {listable : Bool}
    {entries : List (String × Node)} (hfind : a.find? way = some (.folder listable entries)) :
    ∃ entries', b.find? way = some (.folder listable entries') ∧
      ∀ name, (entries'.lookup name).map bare = (entries.lookup name).map bare := by
  obtain ⟨entries', hfind'⟩ := eq_folder_of_bare ((h way).trans (by rw [hfind]; rfl))
  refine ⟨entries', hfind', ?_⟩
  intro name
  -- an entry is what one more name on the way leads to
  have hname := h (way ++ [name])
  rw [find?_append, find?_append, hfind, hfind'] at hname
  have hlast : ∀ node : Node, node.find? [name] = node.entries.lookup name := by
    intro node
    rw [find?]
    cases node.entries.lookup name <;> rfl
  simpa only [hlast, Node.entries, Option.bind_some] using hname

end Node

namespace Volume

/-- What is stored in the file at a path. -/
def stored (v : Volume) (path : FilePath) : Except IoError Stored := do
  match v.store[← v.locate path]? with
  | some s => .ok s
  | none => .error .notFound

/-- The volume with something else stored in the file at a path. -/
def setStored (v : Volume) (path : FilePath) (s : Stored) : Volume :=
  match v.locate path with
  | .ok n => { v with store := v.store.set n s }
  | .error _ => v

/-- An access to the file at a path: what is stored there is changed by `f`, which also gives the
result. Where there is no file, `fail` gives it. -/
def act {α : Type} (v : Volume) (path : FilePath) (fail : IoError → α) (f : Stored → Stored × α) :
    Volume × α :=
  match v.stored path with
  | .ok s => (v.setStored path (f s).1, (f s).2)
  | .error e => (v, fail e)

/-- The paths do not lead to the same file. -/
def Apart (v : Volume) (p q : FilePath) : Prop := ∀ n, v.locate p = .ok n → v.locate q ≠ .ok n

/-- No two of the paths lead to the same file. -/
def Distinct (v : Volume) (paths : List FilePath) : Prop := paths.Pairwise v.Apart

variable {v w : Volume} {p q : FilePath} {s t : Stored} {n : Nat}

/-! ## Where a path leads -/

/-- In trees that are alike the same names are followed, whatever the files hold. -/
theorem follow_of_alike (h : v.root.Alike w.root) (links : Nat) (here names : List String) :
    v.follow links here names = w.follow links here names := by
  -- each case asks the tree one question, about the folder or about the entry that comes next, and
  -- both trees give the same answer; only what is below an entry may be listed in another order
  fun_induction follow v links here names with
  | case1 => rw [follow]
  | case2 links here names _ _ hfind ih =>
    obtain ⟨entries', hfind', -⟩ := h.folder hfind
    rw [follow, hfind']
    simpa using ih
  | case3 links here names _ _ hfind _ ih =>
    obtain ⟨entries', hfind', -⟩ := h.folder hfind
    rw [follow, hfind']
    simpa using ih
  | case4 links here name names _ entries hfind hdot hup hentry =>
    obtain ⟨entries', hfind', hlookup⟩ := h.folder hfind
    have hentry' : entries'.lookup name = none := by simpa [hentry] using hlookup name
    rw [follow, hfind']
    simp [hdot, hup, hentry']
  | case5 here name names _ entries hfind hdot hup target hentry =>
    obtain ⟨entries', hfind', hlookup⟩ := h.folder hfind
    have hentry' := Node.eq_of_bare rfl ((hlookup name).trans (congrArg _ hentry))
    rw [follow, hfind']
    simp [hdot, hup, hentry']
  | case6 here name names _ entries hfind hdot hup target hentry links path ih =>
    obtain ⟨entries', hfind', hlookup⟩ := h.folder hfind
    have hentry' := Node.eq_of_bare rfl ((hlookup name).trans (congrArg _ hentry))
    rw [follow, hfind']
    simp only [hdot, hup, hentry', if_false]
    exact ih
  | case7 links here name names _ entries hfind hdot hup node hnode hentry ih =>
    obtain ⟨entries', hfind', hlookup⟩ := h.folder hfind
    have hbare := (hlookup name).trans (congrArg _ hentry)
    rw [follow, hfind']
    simp only [hdot, hup, if_false]
    cases node with
    | file number =>
      rw [Node.eq_of_bare rfl hbare]
      exact ih
    | folder listable inner =>
      obtain ⟨inner', hinner⟩ := Node.eq_folder_of_bare hbare
      rw [hinner]
      exact ih
    | link target => exact absurd rfl (hnode target)
  | case8 links here name names node hfolder hfind =>
    have hbare := (h here).trans (congrArg _ hfind)
    cases node with
    | folder listable entries => exact absurd rfl (hfolder listable entries)
    | _ => rw [follow, Node.eq_of_bare rfl hbare]
  | case9 links here name names hfind =>
    have hnone : w.root.find? here = none := by simpa [hfind] using h here
    rw [follow, hnone]

/-- A path leads to one place in all trees that are alike. -/
theorem canonical_of_alike (h : v.root.Alike w.root) (hcurrent : w.current = v.current)
    (path : FilePath) :
    w.canonical path = v.canonical path := by
  have hfollow : w.follow = v.follow := by
    funext links here names
    exact (follow_of_alike h links here names).symm
  simp only [canonical, hfollow, hcurrent]

/-- A path leads to the same node in both trees, up to the order of entries. -/
theorem resolve_of_alike (h : v.root.Alike w.root) (hcurrent : w.current = v.current)
    (path : FilePath) :
    (w.resolve path).map Node.bare = (v.resolve path).map Node.bare := by
  simp only [resolve, canonical_of_alike h hcurrent path]
  cases v.canonical path with
  | error e => cases e <;> rfl
  | ok way =>
    have hway := h way
    cases hv : v.root.find? way <;> cases hw : w.root.find? way <;> simp_all [Except.map]

/-- Whether a path leads to a file can be seen without the entries of folders. -/
theorem isFile_iff {path : FilePath} :
    v.isFile path = true ↔ ∃ number, (v.resolve path).map Node.bare = .ok (.file number) := by
  unfold isFile
  cases v.resolve path with
  | error e => simp [Except.map]
  | ok node => cases node <;> simp [Except.map, Node.bare]

/-- The same paths lead to files in trees that are alike. -/
theorem isFile_of_alike (h : v.root.Alike w.root) (hcurrent : w.current = v.current)
    (path : FilePath) :
    w.isFile path = v.isFile path := by
  rw [Bool.eq_iff_iff, isFile_iff, isFile_iff, resolve_of_alike h hcurrent]

/-- Where a path leads depends on the tree and the current folder, not on what is stored. -/
theorem locate_congr (hroot : v.root = w.root) (hcurrent : v.current = w.current)
    (path : FilePath) :
    v.locate path = w.locate path := by
  have hfollow : v.follow = w.follow := by
    funext links here names
    exact follow_of_alike (fun _ => by rw [hroot]) links here names
  simp only [locate, resolve, canonical, hfollow, hroot, hcurrent]

theorem setStored_of_locate (h : v.locate p = .ok n) (s : Stored) :
    v.setStored p s = { v with store := v.store.set n s } := by
  simp only [setStored, h]

theorem setStored_of_not_located {e : IoError} (h : v.locate p = .error e) (s : Stored) :
    v.setStored p s = v := by
  simp only [setStored, h]

@[simp] theorem root_setStored (v : Volume) (p : FilePath) (s : Stored) :
    (v.setStored p s).root = v.root := by
  unfold setStored
  split <;> rfl

@[simp] theorem current_setStored (v : Volume) (p : FilePath) (s : Stored) :
    (v.setStored p s).current = v.current := by
  unfold setStored
  split <;> rfl

@[simp] theorem locate_setStored (v : Volume) (p q : FilePath) (s : Stored) :
    (v.setStored p s).locate q = v.locate q :=
  locate_congr (root_setStored v p s) (current_setStored v p s) q

theorem Apart.symm (h : v.Apart p q) : v.Apart q p := fun n hq hp => h n hp hq

/-! ## What is stored -/

/-- What is stored at a path is what the store has under the number of its file. -/
theorem stored_eq_ok_iff : v.stored p = .ok s ↔ ∃ n, v.locate p = .ok n ∧ v.store[n]? = some s := by
  unfold stored
  cases hlocate : v.locate p with
  | error e => simp [bind, Except.bind]
  | ok n =>
    cases hstore : v.store[n]? <;> simp [bind, Except.bind, hstore]

/-- A change of one file leaves all other numbers of the store alone. -/
theorem store_setStored_of_ne {m : Nat} (h : v.locate p ≠ .ok m) (s : Stored) :
    (v.setStored p s).store[m]? = v.store[m]? := by
  unfold setStored
  split
  · next n hlocate =>
    have hne : n ≠ m := by
      rintro rfl
      exact h hlocate
    exact List.getElem?_set_ne hne
  · rfl

/-- The number of the file itself has what was put there. -/
theorem store_setStored_self (h : v.stored p = .ok s) (hlocate : v.locate p = .ok n) (t : Stored) :
    (v.setStored p t).store[n]? = some t := by
  obtain ⟨m, hm, hstore⟩ := stored_eq_ok_iff.mp h
  obtain rfl : m = n := by simpa [hlocate] using hm.symm
  obtain ⟨hlt, -⟩ := List.getElem?_eq_some_iff.mp hstore
  rw [setStored_of_locate hlocate]
  exact List.getElem?_set_self hlt

/-- No number is added to the store or taken away. -/
theorem length_store_setStored (v : Volume) (p : FilePath) (s : Stored) :
    (v.setStored p s).store.length = v.store.length := by
  unfold setStored
  split
  · exact List.length_set
  · rfl

/-- What was put into a file is what is stored there. -/
theorem stored_setStored_self (h : v.stored p = .ok s) (t : Stored) :
    (v.setStored p t).stored p = .ok t := by
  obtain ⟨n, hlocate, -⟩ := stored_eq_ok_iff.mp h
  rw [stored_eq_ok_iff]
  exact ⟨n, by simpa using hlocate, store_setStored_self h hlocate t⟩

/-- A change of one file is not seen at another. -/
theorem stored_setStored_of_apart (h : v.Apart p q) (s : Stored) :
    (v.setStored p s).stored q = v.stored q := by
  unfold stored
  rw [locate_setStored]
  cases hlocate : v.locate q with
  | error e => rfl
  | ok n =>
    have hne : v.locate p ≠ .ok n := fun hp => h n hp hlocate
    simp only [bind, Except.bind, store_setStored_of_ne hne]

/-- To put back what is there already changes nothing. -/
theorem setStored_stored (h : v.stored p = .ok s) : v.setStored p s = v := by
  obtain ⟨n, hlocate, hstore⟩ := stored_eq_ok_iff.mp h
  obtain ⟨hlt, rfl⟩ := List.getElem?_eq_some_iff.mp hstore
  rw [setStored_of_locate hlocate, List.set_getElem_self hlt]

/-- Changes of different files can be made in either order. -/
theorem setStored_comm (h : v.Apart p q) (s t : Stored) :
    (v.setStored p s).setStored q t = (v.setStored q t).setStored p s := by
  -- a path that leads to no file makes its change void; otherwise the two changes are of different
  -- numbers of the store
  cases hp : v.locate p with
  | error e =>
    have hp' : (v.setStored q t).locate p = .error e := by rw [locate_setStored, hp]
    rw [setStored_of_not_located hp, setStored_of_not_located hp']
  | ok n =>
    have hp' : (v.setStored q t).locate p = .ok n := by rw [locate_setStored, hp]
    cases hq : v.locate q with
    | error e =>
      have hq' : (v.setStored p s).locate q = .error e := by rw [locate_setStored, hq]
      rw [setStored_of_not_located hq, setStored_of_not_located hq']
    | ok m =>
      have hq' : (v.setStored p s).locate q = .ok m := by rw [locate_setStored, hq]
      have hne : n ≠ m := by
        rintro rfl
        exact h n hp hq
      rw [setStored_of_locate hq', setStored_of_locate hp', setStored_of_locate hp,
        setStored_of_locate hq]
      simp only [List.set_comm _ _ hne]

/-! ## Accesses -/

/-- To read is to look at what is stored, if that is allowed. -/
theorem read_eq_stored (v : Volume) (p : FilePath) :
    v.read p = (v.stored p).bind fun s => if s.readable then .ok s.bytes else .error .denied := by
  unfold read stored
  cases v.locate p with
  | error e => rfl
  | ok n =>
    simp only [bind, Except.bind]
    cases v.store[n]? <;> rfl

/-- To write is to put something else there, if that is allowed. -/
theorem write_eq_stored (v : Volume) (p : FilePath) (bytes : Bytes) :
    v.write p bytes = (v.stored p).bind fun s =>
      if s.writable then .ok (v.setStored p { s with bytes }) else .error .denied := by
  unfold write stored
  cases hlocate : v.locate p with
  | error e => rfl
  | ok n =>
    simp only [bind, Except.bind, setStored_of_locate hlocate]
    cases v.store[n]? <;> rfl

/-- What can be read is the content of a readable file. -/
theorem read_eq_ok_iff {bytes : Bytes} :
    v.read p = .ok bytes ↔ ∃ s, v.stored p = .ok s ∧ s.readable = true ∧ s.bytes = bytes := by
  rw [read_eq_stored]
  cases v.stored p with
  | error e => simp [Except.bind]
  | ok s => cases hreadable : s.readable <;> simp [Except.bind, hreadable]

/-- Only what may be written has been written. -/
theorem writable_of_write {bytes : Bytes} (h : v.write p bytes = .ok w)
    (hstored : v.stored p = .ok s) :
    s.writable = true := by
  rw [write_eq_stored, hstored] at h
  by_contra hwritable
  simp [Except.bind, hwritable] at h

section Act

variable {α β : Type} {fail : IoError → α} {fail' : IoError → β} {f : Stored → Stored × α}
  {g : Stored → Stored × β}

theorem act_of_stored (h : v.stored p = .ok s) :
    v.act p fail f = (v.setStored p (f s).1, (f s).2) := by
  simp only [act, h]

theorem act_of_not_stored {e : IoError} (h : v.stored p = .error e) :
    v.act p fail f = (v, fail e) := by
  simp only [act, h]

theorem locate_act (v : Volume) (p q : FilePath) (fail : IoError → α) (f : Stored → Stored × α) :
    (v.act p fail f).1.locate q = v.locate q := by
  unfold act
  split <;> simp

/-- An access to one file is not seen at another. -/
theorem stored_act_of_apart (h : v.Apart p q) : (v.act p fail f).1.stored q = v.stored q := by
  unfold act
  split
  · exact stored_setStored_of_apart h _
  · rfl

/-- After an access the file holds what the access has made of its content. -/
theorem stored_act_self (v : Volume) (p : FilePath) (fail : IoError → α) (f : Stored → Stored × α) :
    (v.act p fail f).1.stored p = (v.stored p).map fun s => (f s).1 := by
  cases hstored : v.stored p with
  | error e => rw [act_of_not_stored hstored, hstored, Except.map]
  | ok s => rw [act_of_stored hstored, stored_setStored_self hstored, Except.map]

/-- The result of an access depends on what is stored in the file. -/
theorem act_snd_congr (h : v.stored p = w.stored p) : (v.act p fail f).2 = (w.act p fail f).2 := by
  unfold act
  rw [h]
  cases w.stored p <;> rfl

/-- Accesses to different files leave the same volume in either order. -/
theorem act_fst_comm (h : v.Apart p q) :
    ((v.act p fail f).1.act q fail' g).1 = ((v.act q fail' g).1.act p fail f).1 := by
  have hq : (v.act p fail f).1.stored q = v.stored q := stored_act_of_apart h
  have hp : (v.act q fail' g).1.stored p = v.stored p := stored_act_of_apart h.symm
  -- an access to a path without a file changes nothing, so it can be left out on both sides
  cases hsp : v.stored p with
  | error e => rw [act_of_not_stored hsp, act_of_not_stored (hp.trans hsp)]
  | ok s =>
    cases hsq : v.stored q with
    | error e => rw [act_of_not_stored hsq, act_of_not_stored (hq.trans hsq)]
    | ok t =>
      rw [act_of_stored (hq.trans hsq), act_of_stored (hp.trans hsp), act_of_stored hsp,
        act_of_stored hsq]
      exact setStored_comm h _ _

end Act

/-- A step that has to do with one file only. -/
def Accesses {α : Type} (path : FilePath) (step : Volume → Volume × α) : Prop :=
  ∃ fail f, ∀ v, step v = v.act path fail f

section Accesses

variable {α β : Type} {step : Volume → Volume × α} {step' : Volume → Volume × β}

theorem accesses_act (path : FilePath) (fail : IoError → α) (f : Stored → Stored × α) :
    Accesses path fun v => v.act path fail f :=
  ⟨fail, f, fun _ => rfl⟩

/-- A step that only makes something else of the result accesses the same file. -/
theorem Accesses.map (h : Accesses p step) (k : α → β) :
    Accesses p fun v => ((step v).1, k (step v).2) := by
  obtain ⟨fail, f, hstep⟩ := h
  refine ⟨fun e => k (fail e), fun s => ((f s).1, k (f s).2), ?_⟩
  intro v
  simp only [hstep, act]
  split <;> rfl

theorem Accesses.locate_eq (h : Accesses p step) (v : Volume) (q : FilePath) :
    (step v).1.locate q = v.locate q := by
  obtain ⟨fail, f, hstep⟩ := h
  rw [hstep, locate_act]

/-- Of two steps that have to do with different files either may come first. -/
theorem Accesses.comm (h : Accesses p step) (h' : Accesses q step') (hapart : v.Apart p q) :
    step' (step v).1 = ((step (step' v).1).1, (step' v).2) := by
  obtain ⟨fail, f, hstep⟩ := h
  obtain ⟨fail', g, hstep'⟩ := h'
  -- the volumes are equal as the accesses commute; the result of the second is the one it would
  -- have had alone, as the first does not touch its file
  have hvolume : ((v.act p fail f).1.act q fail' g).1 = ((v.act q fail' g).1.act p fail f).1 :=
    act_fst_comm hapart
  have hresult : ((v.act p fail f).1.act q fail' g).2 = (v.act q fail' g).2 :=
    act_snd_congr (stored_act_of_apart hapart)
  simp only [hstep, hstep']
  exact Prod.ext hvolume hresult

end Accesses

end Volume

end SourceTidy
