import Mathlib.Data.String.Basic
import SourceTidy.Proofs.DiscoveredFiles

/-! # The order of found files

Names are compared as texts, that is character by character. The octets of UTF-8 come to the same
order. Files are found in the order of their paths, name by name.

* `ofString_lt_ofString`: the order of the octets of names;
* `FilePath.Before`: the order of paths;
* `pairwise_discover`: the order of the files below an entry;
* `pairwise_findFiles`: and of all files that are found;
* `nodup_findFiles`: so no path is found twice.
-/

namespace SourceTidy

/-! ## The order of octets -/

/-- The encoding keeps the order of the numbers below the bound, whatever octets follow. -/
def KeepsOrder (encode : Nat → Bytes) (bound : Nat) : Prop :=
  ∀ m n, m < n → n < bound → ∀ s t : Bytes, encode m ++ s < encode n ++ t

/-- The first octet decides if it is a smaller number. -/
theorem cons_ofNat_lt {m n : Nat} (hmn : m < n) (hn : n < 256) (s t : Bytes) :
    UInt8.ofNat m :: s < UInt8.ofNat n :: t := by
  refine List.cons_lt_cons_iff.mpr (Or.inl ?_)
  rw [UInt8.lt_iff_toNat_lt, UInt8.toNat_ofNat', UInt8.toNat_ofNat']
  omega

theorem keepsOrder_octet (first bound : Nat) (h : bound + first ≤ 256) :
    KeepsOrder (fun m => [UInt8.ofNat (m % bound + first)]) bound := by
  intro m n hmn hn s t
  refine cons_ofNat_lt ?_ ?_ s t
  · rw [Nat.mod_eq_of_lt (hmn.trans hn), Nat.mod_eq_of_lt hn]
    omega
  · rw [Nat.mod_eq_of_lt hn]
    omega

/-- One more octet, for a digit to the base of 64. -/
theorem KeepsOrder.digit {encode : Nat → Bytes} {bound : Nat} (h : KeepsOrder encode bound) :
    KeepsOrder (fun m => encode (m / 64) ++ [UInt8.ofNat (m % 64 + 128)]) (64 * bound) := by
  intro m n hmn hn s t
  simp only [List.append_assoc]
  by_cases hdigit : m / 64 < n / 64
  · exact h _ _ hdigit (by omega) _ _
  · have hsame : m / 64 = n / 64 := by omega
    rw [hsame]
    exact List.append_left_lt (cons_ofNat_lt (by omega) (by omega) s t)

/-- Greater characters have greater octets, whatever comes after them. -/
theorem utf8EncodeChar_lt {c d : Char} (h : c < d) (s t : Bytes) :
    String.utf8EncodeChar c ++ s < String.utf8EncodeChar d ++ t := by
  have hcd : c.val.toNat < d.val.toNat := h
  have hd : d.val.toNat < 0x110000 := by
    rcases d.valid with hvalid | ⟨-, hvalid⟩
    · exact Nat.lt_trans hvalid (by decide)
    · exact hvalid
  unfold String.utf8EncodeChar
  generalize c.val.toNat = m at *
  generalize d.val.toNat = n at *
  have hdigits : ∀ k : Nat, k / 4096 = k / 64 / 64 ∧ k / 262144 = k / 64 / 64 / 64 := by omega
  dsimp only
  rw [(hdigits m).1, (hdigits n).1, (hdigits m).2, (hdigits n).2]
  -- the first octet tells how many there are, and there are more for greater numbers
  split_ifs
  · exact cons_ofNat_lt (by omega) (by omega) _ _
  · exact cons_ofNat_lt (by omega) (by omega) _ _
  · exact cons_ofNat_lt (by omega) (by omega) _ _
  · exact cons_ofNat_lt (by omega) (by omega) _ _
  · omega
  · exact (keepsOrder_octet 192 32 (by decide)).digit m n hcd (by omega) s t
  · exact cons_ofNat_lt (by omega) (by omega) _ _
  · exact cons_ofNat_lt (by omega) (by omega) _ _
  · omega
  · omega
  · exact (keepsOrder_octet 224 16 (by decide)).digit.digit m n hcd (by omega) s t
  · exact cons_ofNat_lt (by omega) (by omega) _ _
  · omega
  · omega
  · omega
  · exact (keepsOrder_octet 240 8 (by decide)).digit.digit.digit m n hcd (by omega) s t

/-- The octets of a text are those of its characters. -/
theorem ofString_eq_flatMap (s : String) :
    Bytes.ofString s = s.toList.flatMap String.utf8EncodeChar := by
  rw [Bytes.ofString, String.toUTF8_eq_toByteArray]
  conv_lhs => rw [← String.ofList_toList (s := s)]
  rw [String.toByteArray_ofList, List.utf8Encode, List.data_toByteArray]

/-- Texts are in the order of their octets. -/
theorem flatMap_utf8EncodeChar_lt {s t : List Char} (h : s < t) :
    s.flatMap String.utf8EncodeChar < t.flatMap String.utf8EncodeChar := by
  induction s generalizing t with
  | nil =>
    cases t with
    | nil => cases h
    | cons d t =>
      cases hd : String.utf8EncodeChar d with
      | nil => exact absurd hd String.utf8EncodeChar_ne_nil
      | cons b rest =>
        rw [List.flatMap_cons, hd]
        exact List.nil_lt_cons _ _
  | cons c s ih =>
    cases t with
    | nil => cases h
    | cons d t =>
      rw [List.flatMap_cons, List.flatMap_cons]
      rcases List.cons_lt_cons_iff.mp h with hcd | ⟨rfl, hst⟩
      · exact utf8EncodeChar_lt hcd _ _
      · exact List.append_left_lt (ih hst)

/-- The octets of names are in the order of the names. -/
theorem ofString_lt_ofString {s t : String} (h : s < t) : Bytes.ofString s < Bytes.ofString t := by
  rw [ofString_eq_flatMap, ofString_eq_flatMap]
  exact flatMap_utf8EncodeChar_lt (String.lt_iff_toList_lt.mp h)

/-! ## The order of paths -/

/-- The names of one path are before those of the other one, in the order of their octets. -/
def FilePath.Before (p q : FilePath) : Prop :=
  p.parts.map Bytes.ofString < q.parts.map Bytes.ofString

/-- Paths below a folder are in the order of the first names that differ. -/
theorem FilePath.before_below (p : FilePath) {name name' : String} (h : name < name')
    (names names' : List String) :
    (p.below (name :: names)).Before (p.below (name' :: names')) := by
  simp only [Before, below, List.map_append, List.map_cons]
  exact List.append_left_lt (List.cons_lt_cons_iff.mpr (Or.inl (ofString_lt_ofString h)))

theorem FilePath.Before.asymm {p q : FilePath} (h : p.Before q) : ¬ q.Before p := List.lt_asymm h

/-- The order is strict, so paths in order are different. -/
theorem nodup_of_pairwise_before {paths : List FilePath} (h : paths.Pairwise FilePath.Before) :
    paths.Nodup := by
  refine h.imp ?_
  rintro p _ hbefore rfl
  exact hbefore.asymm hbefore

/-- Named things in the order of their names, if the names are different. -/
theorem pairwise_sortByName {α : Type} {named : List (String × α)}
    (h : (named.map Prod.fst).Nodup) :
    (sortByName named).Pairwise fun a b => a.1 < b.1 := by
  have hsorted : (sortByName named).Pairwise fun a b => decide (a.1 ≤ b.1) = true := by
    refine List.pairwise_mergeSort ?_ ?_ named
    · intro a b c hab hbc
      simp only [decide_eq_true_eq] at hab hbc ⊢
      exact hab.trans hbc
    · intro a b
      simp only [Bool.or_eq_true, decide_eq_true_eq]
      exact le_total a.1 b.1
  have hdifferent : (sortByName named).Pairwise fun a b => a.1 ≠ b.1 := by
    have hperm := (List.mergeSort_perm named fun a b => decide (a.1 ≤ b.1)).map Prod.fst
    exact List.pairwise_map.mp (hperm.nodup_iff.mpr h)
  refine (hsorted.and hdifferent).imp ?_
  rintro a b ⟨hle, hne⟩
  exact lt_of_le_of_ne (of_decide_eq_true hle) hne

section

variable {v : Volume} {filter : FileFilter} {entries : List (String × Node)} {listable : Bool}

/-- The files below a folder are in order if those below its entries are. -/
theorem pairwise_discoverEach (hunique : (Node.folder listable entries).NamesUnique)
    (path : FilePath)
    (h : ∀ e ∈ entries, (e.2.discover v filter (path.child e.1) e.1).Pairwise FilePath.Before) :
    ((sortByName (discoverEach v filter path entries)).flatMap Prod.snd).Pairwise
      FilePath.Before := by
  have hmem : ∀ found ∈ sortByName (discoverEach v filter path entries),
      ∃ e ∈ entries, found = (e.1, e.2.discover v filter (path.child e.1) e.1) := by
    intro found hfound
    rw [sortByName, List.mem_mergeSort, discoverEach_eq_map, List.mem_map] at hfound
    obtain ⟨e, he, rfl⟩ := hfound
    exact ⟨e, he, rfl⟩
  have hnames : ((discoverEach v filter path entries).map Prod.fst).Nodup := by
    rw [discoverEach_eq_map, List.map_map]
    exact hunique [] listable entries rfl
  rw [List.pairwise_flatMap]
  constructor
  · intro found hfound
    obtain ⟨e, he, rfl⟩ := hmem found hfound
    exact h e he
  · refine List.Pairwise.imp_of_mem ?_ (pairwise_sortByName hnames)
    intro found found' hfound hfound' hlt p hp q hq
    obtain ⟨e, he, rfl⟩ := hmem found hfound
    obtain ⟨e', he', rfl⟩ := hmem found' hfound'
    -- the paths go apart at the names of the entries
    obtain ⟨names, rfl, -⟩ := exists_entry_of_mem_discover (hunique.entry he) hp
    obtain ⟨names', rfl, -⟩ := exists_entry_of_mem_discover (hunique.entry he') hq
    rw [FilePath.below_child, FilePath.below_child]
    exact path.before_below hlt names names'

/-- The files at or below an entry are found in the order of their paths. -/
theorem pairwise_discover {node : Node} (hunique : node.NamesUnique) (path : FilePath)
    (name : String) :
    (node.discover v filter path name).Pairwise FilePath.Before := by
  induction node using Node.inductionOn generalizing path name with
  | file number =>
    rw [Node.discover]
    split <;> simp
  | link target =>
    rw [Node.discover]
    split <;> simp
  | folder listable entries ih =>
    rw [Node.discover]
    split
    · exact List.Pairwise.nil
    · refine pairwise_discoverEach hunique path ?_
      intro e he
      exact ih e he (hunique.entry he) _ _

/-- All files are found in the order of their paths. -/
theorem pairwise_findFiles {root : FilePath} {paths : List FilePath} (hunique : v.root.NamesUnique)
    (h : findFiles v root filter = .ok paths) : paths.Pairwise FilePath.Before := by
  obtain ⟨way, entries, -, hfind, rfl⟩ := findFiles_eq_ok h
  have hunique := hunique.of_find? hfind
  refine pairwise_discoverEach hunique root ?_
  intro e he
  exact pairwise_discover (hunique.entry he) _ _

/-- No path is found twice. -/
theorem nodup_findFiles {root : FilePath} {paths : List FilePath} (hunique : v.root.NamesUnique)
    (h : findFiles v root filter = .ok paths) : paths.Nodup :=
  nodup_of_pairwise_before (pairwise_findFiles hunique h)

end

end SourceTidy
