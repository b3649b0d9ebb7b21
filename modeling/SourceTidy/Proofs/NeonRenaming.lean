import SourceTidy.Proofs.NeonKeys
import SourceTidy.Proofs.NeonRelabelling

/-! # NEON documents with other texts

Other texts make a difference to the machine only if two keys of a mapping become one. Which keys
its mappings have can be read off the tokens.

* `KeysMerge`: two keys of a mapping become one;
* `merges_iff`, `keysMerge_iff`: as the tokens show it, and as the machine does;
* `parse_rename`: what other texts do to a document.
-/

namespace SourceTidy.Neon

open Bytes

/-- After some of the tokens different keys become one that stand in the same brackets, or in the
block that the last line is in. -/
inductive KeysMerge (f : Bytes → Bytes) (tokens : List Token) : Prop where
  | inBrackets {read g} (hread : read <+: tokens) (hg : g ∈ (reading read).groups)
      (hkeys : Merge f (keysOf g))
  | inBlock {read root} (hread : read <+: tokens) (hlayout : IsLayout (entryLines read) root)
      (hkeys : Merge f (root.openKeys []))

section

variable {f : Bytes → Bytes} {read tokens : List Token} {m : Machine}

/-- The order of the keys does not matter. -/
theorem merge_reverse (f : Bytes → Bytes) (keys : List Bytes) :
    Merge f keys.reverse ↔ Merge f keys := by
  simp only [Merge, List.mem_reverse]

/-- Keys that are still different with other texts have not become one. -/
theorem not_merge_of_nodup {keys : List Bytes} (h : (keys.map f).Nodup) : ¬ Merge f keys := by
  rintro ⟨a, ha, b, hb, hne, hab⟩
  exact hne (List.inj_on_of_nodup_map h ha hb hab)

/-- The keys in brackets, as the symbols in them show. -/
theorem groupsMerge_iff {symbols : List (List Symbol)} {groups : List Group}
    (h : List.Forall₂ KeepsGroup symbols groups) :
    GroupsMerge f groups ↔ ∃ g ∈ symbols, Merge f (keysOf g) := by
  induction h with
  | nil => simp [GroupsMerge]
  | cons hg _ ih =>
    rw [GroupsMerge, List.exists_mem_cons_iff, List.exists_mem_cons_iff, ← ih, ← hg.keys,
      merge_reverse]
    rfl

/-- The keys of the innermost block, as the layout of the lines shows. -/
theorem Grown.merges_iff {blocks : List Block} {lines : List EntryLine} (h : Grown blocks lines) :
    (∃ b ∈ blocks.head?, Merge f b.keys) ↔
      ∃ root, IsLayout lines.reverse root ∧ Merge f (root.openKeys []) := by
  obtain ⟨root, hroot, -, -, hopen⟩ := h.exists_layout
  -- lines have one layout only, so we may speak of that of the block
  have hunique : (∃ root, IsLayout lines.reverse root ∧ Merge f (root.openKeys [])) ↔
      Merge f (root.openKeys []) := by
    constructor
    · rintro ⟨other, hother, hmerge⟩
      rwa [hroot.unique hother]
    · intro hmerge
      exact ⟨root, hroot, hmerge⟩
  rw [hunique]
  cases h with
  | empty =>
    obtain rfl : root = .none := hroot.unique ⟨rfl, .none⟩
    simp [Merge, Layout.openKeys]
  | @cons b _ _ _ _ _ hholds _ _ =>
    rw [← hopen b rfl, merge_reverse]
    simp

/-- The keys that the machine holds are those that the symbols show. -/
theorem merges_iff (h : Machine.start.run read = .ok m) :
    m.Merges f ↔ (∃ g ∈ (reading read).groups, Merge f (keysOf g)) ∨
      ∃ root, IsLayout (entryLines read) root ∧ Merge f (root.openKeys []) := by
  obtain ⟨hgroups, hblocks⟩ := keeps_run h
  exact or_congr (groupsMerge_iff hgroups) hblocks.merges_iff

/-- Keys become one in the tokens exactly if they do in the machine at some point. -/
theorem keysMerge_iff (h : Machine.start.run tokens = .ok m) :
    KeysMerge f tokens ↔ ∃ read m₁, read <+: tokens ∧ Machine.start.run read = .ok m₁ ∧
      m₁.Merges f := by
  -- as all tokens are read, so are those of every beginning
  have hread : ∀ read, read <+: tokens → ∃ m₁, Machine.start.run read = .ok m₁ := by
    rintro read ⟨rest, rfl⟩
    rw [run_append] at h
    obtain ⟨m₁, hread, -⟩ := bind_eq_ok h
    exact ⟨m₁, hread⟩
  constructor
  · intro hmerge
    cases hmerge with
    | @inBrackets read g hprefix hg hkeys =>
      obtain ⟨m₁, hrun⟩ := hread read hprefix
      exact ⟨read, m₁, hprefix, hrun, (merges_iff hrun).mpr (Or.inl ⟨g, hg, hkeys⟩)⟩
    | @inBlock read root hprefix hlayout hkeys =>
      obtain ⟨m₁, hrun⟩ := hread read hprefix
      exact ⟨read, m₁, hprefix, hrun, (merges_iff hrun).mpr (Or.inr ⟨root, hlayout, hkeys⟩)⟩
  · rintro ⟨read, m₁, hprefix, hrun, hmerges⟩
    rcases (merges_iff hrun).mp hmerges with ⟨g, hg, hkeys⟩ | ⟨root, hlayout, hkeys⟩
    · exact .inBrackets hprefix hg hkeys
    · exact .inBlock hprefix hlayout hkeys

/-- The keys in brackets are different. -/
theorem nodup_keys_of_keepsGroup {symbols : List (List Symbol)} {groups : List Group}
    (h : List.Forall₂ KeepsGroup symbols groups) : ∀ g ∈ groups, g.keys.Nodup := by
  induction h with
  | nil => exact List.forall_mem_nil _
  | cons hg _ ih => exact List.forall_mem_cons.mpr ⟨hg.nodup, ih⟩

/-- The keys of the block of the last line are different. -/
theorem Grown.nodup_keys {blocks : List Block} {lines : List EntryLine} (h : Grown blocks lines) :
    ∀ b ∈ blocks.head?, b.keys.Nodup := by
  cases h with
  | empty => simp
  | cons hholds => simpa using hholds.nodup

/-- No open mapping has a key twice, so no keys have become one in what the machine has accepted. -/
theorem not_merges_of_run (h : Machine.start.run read = .ok (m.relabel (.texts f))) :
    ¬ m.Merges f := by
  obtain ⟨hgroups, hblocks⟩ := keeps_run h
  rintro (⟨g, hg, hkeys⟩ | ⟨b, hb, hkeys⟩)
  · exact not_merge_of_nodup (nodup_keys_of_keepsGroup hgroups _ (List.mem_map_of_mem hg)) hkeys
  · refine not_merge_of_nodup (hblocks.nodup_keys (b.relabel (.texts f)) ?_) hkeys
    simpa [Machine.relabel] using ⟨b, hb, rfl⟩

/-- If the machine takes the tokens with their other texts as well, no keys have become one. -/
theorem not_keysMerge_of_run (hf : KeepsChains f) (h : Machine.start.run tokens = .ok m)
    {m' : Machine} (hrenamed : Machine.start.run (tokens.map (Token.rename f)) = .ok m') :
    ¬ KeysMerge f tokens := by
  rw [keysMerge_iff h]
  rintro ⟨read, m₁, ⟨rest, rfl⟩, hread, hmerges⟩
  rw [List.map_append, run_append] at hrenamed
  obtain ⟨m₂, hbefore, -⟩ := bind_eq_ok hrenamed
  -- the machine has accepted the tokens before, and its mappings have no key twice
  rcases run_relabel (r := .texts f) hf Machine.start read with hsame | ⟨-, hduplicated⟩
  · rw [hread] at hsame
    exact not_merges_of_run hsame hmerges
  · exact hduplicated.ne_ok m₂ hbefore

/-- Other texts make a document another one, unless keys become one: then a key is refused. -/
theorem parse_rename (hf : KeepsChains f) (h : parse tokens = .ok ()) :
    parse (tokens.map (Token.rename f)) = .ok () ∧ ¬ KeysMerge f tokens ∨
      Duplicated (parse (tokens.map (Token.rename f))) ∧ KeysMerge f tokens := by
  obtain ⟨m, hrun, -⟩ := bind_eq_ok h
  rcases parse_relabel (r := .texts f) hf tokens with hparse | ⟨hmerges, hduplicated⟩
  · rw [h] at hparse
    obtain ⟨m', hrenamed, -⟩ := bind_eq_ok hparse
    exact Or.inl ⟨hparse, not_keysMerge_of_run hf hrun hrenamed⟩
  · exact Or.inr ⟨hduplicated, (keysMerge_iff hrun).mpr hmerges⟩

end

end SourceTidy.Neon
