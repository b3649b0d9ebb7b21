import SourceTidy.Proofs.NeonBrackets
import SourceTidy.Proofs.NeonPrinter

/-! # Written values are NEON documents

What `Value.print` writes is accepted, as long as no mapping has a key twice and the value does not
nest too deep, and only then.

* `flowReads`, `flowFits`: the machine reads a value on one line wherever it waits for a value, if
  and only if the value fits there;
* `Starts`, `Ready`: the machine before and after the lines of a block;
* `entryReads`, `entryFits`: the same for the lines of an entry, after which it is ready for the
  next one;
* `decode_print`: which written values are documents.
-/

namespace SourceTidy.Neon

open Ascii Bytes

/-! ## Keys -/

/-- Different texts are written differently. -/
theorem escape_injective : Function.Injective escape := by
  intro s
  induction s with
  | nil =>
    intro t h
    cases t with
    | nil => rfl
    | cons b t =>
      rw [escape_cons] at h
      split_ifs at h <;> cases h
  | cons a s ih =>
    intro t h
    cases t with
    | nil =>
      rw [escape_cons] at h
      split_ifs at h <;> cases h
    | cons b t =>
      rw [escape_cons, escape_cons] at h
      -- a backslash of the one text is not an octet of the other one by itself, since it would be
      -- escaped
      split_ifs at h with ha hb hb <;>
        simp only [List.cons_append, List.nil_append, List.cons.injEq] at h
      · rw [h.2.1, ih h.2.2]
      · simp [← h.1] at hb
      · simp [h.1] at ha
      · rw [h.1, ih h.2]

/-- No two entries have one key, and none has a key of the list. -/
def FreshKeys (entries : List (Option Bytes × Value)) (keys : List Bytes) : Prop :=
  ((entries.filterMap Prod.fst).map escape ++ keys).Nodup

theorem freshKeys_nil_iff {entries : List (Option Bytes × Value)} :
    FreshKeys entries [] ↔ (entries.filterMap Prod.fst).Nodup := by
  rw [FreshKeys, List.append_nil, List.nodup_map_iff escape_injective]

/-- The key of the first entry is one of the list for the others. -/
theorem freshKeys_cons_iff {e : Option Bytes × Value} {entries : List (Option Bytes × Value)}
    {keys : List Bytes} :
    FreshKeys (e :: entries) keys ↔ FreshKeys entries (e.1.toList.map escape ++ keys) := by
  obtain ⟨key?, v⟩ := e
  cases key? with
  | none => exact Iff.rfl
  | some key => exact List.perm_middle.nodup_iff.symm

/-- The first entry has no key of the list. -/
theorem FreshKeys.head {e : Option Bytes × Value} {entries : List (Option Bytes × Value)}
    {keys : List Bytes} (h : FreshKeys (e :: entries) keys) : ∀ key ∈ e.1, escape key ∉ keys := by
  intro key hkey hmem
  have hkeys : (e.1.toList.map escape ++ keys).Nodup := (freshKeys_cons_iff.mp h).of_append_right
  rw [Option.mem_def.mp hkey] at hkeys
  exact (List.nodup_cons.mp hkeys).1 hmem

/-- The keys are still different with one that is new. -/
theorem nodup_labelled {key? : Option Bytes} {keys : List Bytes} (hkeys : keys.Nodup)
    (hkey : ∀ key ∈ key?, escape key ∉ keys) : (key?.toList.map escape ++ keys).Nodup := by
  cases key? with
  | none => exact hkeys
  | some key => exact List.nodup_cons.mpr ⟨hkey key rfl, hkeys⟩

/-! ## Values on one line -/

/-- Only scalars and opening brackets go on with a value. -/
theorem read?_eq_none {t : Token} (p : Progress) (hscalar : ∀ text, t.symbol ≠ .scalar text)
    (hopening : ∀ bracket, t.symbol ≠ .opening bracket) : p.read? t = none := by
  cases h : p.read? t with
  | none => rfl
  | some result =>
    obtain ⟨-, ⟨⟨text, ht⟩, -⟩ | ⟨⟨bracket, ht⟩, -⟩⟩ := read?_eq_some h
    · exact absurd ht (hscalar text)
    · exact absurd ht (hopening bracket)

theorem step_group_eq {blocks : List Block} {g : Group} {outer : List Group} (t : Token)
    (hlimit : (⟨blocks, g :: outer⟩ : Machine).depth ≤ maxDepth) :
    (⟨blocks, g :: outer⟩ : Machine).step t =
    (g.step outer t).map fun groups => ⟨blocks, groups⟩ := by
  rw [Machine.step, if_neg (by omega)]

theorem step_group {blocks : List Block} {g : Group} {outer groups : List Group} {t : Token}
    (hlimit : (⟨blocks, g :: outer⟩ : Machine).depth ≤ maxDepth) (h : g.step outer t = .ok groups) :
    (⟨blocks, g :: outer⟩ : Machine).step t = .ok ⟨blocks, groups⟩ := by
  rw [step_group_eq t hlimit, h]
  rfl

/-- If a token is read, the machine was within the limit before it. -/
theorem limit_of_run {m m' : Machine} {tokens : List Token} (h : m.run tokens = .ok m')
    (hne : tokens ≠ []) :
    m.depth ≤ maxDepth := by
  obtain ⟨t, tokens, rfl⟩ := List.exists_cons_of_ne_nil hne
  obtain ⟨m₁, hstep, -⟩ := bind_eq_ok h
  exact (step_eq_ok hstep).1

/-- The machine with another value in the place of the innermost one. -/
def Machine.fill (m : Machine) (p : Progress) : Machine :=
  match m.groups, m.blocks with
  | g :: outer, _ => { m with groups := { g with progress := p } :: outer }
  | [], b :: outer => { m with blocks := { b with progress := p } :: outer }
  | [], [] => m

/-- Values do not count towards the limit. -/
theorem depth_fill (m : Machine) (p : Progress) : (m.fill p).depth = m.depth := by
  obtain ⟨blocks, groups⟩ := m
  cases groups with
  | cons g outer => rfl
  | nil =>
    cases blocks with
    | nil => rfl
    | cons b outer => simp [Machine.fill, Machine.depth, List.countP_cons]

/-- A token that goes on with the innermost value. -/
theorem step_read {m : Machine} {p p' : Progress} {opened : List Group} {t : Token}
    (hlimit : m.depth ≤ maxDepth) (hvalue : m.values.head? = some p)
    (hread : p.read? t = some (p', opened)) :
    m.step t = .ok ⟨(m.fill p').blocks, opened ++ (m.fill p').groups⟩ := by
  obtain ⟨blocks, groups⟩ := m
  cases groups with
  | cons g outer =>
    obtain rfl : g.progress = p := by simpa [Machine.values] using hvalue
    have hstep : g.step outer t = .ok (opened ++ { g with progress := p' } :: outer) := by
      rw [Group.step, hread]
    exact step_group hlimit hstep
  | nil =>
    cases blocks with
    | nil => simp [Machine.values] at hvalue
    | cons b outer =>
      obtain rfl : b.progress = p := by simpa [Machine.values] using hvalue
      have hnewline (indent : Bytes) : t.symbol ≠ .newline indent := by
        intro ht
        rw [read?_eq_none b.progress (by simp [ht]) (by simp [ht])] at hread
        cases hread
      rw [step_line (by simpa [Machine.depth] using hlimit) hnewline (by rw [Block.step, hread])]
      simp [Machine.fill]

/-- The machine reads the value in the place of one that it waits for. -/
def FlowReads (v : Value) : Prop :=
  ∀ (m : Machine) (line : Nat), m.values.head? = some .vacant → m.depth + v.depth ≤ maxDepth →
    ∃ p : Progress, p.isVacant = false ∧
      m.run (v.flowSymbols.map (Token.mk · line)) = .ok (m.fill p)

/-- The group before the value of an entry. -/
def Group.labelled (g : Group) : Option Bytes → Group
  | none => g
  | some key => { g with keys := escape key :: g.keys, slot := .value }

theorem keys_group_labelled (g : Group) (key? : Option Bytes) :
    (g.labelled key?).keys = key?.toList.map escape ++ g.keys := by
  cases key? <;> rfl

/-- The key of an entry on one line, if it has one. -/
theorem run_flowLabel {blocks : List Block} {g : Group} {outer : List Group} {key? : Option Bytes}
    (hslot : g.slot = .item) (hvacant : g.progress = .vacant)
    (hlimit : (⟨blocks, g :: outer⟩ : Machine).depth ≤ maxDepth)
    (hkey : ∀ key ∈ key?, escape key ∉ g.keys) (line : Nat) :
    Machine.run ⟨blocks, g :: outer⟩ ((Value.flowLabelSymbols key?).map (Token.mk · line)) =
      .ok ⟨blocks, g.labelled key? :: outer⟩ := by
  cases key? with
  | none => rfl
  | some key =>
    obtain ⟨bracket, opening, keys, slot, progress⟩ := g
    subst hslot hvacant
    have hscalar :
        Group.step ⟨bracket, opening, keys, .item, .vacant⟩ outer ⟨.scalar (escape key), line⟩ =
        .ok (⟨bracket, opening, keys, .item, .scalar (escape key) line false⟩ :: outer) := rfl
    have hcolon : Group.step ⟨bracket, opening, keys, .item, .scalar (escape key) line false⟩ outer
        ⟨.colon, line⟩ =
          .ok (⟨bracket, opening, escape key :: keys, .value, .vacant⟩ :: outer) := by
      rw [Group.step, read?_eq_none _ (by simp) (by simp)]
      simp [newKey, Progress.key?, Progress.isVacant, hkey key rfl]
      rfl
    exact (run_cons (step_group hlimit hscalar) _).trans
      (run_cons (step_group (by exact hlimit) hcolon) _)

/-- The machine reads an entry on one line where it waits for an item. -/
theorem run_flowEntry {e : Option Bytes × Value} (hvalue : FlowReads e.2)
    {blocks : List Block} {g : Group} {outer : List Group} (hslot : g.slot = .item)
    (hvacant : g.progress = .vacant)
    (hlimit : (⟨blocks, g :: outer⟩ : Machine).depth + e.2.depth ≤ maxDepth)
    (hkey : ∀ key ∈ e.1, escape key ∉ g.keys) (line : Nat) :
    ∃ p : Progress, p.isVacant = false ∧
      Machine.run ⟨blocks, g :: outer⟩ ((Value.flowEntrySymbols e).map (Token.mk · line)) =
        .ok ⟨blocks, { g.labelled e.1 with progress := p } :: outer⟩ := by
  have hlabel := run_flowLabel hslot hvacant (Nat.le_of_add_right_le hlimit) hkey line
  have hlabelled : (g.labelled e.1).progress = .vacant := by
    cases e.1 <;> exact hvacant
  obtain ⟨p, hp, hrun⟩ :=
    hvalue ⟨blocks, g.labelled e.1 :: outer⟩ line (by simp [Machine.values, hlabelled]) hlimit
  refine ⟨p, hp, ?_⟩
  rw [Value.flowEntrySymbols, List.map_append, run_append, hlabel]
  exact hrun

/-- The entries of a group, with commas between them, and its closing bracket. -/
theorem run_flowEntries {entries : List (Option Bytes × Value)}
    (hvalues : ∀ e ∈ entries, FlowReads e.2) {blocks : List Block} {g : Group} {outer : List Group}
    (hslot : g.slot = .item) (hvacant : g.progress = .vacant)
    (hdepth : (⟨blocks, g :: outer⟩ : Machine).depth ≤ maxDepth)
    (hlimit : ∀ e ∈ entries, (⟨blocks, g :: outer⟩ : Machine).depth + e.2.depth ≤ maxDepth)
    (hkeys : FreshKeys entries g.keys) (line : Nat) :
    Machine.run ⟨blocks, g :: outer⟩
      (([Symbol.comma].intercalate (entries.map Value.flowEntrySymbols) ++
        [Symbol.closing g.bracket]).map (Token.mk · line)) = .ok ⟨blocks, outer⟩ := by
  -- the closing bracket, after any entry or after none
  have hclose (g : Group) (hdepth : (⟨blocks, g :: outer⟩ : Machine).depth ≤ maxDepth) :
      Machine.run ⟨blocks, g :: outer⟩ [⟨.closing g.bracket, line⟩] = .ok ⟨blocks, outer⟩ := by
    have hstep : g.step outer ⟨.closing g.bracket, line⟩ = .ok outer := by
      rw [Group.step, read?_eq_none _ (by simp) (by simp)]
      simp
    exact run_cons (step_group hdepth hstep) []
  have hbracket (key? : Option Bytes) : (g.labelled key?).bracket = g.bracket := by
    cases key? <;> rfl
  induction entries generalizing g with
  | nil => exact hclose g hdepth
  | cons e entries ih =>
    obtain ⟨p, hp, hentry⟩ := run_flowEntry (hvalues e (by simp)) hslot hvacant (hlimit e (by simp))
      hkeys.head line
    have hkeys := freshKeys_cons_iff.mp hkeys
    cases entries with
    | nil =>
      rw [List.map_append, run_append]
      simp only [List.map_cons, List.map_nil, List.intercalate_singleton, hentry]
      rw [← hbracket e.1]
      exact hclose { g.labelled e.1 with progress := p } hdepth
    | cons e' entries =>
      have hcomma : Group.step { g.labelled e.1 with progress := p } outer ⟨.comma, line⟩ =
          .ok ({ g.labelled e.1 with slot := .item, progress := .vacant } :: outer) := by
        rw [Group.step, read?_eq_none _ (by simp) (by simp)]
        simp [hp]
      -- after the comma the group waits for an entry again, and has one more key
      have hrest := @ih (fun e he => hvalues e (List.mem_cons_of_mem _ he))
        { g.labelled e.1 with slot := .item, progress := .vacant } rfl rfl hdepth
        (fun e he => hlimit e (List.mem_cons_of_mem _ he)) (by rwa [keys_group_labelled])
        (fun key? => by cases key? <;> rfl)
      rw [hbracket] at hrest
      rw [List.map_cons, List.map_cons, List.intercalate_cons_cons, List.append_assoc,
        List.append_assoc, List.map_append, run_append, hentry]
      exact (run_cons (step_group (by exact hdepth) hcomma) _).trans hrest

theorem read?_opening (v : Value) (line : Nat) :
    Progress.vacant.read? ⟨.opening v.bracket, line⟩ =
      some (.composite, [openGroup v.bracket line]) := by
  cases v <;> rfl

/-- The group counts towards the limit. -/
theorem depth_open (m : Machine) (g : Group) (p : Progress) :
    (⟨(m.fill p).blocks, g :: (m.fill p).groups⟩ : Machine).depth = m.depth + 1 := by
  rw [← depth_fill m p]
  simp only [Machine.depth, List.length_cons]
  omega

/-- Values with different keys are read, if there is room for them. -/
theorem flowReads (v : Value) (h : v.hasDistinctKeys = true) : FlowReads v := by
  induction v using Value.inductionOn with
  | h v ih =>
    intro m line hvacant hlimit
    by_cases hv : ∃ s, v = .text s
    · obtain ⟨s, rfl⟩ := hv
      have hread : Progress.vacant.read? ⟨.scalar (escape s), line⟩ =
          some (.scalar (escape s) line false, []) := rfl
      refine ⟨.scalar (escape s) line false, rfl, ?_⟩
      rw [Value.flowSymbols]
      exact run_cons (step_read (Nat.le_of_add_right_le hlimit) hvacant hread) []
    · have hv : ∀ s, v ≠ .text s := fun s hs => hv ⟨s, hs⟩
      obtain ⟨hkeys, hdistinct⟩ := Value.hasDistinctKeys_iff.mp h
      -- there is room for the bracket, and below it for each of the entries
      obtain ⟨hroom, hfits⟩ := (Value.add_depth_le_iff hv).mp hlimit
      have hopen := step_read (Nat.le_of_lt hroom) hvacant (read?_opening v line)
      have hdepth := depth_open m (openGroup v.bracket line) .composite
      have hentries := @run_flowEntries v.entries (fun e he => ih e he (hdistinct e he))
        (m.fill .composite).blocks (openGroup v.bracket line) (m.fill .composite).groups rfl rfl
        (by omega) (by rwa [hdepth]) (freshKeys_nil_iff.mpr hkeys) line
      refine ⟨.composite, rfl, ?_⟩
      rw [Value.flowSymbols_eq hv]
      exact (run_cons hopen _).trans hentries

/-- What the machine has read in the place of a value has distinct keys and stays within the
limit. -/
def FlowFits (v : Value) : Prop :=
  ∀ {m m' : Machine} {line : Nat}, m.values.head? = some .vacant →
    m.run (v.flowSymbols.map (Token.mk · line)) = .ok m' →
    v.hasDistinctKeys = true ∧ m.depth + v.depth ≤ maxDepth

theorem flowSymbols_ne_nil (v : Value) : v.flowSymbols ≠ [] := by
  cases v <;> simp [Value.flowSymbols]

/-- A key that has been read was a new one. -/
theorem fresh_of_run_flowLabel {blocks : List Block} {g : Group} {outer : List Group}
    {key? : Option Bytes} {m' : Machine} {line : Nat} (hslot : g.slot = .item)
    (hvacant : g.progress = .vacant) (hlimit : (⟨blocks, g :: outer⟩ : Machine).depth ≤ maxDepth)
    (h : Machine.run ⟨blocks, g :: outer⟩ ((Value.flowLabelSymbols key?).map (Token.mk · line)) =
      .ok m') :
    ∀ key ∈ key?, escape key ∉ g.keys := by
  intro key hkey hmem
  obtain rfl := Option.mem_def.mp hkey
  obtain ⟨bracket, opening, keys, slot, progress⟩ := g
  subst hslot hvacant
  have hscalar :
      Group.step ⟨bracket, opening, keys, .item, .vacant⟩ outer ⟨.scalar (escape key), line⟩ =
      .ok (⟨bracket, opening, keys, .item, .scalar (escape key) line false⟩ :: outer) := rfl
  have hcolon : Group.step ⟨bracket, opening, keys, .item, .scalar (escape key) line false⟩ outer
      ⟨.colon, line⟩ = .error ⟨.duplicatedKey (escape key), line⟩ := by
    rw [Group.step, read?_eq_none _ (by simp) (by simp)]
    simp only [Progress.isVacant, newKey, Progress.key?, List.contains_iff_mem.mpr hmem]
    rfl
  rw [Value.flowLabelSymbols, List.map_cons, run_cons (step_group hlimit hscalar)] at h
  obtain ⟨m₁, hstep, -⟩ := bind_eq_ok h
  rw [step_group_eq _ (by exact hlimit), hcolon] at hstep
  cases hstep

/-- An entry that has been read fits. -/
theorem fits_of_run_flowEntry {e : Option Bytes × Value} (hfits : FlowFits e.2)
    {blocks : List Block} {g : Group} {outer : List Group} {m' : Machine} {line : Nat}
    (hslot : g.slot = .item) (hvacant : g.progress = .vacant)
    (h : Machine.run ⟨blocks, g :: outer⟩ ((Value.flowEntrySymbols e).map (Token.mk · line)) =
      .ok m') :
    (∀ key ∈ e.1, escape key ∉ g.keys) ∧ e.2.hasDistinctKeys = true ∧
      (⟨blocks, g :: outer⟩ : Machine).depth + e.2.depth ≤ maxDepth := by
  have hlimit := limit_of_run h (by simp [Value.flowEntrySymbols, flowSymbols_ne_nil])
  rw [Value.flowEntrySymbols, List.map_append, run_append] at h
  obtain ⟨m₁, hlabel, hvalue⟩ := bind_eq_ok h
  have hkey := fresh_of_run_flowLabel hslot hvacant hlimit hlabel
  rw [run_flowLabel hslot hvacant hlimit hkey line] at hlabel
  cases hlabel
  have hlabelled : (g.labelled e.1).progress = .vacant := by
    cases e.1 <;> exact hvacant
  have hfit := hfits (by simp [Machine.values, hlabelled]) hvalue
  exact ⟨hkey, hfit⟩

/-- Entries that have been read fit, whatever comes after the last one. -/
theorem fits_of_run_flowEntries {entries : List (Option Bytes × Value)}
    (hfits : ∀ e ∈ entries, FlowFits e.2) {blocks : List Block} {g : Group} {outer : List Group}
    {m' : Machine} {line : Nat} {ending : List Symbol} (hslot : g.slot = .item)
    (hvacant : g.progress = .vacant) (hnodup : g.keys.Nodup)
    (h : Machine.run ⟨blocks, g :: outer⟩ (([Symbol.comma].intercalate
      (entries.map Value.flowEntrySymbols) ++ ending).map (Token.mk · line)) = .ok m') :
    FreshKeys entries g.keys ∧ ∀ e ∈ entries, e.2.hasDistinctKeys = true ∧
      (⟨blocks, g :: outer⟩ : Machine).depth + e.2.depth ≤ maxDepth := by
  induction entries generalizing g with
  | nil => exact ⟨hnodup, by simp⟩
  | cons e entries ih =>
    obtain ⟨tokens, htokens⟩ : ∃ tokens, ([Symbol.comma].intercalate
        ((e :: entries).map Value.flowEntrySymbols) ++ ending).map (Token.mk · line) =
        (Value.flowEntrySymbols e).map (Token.mk · line) ++ tokens := by
      cases entries <;> simp [List.intercalate_cons_cons]
    have hfirst := h
    rw [htokens, run_append] at hfirst
    obtain ⟨m₁, hentry, -⟩ := bind_eq_ok hfirst
    obtain ⟨hkey, hdistinct, hlimit⟩ :=
      fits_of_run_flowEntry (hfits e (by simp)) hslot hvacant hentry
    have hnodup' := nodup_labelled hnodup hkey
    rw [freshKeys_cons_iff, List.forall_mem_cons]
    cases entries with
    | nil => exact ⟨hnodup', ⟨hdistinct, hlimit⟩, by simp⟩
    | cons e' entries =>
      -- after the first entry and the comma the machine waits for the next entry, with one more key
      obtain ⟨p, hp, hread⟩ :=
        run_flowEntry (flowReads e.2 hdistinct) hslot hvacant hlimit hkey line
      have hcomma : Group.step { g.labelled e.1 with progress := p } outer ⟨.comma, line⟩ =
          .ok ({ g.labelled e.1 with slot := .item, progress := .vacant } :: outer) := by
        rw [Group.step, read?_eq_none _ (by simp) (by simp)]
        simp [hp]
      have hdepth :
          (⟨blocks, { g.labelled e.1 with progress := p } :: outer⟩ : Machine).depth ≤ maxDepth :=
        Nat.le_of_add_right_le hlimit
      rw [List.map_cons, List.map_cons, List.intercalate_cons_cons, List.append_assoc,
        List.append_assoc, List.map_append, run_append, hread] at h
      have hrest := (run_cons (step_group hdepth hcomma) _).symm.trans h
      obtain ⟨hkeys, hvalues⟩ := @ih (fun e he => hfits e (List.mem_cons_of_mem _ he))
        { g.labelled e.1 with slot := .item, progress := .vacant } rfl rfl
        (by rwa [keys_group_labelled]) hrest
      rw [keys_group_labelled] at hkeys
      exact ⟨hkeys, ⟨hdistinct, hlimit⟩, hvalues⟩

/-- A value that has been read fits. -/
theorem flowFits (v : Value) : FlowFits v := by
  induction v using Value.inductionOn with
  | h v ih =>
    intro m m' line hvacant h
    have hlimit := limit_of_run h (by simpa using flowSymbols_ne_nil v)
    by_cases hv : ∃ s, v = .text s
    · obtain ⟨s, rfl⟩ := hv
      exact ⟨by rw [Value.hasDistinctKeys], by rwa [Value.depth]⟩
    · have hv : ∀ s, v ≠ .text s := fun s hs => hv ⟨s, hs⟩
      have hopen := step_read hlimit hvacant (read?_opening v line)
      have hdepth := depth_open m (openGroup v.bracket line) .composite
      rw [Value.flowSymbols_eq hv, List.map_cons, run_cons hopen, List.singleton_append] at h
      have hinner := limit_of_run h (by simp)
      rw [hdepth] at hinner
      obtain ⟨hkeys, hvalues⟩ := fits_of_run_flowEntries ih rfl rfl List.nodup_nil h
      rw [hdepth] at hvalues
      exact ⟨Value.hasDistinctKeys_iff.mpr
        ⟨freshKeys_nil_iff.mp hkeys, fun e he => (hvalues e he).1⟩,
        (Value.add_depth_le_iff hv).mpr ⟨hinner, fun e he => (hvalues e he).2⟩⟩

/-! ## Blocks -/

/-- The block before the value of an entry. -/
def Block.labelled (b : Block) : Option Bytes → Block
  | none => { b with slot := .item }
  | some key => { b with keys := escape key :: b.keys, slot := .value }

theorem keys_block_labelled (b : Block) (key? : Option Bytes) :
    (b.labelled key?).keys = key?.toList.map escape ++ b.keys := by
  cases key? <;> rfl

/-- After its label an entry waits for a value. -/
theorem slot_block_labelled (b : Block) (key? : Option Bytes) :
    (b.labelled key?).slot = .item ∨ (b.labelled key?).slot = .value := by
  cases key? with
  | none => exact .inl rfl
  | some key => exact .inr rfl

theorem indent_block_labelled (b : Block) (key? : Option Bytes) :
    (b.labelled key?).indent = b.indent := by
  cases key? <;> rfl

theorem counted_block_labelled (b : Block) (key? : Option Bytes) :
    (b.labelled key?).counted = b.counted := by
  cases key? <;> rfl

theorem progress_block_labelled (b : Block) (key? : Option Bytes) :
    (b.labelled key?).progress = b.progress := by
  cases key? <;> rfl

/-- A new line starts in the block, at the level. -/
structure Starts (level : Nat) (b : Block) (outer : List Block) (m : Machine) : Prop where
  step : ∀ line, m.step ⟨.newline (tabs level), line⟩ = .ok ⟨b :: outer, []⟩
  indent : b.indent = tabs level
  slot : b.slot = .entry
  vacant : b.progress = .vacant

/-- The last line of the block has its value. -/
structure Settled (level : Nat) (b : Block) : Prop where
  indent : b.indent = tabs level
  slot : b.slot = .item ∨ b.slot = .value
  filled : b.progress.isVacant = false

/-- The block waits for its next line, with deeper ones that are over inside of it. -/
structure Ready (level : Nat) (b : Block) (outer : List Block) (m : Machine) : Prop where
  groups : m.groups = []
  blocks : ∃ ended, m.blocks = ended ++ b :: outer ∧ ∀ c ∈ ended, ∃ inner, level < inner ∧
    Settled inner c
  settled : Settled level b
  limit : m.depth ≤ maxDepth

/-- A line after one that has its value goes on with a block or ends it. -/
theorem newLine_settled {inner : Nat} {b : Block} (h : Settled inner b) (depth line : Nat)
    (indent : Bytes) (outer : List Block) :
    newLine depth line indent (b :: outer) =
      if indent = b.indent then .ok ({ b with slot := .entry, progress := .vacant } :: outer)
      else if deepens indent b.indent then newLine depth line indent outer
      else .error ⟨.badIndentation, line⟩ := by
  rcases h.slot with hslot | hslot <;> simp [newLine, hslot, h.filled]

/-- A line of the block ends the deeper ones. -/
theorem newLine_ended {level : Nat} {b : Block} {ended : List Block} (hb : Settled level b)
    (hended : ∀ c ∈ ended, ∃ inner, level < inner ∧ Settled inner c) (depth line : Nat)
    (outer : List Block) :
    newLine depth line (tabs level) (ended ++ b :: outer) =
      .ok ({ b with slot := .entry, progress := .vacant } :: outer) := by
  induction ended with
  | nil => rw [List.nil_append, newLine_settled hb, if_pos hb.indent.symm]
  | cons c ended ih =>
    obtain ⟨inner, hinner, hc⟩ := hended c (by simp)
    have hdeepens : deepens (tabs level) (tabs inner) = true := by
      simp [deepens, tabs]
      omega
    have hne : tabs level ≠ tabs inner := by
      intro h
      have := congrArg List.length h
      simp [tabs] at this
      omega
    rw [List.cons_append, newLine_settled hc, hc.indent, if_neg hne, if_pos hdeepens]
    exact ih fun c hc => hended c (List.mem_cons_of_mem _ hc)

/-- A block that waits for its next line can start it. -/
theorem Ready.starts {level : Nat} {b : Block} {outer : List Block} {m : Machine}
    (h : Ready level b outer m) :
    Starts level { b with slot := .entry, progress := .vacant } outer m where
  step line := by
    obtain ⟨blocks, groups⟩ := m
    obtain ⟨rfl, ⟨ended, rfl, hended⟩, hb, hlimit⟩ := h
    have hline := newLine_ended hb hended (⟨ended ++ b :: outer, []⟩ : Machine).depth line outer
    obtain ⟨c, blocks, hblocks⟩ : ∃ c blocks, ended ++ b :: outer = c :: blocks := by
      cases ended <;> simp
    rw [hblocks] at hline hlimit ⊢
    rw [Machine.step, if_neg (by omega)]
    simp [hline, Except.map]
  indent := h.settled.indent
  slot := rfl
  vacant := rfl

/-- A block below the line of another one is over with it. -/
theorem Ready.outer {level : Nat} {b c : Block} {outer : List Block} {m : Machine}
    (h : Ready (level + 1) c (b :: outer) m) (hb : Settled level b) : Ready level b outer m where
  groups := h.groups
  blocks := by
    obtain ⟨ended, hblocks, hended⟩ := h.blocks
    refine ⟨ended ++ [c], by simp [hblocks], ?_⟩
    intro d hd
    rcases List.mem_append.mp hd with hd | hd
    · obtain ⟨inner, hinner, hsettled⟩ := hended d hd
      exact ⟨inner, by omega, hsettled⟩
    · obtain rfl := List.mem_singleton.mp hd
      exact ⟨level + 1, by omega, h.settled⟩
  settled := hb
  limit := h.limit

/-- The machine reads the dash or the key of a line, and waits for its value then. -/
theorem run_label {b : Block} {outer : List Block} {key? : Option Bytes} (hslot : b.slot = .entry)
    (hvacant : b.progress = .vacant) (hlimit : (b :: outer).countP Block.counted ≤ maxDepth)
    (hkey : ∀ key ∈ key?, escape key ∉ b.keys) (line : Nat) :
    Machine.run ⟨b :: outer, []⟩ ((Value.labelSymbols key?).map (Token.mk · line)) =
      .ok ⟨b.labelled key? :: outer, []⟩ := by
  obtain ⟨indent, keys, counted, slot, progress⟩ := b
  subst hslot hvacant
  cases key? with
  | none => exact run_cons (step_line hlimit (by simp) rfl) []
  | some key =>
    have hcolon :
        Block.step ⟨indent, keys, counted, .entry, .scalar (escape key) line false⟩ ⟨.colon, line⟩ =
        .ok (⟨indent, escape key :: keys, counted, .value, .vacant⟩, []) := by
      rw [Block.step, read?_eq_none _ (by simp) (by simp)]
      simp [newKey, Progress.key?, Progress.isVacant, hkey key rfl]
      rfl
    exact (run_cons (step_line hlimit (by simp) rfl) _).trans
      (run_cons (step_line (by simpa [List.countP_cons] using hlimit) (by simp) hcolon) [])

/-- A deeper line below one that has no value opens a block. -/
theorem starts_nested {level : Nat} {b : Block} {outer : List Block}
    (hindent : b.indent = tabs level) (hslot : b.slot = .item ∨ b.slot = .value)
    (hvacant : b.progress = .vacant) (hlimit : (b :: outer).countP Block.counted < maxDepth) :
    Starts (level + 1) (openBlock (tabs (level + 1)) [] true)
      ({ b with progress := .composite } :: outer)
      ⟨b :: outer, []⟩ where
  step line := by
    have hlength : b.indent.length < (tabs (level + 1)).length := by simp [hindent, tabs]
    have hextends : b.indent.isPrefixOf (tabs (level + 1)) = true := by
      simp [hindent, tabs]
    have hdepth : (⟨b :: outer, []⟩ : Machine).depth = (b :: outer).countP Block.counted := by
      simp [Machine.depth]
    have hline : newLine (⟨b :: outer, []⟩ : Machine).depth line (tabs (level + 1)) (b :: outer) =
        .ok (openBlock (tabs (level + 1)) [] true ::
          { b with progress := .composite } :: outer) := by
      rw [hdepth]
      rcases hslot with hslot | hslot <;>
        simp [newLine, hslot, hvacant, Progress.isVacant, hlength, hextends, Nat.not_le.mpr hlimit]
    rw [Machine.step, if_neg (by omega)]
    simp [hline, Except.map]
  indent := rfl
  slot := rfl
  vacant := rfl

/-- A block that is a value counts towards the limit. -/
theorem countP_nested (indent : Bytes) (c : Block) (outer : List Block) :
    (openBlock indent [] true :: { c with progress := .composite } :: outer).countP Block.counted =
      (c :: outer).countP Block.counted + 1 := by
  simp [List.countP_cons, openBlock]

/-- The machine reads the lines of an entry with the value, and then waits for the next entry. -/
def EntryReads (v : Value) : Prop :=
  ∀ {level : Nat} {key? : Option Bytes} {b : Block} {outer : List Block} {m : Machine} (line : Nat),
    Starts level b outer m → (∀ key ∈ key?, escape key ∉ b.keys) →
    (b :: outer).countP Block.counted + v.depth ≤ maxDepth →
    ∃ m' p, m.run (numbered line (Value.blockEntrySymbols level (key?, v))) = .ok m' ∧
      Ready level { b.labelled key? with progress := p } outer m'

/-- The entries of a block, one below the other. -/
theorem run_blockEntries {entries : List (Option Bytes × Value)}
    (hentries : ∀ e ∈ entries, EntryReads e.2) (hne : entries ≠ []) {level : Nat} {b : Block}
    {outer : List Block} {m : Machine} (line : Nat) (hstarts : Starts level b outer m)
    (hkeys : FreshKeys entries b.keys)
    (hlimit : ∀ e ∈ entries, (b :: outer).countP Block.counted + e.2.depth ≤ maxDepth) :
    ∃ m' b', m.run (numbered line (entries.flatMap (Value.blockEntrySymbols level))) = .ok m' ∧
      Ready level b' outer m' := by
  induction entries generalizing b m line with
  | nil => exact absurd rfl hne
  | cons e entries ih =>
    obtain ⟨m₁, p, hrun, hready⟩ :=
      hentries e (by simp) line hstarts hkeys.head (hlimit e (by simp))
    have hkeys := freshKeys_cons_iff.mp hkeys
    rw [List.flatMap_cons, numbered_append, run_append, hrun]
    cases entries with
    | nil => exact ⟨m₁, _, rfl, hready⟩
    | cons e' entries =>
      refine ih (fun e he => hentries e (List.mem_cons_of_mem _ he)) nofun _ hready.starts ?_ ?_
      · rwa [← keys_block_labelled] at hkeys
      · intro e he
        simpa [List.countP_cons, counted_block_labelled] using hlimit e (List.mem_cons_of_mem _ he)

/-- The lines of a value with different keys are read, if there is room for them. -/
theorem entryReads (v : Value) (h : v.hasDistinctKeys = true) : EntryReads v := by
  induction v using Value.inductionOn with
  | h v ih =>
    intro level key? b outer m line hstarts hkey hlimit
    have hcount :
        (b.labelled key? :: outer).countP Block.counted = (b :: outer).countP Block.counted := by
      simp [List.countP_cons, counted_block_labelled]
    have hlabel := run_label hstarts.slot hstarts.vacant (Nat.le_of_add_right_le hlimit) hkey line
    have hindent := (indent_block_labelled b key?).trans hstarts.indent
    have hvacant := (progress_block_labelled b key?).trans hstarts.vacant
    have hslot := slot_block_labelled b key?
    rw [Value.blockEntrySymbols]
    -- dash or key, the block now waits for a value, and nothing else about it matters
    generalize b.labelled key? = c at hcount hlabel hindent hvacant hslot ⊢
    cases hinline : v.isInline with
    | true =>
      have hdepth : (⟨c :: outer, []⟩ : Machine).depth + v.depth ≤ maxDepth := by
        simpa [Machine.depth, hcount] using hlimit
      obtain ⟨p, hp, hflow⟩ :=
        flowReads v h ⟨c :: outer, []⟩ line (by simp [Machine.values, hvacant]) hdepth
      refine ⟨⟨{ c with progress := p } :: outer, []⟩, p, ?_, rfl, ⟨[], rfl, by simp⟩,
        ⟨hindent, hslot, hp⟩, ?_⟩
      · rw [Value.lineSymbols_of_isInline hinline]
        simp only [numbered, List.cons_append, List.map_cons, List.map_append, List.append_nil]
        rw [run_cons (hstarts.step line), run_append, hlabel]
        exact hflow
      · exact Nat.le_trans (Nat.le_of_eq (depth_fill ⟨c :: outer, []⟩ p))
          (Nat.le_of_add_right_le hdepth)
    | false =>
      obtain ⟨hkeys, hdistinct⟩ := Value.hasDistinctKeys_iff.mp h
      obtain ⟨hroom, hfits⟩ :=
        (Value.add_depth_le_iff (Value.ne_text_of_not_isInline hinline)).mp hlimit
      -- the entries are lines of a block of their own, which starts with the first of them
      have hnested : Starts _ _ _ ⟨c :: outer, []⟩ :=
        starts_nested hindent hslot hvacant (by rwa [hcount])
      obtain ⟨m', d, hrun, hready⟩ := run_blockEntries (fun e he => ih e he (hdistinct e he))
        (Value.entries_ne_nil hinline) (line + 1) hnested (freshKeys_nil_iff.mpr hkeys)
        (by rwa [countP_nested, hcount])
      refine ⟨m', .composite, ?_, hready.outer ⟨hindent, hslot, rfl⟩⟩
      rw [Value.lineSymbols_of_not_isInline hinline, numbered, List.map_cons, List.cons_append,
        run_cons (hstarts.step line), run_append, hlabel]
      exact hrun

/-- What the machine has read as the lines of an entry has distinct keys and stays within the
limit. -/
def EntryFits (v : Value) : Prop :=
  ∀ {level : Nat} {key? : Option Bytes} {b : Block} {outer : List Block} {m m' : Machine}
    {line : Nat},
    Starts level b outer m →
    m.run (numbered line (Value.blockEntrySymbols level (key?, v))) = .ok m' →
    (∀ key ∈ key?, escape key ∉ b.keys) ∧ v.hasDistinctKeys = true ∧
      (b :: outer).countP Block.counted + v.depth ≤ maxDepth

/-- A key that has been read at the start of a line was a new one. -/
theorem fresh_of_run_label {b : Block} {outer : List Block} {key? : Option Bytes} {m' : Machine}
    {line : Nat} (hslot : b.slot = .entry) (hvacant : b.progress = .vacant)
    (hlimit : (b :: outer).countP Block.counted ≤ maxDepth)
    (h : Machine.run ⟨b :: outer, []⟩ ((Value.labelSymbols key?).map (Token.mk · line)) = .ok m') :
    ∀ key ∈ key?, escape key ∉ b.keys := by
  intro key hkey hmem
  obtain rfl := Option.mem_def.mp hkey
  obtain ⟨indent, keys, counted, slot, progress⟩ := b
  subst hslot hvacant
  have hscalar : Block.step ⟨indent, keys, counted, .entry, .vacant⟩ ⟨.scalar (escape key), line⟩ =
      .ok (⟨indent, keys, counted, .entry, .scalar (escape key) line false⟩, []) := rfl
  have hcolon :
      Block.step ⟨indent, keys, counted, .entry, .scalar (escape key) line false⟩ ⟨.colon, line⟩ =
      .error ⟨.duplicatedKey (escape key), line⟩ := by
    rw [Block.step, read?_eq_none _ (by simp) (by simp)]
    simp only [Progress.isVacant, newKey, Progress.key?, List.contains_iff_mem.mpr hmem]
    rfl
  rw [Value.labelSymbols, List.map_cons, run_cons (step_line hlimit (by simp) hscalar)] at h
  obtain ⟨m₁, hstep, -⟩ := bind_eq_ok h
  rw [step_line_eq (by simpa [List.countP_cons] using hlimit) (by simp), hcolon] at hstep
  cases hstep

/-- What comes after the label of an entry is read in the place of its value. -/
theorem run_of_run_label {b : Block} {outer : List Block} {key? : Option Bytes} {m' : Machine}
    {line : Nat} {tokens : List Token} (hslot : b.slot = .entry) (hvacant : b.progress = .vacant)
    (h : Machine.run ⟨b :: outer, []⟩ ((Value.labelSymbols key?).map (Token.mk · line) ++ tokens) =
      .ok m') :
    (∀ key ∈ key?, escape key ∉ b.keys) ∧
      Machine.run ⟨b.labelled key? :: outer, []⟩ tokens = .ok m' := by
  have hdepth := limit_of_run h (by cases key? <;> simp [Value.labelSymbols])
  have hlimit : (b :: outer).countP Block.counted ≤ maxDepth := by
    simpa [Machine.depth] using hdepth
  rw [run_append] at h
  obtain ⟨m₁, hlabel, hrest⟩ := bind_eq_ok h
  have hkey := fresh_of_run_label hslot hvacant hlimit hlabel
  rw [run_label hslot hvacant hlimit hkey line] at hlabel
  cases hlabel
  exact ⟨hkey, hrest⟩

/-- A line opens a block only within the limit. -/
theorem limit_of_nested {level : Nat} {b : Block} {outer : List Block} {m' : Machine} {line : Nat}
    (hindent : b.indent = tabs level) (hslot : b.slot = .item ∨ b.slot = .value)
    (hvacant : b.progress = .vacant)
    (h : (⟨b :: outer, []⟩ : Machine).step ⟨.newline (tabs (level + 1)), line⟩ = .ok m') :
    (b :: outer).countP Block.counted < maxDepth := by
  by_contra hlimit
  have hlength : b.indent.length < (tabs (level + 1)).length := by simp [hindent, tabs]
  have hextends : b.indent.isPrefixOf (tabs (level + 1)) = true := by simp [hindent, tabs]
  have hdepth : (⟨b :: outer, []⟩ : Machine).depth = (b :: outer).countP Block.counted := by
    simp [Machine.depth]
  have hline : newLine (⟨b :: outer, []⟩ : Machine).depth line (tabs (level + 1)) (b :: outer) =
      .error ⟨.tooDeep, line⟩ := by
    rw [hdepth]
    rcases hslot with hslot | hslot <;>
      simp [newLine, hslot, hvacant, Progress.isVacant, hlength, hextends, Nat.not_lt.mp hlimit]
  rw [Machine.step, if_neg (Nat.not_lt.mpr (step_eq_ok h).1)] at h
  simp [hline, Except.map] at h

/-- The lines of an entry start with one at the level of the block. -/
theorem exists_blockEntrySymbols (level : Nat) (e : Option Bytes × Value) :
    ∃ symbols lines, Value.blockEntrySymbols level e =
      (.newline (tabs level) :: symbols) :: lines := by
  rw [Value.blockEntrySymbols]
  cases hinline : e.2.isInline with
  | true => exact ⟨_, _, Value.lineSymbols_of_isInline hinline _ _⟩
  | false => exact ⟨_, _, Value.lineSymbols_of_not_isInline hinline _ _⟩

/-- Lines that have been read one after the other fit. -/
theorem fits_of_run_blockEntries {entries : List (Option Bytes × Value)}
    (hfits : ∀ e ∈ entries, EntryFits e.2) {level : Nat} {b : Block} {outer : List Block}
    {m m' : Machine} {line : Nat} (hstarts : Starts level b outer m) (hnodup : b.keys.Nodup)
    (h : m.run (numbered line (entries.flatMap (Value.blockEntrySymbols level))) = .ok m') :
    FreshKeys entries b.keys ∧ ∀ e ∈ entries, e.2.hasDistinctKeys = true ∧
      (b :: outer).countP Block.counted + e.2.depth ≤ maxDepth := by
  induction entries generalizing b m line with
  | nil => exact ⟨hnodup, by simp⟩
  | cons e entries ih =>
    rw [List.flatMap_cons, numbered_append, run_append] at h
    obtain ⟨m₁, hentry, hrest⟩ := bind_eq_ok h
    obtain ⟨hkey, hdistinct, hlimit⟩ := hfits e (by simp) hstarts hentry
    obtain ⟨m₂, p, hread, hready⟩ := entryReads e.2 hdistinct line hstarts hkey hlimit
    obtain rfl : m₁ = m₂ := Except.ok.inj (hentry.symm.trans hread)
    have hnodup' := nodup_labelled hnodup hkey
    rw [← keys_block_labelled] at hnodup'
    obtain ⟨hkeys, hvalues⟩ :=
      ih (fun e he => hfits e (List.mem_cons_of_mem _ he)) hready.starts hnodup' hrest
    rw [freshKeys_cons_iff, List.forall_mem_cons, ← keys_block_labelled]
    refine ⟨hkeys, ⟨hdistinct, hlimit⟩, ?_⟩
    simpa [List.countP_cons, counted_block_labelled] using hvalues

/-- What has been read as the lines of an entry fits. -/
theorem entryFits (v : Value) : EntryFits v := by
  induction v using Value.inductionOn with
  | h v ih =>
    intro level key? b outer m m' line hstarts h
    rw [Value.blockEntrySymbols] at h
    have hcount :
        (b.labelled key? :: outer).countP Block.counted = (b :: outer).countP Block.counted := by
      simp [List.countP_cons, counted_block_labelled]
    have hindent := (indent_block_labelled b key?).trans hstarts.indent
    have hvacant := (progress_block_labelled b key?).trans hstarts.vacant
    have hslot := slot_block_labelled b key?
    cases hinline : v.isInline with
    | true =>
      rw [Value.lineSymbols_of_isInline hinline] at h
      simp only [numbered, List.cons_append, List.map_cons, List.map_append, List.append_nil] at h
      rw [run_cons (hstarts.step line)] at h
      obtain ⟨hkey, hflow⟩ := run_of_run_label hstarts.slot hstarts.vacant h
      obtain ⟨hdistinct, hlimit⟩ := flowFits v (by simp [Machine.values, hvacant]) hflow
      exact ⟨hkey, hdistinct, by simpa [Machine.depth, hcount] using hlimit⟩
    | false =>
      rw [Value.lineSymbols_of_not_isInline hinline, numbered, List.map_cons, List.cons_append,
        run_cons (hstarts.step line)] at h
      obtain ⟨hkey, hentries⟩ := run_of_run_label hstarts.slot hstarts.vacant h
      obtain ⟨e, entries, he⟩ := List.exists_cons_of_ne_nil (Value.entries_ne_nil hinline)
      obtain ⟨symbols, lines, hsymbols⟩ := exists_blockEntrySymbols (level + 1) e
      -- that the block had room is told by the start of its first line alone
      have hfirst := hentries
      rw [he, List.flatMap_cons, hsymbols] at hfirst
      obtain ⟨m₁, hstep, -⟩ := bind_eq_ok hfirst
      have hlimit := limit_of_nested hindent hslot hvacant hstep
      obtain ⟨hkeys, hvalues⟩ :=
        fits_of_run_blockEntries ih (starts_nested hindent hslot hvacant hlimit) List.nodup_nil
          hentries
      rw [countP_nested, hcount] at hvalues
      rw [hcount] at hlimit
      exact ⟨hkey,
        Value.hasDistinctKeys_iff.mpr ⟨freshKeys_nil_iff.mp hkeys, fun e he => (hvalues e he).1⟩,
        (Value.add_depth_le_iff (Value.ne_text_of_not_isInline hinline)).mpr
          ⟨hlimit, fun e he => (hvalues e he).2⟩⟩

/-! ## Documents -/

/-- The first line of a document starts the outermost block. -/
theorem starts_start : Starts 0 (openBlock [] [] false) [] Machine.start where
  step _ := rfl
  indent := rfl
  slot := rfl
  vacant := rfl

/-- The document may end where the next line is waited for. -/
theorem Ready.finish {level : Nat} {b : Block} {outer : List Block} {m : Machine}
    (h : Ready level b outer m) (line : Nat) : m.finish line = .ok () := by
  obtain ⟨blocks, groups⟩ := m
  obtain ⟨rfl, ⟨ended, rfl, hended⟩, hb, hlimit⟩ := h
  rw [Machine.finish, if_neg (by omega)]
  cases ended with
  | nil => rcases hb.slot with hslot | hslot <;> simp [hslot]
  | cons c ended =>
    obtain ⟨_, -, hc⟩ := hended c (by simp)
    rcases hc.slot with hslot | hslot <;> simp [hslot]

theorem pageSymbols_of_isInline {v : Value} (h : v.isInline = true) :
    v.pageSymbols = [.newline [] :: v.flowSymbols] := if_pos h

theorem run_pageSymbols_of_isInline {v : Value} (h : v.isInline = true) :
    Machine.start.run (numbered 1 v.pageSymbols) =
      Machine.run ⟨[openBlock [] [] false], []⟩ (v.flowSymbols.map (Token.mk · 1)) := by
  rw [pageSymbols_of_isInline h]
  simp only [numbered, List.map_cons, List.append_nil]
  exact run_cons (starts_start.step 1) _

theorem depth_root : (⟨[openBlock [] [] false], []⟩ : Machine).depth = 0 := rfl

/-- The machine reads all lines of a value. -/
theorem exists_run_page {v : Value} (h : v.hasDistinctKeys = true)
    (hnesting : v.nesting ≤ maxDepth) :
    ∃ m, Machine.start.run (numbered 1 v.pageSymbols) = .ok m ∧ ∀ line, m.finish line = .ok () := by
  cases hinline : v.isInline with
  -- a value on one line, and a block whose own level does not count
  | true =>
    rw [Value.nesting, if_pos hinline] at hnesting
    obtain ⟨p, hp, hrun⟩ := flowReads v h ⟨[openBlock [] [] false], []⟩ 1 rfl
      (by rwa [depth_root, Nat.zero_add])
    refine ⟨⟨[{ openBlock [] [] false with progress := p }], []⟩, ?_, ?_⟩
    · rw [run_pageSymbols_of_isInline hinline]
      exact hrun
    · intro line
      simp [Machine.finish, Machine.depth, openBlock, hp]
  | false =>
    rw [Value.nesting, if_neg (by simp [hinline])] at hnesting
    obtain ⟨hkeys, hdistinct⟩ := Value.hasDistinctKeys_iff.mp h
    have hentries := Value.depth_le_iff.mp (by omega : v.depth ≤ maxDepth + 1)
    obtain ⟨m, b, hrun, hready⟩ := run_blockEntries (fun e he => entryReads e.2 (hdistinct e he))
      (Value.entries_ne_nil hinline) 1 starts_start (freshKeys_nil_iff.mpr hkeys)
      (by simpa [openBlock] using hentries)
    rw [← Value.pageSymbols_of_not_isInline hinline] at hrun
    exact ⟨m, hrun, hready.finish⟩

/-- The lines of a value that the machine has read. -/
theorem fits_of_run_page {v : Value} {m : Machine}
    (h : Machine.start.run (numbered 1 v.pageSymbols) = .ok m) :
    v.hasDistinctKeys = true ∧ v.nesting ≤ maxDepth := by
  cases hinline : v.isInline with
  | true =>
    rw [run_pageSymbols_of_isInline hinline] at h
    obtain ⟨hdistinct, hlimit⟩ := flowFits v rfl h
    rw [depth_root, Nat.zero_add] at hlimit
    exact ⟨hdistinct, Nat.le_trans (Value.nesting_le_depth v) hlimit⟩
  | false =>
    rw [Value.pageSymbols_of_not_isInline hinline] at h
    obtain ⟨hkeys, hvalues⟩ := fits_of_run_blockEntries (fun e _ => entryFits e.2) starts_start
      List.nodup_nil h
    have hdepth : v.depth ≤ maxDepth + 1 := by
      refine Value.depth_le_iff.mpr fun e he => ?_
      have := (hvalues e he).2
      omega
    refine ⟨Value.hasDistinctKeys_iff.mpr
      ⟨freshKeys_nil_iff.mp hkeys, fun e he => (hvalues e he).1⟩, ?_⟩
    rw [Value.nesting, if_neg (by simp [hinline])]
    omega

/-- A written value is a document if no mapping in it has a key twice and it does not nest deeper
than the limit. Only the outermost block may be one more; what is written is refused otherwise. A
line break at the end does not matter. -/
theorem decode_print (v : Value) (h : v.isOneLine = true) :
    (v.hasDistinctKeys = true → v.depth ≤ maxDepth → decode v.print = .ok ()) ∧
      ∀ ending, ending = [] ∨ ending = [lf] →
        (decode (v.print ++ ending) = .ok () ↔ v.hasDistinctKeys = true ∧
          v.nesting ≤ maxDepth) := by
  have hdecode (ending : Bytes) (hending : ending = [] ∨ ending = [lf]) :
      decode (v.print ++ ending) = .ok () ↔ v.hasDistinctKeys = true ∧ v.nesting ≤ maxDepth := by
    have hparse : decode (v.print ++ ending) = parse (numbered 1 v.pageSymbols) := by
      rw [decode, lex_print h hending]
      rfl
    rw [hparse]
    constructor
    -- what is read fits, and what fits is read
    · intro hok
      obtain ⟨m, hrun, -⟩ := bind_eq_ok hok
      exact fits_of_run_page hrun
    · rintro ⟨hdistinct, hnesting⟩
      obtain ⟨m, hrun, hfinish⟩ := exists_run_page hdistinct hnesting
      rw [parse, hrun]
      exact hfinish _
  refine ⟨?_, hdecode⟩
  intro hdistinct hdepth
  have hplain :=
    (hdecode [] (.inl rfl)).mpr ⟨hdistinct, Nat.le_trans (Value.nesting_le_depth v) hdepth⟩
  rwa [List.append_nil] at hplain

/-- Blocks and brackets inside of each other, with texts that would mean something without their
quotes. -/
def writtenValue : Value :=
  .mapping .block [
    (ascii "a\"b\\", .list .block [.text (ascii "- x: #y"),
      .mapping .flow [(ascii "k", .list .block [.text []])], .list .block [.list .block []]]),
    (ascii "[c", .mapping .block [(ascii "a\"b\\", .text (ascii "\tz"))])]

example : writtenValue.print =
    ascii ("\"a\\\"b\\\\\":\n\t- \"- x: #y\"\n\t- \x7b\"k\": [\"\"]\x7d\n\t-\n\t\t- []\n" ++
    "\"[c\":\n\t\"a\\\"b\\\\\": \"\tz\"") := by decide

theorem decode_print_writtenValue :
    writtenValue.isOneLine = true ∧ writtenValue.hasDistinctKeys = true ∧ writtenValue.depth = 4 ∧
      decode writtenValue.print = .ok () ∧ decode (writtenValue.print ++ [lf]) = .ok () := by
  have hfits : writtenValue.hasDistinctKeys = true ∧ writtenValue.nesting ≤ maxDepth := by decide
  obtain ⟨hplain, hbreak⟩ := decode_print writtenValue (by decide)
  exact ⟨by decide, hfits.1, by decide, hplain hfits.1 (by decide),
    (hbreak [lf] (.inr rfl)).mpr hfits⟩

end SourceTidy.Neon
