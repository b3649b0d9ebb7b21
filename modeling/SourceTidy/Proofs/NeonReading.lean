import SourceTidy.Proofs.NeonOutline

/-! # Lines and groups of a NEON document

A line starts outside of all brackets and takes in what is in its brackets. `reading` tells the
lines apart, and the symbols directly in each open pair of brackets, without checking anything.

* `entryLines`: the lines that make up blocks;
* `keysOf`: the keys among symbols that stand next to each other;
* `keepsGroups_step_group`: each group of the machine has the keys that stand in its brackets;
* `LineShape.step`: what has been read of a line says what the machine waits for on it;
* `LineShape.keys_step`: a block has the keys that its lines show.
-/

namespace SourceTidy.Neon

/-- A line outside of brackets. -/
structure EntryLine where
  indent : Bytes
  /-- Its symbols, without what is in brackets. -/
  symbols : List Symbol
deriving DecidableEq, Repr

namespace EntryLine

/-- The key of a line that is `key: ...`. -/
def key? (l : EntryLine) : Option Bytes :=
  match l.symbols with
  | .scalar key :: s :: _ => if s.assigns then some key else none
  | _ => none

/-- The key of a line that is `- key: ...`. -/
def itemKey? (l : EntryLine) : Option Bytes :=
  match l.symbols with
  | .dash :: .scalar key :: s :: _ => if s.assigns then some key else none
  | _ => none

/-- Is the line a dash, a key or a key after a dash, with nothing after it? -/
def bare (l : EntryLine) : Bool :=
  match l.symbols with
  | [.dash] => true
  | [.scalar _, s] | [.dash, .scalar _, s] => s.assigns
  | _ => false

end EntryLine

/-- What has been read so far. -/
structure Reading where
  /-- The lines, the last one first. -/
  lines : List EntryLine
  /-- The symbols in each open pair of brackets, innermost first, without what is in further
  brackets. -/
  groups : List (List Symbol)
deriving DecidableEq, Repr

namespace Reading

/-- One more symbol in the innermost brackets, or else on the last line. -/
def add (r : Reading) (symbol : Symbol) : Reading :=
  match r.groups with
  | [] =>
    { r with lines := r.lines.modifyHead fun l => { l with symbols := l.symbols ++ [symbol] } }
  | g :: outer => { r with groups := (g ++ [symbol]) :: outer }

/-- One symbol. A pair of brackets leaves its opening one in what is around it. -/
def step (r : Reading) (symbol : Symbol) : Reading :=
  match symbol with
  | .opening _ => { r.add symbol with groups := [] :: (r.add symbol).groups }
  | .closing _ => { r with groups := r.groups.tail }
  | .newline indent =>
    if r.groups = [] then { r with lines := ⟨indent, []⟩ :: r.lines } else r.add symbol
  | _ => r.add symbol

end Reading

def reading (tokens : List Token) : Reading :=
  tokens.foldl (fun r t => r.step t.symbol) ⟨[], []⟩

theorem reading_concat (read : List Token) (t : Token) :
    reading (read ++ [t]) = (reading read).step t.symbol := by
  simp [reading]

/-- The lines that make up the blocks of a document, in order. -/
def entryLines (tokens : List Token) : List EntryLine := (reading tokens).lines.reverse

/-- The keys among symbols: the scalars that stand directly before a colon or an equals sign. -/
def keysOf (symbols : List Symbol) : List Bytes :=
  (symbols.zip symbols.tail).filterMap fun
    | (.scalar key, s) => if s.assigns then some key else none
    | _ => none

example : (lex (Bytes.ascii "- a: \x7bb: 1, c = [d: 2], e")).map reading =
    .ok ⟨[⟨[], [.dash, .scalar [97], .colon, .opening .curly]⟩],
      [[.scalar [98], .colon, .scalar [49], .comma, .scalar [99], .equals, .opening .square, .comma,
        .scalar [101]]]⟩ := by decide

/-! ## Groups -/

/-- One more symbol is a key only if it assigns. -/
theorem keysOf_concat (symbols : List Symbol) {s : Symbol} (hs : s.assigns = false) :
    keysOf (symbols ++ [s]) = keysOf symbols := by
  induction symbols with
  | nil => rfl
  | cons first rest ih =>
    cases rest with
    | nil => cases first <;> simp [keysOf, hs]
    | cons second rest =>
      simp only [keysOf, List.cons_append, List.tail_cons, List.zip_cons_cons,
        List.filterMap_cons] at ih ⊢
      rw [ih]

/-- What stands before a symbol that assigns is a key. -/
theorem keysOf_concat_of_assigns {symbols : List Symbol} {s : Symbol} {key : Bytes}
    (hs : s.assigns = true) (hkey : symbols.getLast? = some (.scalar key)) :
    keysOf (symbols ++ [s]) = keysOf symbols ++ [key] := by
  induction symbols with
  | nil => simp at hkey
  | cons first rest ih =>
    cases rest with
    | nil =>
      obtain rfl : first = .scalar key := by simpa using hkey
      simp [keysOf, hs]
    | cons second rest =>
      have ih := ih (by simpa using hkey)
      simp only [keysOf, List.cons_append, List.tail_cons, List.zip_cons_cons,
        List.filterMap_cons] at ih ⊢
      rw [ih]
      split <;> rfl

/-- A group has the keys that stand in its brackets, and a scalar that may become a key stands
last. -/
structure KeepsGroup (symbols : List Symbol) (g : Group) : Prop where
  keys : g.keys.reverse = keysOf symbols
  nodup : g.keys.Nodup
  last :
    ∀ {text line}, g.progress = .scalar text line false → symbols.getLast? = some (.scalar text)

/-- A bracket that has just been opened has nothing in it. -/
theorem keepsGroup_openGroup (bracket : Bracket) (line : Nat) :
    KeepsGroup [] (openGroup bracket line) :=
  ⟨rfl, .nil, nofun⟩

/-- A symbol that is no key, after which nothing has been read of a value. -/
theorem KeepsGroup.pass {symbols : List Symbol} {g g' : Group} {s : Symbol}
    (h : KeepsGroup symbols g) (hs : s.assigns = false) (hkeys : g'.keys = g.keys)
    (hvacant : g'.progress.isVacant = true) :
    KeepsGroup (symbols ++ [s]) g' := by
  refine ⟨?_, by simpa [hkeys] using h.nodup, ?_⟩
  · rw [keysOf_concat symbols hs, hkeys, h.keys]
  · intro text line hprogress
    simp [hprogress, Progress.isVacant] at hvacant

/-- A key is the scalar that stands last, so it is a key to the symbols as well. -/
theorem KeepsGroup.key {symbols : List Symbol} {g : Group} {t : Token} {key : Bytes}
    (h : KeepsGroup symbols g) (ht : t.symbol.assigns = true)
    (hkey : newKey g.progress g.keys t = .ok key) :
    KeepsGroup (symbols ++ [t.symbol])
      { g with keys := key :: g.keys, slot := .value, progress := .vacant } := by
  obtain ⟨⟨line, hprogress⟩, hfresh⟩ := newKey_eq_ok hkey
  refine ⟨?_, List.nodup_cons.mpr ⟨hfresh, h.nodup⟩, nofun⟩
  rw [keysOf_concat_of_assigns ht (h.last hprogress), ← h.keys]
  simp

namespace Reading

variable {r : Reading} {s : Symbol} {g : List Symbol} {outer : List (List Symbol)}

/-- A symbol in brackets leaves the lines as they are. -/
theorem lines_step_of_group (h : r.groups = g :: outer) : (r.step s).lines = r.lines := by
  cases s <;> simp [step, add, h]

/-- In brackets a symbol goes to the innermost pair, and opens or closes one. -/
theorem groups_step_of_group (h : r.groups = g :: outer) :
    (r.step s).groups = match s with
      | .opening _ => [] :: (g ++ [s]) :: outer
      | .closing _ => outer
      | _ => (g ++ [s]) :: outer := by
  cases s <;> simp [step, add, h]

theorem step_newline {indent : Bytes} (h : r.groups = []) :
    r.step (.newline indent) = { r with lines := ⟨indent, []⟩ :: r.lines } := by
  simp [step, h]

end Reading

/-- A token in brackets keeps the keys of each group in step with its symbols. -/
theorem keepsGroups_step_group {r : Reading} {t : Token} {g : Group} {outer groups : List Group}
    (h : List.Forall₂ KeepsGroup r.groups (g :: outer)) (hstep : GroupStep g outer t groups) :
    List.Forall₂ KeepsGroup (r.step t.symbol).groups groups := by
  obtain ⟨symbols, around, hg, houter, hgroups⟩ := List.forall₂_cons_right_iff.mp h
  rw [Reading.groups_step_of_group hgroups]
  cases hstep with
  | read hread =>
    have hread := read?_cases hread
    -- a symbol of a value is no key yet; only a scalar may become one, and it then stands last
    generalize g.progress = before at hread
    cases hread with
    | scalar ht =>
      rw [ht]
      refine .cons ⟨?_, hg.nodup, ?_⟩ houter
      · rw [keysOf_concat symbols rfl]
        exact hg.keys
      · intro text line hprogress
        cases hprogress
        simp
    | list ht _ =>
      rw [ht]
      refine .cons (keepsGroup_openGroup _ _) (.cons ⟨?_, hg.nodup, nofun⟩ houter)
      rw [keysOf_concat symbols rfl]
      exact hg.keys
    | call ht =>
      rw [ht]
      refine .cons (keepsGroup_openGroup _ _) (.cons ⟨?_, hg.nodup, nofun⟩ houter)
      rw [keysOf_concat symbols rfl]
      exact hg.keys
    | chain ht =>
      rw [ht]
      refine .cons ⟨?_, hg.nodup, nofun⟩ houter
      rw [keysOf_concat symbols rfl]
      exact hg.keys
  | vacantLine ht hvacant =>
    rw [ht]
    exact .cons (hg.pass rfl rfl hvacant) houter
  | lineEnd ht _ =>
    rw [ht]
    exact .cons (hg.pass rfl rfl rfl) houter
  | close ht =>
    rw [ht]
    exact houter
  | comma ht =>
    rw [ht]
    exact .cons (hg.pass rfl rfl rfl) houter
  | key ht hkey =>
    have hkeeps := hg.key (by rcases ht with ht | ht <;> simp [ht, Symbol.assigns]) hkey
    rcases ht with ht | ht <;> rw [ht] at hkeeps ⊢ <;> exact .cons hkeeps houter

/-! ## Lines -/

/-- The line with one more symbol. -/
def EntryLine.add (l : EntryLine) (symbol : Symbol) : EntryLine :=
  { l with symbols := l.symbols ++ [symbol] }

/-- A symbol that the machine accepts on a line is added to it, and the groups follow. -/
theorem reading_step_line {r : Reading} {t : Token} {b b' : Block} {opened : List Group}
    {l : EntryLine} {earlier : List EntryLine} (hgroups : r.groups = [])
    (hlines : r.lines = l :: earlier) (hstep : LineStep b t b' opened) :
    (r.step t.symbol).lines = l.add t.symbol :: earlier ∧
      List.Forall₂ KeepsGroup (r.step t.symbol).groups opened := by
  cases hstep with
  | read hread =>
    have hread := read?_cases hread
    generalize b.progress = before at hread
    cases hread with
    | scalar ht => simp [ht, Reading.step, Reading.add, hgroups, hlines, EntryLine.add]
    | list ht _ =>
      simp [ht, Reading.step, Reading.add, hgroups, hlines, EntryLine.add, keepsGroup_openGroup]
    | call ht =>
      simp [ht, Reading.step, Reading.add, hgroups, hlines, EntryLine.add, keepsGroup_openGroup]
    | chain ht => simp [ht, Reading.step, Reading.add, hgroups, hlines, EntryLine.add]
  | dash _ _ ht => simp [ht, Reading.step, Reading.add, hgroups, hlines, EntryLine.add]
  | key _ ht _ =>
    rcases ht with ht | ht <;> simp [ht, Reading.step, Reading.add, hgroups, hlines, EntryLine.add]
  | itemKey _ ht _ =>
    rcases ht with ht | ht <;> simp [ht, Reading.step, Reading.add, hgroups, hlines, EntryLine.add]

/-- The symbols of a value on a line. -/
structure ValueShape (symbols : List Symbol) (p : Progress) : Prop where
  vacant : p.isVacant = true ↔ symbols = []
  scalar : ∀ {text line}, p = .scalar text line false → symbols = [.scalar text]
  plain : ∀ s ∈ symbols, s ≠ .dash ∧ s.assigns = false

/-- What has been read of a line, and what the machine waits for on it. -/
inductive LineShape : List Symbol → LineSlot → Progress → Prop where
  | entry {value p} (h : ValueShape value p) : LineShape value .entry p
  | item {value p} (h : ValueShape value p) : LineShape (.dash :: value) .item p
  | value {key s value p} (hs : s.assigns = true) (h : ValueShape value p) :
      LineShape (.scalar key :: s :: value) .value p
  | itemValue {key s value p} (hs : s.assigns = true) (h : ValueShape value p) :
      LineShape (.dash :: .scalar key :: s :: value) (.itemValue key) p

theorem valueShape_vacant : ValueShape [] .vacant := ⟨by simp [Progress.isVacant], nofun, nofun⟩

/-- A token that goes on with a value makes a value with one more symbol. -/
theorem ValueShape.read {symbols : List Symbol} {p p' : Progress} {t : Token} {opened : List Group}
    (h : ValueShape symbols p) (hread : p.read? t = some (p', opened)) :
    ValueShape (symbols ++ [t.symbol]) p' := by
  have hplain : ∀ s ∈ symbols ++ [t.symbol], s ≠ .dash ∧ s.assigns = false := by
    intro s hs
    rcases List.mem_append.mp hs with hs | hs
    · exact h.plain s hs
    · obtain rfl : s = t.symbol := by simpa using hs
      cases read?_cases hread <;> simp_all [Symbol.assigns]
  refine ⟨by simp [(read?_eq_some hread).1], ?_, hplain⟩
  intro text line hp
  cases read?_cases hread with
  | scalar ht =>
    cases hp
    simp [h.vacant.mp rfl, ht]
  | list _ _ => cases hp
  | call _ => cases hp
  | chain _ => cases hp

/-- A symbol that the machine accepts on a line keeps its shape. -/
theorem LineShape.step {symbols : List Symbol} {b b' : Block} {t : Token} {opened : List Group}
    (h : LineShape symbols b.slot b.progress) (hstep : LineStep b t b' opened) :
    LineShape (symbols ++ [t.symbol]) b'.slot b'.progress := by
  cases hstep with
  -- a symbol of the value changes nothing else on the line
  | read hread =>
    obtain ⟨indent, keys, counted, slot, progress⟩ := b
    cases h with
    | entry h => exact .entry (h.read hread)
    | item h => exact .item (h.read hread)
    | value hs h => exact .value hs (h.read hread)
    | itemValue hs h => exact .itemValue hs (h.read hread)
  | dash hslot hvacant ht =>
    rw [hslot] at h
    cases h with
    | entry h =>
      obtain rfl := h.vacant.mp hvacant
      rw [ht, eq_vacant hvacant]
      exact .item valueShape_vacant
  | key hslot ht hkey =>
    rw [hslot] at h
    obtain ⟨⟨line, hprogress⟩, -⟩ := newKey_eq_ok hkey
    cases h with
    | entry h =>
      obtain rfl := h.scalar hprogress
      exact .value (by rcases ht with ht | ht <;> simp [ht, Symbol.assigns]) valueShape_vacant
  | itemKey hslot ht hkey =>
    rw [hslot] at h
    obtain ⟨⟨line, hprogress⟩, -⟩ := newKey_eq_ok hkey
    cases h with
    | item h =>
      obtain rfl := h.scalar hprogress
      exact .itemValue (by rcases ht with ht | ht <;> simp [ht, Symbol.assigns]) valueShape_vacant

/-- A value by itself is no key. -/
theorem ValueShape.key?_eq {symbols : List Symbol} {p : Progress} (h : ValueShape symbols p)
    (indent : Bytes) : EntryLine.key? ⟨indent, symbols⟩ = none := by
  unfold EntryLine.key?
  split
  · rename_i s _ hsymbols
    obtain rfl : symbols = _ := hsymbols
    simp [(h.plain s (by simp)).2]
  · rfl

/-- The machine adds to the keys of a block what its line shows as a key. -/
theorem LineShape.keys_step {l : EntryLine} {b b' : Block} {t : Token} {opened : List Group}
    {earlier : List Bytes} (h : LineShape l.symbols b.slot b.progress)
    (hstep : LineStep b t b' opened) (hkeys : b.keys.reverse = earlier ++ l.key?.toList) :
    b'.keys.reverse = earlier ++ (l.add t.symbol).key?.toList := by
  obtain ⟨indent, symbols⟩ := l
  cases hstep with
  | read hread =>
    obtain ⟨bindent, keys, counted, slot, progress⟩ := b
    cases h with
    -- a scalar is not yet a key, whether another symbol of the value follows or not
    | entry h => rwa [EntryLine.add, (h.read hread).key?_eq, ← h.key?_eq indent]
    | item h => exact hkeys
    | value hs h => exact hkeys
    | itemValue hs h => exact hkeys
  | dash hslot hvacant ht =>
    rw [hslot] at h
    cases h with
    | entry h =>
      obtain rfl := h.vacant.mp hvacant
      rw [ht]
      exact hkeys
  | key hslot ht hkey =>
    rw [hslot] at h
    obtain ⟨⟨line, hprogress⟩, -⟩ := newKey_eq_ok hkey
    cases h with
    | entry h =>
      obtain rfl := h.scalar hprogress
      have hs : t.symbol.assigns = true := by rcases ht with ht | ht <;> simp [ht, Symbol.assigns]
      simpa [EntryLine.key?, EntryLine.add, hs] using hkeys
  | itemKey hslot ht hkey =>
    rw [hslot] at h
    cases h with
    | item h => exact hkeys

/-- A key that the block has is not taken a second time. -/
theorem nodup_keys_step {b b' : Block} {t : Token} {opened : List Group} (h : b.keys.Nodup)
    (hstep : LineStep b t b' opened) : b'.keys.Nodup := by
  cases hstep with
  | read _ => exact h
  | dash _ _ _ => exact h
  | key _ _ hkey => exact List.nodup_cons.mpr ⟨(newKey_eq_ok hkey).2, h⟩
  | itemKey _ _ _ => exact h

/-- A line that waits for a value ends with what it is the value of. -/
theorem LineShape.bare_of_vacant {l : EntryLine} {slot : LineSlot} {p : Progress}
    (h : LineShape l.symbols slot p) (hslot : slot ≠ .entry) (hvacant : p.isVacant = true) :
    l.bare = true := by
  obtain ⟨indent, symbols⟩ := l
  cases h with
  | entry h => exact absurd rfl hslot
  | item h => simp [EntryLine.bare, h.vacant.mp hvacant]
  | value hs h => simp [EntryLine.bare, h.vacant.mp hvacant, hs]
  | itemValue hs h => simp [EntryLine.bare, h.vacant.mp hvacant, hs]

/-- A line after the key of an item shows that key. -/
theorem LineShape.itemKey?_eq {l : EntryLine} {key : Bytes} {p : Progress}
    (h : LineShape l.symbols (.itemValue key) p) : l.itemKey? = some key := by
  obtain ⟨indent, symbols⟩ := l
  cases h with
  | itemValue hs h => simp [EntryLine.itemKey?, hs]

/-- A line with a value after the key of an item waits for nothing. -/
theorem LineShape.bare_eq_false {l : EntryLine} {key : Bytes} {p : Progress}
    (h : LineShape l.symbols (.itemValue key) p) (hvacant : p.isVacant = false) :
    l.bare = false := by
  obtain ⟨indent, symbols⟩ := l
  cases h with
  | @itemValue _ s value _ hs h =>
    cases value with
    | nil => simp [h.vacant.mpr rfl] at hvacant
    | cons first rest => rfl

end SourceTidy.Neon
