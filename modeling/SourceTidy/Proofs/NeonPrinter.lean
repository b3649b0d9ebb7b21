import Mathlib.Data.List.Nodup
import SourceTidy.Proofs.NeonNesting

/-! # Writing NEON

Values are written with all texts in double quotes. A list or a mapping is written in brackets on
one line, or as a block of lines, each level one tab deeper.

* `Value`, `Value.print`: values, and how they are written;
* `Value.entries`, `Value.inductionOn`: lists and mappings by their entries;
* `Value.flowSymbols`, `Value.pageSymbols`: the symbols of what is written;
* `lex_print`: the lexer finds these symbols.
-/

namespace SourceTidy.Neon

open Ascii Bytes

/-! ## Values -/

/-- How a list or a mapping is written: on one line, or as a block of lines. -/
inductive Style where
  | flow
  | block
deriving DecidableEq, Repr

/-- A value to write. -/
inductive Value where
  | text (s : Bytes)
  | list (style : Style) (items : List Value)
  | mapping (style : Style) (fields : List (Bytes × Value))
deriving Repr

/-- A text with a backslash before each backslash and double quote. -/
def escape (s : Bytes) : Bytes :=
  s.flatMap fun b => if b = backslash || b = doubleQuote then [backslash, b] else [b]

/-- A text in double quotes. -/
def literal (s : Bytes) : Bytes := doubleQuote :: (escape s ++ [doubleQuote])

mutual

/-- A value on one line. -/
def Value.flow : Value → Bytes
  | .text s => literal s
  | .list _ items => openBracket :: ([comma, space].intercalate (flowItems items) ++ [closeBracket])
  | .mapping _ fields =>
      openBrace :: ([comma, space].intercalate (flowFields fields) ++ [closeBrace])

def flowItems : List Value → List Bytes
  | [] => []
  | v :: rest => v.flow :: flowItems rest

def flowFields : List (Bytes × Value) → List Bytes
  | [] => []
  | (key, v) :: rest => (literal key ++ colon :: space :: v.flow) :: flowFields rest

end

/-- Is the value written on one line? An empty list or mapping always is. -/
def Value.isInline : Value → Bool
  | .text _ => true
  | .list style items => style = .flow || items.isEmpty
  | .mapping style fields => style = .flow || fields.isEmpty

/-- The indentation of a level. -/
def tabs (level : Nat) : Bytes := List.replicate level tab

mutual

/-- The lines of an entry of a block, which starts with a dash or a key: the value is on the same
line, or it is a block one level deeper. -/
def Value.lines (level : Nat) (label : Bytes) : Value → List Bytes
  | .text s => [label ++ space :: literal s]
  | .list style items =>
    if (Value.list style items).isInline then [label ++ space :: (Value.list style items).flow]
    else label :: itemLines (level + 1) items
  | .mapping style fields =>
    if (Value.mapping style fields).isInline then
      [label ++ space :: (Value.mapping style fields).flow]
    else label :: fieldLines (level + 1) fields

def itemLines (level : Nat) : List Value → List Bytes
  | [] => []
  | v :: rest => v.lines level (tabs level ++ [dash]) ++ itemLines level rest

def fieldLines (level : Nat) : List (Bytes × Value) → List Bytes
  | [] => []
  | (key, v) :: rest =>
      v.lines level (tabs level ++ (literal key ++ [colon])) ++ fieldLines level rest

end

/-- The lines of a document. -/
def Value.page (v : Value) : List Bytes :=
  if v.isInline then [v.flow]
  else match v with
    | .text s => [literal s]
    | .list _ items => itemLines 0 items
    | .mapping _ fields => fieldLines 0 fields

/-- A value as a document. -/
def Value.print (v : Value) : Bytes := [lf].intercalate v.page

example : (Value.mapping .block [(ascii "a", .list .block [.text (ascii "x\"y"), .list .flow []]),
    (ascii "b", .mapping .flow [(ascii "c", .list .block [.text []])])]).print =
    ascii "\"a\":\n\t- \"x\\\"y\"\n\t- []\n\"b\": \x7b\"c\": [\"\"]\x7d" := by decide

mutual

/-- How many lists and mappings are inside of each other. -/
def Value.depth : Value → Nat
  | .text _ => 0
  | .list _ items => itemsDepth items + 1
  | .mapping _ fields => fieldsDepth fields + 1

def itemsDepth : List Value → Nat
  | [] => 0
  | v :: rest => max v.depth (itemsDepth rest)

def fieldsDepth : List (Bytes × Value) → Nat
  | [] => 0
  | (_, v) :: rest => max v.depth (fieldsDepth rest)

end

/-- How many of them count towards the nesting limit: a block that is the whole document does
not. -/
def Value.nesting (v : Value) : Nat := if v.isInline then v.depth else v.depth - 1

mutual

/-- Does no text and no key go over several lines? -/
def Value.isOneLine : Value → Bool
  | .text s => !s.contains lf
  | .list _ items => itemsOneLine items
  | .mapping _ fields => fieldsOneLine fields

def itemsOneLine : List Value → Bool
  | [] => true
  | v :: rest => v.isOneLine && itemsOneLine rest

def fieldsOneLine : List (Bytes × Value) → Bool
  | [] => true
  | (key, v) :: rest => !key.contains lf && v.isOneLine && fieldsOneLine rest

end

mutual

/-- Does no mapping have a key twice? -/
def Value.hasDistinctKeys : Value → Bool
  | .text _ => true
  | .list _ items => itemsDistinct items
  | .mapping _ fields => (fields.map Prod.fst).Nodup && fieldsDistinct fields

def itemsDistinct : List Value → Bool
  | [] => true
  | v :: rest => v.hasDistinctKeys && itemsDistinct rest

def fieldsDistinct : List (Bytes × Value) → Bool
  | [] => true
  | (_, v) :: rest => v.hasDistinctKeys && fieldsDistinct rest

end

/-! ## Entries -/

/-- The items of a list, or the fields of a mapping. -/
def Value.entries : Value → List (Option Bytes × Value)
  | .text _ => []
  | .list _ items => items.map fun v => (none, v)
  | .mapping _ fields => fields.map fun (key, v) => (some key, v)

/-- What holds of a value if it holds of its entries holds of all values. -/
theorem Value.inductionOn {motive : Value → Prop} (v : Value)
    (h : ∀ v : Value, (∀ e ∈ v.entries, motive e.2) → motive v) : motive v := by
  -- lists of values and of fields are induced on along with the values in them
  refine @Value.rec motive (fun items => ∀ v ∈ items, motive v)
    (fun fields => ∀ f ∈ fields, motive f.2)
    (fun f => motive f.2) ?_ ?_ ?_ ?_ ?_ ?_ ?_ ?_ v
  · exact fun s => h _ (by simp [entries])
  · intro style items hitems
    exact h _ (by simpa [entries] using hitems)
  · intro style fields hfields
    refine h _ ?_
    intro e he
    obtain ⟨f, hf, rfl⟩ := List.mem_map.mp he
    exact hfields f hf
  · simp
  · intro v items hv hitems
    exact List.forall_mem_cons.mpr ⟨hv, hitems⟩
  · simp
  · intro f fields hf hfields
    exact List.forall_mem_cons.mpr ⟨hf, hfields⟩
  · intro key v hv
    exact hv

namespace Value

/-- The brackets of a list or a mapping on one line. -/
def bracket : Value → Bracket
  | .mapping _ _ => .curly
  | _ => .square

/-- An entry of a list or a mapping on one line. -/
def flowEntry : Option Bytes × Value → Bytes
  | (none, v) => v.flow
  | (some key, v) => literal key ++ colon :: space :: v.flow

/-- What a line of a block starts with. -/
def label : Option Bytes → Bytes
  | none => [dash]
  | some key => literal key ++ [colon]

/-- An entry of a block. -/
def blockEntry (level : Nat) (e : Option Bytes × Value) : List Bytes :=
  e.2.lines level (tabs level ++ label e.1)

/-- Items on one line are written as entries without a key. -/
theorem flowItems_eq (items : List Value) :
    flowItems items = (items.map fun v => (none, v)).map flowEntry := by
  induction items with
  | nil => rfl
  | cons v rest ih => simp only [flowItems, ih, List.map_cons, flowEntry]

theorem flowFields_eq (fields : List (Bytes × Value)) :
    flowFields fields = (fields.map fun (key, v) => (some key, v)).map flowEntry := by
  induction fields with
  | nil => rfl
  | cons f rest ih => simp only [flowFields, ih, List.map_cons, flowEntry]

/-- Items on lines of a block are written as entries without a key. -/
theorem itemLines_eq (level : Nat) (items : List Value) :
    itemLines level items = (items.map fun v => (none, v)).flatMap (blockEntry level) := by
  induction items with
  | nil => rfl
  | cons v rest ih => simp only [itemLines, ih, List.map_cons, List.flatMap_cons, blockEntry, label]

theorem fieldLines_eq (level : Nat) (fields : List (Bytes × Value)) :
    fieldLines level fields =
      (fields.map fun (key, v) => (some key, v)).flatMap (blockEntry level) := by
  induction fields with
  | nil => rfl
  | cons f rest ih => simp only [fieldLines, ih, List.map_cons, List.flatMap_cons,
      blockEntry, label]

/-- A list or a mapping on one line, by its entries. -/
theorem flow_eq {v : Value} (hv : ∀ s, v ≠ .text s) :
    v.flow = v.bracket.opening.toUInt8 ::
      ([comma, space].intercalate (v.entries.map flowEntry) ++ [v.bracket.closing.toUInt8]) := by
  cases v with
  | text s => exact absurd rfl (hv s)
  | list style items =>
    rw [flow, flowItems_eq]
    rfl
  | mapping style fields =>
    rw [flow, flowFields_eq]
    rfl

/-- A value on one line follows its dash or its key. -/
theorem lines_of_isInline {v : Value} (h : v.isInline = true) (level : Nat) (label : Bytes) :
    v.lines level label = [label ++ space :: v.flow] := by
  cases v with
  | text s => rw [lines, flow]
  | list style items => rw [lines, if_pos h]
  | mapping style fields => rw [lines, if_pos h]

/-- A block, by its entries. -/
theorem lines_of_not_isInline {v : Value} (h : v.isInline = false) (level : Nat) (label : Bytes) :
    v.lines level label = label :: v.entries.flatMap (blockEntry (level + 1)) := by
  cases v with
  | text s => cases h
  | list style items => rw [lines, if_neg (by simp [h]), itemLines_eq, entries]
  | mapping style fields => rw [lines, if_neg (by simp [h]), fieldLines_eq, entries]

/-- A block that is the whole document is not indented. -/
theorem page_of_not_isInline {v : Value} (h : v.isInline = false) :
    v.page = v.entries.flatMap (blockEntry 0) := by
  cases v with
  | text s => cases h
  | list style items => exact (if_neg (by simp [h])).trans (itemLines_eq 0 items)
  | mapping style fields => exact (if_neg (by simp [h])).trans (fieldLines_eq 0 fields)

theorem entries_ne_nil {v : Value} (h : v.isInline = false) : v.entries ≠ [] := by
  cases v <;> simp_all [isInline, entries]

/-- A list is as deep as the deepest of its items. -/
theorem itemsDepth_le_iff {items : List Value} {n : Nat} :
    itemsDepth items ≤ n ↔ ∀ v ∈ items, v.depth ≤ n := by
  induction items with
  | nil => simp [itemsDepth]
  | cons v rest ih => rw [itemsDepth, List.forall_mem_cons, ← ih, Nat.max_le]

theorem fieldsDepth_le_iff {fields : List (Bytes × Value)} {n : Nat} :
    fieldsDepth fields ≤ n ↔ ∀ f ∈ fields, f.2.depth ≤ n := by
  induction fields with
  | nil => simp [fieldsDepth]
  | cons f rest ih => rw [fieldsDepth, List.forall_mem_cons, ← ih, Nat.max_le]

/-- A value is one deeper than its entries. -/
theorem depth_le_iff {v : Value} {n : Nat} : v.depth ≤ n + 1 ↔ ∀ e ∈ v.entries, e.2.depth ≤ n := by
  cases v with
  | text s => simp [depth, entries]
  | list style items => simp [depth, entries, itemsDepth_le_iff]
  | mapping style fields =>
    rw [depth, Nat.add_le_add_iff_right, fieldsDepth_le_iff, entries]
    simp only [List.forall_mem_map]

theorem depth_pos {v : Value} (hv : ∀ s, v ≠ .text s) : 0 < v.depth := by
  cases v with
  | text s => exact absurd rfl (hv s)
  | list style items => exact Nat.succ_pos _
  | mapping style fields => exact Nat.succ_pos _

/-- How deep a list or a mapping may be below `n` others, by its entries. -/
theorem add_depth_le_iff {v : Value} (hv : ∀ s, v ≠ .text s) {n k : Nat} :
    n + v.depth ≤ k ↔ n < k ∧ ∀ e ∈ v.entries, n + 1 + e.2.depth ≤ k := by
  have hpos := depth_pos hv
  constructor
  · intro h
    refine ⟨by omega, fun e he => ?_⟩
    have := depth_le_iff.mp (by omega : v.depth ≤ k - n - 1 + 1) e he
    omega
  · rintro ⟨hn, h⟩
    have : v.depth ≤ k - n - 1 + 1 := by
      refine depth_le_iff.mpr fun e he => ?_
      have := h e he
      omega
    omega

theorem ne_text_of_not_isInline {v : Value} (h : v.isInline = false) : ∀ s, v ≠ .text s := by
  rintro s rfl
  cases h

/-- Not more than all lists and mappings count. -/
theorem nesting_le_depth (v : Value) : v.nesting ≤ v.depth := by
  unfold nesting
  split_ifs <;> omega

/-- If a list is on one line, so is each item. -/
theorem isOneLine_of_itemsOneLine {items : List Value} (h : itemsOneLine items = true) :
    ∀ v ∈ items, v.isOneLine = true := by
  induction items with
  | nil => simp
  | cons first rest ih =>
    rw [itemsOneLine, Bool.and_eq_true] at h
    exact List.forall_mem_cons.mpr ⟨h.1, ih h.2⟩

/-- If a mapping is on one line, so is each field with its key. -/
theorem isOneLine_of_fieldsOneLine {fields : List (Bytes × Value)}
    (h : fieldsOneLine fields = true) :
    ∀ f ∈ fields, f.2.isOneLine = true ∧ lf ∉ f.1 := by
  induction fields with
  | nil => simp
  | cons first rest ih =>
    simp only [fieldsOneLine, Bool.and_eq_true] at h
    exact List.forall_mem_cons.mpr ⟨⟨h.1.2, by simpa using h.1.1⟩, ih h.2⟩

/-- The keys and the values of the entries are on one line each. -/
theorem isOneLine_of_mem {v : Value} {e : Option Bytes × Value} (h : v.isOneLine = true)
    (he : e ∈ v.entries) : e.2.isOneLine = true ∧ ∀ key ∈ e.1, lf ∉ key := by
  cases v with
  | text s => cases he
  | list style items =>
    obtain ⟨v, hv, rfl⟩ := List.mem_map.mp he
    exact ⟨isOneLine_of_itemsOneLine (by simpa [isOneLine] using h) v hv, by simp⟩
  | mapping style fields =>
    obtain ⟨f, hf, rfl⟩ := List.mem_map.mp he
    obtain ⟨hvalue, hkey⟩ := isOneLine_of_fieldsOneLine (by simpa [isOneLine] using h) f hf
    exact ⟨hvalue, by simpa using hkey⟩

/-- Keys are different in a list if they are so in each item. -/
theorem itemsDistinct_iff {items : List Value} :
    itemsDistinct items = true ↔ ∀ v ∈ items, v.hasDistinctKeys = true := by
  induction items with
  | nil => simp [itemsDistinct]
  | cons v rest ih => rw [itemsDistinct, Bool.and_eq_true, List.forall_mem_cons, ih]

theorem fieldsDistinct_iff {fields : List (Bytes × Value)} :
    fieldsDistinct fields = true ↔ ∀ f ∈ fields, f.2.hasDistinctKeys = true := by
  induction fields with
  | nil => simp [fieldsDistinct]
  | cons f rest ih => rw [fieldsDistinct, Bool.and_eq_true, List.forall_mem_cons, ih]

/-- Distinct keys, by the entries. -/
theorem hasDistinctKeys_iff {v : Value} :
    v.hasDistinctKeys = true ↔
      (v.entries.filterMap Prod.fst).Nodup ∧ ∀ e ∈ v.entries, e.2.hasDistinctKeys = true := by
  cases v with
  | text s => simp [hasDistinctKeys, entries]
  | list style items => simp [hasDistinctKeys, entries, itemsDistinct_iff, List.filterMap_map]
  | mapping style fields =>
    have hkeys : (Value.mapping style fields).entries.filterMap Prod.fst = fields.map Prod.fst := by
      simp [entries, List.filterMap_map]
    rw [hasDistinctKeys, Bool.and_eq_true, decide_eq_true_iff, fieldsDistinct_iff, hkeys, entries]
    simp only [List.forall_mem_map]

end Value

/-! ## Symbols -/

mutual

/-- The symbols of a value on one line. -/
def Value.flowSymbols : Value → List Symbol
  | .text s => [.scalar (escape s)]
  | .list _ items =>
      .opening .square :: ([.comma].intercalate (itemSymbols items) ++ [.closing .square])
  | .mapping _ fields =>
      .opening .curly :: ([.comma].intercalate (fieldSymbols fields) ++ [.closing .curly])

def itemSymbols : List Value → List (List Symbol)
  | [] => []
  | v :: rest => v.flowSymbols :: itemSymbols rest

def fieldSymbols : List (Bytes × Value) → List (List Symbol)
  | [] => []
  | (key, v) :: rest => (.scalar (escape key) :: .colon :: v.flowSymbols) :: fieldSymbols rest

end

mutual

/-- The symbols of the lines of an entry, which starts with the symbols of a dash or a key. -/
def Value.lineSymbols (level : Nat) (label : List Symbol) : Value → List (List Symbol)
  | .text s => [label ++ [.scalar (escape s)]]
  | .list style items =>
    if (Value.list style items).isInline then [label ++ (Value.list style items).flowSymbols]
    else label :: itemLineSymbols (level + 1) items
  | .mapping style fields =>
    if (Value.mapping style fields).isInline then
      [label ++ (Value.mapping style fields).flowSymbols]
    else label :: fieldLineSymbols (level + 1) fields

def itemLineSymbols (level : Nat) : List Value → List (List Symbol)
  | [] => []
  | v :: rest => v.lineSymbols level [.newline (tabs level), .dash] ++ itemLineSymbols level rest

def fieldLineSymbols (level : Nat) : List (Bytes × Value) → List (List Symbol)
  | [] => []
  | (key, v) :: rest =>
    v.lineSymbols level [.newline (tabs level), .scalar (escape key), .colon] ++
      fieldLineSymbols level rest

end

/-- The symbols of the lines of a document. -/
def Value.pageSymbols (v : Value) : List (List Symbol) :=
  if v.isInline then [.newline [] :: v.flowSymbols]
  else match v with
    | .text s => [[.newline [], .scalar (escape s)]]
    | .list _ items => itemLineSymbols 0 items
    | .mapping _ fields => fieldLineSymbols 0 fields

namespace Value

/-- The symbols before a value on one line. -/
def flowLabelSymbols : Option Bytes → List Symbol
  | none => []
  | some key => [.scalar (escape key), .colon]

def flowEntrySymbols (e : Option Bytes × Value) : List Symbol :=
  flowLabelSymbols e.1 ++ e.2.flowSymbols

/-- The symbols that a line of a block starts with. -/
def labelSymbols : Option Bytes → List Symbol
  | none => [.dash]
  | some key => [.scalar (escape key), .colon]

def blockEntrySymbols (level : Nat) (e : Option Bytes × Value) : List (List Symbol) :=
  e.2.lineSymbols level (.newline (tabs level) :: labelSymbols e.1)

theorem itemSymbols_eq (items : List Value) :
    itemSymbols items = (items.map fun v => (none, v)).map flowEntrySymbols := by
  induction items with
  | nil => rfl
  | cons v rest ih =>
    simp only [itemSymbols, ih, List.map_cons, flowEntrySymbols, flowLabelSymbols, List.nil_append]

theorem fieldSymbols_eq (fields : List (Bytes × Value)) :
    fieldSymbols fields = (fields.map fun (key, v) => (some key, v)).map flowEntrySymbols := by
  induction fields with
  | nil => rfl
  | cons f rest ih =>
    simp only [fieldSymbols, ih, List.map_cons, flowEntrySymbols, flowLabelSymbols,
      List.cons_append, List.nil_append]

theorem itemLineSymbols_eq (level : Nat) (items : List Value) :
    itemLineSymbols level items =
      (items.map fun v => (none, v)).flatMap (blockEntrySymbols level) := by
  induction items with
  | nil => rfl
  | cons v rest ih =>
    simp only [itemLineSymbols, ih, List.map_cons, List.flatMap_cons, blockEntrySymbols,
      labelSymbols]

theorem fieldLineSymbols_eq (level : Nat) (fields : List (Bytes × Value)) :
    fieldLineSymbols level fields =
      (fields.map fun (key, v) => (some key, v)).flatMap (blockEntrySymbols level) := by
  induction fields with
  | nil => rfl
  | cons f rest ih =>
    simp only [fieldLineSymbols, ih, List.map_cons, List.flatMap_cons, blockEntrySymbols,
      labelSymbols]

/-- A list or a mapping on one line has its entries in brackets, with commas between them. -/
theorem flowSymbols_eq {v : Value} (hv : ∀ s, v ≠ .text s) :
    v.flowSymbols = .opening v.bracket ::
      ([.comma].intercalate (v.entries.map flowEntrySymbols) ++ [.closing v.bracket]) := by
  cases v with
  | text s => exact absurd rfl (hv s)
  | list style items =>
    rw [flowSymbols, itemSymbols_eq]
    rfl
  | mapping style fields =>
    rw [flowSymbols, fieldSymbols_eq]
    rfl

/-- The line of a value that is written on one line. -/
theorem lineSymbols_of_isInline {v : Value} (h : v.isInline = true) (level : Nat)
    (label : List Symbol) :
    v.lineSymbols level label = [label ++ v.flowSymbols] := by
  cases v with
  | text s => rw [lineSymbols, flowSymbols]
  | list style items => rw [lineSymbols, if_pos h]
  | mapping style fields => rw [lineSymbols, if_pos h]

/-- The lines of a block are one level deeper than its label. -/
theorem lineSymbols_of_not_isInline {v : Value} (h : v.isInline = false) (level : Nat)
    (label : List Symbol) :
    v.lineSymbols level label = label :: v.entries.flatMap (blockEntrySymbols (level + 1)) := by
  cases v with
  | text s => cases h
  | list style items => rw [lineSymbols, if_neg (by simp [h]), itemLineSymbols_eq, entries]
  | mapping style fields => rw [lineSymbols, if_neg (by simp [h]), fieldLineSymbols_eq, entries]

theorem pageSymbols_of_not_isInline {v : Value} (h : v.isInline = false) :
    v.pageSymbols = v.entries.flatMap (blockEntrySymbols 0) := by
  cases v with
  | text s => cases h
  | list style items => exact (if_neg (by simp [h])).trans (itemLineSymbols_eq 0 items)
  | mapping style fields => exact (if_neg (by simp [h])).trans (fieldLineSymbols_eq 0 fields)

end Value

/-! ## Lexing what is written -/

theorem map_append_map (x : Except Fault (List Token)) (a b : List Token) :
    (x.map (b ++ ·)).map (a ++ ·) = x.map (a ++ b ++ ·) := by
  cases x with
  | error fault => rfl
  | ok tokens => simp [Except.map]

theorem lexFrom_skip (unit : Option UInt8) (line : Nat) (s rest : Bytes) :
    lexFrom unit line s.length (s ++ rest) = lexFrom unit line 0 rest := by
  induction s with
  | nil => rfl
  | cons b s ih =>
    rw [List.length_cons, List.cons_append, lexFrom]
    exact ih

theorem escape_cons (b : UInt8) (s : Bytes) :
    escape (b :: s) =
      (if b = backslash || b = doubleQuote then [backslash, b] else [b]) ++ escape s :=
  List.flatMap_cons

/-- A text on one line is written on one line. -/
theorem lf_not_mem_escape {s : Bytes} (h : lf ∉ s) : lf ∉ escape s := by
  have hbackslash : lf ≠ backslash := by decide
  intro hmem
  obtain ⟨b, hb, hmem⟩ := List.mem_flatMap.mp hmem
  obtain rfl : lf = b := by split_ifs at hmem <;> simp_all
  exact h hb

/-- The closing quote of a text is the first one that has no backslash before it. -/
theorem quotedBody_escape {s : Bytes} (h : lf ∉ s) (rest : Bytes) :
    quotedBody doubleQuote (escape s ++ doubleQuote :: rest) = .ok (escape s).length := by
  induction s with
  | nil => cases rest <;> rfl
  | cons b s ih =>
    have hb : b ≠ lf := by rintro rfl; simp at h
    have ih := ih (fun hmem => h (List.mem_cons_of_mem b hmem))
    rw [escape_cons]
    by_cases hescape : b = backslash || b = doubleQuote
    · have hcontains : escapes.contains b = true := by
        rcases (by simpa using hescape : b = backslash ∨ b = doubleQuote) with rfl | rfl <;> decide
      rw [if_pos hescape]
      simp only [List.cons_append, List.nil_append, quotedBody, hcontains, ih]
      rfl
    · rw [if_neg hescape]
      simp only [Bool.or_eq_true, decide_eq_true_eq, not_or] at hescape
      rw [List.singleton_append, List.cons_append, quotedBody.eq_def]
      simp [hb, hescape.1, hescape.2, ih, Except.map]

/-- Two quotes at the start of a text are not the start of three. -/
theorem not_isPrefixOf_literal (s : Bytes) {rest : Bytes} (hrest : rest.head? ≠ some doubleQuote) :
    [doubleQuote, doubleQuote, doubleQuote].isPrefixOf (literal s ++ rest) = false := by
  cases s with
  | nil =>
    cases rest with
    | nil => rfl
    | cons b rest =>
      have hb : doubleQuote ≠ b := by rintro rfl; simp at hrest
      simp [literal, escape, List.isPrefixOf, hb]
  | cons b s =>
    rw [literal, escape_cons]
    by_cases hescape : b = backslash || b = doubleQuote
    · have hbackslash : doubleQuote ≠ backslash := by decide
      simp [hescape, List.isPrefixOf, hbackslash]
    · have hb : doubleQuote ≠ b := by rintro rfl; simp at hescape
      simp [hescape, List.isPrefixOf, hb]

/-- The text on a line is lexed as the symbols, whatever comes after it but another quote. -/
def LexesTo (text : Bytes) (symbols : List Symbol) : Prop :=
  ∀ unit line rest, rest.head? ≠ some doubleQuote → lexFrom unit line 0 (text ++ rest) =
    (lexFrom unit line 0 rest).map (symbols.map (Token.mk · line) ++ ·)

/-- A text in quotes is read as one scalar. -/
theorem lexesTo_literal {s : Bytes} (h : lf ∉ s) : LexesTo (literal s) [.scalar (escape s)] := by
  intro unit line rest hrest
  -- the quote at the end is the first one without a backslash before it
  have hstring :
      quotedString doubleQuote (literal s ++ rest) = .ok (escape s, (escape s).length + 2) := by
    have hbody := quotedBody_escape h rest
    rw [quotedString, not_isPrefixOf_literal s hrest]
    simp [literal, hbody, Except.map]
  have hlexeme : lexeme doubleQuote (escape s ++ [doubleQuote] ++ rest) =
      .ok (some (.scalar (escape s)), (escape s).length + 2) := by
    show (quotedString doubleQuote (literal s ++ rest)).map _ = _
    rw [hstring]
    rfl
  have htake : (literal s ++ rest).take ((escape s).length + 2) = literal s := by
    rw [List.take_append_of_le_length (by simp [literal]),
      List.take_of_length_le (by simp [literal])]
  have hbreaks : lineBreaks (literal s) = 0 := by
    have hquote : lf ≠ doubleQuote := by decide
    rw [lineBreaks, List.count_eq_zero]
    simp [literal, lf_not_mem_escape h, hquote]
  have hskip := lexFrom_skip unit line (escape s ++ [doubleQuote]) rest
  rw [List.length_append, List.length_singleton] at hskip
  show lexFrom unit line 0 (doubleQuote :: (escape s ++ [doubleQuote] ++ rest)) = _
  rw [lexFrom, if_neg (by decide), hlexeme]
  show (lexFrom unit (line + lineBreaks ((literal s ++ rest).take ((escape s).length + 2)))
    ((escape s).length + 1) (escape s ++ [doubleQuote] ++ rest)).map _ = _
  rw [htake, hbreaks, Nat.add_zero, hskip]
  rfl

theorem lexFrom_punctuation {b : UInt8} {rest : Bytes} {symbol : Symbol} (unit : Option UInt8)
    (line : Nat) (h : punctuation? b rest = some symbol) (hb : b ≠ lf) :
    lexFrom unit line 0 (b :: rest) = (lexFrom unit line 0 rest).map ([⟨symbol, line⟩] ++ ·) := by
  have hlexeme : lexeme b rest = .ok (some symbol, 1) := by rw [lexeme, h]
  have hbreaks : lineBreaks ((b :: rest).take 1) = 0 := by
    simpa [lineBreaks, List.count_eq_zero] using hb.symm
  rw [lexFrom, if_neg hb, hlexeme]
  show (lexFrom unit (line + lineBreaks ((b :: rest).take 1)) 0 rest).map _ = _
  rw [hbreaks]
  rfl

theorem lexFrom_space (unit : Option UInt8) (line : Nat) (rest : Bytes) :
    lexFrom unit line 0 (space :: rest) = lexFrom unit line 0 rest := by
  have hspace : lexFrom unit line 0 (space :: rest) = (lexFrom unit line 0 rest).map ([] ++ ·) :=
    rfl
  rw [hspace]
  cases lexFrom unit line 0 rest <;> rfl

theorem head?_cons_ne {b : UInt8} (h : b ≠ doubleQuote) (rest : Bytes) :
    (b :: rest).head? ≠ some doubleQuote := by
  simpa using h

/-- An entry on one line, with its key if it has one. -/
theorem lexesTo_flowEntry {e : Option Bytes × Value} (hkey : ∀ key ∈ e.1, lf ∉ key)
    (hvalue : LexesTo e.2.flow e.2.flowSymbols) :
    LexesTo (Value.flowEntry e) (Value.flowEntrySymbols e) := by
  obtain ⟨key?, v⟩ := e
  cases key? with
  | none => exact hvalue
  | some key =>
    intro unit line rest hrest
    have hcolon : punctuation? colon (space :: (v.flow ++ rest)) = some .colon := rfl
    have htext : Value.flowEntry (some key, v) ++ rest =
        literal key ++ colon :: space :: (v.flow ++ rest) := by
      simp [Value.flowEntry]
    rw [htext, lexesTo_literal (hkey key rfl) unit line _ (head?_cons_ne (by decide) _),
      lexFrom_punctuation unit line hcolon (by decide), lexFrom_space, hvalue unit line rest hrest,
      map_append_map, map_append_map]
    rfl

/-- Entries with commas between them. -/
theorem lexesTo_entries {entries : List (Option Bytes × Value)}
    (h : ∀ e ∈ entries, LexesTo (Value.flowEntry e) (Value.flowEntrySymbols e)) :
    LexesTo ([comma, space].intercalate (entries.map Value.flowEntry))
      ([.comma].intercalate (entries.map Value.flowEntrySymbols)) := by
  induction entries with
  | nil =>
    intro unit line rest _
    show lexFrom unit line 0 rest = (lexFrom unit line 0 rest).map ([] ++ ·)
    cases lexFrom unit line 0 rest <;> rfl
  | cons e entries ih =>
    cases entries with
    | nil => simpa using h e (by simp)
    | cons e' entries =>
      have ih := ih (fun e he => h e (List.mem_cons_of_mem _ he))
      intro unit line rest hrest
      simp only [List.map_cons, List.intercalate_cons_cons] at ih ⊢
      -- the other entries are one text from here on; it comes after a comma and a space
      generalize [comma, space].intercalate (Value.flowEntry e' :: entries.map Value.flowEntry) =
        text at ih ⊢
      have hcomma : punctuation? comma (space :: (text ++ rest)) = some .comma := rfl
      have htext : Value.flowEntry e ++ [comma, space] ++ text ++ rest =
          Value.flowEntry e ++ comma :: space :: (text ++ rest) := by
        simp
      rw [htext, h e (by simp) unit line _ (head?_cons_ne (by decide) _),
        lexFrom_punctuation unit line hcomma (by decide), lexFrom_space, ih unit line rest hrest,
        map_append_map, map_append_map]
      simp

/-- A value on one line. -/
theorem lexesTo_flow (v : Value) (h : v.isOneLine = true) : LexesTo v.flow v.flowSymbols := by
  induction v using Value.inductionOn with
  | h v ih =>
    by_cases hv : ∃ s, v = .text s
    · obtain ⟨s, rfl⟩ := hv
      exact lexesTo_literal (by simpa [Value.isOneLine] using h)
    · have hv : ∀ s, v ≠ .text s := fun s hs => hv ⟨s, hs⟩
      have hentries : ∀ e ∈ v.entries, LexesTo (Value.flowEntry e) (Value.flowEntrySymbols e) := by
        intro e he
        obtain ⟨honeLine, hkey⟩ := Value.isOneLine_of_mem h he
        exact lexesTo_flowEntry hkey (ih e he honeLine)
      have hinner := lexesTo_entries hentries
      rw [Value.flow_eq hv, Value.flowSymbols_eq hv]
      generalize [comma, space].intercalate (v.entries.map Value.flowEntry) = text at hinner ⊢
      intro unit line rest hrest
      -- brackets are symbols whatever follows them, and the closing one is no quote
      have hopening (s : Bytes) :
          punctuation? v.bracket.opening.toUInt8 s = some (.opening v.bracket) ∧
            v.bracket.opening.toUInt8 ≠ lf := by
        cases v.bracket <;> exact ⟨rfl, by decide⟩
      have hclosing (s : Bytes) :
          punctuation? v.bracket.closing.toUInt8 s = some (.closing v.bracket) ∧
            v.bracket.closing.toUInt8 ≠ lf ∧ v.bracket.closing.toUInt8 ≠ doubleQuote := by
        cases v.bracket <;> exact ⟨rfl, by decide, by decide⟩
      rw [List.cons_append, lexFrom_punctuation unit line (hopening _).1 (hopening []).2,
        List.append_assoc, List.singleton_append,
        hinner unit line _ (head?_cons_ne (hclosing []).2.2 rest),
        lexFrom_punctuation unit line (hclosing _).1 (hclosing []).2.1, map_append_map,
        map_append_map]
      simp

/-! ## Lexing lines -/

/-- Nothing comes after the text, or a line break. -/
def AtLineEnd (rest : Bytes) : Prop := rest = [] ∨ rest.head? = some lf

/-- At the end of a line a dash or a colon is one. -/
theorem AtLineEnd.spaceFollows {rest : Bytes} (h : AtLineEnd rest) : spaceFollows rest = true := by
  rcases h with rfl | h
  · rfl
  · simp [Neon.spaceFollows, nextIn, h, isSpacing]

theorem AtLineEnd.head?_ne {rest : Bytes} (h : AtLineEnd rest) : rest.head? ≠ some doubleQuote := by
  rcases h with rfl | h
  · simp
  · rw [h]
    decide

/-- The dash or the key that a line of a block starts with. -/
theorem lexFrom_label {key? : Option Bytes} (hkey : ∀ key ∈ key?, lf ∉ key) {rest : Bytes}
    (hrest : spaceFollows rest = true) (unit : Option UInt8) (line : Nat) :
    lexFrom unit line 0 (Value.label key? ++ rest) =
      (lexFrom unit line 0 rest).map ((Value.labelSymbols key?).map (Token.mk · line) ++ ·) := by
  cases key? with
  | none =>
    have hdash : punctuation? dash rest = some .dash := if_pos hrest
    exact lexFrom_punctuation unit line hdash (by decide)
  | some key =>
    have hcolon : punctuation? colon rest = some .colon := by
      have hvalue : valueFollows rest = true := by simp [valueFollows, hrest]
      exact if_pos hvalue
    rw [Value.label, List.append_assoc, List.singleton_append,
      lexesTo_literal (hkey key rfl) unit line _ (head?_cons_ne (by decide) rest),
      lexFrom_punctuation unit line hcolon (by decide), map_append_map]
    rfl

/-- The line is lexed as the symbols, in a document that is indented by tabs. -/
def LineLexesTo (text : Bytes) (symbols : List Symbol) : Prop :=
  ∀ unit line rest, (unit = none ∨ unit = some tab) → AtLineEnd rest →
    ∃ unit', (unit' = none ∨ unit' = some tab) ∧ lexLines unit line (text ++ rest) =
      (lexFrom unit' line 0 rest).map (symbols.map (Token.mk · line) ++ ·)

/-- A line is lexed as its indentation and what is on it. -/
theorem lineLexesTo {body : Bytes} {symbols : List Symbol} (level : Nat)
    (hhead : ∃ b rest, body = b :: rest ∧ isSpacing b = false ∧ b ≠ hash)
    (hbody : ∀ unit line rest, AtLineEnd rest → lexFrom unit line 0 (body ++ rest) =
      (lexFrom unit line 0 rest).map (symbols.map (Token.mk · line) ++ ·)) :
    LineLexesTo (tabs level ++ body) (.newline (tabs level) :: symbols) := by
  intro unit line rest hunit hrest
  obtain ⟨unit', hagree, hunit'⟩ := agreeIndent?_tabs hunit level
  refine ⟨unit', hunit', ?_⟩
  have hindent : entryIndent? (tabs level ++ (body ++ rest)) = some (tabs level) := by
    obtain ⟨b, more, rfl, hspacing, hhash⟩ := hhead
    exact entryIndent?_tabs level (more ++ rest) hspacing hhash
  rw [List.append_assoc, lexLines, startLine, hindent]
  dsimp only
  rw [tabs, hagree]
  dsimp only
  rw [lexFrom_tabs, hbody unit' line rest hrest, map_append_map]
  rfl

/-- A line of a block starts with a dash or a quote, so it is not vacant. -/
theorem exists_head_label (key? : Option Bytes) (rest : Bytes) :
    ∃ b more, Value.label key? ++ rest = b :: more ∧ isSpacing b = false ∧ b ≠ hash := by
  cases key? with
  | none => exact ⟨dash, rest, rfl, rfl, by decide⟩
  | some key => exact ⟨doubleQuote, _, rfl, rfl, by decide⟩

/-- A value on one line starts with a quote or a bracket, so the line is not vacant. -/
theorem exists_head_flow (v : Value) :
    ∃ b more, v.flow = b :: more ∧ isSpacing b = false ∧ b ≠ hash := by
  cases v with
  | text s => exact ⟨doubleQuote, _, by rw [Value.flow, literal], rfl, by decide⟩
  | list style items => exact ⟨openBracket, _, by rw [Value.flow], rfl, by decide⟩
  | mapping style fields => exact ⟨openBrace, _, by rw [Value.flow], rfl, by decide⟩

theorem forall₂_flatMap {α : Type} {R : Bytes → List Symbol → Prop} {f : α → List Bytes}
    {g : α → List (List Symbol)} {l : List α} (h : ∀ a ∈ l, List.Forall₂ R (f a) (g a)) :
    List.Forall₂ R (l.flatMap f) (l.flatMap g) := by
  induction l with
  | nil => exact .nil
  | cons a l ih =>
    rw [List.flatMap_cons, List.flatMap_cons]
    exact List.rel_append (h a (by simp)) (ih fun b hb => h b (List.mem_cons_of_mem a hb))

/-- The lines of an entry. -/
theorem linesLexTo (v : Value) (h : v.isOneLine = true) (level : Nat) {key? : Option Bytes}
    (hkey : ∀ key ∈ key?, lf ∉ key) :
    List.Forall₂ LineLexesTo (Value.blockEntry level (key?, v))
      (Value.blockEntrySymbols level (key?, v)) := by
  -- on the value; a block puts its entries one level deeper, so the level has to be free
  induction v using Value.inductionOn generalizing level key? with
  | h v ih =>
    rw [Value.blockEntry, Value.blockEntrySymbols]
    cases hinline : v.isInline with
    | true =>
      rw [Value.lines_of_isInline hinline, Value.lineSymbols_of_isInline hinline, List.append_assoc]
      refine .cons (lineLexesTo level (exists_head_label key? _) ?_) .nil
      intro unit line rest hrest
      rw [List.append_assoc, lexFrom_label hkey rfl, List.cons_append, lexFrom_space,
        lexesTo_flow v h unit line rest hrest.head?_ne, map_append_map, ← List.map_append]
      rfl
    | false =>
      rw [Value.lines_of_not_isInline hinline, Value.lineSymbols_of_not_isInline hinline]
      refine .cons (lineLexesTo level ?_ ?_) (forall₂_flatMap ?_)
      · simpa using exists_head_label key? []
      · intro unit line rest hrest
        exact lexFrom_label hkey hrest.spaceFollows unit line
      · intro e he
        obtain ⟨honeLine, hkey'⟩ := Value.isOneLine_of_mem h he
        exact ih e he honeLine (level + 1) hkey'

/-- The lines of a document are read back as the tokens that were written. -/
theorem pageLexesTo (v : Value) (h : v.isOneLine = true) :
    List.Forall₂ LineLexesTo v.page v.pageSymbols := by
  cases hinline : v.isInline with
  | true =>
    have hpage : v.page = [tabs 0 ++ v.flow] := if_pos hinline
    have hsymbols : v.pageSymbols = [.newline (tabs 0) :: v.flowSymbols] := if_pos hinline
    rw [hpage, hsymbols]
    refine .cons (lineLexesTo 0 (exists_head_flow v) ?_) .nil
    intro unit line rest hrest
    exact lexesTo_flow v h unit line rest hrest.head?_ne
  | false =>
    rw [Value.page_of_not_isInline hinline, Value.pageSymbols_of_not_isInline hinline]
    refine forall₂_flatMap ?_
    intro e he
    obtain ⟨honeLine, hkey⟩ := Value.isOneLine_of_mem h he
    exact linesLexTo e.2 honeLine 0 hkey

/-- The symbols of lines one below the other, the first one on the given line. -/
def numbered (line : Nat) : List (List Symbol) → List Token
  | [] => []
  | symbols :: rest => symbols.map (Token.mk · line) ++ numbered (line + 1) rest

/-- The lines of the second part come after those of the first. -/
theorem numbered_append (line : Nat) (a b : List (List Symbol)) :
    numbered line (a ++ b) = numbered line a ++ numbered (line + a.length) b := by
  induction a generalizing line with
  | nil => rfl
  | cons symbols rest ih =>
    simp only [List.cons_append, numbered, ih, List.length_cons, List.append_assoc]
    rw [Nat.add_right_comm, Nat.add_assoc line]

/-- Lines with a line break before each of them. -/
theorem lexFrom_lines {page : List Bytes} {symbols : List (List Symbol)}
    (h : List.Forall₂ LineLexesTo page symbols) {unit : Option UInt8} (line : Nat)
    (hunit : unit = none ∨ unit = some tab) {ending : Bytes}
    (hending : ending = [] ∨ ending = [lf]) :
    lexFrom unit line 0 (page.flatMap (lf :: ·) ++ ending) = .ok (numbered (line + 1) symbols) := by
  induction h generalizing unit line with
  | nil => rcases hending with rfl | rfl <;> rfl
  | @cons text first page rest hline _ ih =>
    have hrest : AtLineEnd (page.flatMap (lf :: ·) ++ ending) := by
      cases page with
      | nil =>
        rcases hending with rfl | rfl
        · exact .inl rfl
        · exact .inr rfl
      | cons text page => exact .inr rfl
    obtain ⟨unit', hunit', hlex⟩ := hline unit (line + 1) _ hunit hrest
    have hbreak (s : Bytes) : lexFrom unit line 0 (lf :: s) = lexLines unit (line + 1) s := rfl
    rw [List.flatMap_cons, List.append_assoc, List.cons_append, hbreak, hlex, ih (line + 1) hunit']
    rfl

theorem flatMap_lf {page : List Bytes} (h : page ≠ []) :
    page.flatMap (lf :: ·) = lf :: [lf].intercalate page := by
  induction page with
  | nil => exact absurd rfl h
  | cons text page ih =>
    cases page with
    | nil => simp
    | cons text' page =>
      rw [List.flatMap_cons, ih nofun, List.intercalate_cons_cons]
      simp

theorem page_ne_nil (v : Value) : v.page ≠ [] := by
  cases hinline : v.isInline with
  | true =>
    have hpage : v.page = [v.flow] := if_pos hinline
    simp [hpage]
  | false =>
    rw [Value.page_of_not_isInline hinline]
    obtain ⟨e, entries, he⟩ := List.exists_cons_of_ne_nil (Value.entries_ne_nil hinline)
    rw [he, List.flatMap_cons, Value.blockEntry]
    cases hinline : e.2.isInline with
    | true => simp [Value.lines_of_isInline hinline]
    | false => simp [Value.lines_of_not_isInline hinline]

/-- The lexer finds the symbols of a value in its text, with or without a line break at the end. -/
theorem lex_print {v : Value} (h : v.isOneLine = true) {ending : Bytes}
    (hending : ending = [] ∨ ending = [lf]) :
    lex (v.print ++ ending) = .ok (numbered 1 v.pageSymbols) := by
  have hlines := lexFrom_lines (pageLexesTo v h) 0 (.inl rfl) hending
  rw [flatMap_lf (page_ne_nil v)] at hlines
  exact hlines

end SourceTidy.Neon
