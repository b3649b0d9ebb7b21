import SourceTidy.Proofs.PhpExtents
import SourceTidy.Proofs.TextLines
import SourceTidy.Rule.Indentation

/-! # Lines with blanks in the wrong place

The rule on indentation looks at a copy of the file from which the blanks in string literals are
left out. What it tells about a line of the copy is meant for the line of the file, so the two have
to have the same lines. The rule looks at the lines one by one; the same lines are found by looking
for the leftmost place in the copy at which a line is badly indented, or at which something visible
has a tab after it.

* `lines_filter`: leaving out octets other than line feeds leaves the lines in their places;
* `isMixed_iff`, `hasInnerTab_iff`: the two classes of lines;
* `lines_append`, `exists_place_of_lines`: the line through a place, and the place of a line;
* `MarksLines.tellsLeftmost`: the first line of a class is the line of its leftmost place;
* `indentation_tells_first_lines`: the rule tells the first line of each class, and nothing else.
-/

namespace SourceTidy.Rule

open Ascii Bytes

/-! ## The copy without blanks in literals -/

/-- An octet of a file, and whether it stands in a string literal. -/
structure Placed where
  octet : UInt8
  inLiteral : Bool
deriving DecidableEq, Repr

/-- Is the octet left out: a blank in a string literal? -/
def Placed.isLeftOut (x : Placed) : Bool := x.inLiteral && isLiteralBlank x.octet

/-- The octets of a file, each with its place. -/
def placed (file : SourceFile) (content : Bytes) : List Placed :=
  if file.hasExtension phpExtensions && Utf8.valid content then
    (Php.tokenize content).flatMap fun t => t.text.map (Placed.mk · t.kind.isLiteral)
  else content.map (Placed.mk · false)

def octets (places : List Placed) : Bytes := places.map Placed.octet

/-- The octets that are not left out. -/
def kept (places : List Placed) : Bytes := (places.filter fun x => !x.isLeftOut).map Placed.octet

/-- The lines, without their line feeds. -/
def rows (places : List Placed) : List (List Placed) := places.splitOnP fun x => x.octet == lf

/-- The places are those of all octets of the file. -/
theorem octets_placed (file : SourceFile) (content : Bytes) :
    octets (placed file content) = content := by
  unfold placed octets
  split
  · simp only [List.map_flatMap, List.map_map, Function.comp_def, List.map_id']
    rw [Php.tokenize, Php.flatMap_text_numberLines, Php.flatMap_text_lex Php.labelled_start]
  · simp [Function.comp_def]

/-- In a literal the blanks are left out, and elsewhere nothing is. -/
theorem kept_map (text : Bytes) (inLiteral : Bool) :
    kept (text.map (Placed.mk · inLiteral)) =
      if inLiteral then text.filter fun b => !isLiteralBlank b else text := by
  cases inLiteral <;> simp [kept, List.filter_map, Placed.isLeftOut, Function.comp_def]

/-- What is kept is the copy that the rule looks at. -/
theorem kept_placed (file : SourceFile) (content : Bytes) :
    kept (placed file content) = indentationText file content := by
  have htoken : ∀ t : Php.Token, kept (t.text.map (Placed.mk · t.kind.isLiteral)) =
      withoutLiteralBlanks t :=
    fun t => kept_map t.text t.kind.isLiteral
  unfold placed indentationText
  split
  · rw [kept, List.filter_flatMap, List.map_flatMap]
    exact List.flatMap_congr fun t _ => htoken t
  · exact kept_map content false

/-- Where no line feed is left out, the lines stay in their places. -/
theorem lines_filter {q : Placed → Bool} (hq : ∀ x : Placed, x.octet = lf → q x = true)
    (places : List Placed) :
    lines ((places.filter q).map Placed.octet) =
      (rows places).map fun row => (row.filter q).map Placed.octet := by
  induction places with
  | nil => rfl
  | cons x places ih =>
    rw [rows, List.splitOnP_cons_eq_if_modifyHead]
    by_cases hfeed : x.octet = lf
    · rw [List.filter_cons_of_pos (hq x hfeed), List.map_cons, hfeed, lines_lf, ih]
      rfl
    · -- the octet belongs to the first row, in which it is kept or not
      rw [if_neg (by simpa using hfeed)]
      obtain ⟨row, more, hrows⟩ :=
        List.exists_cons_of_ne_nil (List.splitOnP_ne_nil (fun x => x.octet == lf) places)
      rw [rows, hrows] at ih
      rw [hrows]
      cases hkept : q x with
      | true =>
        rw [List.filter_cons_of_pos hkept, List.map_cons, lines_octet hfeed, ih]
        simp [hkept]
      | false =>
        rw [List.filter_cons_of_neg (by simp [hkept]), ih]
        simp [hkept]

theorem isLeftOut_of_feed {x : Placed} (h : x.octet = lf) : (!x.isLeftOut) = true := by
  have hblank : isLiteralBlank lf = false := by decide
  rw [Placed.isLeftOut, h, hblank, Bool.and_false]
  rfl

/-- The rows are the lines of the file. -/
theorem lines_octets (places : List Placed) : lines (octets places) = (rows places).map octets := by
  have hlines := lines_filter (q := fun _ => true) (fun _ _ => rfl) places
  simp only [List.filter_true] at hlines
  exact hlines

/-- Without what is left out, the rows are the lines of the copy. -/
theorem lines_kept (places : List Placed) : lines (kept places) = (rows places).map kept :=
  lines_filter (fun _ => isLeftOut_of_feed) places

/-! ## Classes of lines -/

/-- Tabs and then a space come next, and the space is not the one before the star of a doc
comment. -/
def StartsMixed (s : Bytes) : Prop :=
  ∃ tabs rest, s = tabs ++ space :: rest ∧ (∀ b ∈ tabs, b = tab) ∧ nextIs star rest = false

/-- A line that is badly indented starts with tabs, if any, and then a space. -/
theorem isMixed_iff (line : Bytes) : isMixed line = true ↔ StartsMixed line := by
  constructor
  · intro h
    unfold isMixed at h
    split at h
    · cases h
    · next b rest hrest =>
      simp only [Bool.and_eq_true, beq_iff_eq, Bool.not_eq_true'] at h
      refine ⟨line.takeWhile (· == tab), rest, ?_, ?_, h.2⟩
      · rw [← h.1, ← hrest, List.takeWhile_append_dropWhile]
      · intro b hb
        simpa using List.mem_takeWhile_imp hb
  · rintro ⟨tabs, rest, rfl, htabs, hstar⟩
    have hdrop : (tabs ++ space :: rest).dropWhile (· == tab) = space :: rest := by
      rw [List.dropWhile_append_of_pos (by simpa using htabs)]
      rfl
    rw [isMixed, hdrop]
    simp [hstar]

/-- What is not visible. -/
def whiteSpace : Bytes := [space, tab, lf, vt, ff, cr]

theorem isVisible_iff (b : UInt8) : isVisible b = true ↔ b ∉ whiteSpace := by
  simp only [isVisible, isSpacing, isBlank, whiteSpace, Bool.not_eq_true', Bool.or_eq_false_iff,
    beq_eq_false_iff_ne, List.mem_cons, List.not_mem_nil, or_false, not_or]
  tauto

/-- Spaces and then a tab come next. -/
def TabFollows (s : Bytes) : Prop :=
  ∃ spaces rest, s = spaces ++ tab :: rest ∧ ∀ b ∈ spaces, b = space

/-- Something visible comes next, with spaces and a tab after it. -/
def StartsTabbed (s : Bytes) : Prop := ∃ b rest, s = b :: rest ∧ b ∉ whiteSpace ∧ TabFollows rest

/-- Somewhere in the line something visible has spaces and a tab after it. -/
def HasInnerTab (line : Bytes) : Prop := ∃ before back, line = before ++ back ∧ StartsTabbed back

theorem tabFollows_cons (b : UInt8) (s : Bytes) :
    TabFollows (b :: s) ↔ b = tab ∨ b = space ∧ TabFollows s := by
  constructor
  · rintro ⟨spaces, rest, hs, hspaces⟩
    cases spaces with
    | nil => exact Or.inl (List.cons.inj hs).1
    | cons c spaces =>
      obtain ⟨rfl, rfl⟩ := List.cons.inj hs
      rw [List.forall_mem_cons] at hspaces
      exact Or.inr ⟨hspaces.1, spaces, rest, rfl, hspaces.2⟩
  · rintro (rfl | ⟨rfl, spaces, rest, rfl, hspaces⟩)
    · exact ⟨[], s, rfl, by simp⟩
    · exact ⟨space :: spaces, rest, rfl, List.forall_mem_cons.mpr ⟨rfl, hspaces⟩⟩

theorem startsTabbed_cons (b : UInt8) (s : Bytes) :
    StartsTabbed (b :: s) ↔ b ∉ whiteSpace ∧ TabFollows s := by
  constructor
  · rintro ⟨c, rest, hs, hc, htab⟩
    obtain ⟨rfl, rfl⟩ := List.cons.inj hs
    exact ⟨hc, htab⟩
  · rintro ⟨hb, htab⟩
    exact ⟨b, s, rfl, hb, htab⟩

theorem hasInnerTab_cons (b : UInt8) (s : Bytes) :
    HasInnerTab (b :: s) ↔ StartsTabbed (b :: s) ∨ HasInnerTab s := by
  constructor
  · rintro ⟨before, back, hs, hback⟩
    cases before with
    | nil =>
      obtain rfl : b :: s = back := hs
      exact Or.inl hback
    | cons c before => exact Or.inr ⟨before, back, (List.cons.inj hs).2, hback⟩
  · rintro (hback | ⟨before, back, rfl, hback⟩)
    · exact ⟨[], b :: s, rfl, hback⟩
    · exact ⟨b :: before, back, rfl, hback⟩

/-- A look through the line finds the tab; `armed` says that something visible is before it. -/
theorem hasInnerTab_iff (armed : Bool) (s : Bytes) :
    hasInnerTab armed s = true ↔ armed = true ∧ TabFollows s ∨ HasInnerTab s := by
  induction s generalizing armed with
  | nil => simp [hasInnerTab, TabFollows, HasInnerTab, StartsTabbed]
  | cons b s ih =>
    rw [tabFollows_cons, hasInnerTab_cons, startsTabbed_cons, hasInnerTab]
    split_ifs with htab hspace
    · -- a tab is not visible itself
      have hwhite : tab ∈ whiteSpace := by simp [whiteSpace]
      simp [htab, ih, hwhite]
    · have hwhite : space ∈ whiteSpace := by simp [whiteSpace]
      have hne : space ≠ tab := by decide
      simp [hspace, hne, ih, hwhite]
    · simp [htab, hspace, ih, isVisible_iff]

/-! ## Lines and places -/

/-- A line starts after this text. -/
def AtLineStart (s : Bytes) : Prop := s = [] ∨ s.getLast? = some lf

/-- A line ends before this text. -/
def AtLineEnd (s : Bytes) : Prop := s = [] ∨ ∃ rest, s = lf :: rest

theorem atLineStart_cons {b : UInt8} {s : Bytes} (h : AtLineStart (b :: s)) : AtLineStart s := by
  rcases h with hnil | hlast
  · cases hnil
  · cases s with
    | nil => exact Or.inl rfl
    | cons c s => exact Or.inr (by simpa [List.getLast?_cons_cons] using hlast)

theorem AtLineStart.cons {b : UInt8} {s : Bytes} (h : AtLineStart s) (hb : b = lf ∨ s ≠ []) :
    AtLineStart (b :: s) := by
  rcases h with rfl | hlast
  · exact Or.inr (by rw [hb.resolve_right (by simp)]; rfl)
  · exact Or.inr (by rw [List.getLast?_cons, hlast]; rfl)

theorem AtLineStart.eq_nil {s : Bytes} (h : AtLineStart s) (hs : lineBreaks s = 0) : s = [] := by
  refine h.resolve_right fun hlast => ?_
  exact List.count_eq_zero.mp hs (List.mem_of_getLast? hlast)

/-- The line through a place: its number is that of the line feeds before the place. -/
theorem lines_append (s t : Bytes) :
    ∃ before last after, lines (s ++ t) = before ++ (last ++ Php.firstLine t) :: after ∧
      before.length = lineBreaks s ∧ (AtLineStart s → last = []) := by
  induction s with
  | nil =>
    obtain ⟨more, hmore⟩ := Php.lines_eq_firstLine t
    exact ⟨[], [], more, hmore, rfl, fun _ => rfl⟩
  | cons b s ih =>
    obtain ⟨before, last, after, hlines, hlength, hstart⟩ := ih
    by_cases hb : b = lf
    · subst hb
      refine ⟨[] :: before, last, after, ?_, ?_, fun h => hstart (atLineStart_cons h)⟩
      · rw [List.cons_append, lines_lf, hlines, List.cons_append]
      · rw [List.length_cons, hlength, lineBreaks, lineBreaks, List.count_cons_self]
    · have hbreaks : lineBreaks (b :: s) = lineBreaks s := List.count_cons_of_ne hb
      rw [hbreaks, List.cons_append, lines_octet hb, hlines]
      cases before with
      | nil =>
        -- there is no line feed before the place, so a line starts neither before nor after the
        -- octet
        refine ⟨[], b :: last, after, rfl, hlength, fun h => ?_⟩
        rcases h with hnil | hfeed
        · cases hnil
        · have hmem : lf ∈ b :: s := List.mem_of_getLast? hfeed
          have hpos : 0 < lineBreaks (b :: s) := List.count_pos_iff.mpr hmem
          rw [hbreaks, ← hlength] at hpos
          cases hpos
      | cons line before =>
        exact ⟨(b :: line) :: before, last, after, rfl, hlength,
          fun h => hstart (atLineStart_cons h)⟩

/-- The place of a line: as many line feeds are before it as there are lines. -/
theorem exists_place_of_lines {s line : Bytes} {before after : List Bytes}
    (h : lines s = before ++ line :: after) :
    ∃ front back, s = front ++ (line ++ back) ∧ lineBreaks front = before.length ∧
      AtLineStart front ∧
      AtLineEnd back ∧ lf ∉ line := by
  induction s generalizing before line with
  | nil =>
    cases before with
    | nil =>
      obtain ⟨rfl, -⟩ := List.cons.inj h
      exact ⟨[], [], rfl, rfl, Or.inl rfl, Or.inl rfl, List.not_mem_nil⟩
    | cons first before => exact absurd (List.cons.inj h).2 (by simp)
  | cons b s ih =>
    by_cases hb : b = lf
    · subst hb
      rw [lines_lf] at h
      cases before with
      | nil =>
        obtain ⟨rfl, -⟩ := List.cons.inj h
        exact ⟨[], lf :: s, rfl, rfl, Or.inl rfl, Or.inr ⟨s, rfl⟩, List.not_mem_nil⟩
      | cons first before =>
        obtain ⟨front, back, rfl, hbreaks, hstart, hend, hline⟩ := ih (List.cons.inj h).2
        refine ⟨lf :: front, back, rfl, ?_, hstart.cons (Or.inl rfl), hend, hline⟩
        rw [lineBreaks, List.count_cons_self, List.length_cons, ← hbreaks, lineBreaks]
    · obtain ⟨first, more, hlines⟩ := List.exists_cons_of_ne_nil (lines_ne_nil s)
      rw [lines_octet hb, hlines] at h
      cases before with
      | nil =>
        -- the octet starts the line
        obtain ⟨rfl, rfl⟩ := List.cons.inj h
        obtain ⟨front, back, hs, hbreaks, hstart, hend, hline⟩ :=
          ih (show lines s = [] ++ first :: more from hlines)
        obtain rfl := hstart.eq_nil hbreaks
        refine ⟨[], back, by rw [hs]; rfl, rfl, Or.inl rfl, hend, ?_⟩
        rw [List.mem_cons, not_or]
        exact ⟨Ne.symm hb, hline⟩
      | cons first' before =>
        obtain ⟨-, rfl⟩ := List.cons.inj h
        obtain ⟨front, back, rfl, hbreaks, hstart, hend, hline⟩ :=
          ih (show lines s = (first :: before) ++ line :: after from hlines)
        have hfront : front ≠ [] := by
          rintro rfl
          cases hbreaks
        refine ⟨b :: front, back, rfl, ?_, hstart.cons (Or.inr hfront), hend, hline⟩
        rw [lineBreaks, List.count_cons_of_ne hb, List.length_cons,
          ← List.length_cons (a := first), ← hbreaks, lineBreaks]

/-! ## The first line and the leftmost place -/

/-- The findings tell the first line of the class, if there is one. -/
def TellsFirst (P : Bytes → Prop) (message : String) (lines : List Bytes)
    (found : List Diagnostic) : Prop :=
  (∃ before line after, lines = before ++ line :: after ∧ P line ∧
    (∀ earlier ∈ before, ¬ P earlier) ∧
      found = [.error message (some (before.length + 1))]) ∨
    (∀ line ∈ lines, ¬ P line) ∧ found = []

/-- The first line of a class is told, if the lines of the class can be told apart. -/
theorem tellsFirst_firstLineError {p : Bytes → Bool} {P : Bytes → Prop}
    (hp : ∀ line, p line = true ↔ P line) (message : String) (text : Bytes) :
    TellsFirst P message (lines text) (firstLineError p message text) := by
  unfold firstLineError
  split
  · next i hfound =>
    obtain ⟨hi, hline, hearlier⟩ := List.findIdx?_eq_some_iff_getElem.mp hfound
    refine Or.inl
      ⟨(lines text).take i, (lines text)[i], (lines text).drop (i + 1), ?_, (hp _).mp hline, ?_, ?_⟩
    · rw [← List.drop_eq_getElem_cons hi, List.take_append_drop]
    · intro earlier hmem
      obtain ⟨j, hj, rfl⟩ := List.mem_take_iff_getElem.mp hmem
      rw [← hp]
      exact hearlier j (by omega)
    · rw [List.length_take_of_le hi.le]
  · next hnone =>
    rw [List.findIdx?_eq_none_iff] at hnone
    refine Or.inr ⟨fun line hmem => ?_, rfl⟩
    rw [← hp, hnone line hmem]
    simp

/-- The place in a text that comes first of those at which `M` holds; `M` is about the text before a
place and the text after it. -/
def Leftmost (M : Bytes → Bytes → Prop) (s before : Bytes) : Prop :=
  (∃ after, s = before ++ after ∧ M before after) ∧
    ∀ front back, s = front ++ back → M front back → before.length ≤ front.length

/-- The findings tell the line of the leftmost place, if there is one. -/
def TellsLeftmost (M : Bytes → Bytes → Prop) (message : String) (s : Bytes)
    (found : List Diagnostic) : Prop :=
  (∃ before, Leftmost M s before ∧ found = [.error message (some (lineBreaks before + 1))]) ∨
    (∀ front back, s = front ++ back → ¬ M front back) ∧ found = []

/-- If there is a place, there is a leftmost one. -/
theorem exists_leftmost {M : Bytes → Bytes → Prop} {s front back : Bytes} (hs : s = front ++ back)
    (h : M front back) :
    ∃ before, Leftmost M s before := by
  induction hlength : front.length using Nat.strong_induction_on generalizing front back with
  | _ n ih =>
    by_cases hshorter : ∃ front' back', s = front' ++ back' ∧ M front' back' ∧ front'.length < n
    · obtain ⟨front', back', hs', h', hlt⟩ := hshorter
      exact ih _ hlt hs' h' rfl
    · refine ⟨front, ⟨back, hs, h⟩, ?_⟩
      intro front' back' hs' h'
      by_contra hlt
      exact hshorter ⟨front', back', hs', h', by omega⟩

/-- The lines of the class are those with a place at which `M` holds. -/
structure MarksLines (M : Bytes → Bytes → Prop) (P : Bytes → Prop) : Prop where
  line_of_place : ∀ {front back last : Bytes}, M front back → (AtLineStart front → last = []) →
    P (last ++ Php.firstLine back)
  place_of_line : ∀ {front line back : Bytes}, AtLineStart front → AtLineEnd back → P line →
    ∃ start rest, line = start ++ rest ∧ M (front ++ start) (rest ++ back)

/-- The first line of the class is the line of the leftmost place. -/
theorem MarksLines.tellsLeftmost {M : Bytes → Bytes → Prop} {P : Bytes → Prop}
    {message : String} {s : Bytes} {found : List Diagnostic} (hM : MarksLines M P)
    (h : TellsFirst P message (lines s) found) :
    TellsLeftmost M message s found := by
  rcases h with ⟨before, line, after, hlines, hline, hearlier, rfl⟩ | ⟨hnone, rfl⟩
  · obtain ⟨front, back, hs, hbreaks, hstart, hend, hfeed⟩ := exists_place_of_lines hlines
    obtain ⟨start, rest, rfl, hplace⟩ := hM.place_of_line hstart hend hline
    have hparts : s = (front ++ start) ++ (rest ++ back) := by simpa using hs
    obtain ⟨first, hfirst⟩ := exists_leftmost hparts hplace
    obtain ⟨more, hmore, hM'⟩ := hfirst.1
    -- the leftmost place is not after the one on this line, nor on an earlier line
    have hle : lineBreaks first ≤ before.length := by
      have hprefix : first <+: front ++ start :=
        List.prefix_of_prefix_length_le ⟨more, hmore.symm⟩ ⟨_, hparts.symm⟩
          (hfirst.2 _ _ hparts hplace)
      have hcount := hprefix.sublist.count_le lf
      have hnone : start.count lf = 0 :=
        List.count_eq_zero.mpr fun hmem => hfeed (List.mem_append_left _ hmem)
      rw [List.count_append, hnone, Nat.add_zero] at hcount
      exact hcount.trans hbreaks.le
    have hge : before.length ≤ lineBreaks first := by
      by_contra hlt
      obtain ⟨before', last, after', hlines', hlength, hlast⟩ := lines_append first more
      rw [← hmore, hlines] at hlines'
      have hget := congrArg (·[before'.length]?) hlines'
      simp only [List.getElem?_append_right, Nat.le_refl, Nat.sub_self,
        List.getElem?_cons_zero] at hget
      rw [List.getElem?_append_left (by omega)] at hget
      exact hearlier _ (List.mem_of_getElem? hget) (hM.line_of_place hM' hlast)
    exact Or.inl ⟨first, hfirst, by rw [Nat.le_antisymm hle hge]⟩
  · refine Or.inr ⟨fun front back hs hplace => ?_, rfl⟩
    obtain ⟨before, last, after, hlines, -, hlast⟩ := lines_append front back
    rw [← hs] at hlines
    exact hnone _ (by rw [hlines]; simp) (hM.line_of_place hplace hlast)

/-! ## Where the two classes are found -/

theorem firstLine_append_of_not_mem {s : Bytes} (hs : lf ∉ s) (t : Bytes) :
    Php.firstLine (s ++ t) = s ++ Php.firstLine t := by
  refine List.takeWhile_append_of_pos fun b hb => ?_
  rw [bne_iff_ne]
  rintro rfl
  exact hs hb

/-- What does not come next on all of the text does not come next on its first line. -/
theorem nextIs_firstLine {b : UInt8} {s : Bytes} (h : nextIs b s = false) :
    nextIs b (Php.firstLine s) = false := by
  cases s with
  | nil => rfl
  | cons c s =>
    rw [Php.firstLine, List.takeWhile_cons]
    split
    · exact h
    · rfl

/-- An octet that does not come next does not come next either if a line feed is put after the text.
-/
theorem nextIs_append_lineEnd {b : UInt8} {s back : Bytes} (hb : b ≠ lf) (hback : AtLineEnd back)
    (h : nextIs b s = false) : nextIs b (s ++ back) = false := by
  cases s with
  | cons c s => exact h
  | nil =>
    rcases hback with rfl | ⟨rest, rfl⟩
    · rfl
    · simpa [nextIs] using Ne.symm hb

/-- A line starts here, and it is mixed. -/
def MixedAt (front back : Bytes) : Prop := AtLineStart front ∧ StartsMixed back

/-- Lines that start with tabs and a space are found by the place where they start. -/
theorem marksLines_mixed : MarksLines MixedAt StartsMixed where
  line_of_place := by
    rintro front back last ⟨hstart, tabs, rest, rfl, htabs, hstar⟩ hlast
    -- the tabs and the space are on one line
    have hfeed : lf ∉ tabs ++ [space] := by
      have hspace : lf ≠ space := by decide
      have htab : lf ≠ tab := by decide
      simpa [hspace] using fun hmem => htab (htabs lf hmem)
    rw [hlast hstart, List.nil_append, List.append_cons, firstLine_append_of_not_mem hfeed,
      ← List.append_cons]
    exact ⟨tabs, Php.firstLine rest, rfl, htabs, nextIs_firstLine hstar⟩
  place_of_line := by
    rintro front _ back hstart hend ⟨tabs, rest, rfl, htabs, hstar⟩
    refine ⟨[], _, rfl, by rwa [List.append_nil], tabs, rest ++ back, by simp, htabs, ?_⟩
    exact nextIs_append_lineEnd (by decide) hend hstar

/-- Something visible with spaces and a tab after it is here. -/
def TabbedAt (_front back : Bytes) : Prop := StartsTabbed back

/-- Spaces and a tab after them are on one line. -/
theorem TabFollows.firstLine {s : Bytes} (h : TabFollows s) : TabFollows (Php.firstLine s) := by
  obtain ⟨spaces, rest, rfl, hspaces⟩ := h
  have hfeed : lf ∉ spaces ++ [tab] := by
    have hspace : lf ≠ space := by decide
    have htab : lf ≠ tab := by decide
    simpa [htab] using fun hmem => hspace (hspaces lf hmem)
  rw [List.append_cons, firstLine_append_of_not_mem hfeed, ← List.append_cons]
  exact ⟨spaces, Php.firstLine rest, rfl, hspaces⟩

/-- Lines with a tab after something visible are found by the place of what is visible. -/
theorem marksLines_tabbed : MarksLines TabbedAt HasInnerTab where
  line_of_place := by
    rintro front _ last ⟨b, rest, rfl, hb, htab⟩ -
    have hfeed : lf ∉ [b] := by
      rintro hmem
      exact hb (List.mem_singleton.mp hmem ▸ by simp [whiteSpace])
    refine ⟨last, Php.firstLine (b :: rest), rfl, b, Php.firstLine rest, ?_, hb, htab.firstLine⟩
    exact firstLine_append_of_not_mem hfeed rest
  place_of_line := by
    rintro front _ back - - ⟨start, _, rfl, b, rest, rfl, hb, spaces, rest', rfl, hspaces⟩
    exact ⟨start, _, rfl, b, _, rfl, hb, spaces, rest' ++ back, by simp, hspaces⟩

/-! ## What the rule tells -/

/-- The findings about lines that are badly indented. -/
def mixedErrors (text : Bytes) : List Diagnostic :=
  firstLineError isMixed "mixed tabs and spaces indentation" text

/-- The findings about tabs inside of lines. -/
def tabErrors (text : Bytes) : List Diagnostic :=
  firstLineError (hasInnerTab false) "tabulator found" text

theorem tellsFirst_mixedErrors (text : Bytes) :
    TellsFirst StartsMixed "mixed tabs and spaces indentation" (lines text) (mixedErrors text) :=
  tellsFirst_firstLineError isMixed_iff _ text

theorem tellsFirst_tabErrors (text : Bytes) :
    TellsFirst HasInnerTab "tabulator found" (lines text) (tabErrors text) := by
  refine tellsFirst_firstLineError (fun line => ?_) _ text
  rw [hasInnerTab_iff]
  simp

/-- In a file with a tab the rule tells both classes of lines. -/
theorem indentation_run_of_tab {extensions : List String} {file : SourceFile} {content : Bytes}
    (hfile : file.hasExtension extensions = true) (htab : tab ∈ content) :
    (indentation extensions).run file content =
      .found
        (mixedErrors (kept (placed file content)) ++ tabErrors (kept (placed file content))) := by
  rw [kept_placed]
  refine if_pos ?_
  rw [hfile, Bool.true_and]
  simpa using htab

/-- In a file without a tab it tells nothing, whatever the lines start with. -/
theorem indentation_run_of_no_tab (extensions : List String) (file : SourceFile) {content : Bytes}
    (htab : tab ∉ content) : (indentation extensions).run file content = .none := by
  refine if_neg ?_
  simp [htab]

/-- The copy that the rule looks at has the lines of the file, each without the blanks in string
literals. The rule tells the first line of the copy that starts with tabs and a space, but for the
space before the star of a doc comment, and the first one on which something visible has a tab after
it. These are the lines of the leftmost places of each kind. It tells nothing else and changes
nothing. -/
theorem indentation_tells_first_lines {extensions : List String} {file : SourceFile}
    {content : Bytes} (hfile : file.hasExtension extensions = true) (htab : tab ∈ content) :
    octets (placed file content) = content ∧
      lines content = (rows (placed file content)).map octets ∧
      lines (kept (placed file content)) = (rows (placed file content)).map kept ∧
      ∃ mixed tabbed, (indentation extensions).run file content = .found (mixed ++ tabbed) ∧
        TellsFirst StartsMixed "mixed tabs and spaces indentation"
          (lines (kept (placed file content))) mixed ∧
        TellsFirst HasInnerTab "tabulator found" (lines (kept (placed file content))) tabbed ∧
        TellsLeftmost MixedAt "mixed tabs and spaces indentation"
          (kept (placed file content)) mixed ∧
        TellsLeftmost TabbedAt "tabulator found" (kept (placed file content)) tabbed := by
  have hlines : lines content = (rows (placed file content)).map octets := by
    rw [← lines_octets, octets_placed]
  have hmixed := tellsFirst_mixedErrors (kept (placed file content))
  have htabbed := tellsFirst_tabErrors (kept (placed file content))
  exact ⟨octets_placed file content, hlines, lines_kept _, _, _, indentation_run_of_tab hfile htab,
    hmixed, htabbed, marksLines_mixed.tellsLeftmost hmixed, marksLines_tabbed.tellsLeftmost htabbed⟩

/-- A literal with blanks in it that goes over a line break, and after it a line with a bad
indentation and one with a tab inside. -/
def mixedPhp : Bytes := ascii "<?php\n'a\n\t b';\n\t c;\nd\t;\n"

/-- The line that starts in the literal is not told. -/
theorem indentation_tells_first_lines_mixedPhp :
    (indentation ["php"]).run (.ofPath "a.php") mixedPhp =
        .found [.error "mixed tabs and spaces indentation" (some 4),
          .error "tabulator found" (some 5)] ∧
      lines (kept (placed (.ofPath "a.php") mixedPhp)) =
        [ascii "<?php", ascii "'a", ascii "b';", ascii "\t c;", ascii "d\t;", []] ∧
      lines mixedPhp = (rows (placed (.ofPath "a.php") mixedPhp)).map octets :=
  ⟨by decide +kernel, by decide +kernel,
    (@indentation_tells_first_lines ["php"] _ _ (by decide +kernel) (by decide +kernel)).2.1⟩

end SourceTidy.Rule
