import SourceTidy.Proofs.Whitespace

/-! # Places in a stripped text

Where a scanner finds something in a text, it finds it in the stripped text too, as long as it looks
for something that is no white space. The place is then given by what is left of the text before it.

* `stripLines_append_text`: parts of a text are stripped apart, if the second one starts with text;
* `Strips.cons`: how a place moves when one more octet comes before it;
* `indexOf?_stripLines`: what is searched for is found in the same place;
* `Beyond`: what lies after a place, and on which line it starts, is the same apart from the
  stripping;
* `indexOf?_append`: what is found in a text is found in a longer one too.
-/

namespace SourceTidy

open Ascii Bytes

variable {s t p : Bytes} {b : UInt8}

theorem take_length_takeWhile {α : Type} (p : α → Bool) (s : List α) :
    s.take (s.takeWhile p).length = s.takeWhile p :=
  (List.prefix_iff_eq_take.mp (List.takeWhile_prefix p)).symm

theorem drop_length_takeWhile {α : Type} (p : α → Bool) (s : List α) :
    s.drop (s.takeWhile p).length = s.dropWhile p := by
  have hparts :
      s.takeWhile p ++ s.dropWhile p = s.takeWhile p ++ s.drop (s.takeWhile p).length := by
    rw [List.takeWhile_append_dropWhile, List.prefix_iff_eq_append.mp (List.takeWhile_prefix p)]
  exact (List.append_cancel_left hparts).symm

/-- The first octet of the text is no white space. -/
def StartsInText (s : Bytes) : Prop := ∃ b rest, s = b :: rest ∧ isSpacing b = false

/-- The members of a list that is written out can be checked one after the other. -/
theorem none_of_any {α : Type} {p : α → Bool} {l : List α} (h : l.any p = false) :
    ∀ a ∈ l, p a = false := by
  simpa using h

/-- Something to look for: there is text in it, and no white space. -/
structure IsWord (p : Bytes) : Prop where
  ne_nil : p ≠ []
  text : ∀ b ∈ p, isSpacing b = false

/-- A text that starts with a word starts in text. -/
theorem IsWord.startsInText (hp : IsWord p) (h : p <+: s) : StartsInText s := by
  obtain ⟨b, p', rfl⟩ := List.exists_cons_of_ne_nil hp.ne_nil
  obtain ⟨rest, rfl⟩ := h
  exact ⟨b, p' ++ rest, rfl, hp.text b List.mem_cons_self⟩

/-! ## Stripping from the front -/

/-- A blank is left out if the line ends after it. -/
def isStripped (b : UInt8) (s : Bytes) : Bool := isBlank b && (stripped s).endsLine

/-- One octet is left out or kept, and the rest is stripped by itself. -/
theorem stripLines_cons (b : UInt8) (s : Bytes) :
    stripLines (b :: s) = if isStripped b s then stripLines s else b :: stripLines s := by
  cases hb : isBlank b with
  | true => simp [stripLines_blank s hb, isStripped, hb]
  | false => simp [stripLines_not_blank s hb, isStripped, hb]

/-- Text stays, and what comes after it is stripped. -/
theorem stripLines_text_append (hp : ∀ b ∈ p, isSpacing b = false) (s : Bytes) :
    stripLines (p ++ s) = p ++ stripLines s := by
  induction p with
  | nil => rfl
  | cons b p ih =>
    rw [List.forall_mem_cons] at hp
    rw [List.cons_append, stripLines_not_blank _ (isBlank_of_not_isSpacing hp.1), ih hp.2,
      List.cons_append]

/-- A text of which blanks at the start would be stripped starts with a line break. -/
theorem exists_break_of_endsLine (h : (stripped s).endsLine = true) :
    ∃ b rest, stripLines s = b :: rest ∧ isBreak b = true := by
  induction s with
  | nil => cases h
  | cons b s ih =>
    cases hb : isBlank b with
    | true =>
      rw [stripped_blank s hb] at h
      rw [stripLines_blank s hb, if_pos h]
      exact ih h
    | false =>
      rw [stripped_not_blank s hb] at h
      refine ⟨b, stripLines s, stripLines_not_blank s hb, ?_⟩
      simp only [Bool.or_eq_true, Bool.and_eq_true, beq_iff_eq] at h
      rw [isBreak_iff]
      rcases h with h | h
      · exact Or.inr h
      · exact Or.inl h.1

/-- The first octet stays as it is, or is a blank before a line break that is first after it. -/
theorem stripLines_head (s : Bytes) :
    (stripLines s).head? = s.head? ∨
      ∃ b c, s.head? = some b ∧ isBlank b = true ∧ (stripLines s).head? = some c ∧
        isBreak c = true := by
  cases s with
  | nil => exact Or.inl rfl
  | cons b s =>
    rw [stripLines_cons]
    split
    · next hstripped =>
      rw [isStripped, Bool.and_eq_true] at hstripped
      obtain ⟨c, rest, hrest, hc⟩ := exists_break_of_endsLine hstripped.2
      exact Or.inr ⟨b, c, rfl, hstripped.1, by rw [hrest]; rfl, hc⟩
    · exact Or.inl rfl

/-- Classes that do not tell white space apart do not tell a text from the stripped one. -/
theorem nextIn_stripLines {class' : UInt8 → Bool} {v : Bool}
    (h : ∀ b, isSpacing b = true → class' b = v) (s : Bytes) :
    nextIn class' (stripLines s) = nextIn class' s := by
  rcases stripLines_head s with hhead | ⟨b, c, hb, hblank, hc, hbreak⟩
  · rw [nextIn, nextIn, hhead]
  · rw [nextIn, nextIn, hb, hc, Option.any_some, Option.any_some, h b (isSpacing_of_isBlank hblank),
      h c (isSpacing_of_isBreak hbreak)]

theorem nextIs_eq_nextIn (b : UInt8) (s : Bytes) : nextIs b s = nextIn (· == b) s := by
  cases s <;> rfl

theorem exists_of_nextIs {b : UInt8} {s : Bytes} (h : nextIs b s = true) :
    ∃ rest, s = b :: rest := by
  rw [nextIs, beq_iff_eq] at h
  exact List.head?_eq_some_iff.mp h

/-- A text of blanks is not stripped away, as no line ends in it. -/
theorem isEmpty_stripLines (s : Bytes) : (stripLines s).isEmpty = s.isEmpty := by
  rw [Bool.eq_iff_iff, List.isEmpty_iff, List.isEmpty_iff]
  rcases stripLines_head s with hhead | ⟨b, c, hb, -, hc, -⟩
  · rw [← List.head?_eq_none_iff, hhead, List.head?_eq_none_iff]
  · rw [← List.head?_eq_none_iff, ← List.head?_eq_none_iff, hb, hc]
    simp

section

variable {blanks : Bytes}

/-- Blanks are passed over by the question whether the line ends. -/
theorem endsLine_blanks_append (hblanks : ∀ b ∈ blanks, isBlank b = true) (s : Bytes) :
    (stripped (blanks ++ s)).endsLine = (stripped s).endsLine := by
  induction blanks with
  | nil => rfl
  | cons b blanks ih =>
    rw [List.forall_mem_cons] at hblanks
    rw [List.cons_append, stripped_blank _ hblanks.1]
    exact ih hblanks.2

/-- Blanks at the start stay together or go together. -/
theorem stripLines_blanks_append (hblanks : ∀ b ∈ blanks, isBlank b = true) (s : Bytes) :
    stripLines (blanks ++ s) =
      if (stripped s).endsLine then stripLines s else blanks ++ stripLines s := by
  induction blanks with
  | nil => simp
  | cons b blanks ih =>
    rw [List.forall_mem_cons] at hblanks
    rw [List.cons_append, stripLines_blank _ hblanks.1, endsLine_blanks_append hblanks.2,
      ih hblanks.2]
    split <;> rfl

end

/-- Text at the start of a stripped text was there before. -/
theorem prefix_stripLines_iff (hp : ∀ b ∈ p, isSpacing b = false) :
    p <+: stripLines s ↔ p <+: s := by
  induction p generalizing s with
  | nil => simp
  | cons b p ih =>
    rw [List.forall_mem_cons] at hp
    cases s with
    | nil => simp
    | cons c s =>
      rw [stripLines_cons]
      split
      · next hstripped =>
        -- neither the blank nor the line break is text
        rw [isStripped, Bool.and_eq_true] at hstripped
        obtain ⟨d, rest, hrest, hd⟩ := exists_break_of_endsLine hstripped.2
        rw [hrest, List.cons_prefix_cons, List.cons_prefix_cons]
        constructor
        · rintro ⟨rfl, -⟩
          rw [isSpacing_of_isBreak hd] at hp
          cases hp.1
        · rintro ⟨rfl, -⟩
          rw [isSpacing_of_isBlank hstripped.1] at hp
          cases hp.1
      · rw [List.cons_prefix_cons, List.cons_prefix_cons, ih hp.2]

/-- No line break is left out. -/
theorem lineBreaks_stripLines (s : Bytes) : lineBreaks (stripLines s) = lineBreaks s := by
  induction s with
  | nil => rfl
  | cons b s ih =>
    rw [lineBreaks, lineBreaks, stripLines_cons]
    split
    · next hstripped =>
      have hlf : b ≠ lf := by
        rintro rfl
        simp [isStripped, show isBlank lf = false by decide] at hstripped
      rw [List.count_cons_of_ne hlf]
      exact ih
    · rw [List.count_cons, List.count_cons]
      exact congrArg (· + _) ih

theorem exists_of_startsWithFeed (h : (stripped s).startsWithFeed = true) :
    ∃ rest, s = lf :: rest := by
  cases s with
  | nil => cases h
  | cons b s =>
    cases hb : isBlank b with
    | true =>
      rw [stripped_blank s hb] at h
      cases h
    | false =>
      rw [stripped_not_blank s hb] at h
      exact ⟨s, by rw [beq_iff_eq.mp h]⟩

/-- A text of one line has nothing to strip. -/
theorem stripLines_of_one_line (h : lf ∉ s) : stripLines s = s ∧ (stripped s).endsLine = false := by
  induction s with
  | nil => exact ⟨rfl, rfl⟩
  | cons b s ih =>
    have hb : b ≠ lf := (List.ne_of_not_mem_cons h).symm
    have hs : lf ∉ s := List.not_mem_of_not_mem_cons h
    obtain ⟨htext, hends⟩ := ih hs
    have hfeed : (stripped s).startsWithFeed = false := by
      rw [Bool.eq_false_iff]
      intro hfeed
      obtain ⟨rest, rfl⟩ := exists_of_startsWithFeed hfeed
      exact hs List.mem_cons_self
    rw [stripLines_cons, isStripped, hends, Bool.and_false, htext]
    refine ⟨rfl, ?_⟩
    cases hblank : isBlank b with
    | true => rw [stripped_blank s hblank, hends]
    | false => simp [stripped_not_blank s hblank, hfeed, hb]

/-- A text and the stripped text. -/
def Stripping (s t : Bytes) : Prop := t = stripLines s

/-- A stripped text goes on with the next octet of the text, unless that is a blank that goes. -/
theorem stripping_cases (s : Bytes) :
    s = [] ∨ (∃ b rest, s = b :: rest ∧ isBlank b = true ∧ stripLines s = stripLines rest) ∨
      ∃ b rest, s = b :: rest ∧ stripLines s = b :: stripLines rest := by
  cases s with
  | nil => exact Or.inl rfl
  | cons b rest =>
    right
    by_cases hstripped : isStripped b rest = true
    · refine Or.inl ⟨b, rest, rfl, ?_, by rw [stripLines_cons, if_pos hstripped]⟩
      rw [isStripped, Bool.and_eq_true] at hstripped
      exact hstripped.1
    · exact Or.inr ⟨b, rest, rfl, by rw [stripLines_cons, if_neg hstripped]⟩

/-! ## Parts of a text -/

/-- Before text, the machine behind `stripLines` is as it is at the end. -/
theorem stripped_append_text (s : Bytes) (ht : StartsInText t) :
    stripped (s ++ t) = { stripped s with text := stripLines s ++ stripLines t } := by
  induction s with
  | nil =>
    obtain ⟨b, rest, rfl, hb⟩ := ht
    simp only [isSpacing, Bool.or_eq_false_iff, beq_eq_false_iff_ne] at hb
    rw [List.nil_append, stripped_octet rest hb.1.1 hb.1.2 hb.2, stripLines_eq (b :: rest),
      stripped_octet rest hb.1.1 hb.1.2 hb.2]
    rfl
  | cons b s ih =>
    rw [List.cons_append, stripped_cons, ih, stripLines_eq s, Stripped.cons_append,
      stripLines_eq (b :: s), stripped_cons]

/-- Parts are stripped apart if the second one starts in text. -/
theorem stripLines_append_text (s : Bytes) (ht : StartsInText t) :
    stripLines (s ++ t) = stripLines s ++ stripLines t := by
  rw [stripLines_eq, stripped_append_text s ht]

theorem isStripped_append_text (b : UInt8) (s : Bytes) (ht : StartsInText t) :
    isStripped b (s ++ t) = isStripped b s := by
  rw [isStripped, isStripped, stripped_append_text s ht]

/-- Where a place in a text is after the text has been stripped. -/
def strippedOffset (s : Bytes) (n : Nat) : Nat := (stripLines (s.take n)).length

/-- The place moves on by one with each octet that is kept. -/
theorem strippedOffset_cons (b : UInt8) {s : Bytes} {n : Nat} (h : StartsInText (s.drop n)) :
    strippedOffset (b :: s) (n + 1) =
      if isStripped b s then strippedOffset s n else strippedOffset s n + 1 := by
  have hsame : isStripped b (s.take n) = isStripped b s := by
    rw [← isStripped_append_text b _ h, List.take_append_drop]
  rw [strippedOffset, List.take_succ_cons, stripLines_cons, hsame]
  split <;> rfl

/-- A search in a text and one in the stripped text find the same, and what they find is `p`. -/
structure Strips (p s : Bytes) (found found' : Option Nat) : Prop where
  moved : found' = found.map (strippedOffset s)
  there : ∀ n, found = some n → p <+: s.drop n

theorem strips_none (p s : Bytes) : Strips p s none none := ⟨rfl, by simp⟩

theorem strips_zero (h : p <+: s) : Strips p s (some 0) (some 0) := by
  refine ⟨rfl, ?_⟩
  rintro n ⟨⟩
  exact h

namespace Strips

variable {found found' : Option Nat}

/-- Both searches find something, or neither does. -/
theorem eq_none_or_eq_some (h : Strips p s found found') :
    (found = none ∧ found' = none) ∨
      ∃ n n', found = some n ∧ found' = some n' ∧ Strips p s (some n) (some n') := by
  cases found with
  | none => exact Or.inl ⟨rfl, h.moved⟩
  | some n =>
    have hmoved := h.moved
    rw [Option.map_some] at hmoved
    exact Or.inr ⟨n, strippedOffset s n, rfl, hmoved, hmoved ▸ h⟩

/-- What is found lies within the text. -/
theorem add_length_le {n : Nat} (hp : IsWord p) (h : Strips p s found found')
    (hn : found = some n) :
    n + p.length ≤ s.length := by
  have hpos := List.length_pos_of_ne_nil hp.ne_nil
  have hle := (h.there n hn).length_le
  rw [List.length_drop] at hle
  omega

/-- One more octet before what is found. -/
theorem cons (hp : IsWord p) (h : Strips p s found found') (b : UInt8) :
    Strips p (b :: s) (found.map (· + 1))
      (if isStripped b s then found' else found'.map (· + 1)) := by
  cases found with
  | none =>
    obtain rfl : found' = none := h.moved
    simpa using strips_none p (b :: s)
  | some n =>
    have hthere := h.there n rfl
    obtain rfl : found' = some (strippedOffset s n) := h.moved
    refine ⟨?_, ?_⟩
    · rw [Option.map_some, Option.map_some, Option.map_some,
        strippedOffset_cons b (hp.startsInText hthere)]
      split <;> rfl
    · rintro m ⟨⟩
      exact hthere

/-- An octet that is no blank is kept, so both places move on by one. -/
theorem cons_text (hp : IsWord p) (h : Strips p s found found') (hb : isBlank b = false) :
    Strips p (b :: s) (found.map (· + 1)) (found'.map (· + 1)) := by
  have hcons := h.cons hp b
  rwa [isStripped, hb, Bool.false_and, if_neg Bool.false_ne_true] at hcons

/-- A search that passes over the octet, if it is not stripped. -/
theorem pass {search : Bytes → Option Nat} (hp : IsWord p)
    (h : Strips p s found (search (stripLines s)))
    (hpass : isStripped b s = false →
      search (b :: stripLines s) = (search (stripLines s)).map (· + 1)) :
    Strips p (b :: s) (found.map (· + 1)) (search (stripLines (b :: s))) := by
  have hcons := h.cons hp b
  rw [stripLines_cons]
  cases hstripped : isStripped b s with
  | true =>
    rw [hstripped, if_pos rfl] at hcons
    exact hcons
  | false =>
    rw [hstripped, if_neg Bool.false_ne_true] at hcons
    rw [if_neg Bool.false_ne_true, hpass hstripped]
    exact hcons

end Strips

/-- Text is found where it was before. -/
theorem indexOf?_stripLines (hp : IsWord p) (s : Bytes) :
    Strips p s (indexOf? p s) (indexOf? p (stripLines s)) := by
  induction s with
  | nil =>
    rw [stripLines_nil, indexOf?, if_neg (by simpa using hp.ne_nil)]
    exact strips_none p []
  | cons b s ih =>
    have hstarts : p <+: stripLines (b :: s) ↔ p <+: b :: s := prefix_stripLines_iff hp.text
    -- the word starts here in both texts or in neither of them
    by_cases hprefix : p <+: b :: s
    · have hagain := hstarts.mpr hprefix
      have hzero : indexOf? p (stripLines (b :: s)) = some 0 := by
        cases hs : stripLines (b :: s) with
        | nil => simp [hs, hp.ne_nil] at hagain
        | cons c rest => rw [indexOf?, if_pos (List.isPrefixOf_iff_prefix.mpr (hs ▸ hagain))]
      rw [hzero, indexOf?, if_pos (List.isPrefixOf_iff_prefix.mpr hprefix)]
      exact strips_zero hprefix
    · have hagain := hstarts.not.mpr hprefix
      rw [indexOf?, if_neg (by simpa using hprefix)]
      -- if the octet is stripped, the search is already past it
      refine ih.pass hp fun hkept => ?_
      rw [stripLines_cons, hkept, if_neg Bool.false_ne_true] at hagain
      rw [indexOf?, if_neg (by simpa using hagain)]

/-! ## After a place -/

/-- What lies after a place, and on which line it starts, is the same apart from the stripping. -/
structure Beyond (s : Bytes) (n n' : Nat) : Prop where
  rest : (stripLines s).drop n' = stripLines (s.drop n)
  lines : lineBreaks ((stripLines s).take n') = lineBreaks (s.take n)

theorem beyond_length (s : Bytes) : Beyond s s.length (stripLines s).length := by
  refine ⟨by simp, ?_⟩
  rw [List.take_length, List.take_length, lineBreaks_stripLines]

/-- Before and after a place where text starts, the text is stripped apart. -/
theorem take_strippedOffset {n : Nat} (h : StartsInText (s.drop n)) :
    (stripLines s).take (strippedOffset s n) = stripLines (s.take n) ∧
      (stripLines s).drop (strippedOffset s n) = stripLines (s.drop n) := by
  have hparts := stripLines_append_text (s.take n) h
  rw [List.take_append_drop] at hparts
  rw [hparts, strippedOffset]
  exact ⟨List.take_left' rfl, List.drop_left' rfl⟩

/-- After a word that has been found. -/
theorem Strips.beyond {n n' : Nat} (hp : IsWord p) (h : Strips p s (some n) (some n')) :
    Beyond s (n + p.length) (n' + p.length) := by
  obtain rfl : n' = strippedOffset s n := Option.some.inj h.moved
  have hthere := h.there n rfl
  obtain ⟨htake, hdrop⟩ := take_strippedOffset (hp.startsInText hthere)
  obtain ⟨rest, hrest⟩ := hthere
  have hstrip : stripLines (s.drop n) = p ++ stripLines rest := by
    rw [← hrest, stripLines_text_append hp.text]
  constructor
  · rw [← List.drop_drop, hdrop, hstrip, ← List.drop_drop, ← hrest, List.drop_left, List.drop_left]
  · rw [List.take_add, List.take_add, htake, hdrop, hstrip, ← hrest, List.take_left, List.take_left]
    simp only [lineBreaks, List.count_append]
    rw [← lineBreaks, lineBreaks_stripLines, lineBreaks]

/-- After a part that stays as it is. -/
theorem beyond_of_front (front rest : Bytes)
    (h : stripLines (front ++ rest) = front ++ stripLines rest) :
    Beyond (front ++ rest) front.length front.length := by
  constructor
  · rw [h, List.drop_left, List.drop_left]
  · rw [h, List.take_left, List.take_left]

theorem Beyond.add {n n' m m' : Nat} (h : Beyond s n n') (hrest : Beyond (s.drop n) m m') :
    Beyond s (n + m) (n' + m') := by
  constructor
  · rw [← List.drop_drop, h.rest, hrest.rest, List.drop_drop]
  · rw [List.take_add, List.take_add, h.rest]
    have hfirst := h.lines
    have hthen := hrest.lines
    simp only [lineBreaks, List.count_append] at *
    rw [hfirst, hthen]

/-- Up to a line break nothing but blanks before it is stripped. -/
theorem dropWhile_stripLines (s : Bytes) :
    (stripLines s).dropWhile (· != lf) = stripLines (s.dropWhile (· != lf)) := by
  induction s with
  | nil => rfl
  | cons b s ih =>
    by_cases hlf : b = lf
    · subst hlf
      rw [stripLines_not_blank s (by decide)]
      simp [stripLines_not_blank s (show isBlank lf = false by decide)]
    · rw [stripLines_cons]
      split
      · simpa [hlf] using ih
      · simpa [hlf] using ih

/-! ## More text at the end -/

theorem nextIn_append (class' : UInt8 → Bool) (hs : s ≠ []) (t : Bytes) :
    nextIn class' (s ++ t) = nextIn class' s := by
  cases s with
  | nil => exact absurd rfl hs
  | cons b s => rfl

theorem nextIs_append (b : UInt8) (hs : s ≠ []) (t : Bytes) : nextIs b (s ++ t) = nextIs b s := by
  rw [nextIs_eq_nextIn, nextIs_eq_nextIn, nextIn_append _ hs]

/-- What has been found in a text is found in a longer one, in the same place. -/
theorem indexOf?_append (hp : IsWord p) {n : Nat} (h : indexOf? p s = some n) (t : Bytes) :
    indexOf? p (s ++ t) = some n := by
  induction s generalizing n with
  | nil =>
    rw [indexOf?, if_neg (by simpa using hp.ne_nil)] at h
    cases h
  | cons b s ih =>
    rw [List.cons_append]
    rw [indexOf?] at h ⊢
    split at h
    · next hstarts =>
      rw [List.isPrefixOf_iff_prefix] at hstarts
      have hstarts' : p <+: b :: (s ++ t) := hstarts.trans (List.prefix_append (b :: s) t)
      rw [if_pos (List.isPrefixOf_iff_prefix.mpr hstarts')]
      exact h
    · next hstarts =>
      obtain ⟨m, hm, rfl⟩ := Option.map_eq_some_iff.mp h
      -- the word is not longer than the text, so it does not start here and end in what has been
      -- added
      have hlength := (indexOf?_stripLines hp s).add_length_le hp hm
      have hnot : ¬ p.isPrefixOf (b :: (s ++ t)) = true := by
        rw [List.isPrefixOf_iff_prefix] at hstarts ⊢
        intro hstarts'
        refine hstarts (List.prefix_of_prefix_length_le hstarts' (List.prefix_append (b :: s) t) ?_)
        rw [List.length_cons]
        omega
      rw [if_neg hnot, ih hm]
      rfl

/-- What has been found inside of a part of a text is found there without the rest. -/
theorem indexOf?_of_append (hp : IsWord p) {n : Nat} (h : indexOf? p (s ++ t) = some n)
    (hn : n + p.length ≤ s.length) :
    indexOf? p s = some n := by
  induction s generalizing n with
  | nil =>
    have hpos := List.length_pos_of_ne_nil hp.ne_nil
    rw [List.length_nil] at hn
    omega
  | cons b s ih =>
    rw [List.cons_append] at h
    rw [indexOf?] at h ⊢
    split at h
    · next hstarts =>
      cases h
      rw [List.isPrefixOf_iff_prefix] at hstarts
      rw [Nat.zero_add] at hn
      -- the word has room in the first part
      have hstarts' := List.prefix_of_prefix_length_le hstarts (List.prefix_append (b :: s) t) hn
      rw [if_pos (List.isPrefixOf_iff_prefix.mpr hstarts')]
    · next hstarts =>
      obtain ⟨m, hm, rfl⟩ := Option.map_eq_some_iff.mp h
      have hnot : ¬ p.isPrefixOf (b :: s) = true := by
        rw [List.isPrefixOf_iff_prefix] at hstarts ⊢
        intro hstarts'
        exact hstarts (hstarts'.trans (List.prefix_append (b :: s) t))
      rw [List.length_cons] at hn
      rw [if_neg hnot, ih hm (by omega)]
      rfl

/-! ## White space at the end -/

section

variable {padding : Bytes}

theorem nextIn_append_spacing {class' : UInt8 → Bool}
    (hclass : ∀ b, isSpacing b = true → class' b = false)
    (hpadding : ∀ b ∈ padding, isSpacing b = true) (s : Bytes) :
    nextIn class' (s ++ padding) = nextIn class' s := by
  cases s with
  | cons b s => rfl
  | nil =>
    cases padding with
    | nil => rfl
    | cons b padding => exact hclass b (hpadding b List.mem_cons_self)

/-- White space at the end does not complete a word. -/
theorem prefix_append_spacing_iff (hp : ∀ b ∈ p, isSpacing b = false)
    (hpadding : ∀ b ∈ padding, isSpacing b = true) : p <+: s ++ padding ↔ p <+: s := by
  induction p generalizing s with
  | nil => simp
  | cons b p ih =>
    rw [List.forall_mem_cons] at hp
    cases s with
    | cons c s => rw [List.cons_append, List.cons_prefix_cons, List.cons_prefix_cons, ih hp.2]
    | nil =>
      constructor
      · rintro ⟨rest, rfl⟩
        rw [hpadding b List.mem_cons_self] at hp
        cases hp.1
      · intro h
        cases List.prefix_nil.mp h

/-- Nothing is found in white space at the end. -/
theorem indexOf?_append_spacing (hp : IsWord p) (hpadding : ∀ b ∈ padding, isSpacing b = true)
    (s : Bytes) : indexOf? p (s ++ padding) = indexOf? p s := by
  induction s with
  | nil =>
    -- in white space by itself there is no place for a word
    induction padding with
    | nil => rfl
    | cons b padding ih =>
      have hnot : ¬ p <+: b :: padding := by
        have hiff := prefix_append_spacing_iff hp.text hpadding (s := [])
        simpa [hp.ne_nil] using hiff
      rw [List.forall_mem_cons] at hpadding
      have hnil : indexOf? p [] = none := if_neg (by simpa using hp.ne_nil)
      have hnone := ih hpadding.2
      rw [List.nil_append, hnil] at hnone
      rw [List.nil_append, hnil, indexOf?, if_neg (by simpa using hnot), hnone]
      rfl
  | cons b s ih =>
    have hstarts : p.isPrefixOf (b :: s ++ padding) = p.isPrefixOf (b :: s) := by
      rw [Bool.eq_iff_iff, List.isPrefixOf_iff_prefix, List.isPrefixOf_iff_prefix]
      exact prefix_append_spacing_iff hp.text hpadding
    rw [List.cons_append] at hstarts ⊢
    rw [indexOf?, indexOf?, hstarts, ih]

/-- What is left of a text that ends in text does so too. -/
theorem EndsInText.drop (hs : EndsInText s) (n : Nat) : EndsInText (s.drop n) := by
  intro b hb
  rw [List.getLast?_drop] at hb
  split at hb
  · cases hb
  · exact hs b hb

/-- The tidy text is the stripped one with a line break in place of the white space at its end. -/
theorem tidyWhitespace_parts (native : LineEnding)
    (hs : ∀ b ∈ s, isPadding b = true → isSpacing b = true) :
    ∃ text padding eol, EndsInText text ∧ stripLines s = text ++ padding ∧
      (∀ b ∈ padding, isSpacing b = true) ∧
      tidyWhitespace native s = if text.isEmpty then [] else text ++ LineEnding.bytes eol := by
  obtain ⟨padding, hparts, hpadding⟩ := exists_trimEnd_append (stripLines s)
  refine ⟨trimEnd (stripLines s), padding, (firstLineEnding? (stripLines s)).getD native,
    endsInText_trimEnd _, hparts.symm, ?_, rfl⟩
  intro b hb
  refine hs b ((stripLines_sublist s).mem ?_) (hpadding b hb)
  rw [← hparts]
  exact List.mem_append_right _ hb

end

end SourceTidy
