import SourceTidy.Proofs.StrippedText
import SourceTidy.Proofs.TextEncoding
import SourceTidy.Template.Nesting

/-! # Blanks in tags

Blanks before line breaks are stripped inside of tags as well. Of a run of blanks at least one is
left, so the tag is the same apart from its arguments.

* `Thinned`: the characters of a tag, of which some blanks before other blanks are missing;
* `Thinned.alike`: then the tag differs in its arguments only, and is accepted or refused alike;
* `alike_parse`: the tag of a stripped text.
-/

namespace SourceTidy.Template

open Ascii Bytes

/-! ## Tags with fewer blanks -/

theorem ne_of_isBlank {c d : Char} (hc : Text.isBlank c = true) (hd : Text.isBlank d = false) :
    c ≠ d := by
  rintro rfl
  rw [hc] at hd
  cases hd

/-- The characters of a text are left, but for blanks that come before other blanks. -/
inductive Thinned : List Char → List Char → Prop where
  | nil : Thinned [] []
  | keep {s t : List Char} (c : Char) : Thinned s t → Thinned (c :: s) (c :: t)
  | drop {s t : List Char} {c d : Char} : Text.isBlank c = true → Text.isBlank d = true →
      Thinned s (d :: t) → Thinned (c :: s) (d :: t)

namespace Thinned

variable {s t w : List Char} {p : Char → Bool} {v : Bool}

theorem refl (s : List Char) : Thinned s s := by
  induction s with
  | nil => exact .nil
  | cons c s ih => exact .keep c ih

theorem append_left (w : List Char) (h : Thinned s t) : Thinned (w ++ s) (w ++ t) := by
  induction w with
  | nil => exact h
  | cons c w ih => exact .keep c ih

/-- The last blank of a run is left, so neither text becomes empty. -/
theorem eq_nil_iff (h : Thinned s t) : s = [] ↔ t = [] := by
  cases h <;> simp

/-- The last character is left. -/
theorem getLast?_eq (h : Thinned s t) : s.getLast? = t.getLast? := by
  induction h with
  | nil => rfl
  | keep c _ ih => rw [List.getLast?_cons, List.getLast?_cons, ih]
  | drop _ _ _ ih =>
    rw [List.getLast?_cons, ih, List.getLast?_cons]
    rfl

/-- A text without blanks can neither lose nor have lost any. -/
theorem eq_iff (hw : ∀ c ∈ w, Text.isBlank c = false) (h : Thinned s t) : s = w ↔ t = w := by
  induction h generalizing w with
  | nil => rfl
  | keep c _ ih =>
    cases w with
    | nil => simp
    | cons d w =>
      rw [List.forall_mem_cons] at hw
      rw [List.cons.injEq, List.cons.injEq, ih hw.2]
  | drop hc hd _ _ =>
    constructor
    · rintro rfl
      simp [hc] at hw
    · rintro rfl
      simp [hd] at hw

/-- A word without blanks starts both texts or neither. -/
theorem prefix_iff (hw : ∀ c ∈ w, Text.isBlank c = false) (h : Thinned s t) :
    w <+: s ↔ w <+: t := by
  induction h generalizing w with
  | nil => rfl
  | keep c _ ih =>
    cases w with
    | nil => simp
    | cons d w =>
      rw [List.forall_mem_cons] at hw
      rw [List.cons_prefix_cons, List.cons_prefix_cons, ih hw.2]
  | drop hc hd _ _ =>
    cases w with
    | nil => simp
    | cons e w =>
      rw [List.forall_mem_cons] at hw
      simp [List.cons_prefix_cons, (ne_of_isBlank hc hw.1).symm, (ne_of_isBlank hd hw.1).symm]

theorem head?_eq {c : Char} (hc : Text.isBlank c = false) (h : Thinned s t) :
    (s.head? == some c) = (t.head? == some c) := by
  cases h with
  | nil => rfl
  | keep d _ => rfl
  | drop hblank hblank' _ => simp [ne_of_isBlank hblank hc, ne_of_isBlank hblank' hc]

/-- After a character that both start with. -/
theorem tail {c : Char} (hc : Text.isBlank c = false) (h : Thinned (c :: s) (c :: t)) :
    Thinned s t := by
  cases h with
  | keep _ h => exact h
  | drop hblank _ _ => exact absurd rfl (ne_of_isBlank hblank hc)

/-- A run of characters that are no blanks is the same in both texts. -/
theorem takeWhile_eq (hp : ∀ c, Text.isBlank c = true → p c = false) (h : Thinned s t) :
    s.takeWhile p = t.takeWhile p := by
  induction h with
  | nil => rfl
  | keep c _ ih => rw [List.takeWhile_cons, List.takeWhile_cons, ih]
  | drop hc hd _ _ => simp [hp _ hc, hp _ hd]

/-- What a class leaves that does not tell blanks apart. -/
theorem dropWhile (hp : ∀ c, Text.isBlank c = true → p c = v) (h : Thinned s t) :
    Thinned (s.dropWhile p) (t.dropWhile p) := by
  induction h with
  | nil => exact .nil
  | keep c h ih =>
    rw [List.dropWhile_cons, List.dropWhile_cons]
    split
    · exact ih
    · exact .keep c h
  | drop hc hd h ih =>
    rw [List.dropWhile_cons, hp _ hc]
    split
    · exact ih
    · next hv =>
      rw [List.dropWhile_cons, hp _ hd, if_neg hv]
      exact .drop hc hd h

/-- Characters are dropped from the end, up to one that stays. -/
theorem rdropWhile_cons (p : Char → Bool) (c : Char) (s : List Char) :
    (c :: s).rdropWhile p =
      if s.rdropWhile p = [] then (if p c then [] else [c]) else c :: s.rdropWhile p := by
  rw [List.rdropWhile, List.reverse_cons, List.dropWhile_append]
  simp only [List.rdropWhile, List.reverse_eq_nil_iff, List.isEmpty_iff]
  split
  · rw [List.dropWhile_cons]
    split <;> rfl
  · simp

/-- Characters may be dropped from the end, if blanks are dropped or kept alike. -/
theorem rdropWhile (hp : ∀ c, Text.isBlank c = true → p c = v) (h : Thinned s t) :
    Thinned (s.rdropWhile p) (t.rdropWhile p) := by
  induction h with
  | nil => exact .nil
  | @keep s t c _ ih =>
    rw [rdropWhile_cons, rdropWhile_cons]
    by_cases hnil : List.rdropWhile p s = []
    · rw [if_pos hnil, if_pos (ih.eq_nil_iff.mp hnil)]
      exact refl _
    · rw [if_neg hnil, if_neg (ih.eq_nil_iff.not.mp hnil)]
      exact .keep c ih
  | @drop s t c d hc hd _ ih =>
    rw [rdropWhile_cons]
    by_cases hnil : List.rdropWhile p s = []
    · -- all that follows is dropped, the blank `d` as well, and so is the blank before it
      have hdropped := ih.eq_nil_iff.mp hnil
      have hpd : p d = true := List.rdropWhile_eq_nil_iff.mp hdropped d List.mem_cons_self
      rw [if_pos hnil, hdropped, hp c hc, ← hp d hd, if_pos hpd]
      exact .nil
    · -- `d` is still the first character of what is left
      rw [if_neg hnil]
      have hfirst : ∃ t', List.rdropWhile p (d :: t) = d :: t' := by
        have hleft := ih.eq_nil_iff.not.mp hnil
        rw [rdropWhile_cons] at hleft ⊢
        split_ifs at hleft ⊢ with hrest hpd
        · simp at hleft
        · exact ⟨[], rfl⟩
        · exact ⟨_, rfl⟩
      obtain ⟨t', ht'⟩ := hfirst
      rw [ht'] at ih ⊢
      exact .drop hc hd ih

theorem trim (h : Thinned s t) : Thinned (Text.trim s) (Text.trim t) :=
  rdropWhile (fun _ hc => hc) (dropWhile (fun _ hc => hc) h)

end Thinned

/-! ## What a tag is -/

/-- The tags differ in the blanks of their arguments at most. -/
structure Tag.Alike (t t' : Tag) : Prop where
  closing : t.closing = t'.closing
  selfClosing : t.selfClosing = t'.selfClosing
  name : t.name = t'.name
  args : Thinned t.args t'.args

namespace Tag.Alike

variable {t t' : Tag}

/-- Both tags print or neither does. -/
theorem isPrint_eq (h : t.Alike t') : t.isPrint = t'.isPrint := by
  have hempty : t.args.isEmpty = t'.args.isEmpty := by
    rw [Bool.eq_iff_iff, List.isEmpty_iff, List.isEmpty_iff]
    exact h.args.eq_nil_iff
  rw [Tag.isPrint, Tag.isPrint, h.closing, h.name, hempty]

/-- Both tags switch tags off or neither does. -/
theorem switchesOff_eq (h : t.Alike t') : t.switchesOff = t'.switchesOff := by
  have hoff : (t.args == ['o', 'f', 'f']) = (t'.args == ['o', 'f', 'f']) := by
    rw [Bool.eq_iff_iff, beq_iff_eq, beq_iff_eq]
    exact h.args.eq_iff (none_of_any (by decide))
  rw [Tag.switchesOff, Tag.switchesOff, h.closing, h.name, hoff]

/-- Both tags are accepted, with the same stack, or both are refused for the same reason. -/
theorem accept_eq (h : t.Alike t') (stack : List OpenTag) (line : Nat) :
    accept stack ⟨t, line⟩ = accept stack ⟨t', line⟩ := by
  simp only [accept, acceptClosing, acceptOpening, h.isPrint_eq, h.closing, h.selfClosing, h.name]

end Tag.Alike

theorem toNat_of_isAlphanum {c : Char} (h : c.isAlphanum = true) :
    ((65 ≤ c.toNat ∧ c.toNat ≤ 90) ∨ (97 ≤ c.toNat ∧ c.toNat ≤ 122)) ∨
    (48 ≤ c.toNat ∧ c.toNat ≤ 57) := by
  change ((decide (65 ≤ c.val ∧ c.val ≤ 90) || (decide (97 ≤ c.val) && decide (c.val ≤ 122))) ||
    (decide (48 ≤ c.val) && decide (c.val ≤ 57))) = true at h
  simp only [Bool.or_eq_true, Bool.and_eq_true, decide_eq_true_eq, UInt32.le_iff_toNat_le] at h
  exact h

theorem not_isBlank_of_isAlphanum {c : Char} (h : c.isAlphanum = true) :
    Text.isBlank c = false := by
  have hrange := toNat_of_isAlphanum h
  simp only [Text.isBlank, Text.blankRanges, List.any_cons, List.any_nil, Bool.or_eq_false_iff,
    Bool.and_eq_false_iff, decide_eq_false_iff_not, and_true]
  omega

/-- The characters of a name. -/
def isNameChar (c : Char) : Bool := c.isAlphanum || c == '_'

/-- A blank is not part of a name. -/
theorem not_isNameChar_of_isBlank {c : Char} (h : Text.isBlank c = true) :
    isNameChar c = false := by
  rw [isNameChar, Bool.or_eq_false_iff]
  constructor
  · rw [Bool.eq_false_iff]
    intro hname
    exact ne_of_isBlank h (not_isBlank_of_isAlphanum hname) rfl
  · exact beq_false_of_ne (ne_of_isBlank h (by decide))

theorem nameLength_cons (c : Char) (s : List Char) :
    nameLength (c :: s) =
      if c.isAlpha then ((c :: s).takeWhile isNameChar).length else if c = '_' then 1 else 0 := rfl

namespace Thinned

variable {s t : List Char}

/-- No name starts with a blank. -/
theorem nameLength_of_isBlank {c : Char} (hc : Text.isBlank c = true) (s : List Char) :
    nameLength (c :: s) = 0 := by
  have hname := not_isNameChar_of_isBlank hc
  simp only [isNameChar, Char.isAlphanum, Bool.or_eq_false_iff, beq_eq_false_iff_ne] at hname
  rw [nameLength_cons, hname.1.1, if_neg Bool.false_ne_true, if_neg hname.2]

/-- The name stays, and what follows it is thinned. -/
theorem nameLength_eq (h : Thinned s t) :
    nameLength t = nameLength s ∧ t.take (nameLength s) = s.take (nameLength s) ∧
      Thinned (s.drop (nameLength s)) (t.drop (nameLength s)) := by
  cases h with
  | nil => exact ⟨rfl, rfl, .nil⟩
  | @keep s t c h =>
    rw [nameLength_cons, nameLength_cons]
    split_ifs with halpha hunderscore
    · have hword := takeWhile_eq (fun _ => not_isNameChar_of_isBlank) (h.keep c)
      have hrest := dropWhile (fun _ => not_isNameChar_of_isBlank) (h.keep c)
      refine ⟨by rw [hword], ?_, ?_⟩
      · rw [take_length_takeWhile, hword, take_length_takeWhile]
      · rw [drop_length_takeWhile, hword, drop_length_takeWhile]
        exact hrest
    · exact ⟨rfl, rfl, h⟩
    · exact ⟨rfl, rfl, h.keep c⟩
  | drop hc hd h =>
    rw [nameLength_of_isBlank hc, nameLength_of_isBlank hd]
    exact ⟨rfl, rfl, h.drop hc hd⟩

/-- What goes on with an expression does so in both texts. -/
theorem continuesExpression_eq (h : Thinned s t) :
    continuesExpression s = continuesExpression t := by
  have hsame : ∀ {w : List Char}, w.any Text.isBlank = false → w.isPrefixOf s = w.isPrefixOf t := by
    intro w hw
    rw [Bool.eq_iff_iff, List.isPrefixOf_iff_prefix, List.isPrefixOf_iff_prefix]
    exact h.prefix_iff (none_of_any hw)
  rw [continuesExpression, continuesExpression, hsame (by decide), hsame (by decide),
    hsame (by decide)]

/-- A tag without some of its blanks. -/
theorem alike (h : Thinned s t) : (Tag.ofChars s).Alike (Tag.ofChars t) := by
  have hclosing : (s.head? == some '/') = (t.head? == some '/') := h.head?_eq (by decide)
  have hlast :
      ((Text.trimEnd s).getLast? == some '/') = ((Text.trimEnd t).getLast? == some '/') := by
    rw [show (Text.trimEnd s).getLast? = (Text.trimEnd t).getLast? from
      (rdropWhile (fun _ hc => hc) h).getLast?_eq]
  -- what follows the slash of a closing tag, or else the whole tag
  obtain ⟨body, hbody⟩ : ∃ body, body = if s.head? == some '/' then s.drop 1 else s := ⟨_, rfl⟩
  obtain ⟨body', hbody'⟩ : ∃ body, body = if t.head? == some '/' then t.drop 1 else t := ⟨_, rfl⟩
  have hthin : Thinned body body' := by
    rw [hbody, hbody', ← hclosing]
    split
    · next hslash =>
      rw [beq_iff_eq] at hslash
      have hslash' : t.head? = some '/' := by simpa [hslash] using hclosing
      rw [List.head?_eq_some_iff] at hslash hslash'
      obtain ⟨s', rfl⟩ := hslash
      obtain ⟨t', rfl⟩ := hslash'
      exact h.tail (by decide)
    · exact h
  obtain ⟨hlength, hname, hrest⟩ := hthin.nameLength_eq
  constructor
  · exact hclosing
  · simp only [Tag.ofChars, hclosing, hlast]
  · simp only [Tag.ofChars, ← hbody, ← hbody', hlength, hname, hrest.continuesExpression_eq]
  · simp only [Tag.ofChars, ← hbody, ← hbody', hlength]
    rw [hclosing, hlast]
    split
    · have hslash : ∀ c, Text.isBlank c = true → (c == '/') = false := by
        intro c hc
        exact beq_false_of_ne (ne_of_isBlank hc (by decide))
      exact rdropWhile (fun _ hc => hc) (rdropWhile hslash hrest.trim)
    · exact hrest.trim

end Thinned

/-! ## The characters of a stripped text -/

/-- The reader is at an octet in one state, whatever the octets after it. -/
theorem decodeFrom_cons (q : Utf8.State) (n : Nat) (b : UInt8) :
    ∃ read q' n', ∀ s, Utf8.decodeFrom q n (b :: s) = read ++ Utf8.decodeFrom q' n' s := by
  -- the octet goes on with what is being read, or it cannot, and then it starts something new or
  -- not
  cases hstep : q.step b with
  | some q' =>
    by_cases hground : q' = .ground
    · refine ⟨[Char.ofNat (if q = .ground then Utf8.leadBits b else Utf8.addBits n b)],
        .ground, 0, ?_⟩
      simp [Utf8.decodeFrom, hstep, hground]
    · refine ⟨[], q', if q = .ground then Utf8.leadBits b else Utf8.addBits n b, ?_⟩
      simp [Utf8.decodeFrom, hstep, hground]
  | none =>
    cases hagain : (if q = .ground then none else Utf8.State.ground.step b) with
    | none =>
      by_cases hground : q = .ground
      · refine ⟨[Utf8.replacement], .ground, 0, ?_⟩
        simp only [Utf8.decodeFrom, hstep, hagain, if_pos hground, List.cons_append,
          List.nil_append, implies_true]
      · refine ⟨[Utf8.replacement, Utf8.replacement], .ground, 0, ?_⟩
        simp only [Utf8.decodeFrom, hstep, hagain, if_neg hground, List.cons_append,
          List.nil_append, implies_true]
    | some q' =>
      by_cases hground : q' = .ground
      · refine ⟨[Utf8.replacement, Char.ofNat b.toNat], .ground, 0, ?_⟩
        simp only [Utf8.decodeFrom, hstep, hagain, hground, List.cons_append, List.nil_append,
          implies_true]
      · refine ⟨[Utf8.replacement], q', Utf8.leadBits b, ?_⟩
        simp only [Utf8.decodeFrom, hstep, hagain, List.cons_append, List.nil_append, implies_true]

theorem isBlank_ofNat {b : UInt8} (h : isSpacing b = true) :
    Text.isBlank (Char.ofNat b.toNat) = true := by
  simp only [isSpacing, Ascii.isBlank, Bool.or_eq_true, beq_iff_eq] at h
  rcases h with ((rfl | rfl) | rfl) | rfl <;> decide

/-- The characters of a stripped text are thinned, in whatever state the reader is. -/
theorem thinned_decodeFrom (q : Utf8.State) (n : Nat) (s : Bytes) :
    Thinned (Utf8.decodeFrom q n s) (Utf8.decodeFrom q n (stripLines s)) := by
  induction s generalizing q n with
  | nil => exact .refl _
  | cons b s ih =>
    rw [stripLines_cons]
    split
    · next hstripped =>
      -- a blank is left out, and the line break after it is read in its place
      rw [isStripped, Bool.and_eq_true] at hstripped
      obtain ⟨c, rest, hrest, hc⟩ := exists_break_of_endsLine hstripped.2
      have hblank := isSpacing_of_isBlank hstripped.1
      have hbreak := isSpacing_of_isBreak hc
      have hthen := ih .ground 0
      rw [hrest, Utf8.decodeFrom_ascii _ _ (Utf8.ascii_of_isSpacing hbreak), if_pos rfl,
        List.nil_append] at hthen
      rw [hrest, Utf8.decodeFrom_ascii _ _ (Utf8.ascii_of_isSpacing hblank),
        Utf8.decodeFrom_ascii _ _ (Utf8.ascii_of_isSpacing hbreak)]
      exact Thinned.append_left _ (.drop (isBlank_ofNat hblank) (isBlank_ofNat hbreak) hthen)
    · obtain ⟨read, q', n', hread⟩ := decodeFrom_cons q n b
      rw [hread, hread]
      exact (ih q' n').append_left read

/-- The tag of a stripped text differs in its arguments at most. -/
theorem alike_parse (s : Bytes) : (Tag.parse s).Alike (Tag.parse (stripLines s)) :=
  (thinned_decodeFrom .ground 0 s).alike

end SourceTidy.Template
