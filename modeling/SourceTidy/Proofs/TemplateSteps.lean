import SourceTidy.Proofs.TemplateBlanks

/-! # Scans of templates step by step

A scan reads a template octet by octet, and a comment, a tag or a region without tags in one go.
What it reads in one step does not depend on what follows, except that a brace is text or not by the
next octet. So the text before a brace can be read apart from what follows the brace.

* `Marks`: all that a brace can start;
* `settled_tagEnd?`, `mark_tag_congr`, `mark_skipped_congr`: what has ended is not changed by what
  follows;
* `ScanStep`, `Scanned`: one step, and a scan up to some place;
* `Scanned.scanFrom_eq`: a scan goes on from there;
* `Scanned.replace`: a scan up to a brace, with something else after the text;
* `exists_scanned`: every scan is made of steps;
* `Scanned.split`: where the tags of a scan stand.
-/

namespace SourceTidy.Template

open Ascii Bytes

/-! ## What has ended -/

/-- If the tag that goes on with `s` ends in it, then it does so whatever follows. -/
def Settled (depth : Nat) (quote : Option UInt8) (s : Bytes) : Prop :=
  ∀ t t' n, tagEnd? depth quote (s ++ t) = some n → n < s.length →
    tagEnd? depth quote (s ++ t') = some n

/-- What the search passes over comes before the end of the tag. -/
theorem Settled.append_left {depth depth' : Nat} {quote quote' : Option UInt8} {s : Bytes}
    (h : Settled depth' quote' s) (front : Bytes)
    (hfront : ∀ more, tagEnd? depth quote (front ++ more) =
      (tagEnd? depth' quote' more).map (· + front.length)) :
    Settled depth quote (front ++ s) := by
  intro t t' n hend hn
  rw [List.append_assoc, hfront] at hend ⊢
  obtain ⟨m, hm, rfl⟩ := Option.map_eq_some_iff.mp hend
  rw [List.length_append] at hn
  rw [h t t' m hm (by omega)]
  rfl

/-- A tag that has ended has ended. -/
theorem settled_tagEnd? (depth : Nat) (quote : Option UInt8) (s : Bytes) :
    Settled depth quote s := by
  fun_induction tagEnd? depth quote s with
  | case1 =>
    intro t t' n _ hn
    cases hn
  | case2 depth rest q ih => exact ih.append_left [q] (tagEnd?_endQuote depth q)
  | case3 depth q hq =>
    -- a backslash is passed over with the octet after it, which is not there
    intro t t' n hend hn
    cases t with
    | nil => simp [tagEnd?, hq] at hend
    | cons c t =>
      rw [List.singleton_append, tagEnd?_escape depth hq] at hend
      obtain ⟨m, -, rfl⟩ := Option.map_eq_some_iff.mp hend
      simp at hn
  | case4 depth q c rest hq ih => exact ih.append_left [backslash, c] (tagEnd?_escape depth hq c)
  | case5 depth b rest q hq hb ih => exact ih.append_left [b] (tagEnd?_quoted depth hq hb)
  | case6 depth b rest hb ih => exact ih.append_left [b] (tagEnd?_startQuote depth hb)
  | case7 depth rest _ ih => exact ih.append_left [openBrace] (tagEnd?_openBrace depth)
  | case8 rest =>
    intro t t' n hend _
    rw [List.cons_append, tagEnd?_here] at hend ⊢
    exact hend
  | case9 rest depth _ _ ih => exact ih.append_left [closeBrace] (tagEnd?_closeBrace depth)
  | case10 depth b rest hb hopen hclose ih =>
    exact ih.append_left [b] (tagEnd?_code depth hb hopen hclose)

/-- A tag goes on with `s` up to the brace at `n`. -/
structure TagEnds (s : Bytes) (n : Nat) : Prop where
  notComment : nextIs star s = false
  opens : opensTag s = true
  ends : tagEnd? 0 none s = some n

/-- All that a brace before `s` can start. -/
inductive Marks (s : Bytes) : Mark → Prop where
  | comment {n : Nat} (hstar : nextIs star s = true)
      (hend : indexOf? [star, closeBrace] (s.drop 1) = some n) :
      Marks s (.skipped (n + 3))
  | openComment (hstar : nextIs star s = true)
      (hend : indexOf? [star, closeBrace] (s.drop 1) = none) :
      Marks s .openComment
  | text (hstar : nextIs star s = false) (hopens : opensTag s = false) : Marks s .text
  | openTag (hstar : nextIs star s = false) (hopens : opensTag s = true)
      (hend : tagEnd? 0 none s = none) :
      Marks s .openTag
  /-- Tags are switched off, up to the next tag that switches them on. -/
  | off {n m : Nat} (htag : TagEnds s n) (hoff : (Tag.parse (s.take n)).switchesOff = true)
      (hon : indexOf? (ascii "\x7b/syntax\x7d") (s.drop (n + 1)) = some m) :
      Marks s (.skipped (n + 1 + m + 9))
  /-- Tags are switched off for good. -/
  | offToEnd {n : Nat} (htag : TagEnds s n) (hoff : (Tag.parse (s.take n)).switchesOff = true)
      (hon : indexOf? (ascii "\x7b/syntax\x7d") (s.drop (n + 1)) = none) :
      Marks s (.skipped s.length)
  | tag {n : Nat} (htag : TagEnds s n) (hon : (Tag.parse (s.take n)).switchesOff = false) :
      Marks s (.tag (Tag.parse (s.take n)) (n + 1))

section

variable {s t t' : Bytes} {m : Mark} {n : Nat} {tag : Tag}

/-- A brace starts one of these. -/
theorem marks_mark (s : Bytes) : Marks s (mark s) := by
  rw [mark]
  cases hstar : nextIs star s with
  | true =>
    rw [if_pos rfl]
    cases hend : indexOf? [star, closeBrace] (s.drop 1) with
    | none => exact .openComment hstar hend
    | some n => exact .comment hstar hend
  | false =>
    rw [if_neg Bool.false_ne_true]
    -- no comment: the brace is text, or a tag, which may switch off the tags after it
    cases hopens : opensTag s with
    | false => exact .text hstar hopens
    | true =>
      cases hend : tagEnd? 0 none s with
      | none => exact .openTag hstar hopens hend
      | some n =>
        show Marks s (if (Tag.parse (s.take n)).switchesOff then _ else _)
        cases hoff : (Tag.parse (s.take n)).switchesOff with
        | false => exact .tag ⟨hstar, hopens, hend⟩ hoff
        | true =>
          rw [if_pos rfl]
          cases hon : indexOf? (ascii "\x7b/syntax\x7d") (s.drop (n + 1)) with
          | none => exact .offToEnd ⟨hstar, hopens, hend⟩ hoff hon
          | some m => exact .off ⟨hstar, hopens, hend⟩ hoff hon

theorem Marks.mark_eq (h : Marks s m) : mark s = m := by
  cases h with
  | comment hstar hend => rw [mark, if_pos hstar, hend]
  | openComment hstar hend => rw [mark, if_pos hstar, hend]
  | text hstar hopens => simp [mark, hstar, hopens]
  | openTag hstar hopens hend => simp [mark, hstar, hopens, hend]
  | off htag hoff hon => simp [mark, htag.notComment, htag.opens, htag.ends, hoff, hon]
  | offToEnd htag hoff hon => simp [mark, htag.notComment, htag.opens, htag.ends, hoff, hon]
  | tag htag hon => simp [mark, htag.notComment, htag.opens, htag.ends, hon]

theorem marks_of_mark_eq (h : mark s = m) : Marks s m := h ▸ marks_mark s

theorem opensTag_append (hs : s ≠ []) (t : Bytes) : opensTag (s ++ t) = opensTag s :=
  nextIn_append _ hs t

/-- A tag that has ended stays the same tag. -/
theorem TagEnds.congr (h : TagEnds (s ++ t) n) (hn : n < s.length) (t' : Bytes) :
    TagEnds (s ++ t') n ∧ (s ++ t').take n = (s ++ t).take n := by
  have hs : s ≠ [] := List.ne_nil_of_length_pos (Nat.zero_lt_of_lt hn)
  constructor
  · constructor
    · rw [nextIs_append star hs, ← nextIs_append star hs t]
      exact h.notComment
    · rw [opensTag_append hs, ← opensTag_append hs t]
      exact h.opens
    · exact settled_tagEnd? 0 none s t t' n h.ends hn
  · rw [List.take_append_of_le_length hn.le, List.take_append_of_le_length hn.le]

/-- A tag is the same whatever comes after it. -/
theorem mark_tag_congr (h : mark (s ++ t) = .tag tag s.length) (t' : Bytes) :
    mark (s ++ t') = .tag tag s.length := by
  generalize hlength : s.length = length at h ⊢
  cases marks_of_mark_eq h with
  | tag htag hon =>
    obtain ⟨htag', htake⟩ := htag.congr (by omega) t'
    rw [← htake] at hon ⊢
    exact (Marks.tag htag' hon).mark_eq

/-- A comment or a region without tags stays what it is, if it ends before the text does. -/
theorem mark_skipped_congr (h : mark (s ++ t) = .skipped s.length) (ht : t ≠ []) (t' : Bytes) :
    mark (s ++ t') = .skipped s.length := by
  generalize hlength : s.length = length at h ⊢
  cases marks_of_mark_eq h with
  | @comment n hstar hend =>
    have hs : s ≠ [] := List.ne_nil_of_length_eq_add_one hlength
    have hdrop : ∀ t, (s ++ t).drop 1 = s.drop 1 ++ t :=
      fun t => List.drop_append_of_le_length (by omega)
    rw [nextIs_append star hs] at hstar
    rw [hdrop] at hend
    have hinside : indexOf? [star, closeBrace] (s.drop 1) = some n := by
      refine indexOf?_of_append isWord_endComment hend ?_
      rw [List.length_drop, hlength]
      rfl
    refine (Marks.comment ((nextIs_append star hs t').trans hstar) ?_).mark_eq
    rw [hdrop]
    exact indexOf?_append isWord_endComment hinside t'
  | @off n m htag hoff hon =>
    obtain ⟨htag', htake⟩ := htag.congr (by omega) t'
    have hdrop : ∀ t, (s ++ t).drop (n + 1) = s.drop (n + 1) ++ t :=
      fun t => List.drop_append_of_le_length (by omega)
    rw [hdrop] at hon
    have hinside : indexOf? (ascii "\x7b/syntax\x7d") (s.drop (n + 1)) = some m := by
      refine indexOf?_of_append isWord_endSyntax hon ?_
      have hword : (ascii "\x7b/syntax\x7d").length = 9 := rfl
      rw [List.length_drop, hlength, hword]
      omega
    rw [← htake] at hoff
    refine (Marks.off htag' hoff ?_).mark_eq
    rw [hdrop]
    exact indexOf?_append isWord_endSyntax hinside t'
  | offToEnd =>
    -- the region would reach to the end of the text
    rw [List.length_append] at hlength
    have hpos := List.length_pos_of_ne_nil ht
    omega

/-- What is skipped lies in the text. -/
theorem le_length_of_mark_skipped (h : mark s = .skipped n) : n ≤ s.length := by
  cases marks_of_mark_eq h with
  | comment hstar hend =>
    have hle :=
      (indexOf?_stripLines isWord_endComment (s.drop 1)).add_length_le isWord_endComment hend
    have hword : [star, closeBrace].length = 2 := rfl
    rw [List.length_drop, hword] at hle
    omega
  | off htag hoff hon =>
    have hle := (indexOf?_stripLines isWord_endSyntax _).add_length_le isWord_endSyntax hon
    have hword : (ascii "\x7b/syntax\x7d").length = 9 := rfl
    rw [List.length_drop, hword] at hle
    omega
  | offToEnd => exact Nat.le_refl _

/-- A tag ends within the text. -/
theorem le_length_of_mark_tag (h : mark s = .tag tag n) : n ≤ s.length := by
  cases marks_of_mark_eq h with
  | tag htag hon =>
    exact (tagEnd?_stripLines 0 unquoted s).add_length_le isWord_closeBrace htag.ends

/-- Nothing, or a brace and more. -/
def AtBrace (s : Bytes) : Prop := ∀ b ∈ s.head?, b = openBrace

/-- A brace before a brace, or at the end, is text. -/
theorem mark_of_atBrace (hs : AtBrace s) : mark s = .text := by
  cases s with
  | nil => rfl
  | cons b s =>
    obtain rfl : b = openBrace := hs b rfl
    exact Marks.mark_eq (.text rfl rfl)

/-- A brace is text by the octet after it. -/
theorem mark_text_congr (h : mark (s ++ t) = .text) (ht' : AtBrace t') :
    mark (s ++ t') = .text := by
  by_cases hs : s = []
  · subst hs
    exact mark_of_atBrace ht'
  · cases marks_of_mark_eq h with
    | text hstar hopens =>
      rw [nextIs_append star hs] at hstar
      rw [opensTag_append hs] at hopens
      exact Marks.mark_eq
        (.text ((nextIs_append star hs t').trans hstar) ((opensTag_append hs t').trans hopens))

end

/-! ## Steps -/

/-- A scan on the given line reads `part` in one step, before `rest`, and finds the given tags. -/
inductive ScanStep (line : Nat) : (part rest : Bytes) → List Placed → Prop where
  | octet {b : UInt8} {rest : Bytes} (hb : b ≠ openBrace) : ScanStep line [b] rest []
  | text {rest : Bytes} (h : mark rest = .text) : ScanStep line [openBrace] rest []
  | skipped {inner rest : Bytes} (h : mark (inner ++ rest) = .skipped inner.length) :
      ScanStep line (openBrace :: inner) rest []
  | tag {inner rest : Bytes} {tag : Tag} (h : mark (inner ++ rest) = .tag tag inner.length) :
      ScanStep line (openBrace :: inner) rest [⟨tag, line⟩]

/-- A scan that starts on the given line reads `before`, before `rest`, and finds the given tags. -/
inductive Scanned : (line : Nat) → (before rest : Bytes) → List Placed → Prop where
  | nil {line : Nat} {rest : Bytes} : Scanned line [] rest []
  | step {line : Nat} {part more rest : Bytes} {tags tags' : List Placed}
      (hstep : ScanStep line part (more ++ rest) tags)
      (hmore : Scanned (line + lineBreaks part) more rest tags') :
      Scanned line (part ++ more) rest (tags ++ tags')

/-- A scan goes no further before `rest`, on the given line. -/
inductive Halts (line : Nat) : (rest : Bytes) → Ending → Prop where
  | complete : Halts line [] .complete
  | openComment {after : Bytes} (h : mark after = .openComment) :
      Halts line (openBrace :: after) (.openComment line)
  | openTag {after : Bytes} (h : mark after = .openTag) :
      Halts line (openBrace :: after) (.openTag line)

section

variable {line : Nat} {part before rest rest' after : Bytes} {tags earlier later : List Placed}
  {ending : Ending}

theorem lineBreaks_cons_openBrace (s : Bytes) : lineBreaks (openBrace :: s) = lineBreaks s :=
  List.count_cons_of_ne (by decide)

/-- What a brace starts is passed over, and its line breaks are counted. -/
theorem scanFrom_skip (line : Nat) (inner rest : Bytes) :
    scanFrom (line + lineBreaks ((inner ++ rest).take inner.length)) inner.length (inner ++ rest) =
      scanFrom (line + lineBreaks inner) 0 rest := by
  rw [scanFrom_drop, List.take_left, List.drop_left]

/-- After a step the scan goes on. -/
theorem ScanStep.scanFrom_eq (h : ScanStep line part rest tags) :
    scanFrom line 0 (part ++ rest) = (tags ++ (scanFrom (line + lineBreaks part) 0 rest).1,
      (scanFrom (line + lineBreaks part) 0 rest).2) := by
  cases h with
  | @octet b rest hb =>
    by_cases hlf : b = lf
    · subst hlf
      rfl
    · rw [List.singleton_append, scanFrom_text line hlf hb]
      have hnone : lineBreaks [b] = 0 := List.count_eq_zero.mpr (by simpa using Ne.symm hlf)
      rw [hnone]
      rfl
  | text h =>
    rw [List.singleton_append, scanFrom, h]
    rfl
  | @skipped inner rest h =>
    rw [List.cons_append, scanFrom, h, lineBreaks_cons_openBrace, ← scanFrom_skip line inner rest]
    rfl
  | @tag inner rest tag h =>
    rw [List.cons_append, scanFrom, h, lineBreaks_cons_openBrace, ← scanFrom_skip line inner rest]
    rfl

/-- A scan goes on after what it has read. -/
theorem Scanned.scanFrom_eq (h : Scanned line before rest tags) :
    scanFrom line 0 (before ++ rest) = (tags ++ (scanFrom (line + lineBreaks before) 0 rest).1,
      (scanFrom (line + lineBreaks before) 0 rest).2) := by
  induction h with
  | nil => rfl
  | @step line part more rest tags tags' hstep hmore ih =>
    have hlines : lineBreaks (part ++ more) = lineBreaks part + lineBreaks more := List.count_append
    rw [List.append_assoc, hstep.scanFrom_eq, ih, hlines, ← Nat.add_assoc, List.append_assoc]

/-- Where it halts, it finds nothing more. -/
theorem Halts.scanFrom_eq (h : Halts line rest ending) : scanFrom line 0 rest = ([], ending) := by
  cases h with
  | complete => rfl
  | openComment h => rw [scanFrom, h]; rfl
  | openTag h => rw [scanFrom, h]; rfl

/-- What has been read before a brace is read so whatever the brace starts, also if the text ends
there. -/
theorem ScanStep.replace {more : Bytes} (h : ScanStep line part (more ++ openBrace :: after) tags)
    (hrest : AtBrace rest') : ScanStep line part (more ++ rest') tags := by
  cases h with
  | octet hb => exact .octet hb
  | text h => exact .text (mark_text_congr h hrest)
  | skipped h =>
    -- there is the brace at least, so that not all that follows is skipped
    exact .skipped (mark_skipped_congr h (by simp) _)
  | tag h => exact .tag (mark_tag_congr h _)

/-- A scan up to a brace is the same if something else follows, as long as it starts with a brace
too. -/
theorem Scanned.replace (h : Scanned line before rest tags) (hbrace : rest = openBrace :: after)
    (hrest : AtBrace rest') : Scanned line before rest' tags := by
  induction h with
  | nil => exact .nil
  | step hstep hmore ih =>
    subst hbrace
    exact .step (hstep.replace hrest) (ih rfl)

/-- A scan is at its end or makes a step. -/
theorem halts_or_step (line : Nat) (s : Bytes) :
    (∃ ending, Halts line s ending) ∨
      ∃ part rest tags, s = part ++ rest ∧ rest.length < s.length ∧
        ScanStep line part rest tags := by
  cases s with
  | nil => exact .inl ⟨_, .complete⟩
  | cons b s =>
    by_cases hb : b = openBrace
    · subst hb
      have hcut : ∀ n, openBrace :: s = (openBrace :: s.take n) ++ s.drop n := fun n => by simp
      have hshort : ∀ n, (s.drop n).length < (openBrace :: s).length := fun n => by
        rw [List.length_drop, List.length_cons]
        omega
      have hinner : ∀ n, n ≤ s.length → (s.take n).length = n :=
        fun n hn => List.length_take_of_le hn
      -- what the brace starts has an end, and the step takes all of it, or it has none
      cases hmark : mark s with
      | text => exact .inr ⟨[openBrace], s, [], rfl, Nat.lt_succ_self _, .text hmark⟩
      | openComment => exact .inl ⟨_, .openComment hmark⟩
      | openTag => exact .inl ⟨_, .openTag hmark⟩
      | skipped n =>
        refine .inr ⟨openBrace :: s.take n, s.drop n, [], hcut n, hshort n, .skipped ?_⟩
        rw [List.take_append_drop, hmark, hinner n (le_length_of_mark_skipped hmark)]
      | tag tag n =>
        refine .inr ⟨openBrace :: s.take n, s.drop n, [⟨tag, line⟩], hcut n, hshort n, .tag ?_⟩
        rw [List.take_append_drop, hmark, hinner n (le_length_of_mark_tag hmark)]
    · exact .inr ⟨[b], s, [], rfl, Nat.lt_succ_self _, .octet hb⟩

/-- Every scan is made of steps, up to where it halts. -/
theorem exists_scanned (line : Nat) (s : Bytes) :
    ∃ before rest, s = before ++ rest ∧ Scanned line before rest (scanFrom line 0 s).1 ∧
      Halts (line + lineBreaks before) rest (scanFrom line 0 s).2 := by
  -- a step may take any number of octets, so the induction is on the length
  induction hlength : s.length using Nat.strong_induction_on generalizing line s with
  | _ length ih =>
    subst hlength
    rcases halts_or_step line s with ⟨ending, hhalts⟩ | ⟨part, rest, tags, rfl, hshort, hstep⟩
    · refine ⟨[], s, rfl, ?_, ?_⟩
      · rw [hhalts.scanFrom_eq]
        exact .nil
      · rw [hhalts.scanFrom_eq]
        exact hhalts
    · obtain ⟨more, rest, rfl, hmore, hhalts⟩ :=
        ih rest.length hshort (line + lineBreaks part) rest rfl
      have hlines : lineBreaks (part ++ more) = lineBreaks part + lineBreaks more :=
        List.count_append
      refine ⟨part ++ more, rest, (List.append_assoc ..).symm, ?_, ?_⟩
      · rw [hstep.scanFrom_eq]
        exact .step hstep hmore
      · rw [hstep.scanFrom_eq, hlines, ← Nat.add_assoc]
        exact hhalts

/-- A step finds no tag, or it reads one. -/
theorem ScanStep.tags_cases (h : ScanStep line part rest tags) :
    tags = [] ∨ ∃ inner tag, part = openBrace :: inner ∧ tags = [⟨tag, line⟩] ∧
      mark (inner ++ rest) = .tag tag inner.length := by
  cases h with
  | octet => exact .inl rfl
  | text => exact .inl rfl
  | skipped => exact .inl rfl
  | @tag inner rest tag h => exact .inr ⟨inner, tag, rfl, rfl, h⟩

/-- A tag stands in a text that is scanned from the given line, between `front` and `rest` and after
the tags in `earlier`. -/
structure Stands (line : Nat) (source : Bytes) (earlier : List Placed) (t : Placed)
    (front inner rest : Bytes) :
    Prop where
  eq : source = front ++ openBrace :: (inner ++ rest)
  scanned : Scanned line front (openBrace :: (inner ++ rest)) earlier
  mark : mark (inner ++ rest) = .tag t.tag inner.length
  line : t.line = line + lineBreaks front

/-- Every tag of a scan stands at a brace, on the line of the brace. -/
theorem Scanned.split {t : Placed} (h : Scanned line before rest tags)
    (htags : tags = earlier ++ t :: later) :
    ∃ front inner rest', Stands line (before ++ rest) earlier t front inner rest' := by
  induction h generalizing earlier with
  | nil => simp at htags
  | @step line part more rest tags tags' hstep hmore ih =>
    -- a tag that is found later stands after the part that was read in this step
    have hlater : ∀ earlier', tags' = earlier' ++ t :: later →
        ∃ front inner rest',
          Stands line (part ++ more ++ rest) (tags ++ earlier') t front inner rest' := by
      intro earlier' htags'
      obtain ⟨front, inner, rest', heq, hfront, hmark, hline⟩ := ih htags'
      have hlines : lineBreaks (part ++ front) = lineBreaks part + lineBreaks front :=
        List.count_append
      rw [heq] at hstep
      refine ⟨part ++ front, inner, rest', ?_, .step hstep hfront, hmark, ?_⟩
      · rw [List.append_assoc, heq, List.append_assoc]
      · rw [hline, hlines, Nat.add_assoc]
    rcases hstep.tags_cases with rfl | ⟨inner, tag, rfl, rfl, hmark⟩
    · exact hlater earlier htags
    · cases earlier with
      | nil =>
        obtain ⟨rfl, -⟩ := List.cons.inj htags
        exact ⟨[], inner, more ++ rest, by simp, .nil, hmark, rfl⟩
      | cons t' earlier =>
        obtain ⟨rfl, htags'⟩ := List.cons.inj htags
        exact hlater earlier htags'

end

end SourceTidy.Template
