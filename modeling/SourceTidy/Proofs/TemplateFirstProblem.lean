import SourceTidy.Proofs.TemplateNesting
import SourceTidy.Proofs.TemplateSteps

/-! # The first problem of a template

The check tells of the first thing that is wrong. What stands before it is fine, up to regions that
have not been closed yet, and nothing that comes after it can change the verdict. Only if nothing is
wrong before the end, it tells of a region that has not been closed, and of those it tells of the
one that was opened last.

* `accept_eq_error`: what is told of a tag that is refused;
* `StillOpen`: a region that is open at the end;
* `exists_stillOpen`: all that is on the stack is such a region;
* `check_tells_first_problem`: what the check tells of a template.
-/

namespace SourceTidy.Template

open Ascii Bytes

/-! ## Refused tags -/

/-- The line that is told, if any is. -/
def Fault.line? : Fault → Option Nat
  | .unknownTag _ _ => none
  | .malformed _ line => some line

/-- The fault is one of the tag: the tag is unknown, or may not stand where it does. -/
def Fault.IsOf (tag : Tag) : Fault → Prop
  | .unknownTag closing name => closing = tag.closing ∧ name = tag.name
  | .malformed (.unexpectedClosing name) _ => tag.closing = true ∧ name = tag.name
  | .malformed (.crossedClosing name _) _ => tag.closing = true ∧ name = tag.name
  | .malformed (.unexpectedTag name) _ => tag.closing = false ∧ name = tag.name
  | .malformed (.missingClosing _) _ | .malformed .openComment _ | .malformed .openTag _ => False

section

variable {stack outer : List OpenTag} {tags : List Placed} {t : Placed} {o : OpenTag}
  {fault : Fault}

/-- A closing tag is refused if nothing is there to close, or something else has to be closed first.
-/
theorem closeTag_eq_error {name : String} {line : Nat}
    (h : closeTag name line stack = .error fault) :
    fault = .malformed (.unexpectedClosing name) line ∨
      ∃ expected, fault = .malformed (.crossedClosing name expected) line := by
  induction stack with
  | nil =>
    cases h
    exact .inl rfl
  | cons top stack ih =>
    rw [closeTag] at h
    split_ifs at h
    · exact ih h
    · cases h
      exact .inr ⟨top.name, rfl⟩

/-- A tag that is refused is told by its name, with its own line. -/
theorem accept_eq_error (h : accept stack t = .error fault) :
    fault.IsOf t.tag ∧ ∀ line ∈ fault.line?, line = t.line := by
  -- a malformed tag is told on its line; an unknown one is told without a line
  have hline : ∀ problem, ∀ line ∈ (Fault.malformed problem t.line).line?, line = t.line := by
    rintro problem line ⟨⟩
    rfl
  rw [accept] at h
  split_ifs at h with hprint hclosing
  · unfold acceptClosing at h
    split_ifs at h with hempty hunknown
    · cases stack with
      | nil =>
        cases h
        exact ⟨⟨hclosing, (String.isEmpty_iff.mp hempty).symm⟩, hline _⟩
      | cons top outer => cases h
    · cases h
      exact ⟨⟨hclosing.symm, rfl⟩, by rintro line ⟨⟩⟩
    · rcases closeTag_eq_error h with rfl | ⟨expected, rfl⟩
      · exact ⟨⟨hclosing, rfl⟩, hline _⟩
      · exact ⟨⟨hclosing, rfl⟩, hline _⟩
  · rw [Bool.not_eq_true] at hprint hclosing
    rw [acceptOpening_eq stack t.line hprint hclosing] at h
    split_ifs at h
    · cases h
      exact ⟨⟨hclosing.symm, rfl⟩, by rintro line ⟨⟩⟩
    · cases h
      exact ⟨⟨hclosing, rfl⟩, hline _⟩

/-- The first tag that is refused. -/
theorem foldlM_accept_eq_error (h : tags.foldlM accept stack = .error fault) :
    ∃ earlier t later stack', tags = earlier ++ t :: later ∧
      earlier.foldlM accept stack = .ok stack' ∧
      accept stack' t = .error fault := by
  induction tags generalizing stack with
  | nil => cases h
  | cons t tags ih =>
    rw [List.foldlM_cons] at h
    cases haccept : accept stack t with
    | error fault' =>
      rw [haccept] at h
      cases h
      exact ⟨[], t, tags, stack, rfl, rfl, haccept⟩
    | ok stack₁ =>
      rw [haccept] at h
      obtain ⟨earlier, t', later, stack', rfl, hearlier, hrefused⟩ := ih h
      refine ⟨t :: earlier, t', later, stack', rfl, ?_, hrefused⟩
      rw [List.foldlM_cons, haccept]
      exact hearlier

/-- Once a tag is refused, those after it are not looked at. -/
theorem foldlM_accept_append_refused {earlier : List Placed}
    (hearlier : earlier.foldlM accept [] = .ok stack) (hrefused : accept stack t = .error fault)
    (later : List Placed) :
    (earlier ++ t :: later).foldlM accept [] = .error fault := by
  rw [List.foldlM_append, hearlier]
  show (t :: later).foldlM accept stack = _
  rw [List.foldlM_cons, hrefused]
  rfl

/-- If all tags are accepted, so are all but the last one. -/
theorem foldlM_accept_snoc (h : (tags ++ [t]).foldlM accept [] = .ok outer) :
    ∃ stack, tags.foldlM accept [] = .ok stack ∧ accept stack t = .ok outer := by
  rw [List.foldlM_append] at h
  cases hbefore : tags.foldlM accept [] with
  | error fault =>
    rw [hbefore] at h
    cases h
  | ok stack =>
    rw [hbefore] at h
    simp only [List.foldlM_cons, List.foldlM_nil, bind_pure] at h
    exact ⟨stack, rfl, h⟩

/-! ## Regions that are open at the end -/

/-- The tag at place `i` comes when the tags in `outer` are open. It puts `o` on them, which stays
there up to the last tag. -/
structure StillOpen (tags : List Placed) (i : Nat) (o : OpenTag) (outer : List OpenTag) : Prop where
  lt : i < tags.length
  before : (tags.take i).foldlM accept [] = .ok outer
  after : ∀ n, i < n → n ≤ tags.length →
    ∃ inner, (tags.take n).foldlM accept [] = .ok (inner ++ o :: outer)

/-- A region that is open stays so, if it is still on the stack after one more tag. -/
theorem StillOpen.snoc {i : Nat} {inner : List OpenTag} (h : StillOpen tags i o outer)
    (hrun : (tags ++ [t]).foldlM accept [] = .ok (inner ++ o :: outer)) :
    StillOpen (tags ++ [t]) i o outer := by
  constructor
  · rw [List.length_append]
    exact Nat.lt_add_right 1 h.lt
  · rw [List.take_append_of_le_length h.lt.le]
    exact h.before
  · intro n hi hn
    rw [List.length_append, List.length_singleton] at hn
    rcases Nat.lt_or_eq_of_le hn with hn | rfl
    · have hle : n ≤ tags.length := by omega
      rw [List.take_append_of_le_length hle]
      exact h.after n hi hle
    · rw [List.take_of_length_le (by rw [List.length_append, List.length_singleton])]
      exact ⟨inner, hrun⟩

/-- Every tag on the stack is a tag of the template whose region is open at the end. -/
theorem exists_stillOpen {inner : List OpenTag}
    (h : tags.foldlM accept [] = .ok (inner ++ o :: outer)) :
    ∃ i t, tags[i]? = some t ∧ o = ⟨t.tag.name, t.line, !t.tag.isPaired⟩ ∧
      StillOpen tags i o outer := by
  induction tags using List.reverseRecOn generalizing inner o outer with
  | nil => simp [pure, Except.pure] at h
  | append_singleton tags t ih =>
    -- what was on the stack before the last tag, with the same tags below it, is still open
    have hkept : ∀ inner', tags.foldlM accept [] = .ok (inner' ++ o :: outer) →
        ∃ i t', (tags ++ [t])[i]? = some t' ∧ o = ⟨t'.tag.name, t'.line, !t'.tag.isPaired⟩ ∧
          StillOpen (tags ++ [t]) i o outer := by
      intro inner' hbefore
      obtain ⟨i, t', ht', ho, hopen⟩ := ih hbefore
      refine ⟨i, t', ?_, ho, hopen.snoc h⟩
      rw [List.getElem?_append_left hopen.lt]
      exact ht'
    obtain ⟨stack, hbefore, haccept⟩ := foldlM_accept_snoc h
    obtain ⟨-, haccepted, -⟩ := accept_eq_ok haccept
    generalize hafter : inner ++ o :: outer = after at haccepted
    cases haccepted with
    | @closed dropped top _ hclosing hstack hdropped hname =>
      -- a closing tag takes from the top only
      refine hkept (dropped ++ top :: inner) ?_
      rw [hbefore, hstack, ← hafter, List.append_assoc, List.cons_append]
    | alone hclosing hopens =>
      subst hafter
      exact hkept inner hbefore
    | opened hclosing hopens =>
      cases inner with
      | cons x inner =>
        -- the tag on top is the new one, so this one lies below it
        obtain ⟨-, rfl⟩ := List.cons.inj hafter
        exact hkept inner hbefore
      | nil =>
        obtain ⟨rfl, rfl⟩ := List.cons.inj hafter
        refine ⟨tags.length, t, List.getElem?_concat_length, rfl, ?_⟩
        constructor
        · rw [List.length_append]
          exact Nat.lt_add_one _
        · rw [List.take_left]
          exact hbefore
        · intro n hlt hn
          rw [List.length_append, List.length_singleton] at hn
          obtain rfl : n = tags.length + 1 := by omega
          rw [List.take_of_length_le (by rw [List.length_append, List.length_singleton])]
          exact ⟨[], h⟩

/-- A region that was opened later lies further inside. -/
theorem StillOpen.length_lt {i i' : Nat} {o' : OpenTag} {outer' : List OpenTag}
    (h : StillOpen tags i o outer) (h' : StillOpen tags i' o' outer') (hlt : i < i') :
    outer.length < outer'.length := by
  obtain ⟨inner, hinner⟩ := h.after i' hlt h'.lt.le
  obtain rfl := Except.ok.inj (h'.before.symm.trans hinner)
  rw [List.length_append, List.length_cons]
  omega

/-- What is on the stack for a tag is given by the tag. -/
theorem StillOpen.eq_of_getElem? {i : Nat} (h : StillOpen tags i o outer) (ht : tags[i]? = some t) :
    o = ⟨t.tag.name, t.line, !t.tag.isPaired⟩ := by
  obtain ⟨inner, hrun⟩ := h.after tags.length h.lt (Nat.le_refl _)
  rw [List.take_length] at hrun
  obtain ⟨i', t', ht', ho, h'⟩ := exists_stillOpen hrun
  have hi : i = i' := by
    rcases Nat.lt_trichotomy i i' with hlt | heq | hgt
    · exact absurd (h.length_lt h' hlt) (Nat.lt_irrefl _)
    · exact heq
    · exact absurd (h'.length_lt h hgt) (Nat.lt_irrefl _)
  subst hi
  obtain rfl : t = t' := Option.some.inj (ht.symm.trans ht')
  exact ho

/-- Above the innermost tag that has to be closed there are only tags that need not be closed, so no
tag that has to be closed was opened after it. -/
theorem StillOpen.le_of_isPaired {inner : List OpenTag} {i i' : Nat} {o' : OpenTag}
    {outer' : List OpenTag} (h : StillOpen tags i o outer)
    (hrun : tags.foldlM accept [] = .ok (inner ++ o :: outer))
    (hinner : ∀ x ∈ inner, x.optional = true) (h' : StillOpen tags i' o' outer')
    (ht : tags[i']? = some t) (hpaired : t.tag.isPaired = true) : i' ≤ i := by
  by_contra hnot
  have hlength := h.length_lt h' (by omega)
  obtain ⟨inner', hrun'⟩ := h'.after tags.length h'.lt (Nat.le_refl _)
  rw [List.take_length] at hrun'
  have hrequired : o'.optional = false := by
    rw [h'.eq_of_getElem? ht, hpaired]
    rfl
  -- both are on the stack at the end, so one of them lies above the other
  have hstack : inner ++ o :: outer = inner' ++ o' :: outer' :=
    Except.ok.inj (hrun.symm.trans hrun')
  rcases List.append_eq_append_iff.mp hstack with ⟨between, -, hbelow⟩ | ⟨between, rfl, hbelow⟩
  · -- it would lie below the innermost one
    have hcount := congrArg List.length hbelow
    rw [List.length_append, List.length_cons, List.length_cons] at hcount
    omega
  · cases between with
    | nil =>
      obtain ⟨-, rfl⟩ := List.cons.inj hbelow
      exact absurd hlength (Nat.lt_irrefl _)
    | cons x between =>
      obtain ⟨rfl, -⟩ := List.cons.inj hbelow
      rw [hinner o' (by simp)] at hrequired
      cases hrequired

end

/-! ## What the check tells -/

/-- The fault tells of what stands at place `p`. -/
inductive Offends (source : Bytes) (p : Nat) : Fault → Prop where
  | openComment {line : Nat} (hmark : mark (source.drop (p + 1)) = .openComment) :
      Offends source p (.malformed .openComment line)
  | openTag {line : Nat} (hmark : mark (source.drop (p + 1)) = .openTag) :
      Offends source p (.malformed .openTag line)
  /-- A tag that is refused whatever follows it. -/
  | tag {tag : Tag} {extent : Nat} {fault : Fault}
      (hmark : mark (source.drop (p + 1)) = .tag tag extent)
      (hof : fault.IsOf tag)
      (hagain : ∀ other, source.take (p + 1 + extent) <+: other → check other = .error fault) :
      Offends source p fault

/-- The first problem of a template is at the brace at place `p`. -/
structure FirstProblem (source : Bytes) (p : Nat) (fault : Fault) : Prop where
  brace : source[p]? = some openBrace
  line : ∀ line ∈ fault.line?, line = lineBreaks (source.take p) + 1
  /-- Before it there is nothing wrong, but that regions may be open. -/
  before : check (source.take p) = .ok () ∨
    ∃ name line, check (source.take p) = .error (.malformed (.missingClosing name) line)
  offends : Offends source p fault

/-- The tag at place `i` among the tags of a template is the last one whose region has to be closed
and is open at the end, and nothing else is wrong. The tag stands at the brace at place `p`. -/
structure LastOpen (source : Bytes) (i p : Nat) (t : Placed) : Prop where
  complete : (scan source).2 = .complete
  accepted : ∃ stack, (scan source).1.foldlM accept [] = .ok stack
  tag : (scan source).1[i]? = some t
  paired : t.tag.isPaired = true
  stillOpen : ∃ o outer, StillOpen (scan source).1 i o outer
  last : ∀ i' t', (scan source).1[i']? = some t' → t'.tag.isPaired = true →
    (∃ o outer, StillOpen (scan source).1 i' o outer) → i' ≤ i
  brace : source[p]? = some openBrace
  mark : ∃ extent, mark (source.drop (p + 1)) = .tag t.tag extent
  earlier : (scan (source.take p)).1 = (scan source).1.take i
  line : t.line = lineBreaks (source.take p) + 1

section

variable {source front after : Bytes} {earlier later : List Placed} {stack : List OpenTag}
  {t : Placed} {fault : Fault}

/-- After a scan that comes to its end, only a region that is open can be told of. -/
theorem finish_complete (stack : List OpenTag) :
    finish stack .complete = .ok () ∨
      ∃ name line, finish stack .complete = .error (.malformed (.missingClosing name) line) := by
  rw [finish]
  cases innermost? stack with
  | none => exact .inl rfl
  | some o => exact .inr ⟨o.name, o.line, rfl⟩

/-- What is told of then is the innermost open region that has to be closed. -/
theorem finish_eq_missing {ending : Ending} {name : String} {line : Nat}
    (h : finish stack ending = .error (.malformed (.missingClosing name) line)) :
    ending = .complete ∧ ∃ o, innermost? stack = some o ∧ o.name = name ∧ o.line = line := by
  cases ending with
  | openComment => cases h
  | openTag => cases h
  | complete =>
    rw [finish] at h
    cases hinner : innermost? stack with
    | none =>
      rw [hinner] at h
      cases h
    | some o =>
      rw [hinner] at h
      cases h
      exact ⟨rfl, o, rfl, rfl, rfl⟩

/-- The text before a brace has the tags that a scan finds before it comes to the brace. -/
theorem Scanned.scan_front (h : Scanned 1 front (openBrace :: after) earlier) :
    scan front = (earlier, .complete) := by
  have hend : Scanned 1 front [] earlier := h.replace rfl (by rintro b ⟨⟩)
  have hscan := hend.scanFrom_eq
  rw [List.append_nil] at hscan
  rw [scan, hscan]
  show (earlier ++ [], Ending.complete) = _
  rw [List.append_nil]

/-- If all tags are accepted, the end decides. -/
theorem check_of_run (hrun : (scan source).1.foldlM accept [] = .ok stack) :
    check source = finish stack (scan source).2 := by
  rw [check]
  show (scan source).1.foldlM accept [] >>= _ = _
  rw [hrun]
  rfl

theorem check_of_refused (hrun : (scan source).1.foldlM accept [] = .error fault) :
    check source = .error fault := by
  rw [check]
  show (scan source).1.foldlM accept [] >>= _ = _
  rw [hrun]
  rfl

/-- A tag is refused, or something is wrong at the end. -/
theorem check_eq_error (h : check source = .error fault) :
    (scan source).1.foldlM accept [] = .error fault ∨
      ∃ stack, (scan source).1.foldlM accept [] = .ok stack ∧
        finish stack (scan source).2 = .error fault := by
  cases hrun : (scan source).1.foldlM accept [] with
  | error fault' =>
    rw [check_of_refused hrun] at h
    cases h
    exact .inl rfl
  | ok stack =>
    rw [check_of_run hrun] at h
    exact .inr ⟨stack, rfl, h⟩

/-- What is told of a brace is the first problem, if all the tags before it have been accepted. -/
theorem firstProblem_of_scanned (h : Scanned 1 front (openBrace :: after) earlier)
    (hrun : earlier.foldlM accept [] = .ok stack)
    (hline : ∀ line ∈ fault.line?, line = 1 + lineBreaks front)
    (hoffends : Offends (front ++ openBrace :: after) front.length fault) :
    FirstProblem (front ++ openBrace :: after) front.length fault where
  brace := by simp
  line := by
    intro line hmem
    rw [List.take_left, hline line hmem, Nat.add_comm]
  before := by
    have hscan := h.scan_front
    have hcheck : check front = finish stack .complete := by
      rw [check_of_run (by rw [hscan, hrun]), hscan]
    rw [List.take_left, hcheck]
    exact finish_complete stack
  offends := hoffends

theorem drop_succ_length_append {b : UInt8} :
    (front ++ b :: after).drop (front.length + 1) = after := by simp

/-- A tag that is refused is refused in every template that begins in the same way. -/
theorem Stands.offends {inner rest : Bytes} (h : Stands 1 source earlier t front inner rest)
    (hrun : earlier.foldlM accept [] = .ok stack) (hrefused : accept stack t = .error fault) :
    Offends source front.length fault := by
  obtain ⟨rfl, hscanned, hmark, hline⟩ := h
  have hbegin : (front ++ openBrace :: (inner ++ rest)).take (front.length + 1 + inner.length) =
      front ++ openBrace :: inner := by
    rw [Nat.add_assoc, List.take_length_add_append, Nat.add_comm 1, List.take_succ_cons,
      List.take_left]
  refine @Offends.tag _ _ t.tag inner.length fault ?_ (accept_eq_error hrefused).1 ?_
  · rw [drop_succ_length_append]
    exact hmark
  · rw [hbegin]
    rintro _ ⟨rest', rfl⟩
    -- what follows the tag changes neither the scan up to it nor the tag
    have hbrace : AtBrace (openBrace :: (inner ++ rest')) := by
      rintro b ⟨⟩
      rfl
    have hfront : Scanned 1 front (openBrace :: (inner ++ rest')) earlier :=
      hscanned.replace rfl hbrace
    have hstep : ScanStep (1 + lineBreaks front) (openBrace :: inner) rest'
        [⟨t.tag, 1 + lineBreaks front⟩] :=
      .tag (mark_tag_congr hmark rest')
    rw [← hline] at hstep
    refine check_of_refused ?_
    rw [List.append_assoc, List.cons_append, scan, hfront.scanFrom_eq, ← hline, ← List.cons_append,
      hstep.scanFrom_eq]
    exact foldlM_accept_append_refused hrun hrefused _

/-- Every tag that is found in a template stands somewhere in it. -/
theorem exists_stands (h : (scan source).1 = earlier ++ t :: later) :
    ∃ front inner rest, Stands 1 source earlier t front inner rest := by
  obtain ⟨before, rest, heq, hscanned, -⟩ := exists_scanned 1 source
  obtain ⟨front, inner, rest', hstands⟩ := hscanned.split h
  rw [← heq] at hstands
  exact ⟨front, inner, rest', hstands⟩

/-- A tag that is refused is the first problem. -/
theorem exists_firstProblem_of_refused (h : (scan source).1.foldlM accept [] = .error fault) :
    ∃ p, FirstProblem source p fault := by
  obtain ⟨earlier, t, later, stack, htags, hrun, hrefused⟩ := foldlM_accept_eq_error h
  obtain ⟨front, inner, rest, hstands⟩ := exists_stands htags
  have hoffends := hstands.offends hrun hrefused
  obtain ⟨rfl, hscanned, -, hline⟩ := hstands
  refine ⟨front.length, firstProblem_of_scanned hscanned hrun ?_ hoffends⟩
  intro line hmem
  rw [← hline]
  exact (accept_eq_error hrefused).2 line hmem

/-- A comment or a tag without an end is the first problem, if all the tags have been accepted. -/
theorem exists_firstProblem_of_ending (hrun : (scan source).1.foldlM accept [] = .ok stack)
    (hfinish : finish stack (scan source).2 = .error fault)
    (hending : (scan source).2 ≠ .complete) :
    ∃ p, FirstProblem source p fault := by
  obtain ⟨before, rest, heq, hscanned, hhalts⟩ := exists_scanned 1 source
  change Scanned 1 before rest (scan source).1 at hscanned
  change Halts (1 + lineBreaks before) rest (scan source).2 at hhalts
  -- the scan has halted at a brace, and all that is before it is fine
  have hfirst : ∀ {after : Bytes} {problem : Problem}, rest = openBrace :: after →
      Offends source before.length (.malformed problem (1 + lineBreaks before)) →
      ∃ p, FirstProblem source p (.malformed problem (1 + lineBreaks before)) := by
    rintro after problem rfl hoffends
    subst heq
    refine ⟨before.length, firstProblem_of_scanned hscanned hrun ?_ hoffends⟩
    rintro line ⟨⟩
    rfl
  generalize (scan source).2 = ending at hfinish hending hhalts
  cases hhalts with
  | complete => exact absurd rfl hending
  | openComment hmark =>
    cases hfinish
    refine hfirst rfl (.openComment ?_)
    rw [heq, drop_succ_length_append]
    exact hmark
  | openTag hmark =>
    cases hfinish
    refine hfirst rfl (.openTag ?_)
    rw [heq, drop_succ_length_append]
    exact hmark

/-- The region that is told of at the end is the last one that is open. -/
theorem exists_lastOpen {o : OpenTag} (hrun : (scan source).1.foldlM accept [] = .ok stack)
    (hcomplete : (scan source).2 = .complete) (hinner : innermost? stack = some o) :
    ∃ i p t, LastOpen source i p t ∧ o.name = t.tag.name ∧ o.line = t.line := by
  obtain ⟨hrequired, inner, outer, rfl, hoptional⟩ := List.find?_eq_some_iff_append.mp hinner
  -- the innermost one on the stack that is not optional; its tag has a place among the tags and in
  -- the source
  obtain ⟨i, t, ht, ho, hopen⟩ := exists_stillOpen hrun
  obtain ⟨hi, hget⟩ := List.getElem?_eq_some_iff.mp ht
  have htags : (scan source).1 = (scan source).1.take i ++ t :: (scan source).1.drop (i + 1) := by
    rw [← hget, List.getElem_cons_drop, List.take_append_drop]
  obtain ⟨front, inside, rest, heq, hscanned, hmark, hline⟩ := exists_stands htags
  have htake : source.take front.length = front := by rw [heq, List.take_left]
  refine ⟨i, front.length, t, ?_, by rw [ho], by rw [ho]⟩
  constructor
  case complete => exact hcomplete
  case accepted => exact ⟨_, hrun⟩
  case tag => exact ht
  case paired =>
    rw [ho] at hrequired
    simpa using hrequired
  case stillOpen => exact ⟨o, outer, hopen⟩
  case last =>
    rintro i' t' ht' hpaired ⟨o', outer', hopen'⟩
    exact hopen.le_of_isPaired hrun (by simpa using hoptional) hopen' ht' hpaired
  case brace => simp [heq]
  case mark =>
    refine ⟨inside.length, ?_⟩
    rw [heq, drop_succ_length_append]
    exact hmark
  case earlier => rw [htake, hscanned.scan_front]
  case line => rw [htake, hline, Nat.add_comm]

end

/-- The check of a template tells of its first problem. A region that is not closed is told of only
if there is no other problem, and then the last one is. -/
theorem check_tells_first_problem {source : Bytes} {fault : Fault}
    (h : check source = .error fault) :
    ((∀ name line, fault ≠ .malformed (.missingClosing name) line) →
      ∃ p, FirstProblem source p fault) ∧
      ∀ name line, fault = .malformed (.missingClosing name) line →
        ∃ i p t, LastOpen source i p t ∧ name = t.tag.name ∧ line = t.line := by
  rcases check_eq_error h with hrefused | ⟨stack, hrun, hfinish⟩
  · obtain ⟨p, hfirst⟩ := exists_firstProblem_of_refused hrefused
    refine ⟨fun _ => ⟨p, hfirst⟩, ?_⟩
    rintro name line rfl
    -- no tag is refused for a region that is open
    obtain ⟨earlier, t, later, stack, -, -, hrefused⟩ := foldlM_accept_eq_error hrefused
    exact absurd (accept_eq_error hrefused).1 id
  · constructor
    · intro hother
      refine exists_firstProblem_of_ending hrun hfinish ?_
      intro hcomplete
      rw [hcomplete] at hfinish
      rcases finish_complete stack with hok | ⟨name, line, hmissing⟩
      · rw [hok] at hfinish
        cases hfinish
      · rw [hmissing] at hfinish
        exact hother name line (Except.error.inj hfinish).symm
    · rintro name line rfl
      obtain ⟨hcomplete, o, hinner, rfl, rfl⟩ := finish_eq_missing hfinish
      exact exists_lastOpen hrun hcomplete hinner

/-- The string in the second line holds a brace, and the closing tag in the comment does not
count. -/
def crossedTemplate : Bytes :=
  ascii "\x7b* \x7b/if\x7d *\x7d\n\x7bif '\x7d'\x7d\n\x7b/block\x7d\x7b/if\x7d"

/-- The block of the first line is open, and the loop and the label of the third line. The label
need not be closed. -/
def unclosedTemplate : Bytes :=
  ascii "\x7bblock a\x7d\x7bif $x\x7d\n\x7b/if\x7d\n\x7bforeach $a as $b\x7d\x7blabel x\x7d"

theorem check_tells_first_problem_templates :
    (check crossedTemplate = .error (.malformed (.crossedClosing "block" "if") 3) ∧
      ∃ p, FirstProblem crossedTemplate p (.malformed (.crossedClosing "block" "if") 3)) ∧
    check unclosedTemplate = .error (.malformed (.missingClosing "foreach") 3) ∧
      ∃ i p t, LastOpen unclosedTemplate i p t ∧ "foreach" = t.tag.name ∧ 3 = t.line := by
  have hcrossed : check crossedTemplate = .error (.malformed (.crossedClosing "block" "if") 3) := by
    decide +kernel
  have hunclosed : check unclosedTemplate = .error (.malformed (.missingClosing "foreach") 3) := by
    decide +kernel
  refine ⟨⟨hcrossed, (check_tells_first_problem hcrossed).1 ?_⟩, hunclosed, ?_⟩
  · intro name line hmissing
    cases hmissing
  · exact (check_tells_first_problem hunclosed).2 "foreach" 3 rfl

end SourceTidy.Template
