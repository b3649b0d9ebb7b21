import Mathlib.Logic.Function.Iterate
import Mathlib.Logic.Relation
import SourceTidy.Proofs.PhpRuns

/-! # The PHP lexer gets on, and comes to its end

Literals, interpolations and pieces of code lie inside of each other. The lexer keeps what is open
on a stack, and takes one turn after the other. A turn leaves less of the source and touches only
the top of the stack.

* `StackStep`, `stackStep_step`: all that a step can do to the stack;
* `Alternates`: literals and pieces of code take turns on it, so the limit on the pieces bounds its
  height;
* `Turn.advances`: a turn leaves less of the source;
* `Retains`, `exists_returns`: what is opened above some part of the stack ends above it, or the
  source ends;
* `scans_segment`, `lines_nowdocBody`: the rounds in which literal text and a raw here document are
  read;
* `lexer_ends_within_limits`: the run as a whole.
-/

namespace SourceTidy.Php

open Ascii Bytes Relation

/-! ## The stack -/

/-- All that a step can do to the open constructs. -/
inductive StackStep (s : State) : List Frame → Prop where
  | keep : StackStep s s.frames
  | change {f f' : Frame} {outer : List Frame} (hframes : s.frames = f :: outer)
      (hkind : f'.isCode = f.isCode) :
      StackStep s (f' :: outer)
  | close {f : Frame} {outer : List Frame} (hframes : s.frames = f :: outer) : StackStep s outer
  /-- A literal opens in code. -/
  | openLiteral {closer : Closer} {lineStart : Bool}
      (hcode : ∀ f ∈ s.frames.head?, f.isCode = true) :
      StackStep s (.literal closer lineStart :: s.frames)
  /-- A piece of code opens in a literal, within the limit. -/
  | openCode {closer : Closer} {lineStart : Bool} {outer : List Frame}
      (hframes : s.frames = .literal closer lineStart :: outer) (hlimit : s.nesting < maxNesting) :
      StackStep s (.code 0 :: .literal closer false :: outer)

/-- A lexeme of code opens a literal, counts a brace, ends its piece of code, or leaves the stack
alone. -/
theorem stackStep_after {s : State} (hcode : ∀ f ∈ s.frames.head?, f.isCode = true)
    (effect : Effect) :
    StackStep s (s.after effect).frames := by
  cases effect with
  | none => exact .keep
  | leave => exact .keep
  | enter closer lineStart => exact .openLiteral hcode
  | openBrace =>
    simp only [State.after]
    split
    · next hframes => exact .change hframes rfl
    · exact .keep
  | closeBrace =>
    simp only [State.after]
    split
    · next hframes => exact .close hframes
    · next hframes => exact .change hframes rfl
    · exact .keep

/-- What a step in a literal does to the stack. -/
theorem stackStep_stepLiteral {s : State} {closer : Closer} {lineStart : Bool} {outer : List Frame}
    (hframes : s.frames = .literal closer lineStart :: outer) (input : Bytes) :
    StackStep s (s.stepLiteral closer lineStart outer input).next.frames := by
  unfold State.stepLiteral
  generalize segment closer lineStart input = found
  obtain ⟨n, stop⟩ := found
  cases stop with
  | input => exact .keep
  | closed m => exact .close hframes
  | interpolation =>
    dsimp only
    split
    · exact .change hframes rfl
    · split
      · exact .keep
      · next hlimit => exact .openCode hframes (by omega)

/-- What any step does to the stack. -/
theorem stackStep_step (s : State) (input : Bytes) : StackStep s (s.step input).next.frames := by
  unfold State.step
  split
  · next hframes => exact stackStep_stepLiteral hframes input
  · next hframes => exact stackStep_after (by simp [hframes, Frame.isCode]) _
  · next hframes =>
    split
    · exact stackStep_after (by simp [hframes]) _
    · split
      · exact .keep
      · exact .keep

/-- A step leaves what lies below the top. -/
theorem StackStep.exists_append {s : State} {frames below : List Frame} {f : Frame}
    (h : StackStep s frames) (hframes : s.frames = f :: below) :
    ∃ inner, frames = inner ++ below := by
  cases h with
  | keep => exact ⟨[f], hframes⟩
  | @change _ f' outer hs hkind =>
    obtain ⟨-, rfl⟩ := List.cons.inj (hs.symm.trans hframes)
    exact ⟨[f'], rfl⟩
  | close hs =>
    obtain ⟨-, rfl⟩ := List.cons.inj (hs.symm.trans hframes)
    exact ⟨[], rfl⟩
  | @openLiteral closer lineStart _ => exact ⟨[.literal closer lineStart, f], by simp [hframes]⟩
  | @openCode closer _ outer hs hlimit =>
    obtain ⟨-, rfl⟩ := List.cons.inj (hs.symm.trans hframes)
    exact ⟨[.code 0, .literal closer false], rfl⟩

/-- Literals and pieces of code take turns; a literal lies at the bottom. -/
def Alternates : List Frame → Prop
  | [] => True
  | f :: outer => f.isCode = !outer.head?.all Frame.isCode ∧ Alternates outer

/-- Every piece of code lies in a literal of its own, which leaves room for one more literal. -/
theorem Alternates.length_eq {frames : List Frame} (h : Alternates frames) :
    frames.length =
      2 * frames.countP Frame.isCode + if frames.head?.all Frame.isCode then 0 else 1 := by
  induction frames with
  | nil => rfl
  | cons f outer ih =>
    obtain ⟨hkind, houter⟩ := h
    have hlength := ih houter
    rw [List.length_cons, List.countP_cons, hlength, List.head?_cons, Option.all_some, hkind]
    cases outer.head?.all Frame.isCode with
    | true => simp
    | false =>
      simp
      omega

/-- What the lexer has open is within its limits. -/
structure State.Bounded (s : State) : Prop where
  nesting : s.nesting ≤ maxNesting
  alternates : Alternates s.frames

/-- Literals and pieces of code alternate, so the limit on nesting bounds the whole stack. -/
theorem State.Bounded.length_le {s : State} (h : s.Bounded) :
    s.frames.length ≤ 2 * maxNesting + 1 := by
  have hlength := h.alternates.length_eq
  have hnesting : s.frames.countP Frame.isCode ≤ maxNesting := h.nesting
  split at hlength <;> omega

theorem bounded_start : State.start.Bounded := ⟨Nat.zero_le _, trivial⟩

/-- A step stays within the limits. -/
theorem State.Bounded.step {s : State} (h : s.Bounded) (input : Bytes) :
    (s.step input).next.Bounded := by
  obtain ⟨hnesting, halternates⟩ := h
  rw [State.nesting] at hnesting
  suffices hframes : (s.step input).next.frames.countP Frame.isCode ≤ maxNesting ∧
      Alternates (s.step input).next.frames from ⟨hframes.1, hframes.2⟩
  have hstep := stackStep_step s input
  generalize (s.step input).next.frames = frames at hstep
  cases hstep with
  | keep => exact ⟨hnesting, halternates⟩
  | change hs hkind =>
    rw [hs, List.countP_cons] at hnesting
    rw [hs] at halternates
    rw [List.countP_cons, hkind]
    exact ⟨hnesting, hkind.trans halternates.1, halternates.2⟩
  | close hs =>
    rw [hs, List.countP_cons] at hnesting
    rw [hs] at halternates
    exact ⟨by omega, halternates.2⟩
  | openLiteral hcode =>
    refine ⟨by simpa [Frame.isCode] using hnesting, ?_, halternates⟩
    simpa [Frame.isCode, Option.all_eq_true] using hcode
  -- the only case that adds a piece of code, and the lexer has asked for the limit before
  | openCode hs hlimit =>
    rw [State.nesting, hs] at hlimit
    rw [hs] at halternates
    refine ⟨?_, by simp [Frame.isCode], halternates.1, halternates.2⟩
    simp only [List.countP_cons, Frame.isCode] at hlimit ⊢
    simp only [if_true, Bool.false_eq_true, if_false] at hlimit ⊢
    omega

/-! ## Turns -/

/-- Where the lexer stands: its state, and what is left of the source. -/
structure Place where
  state : State
  rest : Bytes
deriving DecidableEq, Repr

/-- The place after one more step. -/
def Place.next (p : Place) : Place :=
  ⟨(p.state.step p.rest).next, p.rest.drop (p.state.step p.rest).extent⟩

/-- The lexer takes a step. At the end of the source it takes none. -/
def Turn (p q : Place) : Prop := p.rest ≠ [] ∧ q = p.next

/-- The lexer comes to the place on its way through the source. -/
def Reached (source : Bytes) (p : Place) : Prop := ReflTransGen Turn ⟨.start, source⟩ p

section

variable {p q r : Place} {source : Bytes}

/-- A turn keeps the labels. -/
theorem Turn.labelled (h : Turn p q) (hp : p.state.Labelled) : q.state.Labelled := by
  obtain ⟨hrest, rfl⟩ := h
  exact (step_spec hp hrest).2

/-- A turn leaves less of the source. -/
theorem Turn.advances (h : Turn p q) (hp : p.state.Labelled) :
    q.rest <:+ p.rest ∧ q.rest.length < p.rest.length := by
  obtain ⟨hrest, rfl⟩ := h
  have hpos := (step_spec hp hrest).1
  have hlength := List.length_pos_iff.mpr hrest
  refine ⟨List.drop_suffix _ _, ?_⟩
  rw [Place.next, List.length_drop]
  omega

/-- Any number of turns keeps the labels. -/
theorem labelled_of_turns (h : ReflTransGen Turn p q) (hp : p.state.Labelled) :
    q.state.Labelled := by
  induction h with
  | refl => exact hp
  | tail _ hturn ih => exact hturn.labelled ih

theorem Reached.labelled (h : Reached source p) : p.state.Labelled :=
  labelled_of_turns h labelled_start

/-- Wherever the lexer comes to, it is within its limits. -/
theorem Reached.bounded (h : Reached source p) : p.state.Bounded := by
  induction h with
  | refl => exact bounded_start
  | tail _ hturn ih =>
    obtain ⟨-, rfl⟩ := hturn
    exact ih.step _

/-- What is left is an end of what was left. -/
theorem suffix_of_turns (h : ReflTransGen Turn p q) : q.rest <:+ p.rest := by
  induction h with
  | refl => exact List.suffix_refl _
  | tail _ hturn ih =>
    obtain ⟨-, rfl⟩ := hturn
    exact (List.drop_suffix _ _).trans ih

/-- After a turn or more, less is left. -/
theorem advances_of_turns (h : TransGen Turn p q) (hp : p.state.Labelled) :
    q.rest <:+ p.rest ∧ q.rest.length < p.rest.length := by
  obtain ⟨r, hturn, hturns⟩ := TransGen.head'_iff.mp h
  have hfirst := (hturn.advances hp).2
  have hlater := suffix_of_turns hturns
  exact ⟨hlater.trans (hturn.advances hp).1, Nat.lt_of_le_of_lt hlater.length_le hfirst⟩

/-- The lexemes of a source are those of the turns up to a place, and those of the rest from
there. -/
theorem Reached.exists_lexemes (h : Reached source p) :
    ∃ before, lex .start 0 source = before ++ lex p.state 0 p.rest ∧
      source = before.flatMap (·.text) ++ p.rest := by
  induction h with
  | refl => exact ⟨[], rfl, rfl⟩
  | @tail p q hturns hturn ih =>
    obtain ⟨before, hlex, hsource⟩ := ih
    have hlabelled : p.state.Labelled := labelled_of_turns hturns labelled_start
    obtain ⟨hrest, rfl⟩ := hturn
    refine ⟨before ++ cutUp (p.state.step p.rest).cuts p.rest, ?_, ?_⟩
    · rw [hlex, lex_step hlabelled hrest, List.append_assoc]
      rfl
    · rw [List.flatMap_append, flatMap_text_cutUp, List.append_assoc, ← Step.extent_eq, Place.next,
        List.take_append_drop]
      exact hsource

/-- From a place with `n` octets left the lexer takes `n` turns at most. -/
theorem exists_end_of_labelled (hp : p.state.Labelled) :
    ∃ n ≤ p.rest.length, (Place.next^[n] p).rest = [] ∧ ReflTransGen Turn p (Place.next^[n] p) := by
  induction hlength : p.rest.length using Nat.strongRecOn generalizing p with
  | _ length ih =>
    by_cases hrest : p.rest = []
    · exact ⟨0, Nat.zero_le _, hrest, .refl⟩
    · have hturn : Turn p p.next := ⟨hrest, rfl⟩
      have hshorter := (hturn.advances hp).2
      obtain ⟨n, hn, hend, hturns⟩ := ih _ (hlength ▸ hshorter) (hturn.labelled hp) rfl
      exact ⟨n + 1, by omega, hend, .head hturn hturns⟩

/-! ## What is opened above a part of the stack -/

/-- Something is open above the frames. -/
def OpenAbove (below : List Frame) (p : Place) : Prop :=
  ∃ f inner, p.state.frames = f :: (inner ++ below)

/-- The lexer goes on from `p` to `q`, and at every place before `q` something is open above the
frames. -/
inductive Retains (below : List Frame) : Place → Place → Prop where
  | here {p : Place} : Retains below p p
  | turn {p q r : Place} (hopen : OpenAbove below p) (hturn : Turn p q)
      (hretains : Retains below q r) :
      Retains below p r

/-- What is open above the frames at `p` has ended at `q`, or the source has. -/
structure Returns (below : List Frame) (p q : Place) : Prop where
  retains : Retains below p q
  ended : q.state.frames = below ∨ q.rest = [] ∧ OpenAbove below q

theorem Retains.turns {below : List Frame} (h : Retains below p q) : ReflTransGen Turn p q := by
  induction h with
  | here => exact .refl
  | turn _ hturn _ ih => exact .head hturn ih

/-- What is open above the frames ends, or goes on with the frames below it. -/
theorem frames_next {below : List Frame} (h : OpenAbove below p) :
    p.next.state.frames = below ∨ OpenAbove below p.next := by
  obtain ⟨f, inner, hframes⟩ := h
  obtain ⟨inner', hnext⟩ := (stackStep_step p.state p.rest).exists_append hframes
  rw [← List.append_assoc] at hnext
  cases hsplit : inner' ++ inner with
  | nil =>
    rw [hsplit] at hnext
    exact .inl hnext
  | cons g more =>
    rw [hsplit] at hnext
    exact .inr ⟨g, more, hnext⟩

/-- What is open above some frames ends above them, or the source ends. -/
theorem exists_returns {below : List Frame} (hp : p.state.Labelled)
    (hopen : p.state.frames = below ∨ OpenAbove below p) : ∃ q, Returns below p q := by
  -- each turn leaves less of the source, and the frames below are still there after it
  induction hlength : p.rest.length using Nat.strongRecOn generalizing p with
  | _ length ih =>
    rcases hopen with hframes | hopen
    · exact ⟨p, .here, .inl hframes⟩
    · by_cases hrest : p.rest = []
      · exact ⟨p, .here, .inr ⟨hrest, hopen⟩⟩
      · have hturn : Turn p p.next := ⟨hrest, rfl⟩
        have hshorter := (hturn.advances hp).2
        obtain ⟨q, hretains, hended⟩ :=
          ih _ (hlength ▸ hshorter) (hturn.labelled hp) (frames_next hopen) rfl
        exact ⟨q, .turn hopen hturn hretains, hended⟩

end

/-! ## Rounds inside of a step -/

/-- One round of reading literal text: an octet, or a backslash with the octet after it, where
neither the delimiter nor an interpolation stands. The flag tells whether a line starts here. -/
inductive TextRound (closer : Closer) : Bool × Bytes → Bool × Bytes → Prop where
  | octet {lineStart : Bool} {b : UInt8} {rest : Bytes}
      (hopen : closer.at? lineStart (b :: rest) = none)
      (hb : b ≠ backslash) (hplain : startsInterpolation (b :: rest) = false) :
      TextRound closer (lineStart, b :: rest) (decide (b = lf), rest)
  | escape {lineStart : Bool} {c : UInt8} {rest : Bytes}
      (hopen : closer.at? lineStart (backslash :: c :: rest) = none) :
      TextRound closer (lineStart, backslash :: c :: rest) (decide (c = lf), rest)
  | lone {lineStart : Bool} (hopen : closer.at? lineStart [backslash] = none) :
      TextRound closer (lineStart, [backslash]) (false, [])

/-- Why no round of literal text follows. -/
def TextEnds (closer : Closer) (lineStart : Bool) (s : Bytes) : SegmentEnd → Prop
  | .closed n => closer.at? lineStart s = some n
  | .interpolation => closer.at? lineStart s = none ∧ startsInterpolation s = true
  | .input => s = []

/-- The first line of the text does not close the here document, and the second one starts with
`t`. -/
def LineRound (label s t : Bytes) : Prop :=
  closingLabel? label s = none ∧ ∃ line, s = line ++ lf :: t ∧ lf ∉ line

/-- A round that leaves less. -/
abbrev Shortens {α : Type} (round : α → α → Prop) (rest : α → Bytes) (x y : α) : Prop :=
  round x y ∧ (rest y).length < (rest x).length

theorem length_le_of_rounds {α : Type} {round : α → α → Prop} {rest : α → Bytes} {x y : α}
    (h : ReflTransGen (Shortens round rest) x y) : (rest y).length ≤ (rest x).length := by
  induction h with
  | refl => exact Nat.le_refl _
  | tail _ hround ih => exact (Nat.le_of_lt hround.2).trans ih

/-- Literal text is read in rounds, and each of them leaves less. -/
theorem scans_segment (closer : Closer) (lineStart : Bool) (s : Bytes) :
    ∃ lineStart', ReflTransGen (Shortens (TextRound closer) Prod.snd) (lineStart, s)
        (lineStart', s.drop (segment closer lineStart s).1) ∧
      TextEnds closer lineStart' (s.drop (segment closer lineStart s).1)
        (segment closer lineStart s).2 := by
  fun_induction segment closer lineStart s with
  | case1 lineStart => exact ⟨lineStart, .refl, rfl⟩
  | case2 lineStart b rest n hclosed => exact ⟨lineStart, .refl, hclosed⟩
  | case3 lineStart hopen => exact ⟨false, .single ⟨.lone hopen, by simp⟩, rfl⟩
  | case4 lineStart c rest n stop hrest hopen ih =>
    rw [hrest] at ih
    obtain ⟨lineStart', hrounds, hends⟩ := ih
    refine ⟨lineStart', .head ⟨.escape hopen, ?_⟩ hrounds, hends⟩
    simp only [List.length_cons]
    omega
  | case5 lineStart b rest hopen _ hstart => exact ⟨lineStart, .refl, hopen, hstart⟩
  | case6 lineStart b rest hopen hb hplain n stop hrest ih =>
    rw [hrest] at ih
    obtain ⟨lineStart', hrounds, hends⟩ := ih
    refine ⟨lineStart', .head ⟨.octet hopen hb (by simpa using hplain), ?_⟩ hrounds, hends⟩
    exact Nat.lt_succ_self _

/-- Inside of a line a raw here document is read up to the next line. -/
theorem nowdocBody_line {label line t : Bytes} (hline : lf ∉ line) :
    nowdocBody label false (line ++ lf :: t) =
      (line.length + 1 + (nowdocBody label true t).1, (nowdocBody label true t).2) := by
  induction line with
  | nil =>
    rw [List.nil_append, nowdocBody_cons (by simp), Nat.add_comm]
    rfl
  | cons b line ih =>
    rw [List.mem_cons, not_or] at hline
    have hb : decide (b = lf) = false := decide_eq_false (Ne.symm hline.1)
    rw [List.cons_append, nowdocBody_cons (by simp), hb, ih hline.2, List.length_cons]
    simp only [Prod.mk.injEq, and_true]
    omega

/-- On its last line the source ends before the here document does. -/
theorem nowdocBody_lastLine {label line : Bytes} (hline : lf ∉ line) :
    nowdocBody label false line = (line.length, 0) := by
  induction line with
  | nil => rfl
  | cons b line ih =>
    rw [List.mem_cons, not_or] at hline
    have hb : decide (b = lf) = false := decide_eq_false (Ne.symm hline.1)
    rw [nowdocBody_cons (by simp), hb, ih hline.2, List.length_cons]

/-- Where no label stands, a line is read as from its middle. -/
theorem nowdocBody_open {label s : Bytes} (h : closingLabel? label s = none) :
    nowdocBody label true s = nowdocBody label false s := by
  cases s with
  | nil =>
    rw [nowdocBody.eq_def]
    simp only [if_true, h]
    rfl
  | cons b rest => rw [nowdocBody_cons fun _ => h, nowdocBody_cons (by simp)]

/-- A raw here document is read line by line, and each line leaves less: up to the line with its
label, or to the last line of the source. -/
theorem lines_nowdocBody (label s : Bytes) :
    ∃ t, ReflTransGen (Shortens (LineRound label) id) s t ∧
      match closingLabel? label t with
      | some n => nowdocBody label true s = (s.length - t.length, n)
      | none => lf ∉ t ∧ nowdocBody label true s = (s.length, 0) := by
  -- line by line: each line that does not close the document leaves a shorter text
  induction hlength : s.length using Nat.strongRecOn generalizing s with
  | _ length ih =>
    subst hlength
    cases hclosed : closingLabel? label s with
    | some n =>
      refine ⟨s, .refl, ?_⟩
      simp only [hclosed, Nat.sub_self]
      exact nowdocBody_closed hclosed
    | none =>
      by_cases hlf : lf ∈ s
      · obtain ⟨line, more, rfl, hline⟩ := List.eq_append_cons_of_mem hlf
        have hshorter : more.length < (line ++ lf :: more).length := by
          rw [List.length_append, List.length_cons]
          omega
        obtain ⟨t, hrounds, hends⟩ := ih more.length hshorter more rfl
        have hbody : nowdocBody label true (line ++ lf :: more) =
            (line.length + 1 + (nowdocBody label true more).1, (nowdocBody label true more).2) :=
          (nowdocBody_open hclosed).trans (nowdocBody_line hline)
        have hle : t.length ≤ more.length := length_le_of_rounds hrounds
        refine ⟨t, .head ⟨⟨hclosed, line, rfl, hline⟩, hshorter⟩ hrounds, ?_⟩
        rw [hbody]
        cases hlabel : closingLabel? label t with
        | some n =>
          simp only [hlabel] at hends ⊢
          rw [hends]
          simp only [List.length_append, List.length_cons, Prod.mk.injEq, and_true]
          omega
        | none =>
          simp only [hlabel] at hends ⊢
          refine ⟨hends.1, ?_⟩
          rw [hends.2]
          simp only [List.length_append, List.length_cons, Prod.mk.injEq, and_true]
          omega
      · refine ⟨s, .refl, ?_⟩
        simp only [hclosed]
        exact ⟨hlf, (nowdocBody_open hclosed).trans (nowdocBody_lastLine hlf)⟩

/-! ## Interpolations and here documents -/

/-- The lexer is in code, of the file or of an interpolation. -/
def Place.InCode (p : Place) : Prop :=
  match p.state.frames with
  | [] => p.state.inCode = true
  | f :: _ => f.isCode = true

/-- A literal is open that `closer` closes, and after `n` octets of text there is an
interpolation. -/
def Place.Interpolates (p : Place) (closer : Closer) (outer : List Frame) (n : Nat) : Prop :=
  ∃ lineStart, p.state.frames = .literal closer lineStart :: outer ∧
    segment closer lineStart p.rest = (n, .interpolation)

/-- The interpolation after `n` octets is in braces, and there are as many pieces of code as there
may be. -/
def Place.AtLimit (p : Place) (n : Nat) : Prop :=
  (∃ m, braceOpener? (p.rest.drop n) = some m) ∧ maxNesting ≤ p.state.nesting

/-- All that a step at an interpolation can be. -/
inductive InterpolationStep (p : Place) (closer : Closer) (outer : List Frame) (n : Nat) :
    Step → Prop where
  | simple (hopener : braceOpener? (p.rest.drop n) = none) :
      InterpolationStep p closer outer n
        ⟨[⟨.interpolated, n⟩, ⟨.other, simpleVariable (p.rest.drop n)⟩],
        { p.state with frames := .literal closer false :: outer }⟩
  | opens {m : Nat} (hopener : braceOpener? (p.rest.drop n) = some m)
      (hlimit : p.state.nesting < maxNesting) :
      InterpolationStep p closer outer n ⟨[⟨.interpolated, n⟩, ⟨.other, m⟩],
        { p.state with frames := .code 0 :: .literal closer false :: outer }⟩
  | atLimit (hlimit : p.AtLimit n) :
      InterpolationStep p closer outer n
        ⟨[⟨.interpolated, n⟩, ⟨.other, (p.rest.drop n).length⟩], p.state⟩

section

variable {p : Place} {closer : Closer} {outer : List Frame} {n : Nat}

theorem Place.Interpolates.start_ne_nil (h : p.Interpolates closer outer n) :
    p.rest.drop n ≠ [] := by
  obtain ⟨lineStart, -, hsegment⟩ := h
  have hspec := segment_spec closer lineStart p.rest
  rw [hsegment] at hspec
  intro hnil
  simp [hnil, startsInterpolation] at hspec

theorem Place.Interpolates.rest_ne_nil (h : p.Interpolates closer outer n) : p.rest ≠ [] := by
  intro hnil
  exact h.start_ne_nil (by rw [hnil, List.drop_nil])

/-- The step at an interpolation is one of these. -/
theorem Place.Interpolates.step_cases (h : p.Interpolates closer outer n) :
    InterpolationStep p closer outer n (p.state.step p.rest) := by
  obtain ⟨lineStart, hframes, hsegment⟩ := h
  rw [State.step, hframes]
  simp only [State.stepLiteral, hsegment]
  split
  · next hopener => exact .simple hopener
  · next m hopener =>
    split
    · next hlimit => exact .atLimit ⟨⟨m, hopener⟩, hlimit⟩
    · next hlimit => exact .opens hopener (by omega)

/-- The turn at an interpolation passes over the text before it, and over something of it. -/
theorem length_next_lt {found : Cut} {next : State} (hstart : p.rest.drop n ≠ [])
    (hfound : 0 < found.extent)
    (hstep : p.state.step p.rest = ⟨[⟨.interpolated, n⟩, found], next⟩) :
    p.next.rest.length < (p.rest.drop n).length := by
  have hpos := List.length_pos_iff.mpr hstart
  have hextent : (p.state.step p.rest).extent = n + found.extent := by
    rw [hstep]
    rfl
  rw [List.length_drop] at hpos ⊢
  rw [Place.next, hextent, List.length_drop]
  omega

/-- The literal that an interpolation goes back to has as many pieces of code around it as
before. -/
theorem Place.Interpolates.countP_eq (h : p.Interpolates closer outer n) :
    (Frame.literal closer false :: outer).countP Frame.isCode = p.state.nesting := by
  obtain ⟨lineStart, hframes, -⟩ := h
  rw [State.nesting, hframes, List.countP_cons, List.countP_cons]
  rfl

/-- Within the limit, an interpolation takes something, and then the lexer goes on with the literal,
unless the source ends. -/
theorem Place.Interpolates.exists_returns (h : p.Interpolates closer outer n)
    (hp : p.state.Labelled) (hlimit : ¬ p.AtLimit n) :
    ∃ q r, Turn p q ∧ q.rest.length < (p.rest.drop n).length ∧
      q.state.nesting = p.state.nesting + (if (braceOpener? (p.rest.drop n)).isSome then 1 else 0) ∧
      Returns (.literal closer false :: outer) q r := by
  have hturn : Turn p p.next := ⟨h.rest_ne_nil, rfl⟩
  -- it is enough to look at the place after the first turn: there the literal is on top again, or
  -- something is open above it
  suffices hnext : p.next.rest.length < (p.rest.drop n).length ∧
      p.next.state.nesting =
        p.state.nesting + (if (braceOpener? (p.rest.drop n)).isSome then 1 else 0) ∧
      (p.next.state.frames = .literal closer false :: outer ∨
        OpenAbove (.literal closer false :: outer) p.next) by
    obtain ⟨hless, hnesting, hopen⟩ := hnext
    obtain ⟨r, hreturns⟩ := Php.exists_returns (hturn.labelled hp) hopen
    exact ⟨p.next, r, hturn, hless, hnesting, hreturns⟩
  have hcount := h.countP_eq
  have hcases := h.step_cases
  generalize hstep : p.state.step p.rest = step at hcases
  have hnext : p.next.state = step.next := by rw [Place.next, hstep]
  cases hcases with
  | simple hopener =>
    refine ⟨length_next_lt h.start_ne_nil (simpleVariable_pos _) hstep, ?_, .inl (by rw [hnext])⟩
    rw [hnext, hopener]
    exact hcount
  | opens hopener _ =>
    refine ⟨length_next_lt h.start_ne_nil (braceOpener_pos hopener) hstep, ?_,
      .inr ⟨.code 0, [], by rw [hnext]; rfl⟩⟩
    rw [hnext, hopener, ← hcount]
    exact List.countP_cons
  | atLimit hat => exact absurd hat hlimit

/-- At the limit the rest of the source is one lexeme. -/
theorem Place.Interpolates.lex_atLimit (h : p.Interpolates closer outer n) (hp : p.state.Labelled)
    (hlimit : p.AtLimit n) :
    p.next.rest = [] ∧ ∃ before, lex p.state 0 p.rest = before ++ [⟨.other, p.rest.drop n⟩] := by
  have hcases := h.step_cases
  generalize hstep : p.state.step p.rest = step at hcases
  cases hcases with
  | simple hopener =>
    obtain ⟨⟨m, hsome⟩, -⟩ := hlimit
    rw [hopener] at hsome
    cases hsome
  | opens _ hless => exact absurd hlimit.2 (by omega)
  | atLimit _ =>
    have hend : p.rest.drop (n + (p.rest.drop n).length) = [] := by
      rw [← List.drop_drop, List.drop_length]
    have hextent : (p.state.step p.rest).extent = n + (p.rest.drop n).length := by
      rw [hstep]
      rfl
    refine ⟨by rw [Place.next, hextent, hend], ?_⟩
    have hlast : cutUp [⟨.other, (p.rest.drop n).length⟩] (p.rest.drop n) =
        [⟨.other, p.rest.drop n⟩] := by
      rw [cutUp_cons_of_pos (List.length_pos_iff.mpr h.start_ne_nil) h.start_ne_nil,
        List.take_length]
      rfl
    rw [lex_step hp h.rest_ne_nil, hextent, hend, hstep, lex, List.append_nil]
    -- there may be text before the interpolation, which is a lexeme of its own
    rcases Nat.eq_zero_or_pos n with rfl | hn
    · refine ⟨[], ?_⟩
      rw [cutUp_cons_of_zero rfl]
      exact hlast
    · refine ⟨[⟨.interpolated, p.rest.take n⟩], ?_⟩
      rw [cutUp_cons_of_pos hn h.rest_ne_nil, hlast]
      rfl

end

/-- In code, the turn of the lexer is the next lexeme of code. -/
theorem Place.InCode.exists_step {p : Place} (h : p.InCode) :
    ∃ nested, p.state.step p.rest =
      ⟨(code nested p.rest).1, p.state.after (code nested p.rest).2⟩ := by
  unfold Place.InCode at h
  unfold State.step
  split
  · next hframes => simp [hframes, Frame.isCode] at h
  · exact ⟨true, rfl⟩
  · next hframes =>
    rw [hframes] at h
    rw [if_pos h]
    exact ⟨false, rfl⟩

/-- A here document takes its opener at least, and then the lexer goes on with the code, unless the
source ends. -/
theorem Place.InCode.heredoc_returns {p : Place} {opener : HeredocOpener} (h : p.InCode)
    (hp : p.state.Labelled) (hmark : ascii "<<<" <+: p.rest)
    (hopener : heredocOpener? p.rest = some opener) :
    ∃ q r, Turn p q ∧ Returns p.state.frames q r ∧ r.rest <:+ p.rest.drop opener.extent := by
  have hrest : p.rest ≠ [] := by
    rintro hnil
    rw [hnil, List.prefix_nil] at hmark
    cases hmark
  have hturn : Turn p p.next := ⟨hrest, rfl⟩
  suffices hnext : p.next.rest <:+ p.rest.drop opener.extent ∧
      (p.next.state.frames = p.state.frames ∨ OpenAbove p.state.frames p.next) by
    obtain ⟨r, hreturns⟩ := exists_returns (hturn.labelled hp) hnext.2
    exact ⟨p.next, r, hturn, hreturns, (suffix_of_turns hreturns.retains.turns).trans hnext.1⟩
  obtain ⟨nested, hstep⟩ := h.exists_step
  rw [code_heredoc nested hmark, hopener, heredocLexemes] at hstep
  split at hstep
  · -- the whole of a raw here document is read in one turn
    refine ⟨?_, .inl (by rw [Place.next, hstep]; rfl)⟩
    rw [Place.next, hstep, Step.extent_eq, cutExtent_cons, ← List.drop_drop]
    exact List.drop_suffix _ _
  · refine ⟨?_, .inr ⟨.literal (.label opener.label) true, [], by rw [Place.next, hstep]; rfl⟩⟩
    rw [Place.next, hstep, Step.extent_eq, cutExtent_cons, ← List.drop_drop]
    exact List.drop_suffix _ _

/-- The lexer gets on from here, within its limits. -/
structure Place.Proceeds (p : Place) : Prop where
  /-- Between two places of a run there is something that has been read. -/
  advances : ∀ q, TransGen Turn p q → q.rest <:+ p.rest ∧ q.rest.length < p.rest.length
  nesting : p.state.nesting ≤ maxNesting
  height : p.state.frames.length ≤ 2 * maxNesting + 1
  /-- An interpolation takes something, and goes back to its literal with as many pieces of code
  around as before. -/
  interpolation : ∀ closer outer n, p.Interpolates closer outer n → ¬ p.AtLimit n →
    (∃ q r, Turn p q ∧ q.rest.length < (p.rest.drop n).length ∧
      q.state.nesting = p.state.nesting + (if (braceOpener? (p.rest.drop n)).isSome then 1 else 0) ∧
      Returns (.literal closer false :: outer) q r) ∧
      (Frame.literal closer false :: outer).countP Frame.isCode = p.state.nesting
  /-- A here document takes its opener at least, and goes back to the code around it. -/
  heredoc : ∀ opener, p.InCode → ascii "<<<" <+: p.rest → heredocOpener? p.rest = some opener →
    0 < opener.extent ∧ opener.extent ≤ p.rest.length ∧
      ∃ q r, Turn p q ∧ Returns p.state.frames q r ∧ r.rest <:+ p.rest.drop opener.extent

/-- From every place that the lexer comes to, it gets on. -/
theorem Reached.proceeds {source : Bytes} {p : Place} (h : Reached source p) : p.Proceeds where
  advances := fun q hturns => advances_of_turns hturns h.labelled
  nesting := h.bounded.nesting
  height := h.bounded.length_le
  interpolation := by
    intro closer outer n hat hlimit
    exact ⟨hat.exists_returns h.labelled hlimit, hat.countP_eq⟩
  heredoc := by
    intro opener hcode hmark hopener
    refine ⟨(heredocOpener_spec hopener).1, ?_, hcode.heredoc_returns h.labelled hmark hopener⟩
    obtain ⟨_, text, rest, hrest, -, hlength, -⟩ := opens_of_heredocOpener? hmark hopener
    rw [hrest, ← hlength, List.length_append]
    omega

/-- The lexer is at the end of the source after one turn for each octet at most. At every place on
its way there it gets on, in rounds each of which leaves less, and has no more pieces of code inside
of each other than it may have. An interpolation that needs one more is, with all that follows, the
last token. -/
theorem lexer_ends_within_limits (source : Bytes) :
    (∃ n ≤ source.length, Reached source (Place.next^[n] ⟨.start, source⟩) ∧
      (Place.next^[n] ⟨.start, source⟩).rest = []) ∧
    (∀ p, Reached source p → p.Proceeds ∧
      ∃ before, lex .start 0 source = before ++ lex p.state 0 p.rest ∧
        source = before.flatMap (·.text) ++ p.rest) ∧
    (∀ closer lineStart s, ∃ lineStart',
      ReflTransGen (Shortens (TextRound closer) Prod.snd) (lineStart, s)
        (lineStart', s.drop (segment closer lineStart s).1) ∧
      TextEnds closer lineStart' (s.drop (segment closer lineStart s).1)
        (segment closer lineStart s).2) ∧
    (∀ label s, ∃ t, ReflTransGen (Shortens (LineRound label) id) s t ∧
      match closingLabel? label t with
      | some n => nowdocBody label true s = (s.length - t.length, n)
      | none => lf ∉ t ∧ nowdocBody label true s = (s.length, 0)) ∧
    ∀ p closer outer n, Reached source p → p.Interpolates closer outer n → p.AtLimit n →
      p.next.rest = [] ∧
      ∃ before line, tokenize source = before ++ [⟨⟨.other, p.rest.drop n⟩, line⟩] ∧
        source = before.flatMap (·.text) ++ p.rest.drop n := by
  refine ⟨?_, fun p h => ⟨h.proceeds, h.exists_lexemes⟩, scans_segment, lines_nowdocBody, ?_⟩
  · obtain ⟨n, hn, hend, hturns⟩ := exists_end_of_labelled (p := ⟨.start, source⟩) labelled_start
    exact ⟨n, hn, hturns, hend⟩
  · intro p closer outer n hreached hat hlimit
    obtain ⟨hend, later, hlater⟩ := hat.lex_atLimit hreached.labelled hlimit
    -- the lexemes up to the place, and the last one after it
    obtain ⟨earlier, hlex, -⟩ := hreached.exists_lexemes
    rw [hlater, ← List.append_assoc] at hlex
    have htokens : tokenize source = numberLines 1 (earlier ++ later) ++ numberLines
        (1 + lineBreaks ((earlier ++ later).flatMap (·.text))) [⟨.other, p.rest.drop n⟩] := by
      rw [tokenize, hlex, numberLines_append]
    refine ⟨hend, _, _, htokens, ?_⟩
    have hjoin := flatMap_text_lex labelled_start source
    rw [hlex, List.flatMap_append] at hjoin
    rw [flatMap_text_numberLines, ← hjoin]
    simp

/-- Literals inside of interpolations, one more than there may be. -/
def deepSource : Bytes :=
  ascii "<?php " ++ (List.replicate (maxNesting + 1) (ascii "\"\x7b$a[")).flatten

/-- Before the last interpolation, inside of all the others. -/
def deepPlace : Place where
  state :=
    { inCode := true
      frames := .literal (.quote doubleQuote) false ::
        (List.replicate maxNesting [.code 0, .literal (.quote doubleQuote) false]).flatten }
  rest := ascii "\x7b$a["

/-- A place after some steps is reached, if the source has not ended before. -/
theorem reached_iterate {source : Bytes} {n : Nat}
    (h : (Place.next^[n] ⟨.start, source⟩).rest ≠ []) :
    Reached source (Place.next^[n] ⟨.start, source⟩) := by
  induction n with
  | zero => exact .refl
  | succ n ih =>
    rw [Function.iterate_succ_apply'] at h ⊢
    have hrest : (Place.next^[n] ⟨.start, source⟩).rest ≠ [] := by
      intro hnil
      rw [Place.next, hnil] at h
      exact h List.drop_nil
    exact (ih hrest).tail ⟨hrest, rfl⟩

theorem lexer_ends_within_limits_deepSource :
    Reached deepSource deepPlace ∧ deepPlace.state.nesting = 200 ∧
      ∃ outer, deepPlace.Interpolates (.quote doubleQuote) outer 0 ∧ deepPlace.AtLimit 0 ∧
        ∃ before line, tokenize deepSource = before ++ [⟨⟨.other, ascii "\x7b$a["⟩, line⟩] := by
  -- each of the other interpolations takes four turns: for the quote, the brace, the name and the
  -- bracket
  have hplace : Place.next^[4 * maxNesting + 2] ⟨.start, deepSource⟩ = deepPlace := by
    decide +kernel
  have hreached : Reached deepSource deepPlace := by
    rw [← hplace]
    refine reached_iterate ?_
    rw [hplace]
    exact List.cons_ne_nil _ _
  have hnesting : deepPlace.state.nesting = 200 := by decide +kernel
  have hat : deepPlace.Interpolates (.quote doubleQuote) _ 0 := ⟨false, rfl, rfl⟩
  have hlimit : deepPlace.AtLimit 0 := ⟨⟨1, rfl⟩, hnesting.ge⟩
  obtain ⟨-, -, -, -, hlast⟩ := lexer_ends_within_limits deepSource
  obtain ⟨-, before, line, htokens, -⟩ := hlast deepPlace _ _ 0 hreached hat hlimit
  exact ⟨hreached, hnesting, _, hat, hlimit, before, line, htokens⟩

end SourceTidy.Php
