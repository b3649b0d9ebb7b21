import Mathlib.Tactic.Common
import SourceTidy.Template.Nesting

/-! # Well nested tags

What it means that the tags of a template nest, without a stack: the closing tags can be matched to
tags before them so that no two regions cross. And what the check does with one tag: what it does to
the stack (`accept_eq_ok`), and where the tags on the stack stand in the template (`Standing`).

* `Nests`: a matching of the tags of a template;
* `accept_eq_ok`: all that an accepted tag can be and do;
* `Standing.innermost`: the innermost open tag that has to be closed is the last one of its kind.
-/

namespace SourceTidy.Template

/-! ## Well nested tags -/

/-- The tag opens a region that has to be closed. -/
def Tag.isPaired (t : Tag) : Bool :=
  !t.isPrint && !t.closing && !t.selfClosing && pairedTags.contains t.name

/-- The tag opens a region, which has to be closed or may be closed. -/
def Tag.opens (t : Tag) : Bool :=
  !t.isPrint && !t.closing && !t.selfClosing &&
    (pairedTags.contains t.name || optionalTags.contains t.name || t.name == "_")

/-- The tag prints, closes whatever is open, or has a name that is known. -/
def Tag.Recognized (t : Tag) : Prop :=
  t.isPrint = true ∨ (t.closing = true ∧ t.name = "") ∨ t.name = "_" ∨ isKnown t.name = true

/-- The regions in one of which a tag has to stand, if its name asks for one. -/
def parents? (name : String) : Option (List String) :=
  if name = "else" then some elseTags
  else if name = "elseif" || name = "elseifset" then some conditionTags
  else if name = "case" then some ["switch"]
  else none

/-- The region of the paired tag at `i` holds what stands at `k`. A matching says of a closing tag
which tag it closes, by their places. -/
structure Encloses (tags : List Tag) (opener : Nat → Option Nat) (i k : Nat) : Prop where
  paired : ∃ t, tags[i]? = some t ∧ t.isPaired = true
  before : i < k
  after : ∃ j, opener j = some i ∧ k < j

/-- The closing tags are matched to tags before them so that no two regions cross. -/
structure Nests (tags : List Tag) (opener : Nat → Option Nat) : Prop where
  /-- A closing tag closes a tag before it that opens a region, of its own name if it has one. -/
  pair : ∀ {i j}, opener j = some i → i < j ∧ ∃ s t, tags[i]? = some s ∧ tags[j]? = some t ∧
    s.opens = true ∧ t.closing = true ∧ (t.name = "" ∨ s.name = t.name)
  /-- No tag is closed twice. -/
  injective : ∀ {i j j'}, opener j = some i → opener j' = some i → j = j'
  noncrossing : ∀ {i i' j j'}, opener j = some i → opener j' = some i' → i < i' → i' < j → j' < j
  /-- Every closing tag closes something. -/
  closings : ∀ {j t}, tags[j]? = some t → t.closing = true → ∃ i, opener j = some i
  /-- Every tag that has to be closed is closed. -/
  pairs : ∀ {i t}, tags[i]? = some t → t.isPaired = true → ∃ j, opener j = some i
  /-- A tag that belongs into a region stands in one of those, and in no other region inside of
  it. -/
  context : ∀ {k t parents}, tags[k]? = some t → t.isPrint = false → t.closing = false →
    parents? t.name = some parents →
    ∃ i s, tags[i]? = some s ∧ s.name ∈ parents ∧ Encloses tags opener i k ∧
      ∀ i', Encloses tags opener i' k → i' ≤ i

/-! ## One tag -/

/-- A tag may stand where its name asks for nothing, or inside of what it asks for. -/
theorem mayStandIn_iff {name : String} {parent : Option String} :
    mayStandIn name parent = true ↔
      ∀ parents, parents? name = some parents → ∃ p, parent = some p ∧ p ∈ parents := by
  unfold mayStandIn parents?
  split_ifs <;> cases parent <;> simp

/-- An opening tag that is accepted is put on the stack if it opens a region. -/
theorem acceptOpening_eq (stack : List OpenTag) {t : Tag} (line : Nat) (hprint : t.isPrint = false)
    (hclosing : t.closing = false) :
    acceptOpening stack t line =
      if !(t.name == "_" || isKnown t.name) then .error (.unknownTag false t.name)
      else if !mayStandIn t.name ((innermost? stack).map OpenTag.name) then
        .error (.malformed (.unexpectedTag t.name) line)
      else .ok (if t.opens then ⟨t.name, line, !t.isPaired⟩ :: stack else stack) := by
  unfold acceptOpening Tag.opens Tag.isPaired
  by_cases hname : t.name = "_"
  · have hpaired : "_" ∉ pairedTags := by decide
    have hstand : ∀ parent, mayStandIn "_" parent = true := fun parent => rfl
    cases hself : t.selfClosing <;> simp [hname, hprint, hclosing, hpaired, hstand]
  · cases hknown : isKnown t.name with
    | false => simp [hname]
    | true =>
      cases hstand : mayStandIn t.name ((innermost? stack).map OpenTag.name) with
      | false => simp [hname]
      | true =>
        cases hself : t.selfClosing <;> cases hpaired : pairedTags.contains t.name <;>
          cases hoptional : optionalTags.contains t.name <;> simp_all

/-- A closing tag with a name takes the tags above its own away, all of which need not be closed. -/
theorem closeTag_eq_ok {name : String} {line : Nat} {stack outer : List OpenTag}
    (h : closeTag name line stack = .ok outer) :
    ∃ dropped top, stack = dropped ++ top :: outer ∧ top.name = name ∧
      ∀ d ∈ dropped, d.optional = true := by
  induction stack with
  | nil => cases h
  | cons top stack ih =>
    simp only [closeTag] at h
    split at h
    · next hname =>
      cases h
      exact ⟨[], top, rfl, hname, by simp⟩
    · split at h
      · next hoptional =>
        obtain ⟨dropped, top', rfl, hname, hdropped⟩ := ih h
        refine ⟨top :: dropped, top', rfl, hname, ?_⟩
        intro d hd
        rcases List.mem_cons.mp hd with rfl | hd
        · exact hoptional
        · exact hdropped d hd
      · cases h

/-- What an accepted tag does to the stack. -/
inductive Accepted (stack : List OpenTag) (t : Tag) (line : Nat) : List OpenTag → Prop where
  /-- It closes a tag of the stack, and with it those above, which need not be closed. -/
  | closed {dropped : List OpenTag} {top : OpenTag} {outer : List OpenTag}
      (hclosing : t.closing = true)
    (hstack : stack = dropped ++ top :: outer) (hdropped : ∀ d ∈ dropped, d.optional = true)
    (hname : t.name = "" ∨ top.name = t.name) : Accepted stack t line outer
  /-- It opens a region. -/
  | opened (hclosing : t.closing = false) (hopens : t.opens = true) :
    Accepted stack t line (⟨t.name, line, !t.isPaired⟩ :: stack)
  /-- It stands alone. -/
  | alone (hclosing : t.closing = false) (hopens : t.opens = false) : Accepted stack t line stack

/-- What an accepted closing tag is, and does. -/
theorem acceptClosing_eq_ok {stack stack' : List OpenTag} {t : Tag} {line : Nat}
    (hclosing : t.closing = true) (h : acceptClosing stack t line = .ok stack') :
    t.Recognized ∧ Accepted stack t line stack' := by
  unfold acceptClosing at h
  split at h
  -- without a name it closes whatever is innermost
  · next hempty =>
    have hname : t.name = "" := String.isEmpty_iff.mp hempty
    refine ⟨Or.inr (Or.inl ⟨hclosing, hname⟩), ?_⟩
    cases stack with
    | nil => cases h
    | cons top outer =>
      cases h
      exact .closed hclosing rfl (by simp : ∀ d ∈ [], OpenTag.optional d = true) (Or.inl hname)
  · split at h
    · cases h
    · next hknown =>
      obtain ⟨dropped, top, hstack, hname, hdropped⟩ := closeTag_eq_ok h
      refine ⟨Or.inr (Or.inr ?_), .closed hclosing hstack hdropped (Or.inr hname)⟩
      by_cases hunderscore : t.name = "_"
      · exact Or.inl hunderscore
      · right
        simpa [hunderscore] using hknown

/-- What any other accepted tag is, and does. -/
theorem acceptOpening_eq_ok {stack stack' : List OpenTag} {t : Tag} {line : Nat}
    (hprint : t.isPrint = false) (hclosing : t.closing = false)
    (h : acceptOpening stack t line = .ok stack') :
    t.Recognized ∧ Accepted stack t line stack' ∧
      mayStandIn t.name ((innermost? stack).map OpenTag.name) = true := by
  rw [acceptOpening_eq stack line hprint hclosing] at h
  split at h
  · cases h
  · next hknown =>
    split at h
    · cases h
    · next hstand =>
      have hrecognized : t.Recognized := by
        by_cases hunderscore : t.name = "_"
        · exact Or.inr (Or.inr (Or.inl hunderscore))
        · exact Or.inr (Or.inr (Or.inr (by simpa [hunderscore] using hknown)))
      refine ⟨hrecognized, ?_, by simpa using hstand⟩
      -- the tag is put on the stack if it opens a region
      cases hopens : t.opens with
      | true =>
        rw [hopens] at h
        cases h
        exact .opened hclosing hopens
      | false =>
        rw [hopens] at h
        cases h
        exact .alone hclosing hopens

theorem closing_eq_false_of_isPrint {t : Tag} (h : t.isPrint = true) : t.closing = false := by
  unfold Tag.isPrint at h
  cases hclosing : t.closing with
  | false => rfl
  | true => simp [hclosing] at h

/-- All that an accepted tag can be and do. -/
theorem accept_eq_ok {stack stack' : List OpenTag} {t : Tag} {line : Nat}
    (h : accept stack ⟨t, line⟩ = .ok stack') :
    t.Recognized ∧ Accepted stack t line stack' ∧
      (t.isPrint = false → t.closing = false →
        mayStandIn t.name ((innermost? stack).map OpenTag.name) = true) := by
  unfold accept at h
  cases hprint : t.isPrint with
  | true =>
    simp only [hprint, if_true] at h
    cases h
    have hopens : t.opens = false := by simp [Tag.opens, hprint]
    exact ⟨Or.inl hprint, .alone (closing_eq_false_of_isPrint hprint) hopens, by simp⟩
  | false =>
    cases hclosing : t.closing with
    | true =>
      simp only [hprint, hclosing, Bool.false_eq_true, if_false, if_true] at h
      obtain ⟨hrecognized, haccepted⟩ := acceptClosing_eq_ok hclosing h
      exact ⟨hrecognized, haccepted, by simp⟩
    | false =>
      simp only [hprint, hclosing, Bool.false_eq_true, if_false] at h
      obtain ⟨hrecognized, haccepted, hstand⟩ := acceptOpening_eq_ok hprint hclosing h
      exact ⟨hrecognized, haccepted, fun _ _ => hstand⟩

/-! ## The open tags and their places -/

/-- The tags on the stack with their places among the first `n` tags, innermost first. -/
structure Standing (tags : List Tag) (n : Nat) (stack : List (Nat × OpenTag)) : Prop where
  sorted : stack.Pairwise fun x y => y.1 < x.1
  opened : ∀ x ∈ stack, x.1 < n ∧ ∃ t, tags[x.1]? = some t ∧ t.opens = true ∧ x.2.name = t.name ∧
    x.2.optional = !t.isPaired

variable {tags : List Tag} {n : Nat} {stack : List (Nat × OpenTag)} {opener : Nat → Option Nat}

/-- Tags may be taken off the stack. -/
theorem Standing.of_sublist {stack' : List (Nat × OpenTag)} (h : Standing tags n stack)
    (hsub : stack'.Sublist stack) : Standing tags (n + 1) stack' where
  sorted := h.sorted.sublist hsub
  opened := by
    intro x hx
    obtain ⟨hlt, hopened⟩ := h.opened x (hsub.mem hx)
    exact ⟨Nat.lt_succ_of_lt hlt, hopened⟩

/-- A tag that opens a region is put on top. -/
theorem Standing.push {t : Tag} (h : Standing tags n stack) (ht : tags[n]? = some t)
    (hopens : t.opens = true) (line : Nat) :
    Standing tags (n + 1) ((n, ⟨t.name, line, !t.isPaired⟩) :: stack) where
  sorted := List.pairwise_cons.mpr ⟨fun x hx => (h.opened x hx).1, h.sorted⟩
  opened := by
    intro x hx
    rcases List.mem_cons.mp hx with rfl | hx
    · exact ⟨Nat.lt_succ_self n, t, ht, hopens, rfl, rfl⟩
    · exact (h.of_sublist (List.Sublist.refl stack)).opened x hx

/-- What need not be closed on the stack is what need not be closed in the template. -/
theorem Standing.optional_eq {x : Nat × OpenTag} {t : Tag} (h : Standing tags n stack)
    (hx : x ∈ stack) (ht : tags[x.1]? = some t) : x.2.optional = !t.isPaired := by
  obtain ⟨-, t', ht', -, -, hoptional⟩ := h.opened x hx
  obtain rfl : t = t' := Option.some.inj (ht.symm.trans ht')
  exact hoptional

/-- What lies above a tag of the stack was opened after it, and what lies below it before it. -/
theorem Standing.split {above below : List (Nat × OpenTag)} {x : Nat × OpenTag}
    (h : Standing tags n (above ++ x :: below)) :
    (∀ y ∈ above, x.1 < y.1) ∧ ∀ y ∈ below, y.1 < x.1 := by
  obtain ⟨-, hsorted, hacross⟩ := List.pairwise_append.mp h.sorted
  exact ⟨fun y hy => hacross y hy x List.mem_cons_self, (List.pairwise_cons.mp hsorted).1⟩

/-- The innermost tag that has to be closed is the last one of those on the stack. -/
theorem Standing.innermost (h : Standing tags n stack) {o : OpenTag}
    (ho : innermost? (stack.map Prod.snd) = some o) :
    ∃ i t, (i, o) ∈ stack ∧ tags[i]? = some t ∧ t.isPaired = true ∧ o.name = t.name ∧
      ∀ x ∈ stack, x.2.optional = false → x.1 ≤ i := by
  induction stack with
  | nil => cases ho
  | cons x stack ih =>
    obtain ⟨hhead, htail⟩ := List.pairwise_cons.mp h.sorted
    obtain ⟨hlt, t, ht, -, hname, hoptional⟩ := h.opened x List.mem_cons_self
    unfold innermost? at ho
    rw [List.map_cons, List.find?_cons] at ho
    -- the top has to be closed, and stands last of all; or it need not be, and the question is one
    -- about the others
    cases hx : x.2.optional with
    | false =>
      simp only [hx, Bool.not_false] at ho
      cases ho
      refine ⟨x.1, t, List.mem_cons_self, ht, by simpa [hx] using hoptional, hname, ?_⟩
      intro y hy _
      rcases List.mem_cons.mp hy with rfl | hy
      · exact Nat.le_refl _
      · exact Nat.le_of_lt (hhead y hy)
    | true =>
      simp only [hx, Bool.not_true] at ho
      obtain ⟨i, t', hmem, ht', hpaired, hname', hlast⟩ :=
        ih ⟨htail, fun y hy => h.opened y (List.mem_cons_of_mem x hy)⟩ ho
      refine ⟨i, t', List.mem_cons_of_mem x hmem, ht', hpaired, hname', ?_⟩
      intro y hy hyo
      rcases List.mem_cons.mp hy with rfl | hy
      · rw [hx] at hyo
        cases hyo
      · exact hlast y hy hyo

end SourceTidy.Template
