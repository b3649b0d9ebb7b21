import Mathlib.Logic.Function.Basic
import SourceTidy.Proofs.TemplateSteps
import SourceTidy.Proofs.TemplateTags

/-! # The check accepts the templates that nest

The check keeps a stack and closes greedily: a closing tag takes the nearest open tag of its name,
and gives up the tags above it that need not be closed. Two invariants relate the stack to a
matching.

* `Matched`: what the check has closed so far is a matching, so an accepted template nests;
* `Awaiting`: all that some matching closes later is on the stack, and of the tags that have to be
  closed there is nothing else. The greedy choice is never worse than that of the matching: what it
  gives up begins after the tag that the matching closes, and no region that goes on can begin
  there;
* `check_accepts_exactly_nested`: both together, for the tags that the scan finds.
-/

namespace SourceTidy.Template

open Bytes

variable {tags : List Tag} {n : Nat} {stack : List (Nat × OpenTag)} {opener : Nat → Option Nat}

/-! ## An accepted template nests -/

/-- The region of the tag at `i` has begun before `k` and is not closed there. -/
def Unclosed (opener : Nat → Option Nat) (i k : Nat) : Prop :=
  i < k ∧ ∀ j, opener j = some i → k < j

/-- The matching that the check has made of the first `n` tags. -/
structure Matched (tags : List Tag) (n : Nat) (stack : List (Nat × OpenTag))
    (opener : Nat → Option Nat) : Prop where
  standing : Standing tags n stack
  pair : ∀ {i j}, opener j = some i → i < j ∧ j < n ∧ ∃ s t, tags[i]? = some s ∧ tags[j]? = some t ∧
    s.opens = true ∧ t.closing = true ∧ (t.name = "" ∨ s.name = t.name)
  injective : ∀ {i j j'}, opener j = some i → opener j' = some i → j = j'
  noncrossing : ∀ {i i' j j'}, opener j = some i → opener j' = some i' → i < i' → i' < j → j' < j
  closings : ∀ {j t}, j < n → tags[j]? = some t → t.closing = true → ∃ i, opener j = some i
  /-- A tag on the stack has not been closed. -/
  free : ∀ {x j}, x ∈ stack → opener j ≠ some x.1
  /-- A tag on the stack does not lie inside of a region that has been closed. -/
  clear : ∀ {x i j}, x ∈ stack → opener j = some i → i < x.1 → j < x.1
  pairs : ∀ {i t}, i < n → tags[i]? = some t → t.isPaired = true →
    (∃ o, (i, o) ∈ stack) ∨ ∃ j, opener j = some i
  context : ∀ {k t parents}, k < n → tags[k]? = some t → t.isPrint = false → t.closing = false →
    parents? t.name = some parents →
    ∃ i s, tags[i]? = some s ∧ s.isPaired = true ∧ s.name ∈ parents ∧ Unclosed opener i k ∧
      ∀ i' s', tags[i']? = some s' → s'.isPaired = true → Unclosed opener i' k → i' ≤ i

/-- Before the first tag nothing is matched, and nothing is open. -/
theorem matched_start (tags : List Tag) : Matched tags 0 [] fun _ => none where
  standing := ⟨List.Pairwise.nil, by simp⟩
  pair := by simp
  injective := by simp
  noncrossing := by simp
  closings := by simp
  free := by simp
  clear := by simp
  pairs := by simp
  context := by simp

/-- A matching with one more pair. -/
theorem update_eq_some_iff {i i' j : Nat} (hfresh : opener n = none) :
    Function.update opener n (some i) j = some i' ↔ (j = n ∧ i' = i) ∨ opener j = some i' := by
  by_cases hj : j = n
  · subst hj
    simp [hfresh, eq_comm]
  · simp [hj]

/-- What was open at an earlier place still counts as open there. -/
theorem unclosed_update_iff {i i' k : Nat} (hfresh : opener n = none) (hk : k < n) :
    Unclosed (Function.update opener n (some i)) i' k ↔ Unclosed opener i' k := by
  constructor
  · rintro ⟨hbefore, hafter⟩
    exact ⟨hbefore, fun j hj => hafter j ((update_eq_some_iff hfresh).mpr (Or.inr hj))⟩
  · rintro ⟨hbefore, hafter⟩
    refine ⟨hbefore, ?_⟩
    intro j hj
    rcases (update_eq_some_iff hfresh).mp hj with ⟨rfl, -⟩ | hold
    · exact hk
    · exact hafter j hold

/-- What opens no region has none to close. -/
theorem isPaired_of_opens {t : Tag} (h : t.opens = false) : t.isPaired = false := by
  unfold Tag.opens at h
  unfold Tag.isPaired
  cases hprint : t.isPrint <;> cases hclosing : t.closing <;>
    cases hself : t.selfClosing <;> simp_all

namespace Matched

variable {t : Tag}

/-- The parent that the check finds for the next tag is the innermost region that is not closed
there. -/
theorem parent (h : Matched tags n stack opener) {parents : List String}
    (hstand : mayStandIn t.name ((innermost? (stack.map Prod.snd)).map OpenTag.name) = true)
    (hparents : parents? t.name = some parents) :
    ∃ i s, tags[i]? = some s ∧ s.isPaired = true ∧ s.name ∈ parents ∧ Unclosed opener i n ∧
      ∀ i' s', tags[i']? = some s' → s'.isPaired = true → Unclosed opener i' n → i' ≤ i := by
  obtain ⟨p, hp, hmem⟩ := mayStandIn_iff.mp hstand parents hparents
  obtain ⟨o, ho, rfl⟩ := Option.map_eq_some_iff.mp hp
  obtain ⟨i, s, hi, hs, hpaired, hname, hlast⟩ := h.standing.innermost ho
  refine ⟨i, s, hs, hpaired, hname ▸ hmem, ⟨(h.standing.opened _ hi).1, ?_⟩, ?_⟩
  · intro j hj
    exact absurd hj (h.free hi)
  · intro i' s' hs' hpaired' hunclosed
    rcases h.pairs hunclosed.1 hs' hpaired' with ⟨o', ho'⟩ | ⟨j, hj⟩
    · have hoptional := h.standing.optional_eq ho' hs'
      exact hlast _ ho' (by simpa [hpaired'] using hoptional)
    · -- a region that was closed is not open here
      have hbefore := (h.pair hj).2.1
      have hafter := hunclosed.2 j hj
      omega

/-- A tag that is no closing tag leaves the matching as it is. It is put on the stack or not. -/
theorem skip {pushed : List (Nat × OpenTag)} (h : Matched tags n stack opener)
    (ht : tags[n]? = some t) (hclosing : t.closing = false)
    (hstanding : Standing tags (n + 1) (pushed ++ stack)) (hpushed : ∀ x ∈ pushed, x.1 = n)
    (hpaired : t.isPaired = true → ∃ o, (n, o) ∈ pushed)
    (hstand : t.isPrint = false → t.closing = false →
      mayStandIn t.name ((innermost? (stack.map Prod.snd)).map OpenTag.name) = true) :
    Matched tags (n + 1) (pushed ++ stack) opener where
  standing := hstanding
  pair := by
    intro i j hj
    obtain ⟨hlt, hjn, hpair⟩ := h.pair hj
    exact ⟨hlt, Nat.lt_succ_of_lt hjn, hpair⟩
  injective := h.injective
  noncrossing := h.noncrossing
  closings := by
    intro j s hj hs hs'
    rcases Nat.lt_succ_iff_lt_or_eq.mp hj with hj | rfl
    · exact h.closings hj hs hs'
    · obtain rfl : t = s := Option.some.inj (ht.symm.trans hs)
      rw [hclosing] at hs'
      cases hs'
  free := by
    intro x j hx hj
    rcases List.mem_append.mp hx with hx | hx
    · have hlt := h.pair hj
      have hn := hpushed x hx
      omega
    · exact h.free hx hj
  clear := by
    intro x i j hx hj hi
    rcases List.mem_append.mp hx with hx | hx
    · have hlt := h.pair hj
      have hn := hpushed x hx
      omega
    · exact h.clear hx hj hi
  pairs := by
    intro i s hi hs hs'
    rcases Nat.lt_succ_iff_lt_or_eq.mp hi with hi | rfl
    · rcases h.pairs hi hs hs' with ⟨o, ho⟩ | hclosed
      · exact Or.inl ⟨o, List.mem_append_right pushed ho⟩
      · exact Or.inr hclosed
    · obtain rfl : t = s := Option.some.inj (ht.symm.trans hs)
      obtain ⟨o, ho⟩ := hpaired hs'
      exact Or.inl ⟨o, List.mem_append_left stack ho⟩
  context := by
    intro k s parents hk hs hprint hs' hparents
    rcases Nat.lt_succ_iff_lt_or_eq.mp hk with hk | rfl
    · exact h.context hk hs hprint hs' hparents
    · obtain rfl : t = s := Option.some.inj (ht.symm.trans hs)
      exact h.parent (hstand hprint hs') hparents

/-- A closing tag is matched to the tag of the stack that it closes. -/
theorem close {dropped rest : List (Nat × OpenTag)} {x : Nat × OpenTag}
    (h : Matched tags n (dropped ++ x :: rest) opener) (ht : tags[n]? = some t)
    (hclosing : t.closing = true) (hdropped : ∀ d ∈ dropped, d.2.optional = true)
    (hname : t.name = "" ∨ x.2.name = t.name) :
    Matched tags (n + 1) rest (Function.update opener n (some x.1)) := by
  have hfresh : opener n = none := by
    cases hn : opener n with
    | none => rfl
    | some i => exact absurd (h.pair hn).2.1 (Nat.lt_irrefl n)
  have hopener : ∀ i j, Function.update opener n (some x.1) j = some i ↔
      (j = n ∧ i = x.1) ∨ opener j = some i := fun i j => update_eq_some_iff hfresh
  have hx : x ∈ dropped ++ x :: rest := by simp
  have hrest : ∀ y ∈ rest, y ∈ dropped ++ x :: rest := by
    intro y hy
    simp [hy]
  have hbelow : ∀ y ∈ rest, y.1 < x.1 := h.standing.split.2
  obtain ⟨hxn, s, hs, hopens, hsname, -⟩ := h.standing.opened x hx
  constructor
  case standing =>
    exact h.standing.of_sublist
      ((List.sublist_cons_self x rest).trans (List.sublist_append_right ..))
  case pair =>
    intro i j hj
    rcases (hopener i j).mp hj with ⟨rfl, rfl⟩ | hj
    · exact ⟨hxn, Nat.lt_succ_self j, s, t, hs, ht, hopens, hclosing, hsname ▸ hname⟩
    · obtain ⟨hlt, hjn, hpair⟩ := h.pair hj
      exact ⟨hlt, Nat.lt_succ_of_lt hjn, hpair⟩
  case injective =>
    intro i j j' hj hj'
    rcases (hopener i j).mp hj with ⟨rfl, rfl⟩ | hold
    · rcases (hopener x.1 j').mp hj' with ⟨rfl, -⟩ | hold'
      · rfl
      · exact absurd hold' (h.free hx)
    · rcases (hopener i j').mp hj' with ⟨rfl, rfl⟩ | hold'
      · exact absurd hold (h.free hx)
      · exact h.injective hold hold'
  case noncrossing =>
    intro i i' j j' hj hj' hi hi'
    rcases (hopener i j).mp hj with ⟨rfl, rfl⟩ | hold
    · rcases (hopener i' j').mp hj' with ⟨rfl, rfl⟩ | hold'
      · exact absurd hi (Nat.lt_irrefl _)
      · exact (h.pair hold').2.1
    · rcases (hopener i' j').mp hj' with ⟨rfl, rfl⟩ | hold'
      · -- the tag that is closed now would lie inside of a closed region
        exact absurd (h.clear hx hold hi) (Nat.lt_asymm hi')
      · exact h.noncrossing hold hold' hi hi'
  case closings =>
    intro j t' hj ht' hclosing'
    rcases Nat.lt_succ_iff_lt_or_eq.mp hj with hj | rfl
    · obtain ⟨i, hi⟩ := h.closings hj ht' hclosing'
      exact ⟨i, (hopener i j).mpr (Or.inr hi)⟩
    · exact ⟨x.1, (hopener x.1 j).mpr (Or.inl ⟨rfl, rfl⟩)⟩
  case free =>
    intro y j hy hj
    rcases (hopener y.1 j).mp hj with ⟨-, hyx⟩ | hj
    · exact absurd hyx (Nat.ne_of_lt (hbelow y hy))
    · exact h.free (hrest y hy) hj
  case clear =>
    intro y i j hy hj hi
    rcases (hopener i j).mp hj with ⟨-, rfl⟩ | hj
    · exact absurd hi (Nat.lt_asymm (hbelow y hy))
    · exact h.clear (hrest y hy) hj hi
  case pairs =>
    intro i t' hi ht' hpaired
    rcases Nat.lt_succ_iff_lt_or_eq.mp hi with hi | rfl
    · rcases h.pairs hi ht' hpaired with ⟨o, ho⟩ | ⟨j, hj⟩
      · rcases List.mem_append.mp ho with hmem | hmem
        · -- what is dropped need not be closed
          have hoptional := h.standing.optional_eq ho ht'
          rw [hdropped _ hmem, hpaired] at hoptional
          cases hoptional
        · rcases List.mem_cons.mp hmem with rfl | hmem
          · exact Or.inr ⟨n, (hopener i n).mpr (Or.inl ⟨rfl, rfl⟩)⟩
          · exact Or.inl ⟨o, hmem⟩
      · exact Or.inr ⟨j, (hopener i j).mpr (Or.inr hj)⟩
    · obtain rfl : t = t' := Option.some.inj (ht.symm.trans ht')
      simp [Tag.isPaired, hclosing] at hpaired
  case context =>
    intro k t' parents hk ht' hprint hclosing' hparents
    rcases Nat.lt_succ_iff_lt_or_eq.mp hk with hk | rfl
    · obtain ⟨i, s', hs', hpaired, hmem, hopen, hlast⟩ := h.context hk ht' hprint hclosing' hparents
      refine ⟨i, s', hs', hpaired, hmem, (unclosed_update_iff hfresh hk).mpr hopen, ?_⟩
      intro i' s'' hs'' hpaired' hopen'
      exact hlast i' s'' hs'' hpaired' ((unclosed_update_iff hfresh hk).mp hopen')
    · obtain rfl : t = t' := Option.some.inj (ht.symm.trans ht')
      rw [hclosing] at hclosing'
      cases hclosing'

/-- One more tag. -/
theorem step {line : Nat} {after : List OpenTag} (h : Matched tags n stack opener)
    (ht : tags[n]? = some t) (haccept : accept (stack.map Prod.snd) ⟨t, line⟩ = .ok after) :
    t.Recognized ∧ ∃ stack' opener', stack'.map Prod.snd = after ∧
      Matched tags (n + 1) stack' opener' := by
  obtain ⟨hrecognized, haccepted, hstand⟩ := accept_eq_ok haccept
  refine ⟨hrecognized, ?_⟩
  cases haccepted with
  | closed hclosing hstack hdropped hname =>
    obtain ⟨dropped, below, rfl, rfl, hbelow⟩ := List.map_eq_append_iff.mp hstack
    obtain ⟨x, rest, rfl, rfl, rfl⟩ := List.map_eq_cons_iff.mp hbelow
    refine ⟨rest, _, rfl, h.close ht hclosing ?_ hname⟩
    intro d hd
    exact hdropped d.2 (List.mem_map_of_mem hd)
  | opened hclosing hopens =>
    have hpush := h.standing.push ht hopens line
    refine ⟨[(n, ⟨t.name, line, !t.isPaired⟩)] ++ stack, opener, rfl, ?_⟩
    exact h.skip ht hclosing hpush (by simp) (fun _ => ⟨_, List.mem_cons_self⟩) hstand
  | alone hclosing hopens =>
    have hsame : Standing tags (n + 1) ([] ++ stack) :=
      h.standing.of_sublist (List.Sublist.refl stack)
    refine ⟨[] ++ stack, opener, rfl, h.skip ht hclosing hsame (by simp) ?_ hstand⟩
    intro hpaired
    rw [isPaired_of_opens hopens] at hpaired
    cases hpaired

/-- If nothing is left to be closed, all tags nest. -/
theorem nests (h : Matched tags tags.length stack opener)
    (hdone : ∀ x ∈ stack, x.2.optional = true) : Nests tags opener := by
  have hlt : ∀ {k : Nat} {t : Tag}, tags[k]? = some t → k < tags.length := by
    intro k t ht
    exact (List.getElem?_eq_some_iff.mp ht).1
  have hpairs : ∀ {i t}, tags[i]? = some t → t.isPaired = true → ∃ j, opener j = some i := by
    intro i t ht hpaired
    rcases h.pairs (hlt ht) ht hpaired with ⟨o, ho⟩ | hclosed
    · have hoptional := h.standing.optional_eq ho ht
      rw [hdone _ ho, hpaired] at hoptional
      cases hoptional
    · exact hclosed
  constructor
  case pair =>
    intro i j hj
    obtain ⟨hij, -, hpair⟩ := h.pair hj
    exact ⟨hij, hpair⟩
  case injective => exact h.injective
  case noncrossing => exact h.noncrossing
  case closings =>
    intro j t ht hclosing
    exact h.closings (hlt ht) ht hclosing
  case pairs => exact hpairs
  case context =>
    intro k t parents ht hprint hclosing hparents
    obtain ⟨i, s, hs, hpaired, hmem, ⟨hik, hopen⟩, hlast⟩ :=
      h.context (hlt ht) ht hprint hclosing hparents
    obtain ⟨j, hj⟩ := hpairs hs hpaired
    refine ⟨i, s, hs, hmem, ⟨⟨s, hs, hpaired⟩, hik, j, hj, hopen j hj⟩, ?_⟩
    rintro i' ⟨⟨s', hs', hpaired'⟩, hik', j', hj', hkj'⟩
    refine hlast i' s' hs' hpaired' ⟨hik', ?_⟩
    intro j'' hj''
    rw [h.injective hj'' hj']
    exact hkj'

end Matched

/-- The check of the first `n` tags makes a matching of them. -/
theorem matched_run {placed : List Placed} (hn : n ≤ placed.length) {after : List OpenTag}
    (h : (placed.take n).foldlM accept [] = .ok after) :
    (∀ k t, k < n → (placed.map Placed.tag)[k]? = some t → t.Recognized) ∧
      ∃ stack opener, stack.map Prod.snd = after ∧
        Matched (placed.map Placed.tag) n stack opener := by
  induction n generalizing after with
  | zero =>
    cases h
    exact ⟨by simp, [], fun _ => none, rfl, matched_start _⟩
  | succ n ih =>
    have hlt : n < placed.length := hn
    have htag : (placed.map Placed.tag)[n]? = some placed[n].tag := by simp [hlt]
    rw [List.take_succ_eq_append_getElem hlt, List.foldlM_append] at h
    cases hbefore : (placed.take n).foldlM accept [] with
    | error e =>
      rw [hbefore] at h
      cases h
    | ok before =>
      obtain ⟨hrecognized, stack, opener, rfl, hmatched⟩ := ih (Nat.le_of_lt hlt) hbefore
      have haccept : accept (stack.map Prod.snd) placed[n] = .ok after := by
        simp only [hbefore, List.foldlM_cons, List.foldlM_nil, bind_pure] at h
        exact h
      obtain ⟨hlast, hnext⟩ := hmatched.step htag haccept
      refine ⟨?_, hnext⟩
      intro k t hk ht
      rcases Nat.lt_succ_iff_lt_or_eq.mp hk with hk | rfl
      · exact hrecognized k t hk ht
      · rw [htag] at ht
        cases ht
        exact hlast

/-! ## A template that nests is accepted -/

/-- A closing tag is accepted if the tags above one of its name need not be closed. It closes that
one, or another one of its name above it. -/
theorem closeTag_cases {name : String} (line : Nat) {above below : List (Nat × OpenTag)}
    {x : Nat × OpenTag} (hname : x.2.name = name) (habove : ∀ d ∈ above, d.2.optional = true) :
    closeTag name line ((above ++ x :: below).map Prod.snd) = .ok (below.map Prod.snd) ∨
      ∃ dropped hit kept, above = dropped ++ hit :: kept ∧ hit.2.name = name ∧
        closeTag name line ((above ++ x :: below).map Prod.snd) =
          .ok ((kept ++ x :: below).map Prod.snd) := by
  induction above with
  | nil =>
    left
    simp [closeTag, hname]
  | cons d above ih =>
    obtain ⟨hd, hrest⟩ := List.forall_mem_cons.mp habove
    rw [List.cons_append, List.map_cons, closeTag]
    by_cases hhit : d.2.name = name
    · right
      exact ⟨[], d, above, rfl, hhit, if_pos hhit⟩
    · rw [if_neg hhit, if_pos hd]
      rcases ih hrest with hclosed | ⟨dropped, hit, kept, rfl, hname', hclosed⟩
      · exact Or.inl hclosed
      · exact Or.inr ⟨d :: dropped, hit, kept, rfl, hname', hclosed⟩

/-- Among the open tags after `n` tags are all that a matching closes later, and all that have to be
closed are of those. -/
structure Awaiting (tags : List Tag) (n : Nat) (stack : List (Nat × OpenTag))
    (opener : Nat → Option Nat) : Prop where
  standing : Standing tags n stack
  pending : ∀ {i j}, opener j = some i → i < n → n ≤ j → ∃ o, (i, o) ∈ stack
  later : ∀ {x j}, x ∈ stack → x.2.optional = false → opener j = some x.1 → n ≤ j

/-- Before the first tag nothing is awaited. -/
theorem awaiting_start (tags : List Tag) (opener : Nat → Option Nat) :
    Awaiting tags 0 [] opener where
  standing := ⟨List.Pairwise.nil, by simp⟩
  pending := by simp
  later := by simp

theorem opens_eq_false_of_closing {t : Tag} (h : t.closing = true) : t.opens = false := by
  simp [Tag.opens, h]

/-- Whether a tag that opens a region has to be closed depends on its name. -/
theorem isPaired_congr {s t : Tag} (hs : s.opens = true) (ht : t.opens = true)
    (hname : s.name = t.name) :
    s.isPaired = t.isPaired := by
  unfold Tag.opens at hs ht
  unfold Tag.isPaired
  simp_all

/-- Only closing tags are matched to tags before them. -/
theorem Nests.ne_of_not_closing {t : Tag} {i j : Nat} (h : Nests tags opener)
    (ht : tags[n]? = some t) (hclosing : t.closing = false) (hj : opener j = some i) : j ≠ n := by
  rintro rfl
  obtain ⟨-, -, t', -, ht', -, hclosing', -⟩ := h.pair hj
  obtain rfl : t = t' := Option.some.inj (ht.symm.trans ht')
  rw [hclosing] at hclosing'
  cases hclosing'

namespace Awaiting

variable {t : Tag}

section Close

variable {above below : List (Nat × OpenTag)} {i : Nat} {o : OpenTag}

/-- The tags above the one that the matching closes need not be closed: a region that begins after
`i` and goes on at `n` would cross that of `i`. -/
theorem above_optional (hnests : Nests tags opener)
    (h : Awaiting tags n (above ++ (i, o) :: below) opener) (hi : opener n = some i) :
    ∀ x ∈ above, x.2.optional = true := by
  intro x hx
  by_contra hnot
  rw [Bool.not_eq_true] at hnot
  have hmem : x ∈ above ++ (i, o) :: below := List.mem_append_left _ hx
  obtain ⟨hxn, tx, htx, -, -, hpaired⟩ := h.standing.opened x hmem
  obtain ⟨j, hj⟩ := hnests.pairs htx (by simpa [hnot] using hpaired)
  have hlater := h.later hmem hnot hj
  have hearlier := hnests.noncrossing hi hj (h.standing.split.1 x hx) hxn
  omega

/-- What the matching closes later lies below the tag that it closes now. -/
theorem pending_below (hnests : Nests tags opener)
    (h : Awaiting tags n (above ++ (i, o) :: below) opener) (ht : tags[n]? = some t)
    (hclosing : t.closing = true) (hi : opener n = some i) {i' j : Nat} (hj : opener j = some i')
    (hi' : i' < n + 1) (hnj : n + 1 ≤ j) : ∃ o', (i', o') ∈ below := by
  rcases Nat.lt_succ_iff_lt_or_eq.mp hi' with hi' | rfl
  · obtain ⟨o', ho'⟩ := h.pending hj hi' (by omega)
    rcases List.mem_append.mp ho' with hmem | hmem
    · have hearlier := hnests.noncrossing hi hj (h.standing.split.1 _ hmem) hi'
      omega
    · rcases List.mem_cons.mp hmem with heq | hmem
      · cases heq
        have hsame := hnests.injective hi hj
        omega
      · exact ⟨o', hmem⟩
  · obtain ⟨-, s', -, hs', -, hopens', -⟩ := hnests.pair hj
    obtain rfl : t = s' := Option.some.inj (ht.symm.trans hs')
    rw [opens_eq_false_of_closing hclosing] at hopens'
    cases hopens'

/-- What is below the tag that the matching closes is closed later. -/
theorem later_below (h : Awaiting tags n (above ++ (i, o) :: below) opener) (hi : opener n = some i)
    {x : Nat × OpenTag} {j : Nat} (hx : x ∈ below) (hrequired : x.2.optional = false)
    (hj : opener j = some x.1) : n + 1 ≤ j := by
  have hle := h.later (List.mem_append_right _ (List.mem_cons_of_mem _ hx)) hrequired hj
  have hbelow := h.standing.split.2 x hx
  have hne : j ≠ n := by
    rintro rfl
    have hix : i = x.1 := Option.some.inj (hi.symm.trans hj)
    exact absurd hix (Nat.ne_of_gt hbelow)
  omega

/-- The matching and the check close the same tag. -/
theorem close_same (hnests : Nests tags opener)
    (h : Awaiting tags n (above ++ (i, o) :: below) opener) (ht : tags[n]? = some t)
    (hclosing : t.closing = true) (hi : opener n = some i) :
    Awaiting tags (n + 1) below opener where
  standing := by
    refine h.standing.of_sublist ?_
    exact (List.sublist_cons_self ..).trans (List.sublist_append_right ..)
  pending := h.pending_below hnests ht hclosing hi
  later := h.later_below hi

/-- The check closes another tag of the same name before it. That one need not be closed, so neither
need the one that the matching closes, which stays. -/
theorem close_other {dropped kept : List (Nat × OpenTag)} {hit : Nat × OpenTag}
    (hnests : Nests tags opener)
    (h : Awaiting tags n ((dropped ++ hit :: kept) ++ (i, o) :: below) opener)
    (ht : tags[n]? = some t) (hclosing : t.closing = true) (hi : opener n = some i)
    (hname : hit.2.name = o.name) :
    Awaiting tags (n + 1) (kept ++ (i, o) :: below) opener where
  standing := by
    refine h.standing.of_sublist (List.Sublist.append ?_ (List.Sublist.refl _))
    exact (List.sublist_cons_self hit kept).trans (List.sublist_append_right ..)
  pending := by
    intro i' j hj hi' hnj
    obtain ⟨o', ho'⟩ := h.pending_below hnests ht hclosing hi hj hi' hnj
    exact ⟨o', List.mem_append_right _ (List.mem_cons_of_mem _ ho')⟩
  later := by
    have hoptional := h.above_optional hnests hi
    intro x j hx hrequired hj
    rcases List.mem_append.mp hx with hx | hx
    · rw [hoptional x (by simp [hx])] at hrequired
      cases hrequired
    · rcases List.mem_cons.mp hx with rfl | hx
      · obtain ⟨-, th, -, hthopens, hthname, hthoptional⟩ := h.standing.opened hit (by simp)
        obtain ⟨-, s, -, hsopens, hsname, hsoptional⟩ := h.standing.opened (i, o) (by simp)
        have hsame : th.isPaired = s.isPaired := by
          refine isPaired_congr hthopens hsopens ?_
          rw [← hthname, hname, hsname]
        rw [hoptional hit (by simp), hsame, ← hsoptional, hrequired] at hthoptional
        cases hthoptional
      · exact h.later_below hi hx hrequired hj

end Close

/-- A closing tag finds its own tag, or one that need not be closed, in the part of the stack that
the matching gives up with it. -/
theorem close (hnests : Nests tags opener) (h : Awaiting tags n stack opener)
    (ht : tags[n]? = some t) (hclosing : t.closing = true) (hnamed : t.name ≠ "") (line : Nat) :
    ∃ stack', closeTag t.name line (stack.map Prod.snd) = .ok (stack'.map Prod.snd) ∧
      Awaiting tags (n + 1) stack' opener := by
  obtain ⟨i, hi⟩ := hnests.closings ht hclosing
  obtain ⟨hin, s, t', hs, ht', -, -, hname⟩ := hnests.pair hi
  obtain rfl : t = t' := Option.some.inj (ht.symm.trans ht')
  obtain ⟨o, ho⟩ := h.pending hi hin (Nat.le_refl n)
  obtain ⟨-, s', hs', -, honame, -⟩ := h.standing.opened _ ho
  obtain rfl : s = s' := Option.some.inj (hs.symm.trans hs')
  have hsame : o.name = t.name := honame.trans (hname.resolve_left hnamed)
  obtain ⟨above, below, rfl⟩ := List.append_of_mem ho
  have hoptional := h.above_optional hnests hi
  rcases closeTag_cases (x := (i, o)) line hsame hoptional with
    hclosed | ⟨dropped, hit, kept, rfl, hhit, hclosed⟩
  · exact ⟨below, hclosed, h.close_same hnests ht hclosing hi⟩
  · exact ⟨_, hclosed, h.close_other hnests ht hclosing hi (hhit.trans hsame.symm)⟩

/-- A tag that is no closing tag leaves what is closed later. It is put on the stack or not. -/
theorem skip {pushed : List (Nat × OpenTag)} (hnests : Nests tags opener)
    (h : Awaiting tags n stack opener) (ht : tags[n]? = some t) (hclosing : t.closing = false)
    (hstanding : Standing tags (n + 1) (pushed ++ stack)) (hpushed : ∀ x ∈ pushed, x.1 = n)
    (hopens : t.opens = true → ∃ o, (n, o) ∈ pushed) :
    Awaiting tags (n + 1) (pushed ++ stack) opener where
  standing := hstanding
  pending := by
    intro i j hj hi hnj
    rcases Nat.lt_succ_iff_lt_or_eq.mp hi with hi | rfl
    · obtain ⟨o, ho⟩ := h.pending hj hi (by omega)
      exact ⟨o, List.mem_append_right pushed ho⟩
    · obtain ⟨-, s, -, hs, -, hs', -⟩ := hnests.pair hj
      obtain rfl : t = s := Option.some.inj (ht.symm.trans hs)
      obtain ⟨o, ho⟩ := hopens hs'
      exact ⟨o, List.mem_append_left stack ho⟩
  later := by
    intro x j hx hx' hj
    have hne := hnests.ne_of_not_closing ht hclosing hj
    have hlt := (hnests.pair hj).1
    rcases List.mem_append.mp hx with hx | hx
    · have hn := hpushed x hx
      omega
    · have hle := h.later hx hx' hj
      omega

/-- A tag that stands where the matching wants it may stand there. -/
theorem mayStand (hnests : Nests tags opener) (h : Awaiting tags n stack opener)
    (ht : tags[n]? = some t) (hprint : t.isPrint = false) (hclosing : t.closing = false) :
    mayStandIn t.name ((innermost? (stack.map Prod.snd)).map OpenTag.name) = true := by
  rw [mayStandIn_iff]
  intro parents hparents
  obtain ⟨i, s, hs, hmem, ⟨⟨s', hs', hpaired⟩, hin, j, hj, hnj⟩, hlast⟩ :=
    hnests.context ht hprint hclosing hparents
  obtain rfl : s = s' := Option.some.inj (hs.symm.trans hs')
  obtain ⟨o, ho⟩ := h.pending hj hin (Nat.le_of_lt hnj)
  have hrequired : o.optional = false := by
    have hoptional := h.standing.optional_eq ho hs
    simpa [hpaired] using hoptional
  cases hinner : innermost? (stack.map Prod.snd) with
  | none =>
    have hnone := List.find?_eq_none.mp hinner o (List.mem_map_of_mem ho)
    rw [hrequired] at hnone
    exact absurd rfl hnone
  | some o' =>
    obtain ⟨i', s', ho', hs', hpaired', hname, hmax⟩ := h.standing.innermost hinner
    -- what the check finds is the innermost region of the matching
    have hencloses : Encloses tags opener i' n := by
      obtain ⟨j', hj'⟩ := hnests.pairs hs' hpaired'
      have hi'n := (h.standing.opened _ ho').1
      have hoptional := h.standing.optional_eq ho' hs'
      have hle := h.later ho' (by simpa [hpaired'] using hoptional) hj'
      have hne := hnests.ne_of_not_closing ht hclosing hj'
      exact ⟨⟨s', hs', hpaired'⟩, hi'n, j', hj', by omega⟩
    obtain rfl : i = i' := Nat.le_antisymm (hmax _ ho hrequired) (hlast i' hencloses)
    obtain rfl : s = s' := Option.some.inj (hs.symm.trans hs')
    exact ⟨o'.name, rfl, hname ▸ hmem⟩

/-- A tag that stands alone. -/
theorem alone (hnests : Nests tags opener) (h : Awaiting tags n stack opener)
    (ht : tags[n]? = some t) (hclosing : t.closing = false) (hopens : t.opens = false) :
    Awaiting tags (n + 1) stack opener := by
  have hsame : Standing tags (n + 1) ([] ++ stack) :=
    h.standing.of_sublist (List.Sublist.refl stack)
  refine h.skip hnests ht hclosing hsame (by simp) ?_
  intro hopens'
  rw [hopens] at hopens'
  cases hopens'

/-- One more tag. -/
theorem step (hnests : Nests tags opener) (h : Awaiting tags n stack opener)
    (ht : tags[n]? = some t) (hrecognized : t.Recognized) (hnamed : t.closing = true → t.name ≠ "")
    (line : Nat) :
    ∃ stack', accept (stack.map Prod.snd) ⟨t, line⟩ = .ok (stack'.map Prod.snd) ∧
      Awaiting tags (n + 1) stack' opener := by
  unfold accept
  cases hprint : t.isPrint with
  | true =>
    have hopens : t.opens = false := by simp [Tag.opens, hprint]
    exact ⟨stack, rfl, h.alone hnests ht (closing_eq_false_of_isPrint hprint) hopens⟩
  | false =>
    have hknown : t.closing = true ∧ t.name = "" ∨ t.name = "_" ∨ isKnown t.name = true := by
      rcases hrecognized with hprint' | hknown
      · rw [hprint] at hprint'
        cases hprint'
      · exact hknown
    cases hclosing : t.closing with
    | true =>
      have hname := hnamed hclosing
      obtain ⟨stack', hclosed, hawaiting⟩ := h.close hnests ht hclosing hname line
      refine ⟨stack', ?_, hawaiting⟩
      have hempty : ¬ t.name.isEmpty = true := fun hempty => hname (String.isEmpty_iff.mp hempty)
      have hunknown : ¬ (t.name != "_" && !isKnown t.name) = true := by
        rcases hknown with ⟨-, hname'⟩ | hname' | hname'
        · exact absurd hname' hname
        · simp [hname']
        · simp [hname']
      simp only [Bool.false_eq_true, if_false, if_true, acceptClosing, hempty, hunknown]
      exact hclosed
    | false =>
      have hunknown : (!(t.name == "_" || isKnown t.name)) = false := by
        rcases hknown with ⟨hclosing', -⟩ | hname' | hname'
        · rw [hclosing] at hclosing'
          cases hclosing'
        · simp [hname']
        · simp [hname']
      have hstand := h.mayStand hnests ht hprint hclosing
      simp only [Bool.false_eq_true, if_false, acceptOpening_eq _ line hprint hclosing,
        hunknown, hstand, Bool.not_true]
      cases hopens : t.opens with
      | true =>
        have hpush := h.standing.push ht hopens line
        refine ⟨[(n, ⟨t.name, line, !t.isPaired⟩)] ++ stack, rfl, ?_⟩
        exact h.skip hnests ht hclosing hpush (by simp) fun _ => ⟨_, List.mem_cons_self⟩
      | false => exact ⟨stack, rfl, h.alone hnests ht hclosing hopens⟩

end Awaiting

/-- The first `n` tags of a template that nests are accepted. -/
theorem awaiting_run {placed : List Placed} (hnests : Nests (placed.map Placed.tag) opener)
    (hrecognized : ∀ t ∈ placed.map Placed.tag, t.Recognized)
    (hnamed : ∀ t ∈ placed.map Placed.tag, t.closing = true → t.name ≠ "")
    (hn : n ≤ placed.length) :
    ∃ stack : List (Nat × OpenTag), (placed.take n).foldlM accept [] = .ok (stack.map Prod.snd) ∧
      Awaiting (placed.map Placed.tag) n stack opener := by
  induction n with
  | zero => exact ⟨[], rfl, awaiting_start _ opener⟩
  | succ n ih =>
    have hlt : n < placed.length := hn
    have htag : (placed.map Placed.tag)[n]? = some placed[n].tag := by simp [hlt]
    have hmem : placed[n].tag ∈ placed.map Placed.tag := List.mem_of_getElem? htag
    obtain ⟨stack, hbefore, hawaiting⟩ := ih (Nat.le_of_lt hlt)
    obtain ⟨stack', haccept, hnext⟩ :=
      hawaiting.step hnests htag (hrecognized _ hmem) (hnamed _ hmem) placed[n].line
    refine ⟨stack', ?_, hnext⟩
    rw [List.take_succ_eq_append_getElem hlt, List.foldlM_append, hbefore]
    simp only [List.foldlM_cons, List.foldlM_nil, bind_pure]
    exact haccept

/-! ## Main result -/

/-- A template may end if the scan is complete and all that is open may stay so. -/
theorem finish_eq_ok_iff {stack : List OpenTag} {ending : Ending} :
    finish stack ending = .ok () ↔ ending = .complete ∧ ∀ o ∈ stack, o.optional = true := by
  cases ending with
  | complete =>
    simp only [finish, true_and]
    cases hinner : innermost? stack with
    | none => simpa using List.find?_eq_none.mp hinner
    | some o =>
      have hrequired : o.optional = false := by simpa using List.find?_some hinner
      simp only [reduceCtorEq, false_iff]
      intro hall
      rw [hall o (List.mem_of_find?_eq_some hinner)] at hrequired
      cases hrequired
  | openComment line => simp [finish]
  | openTag line => simp [finish]

/-- The check accepts if all tags are accepted and the template may end. -/
theorem check_eq_ok_iff {source : Bytes} :
    check source = .ok () ↔
      ∃ stack, (scan source).1.foldlM accept [] = .ok stack ∧
        finish stack (scan source).2 = .ok () := by
  simp only [check, bind, Except.bind]
  cases (scan source).1.foldlM accept [] <;> simp

/-- The tags of a template are those that a scan finds step by step, up to where it halts. A
template is accepted only if its tags are known and nest. A template that is complete, whose tags
are known and whose closing tags have names is accepted if its tags nest, by whatever matching. -/
theorem check_accepts_exactly_nested (source : Bytes) :
    let tags := (scan source).1.map Placed.tag
    (∃ before rest, source = before ++ rest ∧ Scanned 1 before rest (scan source).1 ∧
      Halts (1 + lineBreaks before) rest (scan source).2) ∧
    (check source = .ok () → (scan source).2 = .complete ∧ (∀ t ∈ tags, t.Recognized) ∧
      ∃ opener, Nests tags opener) ∧
    ((scan source).2 = .complete → (∀ t ∈ tags, t.closing = true → t.name ≠ "") →
      (∀ t ∈ tags, t.Recognized) → (∃ opener, Nests tags opener) → check source = .ok ()) := by
  intro tags
  have hlength : tags.length = (scan source).1.length := List.length_map Placed.tag
  refine ⟨exists_scanned 1 source, ?_, ?_⟩
  · intro hcheck
    obtain ⟨after, hrun, hfinish⟩ := check_eq_ok_iff.mp hcheck
    obtain ⟨hending, hdone⟩ := finish_eq_ok_iff.mp hfinish
    rw [← List.take_length (l := (scan source).1)] at hrun
    obtain ⟨hrecognized, stack, opener, rfl, hmatched⟩ := matched_run (Nat.le_refl _) hrun
    refine ⟨hending, ?_, opener, ?_⟩
    · intro t ht
      obtain ⟨k, hk, rfl⟩ := List.getElem_of_mem ht
      exact hrecognized k _ (by omega) (List.getElem?_eq_getElem hk)
    · rw [← hlength] at hmatched
      exact hmatched.nests fun x hx => hdone x.2 (List.mem_map_of_mem hx)
  · rintro hending hnamed hrecognized ⟨opener, hnests⟩
    obtain ⟨stack, hrun, hawaiting⟩ := awaiting_run hnests hrecognized hnamed (Nat.le_refl _)
    rw [List.take_length] at hrun
    refine check_eq_ok_iff.mpr ⟨_, hrun, finish_eq_ok_iff.mpr ⟨hending, ?_⟩⟩
    intro o ho
    obtain ⟨x, hx, rfl⟩ := List.mem_map.mp ho
    -- a tag that has to be closed would be closed after the last tag
    by_contra hnot
    rw [Bool.not_eq_true] at hnot
    obtain ⟨-, t, ht, -, -, hoptional⟩ := hawaiting.standing.opened x hx
    obtain ⟨j, hj⟩ := hnests.pairs ht (by simpa [hnot] using hoptional)
    have hlater := hawaiting.later hx hnot hj
    obtain ⟨-, -, t', -, ht', -⟩ := hnests.pair hj
    obtain ⟨hjlt, -⟩ := List.getElem?_eq_some_iff.mp ht'
    rw [List.length_map] at hjlt
    omega

/-- A template in which a label is given up when the tag around it is closed. -/
def labelledTemplate : Bytes :=
  ascii "\x7bif 1\x7d\x7b_\x7d\x7blabel x\x7d\x7belse\x7d\x7b/_\x7d\x7b/if\x7d"

def labelledTags : List Tag :=
  [⟨false, false, "if", ['1']⟩, ⟨false, false, "_", []⟩, ⟨false, false, "label", ['x']⟩,
    ⟨false, false, "else", []⟩, ⟨true, false, "_", []⟩, ⟨true, false, "if", []⟩]

/-- The tag `_` is closed by the one at 4, and `if` by the one at 5. -/
def labelledOpener (j : Nat) : Option Nat :=
  if j = 4 then some 1 else if j = 5 then some 0 else none

theorem labelledOpener_eq_some_iff {i j : Nat} :
    labelledOpener j = some i ↔ j = 4 ∧ i = 1 ∨ j = 5 ∧ i = 0 := by
  unfold labelledOpener
  split_ifs <;> simp <;> omega

theorem eq_zero_of_isPaired_labelledTags {i : Nat} {t : Tag} (ht : labelledTags[i]? = some t)
    (hpaired : t.isPaired = true) : i = 0 := by
  rcases i with _ | _ | _ | _ | _ | _ | i
  all_goals cases ht
  · rfl
  all_goals cases hpaired

/-- The tags nest with this matching. -/
theorem nests_labelledTags : Nests labelledTags labelledOpener where
  pair := by
    intro i j h
    rcases labelledOpener_eq_some_iff.mp h with ⟨rfl, rfl⟩ | ⟨rfl, rfl⟩
    · exact ⟨by decide, _, _, rfl, rfl, by decide, by decide, Or.inr rfl⟩
    · exact ⟨by decide, _, _, rfl, rfl, by decide, by decide, Or.inr rfl⟩
  injective := by
    intro i j j' h h'
    rw [labelledOpener_eq_some_iff] at h h'
    omega
  noncrossing := by
    intro i i' j j' h h' _ _
    rw [labelledOpener_eq_some_iff] at h h'
    omega
  closings := by
    intro j t ht hclosing
    rcases j with _ | _ | _ | _ | _ | _ | j
    all_goals cases ht
    · cases hclosing
    · cases hclosing
    · cases hclosing
    · cases hclosing
    · exact ⟨1, rfl⟩
    · exact ⟨0, rfl⟩
  pairs := by
    intro i t ht hpaired
    obtain rfl := eq_zero_of_isPaired_labelledTags ht hpaired
    exact ⟨5, rfl⟩
  context := by
    intro k t parents ht _ _ hparents
    rcases k with _ | _ | _ | _ | _ | _ | k
    all_goals cases ht
    -- only `else` asks for a region, and the one of `_` is none that has to be closed
    all_goals cases hparents
    refine ⟨0, _, rfl, by decide, ⟨⟨_, rfl, by decide⟩, by decide, 5, rfl, by decide⟩, ?_⟩
    rintro i' ⟨⟨t, ht, hpaired⟩, -, -⟩
    exact (eq_zero_of_isPaired_labelledTags ht hpaired).le

theorem check_accepts_exactly_nested_labelled :
    (scan labelledTemplate).1.map Placed.tag = labelledTags ∧ Nests labelledTags labelledOpener ∧
      check labelledTemplate = .ok () := by
  have htags : (scan labelledTemplate).1.map Placed.tag = labelledTags := by decide
  obtain ⟨-, -, haccepts⟩ := check_accepts_exactly_nested labelledTemplate
  rw [htags] at haccepts
  have hnamed : ∀ t ∈ labelledTags, t.closing = true → t.name ≠ "" := by decide
  have hrecognized : ∀ t ∈ labelledTags, t.Recognized := by
    unfold Tag.Recognized
    decide
  exact ⟨htags, nests_labelledTags, haccepts rfl hnamed hrecognized ⟨_, nests_labelledTags⟩⟩

/-- Closing tags without a name close the label and what is around it. -/
example : check (ascii "\x7bif 1\x7d\x7blabel x\x7d\x7b/\x7d\x7b/\x7d") = .ok () := by
  decide

/-- The closing tag could be matched to `if`, but without a name it closes the label. -/
example : check (ascii "\x7bif 1\x7d\x7blabel x\x7d\x7b/\x7d") =
    .error (.malformed (.missingClosing "if") 1) := by
  decide

end SourceTidy.Template
