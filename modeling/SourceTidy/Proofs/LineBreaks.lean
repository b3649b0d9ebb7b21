import Mathlib.Data.List.DropRight
import SourceTidy.Rule.LineEnding

/-! # Texts with one kind of line break

`normalizeLines` makes all line breaks of a text equal. What it leaves is described without it, by
the grammar `Uniform`: octets that are no part of a line break, and whole line breaks of one kind.

* `uniform_normalizeLines`, `normalizeLines_of_uniform`: the uniform texts are the ones that
  `normalizeLines` leaves, and it does not change them again;
* `normalizeLines_normalizeLines`: the last normalization decides;
* `normalizeLines_append`: parts of a text are normalized apart, unless a line break of two octets
  lies across the cut;
* `Uniform.of_append`: the front of a uniform text is uniform, with the same exception;
* `textSize_normalizeLines`: no octet is lost but line breaks.
-/

namespace SourceTidy

open Ascii Bytes

/-- Every line break of the text is `eol`. -/
inductive Uniform (eol : LineEnding) : Bytes → Prop
  | nil : Uniform eol []
  | octet {b : UInt8} {s : Bytes} (hcr : b ≠ cr) (hlf : b ≠ lf) (hs : Uniform eol s) :
      Uniform eol (b :: s)
  | lineBreak {s : Bytes} (hs : Uniform eol s) : Uniform eol (eol.bytes ++ s)

/-- An octet of a line break. -/
def isBreak (b : UInt8) : Bool := b == cr || b == lf

@[simp] theorem lf_ne_cr : lf ≠ cr := by decide

theorem isBreak_iff {b : UInt8} : isBreak b = true ↔ b = cr ∨ b = lf := by
  simp [isBreak]

theorem isBreak_of_mem_bytes {eol : LineEnding} {b : UInt8} (h : b ∈ eol.bytes) :
    isBreak b = true := by
  rw [isBreak_iff]
  cases eol with
  | lf => exact Or.inr (List.mem_singleton.mp h)
  | crlf => exact (List.mem_cons.mp h).imp_right List.mem_singleton.mp

/-! ## What normalization leaves -/

@[simp] theorem normalizeLines_nil (e : Bytes) : normalizeLines e [] = [] := rfl

theorem normalizeLines_octet (e : Bytes) {b : UInt8} (s : Bytes) (hcr : b ≠ cr) (hlf : b ≠ lf) :
    normalizeLines e (b :: s) = b :: normalizeLines e s := by
  rw [normalizeLines, if_neg hcr, if_neg hlf]

/-- A line break at the start of a text is replaced as a whole. -/
theorem normalizeLines_lineBreak (e : Bytes) (eol : LineEnding) (s : Bytes) :
    normalizeLines e (eol.bytes ++ s) = e ++ normalizeLines e s := by
  cases eol <;> simp [LineEnding.bytes, normalizeLines, nextIs]

/-- What is left has line breaks of one kind. -/
theorem uniform_normalizeLines (eol : LineEnding) (s : Bytes) :
    Uniform eol (normalizeLines eol.bytes s) := by
  fun_induction normalizeLines eol.bytes s with
  | case1 => exact .nil
  | case2 rest ih =>
    split
    · exact ih
    · exact .lineBreak ih
  | case3 rest _ ih => exact .lineBreak ih
  | case4 b rest hcr hlf ih => exact .octet hcr hlf ih

/-- A text with line breaks of the right kind is left as it is. -/
theorem normalizeLines_of_uniform {eol : LineEnding} {s : Bytes} (h : Uniform eol s) :
    normalizeLines eol.bytes s = s := by
  induction h with
  | nil => rfl
  | octet hcr hlf _ ih => rw [normalizeLines_octet _ _ hcr hlf, ih]
  | lineBreak _ ih => rw [normalizeLines_lineBreak, ih]

/-- After a normalization, another one does what it would have done at once. -/
theorem normalizeLines_normalizeLines (e : Bytes) (eol : LineEnding) (s : Bytes) :
    normalizeLines e (normalizeLines eol.bytes s) = normalizeLines e s := by
  fun_induction normalizeLines eol.bytes s with
  | case1 => rfl
  | case2 rest ih =>
    -- a carriage return before a line feed leaves the replacement to the line feed
    rw [normalizeLines, if_pos rfl]
    split
    · exact ih
    · rw [normalizeLines_lineBreak, ih]
  | case3 rest _ ih =>
    rw [normalizeLines_lineBreak, ih]
    simp [normalizeLines]
  | case4 b rest hcr hlf ih =>
    rw [normalizeLines_octet _ _ hcr hlf, normalizeLines_octet _ _ hcr hlf, ih]

/-! ## Parts of a text -/

/-- No line break of two octets lies across the cut between `s` and `t`. -/
def CleanCut (s t : Bytes) : Prop := s.getLast? ≠ some cr ∨ t.head? ≠ some lf

/-- The cut is at the end of the text, so its first octet plays no part. -/
theorem CleanCut.tail {b : UInt8} {s t : Bytes} (h : CleanCut (b :: s) t) : CleanCut s t := by
  rcases h with h | h
  · left
    intro hs
    exact h (by rw [List.getLast?_cons, hs]; rfl)
  · exact Or.inr h

/-- After a carriage return the next octet is the same with and without what comes after the cut. -/
theorem CleanCut.nextIs_eq {rest t : Bytes} (h : CleanCut (cr :: rest) t) :
    nextIs lf (rest ++ t) = nextIs lf rest := by
  cases rest with
  | nil => simpa [CleanCut, nextIs] using h
  | cons c more => rfl

/-- The parts of a text are normalized apart. -/
theorem normalizeLines_append (e : Bytes) {s t : Bytes} (h : CleanCut s t) :
    normalizeLines e (s ++ t) = normalizeLines e s ++ normalizeLines e t := by
  induction s with
  | nil => rfl
  | cons b rest ih =>
    rw [List.cons_append, normalizeLines, normalizeLines, ih h.tail]
    by_cases hb : b = cr
    · subst hb
      rw [if_pos rfl, if_pos rfl, h.nextIs_eq, List.append_assoc]
    · rw [if_neg hb, if_neg hb]
      split
      · rw [List.append_assoc]
      · rfl

/-- An octet at the end of a text stays there, if it is no line break. -/
theorem normalizeLines_concat (e : Bytes) (s : Bytes) {b : UInt8} (hcr : b ≠ cr) (hlf : b ≠ lf) :
    normalizeLines e (s ++ [b]) = normalizeLines e s ++ [b] := by
  have hcut : CleanCut s [b] := Or.inr (by simpa using hlf)
  rw [normalizeLines_append e hcut, normalizeLines_octet _ _ hcr hlf, normalizeLines_nil]

/-- A line break at the end of a text stays one. -/
theorem getLast?_normalizeLines (eol : LineEnding) (s : Bytes) {b : UInt8} (hb : b = cr ∨ b = lf) :
    (normalizeLines eol.bytes (s ++ [b])).getLast? = some lf := by
  induction s with
  | nil => rcases hb with rfl | rfl <;> cases eol <;> rfl
  | cons c s ih =>
    rw [List.cons_append, normalizeLines]
    split
    · rw [List.getLast?_append, ih]; rfl
    · split
      · rw [List.getLast?_append, ih]; rfl
      · rw [List.getLast?_cons, ih]; rfl

/-- An octet at the end of a normalized text, if it is no line feed, stood there before. -/
theorem exists_concat_of_normalizeLines {eol : LineEnding} {s front : Bytes} {b : UInt8}
    (hlf : b ≠ lf) (h : normalizeLines eol.bytes s = front ++ [b]) :
    ∃ s', s = s' ++ [b] ∧ normalizeLines eol.bytes s' = front := by
  rcases List.eq_nil_or_concat s with rfl | ⟨s', c, rfl⟩
  · simp at h
  · rw [List.concat_eq_append] at h ⊢
    by_cases hbreak : c = cr ∨ c = lf
    · have hlast := getLast?_normalizeLines eol s' hbreak
      rw [h] at hlast
      exact absurd (by simpa using hlast) hlf
    · obtain ⟨hcr, hclf⟩ := not_or.mp hbreak
      rw [normalizeLines_concat _ _ hcr hclf] at h
      obtain ⟨hfront, hc⟩ := List.append_inj' h rfl
      obtain rfl : c = b := by simpa using hc
      exact ⟨s', rfl, hfront⟩

/-- Nothing but octets of line breaks is added. -/
theorem mem_normalizeLines {eol : LineEnding} {s : Bytes} {b : UInt8}
    (h : b ∈ normalizeLines eol.bytes s) : b ∈ s ∨ isBreak b = true := by
  fun_induction normalizeLines eol.bytes s with
  | case1 => cases h
  -- a carriage return, which is dropped if a line feed follows and makes the line break
  | case2 rest ih =>
    rcases List.mem_append.mp h with h | h
    · split at h
      · cases h
      · exact Or.inr (isBreak_of_mem_bytes h)
    · exact (ih h).imp_left (List.mem_cons_of_mem _)
  | case3 rest _ ih =>
    rcases List.mem_append.mp h with h | h
    · exact Or.inr (isBreak_of_mem_bytes h)
    · exact (ih h).imp_left (List.mem_cons_of_mem _)
  | case4 c rest _ _ ih =>
    rcases List.mem_cons.mp h with rfl | h
    · exact Or.inl List.mem_cons_self
    · exact (ih h).imp_left (List.mem_cons_of_mem _)

namespace Uniform

variable {eol : LineEnding}

theorem append {s t : Bytes} (hs : Uniform eol s) (ht : Uniform eol t) : Uniform eol (s ++ t) := by
  induction hs with
  | nil => exact ht
  | octet hcr hlf _ ih => exact .octet hcr hlf ih
  | lineBreak _ ih =>
    rw [List.append_assoc]
    exact .lineBreak ih

theorem bytes : Uniform eol eol.bytes := by
  have h : Uniform eol (eol.bytes ++ []) := .lineBreak .nil
  rwa [List.append_nil] at h

/-- What stands before a clean cut of a uniform text is uniform. -/
theorem of_append {s t : Bytes} (h : Uniform eol (s ++ t)) (hcut : CleanCut s t) :
    Uniform eol s := by
  generalize htext : s ++ t = text at h
  induction h generalizing s with
  | nil =>
    obtain ⟨rfl, -⟩ := List.append_eq_nil_iff.mp htext
    exact .nil
  | @octet b more hcr hlf _ ih =>
    cases s with
    | nil => exact .nil
    | cons c rest =>
      obtain ⟨rfl, hmore⟩ := List.cons.inj htext
      exact .octet hcr hlf (ih hcut.tail hmore)
  | @lineBreak more _ ih =>
    -- the cut is before the line break, after it, or, for two octets, between them
    cases s with
    | nil => exact .nil
    | cons c rest =>
      cases eol with
      | lf =>
        obtain ⟨rfl, hmore⟩ := List.cons.inj htext
        exact .lineBreak (ih hcut.tail hmore)
      | crlf =>
        obtain ⟨rfl, hrest⟩ := List.cons.inj htext
        cases rest with
        | nil =>
          have ht : t = lf :: more := hrest
          rcases hcut with hcut | hcut
          · exact absurd rfl hcut
          · exact absurd (by rw [ht]; rfl) hcut
        | cons d rest =>
          obtain ⟨rfl, hmore⟩ := List.cons.inj hrest
          exact .lineBreak (ih hcut.tail.tail hmore)

end Uniform

/-! ## The size of a text apart from its line breaks -/

/-- How many octets the text has, line breaks not counted. -/
def textSize (s : Bytes) : Nat := s.countP fun b => !isBreak b

theorem textSize_append (s t : Bytes) : textSize (s ++ t) = textSize s + textSize t :=
  List.countP_append

theorem textSize_cons (b : UInt8) (s : Bytes) :
    textSize (b :: s) = textSize s + if isBreak b then 0 else 1 := by
  cases h : isBreak b <;> simp [textSize, h]

@[simp] theorem textSize_lineEnding (eol : LineEnding) : textSize eol.bytes = 0 := by
  cases eol <;> rfl

/-- Normalization changes line breaks only. -/
theorem textSize_normalizeLines (eol : LineEnding) (s : Bytes) :
    textSize (normalizeLines eol.bytes s) = textSize s := by
  fun_induction normalizeLines eol.bytes s with
  | case1 => rfl
  | case2 rest ih =>
    have hcr : textSize (cr :: rest) = textSize rest := by simp [textSize_cons, isBreak]
    rw [textSize_append, ih, hcr]
    split
    · exact Nat.zero_add _
    · rw [textSize_lineEnding, Nat.zero_add]
  | case3 rest _ ih =>
    have hlf : textSize (lf :: rest) = textSize rest := by simp [textSize_cons, isBreak]
    rw [textSize_append, ih, hlf, textSize_lineEnding, Nat.zero_add]
  | case4 b rest _ _ ih => rw [textSize_cons, textSize_cons, ih]

end SourceTidy
