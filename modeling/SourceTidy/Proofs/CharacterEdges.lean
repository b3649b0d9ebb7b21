import SourceTidy.Proofs.StrippedText
import SourceTidy.Proofs.TextEncoding

/-! # Cuts between characters

A text may be cut next to an ASCII octet, for that octet is a character by itself. What a scanner
cuts off a text of whole characters is then a text of whole characters, and so is what it leaves.

* `EdgeAt`: a place at the start or the end of a text, or with an ASCII octet on one side;
* `EdgeAt.valid`: there a text of whole characters can be cut;
* `EdgeAt.add`: one cut after another;
* `Sliced`: a part of a source that is cut out between characters;
* `exists_sliced_of_decode`: ASCII characters that a text starts with can be cut off as octets.
-/

namespace SourceTidy.Utf8

open Ascii Bytes

/-- No character is cut after the first `n` octets: one of the sides is empty, or has an ASCII octet
there. -/
inductive EdgeAt (s : Bytes) (n : Nat) : Prop where
  | start (h : n = 0)
  | stop (h : s.length ≤ n)
  | before {b : UInt8} (h : (s.drop n).head? = some b) (hb : b < 0x80)
  | after {b : UInt8} (h : (s.take n).getLast? = some b) (hb : b < 0x80)

/-- A part of a source with what is before it and after it, cut between characters. -/
structure Sliced (source front part back : Bytes) : Prop where
  source_eq : source = front ++ (part ++ back)
  front : valid front = true
  part : valid part = true
  back : valid back = true

section

variable {s t source front part back : Bytes} {b : UInt8} {m n : Nat} {p : UInt8 → Bool}

theorem valid_nil : valid [] = true := rfl

theorem valid_append (hs : valid s = true) (ht : valid t = true) : valid (s ++ t) = true := by
  rw [valid_iff] at hs ht ⊢
  rw [run_append, hs]
  exact ht

/-- Texts of whole characters, one after the other, make such a text. -/
theorem valid_flatMap {α : Type} {f : α → Bytes} {l : List α} (h : ∀ a ∈ l, valid (f a) = true) :
    valid (l.flatMap f) = true := by
  induction l with
  | nil => rfl
  | cons a l ih =>
    rw [List.forall_mem_cons] at h
    rw [List.flatMap_cons]
    exact valid_append h.1 (ih h.2)

theorem valid_cons_ascii (hb : b < 0x80) (s : Bytes) : valid (b :: s) = valid s := by
  rw [valid, run_ascii .ground hb, if_pos rfl]
  rfl

/-- Next to an ASCII octet a text of whole characters is cut into two such texts. -/
theorem valid_of_append_cons (hb : b < 0x80) (h : valid (s ++ b :: t) = true) :
    valid s = true ∧ valid t = true := by
  rw [valid_iff] at h
  obtain ⟨hs, ht⟩ := run_append_ascii hb h
  exact ⟨valid_iff.mpr hs, valid_iff.mpr ht⟩

/-- A text of whole characters has whole characters on both sides of an edge. -/
theorem EdgeAt.valid (h : EdgeAt s n) (hs : valid s = true) :
    valid (s.take n) = true ∧ valid (s.drop n) = true := by
  cases h with
  | start hn =>
    subst hn
    exact ⟨valid_nil, hs⟩
  | stop hn =>
    rw [List.take_of_length_le hn, List.drop_of_length_le hn]
    exact ⟨hs, valid_nil⟩
  -- the ASCII octet is taken off the side that it is on, and what is left of both sides is cut
  -- there
  | before hnext hb =>
    obtain ⟨more, hmore⟩ := List.head?_eq_some_iff.mp hnext
    rw [← List.take_append_drop n s, hmore] at hs
    rw [hmore, valid_cons_ascii hb]
    exact valid_of_append_cons hb hs
  | after hlast hb =>
    obtain ⟨before, hbefore⟩ := List.getLast?_eq_some_iff.mp hlast
    rw [← List.take_append_drop n s, hbefore, List.append_assoc, List.singleton_append] at hs
    obtain ⟨hfront, hback⟩ := valid_of_append_cons hb hs
    rw [hbefore]
    exact ⟨valid_append_ascii hfront (by simpa using hb), hback⟩

/-- The same for two parts. -/
theorem EdgeAt.valid_parts (h : EdgeAt (s ++ t) s.length) (hvalid : Utf8.valid (s ++ t) = true) :
    Utf8.valid s = true ∧ Utf8.valid t = true := by
  have hparts := h.valid hvalid
  rwa [List.take_left, List.drop_left] at hparts

/-- An edge of what is left is an edge of the whole text. -/
theorem EdgeAt.add (hm : EdgeAt s m) (hn : EdgeAt (s.drop m) n) : EdgeAt s (m + n) := by
  cases hn with
  | start hn =>
    subst hn
    exact hm
  | stop hn =>
    rw [List.length_drop] at hn
    exact .stop (by omega)
  | before hnext hb =>
    rw [List.drop_drop] at hnext
    exact .before hnext hb
  | after hlast hb =>
    refine .after ?_ hb
    rw [List.take_add, List.getLast?_append, hlast]
    rfl

/-- There is an edge after ASCII octets, however many. -/
theorem edgeAt_of_ascii (h : ∀ b ∈ s.take n, b < 0x80) : EdgeAt s n := by
  cases hlast : (s.take n).getLast? with
  | some b => exact .after hlast (h b (List.mem_of_getLast? hlast))
  | none =>
    rcases List.take_eq_nil_iff.mp (List.getLast?_eq_none_iff.mp hlast) with hn | hs
    · exact .start hn
    · exact .stop (by simp [hs])

/-- After the ASCII octets at the front of a text. -/
theorem edgeAt_of_front (h : t <+: s) (ht : t.all (· < 0x80) = true) : EdgeAt s t.length := by
  obtain ⟨more, rfl⟩ := h
  refine edgeAt_of_ascii ?_
  rw [List.take_left]
  simpa using ht

/-- Before an ASCII word that stands in a text, and after it. -/
theorem edges_of_word (h : b :: t <+: s.drop n) (ht : (b :: t).all (· < 0x80) = true) :
    EdgeAt s n ∧ EdgeAt s (n + (b :: t).length) := by
  have hstart : EdgeAt s n := by
    obtain ⟨more, hmore⟩ := h
    refine .before (b := b) (by rw [← hmore]; rfl) ?_
    simpa using (List.all_eq_true.mp ht) b List.mem_cons_self
  exact ⟨hstart, hstart.add (edgeAt_of_front h ht)⟩

theorem edgeAt_cons (hb : b < 0x80) (s : Bytes) : EdgeAt (b :: s) 1 :=
  .after rfl hb

/-- A run of ASCII octets ends at an edge. -/
theorem edgeAt_runLength (hp : ∀ b, p b = true → b < 0x80) (s : Bytes) :
    EdgeAt s (runLength p s) := by
  refine edgeAt_of_ascii ?_
  rw [runLength, take_length_takeWhile]
  intro b hb
  exact hp b (List.mem_takeWhile_imp hb)

/-- A place after which the octets of a class do not go on, if all that is not ASCII belongs to
it. -/
theorem edgeAt_of_nextIn_eq_false (hp : ∀ b, p b = false → b < 0x80)
    (h : nextIn p (s.drop n) = false) :
    EdgeAt s n := by
  cases hnext : (s.drop n).head? with
  | none =>
    rw [List.head?_eq_none_iff, List.drop_eq_nil_iff] at hnext
    exact .stop hnext
  | some b =>
    refine .before hnext (hp b ?_)
    simpa [nextIn, hnext] using h

/-! ## Slices -/

/-- A part between two edges is a slice of the source. -/
theorem sliced_of_edges (hsource : Utf8.valid source = true)
    (heq : source = front ++ (part ++ back)) (hfront : EdgeAt source front.length)
    (hpart : EdgeAt (part ++ back) part.length) :
    Sliced source front part back := by
  subst heq
  obtain ⟨hvalid, hrest⟩ := hfront.valid_parts hsource
  obtain ⟨hvalid', hback⟩ := hpart.valid_parts hrest
  exact ⟨rfl, hvalid, hvalid', hback⟩

/-- A part of a part. -/
theorem Sliced.trans {whole before after : Bytes} (h : Sliced source front whole back)
    (hpart : Sliced whole before part after) :
    Sliced source (front ++ before) part (after ++ back) := by
  refine ⟨?_, valid_append h.front hpart.front, hpart.part, valid_append hpart.back h.back⟩
  rw [h.source_eq, hpart.source_eq]
  simp only [List.append_assoc]

end

/-! ## ASCII characters

A character that takes several octets is never ASCII, so the ASCII characters that a text is read as
are octets of it.
-/

section

variable {q r : State} {s : Bytes} {b : UInt8} {n : Nat} {c : Char} {read more : List Char}

/-- The bits `n`, read up to state `q`, are the first of a character that is not ASCII. -/
def State.Holds : State → Nat → Prop
  | .ground, n => 0x80 ≤ n ∧ n.isValidChar
  | .tail1, n => 0x2 ≤ n ∧ (n < 0x360 ∨ 0x380 ≤ n ∧ n < 0x4400)
  | .tail2, n => 0x1 ≤ n ∧ (n < 0xD ∨ 0xE ≤ n ∧ n < 0x110)
  | .tail3, n => 0x1 ≤ n ∧ n < 0x4
  | .afterE0, n => n = 0x0
  | .afterED, n => n = 0xD
  | .afterF0, n => n = 0x0
  | .afterF4, n => n = 0x4

theorem within_iff {lo hi : UInt8} :
    within lo hi b = true ↔ lo.toNat ≤ b.toNat ∧ b.toNat ≤ hi.toNat := by
  simp only [within, Bool.and_eq_true, decide_eq_true_eq, UInt8.le_iff_toNat_le]

/-- The first octet of a character that is not ASCII already says so. -/
theorem holds_leadBits (hb : ¬ b < 0x80) (h : State.ground.step b = some q) :
    q ≠ .ground ∧ q.Holds (leadBits b) := by
  simp only [State.step, if_neg hb, within_iff, ← UInt8.toNat_inj, UInt8.reduceToNat] at h
  simp only [leadBits, UInt8.lt_iff_toNat_lt, UInt8.reduceToNat]
  split_ifs at h
  all_goals
    cases h
    refine ⟨by rintro ⟨⟩, ?_⟩
    simp only [State.Holds]
    split_ifs <;> omega

/-- Further octets add to it and do not make it ASCII. -/
theorem holds_addBits (hq : q ≠ .ground) (hn : q.Holds n) (h : q.step b = some r) :
    r.Holds (addBits n b) := by
  cases q with
  | ground => exact absurd rfl hq
  | _ =>
    simp only [State.step, within_iff, UInt8.reduceToNat, Option.ite_none_right_eq_some] at h
    obtain ⟨hin, ⟨⟩⟩ := h
    simp only [State.Holds, addBits, Nat.isValidChar] at hn ⊢
    omega

theorem toNat_ofNat (h : n.isValidChar) : (Char.ofNat n).toNat = n := by
  rw [Char.ofNat, dif_pos h]
  rfl

/-- Inside of a character that is not ASCII, this character is read next. -/
theorem exists_decodeFrom (hq : q ≠ .ground) (hn : q.Holds n) (h : q.run s = some .ground) :
    ∃ c more, decodeFrom q n s = c :: more ∧ 0x80 ≤ c.toNat := by
  induction s generalizing q n with
  | nil => exact absurd (Option.some.inj h) hq
  | cons b s ih =>
    rw [run_cons] at h
    obtain ⟨r, hstep, hrun⟩ := Option.bind_eq_some_iff.mp h
    have hr := holds_addBits hq hn hstep
    simp only [decodeFrom, hstep, if_neg hq]
    -- the octet is the last one of the character, or there are more
    split
    · next hground =>
      subst hground
      refine ⟨_, _, rfl, ?_⟩
      rw [toNat_ofNat hr.2]
      exact hr.1
    · next hground => exact ih hground hr hrun

/-- The first character of a text is ASCII only if its first octet is. -/
theorem exists_octet_of_decode (hs : valid s = true) (h : decode s = c :: more)
    (hc : c.toNat < 0x80) :
    ∃ b rest, s = b :: rest ∧ b < 0x80 ∧ c.toNat = b.toNat ∧ decode rest = more := by
  cases s with
  | nil => cases h
  | cons b rest =>
    -- an octet that is not ASCII would start a character that is not ASCII
    by_cases hb : b < 0x80
    · rw [decode, decodeFrom_ascii .ground 0 hb, if_pos rfl] at h
      obtain ⟨rfl, rfl⟩ := List.cons.inj h
      have hvalid : b.toNat.isValidChar := Or.inl (by have := b.toNat_lt; omega)
      exact ⟨b, rest, rfl, hb, toNat_ofNat hvalid, rfl⟩
    · rw [valid_iff, run_cons] at hs
      obtain ⟨q, hstep, hrun⟩ := Option.bind_eq_some_iff.mp hs
      obtain ⟨hq, hn⟩ := holds_leadBits hb hstep
      obtain ⟨c', more', heq, hc'⟩ := exists_decodeFrom hq hn hrun
      have hchars : decode (b :: rest) = c' :: more' := by
        simp only [decode, decodeFrom, hstep, if_pos, if_neg hq]
        exact heq
      rw [h] at hchars
      obtain ⟨rfl, -⟩ := List.cons.inj hchars
      omega

/-- ASCII characters at the front of a text are octets that can be cut off. -/
theorem exists_sliced_of_decode (hs : valid s = true) (h : decode s = read ++ more)
    (hread : ∀ c ∈ read, c.toNat < 0x80) :
    ∃ part back, Sliced s [] part back ∧ part.length = read.length ∧ decode part = read ∧
      decode back = more := by
  -- one octet for each of the characters that are read
  induction read generalizing s with
  | nil => exact ⟨[], s, ⟨rfl, valid_nil, valid_nil, hs⟩, rfl, rfl, h⟩
  | cons c read ih =>
    rw [List.forall_mem_cons] at hread
    obtain ⟨b, rest, rfl, hb, hcode, hrest⟩ := exists_octet_of_decode hs h hread.1
    rw [valid_cons_ascii hb] at hs
    obtain ⟨part, back, hsliced, hlength, hpart, hback⟩ := ih hs hrest hread.2
    refine ⟨b :: part, back, ⟨?_, valid_nil, ?_, hsliced.back⟩, ?_, ?_, hback⟩
    · rw [hsliced.source_eq]
      rfl
    · rw [valid_cons_ascii hb]
      exact hsliced.part
    · rw [List.length_cons, hlength, List.length_cons]
    · rw [decode, decodeFrom_ascii .ground 0 hb, if_pos rfl, List.nil_append, ← hcode,
        Char.ofNat_toNat, ← hpart]
      rfl

end

end SourceTidy.Utf8
