import SourceTidy.Proofs.NeonLexing

/-! # The nesting limit of NEON documents

Every token of a document lies in at most `maxDepth` brackets and blocks that are the value of a
dash or of a key. Blocks that go on with the mapping of an item do not count, and nothing else
limits them.

* `decode_limits_nesting`: how deep the tokens of a document can lie;
* `decode_staircase`: items that go on below each other nest as deep as one likes.
-/

namespace SourceTidy.Neon

open Ascii Bytes

/-! ## The limit -/

theorem ShowsAll.shows {levels : List Level} {blocks : List Block} (h : ShowsAll levels blocks) :
    List.Forall₂ Shows levels blocks := by
  cases h with
  | nil => exact .nil
  | cons inner outer => exact .cons inner.toShows (outer.imp fun _ _ h => h.toShows)

/-- The blocks that count are those that are the value of something. -/
theorem countP_counted {levels : List Level} {blocks : List Block}
    (h : List.Forall₂ Shows levels blocks) :
    blocks.countP Block.counted = levels.countP (·.opener = .value) := by
  induction h with
  | nil => rfl
  | cons hshows _ ih => simp only [List.countP_cons, ih, hshows.counted]

/-- What is nested in the outline is what the machine holds open. -/
theorem Follows.nesting_eq {m : Machine} {o : Outline} (h : Follows m o) :
    o.nesting = m.groups.length + (m.blocks.length - 1) := by
  rw [Outline.nesting, h.brackets, h.blocks.shows.length_eq]

/-- The depth of the machine leaves out the blocks that go on with an item. -/
theorem Follows.nesting_le {m : Machine} {o : Outline} (h : Follows m o) :
    o.nesting ≤ m.depth + o.continuations := by
  have hdepth : m.depth = o.brackets + o.levels.countP (·.opener = .value) := by
    rw [Machine.depth, countP_counted h.blocks.shows, h.brackets]
  have hlength := length_eq_countP o.levels
  have hdocument := h.document
  unfold Outline.nesting Outline.continuations
  omega

/-- The last token is within the limit as well, as the end of the document asks once more. -/
theorem depth_le_of_finish {m : Machine} {line : Nat} (h : m.finish line = .ok ()) :
    m.depth ≤ maxDepth := by
  unfold Machine.finish at h
  split_ifs at h
  omega

/-- A machine past the limit accepts neither another token nor the end. -/
theorem depth_le_of_run {m m' : Machine} {tokens : List Token} {line : Nat}
    (hrun : m.run tokens = .ok m') (hfinish : m'.finish line = .ok ()) : m.depth ≤ maxDepth := by
  cases tokens with
  | nil =>
    cases hrun
    exact depth_le_of_finish hfinish
  | cons t tokens =>
    obtain ⟨m₁, hstep, -⟩ := bind_eq_ok hrun
    exact (step_eq_ok hstep).1

/-- In a document no token lies deeper than `maxDepth`, the blocks left out that go on with the
mapping of an item. What the outline says is open at a token is what the machine holds there. -/
theorem decode_limits_nesting (source : Bytes) (h : decode source = .ok ()) :
    ∃ tokens, lex source = .ok tokens ∧ ∀ read, read <+: tokens →
      (∃ m, Machine.start.run read = .ok m ∧
        (outline read).nesting = m.groups.length + (m.blocks.length - 1)) ∧
      (outline read).nesting ≤ maxDepth + (outline read).continuations := by
  obtain ⟨tokens, hlex, hparse⟩ := bind_eq_ok h
  obtain ⟨last, hrun, hfinish⟩ := bind_eq_ok hparse
  refine ⟨tokens, hlex, ?_⟩
  rintro read ⟨rest, rfl⟩
  rw [run_append] at hrun
  obtain ⟨m, hread, hrest⟩ := bind_eq_ok hrun
  have hfollows := follows_outline hread
  have hdepth := depth_le_of_run hrest hfinish
  have hnesting := hfollows.nesting_le
  exact ⟨⟨m, hread, hfollows.nesting_eq⟩, by omega⟩

/-- A block, an item in it with a list in brackets, and a line that goes on with the item. -/
def smallDocument : Bytes := ascii "a:\n\t- b: [1]\n\t\tc: 2\n"

example :
    (lex smallDocument).map
    (fun tokens => ((outline tokens).nesting, (outline tokens).continuations)) =
    .ok (2, 1) := by decide

theorem decode_limits_nesting_smallDocument :
    decode smallDocument = .ok () ∧
      ∃ tokens, lex smallDocument = .ok tokens ∧ ∀ read, read <+: tokens →
        (∃ m, Machine.start.run read = .ok m ∧
          (outline read).nesting = m.groups.length + (m.blocks.length - 1)) ∧
        (outline read).nesting ≤ maxDepth + (outline read).continuations := by
  have h : decode smallDocument = .ok () := by decide
  exact ⟨h, decode_limits_nesting smallDocument h⟩

/-! ## Items that go on below each other -/

/-- An item with a key, after `i` tabs. -/
def stair (i : Nat) : Bytes := List.replicate i tab ++ ascii "- k: v\n"

/-- `n` items below each other, the first one after `i` tabs. -/
def stairs (i : Nat) : Nat → Bytes
  | 0 => []
  | n + 1 => stair i ++ stairs (i + 1) n

/-- An item that goes on with an item, and so on `n` times. -/
def staircase (n : Nat) : Bytes := stairs 0 (n + 1)

def itemTokens (line : Nat) : List Token :=
  [⟨.dash, line⟩, ⟨.scalar (ascii "k"), line⟩, ⟨.colon, line⟩, ⟨.scalar (ascii "v"), line⟩]

def stairsTokens (i : Nat) : Nat → List Token
  | 0 => []
  | n + 1 =>
      ⟨.newline (List.replicate i tab), i + 1⟩ :: itemTokens (i + 1) ++ stairsTokens (i + 1) n

/-- The indentation of a line is no symbol. -/
theorem lexFrom_tabs (unit : Option UInt8) (line i : Nat) (s : Bytes) :
    lexFrom unit line 0 (List.replicate i tab ++ s) = lexFrom unit line 0 s := by
  refine lexFrom_blanks unit line ?_ s
  intro b hb
  rw [List.eq_of_mem_replicate hb]
  rfl

theorem lexFrom_item (unit : Option UInt8) (line : Nat) (s : Bytes) :
    lexFrom unit line 0 (ascii "- k: v\n" ++ s) =
      (lexLines unit (line + 1) s).map (itemTokens line ++ ·) := by
  have hitem : lexFrom unit line 0 (ascii "- k: v\n" ++ s) =
      (((((((lexLines unit (line + 1) s).map ([⟨.scalar (ascii "v"), line⟩] ++ ·)).map
        ([] ++ ·)).map
        ([⟨.colon, line⟩] ++ ·)).map ([⟨.scalar (ascii "k"), line⟩] ++ ·)).map ([] ++ ·)).map
          ([⟨.dash, line⟩] ++ ·)) := rfl
  rw [hitem]
  cases lexLines unit (line + 1) s <;> rfl

/-- A line that starts with tabs has them as its indentation. -/
theorem entryIndent?_tabs (i : Nat) {b : UInt8} (s : Bytes) (hspacing : isSpacing b = false)
    (hhash : b ≠ hash) :
    entryIndent? (List.replicate i tab ++ b :: s) = some (List.replicate i tab) := by
  simp only [isSpacing, Bool.or_eq_false_iff] at hspacing
  obtain ⟨⟨hblank, hcr⟩, hlf⟩ := hspacing
  have hindent : (List.replicate i tab ++ b :: s).takeWhile isBlank = List.replicate i tab := by
    induction i with
    | zero => simp [hblank]
    | succ i ih => simpa [List.replicate_succ, isBlank] using ih
  rw [entryIndent?, hindent, List.drop_left]
  simp_all

/-- Lines that are indented by tabs go together. -/
theorem agreeIndent?_tabs {unit : Option UInt8} (hunit : unit = none ∨ unit = some tab) (i : Nat) :
    ∃ unit', agreeIndent? unit (List.replicate i tab) = some unit' ∧
      (unit' = none ∨ unit' = some tab) := by
  have hall : (List.replicate i tab).all (· == tab) = true := by simp
  rcases hunit with rfl | rfl
  · cases i with
    | zero => exact ⟨none, rfl, .inl rfl⟩
    | succ i => exact ⟨some tab, by simp [agreeIndent?, List.replicate_succ], .inr rfl⟩
  · exact ⟨some tab, by simp [agreeIndent?], .inr rfl⟩

theorem lexLines_stairs (unit : Option UInt8) (hunit : unit = none ∨ unit = some tab) (i n : Nat) :
    lexLines unit (i + 1) (stairs i n) = .ok (stairsTokens i n) := by
  induction n generalizing unit i with
  | zero => rfl
  | succ n ih =>
    obtain ⟨unit', hagree, hunit'⟩ := agreeIndent?_tabs hunit i
    have hindent : entryIndent? (List.replicate i tab ++ (ascii "- k: v\n" ++ stairs (i + 1) n)) =
        some (List.replicate i tab) :=
      entryIndent?_tabs i (ascii " k: v\n" ++ stairs (i + 1) n) (b := dash) rfl (by decide)
    rw [lexLines, startLine, stairs, stair, List.append_assoc, hindent]
    dsimp only
    rw [hagree]
    dsimp only
    rw [lexFrom_tabs, lexFrom_item, ih unit' hunit' (i + 1)]
    rfl

/-- The machine on the last of `n + 1` items that go on below each other. -/
structure Climbed (n : Nat) (m : Machine) : Prop where
  groups : m.groups = []
  innermost : ∃ b outer key, m.blocks = b :: outer ∧ b.indent = List.replicate n tab ∧
    b.slot = .itemValue key ∧ b.progress.isVacant = false
  uncounted : m.blocks.countP Block.counted = 0
  length : m.blocks.length = n + 1

/-- A symbol on a line, within the limit. -/
theorem step_line_eq {b : Block} {outer : List Block} {t : Token}
    (hlimit : (b :: outer).countP Block.counted ≤ maxDepth)
    (ht : ∀ indent, t.symbol ≠ .newline indent) :
    (⟨b :: outer, []⟩ : Machine).step t = (b.step t).map fun r => ⟨r.1 :: outer, r.2⟩ := by
  have hdepth : ¬ maxDepth < (⟨b :: outer, []⟩ : Machine).depth := by
    simpa [Machine.depth] using hlimit
  rw [Machine.step, if_neg hdepth]
  split
  case h_4 hsymbol => exact absurd hsymbol (ht _)
  all_goals simp_all

theorem step_line {b b' : Block} {outer : List Block} {t : Token} {opened : List Group}
    (hlimit : (b :: outer).countP Block.counted ≤ maxDepth)
    (ht : ∀ indent, t.symbol ≠ .newline indent) (h : b.step t = .ok (b', opened)) :
    (⟨b :: outer, []⟩ : Machine).step t = .ok ⟨b' :: outer, opened⟩ := by
  rw [step_line_eq hlimit ht, h]
  rfl

/-- An item on a line that starts a block. -/
theorem climbed_item {n : Nat} (line : Nat) (keys : List Bytes) (outer : List Block)
    (hcounted : outer.countP Block.counted = 0) (hlength : outer.length = n) :
    ∃ m, Machine.run ⟨openBlock (List.replicate n tab) keys false :: outer, []⟩ (itemTokens line) =
      .ok m ∧ Climbed n m := by
  have hnone (b : Block) (hb : b.counted = false) : (b :: outer).countP Block.counted = 0 := by
    simp [hcounted, hb]
  have hlimit (b : Block) (hb : b.counted = false) :
      (b :: outer).countP Block.counted ≤ maxDepth := by
    simp [hnone b hb]
  refine ⟨⟨⟨List.replicate n tab, keys, false, .itemValue (ascii "k"),
    .scalar (ascii "v") line false⟩ :: outer, []⟩, ?_, rfl, ?_, ?_, ?_⟩
  · -- the dash, the key, the colon and the value
    refine (run_cons (step_line (hlimit _ rfl) (by simp) rfl) _).trans ?_
    refine (run_cons (step_line (hlimit _ rfl) (by simp) rfl) _).trans ?_
    refine (run_cons (step_line (hlimit _ rfl) (by simp) rfl) _).trans ?_
    exact run_cons (step_line (hlimit _ rfl) (by simp) rfl) _
  · exact ⟨_, _, _, rfl, rfl, rfl, rfl⟩
  · exact hnone _ rfl
  · simp [hlength]

/-- One more item, one tab deeper. -/
theorem Climbed.succ {n : Nat} {m : Machine} (h : Climbed n m) (line : Nat) :
    ∃ m', m.run (⟨.newline (List.replicate (n + 1) tab), line⟩ :: itemTokens line) = .ok m' ∧
      Climbed (n + 1) m' := by
  obtain ⟨blocks, groups⟩ := m
  obtain ⟨rfl, ⟨b, outer, key, rfl, hindent, hslot, hvacant⟩, hcounted, hlength⟩ := h
  have hdepth : (⟨b :: outer, []⟩ : Machine).depth = 0 := by
    rw [Machine.depth, hcounted]
    rfl
  have hdeepens : deepens b.indent (List.replicate (n + 1) tab) = true := by
    simp [hindent, deepens]
  have hstart : (⟨b :: outer, []⟩ : Machine).step ⟨.newline (List.replicate (n + 1) tab), line⟩ =
      .ok ⟨openBlock (List.replicate (n + 1) tab) [key] false ::
        { b with slot := .value } :: outer, []⟩ := by
    simp [Machine.step, hdepth, newLine, hslot, hvacant, hdeepens, Except.map]
  rw [run_cons hstart]
  apply climbed_item line [key] ({ b with slot := .value } :: outer)
  · simpa [List.countP_cons] using hcounted
  · simpa using hlength

/-- Any number of items more. -/
theorem Climbed.run {n : Nat} {m : Machine} (h : Climbed n m) (k : Nat) :
    ∃ m', m.run (stairsTokens (n + 1) k) = .ok m' ∧ Climbed (n + k) m' := by
  induction k generalizing n m with
  | zero => exact ⟨m, rfl, h⟩
  | succ k ih =>
    obtain ⟨m₁, hitem, hclimbed⟩ := h.succ (n + 2)
    obtain ⟨m', hrest, hclimbed'⟩ := ih hclimbed
    refine ⟨m', ?_, by rwa [Nat.add_right_comm] at hclimbed'⟩
    rw [stairsTokens, run_append, hitem]
    exact hrest

/-- The document may end on any of the items. -/
theorem finish_of_climbed {n : Nat} {m : Machine} (h : Climbed n m) (line : Nat) :
    m.finish line = .ok () := by
  obtain ⟨blocks, groups⟩ := m
  obtain ⟨rfl, ⟨b, outer, key, rfl, -, hslot, -⟩, hcounted, -⟩ := h
  have hdepth : (⟨b :: outer, []⟩ : Machine).depth = 0 := by
    rw [Machine.depth, hcounted]
    rfl
  simp [Machine.finish, hdepth, hslot]

/-- Items that go on below each other make a document, and nest as deep as one likes. -/
theorem decode_staircase (n : Nat) :
    decode (staircase n) = .ok () ∧
      ∃ tokens, lex (staircase n) = .ok tokens ∧ (outline tokens).nesting = n := by
  have hlex : lex (staircase n) = .ok (stairsTokens 0 (n + 1)) :=
    lexLines_stairs none (.inl rfl) 0 (n + 1)
  -- the first item is the only one in a block that does not go on with another item
  obtain ⟨m₁, hitem, hclimbed⟩ := climbed_item 1 [] [] rfl rfl
  obtain ⟨m, hrest, hclimbed'⟩ := hclimbed.run n
  rw [List.length_nil, Nat.zero_add] at hclimbed'
  have hfirst : Machine.start.step ⟨.newline [], 1⟩ = .ok ⟨[openBlock [] [] false], []⟩ := rfl
  have hrun : Machine.start.run (stairsTokens 0 (n + 1)) = .ok m := by
    refine (run_cons hfirst _).trans ?_
    refine (run_append _ (itemTokens 1) _).trans ?_
    refine Eq.trans (congrArg (· >>= _) hitem) ?_
    exact hrest
  have hnesting := (follows_outline hrun).nesting_eq
  rw [hclimbed'.groups, hclimbed'.length] at hnesting
  refine ⟨?_, _, hlex, by simpa using hnesting⟩
  rw [decode, hlex]
  show parse _ = _
  rw [parse, hrun]
  exact finish_of_climbed hclimbed' _

/-- The limit does not hold for all that nests: one more than `maxDepth` blocks go on below each
other. -/
theorem staircase_exceeds_maxDepth :
    decode (staircase (maxDepth + 1)) = .ok () ∧
      ∃ tokens, lex (staircase (maxDepth + 1)) = .ok tokens ∧
        ∃ read, read <+: tokens ∧ maxDepth < (outline read).nesting := by
  obtain ⟨hdecode, tokens, hlex, hnesting⟩ := decode_staircase (maxDepth + 1)
  exact ⟨hdecode, tokens, hlex, tokens, List.prefix_refl tokens, by omega⟩

end SourceTidy.Neon
