import SourceTidy.Php.Extent
import SourceTidy.Php.Token

/-! # The PHP lexer

The lexer is a machine with a stack. Below lies text outside of the code, or code; above it lie the
interpolating literals and the pieces of code inside their braces, innermost first. One step looks
at the rest of the source, cuts one or more lexemes off its front and says what state comes next.

The lexer never fails: what is not closed runs to the end of the source. A cut is a class and an
extent, and lexemes are made only by cutting the source, so their texts always join to the source.

* `State.step`: one step;
* `lex`: the lexemes of a source from a given state;
* `tokenize`: the tokens of a whole file, each with the line it starts on.
-/

namespace SourceTidy.Php

open Ascii Bytes

/-- How many pieces of code may lie inside each other's literals. Past that, the rest of the source
is one token. -/
def maxNesting : Nat := 200

/-- An open construct above the base. -/
inductive Frame where
  /-- Code in the braces of an interpolation, with the number of inner braces that are open. -/
  | code (braces : Nat)
  /-- Interpolating text; `lineStart` holds where its first line starts, not after an
  interpolation. -/
  | literal (closer : Closer) (lineStart : Bool)
deriving DecidableEq, Repr

def Frame.isCode : Frame → Bool
  | .code _ => true
  | .literal _ _ => false

/-- What the lexer is in the middle of. -/
structure State where
  /-- Inside of a script tag, or outside of it. -/
  inCode : Bool
  /-- The open constructs, innermost first. -/
  frames : List Frame
deriving DecidableEq, Repr

namespace State

/-- A file starts outside of the code. -/
def start : State := { inCode := false, frames := [] }

/-- How many pieces of code lie inside literals. -/
def nesting (s : State) : Nat := s.frames.countP Frame.isCode

end State

/-- A lexeme to be cut off the rest of the source. -/
structure Cut where
  kind : TokenKind
  extent : Nat
deriving DecidableEq, Repr

/-- The lexemes that the cuts make of a text; an empty one is left out. -/
def cutUp : List Cut → Bytes → List Lexeme
  | [], _ => []
  | c :: cuts, s =>
    if c.extent = 0 || s.isEmpty then cutUp cuts s
    else { kind := c.kind, text := s.take c.extent } :: cutUp cuts (s.drop c.extent)

/-- One step of the lexer. -/
structure Step where
  cuts : List Cut
  next : State
deriving DecidableEq, Repr

/-- How much of the source the step takes. -/
def Step.extent (step : Step) : Nat := step.cuts.foldr (fun c n => c.extent + n) 0

/-- What a piece of code does to the state. -/
inductive Effect where
  | none
  /-- A closing tag ends the code. -/
  | leave
  /-- A literal with interpolations opens. -/
  | enter (closer : Closer) (lineStart : Bool)
  | openBrace
  | closeBrace
deriving DecidableEq, Repr

/-- The next lexeme of code. -/
def code (nested : Bool) (s : Bytes) : List Cut × Effect :=
  let other (n : Nat) : List Cut := [⟨.other, n⟩]
  match s with
  | [] => ([], .none)
  | b :: rest =>
    if isSpacing b then ([⟨.whitespace, runLength isSpacing s⟩], .none)
    -- the code of an interpolation does not end at a closing tag
    else if !nested && b = question && nextIs greater rest then (other (closeTag s), .leave)
    -- an attribute is no comment
    else if b = hash && nextIs openBracket rest then (other 2, .none)
    else if b = hash || (b = slash && nextIs slash rest) then
      ([⟨.comment, lineComment nested s⟩], .none)
    else if b = slash && nextIs star rest then ([⟨.comment, blockComment s⟩], .none)
    else if b = singleQuote then ([⟨.singleQuoted, singleQuoted s⟩], .none)
    else if b = doubleQuote then
      -- without interpolations the literal is one token
      match doubleQuoted? s with
      | some n => ([⟨.doubleQuoted, n⟩], .none)
      | none => (other 1, .enter (.quote doubleQuote) false)
    else if b = backtick then (other 1, .enter (.quote backtick) false)
    else if (ascii "<<<").isPrefixOf s then
      match heredocOpener? s with
      -- no here document opens, so the signs are operators
      | none => (other 1, .none)
      | some opener =>
        let start : Cut := ⟨.heredocStart, opener.extent⟩
        if opener.raw then
          let (body, label) := nowdocBody opener.label true (s.drop opener.extent)
          ([start, ⟨.nowdoc, body⟩, ⟨.other, label⟩], .none)
        else ([start], .enter (.label opener.label) true)
    else if b = Ascii.openBrace then (other 1, .openBrace)
    else if b = Ascii.closeBrace then (other 1, .closeBrace)
    else if isName b then (other (1 + runLength isName rest), .none)
    else (other 1, .none)

/-- The state after a lexeme of code. Braces count only inside of an interpolation, where the one
that was not opened ends it. -/
def State.after (s : State) : Effect → State
  | .none => s
  | .leave => { s with inCode := false }
  | .enter closer lineStart => { s with frames := .literal closer lineStart :: s.frames }
  | .openBrace =>
    match s.frames with
    | .code braces :: outer => { s with frames := .code (braces + 1) :: outer }
    | _ => s
  | .closeBrace =>
    match s.frames with
    | .code 0 :: outer => { s with frames := outer }
    | .code (braces + 1) :: outer => { s with frames := .code braces :: outer }
    | _ => s

/-- A step in interpolating text: a run of literal text, then the closing delimiter or an
interpolation. -/
def State.stepLiteral (s : State) (closer : Closer) (lineStart : Bool) (outer : List Frame)
    (input : Bytes) : Step :=
  let (n, stop) := segment closer lineStart input
  let text : Cut := ⟨.interpolated, n⟩
  match stop with
  | .input => ⟨[text], s⟩
  | .closed m => ⟨[text, ⟨.other, m⟩], { s with frames := outer }⟩
  | .interpolation =>
    let rest := input.drop n
    -- behind an interpolation the text goes on in the middle of a line
    let resumed : Frame := .literal closer false
    match braceOpener? rest with
    | none => ⟨[text, ⟨.other, simpleVariable rest⟩], { s with frames := resumed :: outer }⟩
    | some m =>
      if s.nesting ≥ maxNesting then ⟨[text, ⟨.other, rest.length⟩], s⟩
      else ⟨[text, ⟨.other, m⟩], { s with frames := .code 0 :: resumed :: outer }⟩

/-- One step of the lexer on a source that is not empty. -/
def State.step (s : State) (input : Bytes) : Step :=
  match s.frames with
  | .literal closer lineStart :: outer => s.stepLiteral closer lineStart outer input
  | .code _ :: _ =>
    let (cuts, effect) := code true input
    ⟨cuts, s.after effect⟩
  | [] =>
    if s.inCode then
      let (cuts, effect) := code false input
      ⟨cuts, s.after effect⟩
    else
      match findOpenTag input with
      | (n, none) => ⟨[⟨.other, n⟩], s⟩
      | (n, some m) => ⟨[⟨.other, n⟩, ⟨.other, m⟩], { s with inCode := true }⟩

/-- The lexemes of a source whose first `skip` octets are already cut off. A step takes one octet at
least. -/
def lex (s : State) : Nat → Bytes → List Lexeme
  | _, [] => []
  | skip + 1, _ :: rest => lex s skip rest
  | 0, b :: rest =>
    let step := s.step (b :: rest)
    cutUp step.cuts (b :: rest) ++ lex step.next (step.extent - 1) rest

/-- The tokens of a PHP file, the text around the code included. -/
def tokenize (source : Bytes) : List Token := numberLines 1 (lex .start 0 source)

end SourceTidy.Php
