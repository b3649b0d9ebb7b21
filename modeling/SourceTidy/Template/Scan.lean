import SourceTidy.Template.Tag

/-! # The tags of a template

A brace opens a tag unless white space, a quote or another brace follows it, so that scripts and
style sheets pass. Comments `{* ... *}` and regions where tags are switched off have no tags.

* `tagEnd?`: where a tag ends, strings and inner braces skipped;
* `scan`: the tags of a template with their lines, and how the scan ends.
-/

namespace SourceTidy.Template

open Ascii Bytes

/-- A tag and the line of its opening brace. -/
structure Placed where
  tag : Tag
  line : Nat
deriving DecidableEq, Repr

/-- How a scan ends. -/
inductive Ending where
  | complete
  /-- A comment that starts on the given line is not closed. -/
  | openComment (line : Nat)
  /-- A tag that starts on the given line is not closed. -/
  | openTag (line : Nat)
deriving DecidableEq, Repr

/-- Does a brace before `s` open a tag? -/
def opensTag (s : Bytes) : Bool :=
  nextIn (fun b => !(isTagSpacing b || b == singleQuote || b == doubleQuote || b == openBrace ||
    b == closeBrace)) s

/-- The offset of the brace that closes a tag, with `depth` inner braces open, inside of a string
that `quote` closes or outside of strings. -/
def tagEnd? (depth : Nat) (quote : Option UInt8) : Bytes → Option Nat
  | [] => none
  | b :: rest =>
    match quote with
    | some q =>
      if b = q then (tagEnd? depth none rest).map (· + 1)
      else if b = backslash then
        match rest with
        | [] => none
        | _ :: rest' => (tagEnd? depth (some q) rest').map (· + 2)
      else (tagEnd? depth (some q) rest).map (· + 1)
    | none =>
      if b = singleQuote || b = doubleQuote then (tagEnd? depth (some b) rest).map (· + 1)
      else if b = openBrace then (tagEnd? (depth + 1) none rest).map (· + 1)
      else if b = closeBrace then
        match depth with
        | 0 => some 0
        | depth' + 1 => (tagEnd? depth' none rest).map (· + 1)
      else (tagEnd? depth none rest).map (· + 1)

/-- What a brace starts. Extents count from the octet after the brace. -/
inductive Mark where
  /-- The brace is text. -/
  | text
  /-- A comment, or a region with tags switched off: nothing in it is a tag. -/
  | skipped (extent : Nat)
  | tag (tag : Tag) (extent : Nat)
  | openComment
  | openTag
deriving DecidableEq, Repr

/-- What a brace before `s` starts. -/
def mark (s : Bytes) : Mark :=
  if nextIs star s then
    match indexOf? [star, closeBrace] (s.drop 1) with
    | some n => .skipped (n + 3)
    | none => .openComment
  else if !opensTag s then .text
  else
    match tagEnd? 0 none s with
    | none => .openTag
    | some n =>
      let tag := Tag.parse (s.take n)
      if tag.switchesOff then
        let rest := s.drop (n + 1)
        match indexOf? (ascii "\x7b/syntax\x7d") rest with
        | some m => .skipped (n + 1 + m + 9)
        -- without an end the region is the rest of the template
        | none => .skipped s.length
      else .tag tag (n + 1)

/-- The tags of a text whose first `skip` octets have been read; `line` is the line of the octet
after them. -/
def scanFrom (line : Nat) : Nat → Bytes → List Placed × Ending
  | _, [] => ([], .complete)
  | skip + 1, _ :: rest => scanFrom line skip rest
  | 0, b :: rest =>
    if b = lf then scanFrom (line + 1) 0 rest
    else if b = openBrace then
      match mark rest with
      | .text => scanFrom line 0 rest
      | .skipped n => scanFrom (line + lineBreaks (rest.take n)) n rest
      | .tag tag n =>
        let (tags, ending) := scanFrom (line + lineBreaks (rest.take n)) n rest
        (⟨tag, line⟩ :: tags, ending)
      | .openComment => ([], .openComment line)
      | .openTag => ([], .openTag line)
    else scanFrom line 0 rest

/-- The tags of a template and how the scan ends. -/
def scan (source : Bytes) : List Placed × Ending := scanFrom 1 0 source

end SourceTidy.Template
