import ScriptC.Text

/-! # Checks of output

Directives say which lines an output has to show, in order, and what must not stand between them.
A pattern is matched as a part of a line.
-/

namespace ScriptC

inductive Directive where
  /-- A line from here on has the pattern. -/
  | plain (pattern : String)
  /-- As `plain`; it opens a section. -/
  | label (pattern : String)
  /-- The line right after the last match has the pattern. -/
  | next (pattern : String)
  /-- No line before the next match has the pattern. -/
  | absent (pattern : String)
  /-- The line right after the last match is blank, or there is none. -/
  | empty
  | comment (text : String)
deriving DecidableEq, Repr

inductive CheckError where
  | notFound (isLabel : Bool) (pattern : String)
  | noMoreLines (pattern : String)
  | notNext (pattern line : String)
  | notEmpty (line : String)
  | forbidden (pattern : String) (number : Nat) (line : String)
  | noDirectives
deriving DecidableEq, Repr

def CheckError.message : CheckError → String
  | notFound isLabel p => (if isLabel then "CHECK-LABEL" else "CHECK") ++ s!": pattern '{p}' not found"
  | noMoreLines p => s!"CHECK-NEXT: no more lines, expected '{p}'"
  | notNext p line => s!"CHECK-NEXT: expected '{p}' but got '{line}'"
  | notEmpty line => s!"CHECK-EMPTY: expected empty line but got '{line}'"
  | forbidden p n line => s!"CHECK-NOT: pattern '{p}' found at line {n}: '{line}'"
  | noDirectives => "no CHECK directives found"

namespace Directive

/-- The directives that carry a pattern, by the word that introduces them. -/
def words : List (String × (String → Directive)) := [
  ("CHECK-LABEL:", label),
  ("CHECK-NEXT:", next),
  ("CHECK-NOT:", absent),
  ("CHECK-EMPTY", fun _ => empty),
  ("CHECK:", plain),
  ("COM:", comment)]

/-- The text of a comment line, without the marks that start it. -/
def commentBody? (line : String) : Option (List Char) :=
  let cs := Text.trim line.toList
  ((Text.after? [';'] cs).or (Text.after? ['/', '/'] cs)).map Text.trimStart

/-- The directive in a line of check text, if it holds one. -/
def ofLine? (line : String) : Option Directive := do
  let body ← commentBody? line
  words.findSome? fun (word, make) =>
    (Text.after? word.toList body).map fun rest => make (String.ofList (Text.trim rest))

def parse (text : String) : List Directive := (Text.lines text).filterMap ofLine?

end Directive

namespace Check

def hasPattern (pattern line : String) : Bool := Text.contains pattern.toList line.toList

def isBlankLine (line : String) : Bool := line.toList.all Text.isBlank

/-- None of the lines, of which the first is number `first`, has one of the patterns. -/
def excludes (patterns : List String) : Nat → List String → Except CheckError Unit
  | _, [] => .ok ()
  | first, line :: rest =>
    match patterns.find? (hasPattern · line) with
    | some p => .error (.forbidden p first line)
    | none => excludes patterns (first + 1) rest

/-- Match the pattern on the first line that has it, with nothing forbidden before it. -/
def seek (isLabel : Bool) (pattern : String) (forbidden : List String) (number : Nat)
    (lines : List String) : Except CheckError (Nat × List String) :=
  match lines.findIdx? (hasPattern pattern) with
  | none => .error (.notFound isLabel pattern)
  | some offset => do
    excludes forbidden number (lines.take offset)
    return (number + offset + 1, lines.drop (offset + 1))

/-- Run directives on the lines that are left, of which the first is number `number`, while the
patterns in `forbidden` are excluded up to the next match. -/
def run (forbidden : List String) (number : Nat) (lines : List String) :
    List Directive → Except CheckError Unit
  | [] => excludes forbidden number lines
  | .comment _ :: rest => run forbidden number lines rest
  | .absent p :: rest => run (forbidden ++ [p]) number lines rest
  | .plain p :: rest => do
    let (number, lines) ← seek false p forbidden number lines
    run [] number lines rest
  | .label p :: rest => do
    let (number, lines) ← seek true p forbidden number lines
    run [] number lines rest
  | .next p :: rest =>
    match lines with
    | [] => .error (.noMoreLines p)
    | line :: lines =>
      if hasPattern p line then run [] (number + 1) lines rest else .error (.notNext p line)
  | .empty :: rest =>
    match lines with
    | [] => run forbidden number [] rest
    | line :: lines =>
      if isBlankLine line then run [] (number + 1) lines rest else .error (.notEmpty line)

end Check

/-- Check an output against directives. -/
def checkOutput (output : String) (directives : List Directive) : Except CheckError Unit :=
  Check.run [] 0 (Text.lines output) directives

/-- Check an output against the directives in a text, which must hold one. -/
def checkText (output text : String) : Except CheckError Unit :=
  match Directive.parse text with
  | [] => .error .noDirectives
  | directives => checkOutput output directives

end ScriptC
