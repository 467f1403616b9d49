import Lox.Toml.Scalar

/-!
# Whole TOML documents

A text is read as lines, and `parse?` builds the table of the document from them.
-/

set_option autoImplicit false

namespace Lox.Toml

open Reader

/-- Reads the values of an array after its bracket, at most `fuel` of them. A comma may stand after the
last one. -/
def items (value : Reader Node) : Nat → Reader (List Node)
  | 0 => failure
  | fuel + 1 => do
    gap
    (do char ']'; return [])
      <|> (do
        let first ← value
        gap
        let more ← (do char ']'; return []) <|> (do char ','; items value fuel)
        return first :: more)

/-- Reads the keys and values of a table after its brace, at most `fuel` of them. -/
def pairs (total : Nat) (value : Reader Node) : Nat → Reader (List (Key × Node))
  | 0 => failure
  | fuel + 1 => do
    let key ← Key.read total
    char '='
    blanks
    let first ← value
    blanks
    let more ← (do char '}'; return []) <|> (do char ','; pairs total value fuel)
    return (key, first) :: more

/-- The table of some keys and values. -/
def ofPairs? (pairs : List (Key × Node)) : Option (Table Node) :=
  pairs.foldlM (fun t (key, value) => t.insert key.path key.name value) { origin := .inline }

/-- Reads a value in which others are nested at most `depth` deep, in a text of `total` characters. -/
def value (total : Nat) : Nat → Reader Node
  | 0 => scalar total
  | depth + 1 =>
    (do
      char '['
      return .array (← items (value total depth) total))
    <|> (do
      char '{'
      let pairs ← (do blanks; char '}'; return []) <|> pairs total (value total depth) total
      return .table (← liftM (ofPairs? pairs)))
    <|> scalar total

/-- A line of a document that says something. -/
inductive Line where
  /-- The header of a table. -/
  | header (key : Key)
  /-- A header that tables share. -/
  | element (key : Key)
  | entry (key : Key) (value : Node)

/-- Reads a line that says something, with its end. -/
def Line.read (total : Nat) : Reader Line :=
  (do
    literal ['[', '[']
    let key ← Key.read total
    literal [']', ']']
    lineRest
    return .element key)
  <|> (do
    char '['
    let key ← Key.read total
    char ']'
    lineRest
    return .header key)
  <|> (do
    let key ← Key.read total
    char '='
    blanks
    let value ← value total (maxDepth - 1)
    lineRest
    return .entry key value)

/-- Reads all lines that say something, at most `fuel` of them. -/
def lines (total : Nat) : Nat → Reader (List Line)
  | 0 => failure
  | fuel + 1 =>
    (do blanks; atEnd; return [])
    <|> (do
      blanks
      (do comment; newline <|> atEnd) <|> newline
      lines total fuel)
    <|> (do
      blanks
      let first ← Line.read total
      let more ← lines total fuel
      return first :: more)

/-- A document so far: its table, and the key of the last header. -/
structure Draft where
  root : Table Node := {}
  place : List String := []

/-- Adds a line to a document. -/
def Draft.add (d : Draft) : Line → Option Draft
  | .header key => do
    return ⟨← d.root.define key.path key.name, key.path ++ [key.name]⟩
  | .element key => do
    return ⟨← d.root.addElement key.path key.name, key.path ++ [key.name]⟩
  | .entry key value => do
    return { d with root := ← d.root.alter false (Table.insert key.path key.name value) d.place }

/-- The table of a document, if the text is one. A byte order mark may stand before it. -/
def parse? (text : String) : Option (Table Node) := do
  let chars := match text.toList with
    | '﻿' :: rest => rest
    | chars => chars
  let total := chars.length + 1
  let (lines, _) ← lines total total chars
  let draft ← lines.foldlM Draft.add {}
  return draft.root

end Lox.Toml
