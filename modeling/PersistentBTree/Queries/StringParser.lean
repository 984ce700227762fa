import Mathlib.Algebra.Group.Int.Defs
import Mathlib.Algebra.Group.Nat.Defs
import PersistentBTree.Imperative.Runs
import PersistentBTree.Imperative.Scan

/-! The word splitter of the query language, `string_utils.h`. A string is the
list of its characters; the cursor of the parser and the lengths it is compared
with are values of type `int`. -/

set_option autoImplicit false

namespace PersistentBTree.Queries

open Imperative

abbrev Text := List Char

/-- The largest value of type `int`. -/
def intMax : Nat := 2 ^ 31 - 1

/-- `(int)str.length()`. -/
def intLength (str : Text) : Int :=
  let length := str.length % 2 ^ 32
  if length ≤ intMax then length else length - 2 ^ 32

structure StringParser where
  str : Text
  idx : Nat
  inRange : idx ≤ intMax

inductive Fault where
  /-- The cursor leaves the values of type `int`. -/
  | overflow
  /-- `substr` throws `std::out_of_range`. -/
  | outOfRange
  /-- An array or an object is accessed beyond its end. -/
  | outOfBounds
  /-- `new` throws `std::bad_array_new_length`. -/
  | badLength
  /-- A null header is used. -/
  | null
  | outOfFuel
  deriving DecidableEq

abbrev Parsing (α : Type) := Program StringParser Fault α

/-- `while (idx < (int)str.length() && goesOn(str[idx])) idx++`. -/
def advance (goesOn : Char → Bool) (str : Text) (idx : Nat) : Nat :=
  scan goesOn str ((intLength str).toNat - idx) idx

/-- `for (i < (int)str.length()) str[i] = change(str[i])`. -/
def replaceEach (change : Char → Char) (str : Text) : Text :=
  (str.take (intLength str).toNat).map change ++ str.drop (intLength str).toNat

def toUpper (s : Text) : Text := replaceEach Char.toUpper s

def substr (str : Text) (pos count : Nat) : Option Text :=
  if pos ≤ str.length then some ((str.drop pos).take count) else none

namespace StringParser

/-- `StringParser(s)`. -/
def ofText (s : Text) : StringParser := ⟨s, 0, Nat.zero_le _⟩

/-- `m_idx = idx`. -/
def setIdx (idx : Nat) : Parsing PUnit :=
  if inRange : idx ≤ intMax then modify fun parser => { parser with idx, inRange }
  else throw .overflow

def hasNext : Parsing Bool := do
  let before ← get
  setIdx (advance (· == ' ') before.str before.idx)
  let parser ← get
  pure (decide ((parser.idx : Int) < intLength parser.str))

/-- The part of `next` after the opening quote has been passed. -/
def nextFrom (start : Nat) (searchChar : Char) : Parsing Text := do
  setIdx start
  let parser ← get
  let nxtIdx := advance (· != searchChar) parser.str start
  let s ← orFault .outOfRange (substr parser.str start (nxtIdx - start))
  setIdx (nxtIdx + 1)
  pure s

def next : Parsing Text := do
  if ← hasNext then
    let parser ← get
    if parser.str[parser.idx]? = some '\'' then nextFrom (parser.idx + 1) '\''
    else nextFrom parser.idx ' '
  else pure []

/-- `while (hasNext()) v.push_back(next())`. -/
def nextAll : (fuel : Nat) → Parsing (List Text)
  | 0 => throw .outOfFuel
  | fuel + 1 => do
      if ← hasNext then
        let s ← next
        let rest ← nextAll fuel
        pure (s :: rest)
      else pure []

/-- `isalnum` in the `C` locale. -/
def isalnum (char : Char) : Bool := char.isAlphanum

def blank (char : Char) : Char := if isalnum char then char else ' '

def tokenize (fuel : Nat) : Parsing (List Text) := do
  modify fun parser => ofText (replaceEach blank parser.str)
  nextAll fuel

end StringParser

end PersistentBTree.Queries
