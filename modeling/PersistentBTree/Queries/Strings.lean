import PersistentBTree.Queries.Header

/-! How string columns are compared: the case `t_string_type` of `CVariant::operator<` and
of `CVariant::operator!=`, `data_structures.h`. A `char` is signed. -/

set_option autoImplicit false

namespace PersistentBTree.Queries

open Header (toInt)

/-- The characters of a `std::string`. -/
abbrev Chars := List Int8

namespace VariantString

/-- `operator[]`. -/
def charAt (memory : Nat → UInt8) (string : VariantString) (i : Nat) : Int8 :=
  (memory (string.buf + i)).toInt8

/-- The object stores the text: the characters and a terminator, which the size counts. -/
structure Holds (memory : Nat → UInt8) (string : VariantString) (text : Chars) : Prop where
  size : string.n = text.length + 1
  chars : ∀ i char, (text ++ [0])[i]? = some char → string.charAt memory i = char

end VariantString

namespace CVariant

section Strings

variable (memory : Nat → UInt8)

/-- `for (i < n) if (lhs[i] != rhs[i]) return decided(lhs[i], rhs[i])`. -/
def compareChars (decided : Int8 → Int8 → Bool) (lhs rhs : VariantString) :
    (rounds i : Nat) → Option Bool
  | 0, _ => none
  | rounds + 1, i =>
      if lhs.charAt memory i ≠ rhs.charAt memory i then
        some (decided (lhs.charAt memory i) (rhs.charAt memory i))
      else compareChars decided lhs rhs rounds (i + 1)

/-- `std::min((int)lhs->size(), (int)rhs->size())`. -/
def shorter (lhs rhs : VariantString) : Int := min (toInt lhs.n) (toInt rhs.n)

/-- `operator<` of strings. -/
def lessString (lhs rhs : VariantString) : Bool :=
  match compareChars memory (fun a b => decide (a < b)) lhs rhs (shorter lhs rhs).toNat 0 with
  | some result => result
  | none => decide (lhs.n < rhs.n)

/-- `operator!=` of strings. -/
def notEqualString (lhs rhs : VariantString) : Bool :=
  match compareChars memory (fun _ _ => true) lhs rhs (shorter lhs rhs).toNat 0 with
  | some result => result
  | none => false

end Strings

end CVariant

end PersistentBTree.Queries
