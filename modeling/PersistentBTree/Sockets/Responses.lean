import PersistentBTree.Imperative.Framing
import PersistentBTree.Sockets.ReadUntil

/-! `httpContent`. A response says how long its body is, so that a client can cut the
responses that come over one connection. -/

set_option autoImplicit false

namespace PersistentBTree.Sockets

open Imperative

def httpDelim : Buffer := ['\r', '\n']

def httpDelimBody : Buffer := httpDelim ++ httpDelim

/-- What is the same in all responses. -/
def responseHead : Buffer :=
  "HTTP/1.1 200 Ok".toList ++ httpDelim ++
    "Content-Type: text/html".toList ++ httpDelim ++
    "Content-Length: ".toList

def httpContent (body : Buffer) : Buffer :=
  responseHead ++ Nat.toDigits 10 body.length ++ httpDelimBody ++ body

theorem toDigits_injective : Function.Injective (Nat.toDigits 10) := by
  intro first second same
  rw [← @Nat.ofDigitChars_ten_toDigits first, same, Nat.ofDigitChars_ten_toDigits]

theorem httpContent_selfDelimiting : SelfDelimiting httpContent := by
  have length : SelfDelimiting fun size => Nat.toDigits 10 size ++ '\r' :: ['\n', '\r', '\n'] := by
    apply SelfDelimiting.marked toDigits_injective
    · intro size digit member
      exact Nat.isDigit_of_mem_toDigits (by decide) (Nat.le_refl 10) member
    · decide
  intro first second rest rest' same
  apply (length.head_append responseHead).measured first second rest rest'
  simpa only [httpContent, httpDelimBody, httpDelim, List.append_assoc, List.cons_append,
    List.nil_append] using same

/-- A stream of responses determines the bodies, and no two lists of bodies give the same
stream. -/
theorem responses_injective :
    Function.Injective fun bodies : List Buffer => bodies.flatMap httpContent := by
  apply httpContent_selfDelimiting.flatMap_injective
  intro body empty
  rw [httpContent, httpDelimBody, httpDelim] at empty
  simp only [List.append_eq_nil_iff, List.cons_ne_nil, false_and, and_false] at empty

end PersistentBTree.Sockets
