import Mathlib.Data.List.Basic
import Mathlib.InformationTheory.Coding.UniquelyDecodable

/-! Messages that say themselves where they end. A stream of such messages can be cut
again, and rules say how they are put together: a fixed head, a part that ends with a mark
that does not occur in it, and a body behind its length. -/

set_option autoImplicit false

namespace Imperative

open InformationTheory

variable {α β : Type}

/-- Whatever follows it, a message is not taken for another one. -/
def SelfDelimiting (encode : α → List β) : Prop :=
  ∀ first second rest rest', encode first ++ rest = encode second ++ rest' → first = second

namespace SelfDelimiting

variable {encode : α → List β}

theorem injective (delimits : SelfDelimiting encode) : Function.Injective encode :=
  fun first second same => delimits first second [] [] (congrArg (· ++ []) same)

theorem head_append (delimits : SelfDelimiting encode) (head : List β) :
    SelfDelimiting fun message => head ++ encode message := by
  intro first second rest rest' same
  rw [List.append_assoc, List.append_assoc] at same
  exact delimits first second rest rest' (List.append_cancel_left same)

/-- The mark is the first element that is not allowed in what it ends. -/
theorem marked {allowed : β → Bool} {mark : β} (injective : Function.Injective encode)
    (inside : ∀ message, ∀ item ∈ encode message, allowed item = true)
    (ends : allowed mark = false) (tail : List β) :
    SelfDelimiting fun message => encode message ++ mark :: tail := by
  have cut : ∀ message rest,
      ((encode message ++ mark :: tail) ++ rest).takeWhile allowed = encode message := by
    intro message rest
    rw [List.append_assoc, List.takeWhile_append_of_pos (inside message), List.cons_append,
      List.takeWhile_cons_of_neg (by rw [ends]; exact Bool.false_ne_true), List.append_nil]
  intro first second rest rest' same
  have codes := congrArg (List.takeWhile allowed) same
  rw [cut, cut] at codes
  exact injective codes

/-- The head carries the length of the body behind it. -/
theorem measured {head : Nat → List β} (delimits : SelfDelimiting head) :
    SelfDelimiting fun body => head body.length ++ body := by
  intro first second rest rest' same
  rw [List.append_assoc, List.append_assoc] at same
  have lengths : first.length = second.length := delimits _ _ _ _ same
  rw [lengths] at same
  exact (List.append_inj (List.append_cancel_left same) lengths).1

theorem uniquelyDecodable (delimits : SelfDelimiting encode) (some_ : ∀ message, encode message ≠ []) :
    UniquelyDecodable (Set.range encode) := by
  intro first
  induction first with
  | nil =>
      intro second _ codes same
      cases second with
      | nil => rfl
      | cons word words =>
          obtain ⟨message, rfl⟩ := codes word List.mem_cons_self
          rw [List.flatten_nil, List.flatten_cons] at same
          exact absurd (List.append_eq_nil_iff.mp same.symm).1 (some_ message)
  | cons word words ih =>
      intro second firsts codes same
      obtain ⟨message, rfl⟩ := firsts word List.mem_cons_self
      cases second with
      | nil =>
          rw [List.flatten_nil, List.flatten_cons] at same
          exact absurd (List.append_eq_nil_iff.mp same).1 (some_ message)
      | cons word' words' =>
          obtain ⟨message', rfl⟩ := codes word' List.mem_cons_self
          rw [List.flatten_cons, List.flatten_cons] at same
          have equal : message = message' := delimits message message' _ _ same
          subst equal
          have rest : words = words' :=
            ih words' (fun other member => firsts other (List.mem_cons_of_mem _ member))
              (fun other member => codes other (List.mem_cons_of_mem _ member))
              (List.append_cancel_left same)
          rw [rest]

/-- The messages of a stream are determined by it. -/
theorem flatMap_injective (delimits : SelfDelimiting encode)
    (some_ : ∀ message, encode message ≠ []) :
    Function.Injective fun messages : List α => messages.flatMap encode := by
  intro first second same
  have words : first.map encode = second.map encode := by
    apply delimits.uniquelyDecodable some_
    · intro word member
      obtain ⟨message, -, rfl⟩ := List.mem_map.mp member
      exact ⟨message, rfl⟩
    · intro word member
      obtain ⟨message, -, rfl⟩ := List.mem_map.mp member
      exact ⟨message, rfl⟩
    · rw [← List.flatMap_def, ← List.flatMap_def]
      exact same
  exact List.map_injective_iff.mpr delimits.injective words

end SelfDelimiting

end Imperative
