import Mathlib.Data.List.Basic
import Mathlib.Tactic.Common

/-! Doubly linked runs of nodes. `links` gives the two link fields of a node,
predecessor first. A run is described together with the nodes its ends point
at, so that a part of a longer list is again a run. -/

set_option autoImplicit false

namespace Imperative

variable {Address : Type}

/-- The nodes are linked in this order; the first one points back at `before`
and the last one forward at `after`. -/
def Linked (links : Address → Option (Option Address × Option Address)) :
    Option Address → List Address → Option Address → Prop
  | _, [], _ => True
  | before, node :: rest, after =>
      links node = some (before, rest.head?.or after) ∧ Linked links (some node) rest after

namespace Linked

variable {links updated : Address → Option (Option Address × Option Address)}
  {before after : Option Address} {front back : List Address} {node next : Address}

theorem append_iff : Linked links before (front ++ back) after ↔
    Linked links before front (back.head?.or after) ∧
      Linked links (front.getLast?.or before) back after := by
  induction front generalizing before with
  | nil => simp [Linked]
  | cons node front ih =>
      have heads : (front ++ back).head?.or after = front.head?.or (back.head?.or after) := by
        cases front <;> simp
      have lasts : (node :: front).getLast?.or before = front.getLast?.or (some node) := by
        cases front with
        | nil => simp
        | cons next front => simp [List.getLast?_eq_some_getLast]
      rw [List.cons_append, Linked, Linked, ih, heads, lasts, and_assoc]

theorem congr (linked : Linked links before front after)
    (same : ∀ node ∈ front, updated node = links node) : Linked updated before front after := by
  induction front generalizing before with
  | nil => trivial
  | cons node front ih =>
      refine ⟨(same node List.mem_cons_self).trans linked.1, ih linked.2 ?_⟩
      exact fun other member => same other (List.mem_cons_of_mem _ member)

theorem at_middle (linked : Linked links before (front ++ node :: back) after) :
    links node = some (front.getLast?.or before, back.head?.or after) :=
  (append_iff.mp linked).2.1

/-- Changing only the back link of the first node of a run. -/
theorem relink_first (linked : Linked links before back after) (other : Option Address)
    (first : ∀ node ∈ back.head?, updated node = (links node).map fun fields => (other, fields.2))
    (same : ∀ node ∈ back.tail, updated node = links node) : Linked updated other back after := by
  cases back with
  | nil => trivial
  | cons node back =>
      refine ⟨?_, linked.2.congr same⟩
      rw [first node rfl, linked.1]
      rfl

/-- A new node `next` is linked in behind `node`. -/
theorem insert_after (linked : Linked links before (front ++ node :: back) after)
    (left : updated node = some (front.getLast?.or before, some next))
    (middle : updated next = some (some node, back.head?.or after))
    (right : ∀ other ∈ back.head?, updated other = (links other).map fun fields =>
      (some next, fields.2))
    (sameFront : ∀ other ∈ front, updated other = links other)
    (sameBack : ∀ other ∈ back.tail, updated other = links other) :
    Linked updated before (front ++ node :: next :: back) after := by
  obtain ⟨leading, -, trailing⟩ := append_iff.mp linked
  refine append_iff.mpr ⟨leading.congr sameFront, left, middle, ?_⟩
  exact trailing.relink_first (some next) right sameBack

/-- The node behind `node` is unlinked. -/
theorem unlink_after (linked : Linked links before (front ++ node :: next :: back) after)
    (left : updated node = some (front.getLast?.or before, back.head?.or after))
    (right : ∀ other ∈ back.head?, updated other = (links other).map fun fields =>
      (some node, fields.2))
    (sameFront : ∀ other ∈ front, updated other = links other)
    (sameBack : ∀ other ∈ back.tail, updated other = links other) :
    Linked updated before (front ++ node :: back) after := by
  obtain ⟨leading, -, -, trailing⟩ := append_iff.mp linked
  refine append_iff.mpr ⟨leading.congr sameFront, left, ?_⟩
  exact trailing.relink_first (some node) right sameBack

end Linked

end Imperative
