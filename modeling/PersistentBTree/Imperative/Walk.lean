import Mathlib.Data.List.Chain
import PersistentBTree.Imperative.Runs

/-! Walks along a chain of positions. A program moves from one position to another and
leaves the state as it is; at the last position it stays. The positions that a number of
moves arrive at are then known in advance. -/

set_option autoImplicit false

namespace Imperative

variable {σ ε Position : Type}

/-- Make `count` moves from a position, with the positions that they arrive at. -/
def walk (move : Position → Program σ ε Position) :
    (count : Nat) → Position → Program σ ε (List Position)
  | 0, _ => pure []
  | count + 1, position => do
      let next ← move position
      let visited ← walk move count next
      pure (next :: visited)

/-- The move goes from the one position to the other. -/
def MovesTo (move : Position → Program σ ε Position) (state : σ) (position next : Position) : Prop :=
  Runs (move position) state fun result final => result = next ∧ final = state

section Walks

variable {move : Position → Program σ ε Position} {state : σ} {position next last : Position}
  {later : List Position} {count : Nat}

theorem walk_succ {visited : List Position} (moves : MovesTo move state position next)
    (remaining : Runs (walk move count next) state fun result final =>
      result = visited ∧ final = state) :
    Runs (walk move (count + 1) position) state fun result final =>
      result = next :: visited ∧ final = state := by
  apply (Runs.bind_iff moves).mpr
  apply (Runs.bind_iff remaining).mpr
  simp

/-- Where a walk stays, it arrives at the same position again and again. -/
theorem walk_stays (stays : MovesTo move state last last) (count : Nat) :
    Runs (walk move count last) state fun visited final =>
      visited = List.replicate count last ∧ final = state := by
  induction count with
  | zero => exact (runs_pure ..).mpr ⟨rfl, rfl⟩
  | succ count ih => exact walk_succ stays ih

/-- Of the copies behind a list no more are seen than the part is long. -/
theorem take_append_replicate (path : List Position) (last : Position) (count : Nat) :
    (path ++ List.replicate (count + 1) last).take count =
      (path ++ List.replicate count last).take count := by
  rw [List.take_append, List.take_append, List.take_replicate, List.take_replicate]
  congr 2
  omega

/-- A walk arrives at the positions of the chain, and at the last of them from then on. -/
theorem walk_chain (chain : List.IsChain (MovesTo move state) (position :: later))
    (isLast : (position :: later).getLast? = some last) (stays : MovesTo move state last last)
    (count : Nat) :
    Runs (walk move count position) state fun visited final =>
      visited = (later ++ List.replicate count last).take count ∧ final = state := by
  induction later generalizing position count with
  | nil =>
      cases isLast
      apply (walk_stays stays count).mono
      intro visited final ⟨isVisited, same⟩
      exact ⟨isVisited.trans (List.take_of_length_le (by simp)).symm, same⟩
  | cons next later ih =>
      cases count with
      | zero => exact (runs_pure ..).mpr ⟨rfl, rfl⟩
      | succ count =>
          obtain ⟨moves, remaining⟩ := List.isChain_cons_cons.mp chain
          apply (walk_succ moves (ih remaining isLast count)).mono
          intro visited final ⟨isVisited, same⟩
          constructor
          · rw [isVisited, List.cons_append, List.take_succ_cons, take_append_replicate]
          · exact same

end Walks

end Imperative
