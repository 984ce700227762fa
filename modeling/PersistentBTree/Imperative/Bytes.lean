import Mathlib.Logic.Function.Basic
import Mathlib.Logic.Nontrivial.Basic
import Mathlib.Tactic.Common

/-! Flat memory: a cell at every address, and runs of cells that are stored and
loaded as a whole. -/

set_option autoImplicit false

namespace Imperative

variable {Cell : Type}

/-- The cells are written one after the other from `start` on. -/
def store (memory : Nat → Cell) (start : Nat) : List Cell → Nat → Cell
  | [] => memory
  | value :: rest => store (Function.update memory start value) (start + 1) rest

/-- The given number of cells from `start` on. -/
def load (memory : Nat → Cell) (start : Nat) : Nat → List Cell
  | 0 => []
  | count + 1 => memory start :: load memory (start + 1) count

@[simp] theorem length_load (memory : Nat → Cell) (start count : Nat) :
    (load memory start count).length = count := by
  induction count generalizing start with
  | zero => rfl
  | succ count ih => simp [load, ih]

theorem load_congr {memory other : Nat → Cell} {start count : Nat}
    (same : ∀ address, start ≤ address → address < start + count →
      memory address = other address) : load memory start count = load other start count := by
  induction count generalizing start with
  | zero => rfl
  | succ count ih =>
      have first : memory start = other start := same start (by omega) (by omega)
      have rest : load memory (start + 1) count = load other (start + 1) count := by
        apply ih
        intro address above below
        exact same address (by omega) (by omega)
      rw [load, load, first, rest]

theorem load_add (memory : Nat → Cell) (start first second : Nat) :
    load memory start (first + second) =
      load memory start first ++ load memory (start + first) second := by
  induction first generalizing start with
  | zero => simp [load]
  | succ first ih =>
      rw [Nat.add_right_comm, load, load, ih, List.cons_append, Nat.add_assoc start 1,
        Nat.add_comm 1]

/-- Where two memories have the same cells, they have the same cells in every part. -/
theorem load_part {memory other : Nat → Cell} {start begin size offset count : Nat}
    (same : load memory start size = load other begin size) (inside : offset + count ≤ size) :
    load memory (start + offset) count = load other (begin + offset) count := by
  obtain ⟨rest, rfl⟩ := Nat.exists_eq_add_of_le inside
  rw [load_add, load_add, load_add, load_add] at same
  have front := List.append_inj_left same (by simp)
  exact List.append_inj_right front (by simp)

/-- A store changes nothing outside the cells it writes. -/
theorem store_frame {memory : Nat → Cell} {start address : Nat} {values : List Cell}
    (outside : address < start ∨ start + values.length ≤ address) :
    store memory start values address = memory address := by
  induction values generalizing memory start with
  | nil => rfl
  | cons value rest ih =>
      have later : address < start + 1 ∨ start + 1 + rest.length ≤ address := by
        simp only [List.length_cons] at outside
        omega
      have different : address ≠ start := by
        simp only [List.length_cons] at outside
        omega
      rw [store, ih later, Function.update_of_ne different]

theorem load_store {memory : Nat → Cell} {start : Nat} (values : List Cell) :
    load (store memory start values) start values.length = values := by
  induction values generalizing memory start with
  | nil => rfl
  | cons value rest ih =>
      have first : store (Function.update memory start value) (start + 1) rest start = value := by
        rw [store_frame (.inl (Nat.lt_succ_self start)), Function.update_self]
      rw [List.length_cons, load, store, first, ih]

theorem load_store_apart {memory : Nat → Cell} {start other count : Nat} {values : List Cell}
    (apart : other + count ≤ start ∨ start + values.length ≤ other) :
    load (store memory start values) other count = load memory other count := by
  apply load_congr
  intro address above below
  apply store_frame
  omega

/-- What is stored does not depend on what was in the cells that it covers, nor the rest on
anything else. -/
theorem store_congr {memory other : Nat → Cell} {start address : Nat} {values : List Cell}
    (same : start ≤ address ∧ address < start + values.length ∨ memory address = other address) :
    store memory start values address = store other start values address := by
  induction values generalizing memory other start with
  | nil =>
      simp only [List.length_nil] at same
      exact same.resolve_left (by omega)
  | cons value rest ih =>
      rw [store, store]
      apply ih
      by_cases here : address = start
      · right
        rw [here, Function.update_self, Function.update_self]
      · rw [Function.update_of_ne here, Function.update_of_ne here]
        simp only [List.length_cons] at same
        apply same.imp_left
        omega

/-- A store covers an earlier one that was not longer. -/
theorem store_store {memory : Nat → Cell} {start : Nat} {first second : List Cell}
    (covers : first.length ≤ second.length) :
    store (store memory start first) start second = store memory start second := by
  funext address
  apply store_congr
  by_cases inside : start ≤ address ∧ address < start + second.length
  · exact .inl inside
  · exact .inr (store_frame (by omega))

theorem load_const (value : Cell) (start count : Nat) :
    load (fun _ => value) start count = List.replicate count value := by
  induction count generalizing start with
  | zero => rfl
  | succ count ih => rw [load, ih, List.replicate_succ]

/-- Cells that are all the same may hide the cell that is read. -/
theorem store_replicate {memory : Nat → Cell} {start address count : Nat} {value : Cell}
    (same : memory address = value) :
    store memory start (List.replicate count value) address = value := by
  induction count generalizing memory start with
  | zero => exact same
  | succ count ih =>
      rw [List.replicate_succ, store]
      apply ih
      by_cases here : address = start
      · rw [here, Function.update_self]
      · rw [Function.update_of_ne here, same]

/-- What is stored at one address cannot be read back at another one. -/
theorem exists_load_ne [Nontrivial Cell] (memory : Nat → Cell) {start other count : Nat}
    (elsewhere : other ≠ start) (nonempty : 0 < count) :
    ∃ values, values.length = count ∧ load (store memory start values) other count ≠ values := by
  obtain ⟨value, different⟩ := exists_ne (memory other)
  obtain ⟨rest, rfl⟩ := Nat.exists_eq_add_one_of_ne_zero (Nat.ne_of_gt nonempty)
  refine ⟨value :: List.replicate rest (memory other), by simp, ?_⟩
  intro same
  have unread : store memory start (value :: List.replicate rest (memory other)) other =
      memory other := by
    rw [store]
    apply store_replicate
    exact Function.update_of_ne elsewhere value memory
  rw [load, List.cons.injEq, unread] at same
  exact different same.1.symm

end Imperative
