import Mathlib.Data.List.Basic
import Mathlib.Tactic.Common

/-! Blocks of memory with a fixed capacity. A cell is `none` until it is first
written. Reading outside the block, or from a cell that was never written, and
writing outside the block have no result. `Holds` names the cells that a
separately kept counter says are in use. -/

set_option autoImplicit false

namespace Imperative

/-- A block of `length` cells. -/
abbrev Buffer (α : Type) := List (Option α)

namespace Buffer

variable {α : Type}

/-- A freshly allocated block. -/
def alloc (capacity : Nat) : Buffer α := List.replicate capacity none

def read (buffer : Buffer α) (index : Nat) : Option α := (buffer[index]?).join

def write (buffer : Buffer α) (index : Nat) (value : α) : Option (Buffer α) :=
  if index < buffer.length then some (buffer.set index (some value)) else none

/-- Copy the cells `first .. last` of `source` to `target` from `start` on. The
source range is read before anything is written, as when a forward copy moves
cells down. -/
def copy (source : Buffer α) (first last : Nat) (target : Buffer α) (start : Nat) :
    Option (Buffer α) :=
  if first ≤ last ∧ last ≤ source.length ∧ start + (last - first) ≤ target.length then
    some (target.take start ++ (source.take last).drop first ++
      target.drop (start + (last - first)))
  else none

/-- Copy the cells `first .. last` of `source` so that they end right before
cell `toEnd` of `target`, as when a backward copy moves cells up. -/
def copyBackward (source : Buffer α) (first last : Nat) (target : Buffer α) (toEnd : Nat) :
    Option (Buffer α) :=
  if last - first ≤ toEnd then copy source first last target (toEnd - (last - first)) else none

/-- The first cells of the buffer are `values`. -/
def Holds (buffer : Buffer α) (values : List α) : Prop :=
  ∃ rest, buffer = values.map some ++ rest

@[simp] theorem length_alloc (capacity : Nat) :
    (alloc capacity : Buffer α).length = capacity := by
  simp [alloc]

theorem holds_nil (buffer : Buffer α) : Holds buffer [] := ⟨buffer, rfl⟩

theorem copy_append (source₁ segment source₂ target₁ old target₂ : Buffer α)
    (same : segment.length = old.length) :
    copy (source₁ ++ segment ++ source₂) source₁.length (source₁.length + segment.length)
        (target₁ ++ old ++ target₂) target₁.length =
      some (target₁ ++ segment ++ target₂) := by
  have fits : source₁.length ≤ source₁.length + segment.length ∧
      source₁.length + segment.length ≤ (source₁ ++ segment ++ source₂).length ∧
      target₁.length + (source₁.length + segment.length - source₁.length) ≤
        (target₁ ++ old ++ target₂).length := by
    simp only [List.length_append]
    omega
  have taken : (source₁ ++ segment ++ source₂).take (source₁.length + segment.length) =
      source₁ ++ segment := by
    rw [← List.length_append, List.take_left]
  have dropped : (target₁ ++ old ++ target₂).drop (target₁.length + old.length) = target₂ := by
    rw [← List.length_append, List.drop_left]
  rw [copy, if_pos fits, taken, List.drop_left, Nat.add_sub_cancel_left, same, dropped,
    List.append_assoc target₁ old target₂, List.take_left]

namespace Holds

variable {buffer source target : Buffer α} {values front back : List α}

theorem length_le (holds : Holds buffer values) : values.length ≤ buffer.length := by
  obtain ⟨rest, rfl⟩ := holds
  simp

theorem left (holds : Holds buffer (front ++ back)) : Holds buffer front := by
  obtain ⟨rest, rfl⟩ := holds
  exact ⟨back.map some ++ rest, by simp⟩

theorem read {value : α} (holds : Holds buffer (front ++ value :: back)) :
    buffer.read front.length = some value := by
  obtain ⟨rest, rfl⟩ := holds
  simp [Buffer.read]

theorem read_getElem (holds : Holds buffer values) {index : Nat} (bound : index < values.length) :
    buffer.read index = some values[index] := by
  obtain ⟨rest, rfl⟩ := holds
  simp [Buffer.read, List.getElem?_append, bound]

theorem write {value : α} (holds : Holds buffer (front ++ value :: back)) (new : α) :
    ∃ written, buffer.write front.length new = some written ∧
      Holds written (front ++ new :: back) ∧ written.length = buffer.length := by
  obtain ⟨rest, rfl⟩ := holds
  refine ⟨_, by rw [Buffer.write, if_pos (by simp)], ⟨rest, ?_⟩, by simp⟩
  simp

/-- Writing the first cell past the values extends them. -/
theorem push (holds : Holds buffer values) (room : values.length < buffer.length) (new : α) :
    ∃ written, buffer.write values.length new = some written ∧
      Holds written (values ++ [new]) ∧ written.length = buffer.length := by
  refine ⟨_, by rw [Buffer.write, if_pos room], ?_, by simp⟩
  obtain ⟨rest, rfl⟩ := holds
  cases rest with
  | nil => simp at room
  | cons cell rest => exact ⟨rest, by simp⟩

theorem write_past (holds : Holds buffer values) {index : Nat} (past : values.length ≤ index)
    (bound : index < buffer.length) (new : α) :
    ∃ written, buffer.write index new = some written ∧
      Holds written values ∧ written.length = buffer.length := by
  refine ⟨_, by rw [Buffer.write, if_pos bound], ?_, by simp⟩
  obtain ⟨rest, rfl⟩ := holds
  refine ⟨rest.set (index - values.length) (some new), ?_⟩
  rw [List.set_append, if_neg (by simpa using past)]
  simp

theorem erase {value : α} (holds : Holds buffer (front ++ value :: back)) :
    ∃ moved, copy buffer (front.length + 1) (front.length + 1 + back.length) buffer front.length =
        some moved ∧
      Holds moved (front ++ back) ∧ moved.length = buffer.length := by
  obtain ⟨rest, rfl⟩ := holds
  -- the last of the moved cells keeps a stale copy
  obtain ⟨old, stale, split, same⟩ : ∃ old stale : Buffer α,
      some value :: back.map some = old ++ stale ∧ back.length = old.length :=
    ⟨_, _, (List.take_append_drop back.length _).symm, by simp⟩
  have source : (front ++ value :: back).map some ++ rest =
      (front.map some ++ [some value]) ++ back.map some ++ rest := by simp
  have target : (front ++ value :: back).map some ++ rest =
      front.map some ++ old ++ (stale ++ rest) := by
    simp only [List.map_append, List.map_cons, split, List.append_assoc]
  refine ⟨front.map some ++ back.map some ++ (stale ++ rest), ?_, ⟨stale ++ rest, by simp⟩, ?_⟩
  · have copied := copy_append (front.map some ++ [some value]) (back.map some) rest
      (front.map some) old (stale ++ rest) (by simpa using same)
    rw [← source, ← target] at copied
    simpa using copied
  · have lengths := congrArg List.length split
    simp only [List.length_cons, List.length_map, List.length_append] at lengths
    simp only [List.length_append, List.length_map, List.length_cons]
    omega

/-- Opening a gap of one cell; the gap keeps what was there. -/
theorem openGap (holds : Holds buffer (front ++ back))
    (room : front.length + back.length < buffer.length) :
    ∃ stale rest, copyBackward buffer front.length (front.length + back.length) buffer
        (front.length + back.length + 1) =
          some (front.map some ++ stale :: (back.map some ++ rest)) ∧
      (∀ value, back.head? = some value → stale = some value) ∧
      (front.map some ++ stale :: (back.map some ++ rest)).length = buffer.length := by
  obtain ⟨rest, rfl⟩ := holds
  obtain ⟨cell, rest, rfl⟩ : ∃ cell rest', rest = cell :: rest' := by
    cases rest with
    | nil => simp at room
    | cons cell rest => exact ⟨cell, rest, rfl⟩
  obtain ⟨stale, old, split, isFirst⟩ : ∃ stale old, back.map some ++ [cell] = stale :: old ∧
      ∀ value, back.head? = some value → stale = some value := by
    cases back <;> simp
  have same : back.length = old.length := by simpa using congrArg List.length split
  have target : (front ++ back).map some ++ cell :: rest =
      (front.map some ++ [stale]) ++ old ++ rest := by
    have regroup : (front ++ back).map some ++ cell :: rest =
        front.map some ++ (back.map some ++ [cell]) ++ rest := by simp
    rw [regroup, split]
    simp
  refine ⟨stale, rest, ?_, isFirst, ?_⟩
  · have moved := copy_append (front.map some) (back.map some) (cell :: rest)
      (front.map some ++ [stale]) old rest (by simpa using same)
    rw [← target] at moved
    have start : front.length + back.length + 1 - (front.length + back.length - front.length) =
        front.length + 1 := by omega
    rw [copyBackward, if_pos (by omega), start]
    simpa using moved
  · simp
    omega

theorem insert (holds : Holds buffer (front ++ back))
    (room : front.length + back.length < buffer.length) (new : α) :
    ∃ moved written,
      copyBackward buffer front.length (front.length + back.length) buffer
        (front.length + back.length + 1) = some moved ∧
      moved.write front.length new = some written ∧
      Holds written (front ++ new :: back) ∧ written.length = buffer.length := by
  obtain ⟨stale, rest, copied, -, size⟩ := holds.openGap room
  refine ⟨_, (front ++ new :: back).map some ++ rest, copied, ?_, ⟨rest, rfl⟩, ?_⟩
  · rw [Buffer.write, if_pos (by simp)]
    simp
  · rw [← size]
    simp

/-- Moving the cells from `value` on up, and filling the cell behind it. -/
theorem insertBehind {value : α} (holds : Holds buffer (front ++ value :: back))
    (room : front.length + (back.length + 1) < buffer.length) (new : α) :
    ∃ moved written,
      copyBackward buffer front.length (front.length + (back.length + 1)) buffer
        (front.length + (back.length + 1) + 1) = some moved ∧
      moved.write (front.length + 1) new = some written ∧
      Holds written (front ++ value :: new :: back) ∧ written.length = buffer.length := by
  obtain ⟨stale, rest, copied, isFirst, size⟩ := holds.openGap (by simpa using room)
  obtain rfl := isFirst value rfl
  refine ⟨_, (front ++ value :: new :: back).map some ++ rest, by simpa using copied, ?_,
    ⟨rest, rfl⟩, ?_⟩
  · rw [Buffer.write, if_pos (by simp)]
    simp
  · rw [← size]
    simp

theorem append {values moving staying : List α} (holds : Holds target values)
    (stored : Holds source (moving ++ staying))
    (room : values.length + moving.length ≤ target.length) :
    ∃ copied, copy source 0 moving.length target values.length = some copied ∧
      Holds copied (values ++ moving) ∧ copied.length = target.length := by
  obtain ⟨rest, rfl⟩ := holds
  obtain ⟨other, rfl⟩ := stored
  have long : moving.length ≤ rest.length := by simpa using room
  have copied := copy_append [] (moving.map some) (staying.map some ++ other) (values.map some)
    (rest.take moving.length) (rest.drop moving.length) (by simp [long])
  refine ⟨_, by simpa using copied, ⟨rest.drop moving.length, by simp⟩, ?_⟩
  simp only [List.length_append, List.length_map, List.length_drop]
  omega

theorem appendAll {values moving : List α} (holds : Holds target values)
    (stored : Holds source moving) (room : values.length + moving.length ≤ target.length) :
    ∃ copied, copy source 0 moving.length target values.length = some copied ∧
      Holds copied (values ++ moving) ∧ copied.length = target.length := by
  rw [← List.append_nil moving] at stored
  exact holds.append stored room

theorem dropFront (holds : Holds buffer (front ++ back)) :
    ∃ moved, copy buffer front.length (front.length + back.length) buffer 0 = some moved ∧
      Holds moved back ∧ moved.length = buffer.length := by
  obtain ⟨rest, rfl⟩ := holds
  obtain ⟨old, stale, split, same⟩ : ∃ old stale : Buffer α,
      front.map some ++ back.map some = old ++ stale ∧ back.length = old.length :=
    ⟨_, _, (List.take_append_drop back.length _).symm, by simp⟩
  have source : (front ++ back).map some ++ rest = front.map some ++ back.map some ++ rest := by
    simp
  have target : (front ++ back).map some ++ rest = [] ++ old ++ (stale ++ rest) := by
    simp only [List.map_append, split, List.append_assoc, List.nil_append]
  refine ⟨back.map some ++ (stale ++ rest), ?_, ⟨stale ++ rest, rfl⟩, ?_⟩
  · have copied := copy_append (front.map some) (back.map some) rest [] old (stale ++ rest)
      (by simpa using same)
    rw [← source, ← target] at copied
    simpa using copied
  · have lengths := congrArg List.length split
    simp only [List.length_map, List.length_append] at lengths
    simp only [List.length_append, List.length_map]
    omega

/-- Moving everything up by `moving.length` cells. Any cells may be left in
the gap, so the buffer is described by what follows it. -/
theorem shiftUp (holds : Holds buffer values) {count : Nat}
    (room : values.length + count ≤ buffer.length) :
    ∃ moved gap rest, copyBackward buffer 0 values.length buffer (values.length + count) =
        some moved ∧
      moved = gap ++ values.map some ++ rest ∧ gap.length = count ∧
      moved.length = buffer.length := by
  obtain ⟨rest, rfl⟩ := holds
  have long : count ≤ rest.length := by simpa using room
  obtain ⟨gap, old, split, size⟩ : ∃ gap old : Buffer α,
      values.map some ++ rest.take count = gap ++ old ∧ gap.length = count :=
    ⟨_, _, (List.take_append_drop count _).symm, by simp; omega⟩
  have same : values.length = old.length := by
    have lengths := congrArg List.length split
    simp [long] at lengths
    omega
  have target : values.map some ++ rest = gap ++ old ++ rest.drop count := by
    rw [← split, List.append_assoc, List.take_append_drop]
  have copied := copy_append [] (values.map some) rest gap old (rest.drop count)
    (by simpa using same)
  refine ⟨gap ++ values.map some ++ rest.drop count, gap, rest.drop count, ?_, rfl, size, ?_⟩
  · rw [← target] at copied
    rw [copyBackward, if_pos (by omega)]
    simpa [size] using copied
  · have lengths := congrArg List.length target
    simp only [List.length_append, List.length_map] at lengths ⊢
    omega

end Holds

/-- Filling a gap with the back part of another buffer. -/
theorem copy_fill {source : Buffer α} {staying moving : List α}
    (stored : Holds source (staying ++ moving)) (gap rest : Buffer α)
    (same : moving.length = gap.length) :
    copy source staying.length (staying.length + moving.length) (gap ++ rest) 0 =
      some (moving.map some ++ rest) := by
  obtain ⟨other, rfl⟩ := stored
  have copied := copy_append (staying.map some) (moving.map some) other [] gap rest
    (by simpa using same)
  simpa using copied

namespace Holds

variable {buffer source target : Buffer α} {values : List α}

/-- Copying a back part to the beginning of another buffer. -/
theorem copyBack {staying moving : List α} (holds : Holds source (staying ++ moving))
    (target : Buffer α) (room : moving.length ≤ target.length) :
    ∃ copied, copy source staying.length (staying.length + moving.length) target 0 =
        some copied ∧ Holds copied moving ∧ copied.length = target.length := by
  obtain ⟨other, rfl⟩ := holds
  have copied := copy_append (staying.map some) (moving.map some) other []
    (target.take moving.length) (target.drop moving.length) (by simp [room])
  refine ⟨_, by simpa using copied, ⟨target.drop moving.length, by simp⟩, ?_⟩
  simp only [List.length_append, List.length_map, List.length_drop]
  omega

/-- Moving everything up and filling the gap with the back part of another
buffer. -/
theorem prepend {staying moving : List α} (holds : Holds buffer values)
    (stored : Holds source (staying ++ moving))
    (room : values.length + moving.length ≤ buffer.length) :
    ∃ shifted filled,
      copyBackward buffer 0 values.length buffer (values.length + moving.length) = some shifted ∧
      copy source staying.length (staying.length + moving.length) shifted 0 = some filled ∧
      Holds filled (moving ++ values) ∧ filled.length = buffer.length := by
  obtain ⟨shifted, gap, rest, moved, rfl, gapSize, size⟩ := holds.shiftUp room
  refine ⟨_, moving.map some ++ (values.map some ++ rest), moved, ?_, ⟨rest, by simp⟩, ?_⟩
  · rw [List.append_assoc]
    exact copy_fill stored gap _ gapSize.symm
  · simp only [List.length_append, List.length_map] at size ⊢
    omega

theorem prependBehind {staying moving : List α} (holds : Holds buffer values)
    (stored : Holds source (staying ++ moving))
    (room : values.length + (moving.length + 1) ≤ buffer.length) (value : α) :
    ∃ shifted written filled,
      copyBackward buffer 0 values.length buffer (values.length + (moving.length + 1)) =
        some shifted ∧
      shifted.write moving.length value = some written ∧
      copy source staying.length (staying.length + moving.length) written 0 = some filled ∧
      Holds filled (moving ++ value :: values) ∧ filled.length = buffer.length := by
  obtain ⟨shifted, gap, rest, moved, rfl, gapSize, size⟩ := holds.shiftUp room
  obtain ⟨gap, cell, rfl⟩ : ∃ front last, gap = front ++ [last] :=
    (List.eq_nil_or_concat' gap).resolve_left (by rintro rfl; simp at gapSize)
  have sizes : gap.length = moving.length := by simpa using gapSize
  refine ⟨_, gap ++ (some value :: values.map some ++ rest),
    moving.map some ++ (some value :: values.map some ++ rest), moved, ?_,
    copy_fill stored gap _ sizes.symm, ⟨rest, by simp⟩, ?_⟩
  · rw [Buffer.write, if_pos (by simp [← sizes]), ← sizes]
    simp
  · simp only [List.length_append, List.length_map, List.length_cons, List.length_nil] at size ⊢
    omega

end Holds

end Buffer

end Imperative
