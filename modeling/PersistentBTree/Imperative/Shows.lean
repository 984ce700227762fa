import PersistentBTree.Imperative.Buffer
import PersistentBTree.Imperative.Splice

/-! Blocks of memory and unbounded arrays with the same content. -/

set_option autoImplicit false

namespace Imperative

variable {α β : Type}

/-- The cell of the block was written, and the array has what `f` makes of its content. -/
def Shows (f : α → β) (buffer : Buffer α) (cells : Int → β) (index : Nat) : Prop :=
  (buffer.read index).map f = some (cells index)

namespace Buffer

variable {source target result : Buffer α} {first last start index : Nat}

/-- What `copy` leaves in each cell. -/
theorem read_copy (copied : source.copy first last target start = some result) (index : Nat) :
    result.read index = if start ≤ index ∧ index < start + (last - first) then
      source.read (first + (index - start)) else target.read index := by
  unfold copy at copied
  split at copied
  next fits =>
    cases copied
    have taken : (target.take start).length = start := by
      rw [List.length_take]
      omega
    have moved : ((source.take last).drop first).length = last - first := by
      rw [List.length_drop, List.length_take]
      omega
    unfold read
    split
    next inside =>
      rw [List.append_assoc, List.getElem?_append_right (by omega), taken,
        List.getElem?_append_left (by omega), List.getElem?_drop, List.getElem?_take_of_lt (by omega)]
    next outside =>
      by_cases below : index < start
      · have inFront : index < (target.take start).length := by omega
        rw [List.append_assoc, List.getElem?_append_left inFront, List.getElem?_take_of_lt below]
      · rw [List.getElem?_append_right (by rw [List.length_append]; omega), List.length_append,
          taken, moved, List.getElem?_drop, Nat.add_sub_of_le (by omega)]
  next => cases copied

theorem read_write {value : α} (written : target.write start value = some result) (index : Nat) :
    result.read index = if index = start then some value else target.read index := by
  unfold write at written
  split at written
  next inside =>
    cases written
    unfold read
    by_cases here : index = start
    · subst here
      rw [if_pos rfl, List.getElem?_set_self inside]
      rfl
    · rw [if_neg here, List.getElem?_set_ne (Ne.symm here)]
  next => cases written

theorem copy_of_copyBackward {stop : Nat}
    (copied : source.copyBackward first last target stop = some result) :
    source.copy first last target (stop - (last - first)) = some result ∧ last - first ≤ stop := by
  unfold copyBackward at copied
  split at copied
  next room => exact ⟨copied, room⟩
  next => cases copied

theorem bounds_of_copy (copied : source.copy first last target start = some result) :
    first ≤ last ∧ last ≤ source.length ∧ start + (last - first) ≤ target.length := by
  unfold copy at copied
  split at copied
  next fits => exact fits
  next => cases copied

theorem length_copy (copied : source.copy first last target start = some result) :
    result.length = target.length := by
  have bounds := bounds_of_copy copied
  unfold copy at copied
  rw [if_pos bounds] at copied
  cases copied
  simp only [List.length_append, List.length_take, List.length_drop]
  omega

theorem lt_of_read {value : α} (found : target.read index = some value) : index < target.length := by
  unfold read at found
  by_contra outside
  rw [List.getElem?_eq_none (by omega)] at found
  cases found

end Buffer

namespace Shows

variable {f : α → β} {source target result : Buffer α} {from_ cells other : Int → β}
  {first last start index : Nat}

theorem congr (shows_ : Shows f target cells index) (same : other index = cells index) :
    Shows f target other index := by
  rw [Shows, same]
  exact shows_

/-- Two arrays that show one cell have the same there. -/
theorem unique (first : Shows f target cells index) (second : Shows f target other index) :
    cells index = other index :=
  Option.some.inj (first.symm.trans second)

theorem copy_inside (copied : source.copy first last target start = some result)
    (low : start ≤ index) (high : index < start + (last - first))
    (shows_ : Shows f source from_ (first + (index - start))) {l : Int} {count : Nat} {dest : Int}
    (isFirst : l = first) (isCount : count = last - first) (isDest : dest = start) :
    Shows f result (splice from_ cells l count dest) index := by
  have place : l + ((index : Int) - dest) = (first + (index - start) : Nat) := by omega
  rw [Shows, Buffer.read_copy copied, if_pos ⟨low, high⟩, splice_inside (by omega) (by omega), place]
  exact shows_

theorem copy_outside (copied : source.copy first last target start = some result)
    (outside : index < start ∨ start + (last - first) ≤ index)
    (shows_ : Shows f target cells index) {l : Int} {count : Nat} {dest : Int}
    (isCount : count = last - first) (isDest : dest = start) :
    Shows f result (splice from_ cells l count dest) index := by
  have same : splice from_ cells l count dest index = cells index := by
    rcases outside with below | above
    · exact splice_below (by omega)
    · exact splice_above (by omega)
  rw [Shows, Buffer.read_copy copied, if_neg (by omega), same]
  exact shows_

theorem copy (copied : source.copy first last target start = some result)
    (moved : start ≤ index → index < start + (last - first) →
      Shows f source from_ (first + (index - start)))
    (kept : index < start ∨ start + (last - first) ≤ index → Shows f target cells index)
    {l : Int} {count : Nat} {dest : Int} (isFirst : l = first) (isCount : count = last - first)
    (isDest : dest = start) : Shows f result (splice from_ cells l count dest) index := by
  by_cases outside : index < start ∨ start + (last - first) ≤ index
  · exact copy_outside copied outside (kept outside) isCount isDest
  · have low : start ≤ index := by omega
    have high : index < start + (last - first) := by omega
    exact copy_inside copied low high (moved low high) isFirst isCount isDest

theorem write {value : α} (written : target.write start value = some result)
    (shows_ : index ≠ start → Shows f target cells index) {cell : Int} {new : β}
    (isCell : cell = start) (isNew : new = f value) :
    Shows f result (Function.update cells cell new) index := by
  rw [Shows, Buffer.read_write written]
  by_cases here : index = start
  · subst here
    rw [if_pos rfl, isCell, Function.update_self, isNew]
    rfl
  · rw [if_neg here, Function.update_of_ne (by omega)]
    exact shows_ here

theorem append {count : Nat} (copied : source.copy 0 count target start = some result)
    (kept : ∀ i < start, Shows f target cells i) (moved : ∀ i < count, Shows f source from_ i)
    {dest : Int} (isDest : dest = start) :
    ∀ i < start + count, Shows f result (splice from_ cells 0 count dest) i := by
  intro i below
  refine copy copied (fun low high => ?_) (fun outside => kept i (by omega)) rfl (by omega) isDest
  rw [Nat.zero_add]
  exact moved (i - start) (by omega)

theorem drop (copied : source.copy first last source 0 = some result)
    (shown : ∀ i < last, Shows f source cells i) {l : Int} {count : Nat} (isFirst : l = first)
    (isCount : count = last - first) :
    ∀ i < count, Shows f result (splice cells cells l count 0) i := by
  intro i below
  refine copy copied (fun low high => ?_) (fun outside => by omega) isFirst isCount rfl
  exact shown (first + (i - 0)) (by omega)

theorem raise {count shift : Nat}
    (copied : source.copyBackward 0 count source (count + shift) = some result)
    (shown : ∀ i < count, Shows f source cells i) (low : shift ≤ index)
    (high : index < count + shift) : Shows f result (splice cells cells 0 count shift) index := by
  obtain ⟨moved, -⟩ := Buffer.copy_of_copyBackward copied
  refine copy_inside moved (by omega) (by omega) ?_ rfl rfl (by omega)
  exact shown (0 + (index - (count + shift - (count - 0)))) (by omega)

/-- Cells moved up, and others copied to the front. -/
theorem prepend {count shift : Nat} {moved : Buffer α}
    (raised : target.copyBackward 0 count target (count + shift) = some moved)
    (copied : source.copy first last moved 0 = some result) (isShift : shift = last - first)
    (kept : ∀ i < count, Shows f target cells i) (shown : ∀ i < last, Shows f source from_ i)
    {l : Int} (isFirst : l = first) : ∀ i < count + shift,
      Shows f result (splice from_ (splice cells cells 0 count shift) l shift 0) i := by
  intro i below
  refine copy copied (fun low high => ?_) (fun outside => ?_) isFirst isShift rfl
  · exact shown (first + (i - 0)) (by omega)
  · exact raise raised kept (by omega) below

end Shows

end Imperative
