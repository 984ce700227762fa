import Mathlib.Algebra.Order.Group.Int
import Mathlib.Logic.Function.Basic
import Mathlib.Tactic.Common

/-! Unbounded arrays, and what a loop that moves one cell after the other makes of
them. -/

set_option autoImplicit false

namespace Imperative

variable {α : Type}

/-- The cells of `target`, of which `count` from `dest` on are those of `source` from
`l` on. -/
def splice (source target : Int → α) (l : Int) (count : Nat) (dest : Int) : Int → α := fun index =>
  if dest ≤ index ∧ index < dest + count then source (l + (index - dest)) else target index

section Cells

variable {source target : Int → α} {l dest index : Int} {count : Nat}

theorem splice_inside (above : dest ≤ index) (below : index < dest + count) :
    splice source target l count dest index = source (l + (index - dest)) :=
  if_pos ⟨above, below⟩

theorem splice_below (below : index < dest) : splice source target l count dest index = target index :=
  if_neg fun inside => absurd inside.1 (not_le.mpr below)

theorem splice_above (above : dest + count ≤ index) :
    splice source target l count dest index = target index :=
  if_neg fun inside => absurd inside.2 (not_lt.mpr above)

/-- What is written below the cells that were moved is written to the other ones. -/
theorem update_splice_below {cell : Int} {value : α} (below : index < dest) :
    Function.update (splice source target l count dest) cell value index =
      Function.update target cell value index := by
  by_cases here : index = cell
  · subst here
    rw [Function.update_self, Function.update_self]
  · rw [Function.update_of_ne here, Function.update_of_ne here, splice_below below]

@[simp] theorem splice_zero : splice source target l 0 dest = target := by
  funext index
  refine if_neg ?_
  omega

@[simp] theorem splice_splice : splice source (splice source target l count dest) l count dest =
    splice source target l count dest := by
  funext index
  unfold splice
  split <;> rfl

/-- Cells moved to the front change nothing exactly when they are there already. -/
theorem splice_front_eq_iff {first count total : Nat} (inside : count ≤ total) :
    (∀ i : Nat, i < total → splice source target first count 0 i = target i) ↔
      ∀ i : Nat, i < count → target i = source (first + i : Nat) := by
  have moved : ∀ i : Nat, i < count →
      splice source target first count 0 i = source (first + i : Nat) := by
    intro i below
    rw [splice_inside (by omega) (by omega), sub_zero]
    rfl
  constructor
  · intro same i below
    exact (same i (by omega)).symm.trans (moved i below)
  · intro same i _
    by_cases below : i < count
    · exact (moved i below).trans (same i below).symm
    · exact splice_above (by omega)

theorem splice_succ : splice source (Function.update target dest (source l)) (l + 1) count (dest + 1) =
    splice source target l (count + 1) dest := by
  funext index
  unfold splice
  by_cases isFirst : index = dest
  · subst isFirst
    rw [if_neg (by omega), if_pos (by omega), Function.update_self, sub_self, add_zero]
  · rw [Function.update_of_ne isFirst]
    split
    · rw [if_pos (by omega)]
      congr 1
      omega
    · rw [if_neg (by omega)]

theorem splice_last : splice source (Function.update target (dest + count) (source (l + count))) l
    count dest = splice source target l (count + 1) dest := by
  funext index
  unfold splice
  by_cases isLast : index = dest + count
  · subst isLast
    rw [if_neg (by omega), if_pos (by omega), Function.update_self]
    congr 1
    omega
  · rw [Function.update_of_ne isLast]
    split
    · rw [if_pos (by omega)]
    · rw [if_neg (by omega)]

theorem splice_update_source {cell : Int} (value : α)
    (unread : cell < l ∨ l + count ≤ cell) :
    splice (Function.update source cell value) target l count dest =
      splice source target l count dest := by
  funext index
  unfold splice
  split
  · rw [Function.update_of_ne]
    omega
  · rfl

end Cells

/-! ## Lists of cells -/

/-- The first `count` cells. -/
def firstCells (cells : Int → α) (count : Nat) : List α :=
  (List.range count).map fun (i : Nat) => cells i

/-- What an insertion at an index has to leave. -/
def insertedAt (values : List α) (index : Nat) (new : α) : List α :=
  values.take index ++ new :: values.drop index

section Lists

variable {cells other : Int → α} {count index : Nat} {new : α}

@[simp] theorem length_firstCells : (firstCells cells count).length = count := by
  simp [firstCells]

theorem firstCells_eq_iff :
    firstCells cells count = firstCells other count ↔ ∀ i : Nat, i < count → cells i = other i := by
  simp [firstCells]

theorem firstCells_succ : firstCells cells (count + 1) = firstCells cells count ++ [cells count] := by
  simp [firstCells, List.range_succ]

theorem firstCells_add (rest : Nat) : firstCells cells (count + rest) =
    firstCells cells count ++ firstCells (fun i => cells (count + i)) rest := by
  induction rest with
  | zero => simp [firstCells]
  | succ rest ih => rw [← Nat.add_assoc, firstCells_succ, ih, firstCells_succ]; simp

theorem firstCells_append {front back : Int → α} {n m : Nat} :
    firstCells front n ++ firstCells back m = firstCells (splice back front 0 m n) (n + m) := by
  rw [firstCells_add]
  congr 1
  · exact firstCells_eq_iff.mpr fun i below => (splice_below (by omega)).symm
  · refine firstCells_eq_iff.mpr fun i below => ?_
    rw [splice_inside (by omega) (by omega)]
    congr 1
    omega

theorem firstCells_append_cons {front : Int → α} {back : List α} {n : Nat} {between : α} :
    firstCells front n ++ between :: back =
      firstCells (Function.update front n between) (n + 1) ++ back := by
  rw [firstCells_succ, Function.update_self, List.append_assoc, List.singleton_append]
  congr 1
  refine firstCells_eq_iff.mpr fun i below => ?_
  rw [Function.update_of_ne (by omega)]

theorem firstCells_append_eq {front back other rest : Int → α} {n m n' m' : Nat}
    (counts : n + m = n' + m')
    (same : ∀ i : Nat, i < n' + m' → splice back front 0 m n i = splice rest other 0 m' n' i) :
    firstCells front n ++ firstCells back m = firstCells other n' ++ firstCells rest m' := by
  rw [firstCells_append, firstCells_append, counts]
  exact firstCells_eq_iff.mpr same

theorem append_eq_append_iff_of_length {front back front' back' : List α}
    (same : front.length = front'.length) :
    front ++ back = front' ++ back' ↔ front = front' ∧ back = back' := by
  constructor
  · intro whole
    exact List.append_inj whole same
  · rintro ⟨rfl, rfl⟩
    rfl

/-- Writing over a cell inserts a value exactly when the values below it and those behind
it are there already. -/
theorem firstCells_update_iff (inside : index ≤ count) :
    firstCells (Function.update cells index new) (count + 1) =
        insertedAt (firstCells other count) index new ↔
      (∀ i : Nat, i < index → cells i = other i) ∧
        ∀ i : Nat, index ≤ i → i < count → cells (i + 1) = other i := by
  obtain ⟨rest, rfl⟩ := Nat.exists_eq_add_of_le inside
  have below : firstCells (Function.update cells (index : Int) new) index = firstCells cells index := by
    refine firstCells_eq_iff.mpr fun i low => ?_
    rw [Function.update_of_ne (by omega)]
  have split : firstCells (Function.update cells index new) (index + rest + 1) =
      firstCells cells index ++ new :: firstCells (fun i => cells (index + 1 + i)) rest := by
    rw [Nat.add_right_comm, firstCells_add, firstCells_succ, below]
    simp only [Function.update_self, List.append_assoc, List.singleton_append]
    congr 2
    refine firstCells_eq_iff.mpr fun i _ => ?_
    rw [Function.update_of_ne (by omega)]
    rfl
  rw [split, insertedAt, firstCells_add, List.take_left' (by simp), List.drop_left' (by simp),
    append_eq_append_iff_of_length (by simp), firstCells_eq_iff, List.cons.injEq,
    firstCells_eq_iff]
  refine and_congr_right fun _ => ⟨fun same i above high => ?_, fun same => ⟨rfl, fun i low => ?_⟩⟩
  · have behind := same.2 (i - index) (by omega)
    rw [show (index : Int) + 1 + (i - index : Nat) = i + 1 by omega,
      show (index : Int) + (i - index : Nat) = i by omega] at behind
    exact behind
  · have behind := same (index + i) (by omega) (by omega)
    rw [show ((index + i : Nat) : Int) + 1 = index + 1 + i by omega] at behind
    simpa using behind

theorem insertedAt_append_left {front back : List α} (inside : index ≤ front.length) :
    insertedAt (front ++ back) index new = insertedAt front index new ++ back := by
  simp [insertedAt, List.take_append_of_le_length inside, List.drop_append_of_le_length inside]

theorem insertedAt_append_right {front back : List α} (outside : front.length ≤ index) :
    insertedAt (front ++ back) index new =
      front ++ insertedAt back (index - front.length) new := by
  simp [insertedAt, List.take_append, List.drop_append, List.take_of_length_le outside,
    List.drop_of_length_le outside]

end Lists

/-! ## Cells moved between two arrays -/

section Neighbours

variable {left right : Int → α} {L R shift : Nat} {between : α}

/-- The first cells of the right array are moved behind the left one. -/
theorem order_shiftLeft (below : shift ≤ R) :
    firstCells (splice right left 0 shift L) (L + shift) ++
        firstCells (splice right right shift (R - shift) 0) (R - shift) =
      firstCells left L ++ firstCells right R := by
  refine firstCells_append_eq (by omega) fun i _ => ?_
  unfold splice
  split_ifs <;> first | omega | (congr 1; omega) | rfl

/-- The last cells of the left array are moved to the front of the right one. -/
theorem order_shiftRight (below : shift ≤ L) :
    firstCells left (L - shift) ++
        firstCells (splice left (splice right right 0 R shift) (L - shift : Nat) shift 0)
          (R + shift) =
      firstCells left L ++ firstCells right R := by
  refine firstCells_append_eq (by omega) fun i _ => ?_
  unfold splice
  split_ifs <;> first | omega | (congr 1; omega) | rfl

/-- The cell between the arrays is moved to the left, and one of the right array takes its
place. -/
theorem order_shiftLeft_between (some_ : 1 ≤ shift) (below : shift ≤ R) :
    firstCells (splice right (Function.update left L between) 0 (shift - 1) (L + 1)) (L + shift) ++
        right (shift - 1) :: firstCells (splice right right shift (R - shift) 0) (R - shift) =
      firstCells left L ++ between :: firstCells right R := by
  rw [firstCells_append_cons, firstCells_append_cons]
  refine firstCells_append_eq (by omega) fun i _ => ?_
  simp only [splice, Function.update_apply]
  split_ifs <;> first | omega | (congr 1; omega) | rfl

/-- The cell between the arrays is moved to the right, and one of the left array takes its
place. -/
theorem order_shiftRight_between (some_ : 1 ≤ shift) (below : shift ≤ L) :
    firstCells left (L - shift) ++ left (L - shift : Nat) ::
        firstCells (splice left
          (Function.update (splice right right 0 R shift) (shift - 1 : Nat) between)
          (L - shift + 1 : Nat) (shift - 1) 0) (R + shift) =
      firstCells left L ++ between :: firstCells right R := by
  rw [firstCells_append_cons, firstCells_append_cons]
  refine firstCells_append_eq (by omega) fun i _ => ?_
  simp only [splice, Function.update_apply]
  split_ifs <;> first | omega | (congr 1; omega) | rfl

/-- The first `count` cells of both arrays are those of the left one from `first` on. -/
def Repeated (left right : Int → α) (first count : Nat) : Prop :=
  ∀ i : Nat, i < count → left i = left (first + i : Nat) ∧ right i = left (first + i : Nat)

/-- Cells that should have been moved to the front of the right array were moved to the
front of the left one: nothing is wrong exactly when they are there already. -/
theorem repeated_iff {base : Int → α} {first count n m : Nat} (inLeft : count ≤ n)
    (inRight : count ≤ m) (same : ∀ i : Nat, i < count → base i = right i) :
    (∀ i : Nat, i < n → splice left left first count 0 i = left i) ∧
        (∀ i : Nat, i < m → base i = splice left base first count 0 i) ↔
      Repeated left right first count := by
  simp only [eq_comm (a := base _), splice_front_eq_iff inLeft, splice_front_eq_iff inRight]
  constructor
  · intro ⟨ofLeft, ofRight⟩ i below
    exact ⟨ofLeft i below, (same i below).symm.trans (ofRight i below).symm⟩
  · intro repeated
    exact ⟨fun i below => (repeated i below).1,
      fun i below => ((same i below).trans (repeated i below).2).symm⟩

end Neighbours

end Imperative
