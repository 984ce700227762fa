import PersistentBTree.Tables.PageRecordProperties

/-! What is read from a table whose root is its only page: the pairs in its slots, and the
slot that a lookup ends at, which is the first one for every key. -/

set_option autoImplicit false

namespace PersistentBTree.Tables

open Imperative Pages

variable {keys data : DataStructure} {n : PageId} {nSlots used : Nat} {bytes : PageBytes}
  {table : Table PageBytes}

/-- The pair in a slot of a leaf. -/
def pairIn (keys data : DataStructure) (bytes : PageBytes) (slot : Nat) :
    DataType keys × DataType data :=
  (keyIn keys data bytes slot, dataIn keys data bytes slot)

/-- The slots of a pair lie in the page. -/
def PairFits (keys data : DataStructure) (slot : Nat) : Prop :=
  Within (slotkeyBase + keys.getSize * slot) keys.getSize ∧
    Within (dataBase keys data + data.getSize * slot) data.getSize

/-! ## The pairs of the page -/

theorem readPairs_runsIf (page : OnePage n nSlots used bytes table) (count slot : Nat) :
    RunsIf (∀ i < count, PairFits keys data (slot + i))
      (readPairs (pageRecords keys data) n count slot) table fun stored after =>
        stored = (List.range' slot count).map (pairIn keys data bytes) ∧ after = table := by
  induction count generalizing slot with
  | zero =>
      apply RunsIf.of_runs _ (fun i below => absurd below (Nat.not_lt_zero i))
      exact (runs_pure ..).mpr ⟨rfl, rfl⟩
  | succ count ih =>
      have others : ∀ key after, key = keyIn keys data bytes slot ∧ after = table →
          RunsIf (Within (dataBase keys data + data.getSize * slot) data.getSize ∧
              ∀ i < count, PairFits keys data (slot + 1 + i))
            (do
              let value ← getData (pageRecords keys data) n slot
              let rest ← readPairs (pageRecords keys data) n count ((slot : Int) + 1)
              pure ((key, value) :: rest)) after fun stored final =>
                stored = (List.range' slot (count + 1)).map (pairIn keys data bytes) ∧
                  final = table := by
        intro key after ⟨isKey, same⟩
        rw [isKey, same]
        apply (getData_runsIf page slot).bind
        intro value middle ⟨isValue, same⟩
        rw [isValue, same]
        apply (ih (slot + 1)).before
        intro rest final ⟨isRest, same⟩
        rw [runs_pure, isRest, List.range'_succ]
        exact ⟨rfl, same⟩
      apply ((getKey_runsIf page slot).bind others).congr
      constructor
      · intro ⟨first, second, later⟩ i below
        cases i with
        | zero => exact ⟨first, second⟩
        | succ i =>
            have fits := later i (Nat.lt_of_succ_lt_succ below)
            rwa [Nat.add_assoc, Nat.add_comm 1] at fits
      · intro all
        have first := all 0 (Nat.succ_pos count)
        refine ⟨first.1, first.2, ?_⟩
        intro i below
        have fits := all (i + 1) (Nat.succ_lt_succ below)
        rwa [Nat.add_comm i, ← Nat.add_assoc] at fits

theorem walkLeaves_runsIf (page : OnePage n nSlots used bytes table) (fuel : Nat) :
    RunsIf (2 ≤ fuel ∧ ∀ i < used, PairFits keys data i)
      (walkLeaves (pageRecords keys data) fuel n) table fun stored _ =>
        stored = (List.range used).map (pairIn keys data bytes) := by
  cases fuel with
  | zero => exact .inr ⟨fun both => absurd both.1 (by decide), faults_throw _ _⟩
  | succ fuel =>
      rw [walkLeaves, if_neg page.someRoot]
      apply page.getNode_bind
      have behind : ∀ here after,
          here = (List.range' 0 used).map (pairIn keys data bytes) ∧ after = table →
            RunsIf (1 ≤ fuel) (do
              let behind ← walkLeaves (pageRecords keys data) fuel (-1)
              pure (here ++ behind)) after fun stored _ =>
                stored = (List.range used).map (pairIn keys data bytes) := by
        intro here after ⟨isHere, _⟩
        cases fuel with
        | zero => exact .inr ⟨fun none_ => absurd none_ (by decide), (faults_throw _ _).bind⟩
        | succ fuel =>
            apply RunsIf.of_runs _ (Nat.succ_pos fuel)
            rw [walkLeaves, if_pos rfl]
            simp only [runs_bind, runs_pure, List.append_nil, isHere, List.range_eq_range']
      apply ((@readPairs_runsIf keys data _ _ _ _ _ page used 0).bind behind).congr
      have enough : 2 ≤ fuel + 1 ↔ 1 ≤ fuel := Nat.succ_le_succ_iff
      rw [enough, and_comm]
      simp only [Nat.zero_add]

/-! ## Lookups -/

private theorem lookUp_runsIf (page : OnePage n nSlots used bytes table) (fuel : Nat)
    (key : DataType keys) :
    RunsIf (fuel ≠ 0 ∧
        (used = 0 ∨ Within (slotkeyBase + keys.getSize * (used / 2)) keys.getSize))
      (lookUp (findLower (pageRecords keys data) · key) (turnById (pageRecords keys data)) fuel)
      table fun found after => found = (n, 0, []) ∧ after = table := by
  have descends : RunsIf (fuel ≠ 0)
      (descend (findLower (pageRecords keys data) · key) (turnById (pageRecords keys data)) fuel n)
      table fun reached after => reached = (n, []) ∧ after = table := by
    cases fuel with
    | zero => exact .inr ⟨fun some_ => absurd rfl some_, faults_throw _ _⟩
    | succ fuel =>
        apply RunsIf.of_runs _ (Nat.succ_ne_zero fuel)
        unfold descend
        rw [runs_bind, runs_isLeaf, page.node]
        exact ⟨page.inUse, (runs_pure ..).mpr ⟨rfl, rfl⟩⟩
  apply RunsIf.after
  rw [runs_get, page.root]
  apply page.getNode_bind
  apply descends.bind
  intro reached after ⟨isLeaf, same⟩
  rw [isLeaf, same]
  apply (findLower_runsIf page).before
  intro slot final ⟨isFirst, same⟩
  rw [runs_pure, isFirst]
  exact ⟨rfl, same⟩

private theorem hasKeyAt_runsIf (page : OnePage n nSlots used bytes table) (some_ : used ≠ 0)
    (key : DataType keys) :
    RunsIf (Within slotkeyBase keys.getSize) (hasKeyAt (pageRecords keys data) n 0 key) table
      fun present after => present = true ∧ after = table := by
  apply RunsIf.after
  rw [runs_slotuse, page.node]
  refine ⟨page.inUse, ?_⟩
  rw [if_pos (Nat.pos_of_ne_zero some_)]
  apply (getKey_runsIf page 0).before
  intro stored final ⟨_, same⟩
  exact (runs_pure ..).mpr ⟨keyEqual_eq_true key stored, same⟩

/-- A lookup ends at the first slot, whatever the key is. -/
theorem find_runsIf (page : OnePage n nSlots used bytes table) (some_ : used ≠ 0) (fuel : Nat)
    (key : DataType keys) :
    RunsIf (fuel ≠ 0 ∧ Within (slotkeyBase + keys.getSize * (used / 2)) keys.getSize)
      (find (pageRecords keys data) fuel key) table fun found after =>
        found.1 = ⟨n, 0⟩ ∧ after = table := by
  have present : ∀ (found : PageId × Nat × List Turn) after, found = (n, 0, []) ∧ after = table →
      RunsIf (Within slotkeyBase keys.getSize)
        (do
          if ← hasKeyAt (pageRecords keys data) found.1 found.2.1 key then
            pure (⟨found.1, found.2.1⟩, found.2.2)
          else
            let last ← endIter
            pure (last, found.2.2) : M PageBytes (Iterator × List Turn)) after
        fun found after => found.1 = ⟨n, 0⟩ ∧ after = table := by
    intro found after reached
    obtain ⟨isFirst, same⟩ := reached
    rw [isFirst, same]
    apply (hasKeyAt_runsIf page some_ key).before
    intro isPresent final reached
    obtain ⟨yes, same⟩ := reached
    rw [yes, if_pos rfl, runs_pure]
    exact ⟨rfl, same⟩
  apply ((lookUp_runsIf page fuel key).bind present).congr
  constructor
  · intro reached
    obtain ⟨⟨enough, middle⟩, _⟩ := reached
    exact ⟨enough, middle.resolve_left some_⟩
  · intro reached
    obtain ⟨enough, middle⟩ := reached
    exact ⟨⟨enough, .inr middle⟩, middle.mono (Nat.le_add_right _ _)⟩

theorem atKey_iff (page : OnePage n nSlots used bytes table) (some_ : used ≠ 0)
    (key : DataType keys) :
    (⟨n, 0⟩ : Iterator).AtKey (pageRecords keys data) key table ↔
      Within slotkeyBase keys.getSize ∧ keyIn keys data bytes 0 = key := by
  have reads : RunsIf (Within slotkeyBase keys.getSize) (do
      let used ← slotuse n
      let stored ← getKey (pageRecords keys data) n (0 : Nat)
      pure (used, stored)) table fun read _ => read = (used, keyIn keys data bytes 0) := by
    apply RunsIf.after
    rw [runs_slotuse, page.node]
    refine ⟨page.inUse, (getKey_runsIf page 0).before ?_⟩
    intro stored final ⟨isStored, _⟩
    rw [runs_pure, isStored]
  apply reads.runs_iff_and
  intro read final isRead
  rw [isRead]
  exact and_iff_right (Nat.pos_of_ne_zero some_)

end PersistentBTree.Tables
