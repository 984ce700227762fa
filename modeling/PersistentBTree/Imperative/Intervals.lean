import PersistentBTree.Imperative.Scan

/-! The longest intervals of positions that meet a condition, from left to right, and
how a list is cut into them. -/

set_option autoImplicit false

namespace Imperative

/-- An interval of positions that meet the condition, from the first position up to before
the second, which cannot be extended on either side. -/
structure MaximalInterval (meets : Nat → Prop) (span : Nat × Nat) : Prop where
  nonempty : span.1 < span.2
  all : ∀ i, span.1 ≤ i → i < span.2 → meets i
  closed : ¬ meets span.2
  opened : ∀ i, i + 1 = span.1 → ¬ meets i

/-- The maximal intervals from a position on, in order, each of them once. -/
structure ListsIntervals (meets : Nat → Prop) (start : Nat) (spans : List (Nat × Nat)) :
    Prop where
  ordered : spans.Pairwise fun first second => first.1 < second.1
  complete : ∀ span, span ∈ spans ↔ start ≤ span.1 ∧ MaximalInterval meets span

section Intervals

variable {meets : Nat → Prop} {start : Nat}

/-- Two maximal intervals that share a position end together. -/
theorem MaximalInterval.stop_le {first second : Nat × Nat}
    (maximal : MaximalInterval meets first) (maximal' : MaximalInterval meets second)
    (overlap : second.1 ≤ first.2) : second.2 ≤ first.2 := by
  by_contra longer
  exact maximal.closed (maximal'.all first.2 overlap (Nat.lt_of_not_le longer))

namespace ListsIntervals

theorem nil (never : ∀ i, start ≤ i → ¬ meets i) : ListsIntervals meets start [] where
  ordered := .nil
  complete span := by
    constructor
    · intro absent
      cases absent
    · intro ⟨later, maximal⟩
      exact absurd (maximal.all span.1 (Nat.le_refl _) maximal.nonempty) (never span.1 later)

/-- The first interval comes before all those behind its end. -/
theorem cons {first stop : Nat} {spans : List (Nat × Nat)} (later : start ≤ first)
    (before : ∀ i, start ≤ i → i < first → ¬ meets i)
    (opened : ∀ i, i + 1 = start → ¬ meets i) (nonempty : first < stop)
    (all : ∀ i, first ≤ i → i < stop → meets i) (closed : ¬ meets stop)
    (rest : ListsIntervals meets (stop + 1) spans) :
    ListsIntervals meets start ((first, stop) :: spans) where
  ordered := by
    refine .cons ?_ rest.ordered
    intro span among
    have behind := ((rest.complete span).mp among).1
    change first < span.1
    omega
  complete span := by
    rw [List.mem_cons, rest.complete]
    have here : MaximalInterval meets (first, stop) := by
      refine ⟨nonempty, all, closed, fun i next => ?_⟩
      cases Nat.lt_or_ge i start with
      | inl early =>
          change i + 1 = first at next
          exact opened i (by omega)
      | inr inside => exact before i inside (Nat.lt_of_succ_le (Nat.le_of_eq next))
    constructor
    · intro either
      cases either with
      | inl same =>
          subst same
          exact ⟨later, here⟩
      | inr behind =>
          refine ⟨?_, behind.2⟩
          have after := behind.1
          omega
    · intro ⟨from_, maximal⟩
      have meetsFirst := maximal.all span.1 (Nat.le_refl _) maximal.nonempty
      have notBefore : first ≤ span.1 := by
        by_contra early
        exact before span.1 from_ (Nat.lt_of_not_le early) meetsFirst
      cases Nat.lt_trichotomy span.1 stop with
      | inl inside =>
          have sameStart : span.1 = first := by
            by_contra differs
            have positive : span.1 - 1 + 1 = span.1 := by omega
            exact maximal.opened (span.1 - 1) positive (all _ (by omega) (by omega))
          have sameStop := Nat.le_antisymm (here.stop_le maximal (Nat.le_of_lt inside))
            (maximal.stop_le here (sameStart ▸ Nat.le_of_lt maximal.nonempty))
          exact .inl (Prod.ext sameStart sameStop)
      | inr beyond =>
          cases beyond with
          | inl same => exact absurd (same ▸ meetsFirst) closed
          | inr behind => exact .inr ⟨behind, maximal⟩

theorem unique {first second : List (Nat × Nat)} (lists : ListsIntervals meets start first)
    (lists' : ListsIntervals meets start second) : first = second := by
  have apart : ∀ {spans : List (Nat × Nat)},
      spans.Pairwise (fun one other => one.1 < other.1) → spans.Nodup := by
    intro spans ordered
    exact ordered.imp fun before same => Nat.ne_of_lt before (congrArg Prod.fst same)
  have perm := (List.perm_ext_iff_of_nodup (apart lists.ordered) (apart lists'.ordered)).mpr
    fun span => (lists.complete span).trans (lists'.complete span).symm
  apply perm.eq_of_pairwise _ lists.ordered lists'.ordered
  intro one other _ _ before after
  exact absurd before (Nat.lt_asymm after)

end ListsIntervals

end Intervals

/-! ## Runs of items -/

section Runs

variable {α : Type} (test : α → Bool) (items : List α)

/-- The item in the position passes the test. -/
def PassesAt (i : Nat) : Prop := (items[i]?).any test = true

/-- The items in an interval of positions. -/
def itemsIn (span : Nat × Nat) : List α := (items.drop span.1).take (span.2 - span.1)

variable {test items}

theorem passesAt_drop {start i : Nat} :
    PassesAt test (items.drop start) i ↔ PassesAt test items (start + i) := by
  rw [PassesAt, PassesAt, List.getElem?_drop]

theorem PassesAt.lt_length {i : Nat} (passes : PassesAt test items i) : i < items.length := by
  by_contra beyond
  rw [PassesAt, List.getElem?_eq_none (Nat.le_of_not_lt beyond)] at passes
  cases passes

theorem passesAt_of_lt_takeWhile {i : Nat} (inside : i < (items.takeWhile test).length) :
    PassesAt test items i := by
  have found := List.prefix_iff_getElem?.mp (@List.takeWhile_prefix _ items test) i inside
  have passes := List.mem_takeWhile_imp (List.getElem_mem inside)
  rw [PassesAt, found, Option.any_some]
  exact passes

theorem not_passesAt_length_takeWhile : ¬ PassesAt test items (items.takeWhile test).length := by
  rw [PassesAt, ← List.head?_drop, drop_length_takeWhile]
  have stops := List.head?_dropWhile_not test items
  cases left : (items.dropWhile test).head? with
  | none => simp
  | some item =>
      rw [left] at stops
      simpa using stops

/-- Behind the items that fail comes the first run, and what follows the item behind it
has the other ones. -/
theorem ListsIntervals.cut {start first stop : Nat} {spans : List (Nat × Nat)}
    (opened : ∀ i, i + 1 = start → ¬ PassesAt test items i)
    (skips : first = start + ((items.drop start).takeWhile fun item => !test item).length)
    (takes : stop = first + ((items.drop first).takeWhile test).length)
    (some_ : PassesAt test items first)
    (rest : ListsIntervals (PassesAt test items) (stop + 1) spans) :
    ListsIntervals (PassesAt test items) start ((first, stop) :: spans) := by
  have all : ∀ i, first ≤ i → i < stop → PassesAt test items i := by
    intro i from_ inside
    obtain ⟨i, rfl⟩ := Nat.exists_eq_add_of_le from_
    rw [← passesAt_drop]
    exact passesAt_of_lt_takeWhile (by omega)
  have closed : ¬ PassesAt test items stop := by
    rw [takes, ← passesAt_drop]
    exact not_passesAt_length_takeWhile
  have nonempty : first < stop := by
    by_contra empty
    have same : stop = first := by omega
    exact closed (same ▸ some_)
  have before : ∀ i, start ≤ i → i < first → ¬ PassesAt test items i := by
    intro i from_ inside
    obtain ⟨i, rfl⟩ := Nat.exists_eq_add_of_le from_
    have fails : PassesAt (fun item => !test item) (items.drop start) i :=
      passesAt_of_lt_takeWhile (by omega)
    rw [← passesAt_drop]
    intro passes
    rw [PassesAt, Option.any_eq_true] at fails passes
    obtain ⟨item, here, negative⟩ := fails
    obtain ⟨other, here', positive⟩ := passes
    rw [here] at here'
    cases here'
    rw [positive] at negative
    cases negative
  exact .cons (skips ▸ Nat.le_add_right ..) before opened nonempty all closed rest

end Runs

end Imperative
