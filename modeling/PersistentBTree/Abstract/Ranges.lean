import PersistentBTree.Abstract.Multimap

/-! Ranges of an ordered multimap: the pairs between two cuts of the key order. -/

set_option autoImplicit false

namespace Multimap

variable {K D : Type}

/-- The pairs in the middle are behind the lower cut and before the upper one. -/
structure Between (lower upper : K → Prop) (front middle back : List (K × D)) : Prop where
  lower : Cut lower front (middle ++ back)
  upper : Cut upper (front ++ middle) back

namespace Between

variable {lower upper : K → Prop} {front middle back : List (K × D)} {pair : K × D}

theorem tail (between : Between lower upper front (pair :: middle) back) :
    Between lower upper front middle back where
  lower := ⟨between.lower.1, fun other member => between.lower.2 other (by simp_all)⟩
  upper := by
    obtain ⟨front_, middle_⟩ := List.forall_mem_append.mp between.upper.1
    exact ⟨List.forall_mem_append.mpr ⟨front_, (List.forall_mem_cons.mp middle_).2⟩,
      between.upper.2⟩

variable [DecidablePred lower] [DecidablePred upper]

theorem filter_inside (between : Between lower upper front middle back) :
    (front ++ (middle ++ back)).filter (fun pair => ¬ lower pair.1 ∧ upper pair.1) = middle := by
  obtain ⟨notLower, -⟩ := List.forall_mem_append.mp between.lower.2
  obtain ⟨-, isUpper⟩ := List.forall_mem_append.mp between.upper.1
  have noFront : front.filter (fun pair => ¬ lower pair.1 ∧ upper pair.1) = [] :=
    List.filter_eq_nil_iff.mpr fun pair member => by simp [between.lower.1 pair member]
  have allMiddle : middle.filter (fun pair => ¬ lower pair.1 ∧ upper pair.1) = middle :=
    List.filter_eq_self.mpr fun pair member => by simp [notLower pair member, isUpper pair member]
  have noBack : back.filter (fun pair => ¬ lower pair.1 ∧ upper pair.1) = [] :=
    List.filter_eq_nil_iff.mpr fun pair member => by simp [between.upper.2 pair member]
  rw [List.filter_append, List.filter_append, noFront, allMiddle, noBack, List.append_nil,
    List.nil_append]

theorem filter_outside (between : Between lower upper front middle back) :
    (front ++ (middle ++ back)).filter (fun pair => lower pair.1 ∨ ¬ upper pair.1) =
      front ++ back := by
  obtain ⟨notLower, -⟩ := List.forall_mem_append.mp between.lower.2
  obtain ⟨-, isUpper⟩ := List.forall_mem_append.mp between.upper.1
  have allFront : front.filter (fun pair => lower pair.1 ∨ ¬ upper pair.1) = front :=
    List.filter_eq_self.mpr fun pair member => by simp [between.lower.1 pair member]
  have noMiddle : middle.filter (fun pair => lower pair.1 ∨ ¬ upper pair.1) = [] :=
    List.filter_eq_nil_iff.mpr fun pair member => by
      simp [notLower pair member, isUpper pair member]
  have allBack : back.filter (fun pair => lower pair.1 ∨ ¬ upper pair.1) = back :=
    List.filter_eq_self.mpr fun pair member => by simp [between.upper.2 pair member]
  rw [List.filter_append, List.filter_append, allFront, noMiddle, allBack, List.nil_append]

end Between

/-- Two cuts of which the lower one comes first leave a range between them. -/
theorem Sorted.exists_between [LinearOrder K] {lower upper : K → Prop} {pairs : List (K × D)}
    (closedLower : ∀ first second, first ≤ second → lower second → lower first)
    (closedUpper : ∀ first second, first ≤ second → upper second → upper first)
    (nested : ∀ key, lower key → upper key) (sorted : Sorted pairs) :
    ∃ front middle back, pairs = front ++ (middle ++ back) ∧
      Between lower upper front middle back := by
  obtain ⟨front, rest, rfl, lowerCut⟩ := sorted.exists_cut closedLower
  obtain ⟨middle, back, rfl, upperCut⟩ :=
    (sorted_append.mp sorted).2.1.exists_cut closedUpper
  refine ⟨front, middle, back, rfl, lowerCut, ?_, upperCut.2⟩
  exact List.forall_mem_append.mpr
    ⟨fun pair member => nested pair.1 (lowerCut.1 pair member), upperCut.1⟩

end Multimap
