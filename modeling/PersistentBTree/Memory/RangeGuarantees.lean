import PersistentBTree.Abstract.Ranges
import PersistentBTree.Memory.Guarantees
import PersistentBTree.Memory.LookupProperties

/-! What users of the in-memory `btree` may rely on when they read or erase a range
of keys, with the loops that its iterators are made for. -/

set_option autoImplicit false

namespace PersistentBTree.Memory

open Imperative Multimap

variable {K D : Type} [LinearOrder K] [Inhabited K] {leafslotmax innerslotmax : Nat}
  {sizes : NodeSizes} {checks : Assertion → Bool} {tree : BTree K D}

/-! ## Loops over iterators -/

/-- A loop from one iterator to another that dereferences the iterator in every round.
The fuel bounds the number of rounds. -/
def readUpTo (last : Iterator) : Nat → Iterator → M K D (List (K × D))
  | 0, _ => throw .outOfFuel
  | fuel + 1, iter =>
      if iter = last then pure []
      else do
        let pair ← iter.deref
        let next ← iter.next
        let rest ← readUpTo last fuel next
        pure (pair :: rest)

/-- The pairs from one bound to another. -/
def readRange (lower upper : M K D Iterator) : M K D (List (K × D)) := do
  let tree ← get
  let first ← lower
  let last ← upper
  readUpTo last (tree.mStats.itemcount + 1) first

/-- A loop that erases the pair at the lower bound until it is the upper bound. Both
are looked up again in every round, since `erase` may move or delete the leaves that
the iterators are in. -/
def eraseUpTo (lower upper : M K D Iterator) : Nat → M K D Unit
  | 0 => throw .outOfFuel
  | fuel + 1 => do
      let first ← lower
      let last ← upper
      if first = last then pure ()
      else do
        eraseIter first
        eraseUpTo lower upper fuel

/-- The pairs from one bound to another are erased. -/
def eraseRange (lower upper : M K D Iterator) : M K D Unit := do
  let tree ← get
  eraseUpTo lower upper (tree.mStats.itemcount + 1)

/-! ## Positions -/

omit [LinearOrder K] [Inhabited K] in
theorem BTree.ChainOf.iterAt_of_at (chain : tree.ChainOf tree.leafBlocks) {iter : Iterator}
    {position : Nat} (isAt : tree.At iter position) : iter = iterAt tree.leafBlocks position := by
  rcases isAt with ⟨front, pair, back, denotes, rfl⟩ | ⟨rfl, ended⟩
  · exact denotes.iterAt_eq.symm
  · obtain ⟨last, after, returned, rfl, rfl⟩ := ended
    exact (chain.end_runs.holds returned).2

omit [LinearOrder K] [Inhabited K] in
/-- The loop reads the pairs between two positions. -/
theorem BTree.ChainOf.readUpTo_runs (chain : tree.ChainOf tree.leafBlocks) {fuel : Nat}
    {front middle back : List (K × D)} (contents : tree.contents = front ++ (middle ++ back))
    (enough : middle.length < fuel) :
    Runs (readUpTo (iterAt tree.leafBlocks (front ++ middle).length) fuel
      (iterAt tree.leafBlocks front.length)) tree fun pairs after =>
        after = tree ∧ pairs = middle := by
  obtain ⟨fuel, rfl⟩ := Nat.exists_eq_succ_of_ne_zero (Nat.ne_of_gt (Nat.zero_lt_of_lt enough))
  induction middle generalizing front fuel with
  | nil =>
      rw [readUpTo, List.append_nil, if_pos rfl]
      exact (runs_pure ..).mpr ⟨rfl, rfl⟩
  | cons pair middle ih =>
      have inside : front.length < tree.contents.length := by simp [contents]
      have within : (front ++ pair :: middle).length ≤ tree.contents.length := by
        simp only [contents, List.length_append]
        omega
      have notLast : iterAt tree.leafBlocks front.length ≠
          iterAt tree.leafBlocks (front ++ pair :: middle).length := by
        intro same
        have lengths := chain.iterAt_injective inside.le within same
        simp at lengths
      obtain ⟨front', found, back', denotes, size⟩ := denotes_iterAt inside
      obtain ⟨-, behind⟩ := List.append_inj (denotes.pairsIn_eq.symm.trans contents) size
      have isPair : found = pair := (List.cons_eq_cons.mp behind).1
      rw [readUpTo, if_neg notLast, runs_bind]
      apply (chain.deref_runs denotes).mono
      rintro result after ⟨rfl, isFound⟩
      rw [runs_bind]
      apply (chain.next_runs inside).mono
      rintro next after ⟨rfl, rfl⟩
      rw [runs_bind]
      have onward : after.contents = (front ++ [pair]) ++ (middle ++ back) := by simp [contents]
      obtain ⟨fuel, rfl⟩ : ∃ less, fuel = less + 1 :=
        Nat.exists_eq_succ_of_ne_zero (by rintro rfl; simp at enough)
      have rest := ih onward fuel (by simpa using enough)
      rw [List.append_assoc, List.singleton_append, @List.length_append _ front [pair],
        List.length_singleton] at rest
      apply rest.mono
      rintro pairs after ⟨rfl, rfl⟩
      exact (runs_pure ..).mpr ⟨rfl, by rw [isFound, isPair]⟩

/-- A bound is at the position where the keys are cut in two, in every state. -/
structure Locates (sizes : NodeSizes) (checks : Assertion → Bool) (bound : M K D Iterator)
    (before : K → Prop) : Prop where
  closed : ∀ first second, first ≤ second → before second → before first
  locates : ∀ tree : BTree K D, Reachable sizes checks tree → ∀ front back,
    tree.contents = front ++ back → Cut before front back →
      Runs bound tree fun iter after => after = tree ∧ iter = iterAt tree.leafBlocks front.length

theorem locates_lowerBound {bounds : Bounds} (small : bounds.Searchable)
    (erases : bounds.Erases sizes checks) (key : K) :
    Locates sizes checks (lowerBound (D := D) key) (· < key) where
  closed _ _ order isLess := order.trans_lt isLess
  locates tree reached front back contents cut := by
    have invariant := (reached.kept small erases).invariant
    apply (lowerBound_runs invariant erases.positive (invariant.searchable small) key).mono
    rintro iter after ⟨rfl, isAt⟩
    rw [contents, cut.findIdx fun pair => by simp] at isAt
    exact ⟨rfl, (invariant.chainOf erases.positive).iterAt_of_at isAt⟩

theorem locates_upperBound {bounds : Bounds} (small : bounds.Searchable)
    (erases : bounds.Erases sizes checks) (key : K) :
    Locates sizes checks (upperBound (D := D) key) (· ≤ key) where
  closed _ _ order atMost := order.trans atMost
  locates tree reached front back contents cut := by
    have invariant := (reached.kept small erases).invariant
    apply (upperBound_runs invariant erases.positive (invariant.searchable small) key).mono
    rintro iter after ⟨rfl, isAt⟩
    rw [contents, cut.findIdx fun pair => by simp] at isAt
    exact ⟨rfl, (invariant.chainOf erases.positive).iterAt_of_at isAt⟩

section Ranges

variable {lower upper : M K D Iterator} {beforeLower beforeUpper : K → Prop}
  {front middle back : List (K × D)} {bounds : Bounds}

private theorem readRange_runs (small : bounds.Searchable) (erases : bounds.Erases sizes checks)
    (reached : Reachable sizes checks tree) (atLower : Locates sizes checks lower beforeLower)
    (atUpper : Locates sizes checks upper beforeUpper)
    (contents : tree.contents = front ++ (middle ++ back))
    (between : Between beforeLower beforeUpper front middle back) :
    Runs (readRange lower upper) tree fun pairs after => after = tree ∧ pairs = middle := by
  have invariant := (reached.kept small erases).invariant
  rw [readRange, runs_bind, runs_get, runs_bind]
  apply (atLower.locates tree reached _ _ contents between.lower).mono
  rintro _ after ⟨rfl, rfl⟩
  rw [runs_bind]
  rw [← List.append_assoc] at contents
  apply (atUpper.locates after reached _ _ contents between.upper).mono
  rintro _ after ⟨rfl, rfl⟩
  rw [List.append_assoc] at contents
  apply (invariant.chainOf erases.positive).readUpTo_runs contents
  rw [invariant.itemcount, contents]
  simp only [List.length_append]
  omega

/-- `erase` through an iterator at the first pair of the rest. -/
private theorem Reachable.eraseIter_runs {pair : K × D} (small : bounds.Searchable)
    (erases : bounds.Erases sizes checks) (reached : Reachable sizes checks tree)
    (contents : tree.contents = front ++ pair :: back) :
    Runs (eraseIter (iterAt tree.leafBlocks front.length)) tree fun _ after =>
      Reachable sizes checks after ∧ after.contents = front ++ back := by
  have kept := reached.kept small erases
  have inside : front.length < (pairsIn tree.leafBlocks).length := by
    change front.length < tree.contents.length
    simp [contents]
  obtain ⟨front', found, back', denotes, size⟩ := denotes_iterAt inside
  obtain ⟨isFront, behind⟩ := List.append_inj (denotes.pairsIn_eq.symm.trans contents) size
  have isBack : back' = back := (List.cons_eq_cons.mp behind).2
  obtain ⟨result, after, returned, -, remaining⟩ :=
    Memory.eraseIter_runs (kept.erases erases) (kept.invariant.searchable small) kept.invariant
      denotes
  have performed : (Command.eraseIter (iterAt tree.leafBlocks front.length)).perform.run tree =
      .ok (.done, after) := run_bind_ok returned
  have valid : (Command.eraseIter (iterAt tree.leafBlocks front.length)).Valid tree :=
    ⟨front', found, back', denotes⟩
  exact ⟨result, after, returned, reached.tail ⟨_, _, valid, trivial, performed⟩,
    by rw [remaining, isFront, isBack]⟩

private theorem eraseUpTo_runs (small : bounds.Searchable) (erases : bounds.Erases sizes checks)
    (reached : Reachable sizes checks tree) (atLower : Locates sizes checks lower beforeLower)
    (atUpper : Locates sizes checks upper beforeUpper)
    (contents : tree.contents = front ++ (middle ++ back))
    (between : Between beforeLower beforeUpper front middle back) {fuel : Nat}
    (enough : middle.length < fuel) :
    Runs (eraseUpTo lower upper fuel) tree fun _ after =>
      Reachable sizes checks after ∧ after.contents = front ++ back := by
  obtain ⟨fuel, rfl⟩ := Nat.exists_eq_succ_of_ne_zero (Nat.ne_of_gt (Nat.zero_lt_of_lt enough))
  induction middle generalizing tree fuel with
  | nil =>
      have atFirst := atLower.locates tree reached front back contents between.lower
      have atLast := atUpper.locates tree reached front back contents
        (by simpa using between.upper)
      rw [eraseUpTo, runs_bind]
      apply atFirst.mono
      rintro _ after ⟨rfl, rfl⟩
      rw [runs_bind]
      apply atLast.mono
      rintro _ after ⟨rfl, rfl⟩
      rw [if_pos rfl]
      exact (runs_pure ..).mpr ⟨reached, contents⟩
  | cons pair middle ih =>
      have chain := (reached.kept small erases).invariant.chainOf erases.positive
      have atFirst := atLower.locates tree reached front _ contents between.lower
      have atLast := atUpper.locates tree reached (front ++ pair :: middle) back
        (by rw [contents, List.append_assoc]) between.upper
      have inside : front.length ≤ tree.contents.length := by simp [contents]
      have within : (front ++ pair :: middle).length ≤ tree.contents.length := by
        simp only [contents, List.length_append]
        omega
      have notLast : iterAt tree.leafBlocks front.length ≠
          iterAt tree.leafBlocks (front ++ pair :: middle).length := by
        intro same
        have lengths := chain.iterAt_injective inside within same
        simp at lengths
      rw [eraseUpTo, runs_bind]
      apply atFirst.mono
      rintro _ after ⟨rfl, rfl⟩
      rw [runs_bind]
      apply atLast.mono
      rintro _ after ⟨rfl, rfl⟩
      rw [if_neg notLast, runs_bind]
      apply (reached.eraseIter_runs small erases contents).mono
      rintro _ shorter ⟨reachedShorter, remaining⟩
      obtain ⟨fuel, rfl⟩ : ∃ less, fuel = less + 1 :=
        Nat.exists_eq_succ_of_ne_zero (by rintro rfl; simp at enough)
      exact ih reachedShorter remaining between.tail fuel (by simpa using enough)

private theorem eraseRange_runs (small : bounds.Searchable) (erases : bounds.Erases sizes checks)
    (reached : Reachable sizes checks tree) (atLower : Locates sizes checks lower beforeLower)
    (atUpper : Locates sizes checks upper beforeUpper)
    (contents : tree.contents = front ++ (middle ++ back))
    (between : Between beforeLower beforeUpper front middle back) :
    Runs (eraseRange lower upper) tree fun _ after =>
      Reachable sizes checks after ∧ after.contents = front ++ back := by
  rw [eraseRange, runs_bind, runs_get]
  apply eraseUpTo_runs small erases reached atLower atUpper contents between
  rw [(reached.kept small erases).invariant.itemcount, contents]
  simp only [List.length_append]
  omega

end Ranges

/-! ## Ranges of keys -/

/-- The loop from `lower_bound` to `lower_bound` reads the pairs from the first key to
the last one without it, and the loop to `upper_bound` those with it. -/
theorem reachable_readRange (small : Small leafslotmax innerslotmax)
    (reached : Reachable (setNodeSize leafslotmax innerslotmax) checks tree) {first last : K}
    (order : first ≤ last) :
    (Runs (readRange (lowerBound first) (lowerBound last)) tree fun pairs after =>
      after = tree ∧ pairs = tree.contents.filter fun pair => first ≤ pair.1 ∧ pair.1 < last) ∧
    Runs (readRange (lowerBound first) (upperBound last)) tree fun pairs after =>
      after = tree ∧ pairs = tree.contents.filter fun pair => first ≤ pair.1 ∧ pair.1 ≤ last := by
  have erases := small.erases checks
  have sorted := (reached.kept small.searchable erases).invariant.sorted
  have atFirst := locates_lowerBound (D := D) small.searchable erases first
  have atLast := locates_lowerBound (D := D) small.searchable erases last
  have behindLast := locates_upperBound (D := D) small.searchable erases last
  constructor
  · obtain ⟨front, middle, back, contents, between⟩ := sorted.exists_between atFirst.closed
      atLast.closed fun key isLess => isLess.trans_le order
    have inside := between.filter_inside
    rw [← contents] at inside
    apply (readRange_runs small.searchable erases reached atFirst atLast contents between).mono
    rintro pairs after ⟨rfl, rfl⟩
    exact ⟨rfl, by simpa using inside.symm⟩
  · obtain ⟨front, middle, back, contents, between⟩ := sorted.exists_between atFirst.closed
      behindLast.closed fun key isLess => isLess.le.trans order
    have inside := between.filter_inside
    rw [← contents] at inside
    apply (readRange_runs small.searchable erases reached atFirst behindLast contents between).mono
    rintro pairs after ⟨rfl, rfl⟩
    exact ⟨rfl, by simpa using inside.symm⟩

theorem reachable_readRange_duplicates : ∃ tree, (performAll duplicates).run
    (BTree.empty (setNodeSize 4 4) releaseBuild) = .ok ((), tree) ∧
      (Runs (readRange (lowerBound 2) (lowerBound 4)) tree fun pairs after =>
        after = tree ∧ pairs = tree.contents.filter fun pair => 2 ≤ pair.1 ∧ pair.1 < 4) ∧
      Runs (readRange (lowerBound 2) (upperBound 4)) tree fun pairs after =>
        after = tree ∧ pairs = tree.contents.filter fun pair => 2 ≤ pair.1 ∧ pair.1 ≤ 4 := by
  obtain ⟨tree, returned, reached⟩ := exists_reachable (setNodeSize 4 4) releaseBuild duplicates
    (by decide) (by decide +kernel)
  exact ⟨tree, returned, reachable_readRange small_four reached (by decide)⟩

/-- The loops that erase leave what is outside of the range. -/
theorem reachable_eraseRange (small : Small leafslotmax innerslotmax)
    (reached : Reachable (setNodeSize leafslotmax innerslotmax) checks tree) {first last : K}
    (order : first ≤ last) :
    (Runs (eraseRange (lowerBound first) (lowerBound last)) tree fun _ after =>
      Reachable (setNodeSize leafslotmax innerslotmax) checks after ∧
        after.contents = tree.contents.filter fun pair => pair.1 < first ∨ last ≤ pair.1) ∧
    Runs (eraseRange (lowerBound first) (upperBound last)) tree fun _ after =>
      Reachable (setNodeSize leafslotmax innerslotmax) checks after ∧
        after.contents = tree.contents.filter fun pair => pair.1 < first ∨ last < pair.1 := by
  have erases := small.erases checks
  have sorted := (reached.kept small.searchable erases).invariant.sorted
  have atFirst := locates_lowerBound (D := D) small.searchable erases first
  have atLast := locates_lowerBound (D := D) small.searchable erases last
  have behindLast := locates_upperBound (D := D) small.searchable erases last
  constructor
  · obtain ⟨front, middle, back, contents, between⟩ := sorted.exists_between atFirst.closed
      atLast.closed fun key isLess => isLess.trans_le order
    have outside := between.filter_outside
    rw [← contents] at outside
    apply (eraseRange_runs small.searchable erases reached atFirst atLast contents between).mono
    rintro result after ⟨reachedAfter, remaining⟩
    exact ⟨reachedAfter, by simpa [remaining] using outside.symm⟩
  · obtain ⟨front, middle, back, contents, between⟩ := sorted.exists_between atFirst.closed
      behindLast.closed fun key isLess => isLess.le.trans order
    have outside := between.filter_outside
    rw [← contents] at outside
    apply (eraseRange_runs small.searchable erases reached atFirst behindLast contents between).mono
    rintro result after ⟨reachedAfter, remaining⟩
    exact ⟨reachedAfter, by simpa [remaining] using outside.symm⟩

theorem reachable_eraseRange_duplicates : ∃ tree, (performAll duplicates).run
    (BTree.empty (setNodeSize 4 4) releaseBuild) = .ok ((), tree) ∧
      (Runs (eraseRange (lowerBound 2) (lowerBound 4)) tree fun _ after =>
        Reachable (setNodeSize 4 4) releaseBuild after ∧
          after.contents = tree.contents.filter fun pair => pair.1 < 2 ∨ 4 ≤ pair.1) ∧
      Runs (eraseRange (lowerBound 2) (upperBound 4)) tree fun _ after =>
        Reachable (setNodeSize 4 4) releaseBuild after ∧
          after.contents = tree.contents.filter fun pair => pair.1 < 2 ∨ 4 < pair.1 := by
  obtain ⟨tree, returned, reached⟩ := exists_reachable (setNodeSize 4 4) releaseBuild duplicates
    (by decide) (by decide +kernel)
  exact ⟨tree, returned, reachable_eraseRange small_four reached (by decide)⟩

end PersistentBTree.Memory
