import PersistentBTree.Imperative.Bisect
import PersistentBTree.Memory.Represents

/-! The binary search in a node cuts its keys in two, as long as the sums of two
indices that it forms are in the range of an `int`. With 2^30 used slots or fewer
they always are. -/

set_option autoImplicit false

namespace PersistentBTree.Memory

open Imperative Multimap

variable {K D : Type} {tree : BTree K D}

/-- In a node with so many used slots the search ends behind the first `target`
keys: the upper end, as an `int`, is not left of them, and no sum of two indices is
out of range. -/
def Finds (slotuse target : Nat) : Prop :=
  target ≤ (toInt slotuse).toNat ∧
    sumsBelow (2 ^ 31) target slotuse 0 (toInt slotuse).toNat = true

instance decidableFinds (slotuse target : Nat) : Decidable (Finds slotuse target) :=
  inferInstanceAs (Decidable (_ ∧ _))

theorem finds_of_le {slotuse target : Nat} (inside : target ≤ slotuse) (few : slotuse ≤ 2 ^ 30) :
    Finds slotuse target := by
  rw [Finds, toInt_of_lt (by omega), Int.toNat_natCast]
  exact ⟨inside, sumsBelow_of_le (by omega)⟩

/-- The first slot is found in any node. -/
theorem finds_first (slotuse : Nat) : Finds slotuse 0 :=
  ⟨Nat.zero_le _, sumsBelow_first (toNat_toInt_lt slotuse)⟩

/-- Behind more than 2^30 keys nothing is found. -/
theorem not_finds_last {slotuse : Nat} (many : 2 ^ 30 < slotuse) : ¬ Finds slotuse slotuse := by
  intro finds
  have isInt : (toInt slotuse).toNat = slotuse := Nat.le_antisymm (toNat_toInt_le _) finds.1
  have inRange := finds.2
  rw [isInt, sumsBelow_last (by omega) (by omega) (by omega)] at inRange
  cases inRange

/-- The loop gets to the end of the keys for which `below` is false, which is
between `lo` and `hi`, unless a sum is out of range. -/
private theorem searchLoop_runsIf {below : K → Bool} {slotkey : Buffer K} {front back : List K}
    (holds : slotkey.Holds (front ++ back)) (left : ∀ key ∈ front, below key = false)
    (right : ∀ key ∈ back, below key = true) {fuel lo hi : Nat} (lower : lo ≤ front.length)
    (upper : front.length ≤ hi) (bound : hi ≤ (front ++ back).length) (enough : hi - lo ≤ fuel) :
    RunsIf (sumsBelow (2 ^ 31) front.length fuel lo hi = true)
      (searchLoop below slotkey fuel lo hi : M K D Nat) tree fun slot final =>
        slot = front.length ∧ final = tree := by
  induction fuel generalizing lo hi with
  | zero =>
      refine .of_runs ?_ rfl
      rw [searchLoop, if_neg (by omega), runs_pure]
      exact ⟨by omega, rfl⟩
  | succ fuel ih =>
      rw [searchLoop, sumsBelow]
      by_cases apart : lo < hi
      · rw [if_pos apart, if_pos apart]
        by_cases inRange : lo + hi < 2 ^ 31
        · have inside : (lo + hi) / 2 < (front ++ back).length := by omega
          refine .after ((runs_addInt ..).mpr ⟨inRange, .after ((runs_readSlot ..).mpr
            ⟨_, holds.read_getElem inside, ?_⟩)⟩)
          rw [decide_eq_true inRange, Bool.true_and]
          by_cases isBelow : front.length ≤ (lo + hi) / 2
          · have found : below (front ++ back)[(lo + hi) / 2] = true := by
              rw [List.getElem_append_right isBelow]
              exact right _ (List.getElem_mem _)
            rw [if_pos isBelow, if_pos found]
            exact ih lower isBelow (by omega) (by omega)
          · have found : ¬ below (front ++ back)[(lo + hi) / 2] = true := by
              rw [List.getElem_append_left (by omega), left _ (List.getElem_mem _)]
              exact Bool.false_ne_true
            rw [if_neg isBelow, if_neg found]
            exact ih (by omega) upper bound (by omega)
        · refine .inr ⟨?_, Faults.bind ?_⟩
          · rw [decide_eq_false inRange, Bool.false_and]
            exact Bool.false_ne_true
          · rw [addInt, if_neg inRange]
            exact faults_throw _ _
      · refine .of_runs ?_ (if_neg apart)
        rw [if_neg apart, runs_pure]
        exact ⟨by omega, rfl⟩

variable [LinearOrder K]

private theorem exists_cut (below : K → Bool) {keys : List K} (sorted : keys.Pairwise (· ≤ ·))
    (upward : ∀ first second, first ≤ second → below first = true → below second = true) :
    ∃ front back, keys = front ++ back ∧ (∀ key ∈ front, below key = false) ∧
      ∀ key ∈ back, below key = true := by
  induction keys with
  | nil => exact ⟨[], [], rfl, by simp, by simp⟩
  | cons key keys ih =>
      obtain ⟨first, rest⟩ := List.pairwise_cons.mp sorted
      cases isBelow : below key with
      | true =>
          refine ⟨[], key :: keys, rfl, by simp, fun other member => ?_⟩
          rcases List.mem_cons.mp member with rfl | member
          · exact isBelow
          · exact upward key other (first other member) isBelow
      | false =>
          obtain ⟨front, back, rfl, left, right⟩ := ih rest
          exact ⟨key :: front, back, rfl, by simpa using ⟨isBelow, left⟩, right⟩

omit [LinearOrder K] in
private theorem search_runsIf {below : K → Bool} {slotkey : Buffer K} {front back : List K}
    (holds : slotkey.Holds (front ++ back)) (left : ∀ key ∈ front, below key = false)
    (right : ∀ key ∈ back, below key = true)
    (reach : front.length ≤ (toInt (front ++ back).length).toNat) :
    RunsIf (Finds (front ++ back).length front.length)
      (if (front ++ back).length = 0 then pure 0
        else searchLoop below slotkey (front ++ back).length 0 (toInt (front ++ back).length).toNat)
      tree fun slot final => slot = front.length ∧ final = tree := by
  by_cases empty : (front ++ back).length = 0
  · have none_ : front.length = 0 := by
      rw [List.length_append] at empty
      omega
    rw [if_pos empty, none_]
    exact .of_runs ((runs_pure ..).mpr ⟨rfl, rfl⟩) (finds_first _)
  · rw [if_neg empty]
    exact (searchLoop_runsIf holds left right (Nat.zero_le _) reach (toNat_toInt_le _)
      (toNat_toInt_le _)).congr ⟨fun inRange => ⟨reach, inRange⟩, And.right⟩

theorem countP_of_cut {front back : List K} {key : K} (less : ∀ slot ∈ front, slot < key)
    (notLess : ∀ slot ∈ back, ¬ slot < key) : (front ++ back).countP (· < key) = front.length := by
  rw [List.countP_append, List.countP_eq_length.mpr (by simpa using less),
    List.countP_eq_zero.mpr (by simpa using notLess), Nat.add_zero]

/-- The keys less than the given one, and how `find_lower` finds their number. -/
private theorem findLower_runsIf {slotkey : Buffer K} {keys : List K} (holds : slotkey.Holds keys)
    (sorted : keys.Pairwise (· ≤ ·)) (key : K)
    (reach : keys.countP (· < key) ≤ (toInt keys.length).toNat) :
    ∃ front back, keys = front ++ back ∧ (∀ slot ∈ front, slot < key) ∧
      (∀ slot ∈ back, ¬ slot < key) ∧
      RunsIf (Finds keys.length (keys.countP (· < key))) (findLower slotkey keys.length key) tree
        fun slot final => slot = front.length ∧ final = tree := by
  have upward : ∀ first second, first ≤ second → keyLessEqual key first = true →
      keyLessEqual key second = true := by
    intro first second order isBelow
    simp only [keyLessEqual, decide_eq_true_eq] at isBelow ⊢
    exact isBelow.trans order
  obtain ⟨front, back, rfl, left, right⟩ := exists_cut _ sorted upward
  have less : ∀ slot ∈ front, slot < key := by simpa [keyLessEqual] using left
  have notLess : ∀ slot ∈ back, ¬ slot < key := by simpa [keyLessEqual] using right
  rw [countP_of_cut less notLess] at reach ⊢
  exact ⟨front, back, rfl, less, notLess, search_runsIf holds left right reach⟩

/-- `find_lower` returns the number of keys less than the given one. -/
theorem findLower_runs {slotkey : Buffer K} {keys : List K} (holds : slotkey.Holds keys)
    (sorted : keys.Pairwise (· ≤ ·)) {key : K} {post : Nat → BTree K D → Prop}
    (finds : Finds keys.length (keys.countP (· < key)))
    (next : ∀ front back, keys = front ++ back → (∀ slot ∈ front, slot < key) →
      (∀ slot ∈ back, ¬ slot < key) → post front.length tree) :
    Runs (findLower slotkey keys.length key) tree post := by
  obtain ⟨front, back, split, less, notLess, outcome⟩ := findLower_runsIf holds sorted key finds.1
  refine (outcome.runs finds).mono ?_
  rintro slot final ⟨rfl, rfl⟩
  exact next front back split less notLess

/-- When the sums that lead there are out of range, `find_lower` does not return. -/
theorem findLower_faults {slotkey : Buffer K} {keys : List K} (holds : slotkey.Holds keys)
    (sorted : keys.Pairwise (· ≤ ·)) {key : K} (isInt : keys.length < 2 ^ 31)
    (never : ¬ Finds keys.length (keys.countP (· < key))) :
    Faults (findLower slotkey keys.length key) tree := by
  have reach : keys.countP (· < key) ≤ (toInt keys.length).toNat := by
    rw [toInt_of_lt isInt, Int.toNat_natCast]
    exact List.countP_le_length
  obtain ⟨_, _, _, _, _, outcome⟩ := findLower_runsIf holds sorted key reach
  exact outcome.faults never

/-- `find_upper` returns the number of keys that do not exceed the given one. -/
theorem findUpper_runs {slotkey : Buffer K} {keys : List K} (holds : slotkey.Holds keys)
    (sorted : keys.Pairwise (· ≤ ·)) {key : K} {post : Nat → BTree K D → Prop}
    (few : keys.length ≤ 2 ^ 30)
    (next : ∀ front back, keys = front ++ back → (∀ slot ∈ front, slot ≤ key) →
      (∀ slot ∈ back, ¬ slot ≤ key) → post front.length tree) :
    Runs (findUpper slotkey keys.length key) tree post := by
  have upward : ∀ first second, first ≤ second → keyLess key first = true →
      keyLess key second = true := by
    intro first second order isBelow
    simp only [keyLess, decide_eq_true_eq] at isBelow ⊢
    exact isBelow.trans_le order
  obtain ⟨front, back, rfl, left, right⟩ := exists_cut _ sorted upward
  have finds : Finds (front ++ back).length front.length := finds_of_le (by simp) few
  refine ((search_runsIf holds left right finds.1).runs finds).mono ?_
  rintro slot final ⟨rfl, rfl⟩
  refine next front back rfl ?_ ?_
  · simpa [keyLess] using left
  · simpa [keyLess] using right

/-! ## The way down -/

/-- Every search on the way down to the place of the key ends at the right slot. -/
inductive Tree.Reaches (key : K) : Tree K D → Prop where
  | leaf {ptr : Ptr} {pairs : List (K × D)}
      (finds : Finds pairs.length (pairs.countP (·.1 < key))) : Reaches key (.leaf ptr pairs)
  | inner {ptr : Ptr} {keys : List K} {kids : Forest K D}
      (finds : Finds keys.length (keys.countP (· < key)))
      (below : ∀ front kid back, kids = front ++ kid :: back →
        front.length = keys.countP (· < key) → Reaches key kid) : Reaches key (.inner ptr keys kids)

/-- A key that is found in every node of the greatest size or less is reached. -/
theorem WellFormed.reaches_of {bounds : Bounds} {least height : Nat} {sub : Tree K D} {key : K}
    (inLeaf : ∀ pairs : List (K × D), pairs.length ≤ bounds.leafMax →
      Finds pairs.length (pairs.countP (·.1 < key)))
    (inInner : ∀ keys : List K, keys.length ≤ bounds.innerMax →
      Finds keys.length (keys.countP (· < key)))
    (formed : WellFormed bounds least height sub) : sub.Reaches key := by
  induction height generalizing sub least with
  | zero =>
      obtain ⟨ptr, pairs, rfl⟩ := formed.exists_leaf
      exact .leaf (inLeaf pairs formed.2)
  | succ height ih =>
      obtain ⟨ptr, keys, kids, rfl⟩ := formed.exists_inner
      obtain ⟨-, most, -, -, below⟩ := formed
      refine .inner (inInner keys most) ?_
      rintro front kid back rfl -
      exact ih (below kid (by simp))

/-- No node uses more slots than a search can add up the indices of. -/
def BTree.Searchable (tree : BTree K D) : Prop :=
  ∀ ptr node, tree.heap ptr = some node → node.slotuse ≤ 2 ^ 30

theorem BTree.Represents.reaches {height : Nat} {sub : Tree K D} (searchable : tree.Searchable)
    (stored : tree.Represents height sub) (key : K) : sub.Reaches key := by
  induction height generalizing sub with
  | zero =>
      obtain ⟨ptr, pairs, rfl⟩ := stored.exists_leaf
      obtain ⟨node, found, stores⟩ := stored
      have few : pairs.length ≤ 2 ^ 30 := stores.used ▸ searchable ptr _ found
      exact .leaf (finds_of_le List.countP_le_length few)
  | succ height ih =>
      obtain ⟨ptr, keys, kids, rfl⟩ := stored.exists_inner
      obtain ⟨⟨node, found, -, stores⟩, below⟩ := stored
      have few : keys.length ≤ 2 ^ 30 := stores.used ▸ searchable ptr _ found
      refine .inner (finds_of_le List.countP_le_length few) ?_
      rintro front kid back rfl -
      exact ih (below kid (by simp))

omit [LinearOrder K] in
theorem BTree.Represents.slotuse_le {bounds : Bounds} {least height : Nat} {sub : Tree K D}
    (small : bounds.Searchable) (stored : tree.Represents height sub)
    (formed : WellFormed bounds least height sub) {ptr : Ptr} (inside : ptr ∈ sub.foot)
    {node : Node K D} (found : tree.heap ptr = some node) : node.slotuse ≤ 2 ^ 30 := by
  induction height generalizing sub least with
  | zero =>
      obtain ⟨leaf, pairs, rfl⟩ := stored.exists_leaf
      obtain ⟨node', found', stores⟩ := stored
      rw [Tree.foot_leaf, Multiset.mem_singleton] at inside
      subst inside
      obtain rfl := Option.some.inj (found.symm.trans found')
      rw [Node.slotuse, stores.used]
      exact formed.2.trans small.leaf
  | succ height ih =>
      obtain ⟨inner, keys, kids, rfl⟩ := stored.exists_inner
      obtain ⟨⟨node', found', -, stores⟩, below⟩ := stored
      rw [Tree.foot_inner, Multiset.mem_cons] at inside
      rcases inside with rfl | inKids
      · obtain rfl := Option.some.inj (found.symm.trans found')
        rw [Node.slotuse, stores.used]
        exact formed.2.1.trans small.inner
      · obtain ⟨kid, member, inKid⟩ := Forest.mem_foot.mp inKids
        exact ih (below kid member) (formed.2.2.2.2 kid member) inKid

/-- In trees with small nodes every key is reached. -/
theorem WellFormed.reaches {bounds : Bounds} {least height : Nat} {sub : Tree K D}
    (searchable : bounds.Searchable) (formed : WellFormed bounds least height sub) (key : K) :
    sub.Reaches key :=
  formed.reaches_of (fun _ most => finds_of_le List.countP_le_length (most.trans searchable.leaf))
    fun _ most => finds_of_le List.countP_le_length (most.trans searchable.inner)

/-- The least key is reached in any tree. -/
theorem WellFormed.reaches_bot [OrderBot K] {bounds : Bounds} {least height : Nat}
    {sub : Tree K D} (formed : WellFormed bounds least height sub) : sub.Reaches ⊥ :=
  formed.reaches_of (fun pairs _ => by simpa using finds_first pairs.length)
    fun keys _ => by simpa using finds_first keys.length

end PersistentBTree.Memory
