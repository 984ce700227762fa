import Mathlib.Algebra.Order.BigOperators.Group.List
import Mathlib.Algebra.Order.Ring.Nat
import PersistentBTree.Memory.Tree

/-! How many pairs and how many nodes a subtree of a given height has, when its
nodes are filled within the bounds. -/

set_option autoImplicit false

namespace PersistentBTree.Memory

variable {K D : Type}

namespace Forest

theorem length_pairs (kids : Forest K D) :
    (Forest.pairs kids).length = (kids.map fun kid => kid.pairs.length).sum := by
  induction kids with
  | nil => rfl
  | cons kid kids ih => simp [ih]

/-- As many pairs for every leaf below these children as for every leaf below each. -/
theorem leaves_at_least {kids : Forest K D} {few : Nat}
    (enough : ∀ kid ∈ kids, few * kid.leaves.length ≤ kid.pairs.length) :
    few * (Forest.leaves kids).length ≤ (Forest.pairs kids).length := by
  induction kids with
  | nil => simp
  | cons kid kids ih =>
      have first : few * kid.leaves.length ≤ kid.pairs.length := enough kid (by simp)
      have rest := ih fun other member => enough other (by simp [member])
      rw [leaves_cons, pairs_cons, List.length_append, List.length_append, Nat.mul_add]
      exact Nat.add_le_add first rest

/-- Every inner node but the topmost ones costs a leaf for each of its least slots. -/
theorem inners_at_least {kids : Forest K D} {few : Nat}
    (enough : ∀ kid ∈ kids, few * kid.innerCount + 1 ≤ kid.leaves.length) :
    few * Forest.innerCount kids + kids.length ≤ (Forest.leaves kids).length := by
  induction kids with
  | nil => simp
  | cons kid kids ih =>
      have first : few * kid.innerCount + 1 ≤ kid.leaves.length := enough kid (by simp)
      have rest := ih fun other member => enough other (by simp [member])
      rw [innerCount_cons, leaves_cons, List.length_append, List.length_cons, Nat.mul_add]
      omega

end Forest

namespace WellFormed

variable {bounds : Bounds} {least height : Nat} {sub : Tree K D}

/-! ## Pairs -/

/-- At least so many pairs for every child, when the topmost node is an inner node. -/
private theorem pairs_at_least_of_kids {ptr : Ptr} {keys : List K} {kids : Forest K D} {few : Nat}
    (formed : WellFormed bounds least (height + 1) (.inner ptr keys kids))
    (enough : ∀ kid ∈ kids, few ≤ kid.pairs.length) :
    (least + 1) * few ≤ (Tree.inner ptr keys kids).pairs.length := by
  obtain ⟨used, -, count, -, -⟩ := formed
  have each : ∀ size ∈ kids.map fun kid => kid.pairs.length, few ≤ size := by simpa using enough
  calc (least + 1) * few
      ≤ kids.length * few := Nat.mul_le_mul_right _ (by omega)
    _ ≤ (kids.map fun kid => kid.pairs.length).sum := by
        simpa using List.card_nsmul_le_sum _ _ each
    _ = (Tree.inner ptr keys kids).pairs.length := by rw [Tree.pairs_inner, Forest.length_pairs]

theorem pairs_at_least (formed : WellFormed bounds (bounds.least height) height sub) :
    (bounds.innerMin + 1) ^ height * bounds.leafMin ≤ sub.pairs.length := by
  induction height generalizing sub with
  | zero =>
      obtain ⟨ptr, pairs, rfl⟩ := formed.exists_leaf
      simpa [Bounds.least] using formed.1
  | succ height ih =>
      obtain ⟨ptr, keys, kids, rfl⟩ := formed.exists_inner
      have below := formed.pairs_at_least_of_kids fun kid member => ih (formed.2.2.2.2 kid member)
      rwa [pow_succ', Nat.mul_assoc]

/-- The root has two children or more. -/
theorem root_at_least (formed : WellFormed bounds 1 (height + 1) sub) :
    2 * ((bounds.innerMin + 1) ^ height * bounds.leafMin) ≤ sub.pairs.length := by
  obtain ⟨ptr, keys, kids, rfl⟩ := formed.exists_inner
  exact formed.pairs_at_least_of_kids fun kid member => (formed.2.2.2.2 kid member).pairs_at_least

/-! ## Nodes -/

theorem leaves_at_least (formed : WellFormed bounds (bounds.least height) height sub) :
    bounds.leafMin * sub.leaves.length ≤ sub.pairs.length := by
  induction height generalizing sub with
  | zero =>
      obtain ⟨ptr, pairs, rfl⟩ := formed.exists_leaf
      simpa [Bounds.least] using formed.1
  | succ height ih =>
      obtain ⟨ptr, keys, kids, rfl⟩ := formed.exists_inner
      rw [Tree.pairs_inner, Tree.leaves_inner]
      exact Forest.leaves_at_least fun kid member => ih (formed.2.2.2.2 kid member)

theorem inners_at_least (formed : WellFormed bounds (bounds.least height) height sub) :
    bounds.innerMin * sub.innerCount + 1 ≤ sub.leaves.length := by
  induction height generalizing sub with
  | zero =>
      obtain ⟨ptr, pairs, rfl⟩ := formed.exists_leaf
      simp
  | succ height ih =>
      obtain ⟨ptr, keys, kids, rfl⟩ := formed.exists_inner
      obtain ⟨used, -, count, -, kidsFormed⟩ := formed
      have below := Forest.inners_at_least fun kid member => ih (kidsFormed kid member)
      have enough : bounds.innerMin ≤ keys.length := used
      rw [Tree.innerCount_inner, Tree.leaves_inner, Nat.mul_add]
      omega

/-- The nodes of a tree whose root is an inner node. -/
theorem nodes_at_least (formed : WellFormed bounds least (height + 1) sub) :
    bounds.leafMin * sub.leaves.length ≤ sub.pairs.length ∧
      bounds.innerMin * sub.innerCount + least + 1 ≤ sub.leaves.length + bounds.innerMin := by
  obtain ⟨ptr, keys, kids, rfl⟩ := formed.exists_inner
  obtain ⟨used, -, count, -, kidsFormed⟩ := formed
  have below := Forest.inners_at_least fun kid member => (kidsFormed kid member).inners_at_least
  rw [Tree.pairs_inner, Tree.leaves_inner, Tree.innerCount_inner, Nat.mul_add]
  constructor
  · exact Forest.leaves_at_least fun kid member => (kidsFormed kid member).leaves_at_least
  · omega

end WellFormed

end PersistentBTree.Memory
