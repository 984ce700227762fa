import PersistentBTree.Imperative.FirstDifference
import PersistentBTree.Queries.HeaderGuarantees
import PersistentBTree.Queries.Strings

/-! String columns are compared with their terminators. That is the order of the texts
unless one of them goes on with a negative character where another one ends. -/

set_option autoImplicit false

namespace PersistentBTree.Queries

open Imperative
open Header (toInt)
open CVariant (compareChars shorter lessString notEqualString)

/-! ## The property -/

/-- String columns in memory, with the texts that they store. -/
abbrev Columns := Set (VariantString × Chars)

/-- The columns are objects that store texts without a zero. -/
def Columns.Stored (memory : Nat → UInt8) (columns : Columns) : Prop :=
  ∀ column ∈ columns, column.1.Holds memory column.2 ∧ 0 ∉ column.2

/-- `operator<` is the strict lexicographic order of the texts, and `operator!=` agrees
with it. -/
structure OrdersStrings (memory : Nat → UInt8) (columns : Columns) : Prop where
  irreflexive : ∀ a ∈ columns, lessString memory a.1 a.1 = false
  transitive : ∀ a ∈ columns, ∀ b ∈ columns, ∀ c ∈ columns,
    lessString memory a.1 b.1 = true → lessString memory b.1 c.1 = true →
      lessString memory a.1 c.1 = true
  total : ∀ a ∈ columns, ∀ b ∈ columns, a.2 ≠ b.2 →
    lessString memory a.1 b.1 = true ∨ lessString memory b.1 a.1 = true
  lexicographic : ∀ a ∈ columns, ∀ b ∈ columns, lessString memory a.1 b.1 = true ↔ a.2 < b.2
  differs : ∀ a ∈ columns, ∀ b ∈ columns, notEqualString memory a.1 b.1 = true ↔ a.2 ≠ b.2
  agrees : ∀ a ∈ columns, ∀ b ∈ columns, notEqualString memory a.1 b.1 = true ↔
    lessString memory a.1 b.1 = true ∨ lessString memory b.1 a.1 = true

/-- The texts differ in a position that the loops reach, counting the terminators, and none
goes on with a negative character where the other one ends. -/
structure Distinguished (first second : Chars) : Prop where
  reached : ∃ i : Nat, (first ++ [0])[i]? ≠ (second ++ [0])[i]? ∧
    i < toInt (first.length + 1) ∧ i < toInt (second.length + 1)
  continued : ∀ char, first ++ [char] <+: second ∨ second ++ [char] <+: first → 0 < char

/-! ## The loop -/

section Loop

variable {memory : Nat → UInt8} {lhs rhs : VariantString} {first second common : Chars}
  {x y : Int8} {decided : Int8 → Int8 → Bool}

theorem charAt_eq (holds : lhs.Holds memory first) {before : Chars}
    (begins : before <+: first ++ [0]) {i : Nat} (inside : i < before.length) :
    lhs.charAt memory i = before[i] :=
  holds.chars i before[i] (List.prefix_iff_getElem?.mp begins i inside)

/-- The loop stops in the position of the first difference, if it reaches it. -/
theorem compareChars_eq (holdsLeft : lhs.Holds memory first) (holdsRight : rhs.Holds memory second)
    (differs : FirstDifference 0 first second common x y) (differ : x ≠ y) {rounds i : Nat}
    (before : i ≤ common.length) :
    compareChars memory decided lhs rhs rounds i =
      if common.length < i + rounds then some (decided x y) else none := by
  induction rounds generalizing i with
  | zero => rw [compareChars, Nat.add_zero, if_neg (Nat.not_lt_of_ge before)]
  | succ rounds ih =>
      have left := @charAt_eq _ _ _ holdsLeft _ differs.left_prefix i (by simp; omega)
      have right := @charAt_eq _ _ _ holdsRight _ differs.right_prefix i (by simp; omega)
      rw [compareChars, left, right]
      cases Nat.lt_or_eq_of_le before with
      | inl earlier =>
          rw [List.getElem_append_left earlier, List.getElem_append_left earlier,
            if_neg (fun different => different rfl), ih earlier, Nat.succ_add_eq_add_succ]
      | inr here =>
          subst here
          simp only [List.getElem_concat_length, ne_eq, differ, not_false_eq_true, if_true]
          rw [if_pos (Nat.lt_add_of_pos_right (Nat.succ_pos _))]

theorem compareChars_same (holdsLeft : lhs.Holds memory first) (holdsRight : rhs.Holds memory first)
    {rounds i : Nat} (inside : i + rounds ≤ first.length + 1) :
    compareChars memory decided lhs rhs rounds i = none := by
  induction rounds generalizing i with
  | zero => rfl
  | succ rounds ih =>
      have left := @charAt_eq _ _ _ holdsLeft _ List.prefix_rfl i (by simp; omega)
      have right := @charAt_eq _ _ _ holdsRight _ List.prefix_rfl i (by simp; omega)
      rw [compareChars, left, right, if_neg (fun different => different rfl)]
      exact ih (by omega)

theorem toInt_natCast_le (n : Nat) : toInt n ≤ n := by
  rw [Header.toInt_eq]
  split <;> omega

theorem shorter_le (lhs rhs : VariantString) : (shorter lhs rhs).toNat ≤ lhs.n := by
  have le := toInt_natCast_le lhs.n
  rw [shorter]
  omega

theorem same_texts (holdsLeft : lhs.Holds memory first) (holdsRight : rhs.Holds memory first) :
    lessString memory lhs rhs = false ∧ notEqualString memory lhs rhs = false := by
  have inside : 0 + (shorter lhs rhs).toNat ≤ first.length + 1 := by
    rw [Nat.zero_add, ← holdsLeft.size]
    exact shorter_le lhs rhs
  have sizes : lhs.n = rhs.n := holdsLeft.size.trans holdsRight.size.symm
  rw [lessString, notEqualString, compareChars_same holdsLeft holdsRight inside,
    compareChars_same holdsLeft holdsRight inside, sizes]
  exact ⟨decide_eq_false (Nat.lt_irrefl _), rfl⟩

/-- The first difference is reached. -/
def Reaches (first second common : Chars) : Prop :=
  common.length < toInt (first.length + 1) ∧ common.length < toInt (second.length + 1)

theorem lt_shorter_iff (holdsLeft : lhs.Holds memory first) (holdsRight : rhs.Holds memory second) :
    common.length < 0 + (shorter lhs rhs).toNat ↔ Reaches first second common := by
  rw [Reaches, shorter, holdsLeft.size, holdsRight.size]
  push_cast
  omega

theorem notEqualString_iff (holdsLeft : lhs.Holds memory first)
    (holdsRight : rhs.Holds memory second) (differs : FirstDifference 0 first second common x y)
    (differ : x ≠ y) : notEqualString memory lhs rhs = true ↔ Reaches first second common := by
  rw [notEqualString, compareChars_eq holdsLeft holdsRight differs differ (Nat.zero_le _),
    ← lt_shorter_iff holdsLeft holdsRight]
  by_cases reached : common.length < 0 + (shorter lhs rhs).toNat
  · rw [if_pos reached]
    exact iff_of_true rfl reached
  · rw [if_neg reached]
    exact iff_of_false nofun reached

theorem lessString_iff (holdsLeft : lhs.Holds memory first)
    (holdsRight : rhs.Holds memory second) (differs : FirstDifference 0 first second common x y)
    (differ : x ≠ y) (reaches : Reaches first second common) :
    lessString memory lhs rhs = true ↔ x < y := by
  rw [lessString, compareChars_eq holdsLeft holdsRight differs differ (Nat.zero_le _),
    if_pos ((lt_shorter_iff holdsLeft holdsRight).mpr reaches)]
  exact decide_eq_true_iff

end Loop

/-! ## The order of the columns -/

section Order

variable {memory : Nat → UInt8} {lhs rhs : VariantString} {first second common : Chars}
  {x y : Int8}

/-- The loops reach the first difference when they reach any. -/
theorem reaches_iff (differs : FirstDifference 0 first second common x y) (differ : x ≠ y) :
    Reaches first second common ↔
      ∃ i : Nat, (first ++ [0])[i]? ≠ (second ++ [0])[i]? ∧
        i < toInt (first.length + 1) ∧ i < toInt (second.length + 1) := by
  have left := List.prefix_iff_getElem?.mp differs.left_prefix
  have right := List.prefix_iff_getElem?.mp differs.right_prefix
  constructor
  · intro reaches
    refine ⟨common.length, ?_, reaches⟩
    rw [left common.length (by simp), right common.length (by simp)]
    simpa using differ
  · intro ⟨i, different, inFirst, inSecond⟩
    have late : common.length ≤ i := by
      by_contra early
      have within : i < common.length := Nat.lt_of_not_le early
      apply different
      rw [left i (by simp; omega), right i (by simp; omega), List.getElem_append_left within,
        List.getElem_append_left within]
    exact ⟨by omega, by omega⟩

/-- Two different texts are compared right exactly when they are distinguished. -/
theorem distinguished_iff (holdsLeft : lhs.Holds memory first) (holdsRight : rhs.Holds memory second)
    (notFirst : 0 ∉ first) (notSecond : 0 ∉ second) (different : first ≠ second) :
    (notEqualString memory lhs rhs = true ∧ (lessString memory lhs rhs = true ↔ first < second)) ↔
      Distinguished first second := by
  obtain ⟨common, x, y, differs⟩ := FirstDifference.exists_of_ne 0 different
  have differ := differs.ne notFirst notSecond
  rw [notEqualString_iff holdsLeft holdsRight differs differ]
  constructor
  · intro ⟨reaches, order⟩
    rw [lessString_iff holdsLeft holdsRight differs differ reaches,
      differs.lt_iff notFirst notSecond] at order
    exact ⟨(reaches_iff differs differ).mp reaches, order⟩
  · intro ⟨reached, continued⟩
    have reaches := (reaches_iff differs differ).mpr reached
    rw [lessString_iff holdsLeft holdsRight differs differ reaches,
      differs.lt_iff notFirst notSecond]
    exact ⟨reaches, continued⟩

end Order

/-- Any columns are ordered by their texts exactly when two of them that differ are always
distinguished. -/
theorem ordersStrings_iff {memory : Nat → UInt8} {columns : Columns}
    (stored : columns.Stored memory) : OrdersStrings memory columns ↔
      ∀ a ∈ columns, ∀ b ∈ columns, a.2 ≠ b.2 → Distinguished a.2 b.2 := by
  constructor
  · intro orders a inA b inB different
    obtain ⟨holdsA, notA⟩ := stored a inA
    obtain ⟨holdsB, notB⟩ := stored b inB
    exact (distinguished_iff holdsA holdsB notA notB different).mp
      ⟨(orders.differs a inA b inB).mpr different, orders.lexicographic a inA b inB⟩
  · intro distinguished
    have compared : ∀ a ∈ columns, ∀ b ∈ columns,
        (notEqualString memory a.1 b.1 = true ↔ a.2 ≠ b.2) ∧
          (lessString memory a.1 b.1 = true ↔ a.2 < b.2) := by
      intro a inA b inB
      obtain ⟨holdsA, notA⟩ := stored a inA
      obtain ⟨holdsB, notB⟩ := stored b inB
      by_cases same : a.2 = b.2
      · obtain ⟨notLess, equal⟩ := same_texts holdsA (same ▸ holdsB)
        rw [notLess, equal, same]
        exact ⟨iff_of_false nofun fun differ => differ rfl,
          iff_of_false nofun (List.lt_irrefl b.2)⟩
      · have both := (distinguished_iff holdsA holdsB notA notB same).mpr
          (distinguished a inA b inB same)
        exact ⟨iff_of_true both.1 same, both.2⟩
    have trichotomy : ∀ a ∈ columns, ∀ b ∈ columns, a.2 ≠ b.2 →
        lessString memory a.1 b.1 = true ∨ lessString memory b.1 a.1 = true := by
      intro a inA b inB different
      rw [(compared a inA b inB).2, (compared b inB a inA).2, or_iff_not_imp_left, List.not_lt,
        List.le_iff_lt_or_eq]
      exact fun either => either.resolve_right fun same => different same.symm
    constructor
    case irreflexive =>
      intro a inA
      rw [← Bool.not_eq_true, (compared a inA a inA).2]
      exact List.lt_irrefl a.2
    case transitive =>
      intro a inA b inB c inC
      rw [(compared a inA b inB).2, (compared b inB c inC).2, (compared a inA c inC).2]
      exact List.lt_trans
    case total => exact trichotomy
    case lexicographic => exact fun a inA b inB => (compared a inA b inB).2
    case differs => exact fun a inA b inB => (compared a inA b inB).1
    case agrees =>
      intro a inA b inB
      rw [(compared a inA b inB).1]
      refine ⟨trichotomy a inA b inB, ?_⟩
      rw [(compared a inA b inB).2, (compared b inB a inA).2]
      intro either same
      rw [same] at either
      exact either.elim (List.lt_irrefl b.2) (List.lt_irrefl b.2)

/-- Texts are distinguished when their sizes are values of type `int` and their characters
are those of ASCII. -/
theorem distinguished_of_ascii {first second : Chars} (different : first ≠ second)
    (shortFirst : first.length < intMax) (shortSecond : second.length < intMax)
    (ascii : ∀ char ∈ first ++ second, 0 < char) : Distinguished first second := by
  have inFirst : ∀ char ∈ first, 0 < char := fun char among =>
    ascii char (List.mem_append_left _ among)
  have inSecond : ∀ char ∈ second, 0 < char := fun char among =>
    ascii char (List.mem_append_right _ among)
  obtain ⟨common, x, y, differs⟩ := FirstDifference.exists_of_ne 0 different
  have differ := differs.ne (fun inside => Int8.lt_irrefl (inFirst 0 inside))
    fun inside => Int8.lt_irrefl (inSecond 0 inside)
  have left := differs.left_prefix.length_le
  have right := differs.right_prefix.length_le
  simp only [List.length_append, List.length_singleton] at left right
  rw [intMax] at shortFirst shortSecond
  constructor
  case reached =>
    rw [← reaches_iff differs differ, Reaches, Header.toInt_eq, Header.toInt_eq]
    omega
  case continued =>
    intro char either
    cases either with
    | inl begins => exact inSecond char (begins.mem (by simp))
    | inr begins => exact inFirst char (begins.mem (by simp))

/-! ## Two columns -/

/-- The bytes from the address 0 on. -/
def memoryOf (bytes : List UInt8) : Nat → UInt8 := fun address => bytes.getD address 0

theorem holds_of_forall {memory : Nat → UInt8} {string : VariantString} {text : Chars}
    (size : string.n = text.length + 1)
    (chars : ∀ i < string.n, string.charAt memory i = (text ++ [0]).getD i 0) :
    string.Holds memory text where
  size := size
  chars i char found := by
    have inside : i < string.n := by
      rw [size, ← List.length_singleton, ← List.length_append]
      exact (List.getElem?_eq_some_iff.mp found).1
    rw [chars i inside, List.getD_eq_getElem?_getD, found, Option.getD_some]

theorem ordersStrings_ascii :
    OrdersStrings (memoryOf [97, 0, 0, 97, 98, 0, 0]) {(⟨2, 0⟩, [97]), (⟨3, 3⟩, [97, 98])} := by
  apply (ordersStrings_iff ?_).mpr
  · intro a inA b inB different
    simp only [Set.mem_insert_iff, Set.mem_singleton_iff] at inA inB
    rcases inA with rfl | rfl
    · rcases inB with rfl | rfl
      · exact absurd rfl different
      · exact distinguished_of_ascii different (by decide) (by decide) (by simp)
    · rcases inB with rfl | rfl
      · exact distinguished_of_ascii different (by decide) (by decide) (by simp)
      · exact absurd rfl different
  · intro column among
    simp only [Set.mem_insert_iff, Set.mem_singleton_iff] at among
    rcases among with rfl | rfl
    · exact ⟨holds_of_forall rfl (by decide), by decide⟩
    · exact ⟨holds_of_forall rfl (by decide), by decide⟩

/-- A text that goes on with the character `-128` is smaller than the text before it. -/
theorem not_ordersStrings_negative :
    Columns.Stored (memoryOf [97, 0, 0, 97, 128, 0, 0]) {(⟨2, 0⟩, [97]), (⟨3, 3⟩, [97, -128])} ∧
      ¬ OrdersStrings (memoryOf [97, 0, 0, 97, 128, 0, 0])
        {(⟨2, 0⟩, [97]), (⟨3, 3⟩, [97, -128])} := by
  constructor
  · intro column among
    simp only [Set.mem_insert_iff, Set.mem_singleton_iff] at among
    cases among with
    | inl first =>
        subst first
        exact ⟨holds_of_forall rfl (by decide), by decide⟩
    | inr second =>
        subst second
        exact ⟨holds_of_forall rfl (by decide), by decide⟩
  · intro orders
    have less := (orders.lexicographic _ (Set.mem_insert ..) _
      (Set.mem_insert_of_mem _ rfl)).mpr (by decide)
    revert less
    decide

end PersistentBTree.Queries
