import PersistentBTree.Pages.ClientProperties

/-! Where the pages lie in the file. The offset that is mapped for a page, and the size of
the file that `InsertPage` keeps in the header, are values of type `int`. -/

set_option autoImplicit false

namespace PersistentBTree.Pages

/-- The product of two values of type `int`, which wraps around. -/
def intMul (a b : Int) : Int := (BitVec.ofInt 32 a * BitVec.ofInt 32 b).toInt

/-- The sum of two values of type `int`. -/
def intAdd (a b : Int) : Int := (BitVec.ofInt 32 a + BitVec.ofInt 32 b).toInt

/-- `fileParams.offset`, as `GetMemoryPage` computes it. -/
def mappingOffset (n : Int) : Int := intMul n pageSize

/-- The header of a new table to which `InsertPage` has added `count` pages. -/
def headerAfter : (count : Nat) → Header
  | 0 => (Store.created ()).header
  | count + 1 => (headerAfter count).addPage intAdd

/-- The pages lie one behind the other in the file, whose size is recorded. -/
structure LinearAddresses (count : Nat) (header : Header) : Prop where
  counted : header.nPages = count
  linear : ∀ n : Nat, n < count → mappingOffset n = n * pageSize
  nonnegative : ∀ n : Nat, n < count → 0 ≤ mappingOffset n
  apart : ∀ n m : Nat, n < count → m < count → n ≠ m →
    mappingOffset n + pageSize ≤ mappingOffset m ∨ mappingOffset m + pageSize ≤ mappingOffset n
  sized : header.size = count * pageSize
  covers : ∀ n : Nat, n < count → mappingOffset n + pageSize ≤ header.size

/-! ## Arithmetic of `int` -/

theorem intMul_eq (a b : Int) : intMul a b = (a * b).bmod (2 ^ 32) := by
  rw [intMul, ← BitVec.ofInt_mul, BitVec.toInt_ofInt]

theorem intAdd_eq (a b : Int) : intAdd a b = (a + b).bmod (2 ^ 32) := by
  rw [intAdd, ← BitVec.ofInt_add, BitVec.toInt_ofInt]

/-- A natural number is kept when it is at most the largest `int`. -/
theorem bmod_natCast_eq_iff (value : Nat) :
    (value : Int).bmod (2 ^ 32) = value ↔ value ≤ intMax := by
  rw [Int.bmod_def, intMax]
  split <;> omega

/-! ## The header -/

/-- The fields of the header, as they are after any number of pages. -/
theorem headerAfter_eq (count : Nat) :
    (headerAfter count).nPages = (count : Int).bmod (2 ^ 32) ∧
      (headerAfter count).size = ((count * pageSize : Nat) : Int).bmod (2 ^ 32) := by
  induction count with
  | zero => exact ⟨rfl, rfl⟩
  | succ count ih =>
      obtain ⟨pages, size⟩ := ih
      simp only [headerAfter, Header.addPage, intAdd_eq, pages, size, Int.bmod_add_bmod]
      rw [Nat.succ_mul, Nat.cast_add (count * pageSize), Nat.cast_succ]
      exact ⟨rfl, rfl⟩

/-- The offset of a page that ends within the range of `int`. -/
theorem mappingOffset_eq {n count : Nat} (below : n < count) (fits : count * pageSize ≤ intMax) :
    mappingOffset n = n * pageSize := by
  have before : n * pageSize ≤ count * pageSize := Nat.mul_le_mul_right _ (Nat.le_of_lt below)
  have small : ((n * pageSize : Nat) : Int) ≤ intMax := by
    exact le_trans (by exact_mod_cast before) fits
  have kept := (bmod_natCast_eq_iff (n * pageSize)).mpr small
  rw [Nat.cast_mul] at kept
  rw [mappingOffset, intMul_eq, kept]

/-- Where one page begins, all pages before it have ended. -/
theorem end_le {n m : Nat} (below : n < m) : (n * pageSize + pageSize : Int) ≤ m * pageSize := by
  have next : (n + 1) * pageSize ≤ m * pageSize := Nat.mul_le_mul_right _ below
  rw [Nat.succ_mul] at next
  exact_mod_cast next

/-- The pages of a table lie at linear addresses as long as the file is no larger than the
largest `int`. -/
theorem linearAddresses_of_le {count : Nat} {header : Header} (counted : header.nPages = count)
    (sized : header.size = count * pageSize) (fits : count * pageSize ≤ intMax) :
    LinearAddresses count header := by
  constructor
  case counted => exact counted
  case linear => exact fun n below => mappingOffset_eq below fits
  case nonnegative =>
    intro n below
    rw [mappingOffset_eq below fits]
    exact_mod_cast Nat.zero_le (n * pageSize)
  case apart =>
    intro n m belowN belowM differ
    rw [mappingOffset_eq belowN fits, mappingOffset_eq belowM fits]
    exact (Nat.lt_or_gt_of_ne differ).imp end_le end_le
  case sized => exact sized
  case covers =>
    intro n below
    rw [mappingOffset_eq below fits, sized]
    exact end_le below

/-- The pages that `InsertPage` adds lie at linear addresses as long as the size of the file
is an `int`, which it is for less than `2 ^ 19` pages. -/
theorem linearAddresses_iff (count : Nat) :
    LinearAddresses count (headerAfter count) ↔ count < 2 ^ 19 := by
  obtain ⟨pages, size⟩ := headerAfter_eq count
  have fits : count < 2 ^ 19 ↔ ((count * pageSize : Nat) : Int) ≤ intMax := by
    rw [pageSize, intMax]
    omega
  rw [fits, ← bmod_natCast_eq_iff, ← size]
  constructor
  · intro addresses
    rw [addresses.sized, Nat.cast_mul]
  · intro sized
    have small := (bmod_natCast_eq_iff _).mp (size.symm.trans sized)
    rw [Nat.cast_mul] at sized small
    have counted : (headerAfter count).nPages = count := by
      rw [pages, bmod_natCast_eq_iff]
      rw [pageSize] at small
      omega
    exact linearAddresses_of_le counted sized small

/-- With `2 ^ 19` pages the recorded size and the offset of the next page are negative. -/
theorem not_linearAddresses_many :
    (headerAfter (2 ^ 19)).nPages = 2 ^ 19 ∧ (headerAfter (2 ^ 19)).size = -2 ^ 31 ∧
      mappingOffset (2 ^ 19) = -2 ^ 31 ∧ ¬ LinearAddresses (2 ^ 19) (headerAfter (2 ^ 19)) := by
  obtain ⟨pages, size⟩ := headerAfter_eq (2 ^ 19)
  have negative : (headerAfter (2 ^ 19)).size = -2 ^ 31 := size.trans (by decide)
  refine ⟨pages.trans (by decide), negative, by decide, fun addresses => ?_⟩
  have sized := addresses.sized
  rw [negative] at sized
  revert sized
  decide

/-- The manager stops before the size leaves the range of `int`, so its pages lie at linear
addresses in every state of every run. -/
theorem Client.Reachable.linearAddresses {α : Type} {zero : α} {client : Client α}
    (reached : client.Reachable zero) :
    LinearAddresses client.manager.header.nPages.toNat client.manager.header := by
  obtain ⟨healthy, -⟩ := reached.sound
  have counted : client.manager.header.nPages = client.manager.header.nPages.toNat :=
    (Int.toNat_of_nonneg healthy.sound.counted).symm
  have sized := healthy.sound.sized
  rw [counted] at sized
  exact linearAddresses_of_le counted sized (sized ▸ healthy.small)

end PersistentBTree.Pages
