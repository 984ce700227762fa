import PersistentBTree.Imperative.Runs
import PersistentBTree.Queries.Header

/-! What `Create` writes to a header and `Open` reads from it. The structures
survive when each has at most 64 columns and the sizes can be added up as an
`int`. -/

set_option autoImplicit false

namespace PersistentBTree.Queries.Header

open Imperative

/-! ## Conversions -/

theorem toInt_eq (value : Int) :
    toInt value =
      if value % 2 ^ 32 < 2 ^ 31 then value % 2 ^ 32 else value % 2 ^ 32 - 2 ^ 32 := by
  rw [toInt, BitVec.toInt_ofInt, Int.bmod_def]
  rfl

/-- The conversion to `size_t` in between is not seen. -/
theorem toInt_toSize_add (total : Int) (size : Nat) :
    toInt (toSize (toInt total) + size) = toInt (total + size) := by
  simp only [toInt_eq, toSize]
  split <;> omega

theorem toInt_bounds (value : Int) : -2 ^ 31 ≤ toInt value ∧ toInt value ≤ intMax := by
  simp only [toInt_eq, intMax]
  split <;> omega

/-- The numbers that are the same after a conversion to `int`, when they are read as
`size_t`. -/
def IntSize (size : Nat) : Prop := size < 2 ^ 31 ∨ 2 ^ 64 - 2 ^ 31 ≤ size ∧ size < 2 ^ 64

theorem toSize_toInt_iff (size : Nat) : toSize (toInt size) = size ↔ IntSize size := by
  simp only [toInt_eq, toSize, IntSize]
  split <;> omega

/-! ## The arrays -/

theorem assign_of_lt {α : Type} {array : Vector α 64} {i : Nat} (within : i < 64) (value : α) :
    assign array i value = .ok (array.set i value) := dif_pos within

theorem assign_of_ge {α : Type} {array : Vector α 64} {i : Nat} (beyond : 64 ≤ i) (value : α) :
    assign array i value = .error .outOfBounds := dif_neg (Nat.not_lt.mpr beyond)

theorem take_set {α : Type} {array : Vector α 64} {i : Nat} (within : i < 64) (value : α) :
    (array.set i value).toList.take (i + 1) = array.toList.take i ++ [value] := by
  rw [Vector.toList_set, List.take_succ_eq_append_getElem (by simpa using within),
    List.take_set_of_le (Nat.le_refl i), List.getElem_set_self]

/-- The arrays begin with these columns. -/
structure Filled (columns : List Column) (arrays : Arrays) : Prop where
  types : arrays.types.toList.take columns.length = columns.map (codeOf ∘ Column.type)
  sizes : arrays.sizes.toList.take columns.length = columns.map Column.size
  total : arrays.total = toInt ((columns.map Column.size).sum : Nat)

theorem Filled.push {columns : List Column} {arrays : Arrays} (filled : Filled columns arrays)
    (room : columns.length < 64) (column : Column) :
    Filled (columns ++ [column])
      ⟨arrays.types.set columns.length (codeOf column.type),
        arrays.sizes.set columns.length column.size,
        toInt (toSize arrays.total + column.size)⟩ where
  types := by
    rw [List.length_append, List.length_singleton, take_set room, filled.types, List.map_append]
    rfl
  sizes := by
    rw [List.length_append, List.length_singleton, take_set room, filled.sizes, List.map_append]
    rfl
  total := by
    rw [filled.total, toInt_toSize_add, List.map_append, List.sum_append]
    simp

/-- The loop stays within the arrays when all columns have room. -/
theorem fill_ok {front columns : List Column} {arrays : Arrays} (filled : Filled front arrays)
    (room : front.length + columns.length ≤ 64) :
    ∃ result, fill front.length columns arrays = .ok result ∧
      Filled (front ++ columns) result := by
  induction columns generalizing front arrays with
  | nil => exact ⟨arrays, rfl, by simpa using filled⟩
  | cons column rest ih =>
      rw [List.length_cons] at room
      have within : front.length < 64 := by omega
      obtain ⟨result, ran, ends⟩ :=
        ih (filled.push within column) (by simp only [List.length_append, List.length_singleton]; omega)
      refine ⟨result, ?_, by simpa using ends⟩
      rw [List.length_append, List.length_singleton] at ran
      rw [fill, assign_of_lt within, assign_of_lt within]
      exact ran

theorem fill_error {columns : List Column} (i : Nat) (arrays : Arrays)
    (start : i ≤ 64) (beyond : 64 < i + columns.length) :
    fill i columns arrays = .error .outOfBounds := by
  induction columns generalizing i arrays with
  | nil =>
      rw [List.length_nil] at beyond
      omega
  | cons column rest ih =>
      rw [List.length_cons] at beyond
      by_cases within : i < 64
      · rw [fill, assign_of_lt within, assign_of_lt within]
        exact ih (i + 1) _ within (by omega)
      · rw [fill, assign_of_ge (Nat.not_lt.mp within)]
        rfl

theorem typeOfCode_codeOf (type : DataTypes) : typeOfCode (codeOf type) = some type := by
  cases type with
  | integer type => cases type <;> rfl
  | double => rfl
  | string => rfl
  | ntypes => rfl

theorem mapM_typeOfCode (columns : List Column) :
    (columns.map (codeOf ∘ Column.type)).mapM typeOfCode = some (columns.map Column.type) := by
  induction columns with
  | nil => rfl
  | cons column rest ih =>
      rw [List.map_cons, List.mapM_cons, ih, Function.comp_apply, typeOfCode_codeOf]
      rfl

/-- What was written to the arrays is read from them. -/
theorem structureOf_filled {structure_ : DataStructure} {arrays : Arrays}
    (filled : Filled structure_.columns arrays) (few : structure_.columns.length ≤ 64) :
    structureOf structure_.columns.length arrays.types arrays.sizes = .ok structure_ := by
  have natural : ¬ (structure_.columns.length : Int) < 0 := by omega
  have inside : ¬ 64 < (structure_.columns.length : Int) := by omega
  have columns : List.zipWith Column.mk (structure_.columns.map Column.type)
      (structure_.columns.map Column.size) = structure_.columns := by
    rw [List.zipWith_map, List.zipWith_self, List.map_id']
  rw [structureOf, if_neg natural, if_neg inside]
  simp only [Int.toNat_natCast, filled.types, filled.sizes, mapM_typeOfCode, columns]
  rfl

/-! ## `InitHeader` -/

/-- The sum of the sizes of the columns. -/
def sizeSum (structure_ : DataStructure) : Nat := (structure_.columns.map Column.size).sum

/-- The size of a slot, added up as an `int`. -/
def slotSize (keyStruct dataStruct : DataStructure) : Int :=
  toInt (sizeSum keyStruct) + max (toInt (sizeSum dataStruct)) Pages.sizeofInt

/-- The number of slots can be computed. -/
def SlotFits (keyStruct dataStruct : DataStructure) : Prop :=
  slotSize keyStruct dataStruct ≠ 0 ∧ slotSize keyStruct dataStruct ≤ intMax

/-- A header as `InitHeader` leaves it: no pages, and the two structures. -/
structure Describes (keyStruct dataStruct : DataStructure) (limit : Int)
    (header : MemoryHeader) : Prop where
  init : header.init = true
  nPages : header.nPages = 0
  usedPages : header.usedPages = 0
  size : header.size = 0
  rootPage : header.rootPage = -1
  headLeaf : header.headLeaf = -1
  tailLeaf : header.tailLeaf = -1
  nKeyTypes : header.nKeyTypes = keyStruct.columns.length
  nDataTypes : header.nDataTypes = dataStruct.columns.length
  keys : Filled keyStruct.columns ⟨header.keyType, header.keySizes, header.keySize⟩
  datas : Filled dataStruct.columns ⟨header.dataType, header.dataSizes, header.dataSize⟩
  memPageSize : header.memPageSize = toSize limit
  nSlots : slotCount limit header.keySize header.dataSize = .ok header.nSlots

theorem slotCount_ok {keyStruct dataStruct : DataStructure} (fits : SlotFits keyStruct dataStruct)
    (limit : Int) :
    ∃ nSlots, slotCount limit (toInt (sizeSum keyStruct)) (toInt (sizeSum dataStruct)) =
      .ok nSlots := by
  have lower := toInt_bounds (sizeSum keyStruct)
  have inRange : ¬ (slotSize keyStruct dataStruct < -2 ^ 31 ∨
      (intMax : Int) < slotSize keyStruct dataStruct) := by
    have upper := fits.2
    unfold slotSize Pages.sizeofInt at upper ⊢
    omega
  exact ⟨_, (if_neg inRange).trans (if_neg fits.1)⟩

theorem slotCount_error {keyStruct dataStruct : DataStructure}
    (misfit : ¬ SlotFits keyStruct dataStruct) (limit : Int) :
    ∃ fault, slotCount limit (toInt (sizeSum keyStruct)) (toInt (sizeSum dataStruct)) =
      .error fault := by
  by_cases range : slotSize keyStruct dataStruct < -2 ^ 31 ∨
      (intMax : Int) < slotSize keyStruct dataStruct
  · exact ⟨.overflow, if_pos range⟩
  · have zero : slotSize keyStruct dataStruct = 0 := by
      by_contra nonzero
      exact misfit ⟨nonzero, Int.not_lt.mp fun beyondRange => range (.inr beyondRange)⟩
    exact ⟨.divisionByZero, (if_neg range).trans (if_pos zero)⟩

theorem toInt_of_le {size : Nat} (small : size ≤ intMax) : toInt size = size := by
  unfold intMax at small
  rw [toInt_eq]
  split <;> omega

/-- For sizes that are values of type `int`, this is the number of slots of a page. -/
theorem Describes.nSlots_eq {keyStruct dataStruct : DataStructure} {header : MemoryHeader}
    (describes : Describes keyStruct dataStruct Pages.limit header)
    (small : sizeSum keyStruct + max (sizeSum dataStruct) Pages.sizeofInt ≤ intMax) :
    header.nSlots = Pages.nSlots (sizeSum keyStruct) (sizeSum dataStruct) := by
  have keySmall : sizeSum keyStruct ≤ intMax := by omega
  have dataSmall : sizeSum dataStruct ≤ intMax := by omega
  have keyTotal : header.keySize = sizeSum keyStruct :=
    describes.keys.total.trans (toInt_of_le keySmall)
  have dataTotal : header.dataSize = sizeSum dataStruct :=
    describes.datas.total.trans (toInt_of_le dataSmall)
  have slot : (sizeSum keyStruct : Int) + max (sizeSum dataStruct : Int) Pages.sizeofInt =
      (sizeSum keyStruct + max (sizeSum dataStruct) Pages.sizeofInt : Nat) := by omega
  have positive : 0 < sizeSum keyStruct + max (sizeSum dataStruct) Pages.sizeofInt := by
    unfold Pages.sizeofInt
    omega
  have counted := describes.nSlots
  rw [slotCount, keyTotal, dataTotal] at counted
  simp only [slot] at counted
  rw [Pages.nSlots]
  generalize sizeSum keyStruct + max (sizeSum dataStruct) Pages.sizeofInt = size at *
  have natural : ¬ ((size : Int) < -2 ^ 31 ∨ (intMax : Int) < size) := by omega
  have wide : toSize size = size := by
    unfold toSize intMax at *
    omega
  have bytes : toSize (Pages.limit - Pages.sizeofMemoryPage) =
      Pages.limit - Pages.sizeofMemoryPage := by decide
  have few : (Pages.limit - Pages.sizeofMemoryPage) / size ≤ intMax :=
    (Nat.div_le_self ..).trans (by decide)
  rw [if_neg natural, if_neg (by omega), wide, bytes, toInt_of_le few] at counted
  exact (Except.ok.inj counted).symm

/-- Also for sums that are no values of type `int`, no negative number of slots is recorded. -/
theorem Describes.nSlots_nonneg {keyStruct dataStruct : DataStructure} {header : MemoryHeader}
    (describes : Describes keyStruct dataStruct Pages.limit header) : 0 ≤ header.nSlots := by
  have counted := describes.nSlots
  unfold slotCount at counted
  dsimp only at counted
  split at counted
  · cases counted
  · split at counted
    · cases counted
    · have same := Except.ok.inj counted
      rw [← same, toInt_of_le]
      · exact Int.natCast_nonneg _
      · have bytes : toSize (Pages.limit - Pages.sizeofMemoryPage) =
            Pages.limit - Pages.sizeofMemoryPage := by decide
        rw [bytes]
        exact (Nat.div_le_self ..).trans (by decide)

/-- The arrays fit a page only if there is no slot, also where the sizes have been added up to
other values of type `int`. -/
theorem Describes.fitsSlots_iff {keyStruct dataStruct : DataStructure} {header : MemoryHeader}
    (describes : Describes keyStruct dataStruct Pages.limit header) :
    Pages.FitsSlots header.nSlots.toNat (sizeSum keyStruct) (sizeSum dataStruct) ↔
      header.nSlots = 0 := by
  have natural := describes.nSlots_nonneg
  constructor
  · intro fits
    by_contra some_
    have positive : 0 < header.nSlots.toNat := by omega
    have small := fits.size_le positive
    have inInt : sizeSum keyStruct + max (sizeSum dataStruct) Pages.sizeofInt ≤ intMax :=
      small.trans (by decide)
    have recorded : header.nSlots.toNat = Pages.nSlots (sizeSum keyStruct) (sizeSum dataStruct) := by
      rw [describes.nSlots_eq inInt, Int.toNat_natCast]
    rw [recorded] at fits positive
    exact absurd (Pages.FitsPage.nSlots_eq_zero fits) positive.ne'
  · intro none_
    rw [none_]
    exact Pages.fitsSlots_zero _ _

/-- What `InitHeader` asks for. -/
structure Accepted (keyStruct dataStruct : DataStructure) (header : MemoryHeader) : Prop where
  fresh : header.init = false
  keyCount : keyStruct.columns.length ≤ 64
  dataCount : dataStruct.columns.length ≤ 64
  slot : SlotFits keyStruct dataStruct

theorem filled_nil (types : Vector Int 64) (sizes : Vector Nat 64) :
    Filled [] ⟨types, sizes, 0⟩ := ⟨by simp, by simp, rfl⟩

theorem initHeader_ok {keyStruct dataStruct : DataStructure} {header : MemoryHeader}
    (accepted : Accepted keyStruct dataStruct header) (limit : Int) :
    ∃ written, initHeader keyStruct dataStruct limit header = .ok written ∧
      Describes keyStruct dataStruct limit written := by
  obtain ⟨keys, keysRan, keysFilled⟩ := fill_ok (filled_nil header.keyType header.keySizes)
    (by simpa using accepted.keyCount)
  obtain ⟨datas, datasRan, datasFilled⟩ := fill_ok (filled_nil header.dataType header.dataSizes)
    (by simpa using accepted.dataCount)
  obtain ⟨nSlots, counted⟩ := slotCount_ok accepted.slot limit
  rw [List.length_nil] at keysRan datasRan
  rw [List.nil_append] at keysFilled datasFilled
  unfold sizeSum at counted
  rw [← keysFilled.total, ← datasFilled.total] at counted
  apply Exists.intro
  apply And.intro
  · rw [initHeader, accepted.fresh, if_neg (by decide), keysRan]
    simp only [bind, Except.bind, datasRan, counted]
    rfl
  · exact ⟨rfl, rfl, rfl, rfl, rfl, rfl, rfl, rfl, rfl, keysFilled, datasFilled, rfl, counted⟩

theorem initHeader_error {keyStruct dataStruct : DataStructure} {header : MemoryHeader}
    (refused : ¬ Accepted keyStruct dataStruct header) (limit : Int) :
    ∃ fault, initHeader keyStruct dataStruct limit header = .error fault := by
  by_cases fresh : header.init = false
  · by_cases keyCount : keyStruct.columns.length ≤ 64
    · obtain ⟨keys, keysRan, keysFilled⟩ := fill_ok (filled_nil header.keyType header.keySizes)
        (by simpa using keyCount)
      by_cases dataCount : dataStruct.columns.length ≤ 64
      · obtain ⟨datas, datasRan, datasFilled⟩ :=
          fill_ok (filled_nil header.dataType header.dataSizes) (by simpa using dataCount)
        obtain ⟨fault, stopped⟩ :=
          slotCount_error (fun slot => refused ⟨fresh, keyCount, dataCount, slot⟩) limit
        rw [List.length_nil] at keysRan datasRan
        rw [List.nil_append] at keysFilled datasFilled
        unfold sizeSum at stopped
        rw [← keysFilled.total, ← datasFilled.total] at stopped
        refine ⟨fault, ?_⟩
        rw [initHeader, fresh, if_neg (by decide), keysRan]
        simp only [bind, Except.bind, datasRan, stopped]
      · refine ⟨.outOfBounds, ?_⟩
        rw [List.length_nil] at keysRan
        rw [initHeader, fresh, if_neg (by decide), keysRan]
        simp only [bind, Except.bind]
        rw [fill_error 0 _ (by omega) (by omega)]
    · refine ⟨.outOfBounds, ?_⟩
      rw [initHeader, fresh, if_neg (by decide), fill_error 0 _ (by omega) (by omega)]
      rfl
  · refine ⟨.assertion, ?_⟩
    rw [initHeader, if_pos (Bool.eq_true_of_not_eq_false fresh)]
    rfl

/-! ## `Create` and `Open` -/

section Files

variable (isInit : Text → Nat → Bool)

/-- A header that `InitHeader` wrote is read as the structures it was made of. -/
theorem init_ok {keyStruct dataStruct : DataStructure} {limit : Int} {header : MemoryHeader}
    (describes : Describes keyStruct dataStruct limit header)
    (keyCount : keyStruct.columns.length ≤ 64) (dataCount : dataStruct.columns.length ≤ 64)
    (name : Text) :
    init isInit name header = .ok ⟨header, keyStruct, dataStruct, []⟩ := by
  have noPages : initUsedPages isInit name header = [] := by
    rw [initUsedPages, describes.nPages]
    rfl
  have keys := structureOf_filled describes.keys keyCount
  have datas := structureOf_filled describes.datas dataCount
  rw [init, describes.nKeyTypes, describes.nDataTypes, noPages, keys, datas]
  rfl

/-- An open table whose header says what the table was created with. -/
structure Survived (keyStruct dataStruct : DataStructure) (manager : Manager) : Prop where
  keyType : manager.keyType = keyStruct
  dataType : manager.dataType = dataStruct
  keySize : manager.keySize = sizeSum keyStruct
  dataSize : manager.dataSize = sizeSum dataStruct
  header : Describes keyStruct dataStruct Pages.limit manager.header

/-- `Create` and then `Open` give the structures of the table and the sums of their
sizes, and every access stays within an array of the header. -/
def MetadataSurvives (files : Files) (name : Text) (keyStruct dataStruct : DataStructure) : Prop :=
  Runs (do create name keyStruct dataStruct; openTable isInit name) files fun opened _ =>
    ∃ manager, opened = some manager ∧ Survived keyStruct dataStruct manager

theorem create_runsIf (files : Files) (name : Text) (keyStruct dataStruct : DataStructure) :
    RunsIf (Accepted keyStruct dataStruct ((files name).getD .zero))
      (create name keyStruct dataStruct) files fun _ final =>
        ∃ header, final name = some header ∧
          Describes keyStruct dataStruct Pages.limit header := by
  by_cases accepted : Accepted keyStruct dataStruct ((files name).getD .zero)
  · obtain ⟨header, written, describes⟩ := initHeader_ok accepted Pages.limit
    apply RunsIf.of_runs _ accepted
    rw [create, runs_bind, runs_get, runs_bind, runs_liftM]
    exact ⟨header, written, (runs_set ..).mpr ⟨header, Function.update_self .., describes⟩⟩
  · obtain ⟨fault, stopped⟩ := initHeader_error accepted Pages.limit
    refine .inr ⟨accepted, ?_⟩
    exact Runs.faults_bind ((runs_get ..).mpr (faults_liftM stopped files).bind)

theorem openTable_runs {files : Files} {name : Text} {header : MemoryHeader}
    {keyStruct dataStruct : DataStructure} (found : files name = some header)
    (describes : Describes keyStruct dataStruct Pages.limit header)
    (keyCount : keyStruct.columns.length ≤ 64) (dataCount : dataStruct.columns.length ≤ 64) :
    Runs (openTable isInit name) files fun opened _ =>
      opened = some ⟨header, keyStruct, dataStruct, []⟩ := by
  rw [openTable, runs_bind, runs_get, found]
  simp [init_ok isInit describes keyCount dataCount name]

/-- When the header of a table is enough for its structures. The sums of the sizes
are values of type `int`, and so is the size of a slot. -/
structure Representable (files : Files) (name : Text) (keyStruct dataStruct : DataStructure) :
    Prop where
  fresh : ∀ header, files name = some header → header.init = false
  keyCount : keyStruct.columns.length ≤ 64
  dataCount : dataStruct.columns.length ≤ 64
  keySize : IntSize (sizeSum keyStruct)
  dataSize : IntSize (sizeSum dataStruct)
  slot : SlotFits keyStruct dataStruct

theorem getD_fresh_iff (files : Files) (name : Text) :
    ((files name).getD .zero).init = false ↔
      ∀ header, files name = some header → header.init = false := by
  cases files name with
  | none => simp [MemoryHeader.zero]
  | some header => simp

/-- The metadata of a table survives exactly when the header has room for it. -/
theorem metadataSurvives_iff (files : Files) (name : Text)
    (keyStruct dataStruct : DataStructure) :
    MetadataSurvives isInit files name keyStruct dataStruct ↔
      Representable files name keyStruct dataStruct := by
  have sizes : ∀ header, Describes keyStruct dataStruct Pages.limit header →
      (Survived keyStruct dataStruct ⟨header, keyStruct, dataStruct, []⟩ ↔
        IntSize (sizeSum keyStruct) ∧ IntSize (sizeSum dataStruct)) := by
    intro header describes
    have keyTotal : header.keySize = toInt (sizeSum keyStruct) := describes.keys.total
    have dataTotal : header.dataSize = toInt (sizeSum dataStruct) := describes.datas.total
    rw [← toSize_toInt_iff, ← toSize_toInt_iff, ← keyTotal, ← dataTotal]
    exact ⟨fun survived => ⟨survived.keySize, survived.dataSize⟩,
      fun same => ⟨rfl, rfl, same.1, same.2, describes⟩⟩
  have outcome : RunsIf (Accepted keyStruct dataStruct ((files name).getD .zero))
      (do create name keyStruct dataStruct; openTable isInit name) files fun opened _ =>
        ∃ header, opened = some ⟨header, keyStruct, dataStruct, []⟩ ∧
          Describes keyStruct dataStruct Pages.limit header := by
    by_cases accepted : Accepted keyStruct dataStruct ((files name).getD .zero)
    · apply RunsIf.of_runs _ accepted
      apply (runs_bind ..).mpr
      apply ((create_runsIf files name keyStruct dataStruct).runs accepted).mono
      intro _ final ⟨header, found, describes⟩
      exact (openTable_runs isInit found describes accepted.keyCount accepted.dataCount).mono
        fun opened _ same => ⟨header, same, describes⟩
    · exact .inr ⟨accepted, ((create_runsIf files name keyStruct dataStruct).faults accepted).bind⟩
  have decided : MetadataSurvives isInit files name keyStruct dataStruct ↔
      Accepted keyStruct dataStruct ((files name).getD .zero) ∧
        IntSize (sizeSum keyStruct) ∧ IntSize (sizeSum dataStruct) := by
    apply outcome.runs_iff_and
    intro opened final ⟨header, same, describes⟩
    rw [← sizes header describes, same]
    simp
  rw [decided]
  constructor
  · intro ⟨accepted, keySize, dataSize⟩
    exact ⟨(getD_fresh_iff files name).mp accepted.fresh, accepted.keyCount, accepted.dataCount,
      keySize, dataSize, accepted.slot⟩
  · intro representable
    exact ⟨⟨(getD_fresh_iff files name).mpr representable.fresh, representable.keyCount,
      representable.dataCount, representable.slot⟩, representable.keySize, representable.dataSize⟩

end Files

/-- A structure of this many columns `INT`. -/
def intColumns (count : Nat) (few : count ≤ intMax) : DataStructure where
  columns := List.replicate count ⟨.integer .int, 4⟩
  count := by simpa using few

/-- A key of 65 columns does not fit the header. -/
theorem not_metadataSurvives_manyColumns :
    ¬ MetadataSurvives (fun _ _ => false) (fun _ => none) ['t']
      (intColumns 65 (by decide)) (intColumns 1 (by decide)) := by
  intro survives
  have refused : ¬ Accepted (intColumns 65 (by decide)) (intColumns 1 (by decide)) .zero :=
    fun accepted => absurd accepted.keyCount (by decide)
  exact ((runs_bind ..).mp survives).not_faults ((create_runsIf ..).faults refused)

end PersistentBTree.Queries.Header
