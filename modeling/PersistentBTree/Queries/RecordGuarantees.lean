import PersistentBTree.Queries.DataStructureProperties

/-! Setting the columns of a record from texts. The values are read back from any
later copy of the bytes of the record, wherever the copy lies and whatever else
the memory then holds. -/

set_option autoImplicit false

namespace PersistentBTree.Queries

open Imperative Pages

/-- A value of a column. -/
inductive Value where
  | number (value : Int)
  | text (value : Text)

/-- The text writes this value of the column. -/
def Denotes (column : Column) (text : Text) : Value → Prop
  | .number value => ∃ type, column.type = .integer type ∧ Numeral text value ∧ InRange type value
  | .text value => column.type = .string ∧ value = text ∧ text.length + 24 ≤ column.size

/-- The conversion operators of a `CVariant` at this address give the value: an
integer is read from the column, a string from where the column says. -/
def Reads (memory : Nat → UInt8) (address : Nat) (column : Column) : Value → Prop
  | .number value => ∃ type, column.type = .integer type ∧
      Tables.CVariant.value ⟨load memory address column.size, type⟩ = value
  | .text value => column.type = .string ∧ Char.ofNat 0 ∉ value ∧
      let buf := Tables.natOfBytes (load memory (address + 8) 8)
      load memory buf (value.length + 1) =
        (value ++ [Char.ofNat 0]).map fun char => UInt8.ofNat char.toNat

section Law

variable (atof : Text → BitVec 64) (temporary : Nat) (columns : DataStructure)

/-- In every copy of the record at `data` the column has the value. -/
def Holds (memory : Nat → UInt8) (data idx : Nat) (column : Column) (value : Value) : Prop :=
  ∀ (later : Nat → UInt8) (copy : Nat),
    load later copy columns.getSize = load memory data columns.getSize →
      Reads later (copy + columns.offset idx) column value

/-- Setting the column changes no byte outside the column and gives the record the
value. -/
def SetsExactly (memory : Nat → UInt8) (data idx : Nat) (column : Column) (text : Text)
    (value : Value) : Prop :=
  ∃ after, setData atof temporary columns data idx text memory = some after ∧
    (∀ address, address < data + columns.offset idx ∨
      data + columns.offset idx + column.size ≤ address → after address = memory address) ∧
    Holds columns after data idx column value

/-- Set the columns in this order, each one to its text. -/
def setAll (data : Nat) (texts : Nat → Text) : List Nat → (Nat → UInt8) → Option (Nat → UInt8)
  | [], memory => some memory
  | idx :: order, memory => do
      setAll data texts order (← setData atof temporary columns data idx (texts idx) memory)

/-- The texts write the values of the columns. -/
def DenoteAll (texts : Nat → Text) (values : Nat → Value) : Prop :=
  ∀ (idx : Nat) (column : Column), columns.columns[idx]? = some column →
    Denotes column (texts idx) (values idx)

structure SetDataLaw : Prop where
  exact : ∀ (memory : Nat → UInt8) (data idx : Nat) (column : Column) (text : Text)
    (value : Value), columns.columns[idx]? = some column → Denotes column text value →
      SetsExactly atof temporary columns memory data idx column text value
  anyOrder : ∀ (memory : Nat → UInt8) (data : Nat) (texts : Nat → Text) (values : Nat → Value)
    (order : List Nat), DenoteAll columns texts values →
      order.Perm (List.range columns.columns.length) →
      ∃ after, setAll atof temporary columns data texts order memory = some after ∧
        ∀ (idx : Nat) (column : Column), columns.columns[idx]? = some column →
          Holds columns after data idx column (values idx)

end Law

variable {atof : Text → BitVec 64} {temporary : Nat} {columns : DataStructure}

/-- The temporary object of a string assignment has no room for the characters. -/
theorem ofText_eq_none (this : Nat) (s : Text) :
    VariantString.ofText this (Buffer.alloc 0) s = none := by
  have full : ∀ (chars : Text) (copied : Buffer UInt8),
      VariantString.copyChars (Buffer.alloc 0) 0 chars = some copied → copied = [] := by
    intro chars copied returned
    cases chars with
    | nil => simpa [VariantString.copyChars, Buffer.alloc] using returned.symm
    | cons char rest => simp [VariantString.copyChars, Buffer.write, Buffer.alloc] at returned
  simp only [VariantString.ofText]
  cases returned : VariantString.copyChars (Buffer.alloc 0) 0 _ with
  | none => rfl
  | some copied =>
      rw [full _ copied returned]
      rfl

theorem setData_string (memory : Nat → UInt8) {data idx : Nat} {column : Column} (text : Text)
    (found : columns.columns[idx]? = some column) (isString : column.type = .string) :
    setData atof temporary columns data idx text memory = none := by
  simp [setData, found, isString, bytesOf, ofText_eq_none]

/-- What an integer column holds is in its own bytes. -/
theorem holds_of_load (standard : columns.Standard) {memory : Nat → UInt8} {data idx : Nat}
    {type : Tables.DataTypes} {value : Int}
    (found : columns.columns[idx]? = some ⟨.integer type, type.getSize⟩)
    (inRange : InRange type value)
    (stored : load memory (data + columns.offset idx) type.getSize =
      bytesOfInt type.getSize value) :
    Holds columns memory data idx ⟨.integer type, type.getSize⟩ (.number value) := by
  intro later copy same
  refine ⟨type, rfl, ?_⟩
  rw [load_part same (standard.offset_add_le_getSize found), stored, value_bytesOfInt inRange]

theorem setData_integer {memory : Nat → UInt8} {data idx : Nat} {type : Tables.DataTypes}
    {text : Text} {value : Int}
    (found : columns.columns[idx]? = some ⟨.integer type, type.getSize⟩)
    (numeral : Numeral text value) (inRange : InRange type value) :
    setData atof temporary columns data idx text memory =
      some (store memory (data + columns.offset idx) (bytesOfInt type.getSize value)) := by
  simp [setData, found, bytesOf_integer numeral inRange]

theorem setsExactly_integer (standard : columns.Standard) {memory : Nat → UInt8} {data idx : Nat}
    {type : Tables.DataTypes} {text : Text} {value : Int}
    (found : columns.columns[idx]? = some ⟨.integer type, type.getSize⟩)
    (numeral : Numeral text value) (inRange : InRange type value) :
    SetsExactly atof temporary columns memory data idx ⟨.integer type, type.getSize⟩ text
      (.number value) := by
  refine ⟨_, setData_integer found numeral inRange, ?_, ?_⟩
  · intro address outside
    apply store_frame
    rwa [length_bytesOfInt]
  · apply holds_of_load standard found inRange
    have read := @load_store _ memory (data + columns.offset idx) (bytesOfInt type.getSize value)
    rwa [length_bytesOfInt] at read

theorem Denotes.integer {type : Tables.DataTypes} {size : Nat} {text : Text} {value : Value}
    (denotes : Denotes ⟨.integer type, size⟩ text value) :
    ∃ number, value = .number number ∧ Numeral text number ∧ InRange type number := by
  cases value with
  | number number =>
      obtain ⟨type', same, numeral, inRange⟩ := denotes
      cases same
      exact ⟨number, rfl, numeral, inRange⟩
  | text value => exact absurd denotes.1 (by simp)

theorem load_store_column (standard : columns.Standard) {memory : Nat → UInt8}
    {data idx other : Nat} {column next : Column} {bytes : Bytes}
    (found : columns.columns[idx]? = some column) (foundNext : columns.columns[other]? = some next)
    (different : idx ≠ other) (size : bytes.length = column.size) :
    load (store memory (data + columns.offset idx) bytes) (data + columns.offset other) next.size =
      load memory (data + columns.offset other) next.size := by
  apply load_store_apart
  rcases Nat.lt_or_gt_of_ne different with before | after
  · have below := standard.offset_add_le found before
    omega
  · have below := standard.offset_add_le foundNext after
    omega

/-- The invariant of setting several columns: the columns that have been set hold
their values, and only they have changed. -/
theorem setAll_integers (integers : columns.Integers) {data : Nat} {texts : Nat → Text}
    {values : Nat → Value} (denote : DenoteAll columns texts values) {order : List Nat}
    (distinct : order.Nodup) (inside : ∀ idx ∈ order, idx < columns.columns.length)
    (memory : Nat → UInt8) :
    ∃ after, setAll atof temporary columns data texts order memory = some after ∧
      ∀ (idx : Nat) (column : Column), columns.columns[idx]? = some column →
        (idx ∈ order → Holds columns after data idx column (values idx)) ∧
        (idx ∉ order → load after (data + columns.offset idx) column.size =
          load memory (data + columns.offset idx) column.size) := by
  induction order generalizing memory with
  | nil => exact ⟨memory, rfl, fun idx column _ => by simp⟩
  | cons first order ih =>
      obtain ⟨column, found⟩ : ∃ column, columns.columns[first]? = some column :=
        ⟨_, List.getElem?_eq_getElem (inside first List.mem_cons_self)⟩
      obtain ⟨type, rfl⟩ := integers column (List.mem_of_getElem? found)
      obtain ⟨number, isNumber, numeral, inRange⟩ := (denote first _ found).integer
      let bytes := bytesOfInt type.getSize number
      let middle := store memory (data + columns.offset first) bytes
      rw [List.nodup_cons] at distinct
      obtain ⟨after, returned, each⟩ := ih distinct.2
        (fun idx member => inside idx (List.mem_cons_of_mem _ member)) middle
      refine ⟨after, ?_, ?_⟩
      · rw [setAll, setData_integer found numeral inRange]
        exact returned
      · intro idx column foundIdx
        obtain ⟨holds, kept⟩ := each idx column foundIdx
        by_cases here : idx = first
        · subst here
          rw [found] at foundIdx
          cases foundIdx
          have stored : load middle (data + columns.offset idx) bytes.length = bytes := load_store _
          simp only [bytes, length_bytesOfInt] at stored
          rw [stored] at kept
          refine ⟨fun _ => ?_, fun absent => absurd List.mem_cons_self absent⟩
          rw [isNumber]
          exact holds_of_load integers.standard found inRange (kept distinct.1)
        · have elsewhere : idx ∈ first :: order ↔ idx ∈ order := by simp [here]
          rw [elsewhere]
          refine ⟨holds, fun absent => ?_⟩
          rw [kept absent]
          exact load_store_column integers.standard found foundIdx (Ne.symm here) (by simp [bytes])

/-- Integer columns can be set, each one alone and all of them in any order. -/
theorem setDataLaw_of_integers (integers : columns.Integers) :
    SetDataLaw atof temporary columns := by
  constructor
  case exact =>
    intro memory data idx column text value found denotes
    obtain ⟨type, rfl⟩ := integers column (List.mem_of_getElem? found)
    obtain ⟨number, rfl, numeral, inRange⟩ := denotes.integer
    exact setsExactly_integer integers.standard found numeral inRange
  case anyOrder =>
    intro memory data texts values order denote all
    have distinct : order.Nodup := all.nodup_iff.mpr List.nodup_range
    have inside : ∀ idx ∈ order, idx < columns.columns.length := by
      intro idx member
      exact List.mem_range.mp (all.mem_iff.mp member)
    obtain ⟨after, returned, each⟩ := setAll_integers integers denote distinct inside memory
    refine ⟨after, returned, fun idx column found => (each idx column found).1 ?_⟩
    exact all.mem_iff.mpr (List.mem_range.mpr (List.getElem?_eq_some_iff.mp found).1)

theorem Column.Standard.integer {column : Column} (standard : column.Standard)
    (notString : column.type ≠ .string) : ∃ type : Tables.DataTypes,
      column = ⟨.integer type, type.getSize⟩ := by
  obtain ⟨kind, size⟩ := column
  cases kind with
  | integer type => exact ⟨type, by rw [Column.Standard] at standard; simp_all⟩
  | string => exact absurd rfl notString
  | double => exact standard.elim
  | ntypes => exact standard.elim

/-- A column can be set from texts exactly when it is no string, whatever the other columns of
the record are. -/
theorem setsExactly_iff (standard : columns.Standard) {idx : Nat} {column : Column}
    (found : columns.columns[idx]? = some column) :
    (∀ (memory : Nat → UInt8) (data : Nat) (text : Text) (value : Value),
      Denotes column text value →
        SetsExactly atof temporary columns memory data idx column text value) ↔
      column.type ≠ .string := by
  have kind := standard column (List.mem_of_getElem? found)
  constructor
  · intro sets isString
    have size : 24 ≤ column.size := by
      rw [Column.Standard, isString] at kind
      exact kind.1
    obtain ⟨after, returned, -⟩ := sets (fun _ => 0) 0 [] (.text [])
      ⟨isString, rfl, by simpa using size⟩
    rw [setData_string _ _ found isString] at returned
    cases returned
  · intro notString memory data text value denotes
    obtain ⟨type, rfl⟩ := kind.integer notString
    obtain ⟨number, rfl, numeral, inRange⟩ := denotes.integer
    exact setsExactly_integer standard found numeral inRange

/-- A record whose columns are as their names give them can be set from texts
exactly when none of them is a string. -/
theorem setDataLaw_iff (standard : ∀ column ∈ columns.columns, column.Standard) :
    SetDataLaw atof temporary columns ↔ ∀ column ∈ columns.columns, column.type ≠ .string := by
  constructor
  · intro law column member
    obtain ⟨idx, inside, rfl⟩ := List.getElem_of_mem member
    have found := List.getElem?_eq_getElem inside
    exact (setsExactly_iff standard found).mp fun memory data text value =>
      law.exact memory data idx _ text value found
  · intro none
    apply setDataLaw_of_integers
    exact fun column member => (standard column member).integer (none column member)

/-- A record of an `INT` and a `BOOL`. -/
def intBool : DataStructure := ⟨["INT", "BOOL"].map fun name => columnOf name.toList, by decide⟩

theorem setDataLaw_intBool : SetDataLaw (fun _ => 0) 0 intBool :=
  (setDataLaw_iff (by decide)).mpr (by decide)

/-- A record of one `STRING8`. -/
def oneString : DataStructure := ⟨[columnOf "STRING8".toList], by decide⟩

/-- The text `ab` is not written to the column. -/
theorem not_setDataLaw_oneString :
    ¬ ∀ columns : DataStructure, (∀ column ∈ columns.columns, column.Standard) →
      SetDataLaw (fun _ => 0) 0 columns := by
  intro law
  have found : oneString.columns[0]? = some ⟨.string, 32⟩ := by decide
  obtain ⟨after, returned, -⟩ := (law oneString (by decide)).exact (fun _ => 0) 0 0 _ ['a', 'b']
    (.text ['a', 'b']) found ⟨rfl, rfl, by decide⟩
  rw [setData_string _ _ found rfl] at returned
  cases returned

end PersistentBTree.Queries
