import PersistentBTree.Queries.Catalogue
import PersistentBTree.Queries.QueryProperties
import PersistentBTree.Queries.RecordGuarantees

/-! What a query does, told without the parser: its four words are read first, and then the
statement is carried out on the tables. The loops that fill a record set its first column
again and again, so that only the last value of a list is left. -/

set_option autoImplicit false

namespace PersistentBTree.Queries

open Imperative StringParser

/-- The text without its first and its last character, the parentheses. -/
def inner (str : Text) : Text := str.tail.dropLast

/-- The first column is there and can be set from a text. -/
def DataStructure.Settable (columns : DataStructure) : Prop :=
  ∃ column ∈ columns.columns.head?, column.type ≠ .string ∧ column.type ≠ .ntypes

/-- The values can be set, if there are any. -/
def DataStructure.Takes (columns : DataStructure) (values : List Text) : Prop :=
  values = [] ∨ columns.Settable

section Execution

variable (atof : Text → BitVec 64) (temporary : Nat)

/-- The last value becomes the first column of the record at `data`. -/
def setRecord (columns : DataStructure) (data : Nat) (values : List Text) : Querying PUnit :=
  match values.getLast? with
  | none => pure ⟨⟩
  | some value => do
      let heap ← get
      let memory ← orFault .outOfBounds (setData atof temporary columns data 0 value heap.memory)
      set { heap with memory }

namespace Statement

variable (disk : Disk) (statement : Statement)

/-- A `GET` with a name and a key. -/
def Asks : Prop := statement.name ≠ [] ∧ statement.keyStr ≠ []

instance decidableAsks : Decidable statement.Asks := inferInstanceAs (Decidable (_ ∧ _))

def executeCreate : Querying (Option Call) :=
  if statement.Complete then do
    let keyStruct ← orFault .badLength (columnsOf statement.keyStr)
    let dataStruct ← orFault .badLength (columnsOf statement.dataStr)
    pure (some (.create statement.name keyStruct dataStruct))
  else pure none

def executeInsert : Querying (Option Call) := do
  let table ← orFault .null (disk.table statement.name)
  let key ← newChars (intSize table.keyStruct)
  let data ← newChars (intSize table.dataStruct)
  if statement.Complete then
    setRecord atof temporary table.keyStruct key (fieldsOf (inner statement.keyStr))
    setRecord atof temporary table.dataStruct data (fieldsOf (inner statement.dataStr))
    pure (some (.insert statement.name key data))
  else pure none

def executeGet : Querying (Option Call) := do
  let table ← orFault .null (disk.table statement.name)
  let key ← newChars (intSize table.keyStruct)
  if statement.Asks then
    setRecord atof temporary table.keyStruct key (fieldsOf (inner statement.keyStr))
    pure (some (.find statement.name key))
  else pure none

/-- The statement is carried out. -/
def execute : Querying (Option Call) :=
  if statement.command = "CREATE".toList then statement.executeCreate
  else if statement.command = "INSERT".toList then statement.executeInsert atof temporary disk
  else if statement.command = "GET".toList then statement.executeGet atof temporary disk
  else pure none

/-- What an `INSERT` needs: the table, an `int` for the sizes of both records, and columns
that take the values. -/
def CanInsert : Prop := ∃ table, disk.table statement.name = some table ∧
  0 ≤ intSize table.keyStruct ∧ 0 ≤ intSize table.dataStruct ∧
  (statement.Complete → table.keyStruct.Takes (fieldsOf (inner statement.keyStr)) ∧
    table.dataStruct.Takes (fieldsOf (inner statement.dataStr)))

def CanGet : Prop := ∃ table, disk.table statement.name = some table ∧
  0 ≤ intSize table.keyStruct ∧
  (statement.Asks → table.keyStruct.Takes (fieldsOf (inner statement.keyStr)))

/-- The tables have what the statement needs. A `CREATE` needs nothing. -/
def Feasible : Prop :=
  (statement.command = "INSERT".toList → statement.CanInsert disk) ∧
    (statement.command = "GET".toList → statement.CanGet disk)

end Statement

end Execution

/-- The faults of a query that can be read. -/
def Explained (fault : Fault) : Prop := fault = .null ∨ fault = .badLength ∨ fault = .outOfBounds

/-! ## Words -/

/-- A call of `next` has read this field. -/
structure NextWord (parser : StringParser) (field : Text) (final : StringParser) : Prop where
  returned : next.run parser = .ok (field, final)
  short : (intLength final.str).toNat < intMax
  few : field.length < intMax

theorem length_fst_nextOf_le (text : Text) : ((nextOf text).getD ([], [])).1.length ≤ text.length := by
  unfold nextOf
  have skipped := length_skipSpaces_le text
  cases left : skipSpaces text with
  | nil => exact Nat.zero_le _
  | cons char more =>
      rw [left] at skipped
      have cuts (stop : Char) (other : Text) : (cutAt stop other).1.length ≤ other.length :=
        (List.takeWhile_prefix _).length_le
      have quoted := cuts '\'' more
      have bare := cuts ' ' (char :: more)
      simp only [List.length_cons] at skipped bare
      dsimp only [Option.getD_some]
      split
      · omega
      · omega

theorem length_rest_le (parser : StringParser) :
    parser.rest.length ≤ (intLength parser.str).toNat := by
  rw [rest, List.length_drop, length_seen]
  exact Nat.sub_le ..

theorem exists_reads {parser : StringParser} (short : (intLength parser.str).toNat < intMax) :
    ∃ field final, NextWord parser field final ∧
      (field, final.rest) = (nextOf parser.rest).getD ([], []) := by
  obtain ⟨field, final, returned, same, read⟩ := next_runs short
  refine ⟨field, final, ⟨returned, by rwa [same], ?_⟩, read⟩
  have isField : field = ((nextOf parser.rest).getD ([], [])).1 := congrArg Prod.fst read
  rw [isField]
  exact Nat.lt_of_le_of_lt (length_fst_nextOf_le _)
    (Nat.lt_of_le_of_lt (length_rest_le parser) short)

theorem short_ofText {text : Text} (short : text.length < intMax) :
    (intLength (ofText text).str).toNat < intMax :=
  Nat.lt_of_le_of_lt (intLength_le_length text) short

theorem stripParentheses_eq {str : Text} (some_ : str ≠ []) (short : str.length < intMax) :
    stripParentheses str = pure (inner str) := by
  have positive := List.length_pos_iff.mpr some_
  have small : intMax < 2 ^ 64 := by decide
  have part : (str.drop 1).take ((str.length + (2 ^ 64 - 2)) % 2 ^ 64) = inner str := by
    rw [inner, List.dropLast_eq_take, List.drop_one]
    cases Nat.eq_or_lt_of_le positive with
    | inl one =>
        have nothing : str.tail = [] := List.length_eq_zero_iff.mp (by simp; omega)
        rw [nothing, List.take_nil, List.take_nil]
    | inr more =>
        have count : (str.length + (2 ^ 64 - 2)) % 2 ^ 64 = str.tail.length - 1 := by
          rw [List.length_tail]
          omega
        rw [count]
  have inside : 1 ≤ str.length := positive
  rw [stripParentheses, substr, if_pos inside, part]
  rfl

theorem length_inner_le (str : Text) : (inner str).length ≤ str.length := by
  rw [inner, List.length_dropLast, List.length_tail]
  omega

theorem tokenize_eq {text : Text} (short : text.length < intMax) :
    ∃ names final, (tokenize (text.length + 1)).run (ofText text) = .ok (names, final) ∧
      columnsOf text = DataStructure.ofTypes names ∧ names.length ≤ intMax := by
  obtain ⟨names, final, returned, tokens⟩ := tokenize_runs short
  refine ⟨names, final, returned, ?_, ?_⟩
  · rw [columnsOf, returned]
  · have few := length_fieldsOf_le (text.map blank)
    rw [List.length_map] at few
    rw [tokens]
    exact Nat.le_of_lt (Nat.lt_of_le_of_lt few short)

/-! ## Records -/

section Records

variable {atof : Text → BitVec 64} {temporary : Nat} {columns : DataStructure} {data : Nat}

/-- The bytes of a column do not depend on the text in their number. -/
theorem bytesOf_length {type : DataTypes} (isSet : type ≠ .string ∧ type ≠ .ntypes) :
    ∃ count, ∀ value, ∃ bytes, bytesOf atof temporary type value = some bytes ∧
      bytes.length = count := by
  cases type with
  | integer type => exact ⟨type.getSize, fun value => by
      cases type <;> exact ⟨_, rfl, by simp [Tables.DataTypes.getSize]⟩⟩
  | double => exact ⟨8, fun value => ⟨_, rfl, length_bytesOfNat ..⟩⟩
  | string => exact absurd rfl isSet.1
  | ntypes => exact absurd rfl isSet.2

/-- A later value covers an earlier one. -/
theorem setData_settable (settable : columns.Settable) :
    ∃ stored : Text → List UInt8, (∀ value memory,
      setData atof temporary columns data 0 value memory =
        some (store memory (data + columns.offset 0) (stored value))) ∧
      ∀ value other, (stored value).length = (stored other).length := by
  obtain ⟨column, first, isSet⟩ := settable
  obtain ⟨count, all⟩ := @bytesOf_length atof temporary _ isSet
  choose stored isStored length using all
  refine ⟨stored, ?_, fun value other => (length value).trans (length other).symm⟩
  intro value memory
  have found : columns.columns[0]? = some column := by
    rwa [← List.head?_eq_getElem?]
  simp [setData, found, isStored value]

theorem setData_eq_none (unset : ¬ columns.Settable) (value : Text) (memory : Nat → UInt8) :
    setData atof temporary columns data 0 value memory = none := by
  cases found : columns.columns[0]? with
  | none => simp [setData, found]
  | some column =>
      have noBytes : bytesOf atof temporary column.type value = none := by
        by_contra some_
        apply unset
        refine ⟨column, by rwa [List.head?_eq_getElem?], ?_, ?_⟩
        · intro isString
          simp [bytesOf, isString, ofText_eq_none] at some_
        · intro isNone
          simp [bytesOf, isNone, ofText_eq_none] at some_
      simp [setData, found, noBytes]

/-- Setting one value after the other is setting the last one. -/
theorem setRecord_cons (value : Text) (values : List Text) :
    (do
      let heap ← get
      let memory ← orFault .outOfBounds (setData atof temporary columns data 0 value heap.memory)
      set { heap with memory }
      setRecord atof temporary columns data values) =
      setRecord atof temporary columns data (value :: values) := by
  rw [setRecord, setRecord, List.getLast?_cons]
  cases last : values.getLast? with
  | none => simp
  | some other =>
      funext heap
      by_cases settable : columns.Settable
      · obtain ⟨stored, isStored, same⟩ := @setData_settable atof temporary columns data settable
        have covers (memory : Nat → UInt8) := @store_store _ memory (data + columns.offset 0)
          (stored value) (stored other) (same value other).le
        simp only [isStored, Option.getD_some, orFault, pure_bind]
        change Except.ok _ = Except.ok _
        rw [covers]
      · simp only [setData_eq_none settable, Option.getD_some]
        rfl

/-- The loop that fills a record. -/
theorem setColumns_eq {fuel : Nat} {parser : StringParser}
    (short : (intLength parser.str).toNat < intMax) (enough : parser.rest.length < fuel) :
    setColumns atof temporary columns data 0 fuel parser =
      setRecord atof temporary columns data (fieldsOf parser.rest) := by
  induction fuel generalizing parser with
  | zero => exact absurd enough (Nat.not_lt_zero _)
  | succ fuel ih =>
      obtain ⟨more, parser₁, looked, same₁, front, found⟩ := hasNext_nextOf parser
      rw [setColumns, runOn_eq_pure looked, pure_bind]
      cases next : nextOf parser.rest with
      | none =>
          have isLast : more = false := by
            rw [← Bool.not_eq_true, found, next]
            simp
          rw [isLast, fieldsOf_of_none next]
          rfl
      | some fieldMore =>
          obtain ⟨field, text⟩ := fieldMore
          have isMore : more = true := found.mpr (by simp [next])
          obtain ⟨value, parser₂, reads, read⟩ := @exists_reads parser₁ (by rwa [same₁])
          rw [front, next, Option.getD_some, Prod.mk.injEq] at read
          have fewer := length_lt_of_nextOf next
          rw [fieldsOf_of_some next, ← setRecord_cons, ← read.1, ← read.2,
            ← ih reads.short (by rw [read.2]; omega), isMore]
          simp only [if_true]
          rw [runOn_eq_pure reads.returned, pure_bind]

end Records

end PersistentBTree.Queries
