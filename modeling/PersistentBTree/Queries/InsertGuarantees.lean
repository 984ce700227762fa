import PersistentBTree.Queries.QueryOutcomes
import PersistentBTree.Queries.RecordGuarantees

/-! The query `INSERT`. All values of a list are written to the first column, so
that the record is filled exactly when it has one column. -/

set_option autoImplicit false

namespace PersistentBTree.Queries

open Imperative StringParser

/-- `(v1 ... vn)`. -/
def valueList (values : List Int) : Text :=
  '(' :: [' '].intercalate (values.map numeral) ++ [')']

def insertWord : Word := ⟨['I', 'N', 'S', 'E', 'R', 'T'], by decide, by decide, by decide⟩

/-- `INSERT name '(k1 ... kn)' '(d1 ... dm)'`. -/
def insertQuery (name : Word) (keys datas : List Int) : Text :=
  insertWord.text ++ ' ' :: (name.text ++ ' ' ::
    ('\'' :: (valueList keys ++ '\'' :: (' ' :: '\'' :: (valueList datas ++ ['\''])))))

/-- The values are values of the columns. -/
def FitColumns (values : List Int) (columns : DataStructure) : Prop :=
  List.Forall₂ (fun value column => ∃ type, column.type = .integer type ∧ InRange type value)
    values columns.columns

/-- Every column of the record at this address has its value. -/
def RecordHolds (memory : Nat → UInt8) (columns : DataStructure) (address : Nat)
    (values : List Int) : Prop :=
  ∀ (idx : Nat) (value : Int), values[idx]? = some value →
    ∃ column, columns.columns[idx]? = some column ∧
      Reads memory (address + columns.offset idx) column (.number value)

/-- The disk with one table. -/
def onlyTable (name : Word) (short : name.text.length < 4096) (table : Table) : Disk where
  table other := if other = name.text then some table else none
  short := by
    intro other found opens
    split at opens
    · next same => rwa [same]
    · cases opens

/-- `INSERT` fills all columns of the table, and no query writes a column that a table
does not have. -/
structure InsertLaw (atof : Text → BitVec 64) (temporary : Nat) (name : Word)
    (short : name.text.length < 4096) (table : Table) : Prop where
  fills : ∀ (heap : Heap) (keys datas : List Int), FitColumns keys table.keyStruct →
    FitColumns datas table.dataStruct →
      Runs (query atof temporary (onlyTable name short table) (insertQuery name keys datas)) heap
        fun call final => ∃ key data, call = some (.insert name.text key data) ∧
          RecordHolds final.memory table.keyStruct key keys ∧
          RecordHolds final.memory table.dataStruct data datas
  inside : ∀ (heap : Heap) (q : Text),
    FaultsOnly (· ≠ .outOfBounds) (query atof temporary (onlyTable name short table) q) heap

variable {atof : Text → BitVec 64} {temporary : Nat} {columns : DataStructure} {data : Nat}

/-! ## Setting the first column -/

theorem offset_zero (columns : DataStructure) : columns.offset 0 = 0 := rfl

theorem bytesOf_eq_some (type : Tables.DataTypes) (val : Text) :
    ∃ bytes, bytesOf atof temporary (.integer type) val = some bytes ∧
      bytes.length = type.getSize := by
  cases type <;> exact ⟨_, rfl, by simp [Tables.DataTypes.getSize]⟩

/-- Whatever the text is, the bytes of the first column are set. -/
theorem setData_first {type : Tables.DataTypes}
    (first : columns.columns[0]? = some ⟨.integer type, type.getSize⟩) (val : Text)
    (memory : Nat → UInt8) :
    ∃ bytes, setData atof temporary columns data 0 val memory = some (store memory data bytes) ∧
      bytes.length = type.getSize := by
  obtain ⟨bytes, set, length⟩ := @bytesOf_eq_some atof temporary type val
  refine ⟨bytes, ?_, length⟩
  simp [setData, first, set, offset_zero]

/-- A list of one value sets the first column, if there is one. -/
theorem setColumns_word {parser : StringParser} (word : Word) (left : parser.rest = word.text)
    (short : (intLength parser.str).toNat < intMax) (fuel : Nat) (heap : Heap) :
    (setColumns atof temporary columns data 0 (fuel + 2) parser).run heap =
      match setData atof temporary columns data 0 word.text heap.memory with
      | none => .error .outOfBounds
      | some memory => .ok (⟨⟩, { heap with memory }) := by
  have reads : nextOf parser.rest = some (word.text, []) := by
    rw [left, ← List.append_nil word.text, nextOf_word word (by simp), List.append_nil,
      List.drop_nil]
  obtain ⟨parser₁, same₁, front₁, found⟩ := @run_hasNext_bind PUnit parser
  obtain ⟨parser₂, same₂, left₂, read⟩ := @run_next_bind PUnit parser₁ _ _
    (by rwa [same₁]) (front₁.trans reads)
  obtain ⟨parser₃, -, -, last⟩ := @run_hasNext_bind PUnit parser₂
  rw [setColumns, found, reads]
  simp only [Option.isSome_some, if_true]
  rw [read, run_get_bind]
  cases set : setData atof temporary columns data 0 word.text heap.memory with
  | none => rfl
  | some memory =>
      simp only [orFault, pure_bind]
      rw [run_set_bind, setColumns, last, left₂]
      rfl

/-! ## What any query can write -/

/-- The bytes of the first column, if there is one. -/
def firstSize (columns : DataStructure) : Nat := (columns.columns.head?.map Column.size).getD 0

theorem firstSize_eq {column : Column} (first : columns.columns[0]? = some column) :
    firstSize columns = column.size := by
  rw [firstSize, List.head?_eq_getElem?, first]
  rfl

theorem setData_frame (integers : columns.Integers) {val : Text} {memory after : Nat → UInt8}
    (set : setData atof temporary columns data 0 val memory = some after) {address : Nat}
    (outside : address < data ∨ data + firstSize columns ≤ address) :
    after address = memory address := by
  cases first : columns.columns[0]? with
  | none => simp [setData, first] at set
  | some column =>
      obtain ⟨type, rfl⟩ := integers column (List.mem_of_getElem? first)
      obtain ⟨bytes, stored, length⟩ := @setData_first atof temporary columns data _ first val memory
      rw [set] at stored
      cases stored
      rw [firstSize_eq first] at outside
      apply store_frame
      rwa [length]

/-- Only the first column of the record is written. -/
theorem setColumns_ensures (integers : columns.Integers) (fuel : Nat) (parser : StringParser)
    (heap : Heap) :
    Ensures (setColumns atof temporary columns data 0 fuel parser) heap fun _ final =>
      ∀ address, address < data ∨ data + firstSize columns ≤ address →
        final.memory address = heap.memory address := by
  induction fuel generalizing parser heap with
  | zero => exact .throw _
  | succ fuel ih =>
      refine Ensures.runOn_bind fun (more, parser₁) => ?_
      cases more with
      | false => exact .pure fun _ _ => rfl
      | true =>
          refine Ensures.runOn_bind fun (val, parser₂) => ?_
          refine Ensures.get_bind (Ensures.orFault_bind fun memory set => ?_)
          refine Ensures.set_bind ((ih parser₂ { heap with memory }).mono ?_)
          intro _ final kept address outside
          rw [kept address outside]
          exact setData_frame integers set outside

theorem sets_inside (integers : columns.Integers) (nonempty : columns.columns ≠ []) :
    Sets atof temporary (· ≠ .outOfBounds) columns := by
  obtain ⟨column, first⟩ : ∃ column, columns.columns[0]? = some column :=
    ⟨_, List.getElem?_eq_getElem (List.length_pos_iff.mpr nonempty)⟩
  obtain ⟨type, rfl⟩ := integers column (List.mem_of_getElem? first)
  apply sets_of_setData fun _ ordinary => ordinary.2
  intro data val memory missing
  obtain ⟨bytes, set, -⟩ := @setData_first atof temporary columns data _ first val memory
  rw [set] at missing
  cases missing

/-- The columns of a table that has some, all of them integers. -/
structure Table.Filled (table : Table) : Prop where
  keyIntegers : table.keyStruct.Integers
  keyNonempty : table.keyStruct.columns ≠ []
  dataIntegers : table.dataStruct.Integers
  dataNonempty : table.dataStruct.columns ≠ []

/-- A query indexes no missing column of tables that have columns. -/
theorem query_inside {disk : Disk}
    (tables : ∀ name table, disk.table name = some table → table.Filled)
    (q : Text) (heap : Heap) :
    FaultsOnly (· ≠ .outOfBounds) (query atof temporary disk q) heap := by
  have sets (name : Text) (table : Table) (found : disk.table name = some table) :
      Sets atof temporary (· ≠ .outOfBounds) table.keyStruct ∧
        Sets atof temporary (· ≠ .outOfBounds) table.dataStruct := by
    have filled := tables name table found
    exact ⟨sets_inside filled.keyIntegers filled.keyNonempty,
      sets_inside filled.dataIntegers filled.dataNonempty⟩
  exact (query_runsOr (fun _ ordinary => ordinary.2) (fun _ _ _ _ _ => nofun) sets).faultsOnly

/-- What an insertion leaves: two records, one behind the other, of which only the
first columns have been written. -/
structure Inserted (heap final : Heap) (table : Table) (key data : Nat) : Prop where
  keySize : 0 ≤ intSize table.keyStruct
  dataSize : 0 ≤ intSize table.dataStruct
  keyBuf : key = heap.next
  dataBuf : data = heap.next + (intSize table.keyStruct).toNat
  kept : ∀ address, address < key ∨ key + firstSize table.keyStruct ≤ address →
    address < data ∨ data + firstSize table.dataStruct ≤ address →
      final.memory address = heap.memory address

/-- The outcome of a query, if it is an insertion. -/
def OfInsertion (heap : Heap) (table : Table) (call : Option Call) (final : Heap) : Prop :=
  ∀ name key data, call = some (.insert name key data) → Inserted heap final table key data

theorem newChars_ensures (size : Int) (heap : Heap) :
    Ensures (newChars size) heap fun address final =>
      0 ≤ size ∧ address = heap.next ∧ final = { heap with next := heap.next + size.toNat } := by
  unfold newChars
  split
  · exact Ensures.bind (.throw _) fun _ _ (reached : False) => reached.elim
  · next positive => exact Ensures.get_bind (.set_bind (.pure ⟨Int.not_lt.mp positive, rfl, rfl⟩))

theorem insertInto_ensures {table : Table} (keyIntegers : table.keyStruct.Integers)
    (dataIntegers : table.dataStruct.Integers) (name : Text) (parser : StringParser) (heap : Heap) :
    Ensures (insertInto atof temporary name table parser) heap (OfInsertion heap table) := by
  refine Ensures.bind (newChars_ensures _ heap) ?_
  rintro keyBuf _ ⟨keySize, keyAt, rfl⟩
  refine Ensures.bind (newChars_ensures _ _) ?_
  rintro dataBuf _ ⟨dataSize, dataAt, rfl⟩
  refine Ensures.runOn_bind fun (keyStr, parser) => ?_
  refine Ensures.runOn_bind fun (dataStr, _) => ?_
  dsimp only
  split
  · refine Ensures.orFault_bind fun keys _ => Ensures.orFault_bind fun datas _ => ?_
    refine Ensures.bind (setColumns_ensures keyIntegers _ _ _) fun _ middle keysKept => ?_
    refine Ensures.bind (setColumns_ensures dataIntegers _ _ _) fun _ final datasKept => ?_
    refine .pure fun _ key data same => ?_
    cases same
    constructor
    case keySize => exact keySize
    case dataSize => exact dataSize
    case keyBuf => exact keyAt
    case dataBuf => exact dataAt
    case kept =>
      intro address outsideKey outsideData
      rw [datasKept address outsideData, keysKept address outsideKey]
  · exact .pure fun _ _ _ same => by cases same

theorem create_ensures {table : Table} (parser : StringParser) (heap : Heap) :
    Ensures (create parser) heap (OfInsertion heap table) := by
  refine Ensures.runOn_bind fun (name, parser) => ?_
  refine Ensures.runOn_bind fun (keyStr, parser) => ?_
  refine Ensures.runOn_bind fun (dataStr, _) => ?_
  dsimp only
  split
  · refine Ensures.runOn_bind fun (keyTypes, _) => Ensures.orFault_bind fun keySt _ => ?_
    refine Ensures.runOn_bind fun (dataTypes, _) => Ensures.orFault_bind fun dataSt _ => ?_
    exact .pure fun _ _ _ same => by cases same
  · exact .pure fun _ _ _ same => by cases same

theorem get_ensures {disk : Disk} {table : Table} (parser : StringParser) (heap start : Heap) :
    Ensures (get_ atof temporary disk parser) heap (OfInsertion start table) := by
  refine Ensures.runOn_bind fun (name, parser) => Ensures.orFault_bind fun found _ => ?_
  refine Ensures.after fun keyBuf heap => Ensures.runOn_bind fun (keyStr, _) => ?_
  dsimp only
  split
  · refine Ensures.orFault_bind fun keys _ => Ensures.after fun _ _ => ?_
    exact .pure fun _ _ _ same => by cases same
  · exact .pure fun _ _ _ same => by cases same

/-- Whatever the query is, an insertion into the only table writes first columns. -/
theorem query_ensures {disk : Disk} {table : Table}
    (only : ∀ name found, disk.table name = some found → found = table)
    (keyIntegers : table.keyStruct.Integers) (dataIntegers : table.dataStruct.Integers)
    (q : Text) (heap : Heap) :
    Ensures (query atof temporary disk q) heap (OfInsertion heap table) := by
  refine Ensures.runOn_bind fun (more, parser) => ?_
  dsimp only
  split
  · refine Ensures.runOn_bind fun (word, parser) => ?_
    dsimp only
    split
    · exact create_ensures parser heap
    · split
      · refine Ensures.runOn_bind fun (name, parser) => Ensures.orFault_bind fun found opens => ?_
        rw [only _ _ opens]
        exact insertInto_ensures keyIntegers dataIntegers _ parser heap
      · split
        · exact get_ensures parser heap heap
        · exact .pure fun _ _ _ same => by cases same
  · exact .pure fun _ _ _ same => by cases same

/-! ## Queries with one value for the key and one for the data -/

theorem mem_numeral {value : Int} {char : Char} (inside : char ∈ numeral value) :
    char = '-' ∨ char.isDigit := by
  cases value with
  | ofNat value =>
      exact .inr (Nat.isDigit_of_mem_toDigits (by omega) (Nat.le_refl 10) inside)
  | negSucc value =>
      rcases List.mem_cons.mp inside with rfl | inside
      · exact .inl rfl
      · exact .inr (Nat.isDigit_of_mem_toDigits (by omega) (Nat.le_refl 10) inside)

theorem notMem_numeral {char : Char} (value : Int) (other : char ≠ '-')
    (noDigit : char.isDigit = false) : char ∉ numeral value := by
  intro inside
  rcases mem_numeral inside with same | digit
  · exact other same
  · rw [noDigit] at digit
    cases digit

def numeralWord (value : Int) : Word where
  text := numeral value
  nonempty := by
    cases value with
    | ofNat value => exact Nat.toDigits_ne_nil
    | negSucc value => exact List.cons_ne_nil _ _
  noSpace := notMem_numeral value (by decide) (by decide)
  unquoted first :=
    notMem_numeral value (by decide) (by decide) (List.mem_of_mem_head? first)

theorem length_numeral_le {value : Int} (fits : -2 ^ 63 ≤ value ∧ value < 2 ^ 63) :
    (numeral value).length ≤ 20 := by
  cases value with
  | ofNat value =>
      rw [Int.ofNat_eq_natCast] at fits
      have few : (Nat.toDigits 10 value).length ≤ 19 :=
        (Nat.length_toDigits_le_iff (by omega) (by omega)).mpr (by omega)
      exact Nat.le_succ_of_le few
  | negSucc value =>
      rw [Int.negSucc_eq] at fits
      have few : (Nat.toDigits 10 (value + 1)).length ≤ 19 :=
        (Nat.length_toDigits_le_iff (by omega) (by omega)).mpr (by omega)
      rw [numeral, List.length_cons]
      omega

theorem valueList_singleton (value : Int) : valueList [value] = '(' :: (numeral value ++ [')']) := by
  rw [valueList, List.map_singleton, List.intercalate_singleton, List.cons_append]

theorem quote_notMem_valueList (value : Int) : '\'' ∉ valueList [value] := by
  have inside := @notMem_numeral '\'' value (by decide) (by decide)
  simp [valueList_singleton, inside]

theorem substr_valueList {value : Int} (fits : -2 ^ 63 ≤ value ∧ value < 2 ^ 63) :
    substr (valueList [value]) 1
      (((valueList [value]).length + (2 ^ 64 - 2)) % 2 ^ 64) = some (numeral value) := by
  have few := length_numeral_le fits
  have count : ((valueList [value]).length + (2 ^ 64 - 2)) % 2 ^ 64 = (numeral value).length := by
    simp only [valueList_singleton, List.length_cons, List.length_append, List.length_nil]
    omega
  rw [count, substr, valueList_singleton, if_pos (by simp), List.drop_one, List.tail_cons,
    List.take_left]

theorem toUpper_insertWord : toUpper insertWord.text = "INSERT".toList ∧
    toUpper insertWord.text ≠ "CREATE".toList := by decide

theorem run_newChars_bind {β : Type} {size : Int} (positive : 0 ≤ size) (rest : Nat → Querying β)
    (heap : Heap) :
    (newChars size >>= rest).run heap =
      (rest heap.next).run { heap with next := heap.next + size.toNat } := by
  rw [newChars, if_neg (Int.not_lt.mpr positive)]
  rfl

section OneValue

variable {name : Word} {short : name.text.length < 4096} {table : Table} {key data : Int}

theorem length_insertQuery_lt (short : name.text.length < 4096)
    (keyFits : -2 ^ 63 ≤ key ∧ key < 2 ^ 63) (dataFits : -2 ^ 63 ≤ data ∧ data < 2 ^ 63) :
    (insertQuery name [key] [data]).length < intMax := by
  have keyLength := length_numeral_le keyFits
  have dataLength := length_numeral_le dataFits
  have word : insertWord.text.length = 6 := by decide
  simp only [insertQuery, valueList_singleton, List.length_append, List.length_cons,
    List.length_nil, word, intMax]
  omega

/-- With one value for the key and one for the data the query comes down to setting
two first columns. -/
theorem run_insertQuery (keyFits : -2 ^ 63 ≤ key ∧ key < 2 ^ 63)
    (dataFits : -2 ^ 63 ≤ data ∧ data < 2 ^ 63) (keySize : 0 ≤ intSize table.keyStruct)
    (dataSize : 0 ≤ intSize table.dataStruct) (heap : Heap) :
    let keyBuf := heap.next
    let dataBuf := heap.next + (intSize table.keyStruct).toNat
    (query atof temporary (onlyTable name short table) (insertQuery name [key] [data])).run heap =
      (do
        setColumns atof temporary table.keyStruct keyBuf 0 ((numeral key).length + 1)
          (ofText (numeral key))
        setColumns atof temporary table.dataStruct dataBuf 0 ((numeral data).length + 1)
          (ofText (numeral data))
        pure (some (Call.insert name.text keyBuf dataBuf)) : Querying (Option Call)).run
          { heap with next := dataBuf + (intSize table.dataStruct).toNat } := by
  intro keyBuf dataBuf
  have size := length_insertQuery_lt short keyFits dataFits
  have inside : (intLength (insertQuery name [key] [data])).toNat < intMax := by
    rwa [intLength_of_le (Nat.le_of_lt size), Int.toNat_natCast]
  have first : nextOf (insertQuery name [key] [data]) = some (insertWord.text, _) :=
    nextOf_word insertWord (by simp)
  have second : nextOf (name.text ++ ' ' :: ('\'' :: (valueList [key] ++ '\'' ::
      (' ' :: '\'' :: (valueList [data] ++ ['\'']))))) = some (name.text, _) :=
    nextOf_word name (by simp)
  have third := nextOf_quoted (quote_notMem_valueList key)
    (' ' :: '\'' :: (valueList [data] ++ ['\'']))
  have fourth := nextOf_quoted (quote_notMem_valueList data) []
  obtain ⟨parser₁, same₁, front₁, found⟩ :=
    @run_hasNext_bind (Option Call) (ofText (insertQuery name [key] [data]))
  rw [rest_ofText (Nat.le_of_lt size), first] at front₁ found
  obtain ⟨parser₂, same₂, left₂, read₂⟩ := @run_next_bind (Option Call) parser₁ _ _
    (by rw [same₁]; exact inside) front₁
  obtain ⟨parser₃, same₃, left₃, read₃⟩ := @run_next_bind (Option Call) parser₂ _ _
    (by rw [same₂, same₁]; exact inside) (by rw [left₂]; exact second)
  obtain ⟨parser₄, same₄, left₄, read₄⟩ := @run_next_bind (Option Call) parser₃ _ _
    (by rw [same₃, same₂, same₁]; exact inside) (by rw [left₃]; exact third)
  obtain ⟨parser₅, -, -, read₅⟩ := @run_next_bind (Option Call) parser₄ _ _
    (by rw [same₄, same₃, same₂, same₁]; exact inside) (by rw [left₄, nextOf_cons_space]; exact fourth)
  rw [query, found]
  simp only [Option.isSome_some, if_true]
  rw [read₂]
  dsimp only
  have opens : (onlyTable name short table).table name.text = some table := if_pos rfl
  rw [if_neg toUpper_insertWord.2, if_pos toUpper_insertWord.1, insert, read₃]
  simp only [opens, orFault, pure_bind]
  have written : name.text ≠ [] ∧ valueList [key] ≠ [] ∧ valueList [data] ≠ [] :=
    ⟨name.nonempty, List.cons_ne_nil _ _, List.cons_ne_nil _ _⟩
  rw [insertInto, run_newChars_bind keySize, run_newChars_bind dataSize, read₄, read₅]
  dsimp only
  rw [if_pos written, stripParentheses, substr_valueList keyFits, stripParentheses,
    substr_valueList dataFits]
  rfl

/-- Setting the first column to the only value of a list. -/
theorem setColumns_numeral {columns : DataStructure} {address : Nat} {value : Int}
    (fits : -2 ^ 63 ≤ value ∧ value < 2 ^ 63) (heap : Heap) :
    (setColumns atof temporary columns address 0 ((numeral value).length + 1)
        (ofText (numeral value))).run heap =
      match setData atof temporary columns address 0 (numeral value) heap.memory with
      | none => .error .outOfBounds
      | some memory => .ok (⟨⟩, { heap with memory }) := by
  have few := length_numeral_le fits
  have size : (numeral value).length ≤ intMax := by
    simp only [intMax]
    omega
  have inside : (intLength (ofText (numeral value)).str).toNat < intMax := by
    change (intLength (numeral value)).toNat < intMax
    rw [intLength_of_le size, Int.toNat_natCast]
    simp only [intMax]
    omega
  obtain ⟨fuel, enough⟩ : ∃ fuel, (numeral value).length = fuel + 1 :=
    Nat.exists_eq_add_one_of_ne_zero (Nat.ne_of_gt (List.length_pos_iff.mpr (numeralWord value).nonempty))
  rw [enough]
  exact setColumns_word (numeralWord value) (rest_ofText size) inside fuel heap

end OneValue

section Law

variable {name : Word} {short : name.text.length < 4096} {table : Table}

/-- The value 0 for every column. -/
def zeros (columns : DataStructure) : List Int := List.replicate columns.columns.length 0

theorem fitColumns_zeros {columns : DataStructure} (integers : columns.Integers) :
    FitColumns (zeros columns) columns := by
  rw [FitColumns, zeros, List.forall₂_iff_zip]
  refine ⟨by simp, fun {value column} member => ?_⟩
  have isZero : value = 0 := List.eq_of_mem_replicate (List.of_mem_zip member).1
  obtain ⟨type, rfl⟩ := integers column (List.of_mem_zip member).2
  refine ⟨type, rfl, ?_⟩
  rw [isZero]
  cases type <;> simp [InRange, Tables.DataTypes.getSize]

theorem load_ones {memory : Nat → UInt8} {address count : Nat}
    (ones : ∀ offset < count, memory (address + offset) = 1) :
    load memory address count = List.replicate count 1 := by
  have same : load memory address count = load (fun _ => (1 : UInt8)) address count := by
    apply load_congr
    intro at_ above below
    rw [← ones (at_ - address) (by omega), Nat.add_sub_cancel' above]
  rw [same]
  clear ones same
  induction count generalizing address with
  | zero => rfl
  | succ count ih => rw [load, ih, List.replicate_succ]

/-- In a record that is all ones no column holds the value 0. -/
theorem not_reads_ones {memory : Nat → UInt8} {address : Nat} {type : Tables.DataTypes}
    (ones : ∀ offset < type.getSize, memory (address + offset) = 1) :
    ¬ Reads memory address ⟨.integer type, type.getSize⟩ (.number 0) := by
  rintro ⟨_, same, zero⟩
  cases same
  rw [load_ones ones] at zero
  cases type <;> exact absurd zero (by decide)

theorem reads_of_load {memory : Nat → UInt8} {address : Nat} {type : Tables.DataTypes} {value : Int}
    (inRange : InRange type value)
    (stored : load memory address type.getSize = bytesOfInt type.getSize value) :
    Reads memory address ⟨.integer type, type.getSize⟩ (.number value) := by
  refine ⟨type, rfl, ?_⟩
  rw [stored, value_bytesOfInt inRange]

/-- A block of at most 8 bytes has the size of its record. -/
theorem intSize_one {columns : DataStructure} {type : Tables.DataTypes}
    (one : columns.columns = [⟨.integer type, type.getSize⟩]) :
    intSize columns = type.getSize := by
  rw [intSize, DataStructure.getSize, one]
  cases type <;> decide

theorem FitColumns.one {columns : DataStructure} {values : List Int} {type : Tables.DataTypes}
    (fit : FitColumns values columns) (one : columns.columns = [⟨.integer type, type.getSize⟩]) :
    ∃ value, values = [value] ∧ InRange type value := by
  rw [FitColumns, one, List.forall₂_cons_right_iff] at fit
  obtain ⟨value, rest, ⟨_, same, inRange⟩, last, rfl⟩ := fit
  cases same
  rw [List.forall₂_nil_right_iff] at last
  exact ⟨value, by rw [last], inRange⟩

theorem recordHolds_one {columns : DataStructure} {type : Tables.DataTypes} {value : Int}
    {memory : Nat → UInt8} {address : Nat} (one : columns.columns = [⟨.integer type, type.getSize⟩])
    (inRange : InRange type value)
    (stored : load memory address type.getSize = bytesOfInt type.getSize value) :
    RecordHolds memory columns address [value] := by
  intro idx other found
  cases idx with
  | zero =>
      cases found
      exact ⟨_, by rw [one]; rfl, reads_of_load inRange stored⟩
  | succ idx => cases found

theorem columns_of_one {columns : DataStructure} (integers : columns.Integers)
    (one : columns.columns.length = 1) :
    ∃ type : Tables.DataTypes, columns.columns = [⟨.integer type, type.getSize⟩] := by
  obtain ⟨column, isOne⟩ := List.length_eq_one_iff.mp one
  obtain ⟨type, rfl⟩ := integers column (by simp [isOne])
  exact ⟨type, isOne⟩

/-- Insertion fills a table with one column for the key and one for the data. -/
theorem insertLaw_of_one (keyIntegers : table.keyStruct.Integers)
    (dataIntegers : table.dataStruct.Integers) (keyOne : table.keyStruct.columns.length = 1)
    (dataOne : table.dataStruct.columns.length = 1) :
    InsertLaw atof temporary name short table := by
  obtain ⟨keyType, isKey⟩ := columns_of_one keyIntegers keyOne
  obtain ⟨dataType, isData⟩ := columns_of_one dataIntegers dataOne
  constructor
  case fills =>
    intro heap keys datas keysFit datasFit
    obtain ⟨key, rfl, keyRange⟩ := keysFit.one isKey
    obtain ⟨data, rfl, dataRange⟩ := datasFit.one isData
    have keySize := intSize_one isKey
    have dataSize := intSize_one isData
    have first : table.keyStruct.columns[0]? = some ⟨.integer keyType, keyType.getSize⟩ := by
      rw [isKey]
      rfl
    have second : table.dataStruct.columns[0]? = some ⟨.integer dataType, dataType.getSize⟩ := by
      rw [isData]
      rfl
    let dataBuf := heap.next + (intSize table.keyStruct).toNat
    let keyBytes := bytesOfInt keyType.getSize key
    let dataBytes := bytesOfInt dataType.getSize data
    have ran := @run_insertQuery atof temporary name short table key data keyRange.long
      dataRange.long (by omega) (by omega) heap
    let memory := store heap.memory heap.next keyBytes
    have keySet := @setData_integer atof temporary _ heap.memory heap.next 0 _ _ _ first
      (numeral_numeral key) keyRange
    have dataSet := @setData_integer atof temporary _ memory dataBuf 0 _ _ _ second
      (numeral_numeral data) dataRange
    let next := dataBuf + (intSize table.dataStruct).toNat
    have keyStep := @setColumns_numeral atof temporary table.keyStruct heap.next _ keyRange.long
      { heap with next }
    have dataStep := @setColumns_numeral atof temporary table.dataStruct dataBuf _ dataRange.long
      { memory, next }
    rw [keySet] at keyStep
    rw [dataSet] at dataStep
    have returned := ran.trans ((run_bind_ok keyStep).trans (run_bind_ok dataStep))
    refine ⟨_, _, returned, heap.next, dataBuf, rfl, ?_, ?_⟩
    · apply recordHolds_one isKey keyRange
      have read := @load_store _ heap.memory heap.next keyBytes
      rw [length_bytesOfInt] at read
      refine (load_store_apart (.inl ?_)).trans read
      simp only [offset_zero, dataBuf, keySize]
      omega
    · apply recordHolds_one isData dataRange
      have read := @load_store _ memory dataBuf dataBytes
      rw [length_bytesOfInt] at read
      exact read
  case inside =>
    intro heap q
    apply query_inside
    intro other found opens
    simp only [onlyTable] at opens
    split at opens
    · cases opens
      exact ⟨keyIntegers, by simp [isKey], dataIntegers, by simp [isData]⟩
    · cases opens

/-- Without a first column a value is written to a column that does not exist. -/
theorem nonempty_of_inside (keySize : 0 ≤ intSize table.keyStruct)
    (dataSize : 0 ≤ intSize table.dataStruct)
    (inside : ∀ (heap : Heap) (q : Text), FaultsOnly (· ≠ .outOfBounds)
      (query atof temporary (onlyTable name short table) q) heap) :
    table.keyStruct.columns ≠ [] ∧ table.dataStruct.columns ≠ [] := by
  have zero : (-2 : Int) ^ 63 ≤ 0 ∧ (0 : Int) < 2 ^ 63 := by omega
  have ran := @run_insertQuery atof temporary name short table 0 0 zero zero keySize dataSize
    ⟨fun _ => 0, 0⟩
  have keyStep := fun heap => @setColumns_numeral atof temporary table.keyStruct 0 0 zero heap
  have dataStep := fun address heap =>
    @setColumns_numeral atof temporary table.dataStruct address 0 zero heap
  have only := inside ⟨fun _ => 0, 0⟩ (insertQuery name [0] [0]) .outOfBounds
  constructor
  · intro empty
    have missing : ∀ memory, setData atof temporary table.keyStruct 0 0 (numeral 0) memory = none := by
      intro memory
      simp [setData, empty]
    simp only [missing] at keyStep
    exact only (ran.trans (run_bind_error (keyStep _))) rfl
  · intro empty
    have missing : ∀ address memory,
        setData atof temporary table.dataStruct address 0 (numeral 0) memory = none := by
      intro address memory
      simp [setData, empty]
    simp only [missing] at dataStep
    have step := fun next => keyStep ⟨fun _ => 0, next⟩
    cases set : setData atof temporary table.keyStruct 0 0 (numeral 0) (fun _ => 0) with
    | none =>
        simp only [set] at step
        exact only (ran.trans (run_bind_error (step _))) rfl
    | some memory =>
        simp only [set] at step
        exact only (ran.trans ((run_bind_ok (step _)).trans (run_bind_error (dataStep _ _)))) rfl

theorem firstSize_le {columns : DataStructure} (integers : columns.Integers) :
    firstSize columns ≤ 8 := by
  cases first : columns.columns with
  | nil => simp [firstSize, first]
  | cons column rest =>
      obtain ⟨type, rfl⟩ := integers column (by simp [first])
      simp only [firstSize, first, List.head?_cons, Option.map_some, Option.getD_some]
      exact getSize_le type

/-- A size that converts to a non-negative `int` is not larger than the `int` by less
than 2 to the 32. -/
theorem intSize_toNat {columns : DataStructure} (size : 0 ≤ intSize columns) :
    (intSize columns).toNat = columns.getSize ∨
      (intSize columns).toNat + 2 ^ 32 ≤ columns.getSize := by
  simp only [intSize, BitVec.toInt_eq_toNat_cond, BitVec.toNat_ofNat] at size ⊢
  split at size <;> omega

/-- A record of zeros is not all ones behind its first column. -/
theorem not_recordHolds_zeros {columns : DataStructure} (integers : columns.Integers)
    {memory : Nat → UInt8} {address : Nat} (several : 2 ≤ columns.columns.length)
    (ones : ∀ offset, firstSize columns ≤ offset → columns.getSize ≤ offset + 8 →
      offset < columns.getSize → memory (address + offset) = 1) :
    ¬ RecordHolds memory columns address (zeros columns) := by
  intro holds
  obtain ⟨idx, type, later, found, isLast⟩ := integers.exists_last several
  obtain ⟨first, foundFirst⟩ : ∃ first, columns.columns[0]? = some first :=
    ⟨_, List.getElem?_eq_getElem (by omega)⟩
  have before := integers.standard.offset_add_le foundFirst later
  have small := getSize_le type
  rw [offset_zero, Nat.zero_add, ← firstSize_eq foundFirst] at before
  have zero : (zeros columns)[idx]? = some 0 := by
    rw [zeros, List.getElem?_replicate_of_lt (List.getElem?_eq_some_iff.mp found).1]
  obtain ⟨column, found', reads⟩ := holds idx 0 zero
  rw [found] at found'
  cases found'
  refine not_reads_ones (fun offset inside => ?_) reads
  rw [Nat.add_assoc]
  exact ones _ (by omega) (by omega) (by omega)

theorem one_of_insertLaw (keyIntegers : table.keyStruct.Integers)
    (dataIntegers : table.dataStruct.Integers)
    (law : InsertLaw atof temporary name short table) :
    table.keyStruct.columns.length = 1 ∧ table.dataStruct.columns.length = 1 := by
  let ones : Heap := ⟨fun _ => 1, 0⟩
  obtain ⟨call, final, returned, key, data, rfl, keysHold, datasHold⟩ := law.fills ones _ _
    (fitColumns_zeros keyIntegers) (fitColumns_zeros dataIntegers)
  have only : ∀ other found, (onlyTable name short table).table other = some found →
      found = table := by
    intro other found opens
    simp only [onlyTable] at opens
    split at opens
    · cases opens
      rfl
    · cases opens
  have inserted := query_ensures only keyIntegers dataIntegers _ ones _ final returned _ key data rfl
  obtain ⟨keyNonempty, dataNonempty⟩ :=
    nonempty_of_inside inserted.keySize inserted.dataSize law.inside
  have keySome := List.length_pos_iff.mpr keyNonempty
  have dataSome := List.length_pos_iff.mpr dataNonempty
  have dataFirst := firstSize_le dataIntegers
  have keyBuf := inserted.keyBuf
  have dataBuf := inserted.dataBuf
  have keyOne : table.keyStruct.columns.length = 1 := by
    by_contra several
    refine not_recordHolds_zeros keyIntegers (by omega) (fun offset behind atEnd inside => ?_) keysHold
    -- the block of the data lies behind the record, or far before its end
    rcases intSize_toNat inserted.keySize with same | fewer
    · exact inserted.kept _ (.inr (by omega)) (.inl (by omega))
    · exact inserted.kept _ (.inr (by omega)) (.inr (by omega))
  refine ⟨keyOne, ?_⟩
  by_contra several
  obtain ⟨type, isKey⟩ := columns_of_one keyIntegers keyOne
  have keySize := intSize_one isKey
  have keyFirst : firstSize table.keyStruct = type.getSize := by
    rw [firstSize, isKey]
    rfl
  refine not_recordHolds_zeros dataIntegers (by omega) (fun offset behind _ _ => ?_) datasHold
  exact inserted.kept _ (.inr (by omega)) (.inr (by omega))

/-- `INSERT` fills a table of integer columns, and indexes no missing one, exactly when
it has one column for the key and one for the data. -/
theorem insertLaw_iff (keyIntegers : table.keyStruct.Integers)
    (dataIntegers : table.dataStruct.Integers) :
    InsertLaw atof temporary name short table ↔
      table.keyStruct.columns.length = 1 ∧ table.dataStruct.columns.length = 1 := by
  constructor
  · exact one_of_insertLaw keyIntegers dataIntegers
  · intro ⟨keyOne, dataOne⟩
    exact insertLaw_of_one keyIntegers dataIntegers keyOne dataOne

private theorem length_ints_le (count : Nat) (few : count ≤ intMax) :
    (List.replicate count (⟨.integer .int, 4⟩ : Column)).length ≤ intMax := by simpa using few

/-- `INT` columns. -/
def ints (count : Nat) (few : count ≤ intMax) : DataStructure :=
  ⟨List.replicate count ⟨.integer .int, 4⟩, length_ints_le count few⟩

theorem integers_ints (count : Nat) (few : count ≤ intMax) : (ints count few).Integers := by
  intro column member
  exact ⟨.int, List.eq_of_mem_replicate member⟩

private theorem nonempty_letterT : ['t'] ≠ [] := by decide

private theorem noSpace_letterT : ' ' ∉ ['t'] := by decide

private theorem unquoted_letterT : ['t'].head? ≠ some '\'' := by decide

def letterT : Word := ⟨['t'], nonempty_letterT, noSpace_letterT, unquoted_letterT⟩

/-- A table of `INT` columns. -/
def intTable (keys datas : Nat) (keysFew : keys ≤ intMax) (datasFew : datas ≤ intMax) : Table :=
  ⟨ints keys keysFew, ints datas datasFew⟩

theorem insertLaw_intInt :
    InsertLaw (fun _ => 0) 0 letterT (by decide) (intTable 1 1 (by decide) (by decide)) :=
  (insertLaw_iff (integers_ints 1 (by decide)) (integers_ints 1 (by decide))).mpr ⟨rfl, rfl⟩

/-- A key of two `INT` columns. -/
theorem not_insertLaw_twoKeys :
    ¬ ∀ (atof : Text → BitVec 64) (temporary : Nat) (name : Word)
      (short : name.text.length < 4096) (table : Table), table.keyStruct.Integers →
        table.dataStruct.Integers → InsertLaw atof temporary name short table := by
  intro claim
  have keyIntegers := integers_ints 2 (by decide)
  have dataIntegers := integers_ints 1 (by decide)
  have law := claim (fun _ => 0) 0 letterT (by decide) (intTable 2 1 (by decide) (by decide))
    keyIntegers dataIntegers
  exact absurd (one_of_insertLaw keyIntegers dataIntegers law).1 (by decide)

end Law

end PersistentBTree.Queries
