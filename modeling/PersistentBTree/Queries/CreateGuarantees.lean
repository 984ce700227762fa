import PersistentBTree.Queries.Database
import PersistentBTree.Queries.QueryProperties

/-! The query `CREATE` with lists of the documented types. The tokenizer blanks out
what is not a letter or a digit, so that an entry of the list becomes one token, or
two when it has a size. -/

set_option autoImplicit false

namespace PersistentBTree.Queries

open Imperative StringParser

/-- The types that the comment on the query strings lists. -/
inductive NamedType where
  | int
  | longlong
  | double
  | bool
  | string (size : Nat) (positive : 0 < size)

namespace NamedType

def written : NamedType → Text
  | int => ['I', 'N', 'T']
  | longlong => ['L', 'O', 'N', 'G', 'L', 'O', 'N', 'G']
  | double => ['D', 'O', 'U', 'B', 'L', 'E']
  | bool => ['B', 'O', 'O', 'L']
  | string size _ => ['S', 'T', 'R', 'I', 'N', 'G', '['] ++ Nat.toDigits 10 size ++ [']']

/-- The column has the type of this name, and room for its values. -/
def Names : NamedType → Column → Prop
  | int, column => column.type = .integer .int ∧ column.size ≠ 0
  | longlong, column => column.type = .integer .longlong ∧ column.size ≠ 0
  | double, column => column.type = .double ∧ column.size ≠ 0
  | bool, column => column.type = .integer .bool ∧ column.size ≠ 0
  | string size _, column => column.type = .string ∧ size ≤ column.size

/-- The names under which the tables of `GetType` and `GetSize` have the type. -/
def Known : NamedType → Prop
  | int | double | bool => True
  | longlong | string .. => False

/-- What the tokenizer makes of an entry of a list and the character behind it. -/
def entry (type : NamedType) : Text := type.written.map blank ++ " ".toList

end NamedType

open NamedType

/-- `(T1,...,Tn)`. -/
def typeList (types : List NamedType) : Text :=
  '(' :: [','].intercalate (types.map written) ++ [')']

theorem blank_typeList {types : List NamedType} (nonempty : types ≠ []) :
    (typeList types).map blank = ' ' :: types.flatMap entry := by
  have listed : ([','].intercalate (types.map written) ++ [')']).map blank =
      types.flatMap entry := by
    induction types with
    | nil => exact absurd rfl nonempty
    | cons first rest ih =>
        cases rest with
        | nil => simp [entry, blank, isalnum, List.intercalate]
        | cons second rest =>
            rw [List.map_cons, List.map_cons, List.intercalate_cons_cons, ← List.map_cons,
              List.append_assoc, List.append_assoc, List.map_append, List.map_append,
              ih (by simp), List.flatMap_cons]
            simp [entry, blank, isalnum]
  rw [typeList, List.cons_append, List.map_cons, listed]
  rfl

theorem written_string (size : Nat) (positive : 0 < size) :
    written (.string size positive) =
      ['S', 'T', 'R', 'I', 'N', 'G', '['] ++ Nat.toDigits 10 size ++ [']'] := rfl

theorem written_visible (type : NamedType) : ' ' ∉ type.written := by
  cases type with
  | string size positive =>
      have digitsOnly : ' ' ∉ Nat.toDigits 10 size := by
        intro inside
        have digit : ' '.isDigit = true :=
          Nat.isDigit_of_mem_toDigits (by omega) (Nat.le_refl 10) inside
        exact absurd digit (by decide)
      simp [written_string, digitsOnly]
  | int => decide
  | longlong => decide
  | double => decide
  | bool => decide

theorem space_notMem_typeList (types : List NamedType) : ' ' ∉ typeList types := by
  have listed : ' ' ∉ [','].intercalate (types.map written) := by
    induction types with
    | nil => simp
    | cons first rest ih =>
        cases rest with
        | nil => simpa using written_visible first
        | cons second rest =>
            rw [List.map_cons, List.map_cons, List.intercalate_cons_cons, ← List.map_cons,
              List.mem_append, List.mem_append]
            exact not_or.mpr ⟨not_or.mpr ⟨written_visible first, by decide⟩, ih⟩
  simp [typeList, listed]

def typeWord (types : List NamedType) : Word where
  text := typeList types
  nonempty := by simp [typeList]
  noSpace := space_notMem_typeList types
  unquoted := by simp [typeList]

/-! ## Tokens of a list of types -/

theorem fieldsOf_nil : fieldsOf [] = [] := fieldsOf_of_none rfl

/-- The first token of a text that begins with a word and is cut off. -/
theorem fieldsOf_take (word : Word) (after : Text) {count : Nat} (positive : 0 < count) :
    fieldsOf ((word.text ++ ' ' :: after).take count) =
      word.text.take count :: fieldsOf (after.take (count - word.text.length - 1)) :=
  fieldsOf_of_some (nextOf_take word (by simp) positive)

theorem entry_plain {type : NamedType} (plain : ∀ size positive, type ≠ .string size positive) :
    ∃ word : Word, word.text = type.written ∧ type.entry = word.text ++ [' '] ∧
      word.text.length ≤ 8 := by
  cases type with
  | int => exact ⟨⟨written .int, by decide, by decide, by decide⟩, rfl, by decide, by decide⟩
  | longlong =>
      exact ⟨⟨written .longlong, by decide, by decide, by decide⟩, rfl, by decide, by decide⟩
  | double => exact ⟨⟨written .double, by decide, by decide, by decide⟩, rfl, by decide, by decide⟩
  | bool => exact ⟨⟨written .bool, by decide, by decide, by decide⟩, rfl, by decide, by decide⟩
  | string size positive => exact absurd rfl (plain size positive)

def stringWord : Word := ⟨['S', 'T', 'R', 'I', 'N', 'G'], by decide, by decide, by decide⟩

/-- A decimal number as a word. -/
def numberWord (value : Nat) : Word where
  text := Nat.toDigits 10 value
  nonempty := Nat.toDigits_ne_nil
  noSpace inside := by
    have digit : ' '.isDigit = true :=
      Nat.isDigit_of_mem_toDigits (by omega) (Nat.le_refl 10) inside
    exact absurd digit (by decide)
  unquoted first := by
    have digit : '\''.isDigit = true :=
      Nat.isDigit_of_mem_toDigits (by omega) (Nat.le_refl 10) (List.mem_of_mem_head? first)
    exact absurd digit (by decide)

theorem blank_digit {char : Char} (digit : char.isDigit) : blank char = char := by
  simp [blank, isalnum, Char.isAlphanum, digit]

theorem entry_string (size : Nat) (positive : 0 < size) :
    entry (.string size positive) =
      stringWord.text ++ ' ' :: ((numberWord size).text ++ ' ' :: [' ']) := by
  have kept : (Nat.toDigits 10 size).map blank = Nat.toDigits 10 size := by
    rw [List.map_congr_left (g := id), List.map_id]
    intro char inside
    exact blank_digit (Nat.isDigit_of_mem_toDigits (by omega) (Nat.le_refl 10) inside)
  rw [entry, written_string, List.map_append, List.map_append, kept]
  simp [stringWord, numberWord, blank, isalnum]

/-- A token that begins with a digit is not the name of a type. -/
theorem not_names_number (type : NamedType) {text : Text} {char : Char}
    (first : text.head? = some char) (digit : char.isDigit) : ¬ Names type (columnOf text) := by
  obtain ⟨more, rfl⟩ := List.head?_eq_some_iff.mp first
  have notLetter : ∀ letter, letter.isDigit = false → char ≠ letter := by
    rintro letter other rfl
    rw [digit] at other
    cases other
  have unknown : (columnOf (char :: more)).type = .ntypes := by
    simp [columnOf, CVariant.getType, notLetter 'S' (by decide), notLetter 'I' (by decide),
      notLetter 'D' (by decide), notLetter 'B' (by decide)]
  cases type <;> simp [Names, unknown]

theorem not_names_numberWord (type : NamedType) {value count : Nat} (positive : 0 < count) :
    ¬ Names type (columnOf ((numberWord value).text.take count)) := by
  obtain ⟨char, more, digits⟩ := List.exists_cons_of_ne_nil (numberWord value).nonempty
  have inside : char ∈ Nat.toDigits 10 value := by
    rw [← show (numberWord value).text = Nat.toDigits 10 value from rfl, digits]
    exact List.mem_cons_self
  apply not_names_number type
  · rw [List.head?_take, if_neg (Nat.ne_of_gt positive), digits, List.head?_cons]
  · exact Nat.isDigit_of_mem_toDigits (by omega) (Nat.le_refl 10) inside

/-- A cut off `STRING` is no name, and without a number it has room for 24 bytes. -/
theorem names_stringWord {size count : Nat} {positive : 0 < size}
    (named : Names (.string size positive) (columnOf (stringWord.text.take count))) :
    6 ≤ count ∧ size ≤ 24 := by
  by_cases whole : 6 ≤ count
  · have all : stringWord.text.take count = stringWord.text := List.take_of_length_le whole
    rw [all] at named
    exact ⟨whole, named.2⟩
  · have cut : ∀ few < 6, (columnOf (stringWord.text.take few)).type ≠ .string := by decide
    exact absurd named.1 (cut count (Nat.lt_of_not_le whole))

/-- When nothing is left of a list there are no entries. -/
theorem names_nil {types : List NamedType} {text : Text} {count : Nat} (none : count = 0)
    (named : List.Forall₂ Names types ((fieldsOf (text.take count)).map columnOf)) :
    types = [] := by
  rw [none, List.take_zero, fieldsOf_nil] at named
  cases named
  rfl

theorem not_names_longlong : ¬ Names .longlong (columnOf (written .longlong)) := by
  intro named
  exact absurd named.1 (by decide)

/-- A list whose tokens match its entries is cut off behind the first letter of the
last entry at the earliest, and if it is whole all entries are known. -/
theorem names_take {types : List NamedType} {count : Nat}
    (named : List.Forall₂ Names types
      ((fieldsOf ((types.flatMap entry).take count)).map columnOf)) :
    (types.flatMap entry).length ≤ count + 10 ∧
      ((types.flatMap entry).length ≤ count → ∀ type ∈ types, type.Known) := by
  induction types generalizing count with
  | nil => simp
  | cons first rest ih =>
      rcases Nat.eq_zero_or_pos count with none | positive
      · exact absurd (names_nil none named) (by simp)
      rw [List.flatMap_cons] at named ⊢
      by_cases sized : ∃ size sizePositive, first = .string size sizePositive
      · obtain ⟨size, sizePositive, rfl⟩ := sized
        rw [entry_string, List.append_assoc, List.cons_append, List.append_assoc,
          List.cons_append, fieldsOf_take _ _ positive, List.map_cons] at named
        obtain ⟨head, tail⟩ := List.forall₂_cons.mp named
        obtain ⟨enough, small⟩ := names_stringWord head
        rcases Nat.eq_zero_or_pos (count - stringWord.text.length - 1) with none | more
        · -- the list ends with `STRING`, whose size has two digits
          have last := names_nil none tail
          have short : (numberWord size).text.length ≤ 2 :=
            (Nat.length_toDigits_le_iff (by omega) (by omega)).mpr (by omega)
          have length : stringWord.text.length = 6 := rfl
          subst last
          simp only [entry_string, List.flatMap_nil, List.append_nil, List.length_append,
            List.length_cons, List.length_nil]
          omega
        · -- the size is a token of its own
          rw [fieldsOf_take _ _ more, List.map_cons] at tail
          cases rest with
          | nil => cases tail
          | cons second others =>
              exfalso
              obtain ⟨number, -⟩ := List.forall₂_cons.mp tail
              exact not_names_numberWord second more number
      · obtain ⟨word, isWritten, isEntry, short⟩ :=
          entry_plain fun size sizePositive same => sized ⟨size, sizePositive, same⟩
        rw [isEntry, List.append_assoc, List.singleton_append,
          fieldsOf_take _ _ positive, List.map_cons] at named
        obtain ⟨head, tail⟩ := List.forall₂_cons.mp named
        obtain ⟨length, known⟩ := ih tail
        rw [isEntry, List.length_append, List.length_append, List.length_singleton]
        refine ⟨?_, fun whole => ?_⟩
        · rcases Nat.eq_zero_or_pos (count - word.text.length - 1) with none | more
          · rw [names_nil none tail, List.flatMap_nil, List.length_nil]
            omega
          · omega
        · have all : word.text.take count = first.written := by
            rw [List.take_of_length_le (by omega), isWritten]
          rw [List.forall_mem_cons]
          refine ⟨?_, known (by omega)⟩
          rw [all] at head
          cases first with
          | longlong => exact absurd head not_names_longlong
          | string size sizePositive => exact absurd ⟨size, sizePositive, rfl⟩ sized
          | _ => trivial

/-- A whole list of known names is understood entry by entry. -/
theorem names_known {types : List NamedType} (known : ∀ type ∈ types, type.Known) :
    List.Forall₂ Names types ((fieldsOf (types.flatMap entry)).map columnOf) := by
  induction types with
  | nil =>
      rw [List.flatMap_nil, fieldsOf_nil]
      exact .nil
  | cons first rest ih =>
      rw [List.forall_mem_cons] at known
      have plain : ∀ size positive, first ≠ .string size positive := by
        rintro size positive rfl
        exact known.1
      obtain ⟨word, isWritten, isEntry, -⟩ := entry_plain plain
      have read : nextOf (word.text ++ ' ' :: rest.flatMap entry) =
          some (word.text, rest.flatMap entry) := nextOf_word word (by simp)
      rw [List.flatMap_cons, isEntry, List.append_assoc, List.singleton_append,
        fieldsOf_of_some read, List.map_cons, isWritten]
      refine .cons ?_ (ih known.2)
      cases first with
      | int => exact ⟨by decide, by decide⟩
      | double => exact ⟨by decide, by decide⟩
      | bool => exact ⟨by decide, by decide⟩
      | longlong => exact known.1.elim
      | string size positive => exact known.1.elim

/-! ## The query -/

def createWord : Word := ⟨['C', 'R', 'E', 'A', 'T', 'E'], by decide, by decide, by decide⟩

/-- `CREATE name (T1,...,Tn) (U1,...,Um)`. -/
def createQuery (name : Word) (keys datas : List NamedType) : Text :=
  createWord.text ++ ' ' :: (name.text ++ ' ' :: (typeList keys ++ ' ' :: typeList datas))

theorem length_createQuery (name : Word) (keys datas : List NamedType) :
    (createQuery name keys datas).length =
      9 + name.text.length + (typeList keys).length + (typeList datas).length := by
  have create : createWord.text.length = 6 := by decide
  simp only [createQuery, List.length_append, List.length_cons, create]
  omega

/-- The call creates the table, with one column for each entry of the two lists. -/
def Creates (name : Word) (keys datas : List NamedType) (call : Option Call) : Prop :=
  ∃ keySt dataSt, call = some (.create name.text keySt dataSt) ∧
    List.Forall₂ Names keys keySt.columns ∧ List.Forall₂ Names datas dataSt.columns

def Understands (atof : Text → BitVec 64) (temporary : Nat) (disk : Disk) (heap : Heap)
    (name : Word) (keys datas : List NamedType) : Prop :=
  Runs (query atof temporary disk (createQuery name keys datas)) heap fun call _ =>
    Creates name keys datas call

variable {atof : Text → BitVec 64} {temporary : Nat} {disk : Disk} {heap : Heap}
  {name : Word} {keys datas : List NamedType}

/-- The tokens of a list of types that may be cut off. -/
theorem fieldsOf_typeList (nonempty : keys ≠ []) {count : Nat} (positive : 0 < count) :
    fieldsOf (((typeList keys).take count).map blank) =
      fieldsOf ((keys.flatMap entry).take (count - 1)) := by
  obtain ⟨more, rfl⟩ := Nat.exists_eq_add_one_of_ne_zero (Nat.ne_of_gt positive)
  rw [List.map_take, blank_typeList nonempty, List.take_succ_cons, fieldsOf_cons_space,
    Nat.add_sub_cancel]

theorem toUpper_createWord : toUpper createWord.text = "CREATE".toList := by decide

theorem ofTypes_eq_some {types : List Text} (count : types.length ≤ intMax) :
    ∃ columns, DataStructure.ofTypes types = some columns ∧
      columns.columns = types.map columnOf := by
  rw [DataStructure.ofTypes, dif_pos count]
  exact ⟨_, rfl, rfl⟩

theorem columns_of_ofTypes {types : List Text} {columns : DataStructure}
    (made : DataStructure.ofTypes types = some columns) :
    columns.columns = types.map columnOf := by
  rw [DataStructure.ofTypes] at made
  split at made
  · cases made
    rfl
  · cases made

theorem columns_runs {types : List NamedType} (nonempty : types ≠ [])
    (known : ∀ type ∈ types, type.Known) (short : (typeList types).length < intMax) :
    Runs (tokenize ((typeList types).length + 1)) (ofText (typeList types)) fun tokens _ =>
      ∃ columns, DataStructure.ofTypes tokens = some columns ∧
        List.Forall₂ Names types columns.columns := by
  apply (tokenize_runs short).mono
  rintro tokens - rfl
  rw [blank_typeList nonempty, fieldsOf_cons_space]
  have few := length_fieldsOf_le (types.flatMap entry)
  have length : ((typeList types).map blank).length = (types.flatMap entry).length + 1 := by
    rw [blank_typeList nonempty, List.length_cons]
  rw [List.length_map] at length
  obtain ⟨columns, made, isMap⟩ := @ofTypes_eq_some (fieldsOf (types.flatMap entry)) (by omega)
  refine ⟨columns, made, ?_⟩
  rw [isMap]
  exact names_known known

theorem understands_of_known (keysNonempty : keys ≠ []) (datasNonempty : datas ≠ [])
    (known : ∀ type ∈ keys ++ datas, type.Known)
    (short : (createQuery name keys datas).length < intMax) :
    Understands atof temporary disk heap name keys datas := by
  have size : (intLength (createQuery name keys datas)).toNat < intMax := by
    rwa [intLength_of_le (Nat.le_of_lt short), Int.toNat_natCast]
  have length := length_createQuery name keys datas
  rw [List.forall_mem_append] at known
  have first : nextOf (createQuery name keys datas) = some (createWord.text, _) :=
    nextOf_word createWord (by simp)
  have second := @nextOf_word name (' ' :: (typeList keys ++ ' ' :: typeList datas)) (by simp)
  have third := @nextOf_word (typeWord keys) (' ' :: typeList datas) (by simp)
  have fourth := @nextOf_word (typeWord datas) [] (by simp)
  rw [List.append_nil] at fourth
  rw [Understands, query, runs_bind, runs_runOn]
  apply (hasNext_nextOf _).mono
  intro more parser ⟨same, reads, found⟩
  rw [rest_ofText (Nat.le_of_lt short), first] at reads found
  have str : parser.str = createQuery name keys datas := same
  dsimp only
  rw [if_pos (found.mpr (by simp))]
  apply runs_next_bind (by rwa [str]) reads
  intro parser same left
  dsimp only
  rw [toUpper_createWord, if_pos rfl]
  rw [str] at same
  apply runs_next_bind (by rwa [same]) (by rw [left]; exact second)
  intro parser same' left
  rw [same] at same'
  apply runs_next_bind (by rwa [same']) (by rw [left]; exact third)
  intro parser same'' left
  rw [same'] at same''
  apply runs_next_bind (by rwa [same'']) (by rw [left]; exact fourth)
  intro parser _ _
  dsimp only
  rw [if_pos ⟨name.nonempty, (typeWord keys).nonempty, (typeWord datas).nonempty⟩, runs_bind,
    runs_runOn]
  apply (columns_runs keysNonempty known.1 (by omega)).mono
  intro tokens _ ⟨keySt, made, keysNamed⟩
  dsimp only
  rw [made, runs_bind, runs_orFault]
  refine ⟨keySt, rfl, ?_⟩
  rw [runs_bind, runs_runOn]
  apply (columns_runs datasNonempty known.2 (by omega)).mono
  intro tokens _ ⟨dataSt, made, datasNamed⟩
  dsimp only
  rw [made, runs_bind, runs_orFault]
  refine ⟨dataSt, rfl, ?_⟩
  rw [runs_pure]
  exact ⟨keySt, dataSt, rfl, keysNamed, datasNamed⟩

theorem not_creates_none : ¬ Creates name keys datas none := by
  rintro ⟨_, _, same, -⟩
  cases same

/-- What is left of a query may be cut off. It creates the table only when the
beginning of the last list is left. -/
theorem read_of_create {parser : StringParser} {count : Nat}
    (left : parser.rest =
      (name.text ++ ' ' :: (typeList keys ++ ' ' :: typeList datas)).take count)
    (inside : count ≤ (intLength parser.str).toNat)
    (runs : Runs (create parser) heap fun call _ => Creates name keys datas call) :
    ∃ few, 0 < few ∧ count = name.text.length + (typeList keys).length + 2 + few ∧
      (intLength parser.str).toNat < intMax ∧
      List.Forall₂ Names keys ((fieldsOf ((typeList keys).map blank)).map columnOf) ∧
      List.Forall₂ Names datas
        ((fieldsOf (((typeList datas).take few).map blank)).map columnOf) := by
  let count₂ := count - name.text.length - 1
  let few := count₂ - (typeList keys).length - 1
  have front₁ : (nextOf parser.rest).getD ([], []) =
      (name.text.take count, (typeList keys ++ ' ' :: typeList datas).take count₂) := by
    rw [left]
    exact getD_nextOf_take name (by simp) count
  obtain ⟨-, parser₁, same₁, left₁, runs⟩ := read_of_next_bind front₁ runs
  have front₂ : (nextOf parser₁.rest).getD ([], []) =
      ((typeList keys).take count₂, (typeList datas).take few) := by
    rw [left₁]
    exact getD_nextOf_take (typeWord keys) (by simp) count₂
  obtain ⟨-, parser₂, same₂, left₂, runs⟩ := read_of_next_bind front₂ runs
  have front₃ : (nextOf parser₂.rest).getD ([], []) = ((typeList datas).take few, []) := by
    have front := @getD_nextOf_take (typeWord datas) [] (by simp) few
    rw [List.append_nil, List.drop_nil, List.take_nil] at front
    rw [left₂]
    exact front
  obtain ⟨passable, parser₃, -, -, runs⟩ := read_of_next_bind front₃ runs
  dsimp only at runs
  by_cases all : name.text.take count ≠ [] ∧ (typeList keys).take count₂ ≠ [] ∧
      (typeList datas).take few ≠ []
  · have positive : 0 < few := by
      rcases Nat.eq_zero_or_pos few with none | positive
      · exact absurd (by rw [none, List.take_zero]) all.2.2
      · exact positive
    have keysWhole : (typeList keys).take count₂ = typeList keys :=
      List.take_of_length_le (by omega)
    have nameWhole : name.text.take count = name.text := List.take_of_length_le (by omega)
    rw [left₂, show (typeList datas).take few = ((typeWord datas).take positive).text from rfl]
      at passable
    have short := short_of_passable _ passable
    rw [same₂, same₁] at short
    have datasShort : ((typeList datas).take few).length < intMax := by
      rw [List.length_take]
      omega
    rw [if_pos all, keysWhole, nameWhole, runs_bind, runs_runOn] at runs
    obtain ⟨keyTypes, _, -, rfl, runs⟩ := (tokenize_runs (by omega)).and runs
    dsimp only at runs
    rw [runs_bind, runs_orFault] at runs
    obtain ⟨keySt, keysMade, runs⟩ := runs
    rw [runs_bind, runs_runOn] at runs
    obtain ⟨dataTypes, _, -, rfl, runs⟩ := (tokenize_runs datasShort).and runs
    dsimp only at runs
    rw [runs_bind, runs_orFault] at runs
    obtain ⟨dataSt, datasMade, runs⟩ := runs
    rw [runs_pure] at runs
    obtain ⟨_, _, same, keysNamed, datasNamed⟩ := runs
    simp only [Option.some.injEq, Call.create.injEq] at same
    obtain ⟨-, rfl, rfl⟩ := same
    rw [columns_of_ofTypes keysMade] at keysNamed
    rw [columns_of_ofTypes datasMade] at datasNamed
    exact ⟨few, positive, by omega, short, keysNamed, datasNamed⟩
  · rw [if_neg all, runs_pure] at runs
    exact absurd runs not_creates_none

theorem not_command_of_lt : ∀ few < 6, toUpper (createWord.text.take few) ≠ "CREATE".toList ∧
    toUpper (createWord.text.take few) ≠ "INSERT".toList ∧
      toUpper (createWord.text.take few) ≠ "GET".toList := by decide

theorem read_of_understands (understands : Understands atof temporary disk heap name keys datas) :
    ∃ count, 0 < count ∧
      (intLength (createQuery name keys datas)).toNat =
        9 + name.text.length + (typeList keys).length + count ∧
      (intLength (createQuery name keys datas)).toNat < intMax ∧
      List.Forall₂ Names keys ((fieldsOf ((typeList keys).map blank)).map columnOf) ∧
      List.Forall₂ Names datas
        ((fieldsOf (((typeList datas).take count).map blank)).map columnOf) := by
  let count₀ := (intLength (createQuery name keys datas)).toNat
  rw [Understands, query, runs_bind, runs_runOn] at understands
  obtain ⟨more, parser, -, ⟨same, reads, -⟩, runs⟩ := (hasNext_nextOf _).and understands
  dsimp only at runs
  cases more with
  | false => exact absurd (by simpa using runs) not_creates_none
  | true =>
      rw [if_pos rfl] at runs
      have front : (nextOf parser.rest).getD ([], []) = (createWord.text.take count₀,
          (name.text ++ ' ' :: (typeList keys ++ ' ' :: typeList datas)).take
            (count₀ - 6 - 1)) := by
        rw [reads, rest, ofText, List.drop_zero, seen]
        exact getD_nextOf_take createWord (by simp) count₀
      obtain ⟨-, parser₁, same₁, left₁, runs⟩ := read_of_next_bind front runs
      have str : parser₁.str = createQuery name keys datas := same₁.trans same
      dsimp only at runs
      by_cases whole : 6 ≤ count₀
      · have all : createWord.text.take count₀ = createWord.text := List.take_of_length_le whole
        rw [all, toUpper_createWord, if_pos rfl] at runs
        obtain ⟨count, positive, reaches, short, named⟩ :=
          read_of_create left₁ (by rw [str]; omega) runs
        rw [str] at short
        exact ⟨count, positive, by omega, short, named⟩
      · obtain ⟨noCreate, noInsert, noGet⟩ := not_command_of_lt count₀ (Nat.lt_of_not_le whole)
        rw [if_neg noCreate, if_neg noInsert, if_neg noGet, runs_pure] at runs
        exact absurd runs not_creates_none

theorem known_of_understands (keysNonempty : keys ≠ []) (datasNonempty : datas ≠ [])
    (understands : Understands atof temporary disk heap name keys datas) :
    (∀ type ∈ keys ++ datas, type.Known) ∧ (createQuery name keys datas).length < intMax := by
  obtain ⟨count, positive, reaches, short, keysNamed, datasNamed⟩ :=
    read_of_understands understands
  rw [blank_typeList keysNonempty, fieldsOf_cons_space] at keysNamed
  rw [fieldsOf_typeList datasNonempty positive] at datasNamed
  have whole : (keys.flatMap entry).take (keys.flatMap entry).length = keys.flatMap entry :=
    List.take_length
  rw [← whole] at keysNamed
  obtain ⟨nearly, datasKnown⟩ := names_take datasNamed
  have length := length_createQuery name keys datas
  have datasLength := congrArg List.length (blank_typeList datasNonempty)
  rw [List.length_map, List.length_cons] at datasLength
  have all := length_le_of_seen (by omega)
    (show (createQuery name keys datas).length ≤ _ + 10 by omega)
  rw [List.forall_mem_append]
  exact ⟨⟨(names_take keysNamed).2 (Nat.le_refl _), datasKnown (by omega)⟩, by omega⟩

/-- `CREATE` understands two lists of types exactly when they name no `LONGLONG` and
no `STRING`, and the parser can pass the query. -/
theorem understands_iff (keysNonempty : keys ≠ []) (datasNonempty : datas ≠ []) :
    Understands atof temporary disk heap name keys datas ↔
      (∀ type ∈ keys ++ datas, type.Known) ∧ (createQuery name keys datas).length < intMax := by
  constructor
  · exact known_of_understands keysNonempty datasNonempty
  · intro ⟨known, short⟩
    exact understands_of_known keysNonempty datasNonempty known short

def noTables : Disk := ⟨fun _ => none, by simp⟩

def emptyHeap : Heap := ⟨fun _ => 0, 0⟩

def tableT : Word := ⟨['t'], by decide, by decide, by decide⟩

/-- `CREATE t (INT) (DOUBLE,BOOL)`. -/
theorem understands_intDoubleBool :
    Understands (fun _ => 0) 0 noTables emptyHeap tableT [.int] [.double, .bool] :=
  (understands_iff (by decide) (by decide)).mpr ⟨by simp [Known], by decide⟩

/-- `CREATE t (LONGLONG) (INT)`. -/
theorem not_understands_longlong :
    ¬ ∀ (atof : Text → BitVec 64) (temporary : Nat) (disk : Disk) (heap : Heap) (name : Word)
      (keys datas : List NamedType), keys ≠ [] → datas ≠ [] →
        Understands atof temporary disk heap name keys datas := by
  intro claim
  have understands := claim (fun _ => 0) 0 noTables emptyHeap tableT [.longlong] [.int]
    (by simp) (by simp)
  exact (known_of_understands (by simp) (by simp) understands).1 .longlong (by simp)

end PersistentBTree.Queries
