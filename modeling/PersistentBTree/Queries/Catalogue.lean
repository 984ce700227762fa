import Mathlib.Data.Set.Pairwise.Basic
import Mathlib.Logic.Function.Basic
import PersistentBTree.Queries.Session

/-! What queries are for: a catalogue of tables, each with the columns that it was created
with and with the number of its rows. A query says what it does with the catalogue in its
first four words, and everything else that is in it does not matter. -/

set_option autoImplicit false

namespace PersistentBTree.Queries

open StringParser

/-! ## Statements -/

/-- What a query says; the command is in capital letters. -/
structure Statement where
  command : Text
  name : Text
  keyStr : Text
  dataStr : Text

def readStatement : Parsing Statement := do
  let _ ← hasNext
  let word ← next
  let name ← next
  let keyStr ← next
  let dataStr ← next
  pure ⟨toUpper word, name, keyStr, dataStr⟩

/-- The columns that a list of types names. -/
def columnsOf (types : Text) : Option DataStructure :=
  match (tokenize (types.length + 1)).run (ofText types) with
  | .ok (names, _) => DataStructure.ofTypes names
  | .error _ => none

namespace Statement

/-- A query that is too long to be read says nothing. -/
def ofQuery (q : Text) : Statement :=
  match readStatement.run (ofText q) with
  | .ok (statement, _) => statement
  | .error _ => ⟨[], [], [], []⟩

variable (statement : Statement)

def Complete : Prop := statement.name ≠ [] ∧ statement.keyStr ≠ [] ∧ statement.dataStr ≠ []

def Creates : Prop := statement.command = "CREATE".toList ∧ statement.Complete

def Inserts : Prop := statement.command = "INSERT".toList ∧ statement.Complete

/-- The files of the table may be written. -/
def Writes (name : Text) : Prop := (statement.Creates ∨ statement.Inserts) ∧ statement.name = name

instance decidableComplete : Decidable statement.Complete :=
  inferInstanceAs (Decidable (_ ∧ _ ∧ _))

instance decidableCreates : Decidable statement.Creates := inferInstanceAs (Decidable (_ ∧ _))

instance decidableInserts : Decidable statement.Inserts := inferInstanceAs (Decidable (_ ∧ _))

instance decidableWrites (name : Text) : Decidable (statement.Writes name) :=
  inferInstanceAs (Decidable (_ ∧ _))

end Statement

/-! ## The files of a table -/

/-- The file with the pages and the one with the header. -/
def pathsOf (name : Text) : List Text := [name, name ++ "_header".toList]

section Locate

/- The file that a path leads to. -/
variable {Location : Type} (locate : Text → Location)

def SharesFile (one other : Text) : Prop :=
  ∃ path ∈ pathsOf one, ∃ path' ∈ pathsOf other, locate path = locate path'

/-- Tables with these names have all their files for themselves. -/
def Separate (names : Set Text) : Prop :=
  names.Pairwise fun one other => ¬ SharesFile locate one other

instance decidableSharesFile [DecidableEq Location] (one other : Text) :
    Decidable (SharesFile locate one other) :=
  inferInstanceAs (Decidable (∃ path ∈ pathsOf one, ∃ path' ∈ pathsOf other,
    locate path = locate path'))

end Locate

/-- The names of the tables that exist. -/
def Files.names {S : Type} (files : Files S) : Set Text := { name | (files.file name).isSome }

/-- The step gives the name of this table. -/
def Step.Names {K D : Type} (name : Text) : Step K D → Prop
  | .open_ opened => opened = name
  | .query q => (Statement.ofQuery q).name = name
  | _ => False

/-- The names of the tables that exist and of those that a program names. -/
def namesOf {K D S : Type} (files : Files S) (steps : List (Step K D)) : Set Text :=
  { name | name ∈ files.names ∨ ∃ step ∈ steps, step.Names name }

/-! ## The catalogue -/

structure Entry where
  keyStruct : DataStructure
  dataStruct : DataStructure
  rows : Nat

def Entry.withRow (entry : Entry) : Entry := { entry with rows := entry.rows + 1 }

abbrev Catalogue := Text → Option Entry

/-- The system makes files with this name. -/
def CanMake (canCreate : Text → Bool) (name : Text) : Prop :=
  canCreate name = true ∧ name.length < 4096

instance decidableCanMake (canCreate : Text → Bool) (name : Text) :
    Decidable (CanMake canCreate name) := inferInstanceAs (Decidable (_ ∧ _))

namespace Catalogue

def empty : Catalogue := fun _ => none

/-- The catalogue after a statement. -/
def obey (canCreate : Text → Bool) (catalogue : Catalogue) (statement : Statement) : Catalogue :=
  if statement.Creates ∧ CanMake canCreate statement.name then
    Function.update catalogue statement.name
      (match columnsOf statement.keyStr, columnsOf statement.dataStr with
      | some keyStruct, some dataStruct => some ⟨keyStruct, dataStruct, 0⟩
      | _, _ => none)
  else if statement.Inserts then
    Function.update catalogue statement.name ((catalogue statement.name).map Entry.withRow)
  else catalogue

/-- The catalogue after some queries. -/
def after (canCreate : Text → Bool) (qs : List Text) : Catalogue :=
  qs.foldl (fun catalogue q => catalogue.obey canCreate (.ofQuery q)) empty

end Catalogue

end PersistentBTree.Queries
