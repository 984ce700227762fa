import PersistentBTree.Queries.QueryProperties

/-! How a query can end: with which faults it stops, and which call it makes. -/

set_option autoImplicit false

namespace PersistentBTree.Queries

open Imperative StringParser

/-- A fault that needs neither a missing table nor a missing column. -/
def Ordinary (fault : Fault) : Prop := fault ≠ .null ∧ fault ≠ .outOfBounds

/-- The first two words of a query. -/
def firstWords : Parsing (Text × Text) := do
  let _ ← hasNext
  let word ← next
  let name ← next
  pure (toUpper word, name)

namespace Call

/-- The first word of a query that makes such a call. -/
def command : Call → Text
  | .create .. => "CREATE".toList
  | .insert .. => "INSERT".toList
  | .find .. => "GET".toList

def name : Call → Text
  | .create name .. => name
  | .insert name .. => name
  | .find name .. => name

end Call

/-- The query has these first words. -/
def Begins (q command name : Text) : Prop :=
  ∃ after, firstWords.run (ofText q) = .ok ((command, name), after)

section Outcomes

variable {atof : Text → BitVec 64} {temporary : Nat} {disk : Disk} {allowed : Fault → Prop}

/-! ## The parts of a query -/

theorem hasNext_runsOr (parser : StringParser) (heap : Heap) :
    RunsOr allowed (runOn hasNext parser) heap fun result after =>
      hasNext.run parser = .ok result ∧ after = heap :=
  RunsOr.runOn (.of_runs (hasNext_runs parser))

variable (ordinary : ∀ fault, Ordinary fault → allowed fault)

include ordinary

theorem next_runsOr (parser : StringParser) (heap : Heap) :
    RunsOr allowed (runOn next parser) heap fun result after =>
      next.run parser = .ok result ∧ after = heap := by
  refine RunsOr.runOn ((next_faultsOnly parser).mono fun fault overflows => ordinary fault ?_)
  rw [overflows]
  exact ⟨nofun, nofun⟩

theorem tokenize_faultsOnly_runOn (fuel : Nat) (parser : StringParser) (heap : Heap) :
    FaultsOnly allowed (runOn (tokenize fuel) parser) heap := by
  refine FaultsOnly.runOn ((tokenize_faultsOnly fuel parser).mono fun fault either => ?_)
  apply ordinary
  rcases either with rfl | rfl <;> exact ⟨nofun, nofun⟩

theorem newChars_faultsOnly (size : Int) (heap : Heap) :
    FaultsOnly allowed (newChars size) heap := by
  unfold newChars
  split
  · exact .throw (ordinary _ ⟨nofun, nofun⟩)
  · exact .pure

theorem stripParentheses_faultsOnly (str : Text) (heap : Heap) :
    FaultsOnly allowed (stripParentheses str) heap :=
  .orFault (ordinary .outOfRange ⟨nofun, nofun⟩) _

/-! ## The branches -/

theorem create_runsOr (parser : StringParser) (heap : Heap) :
    RunsOr allowed (create parser) heap fun call _ => ∀ made ∈ call,
      made.command = "CREATE".toList ∧ ∃ after, next.run parser = .ok (made.name, after) := by
  unfold create
  refine (next_runsOr ordinary parser heap).bind fun (name, parser₁) heap₁ ⟨returned, _⟩ => ?_
  refine (next_runsOr ordinary parser₁ heap₁).bind fun (keyStr, parser₂) heap₂ _ => ?_
  refine (next_runsOr ordinary parser₂ heap₂).bind fun (dataStr, parser₃) heap₃ _ => ?_
  dsimp only
  split
  · have badLength : allowed .badLength := ordinary _ ⟨nofun, nofun⟩
    refine (RunsOr.of_faultsOnly (tokenize_faultsOnly_runOn ordinary _ _ _)).bind
      fun (keyTypes, _) heap₄ _ => ?_
    refine (RunsOr.of_faultsOnly (.orFault badLength _)).bind fun keySt heap₅ _ => ?_
    refine (RunsOr.of_faultsOnly (tokenize_faultsOnly_runOn ordinary _ _ _)).bind
      fun (dataTypes, _) heap₆ _ => ?_
    refine (RunsOr.of_faultsOnly (.orFault badLength _)).bind fun dataSt heap₇ _ => ?_
    apply RunsOr.pure
    intro made isMade
    cases isMade
    exact ⟨rfl, parser₁, returned⟩
  · exact .pure nofun

omit ordinary in
/-- Setting columns of this structure stops with allowed faults only. -/
def Sets (atof : Text → BitVec 64) (temporary : Nat) (allowed : Fault → Prop)
    (columns : DataStructure) : Prop :=
  ∀ data fuel parser heap,
    FaultsOnly allowed (setColumns atof temporary columns data 0 fuel parser) heap

theorem sets_of_setData {columns : DataStructure}
    (inside : ∀ data val memory, setData atof temporary columns data 0 val memory = none →
      allowed .outOfBounds) : Sets atof temporary allowed columns := by
  intro data fuel parser heap
  induction fuel generalizing parser heap with
  | zero => exact .throw (ordinary _ ⟨nofun, nofun⟩)
  | succ fuel ih =>
      refine FaultsOnly.bind (hasNext_runsOr parser heap).faultsOnly fun (more, parser₁) heap₁ => ?_
      cases more with
      | false => exact .pure
      | true =>
          refine FaultsOnly.bind (next_runsOr ordinary parser₁ heap₁).faultsOnly
            fun (val, parser₂) heap₂ => ?_
          have stores : FaultsOnly allowed (orFault .outOfBounds
              (setData atof temporary columns data 0 val heap₂.memory) : Querying _) heap₂ := by
            cases set : setData atof temporary columns data 0 val heap₂.memory with
            | none => exact .throw (inside _ _ _ set)
            | some memory => exact .pure
          refine FaultsOnly.get_bind (stores.bind fun memory heap₃ => ?_)
          exact FaultsOnly.set_bind (ih parser₂ _)

theorem insertInto_runsOr {table : Table} (keys : Sets atof temporary allowed table.keyStruct)
    (datas : Sets atof temporary allowed table.dataStruct) (name : Text) (parser : StringParser)
    (heap : Heap) :
    RunsOr allowed (insertInto atof temporary name table parser) heap fun call _ =>
      ∀ made ∈ call, made.command = "INSERT".toList ∧ made.name = name := by
  unfold insertInto
  refine (RunsOr.of_faultsOnly (newChars_faultsOnly ordinary _ _)).bind fun keyBuf heap₁ _ => ?_
  refine (RunsOr.of_faultsOnly (newChars_faultsOnly ordinary _ _)).bind fun dataBuf heap₂ _ => ?_
  refine (next_runsOr ordinary parser heap₂).bind fun (keyStr, parser₁) heap₃ _ => ?_
  refine (next_runsOr ordinary parser₁ heap₃).bind fun (dataStr, parser₂) heap₄ _ => ?_
  dsimp only
  split
  · have strips := @stripParentheses_faultsOnly allowed ordinary
    refine (RunsOr.of_faultsOnly (strips keyStr heap₄)).bind fun keyText heap₅ _ => ?_
    refine (RunsOr.of_faultsOnly (strips dataStr heap₅)).bind fun dataText heap₆ _ => ?_
    refine (RunsOr.of_faultsOnly (keys _ _ _ _)).bind fun _ heap₇ _ => ?_
    refine (RunsOr.of_faultsOnly (datas _ _ _ _)).bind fun _ heap₈ _ => ?_
    apply RunsOr.pure
    intro made isMade
    cases isMade
    exact ⟨rfl, rfl⟩
  · exact .pure nofun

/-- The table that the query names is there, or a null header may be used. -/
def Opens (disk : Disk) (allowed : Fault → Prop) (name : Text) : Prop :=
  disk.table name = none → allowed .null

theorem insert_runsOr {parser : StringParser} {heap : Heap}
    (opens : ∀ name after, next.run parser = .ok (name, after) → Opens disk allowed name)
    (sets : ∀ name table, disk.table name = some table →
      Sets atof temporary allowed table.keyStruct ∧ Sets atof temporary allowed table.dataStruct) :
    RunsOr allowed (insert atof temporary disk parser) heap fun call _ => ∀ made ∈ call,
      made.command = "INSERT".toList ∧ ∃ after, next.run parser = .ok (made.name, after) := by
  unfold insert
  refine (next_runsOr ordinary parser heap).bind fun (name, parser₁) heap₁ ⟨returned, _⟩ => ?_
  dsimp only at returned ⊢
  cases found : disk.table name with
  | none => exact .bind (.throw (opens name parser₁ returned found)) fun _ _ (no : False) => no.elim
  | some table =>
      have both := sets name table found
      simp only [orFault, pure_bind]
      refine (insertInto_runsOr ordinary both.1 both.2 name parser₁ heap₁).mono ?_
      intro call _ calls made isMade
      obtain ⟨command, named⟩ := calls made isMade
      exact ⟨command, parser₁, by rw [named, returned]⟩

theorem get_runsOr {parser : StringParser} {heap : Heap}
    (opens : ∀ name after, next.run parser = .ok (name, after) → Opens disk allowed name)
    (sets : ∀ name table, disk.table name = some table →
      Sets atof temporary allowed table.keyStruct) :
    RunsOr allowed (get_ atof temporary disk parser) heap fun call _ => ∀ made ∈ call,
      made.command = "GET".toList ∧ ∃ after, next.run parser = .ok (made.name, after) := by
  unfold get_
  refine (next_runsOr ordinary parser heap).bind fun (name, parser₁) heap₁ reached => ?_
  obtain ⟨returned, _⟩ := reached
  dsimp only at returned ⊢
  cases found : disk.table name with
  | none => exact .bind (.throw (opens name parser₁ returned found)) fun _ _ (no : False) => no.elim
  | some table =>
      simp only [orFault, pure_bind]
      refine (RunsOr.of_faultsOnly (newChars_faultsOnly ordinary _ _)).bind
        fun keyBuf heap₂ _ => ?_
      refine (next_runsOr ordinary parser₁ heap₂).bind fun (keyStr, parser₂) heap₃ _ => ?_
      dsimp only
      split
      · refine (RunsOr.of_faultsOnly (stripParentheses_faultsOnly ordinary _ _)).bind
          fun keyText heap₄ _ => ?_
        refine (RunsOr.of_faultsOnly (sets name table found _ _ _ _)).bind fun _ heap₅ _ => ?_
        apply RunsOr.pure
        intro made isMade
        cases isMade
        exact ⟨rfl, parser₁, returned⟩
      · exact .pure fun _ isMade => by cases isMade

/-- The call that a query makes is for the table that the query names. -/
theorem query_runsOr {q : Text} {heap : Heap}
    (opens : ∀ command name, Begins q command name →
      command = "INSERT".toList ∨ command = "GET".toList → Opens disk allowed name)
    (sets : ∀ name table, disk.table name = some table →
      Sets atof temporary allowed table.keyStruct ∧ Sets atof temporary allowed table.dataStruct) :
    RunsOr allowed (query atof temporary disk q) heap fun call _ =>
      ∀ made ∈ call, Begins q made.command made.name := by
  unfold query
  refine (hasNext_runsOr (ofText q) heap).bind fun (more, parser₁) heap₁ ⟨looked, _⟩ => ?_
  dsimp only at looked ⊢
  split
  · refine (next_runsOr ordinary parser₁ heap₁).bind fun (word, parser₂) heap₂ ⟨read, _⟩ => ?_
    dsimp only at read ⊢
    have begins (command name : Text) (isCommand : toUpper word = command)
        (after : StringParser) (named : next.run parser₂ = .ok (name, after)) :
        Begins q command name := by
      refine ⟨after, ?_⟩
      rw [firstWords, run_bind_ok looked, run_bind_ok read, run_bind_ok named, isCommand]
      rfl
    split
    next isCreate =>
      refine (create_runsOr ordinary parser₂ heap₂).mono fun call _ calls made isMade => ?_
      obtain ⟨command, after, named⟩ := calls made isMade
      exact begins _ _ (isCreate.trans command.symm) after named
    next =>
      split
      next isInsert =>
        have named (name : Text) (after : StringParser)
            (returned : next.run parser₂ = .ok (name, after)) : Opens disk allowed name :=
          opens _ name (begins _ name isInsert after returned) (.inl rfl)
        refine (insert_runsOr ordinary named sets).mono fun call _ calls made isMade => ?_
        obtain ⟨command, after, named⟩ := calls made isMade
        exact begins _ _ (isInsert.trans command.symm) after named
      next =>
        split
        next isGet =>
          have named (name : Text) (after : StringParser)
              (returned : next.run parser₂ = .ok (name, after)) : Opens disk allowed name :=
            opens _ name (begins _ name isGet after returned) (.inr rfl)
          refine (get_runsOr ordinary named fun name table found => (sets name table found).1).mono
            fun call _ calls made isMade => ?_
          obtain ⟨command, after, named⟩ := calls made isMade
          exact begins _ _ (isGet.trans command.symm) after named
        next => exact .pure nofun
  · exact .pure nofun

end Outcomes

end PersistentBTree.Queries
