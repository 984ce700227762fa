import PersistentBTree.Queries.CatalogueProperties
import PersistentBTree.Queries.CreateGuarantees
import PersistentBTree.Queries.Execution
import PersistentBTree.Queries.InsertGuarantees

/-! Queries against their statements. Parsing word by word, with the tables opened and the
records filled in between, comes to the same as reading the statement and carrying it out;
so one can say for which statements a query returns, and with which faults it stops. -/

set_option autoImplicit false

namespace PersistentBTree.Queries

open Imperative StringParser

section Agreement

variable {atof : Text → BitVec 64} {temporary : Nat} {disk : Disk} {word name keyStr dataStr : Text}
  {parser parser₃ parser₄ parser₅ : StringParser}

private theorem create_eq (named : NextWord parser name parser₃)
    (keyed : NextWord parser₃ keyStr parser₄) (valued : NextWord parser₄ dataStr parser₅) :
    create parser = Statement.executeCreate ⟨word, name, keyStr, dataStr⟩ := by
  obtain ⟨keyTypes, _, keyTokens, isKey, -⟩ := tokenize_eq keyed.few
  obtain ⟨dataTypes, _, dataTokens, isData, -⟩ := tokenize_eq valued.few
  simp only [create, Statement.executeCreate, Statement.Complete, runOn_eq_pure named.returned,
    runOn_eq_pure keyed.returned, runOn_eq_pure valued.returned, runOn_eq_pure keyTokens,
    runOn_eq_pure dataTokens, isKey, isData, pure_bind]

/-- The values between the parentheses are set one after the other. -/
private theorem setColumns_inner {columns : DataStructure} {data : Nat} {str : Text}
    (short : str.length < intMax) :
    setColumns atof temporary columns data 0 ((inner str).length + 1) (ofText (inner str)) =
      setRecord atof temporary columns data (fieldsOf (inner str)) := by
  have few : (inner str).length < intMax := Nat.lt_of_le_of_lt (length_inner_le str) short
  have left : (ofText (inner str)).rest = inner str := rest_ofText (Nat.le_of_lt few)
  rw [setColumns_eq (short_ofText few) (by rw [left]; exact Nat.lt_succ_self _), left]

private theorem get_eq (named : NextWord parser name parser₃)
    (keyed : NextWord parser₃ keyStr parser₄) :
    get_ atof temporary disk parser =
      Statement.executeGet atof temporary disk ⟨word, name, keyStr, dataStr⟩ := by
  simp only [get_, Statement.executeGet, runOn_eq_pure named.returned,
    runOn_eq_pure keyed.returned, pure_bind]
  congr
  funext table
  congr
  funext key
  by_cases asks : Statement.Asks ⟨word, name, keyStr, dataStr⟩
  · have both : name ≠ [] ∧ keyStr ≠ [] := asks
    rw [if_pos both, if_pos asks, stripParentheses_eq both.2 keyed.few, pure_bind,
      setColumns_inner keyed.few]
  · have neither : ¬ (name ≠ [] ∧ keyStr ≠ []) := asks
    rw [if_neg neither, if_neg asks]

private theorem insert_eq (named : NextWord parser name parser₃)
    (keyed : NextWord parser₃ keyStr parser₄) (valued : NextWord parser₄ dataStr parser₅) :
    insert atof temporary disk parser =
      Statement.executeInsert atof temporary disk ⟨word, name, keyStr, dataStr⟩ := by
  simp only [insert, insertInto, Statement.executeInsert,
    runOn_eq_pure named.returned, runOn_eq_pure keyed.returned, runOn_eq_pure valued.returned,
    pure_bind]
  congr
  funext table
  congr
  funext key
  congr
  funext data
  by_cases complete : Statement.Complete ⟨word, name, keyStr, dataStr⟩
  · have all : name ≠ [] ∧ keyStr ≠ [] ∧ dataStr ≠ [] := complete
    rw [if_pos all, if_pos complete, stripParentheses_eq all.2.1 keyed.few, pure_bind,
      stripParentheses_eq all.2.2 valued.few, pure_bind, setColumns_inner keyed.few,
      setColumns_inner valued.few]
  · have notAll : ¬ (name ≠ [] ∧ keyStr ≠ [] ∧ dataStr ≠ []) := complete
    rw [if_neg notAll, if_neg complete]

/-- The words of a query are read first, whatever becomes of them. -/
private theorem query_eq {q : Text} (short : q.length < intMax) :
    query atof temporary disk q = (Statement.ofQuery q).execute atof temporary disk ∧
      (Statement.ofQuery q).keyStr.length < intMax ∧
      (Statement.ofQuery q).dataStr.length < intMax := by
  obtain ⟨more, parser₁, looked, same, front, found⟩ := hasNext_nextOf (ofText q)
  obtain ⟨word, parser₂, first, read⟩ := @exists_reads parser₁ (by rw [same]; exact short_ofText short)
  obtain ⟨name, parser₃, named, -⟩ := exists_reads first.short
  obtain ⟨keyStr, parser₄, keyed, -⟩ := exists_reads named.short
  obtain ⟨dataStr, parser₅, valued, -⟩ := exists_reads keyed.short
  rw [Statement.ofQuery_eq looked first.returned named.returned keyed.returned valued.returned]
  refine ⟨?_, keyed.few, valued.few⟩
  rw [query, runOn_eq_pure looked, pure_bind, Statement.execute]
  cases more with
  | false =>
      have nothing : nextOf (ofText q).rest = none := by
        by_contra some_
        cases found.mpr some_
      rw [front, nothing] at read
      rw [(Prod.mk.inj read).1]
      rfl
  | true =>
      simp only [if_true]
      rw [runOn_eq_pure first.returned, pure_bind]
      dsimp only
      rw [create_eq named keyed valued, insert_eq named keyed valued, get_eq named keyed]

end Agreement

/-! ## When a statement can be carried out -/

section Outcomes

variable {atof : Text → BitVec 64} {temporary : Nat} {disk : Disk} {columns : DataStructure}
  {statement : Statement}

private theorem newChars_runsIf (size : Int) (heap : Heap) :
    RunsIf (0 ≤ size) (newChars size) heap fun _ _ => True := by
  unfold newChars
  by_cases negative : size < 0
  · rw [if_pos negative]
    exact .inr ⟨Int.not_le.mpr negative, .bind (faults_throw ..)⟩
  · rw [if_neg negative]
    apply RunsIf.of_runs _ (Int.not_lt.mp negative)
    simp

private theorem setRecord_runsIf (data : Nat) (values : List Text) (heap : Heap) :
    RunsIf (columns.Takes values) (setRecord atof temporary columns data values) heap
      fun _ _ => True := by
  unfold setRecord
  cases last : values.getLast? with
  | none =>
      have nothing : values = [] := List.getLast?_eq_none_iff.mp last
      exact .of_runs ((runs_pure ..).mpr trivial) (.inl nothing)
  | some value =>
      by_cases settable : columns.Settable
      · obtain ⟨stored, isStored, -⟩ := @setData_settable atof temporary columns data settable
        apply RunsIf.of_runs _ (.inr settable)
        simp [isStored]
      · refine .inr ⟨?_, .outOfBounds, ?_⟩
        · intro takes
          cases takes with
          | inl nothing =>
              rw [nothing] at last
              cases last
          | inr isSettable => exact settable isSettable
        · rw [run_get_bind, setData_eq_none settable]
          rfl

/-- Types that a query names are columns. -/
private theorem exists_columnsOf {types : Text} (few : types.length < intMax) :
    ∃ columns, columnsOf types = some columns := by
  obtain ⟨names, -, -, isColumns, count⟩ := tokenize_eq few
  rw [isColumns, DataStructure.ofTypes, dif_pos count]
  exact ⟨_, rfl⟩

private theorem executeCreate_runs (keyFew : statement.keyStr.length < intMax)
    (dataFew : statement.dataStr.length < intMax) (heap : Heap) :
    Runs statement.executeCreate heap fun _ _ => True := by
  obtain ⟨keyStruct, isKey⟩ := exists_columnsOf keyFew
  obtain ⟨dataStruct, isData⟩ := exists_columnsOf dataFew
  unfold Statement.executeCreate
  split
  · simp [isKey, isData]
  · simp

private theorem executeInsert_runsIf (heap : Heap) :
    RunsIf (statement.CanInsert disk) (statement.executeInsert atof temporary disk) heap
      fun _ _ => True := by
  unfold Statement.executeInsert
  cases found : disk.table statement.name with
  | none => exact .inr ⟨by simp [Statement.CanInsert, found], .bind (faults_throw ..)⟩
  | some table =>
      have needs : statement.CanInsert disk ↔
          0 ≤ intSize table.keyStruct ∧ 0 ≤ intSize table.dataStruct ∧
            (statement.Complete → table.keyStruct.Takes (fieldsOf (inner statement.keyStr)) ∧
              table.dataStruct.Takes (fieldsOf (inner statement.dataStr))) := by
        simp [Statement.CanInsert, found]
      simp only [orFault, pure_bind]
      apply RunsIf.congr _ needs.symm
      apply (newChars_runsIf _ heap).bind
      intro key heap₁ _
      apply (newChars_runsIf _ heap₁).bind
      intro data heap₂ _
      by_cases complete : statement.Complete
      · rw [if_pos complete]
        apply RunsIf.congr _ (forall_prop_of_true complete).symm
        apply (setRecord_runsIf key _ heap₂).bind
        intro _ heap₃ _
        apply (setRecord_runsIf data _ heap₃).before
        simp
      · rw [if_neg complete]
        exact .of_runs ((runs_pure ..).mpr trivial) fun isComplete => absurd isComplete complete

private theorem executeGet_runsIf (heap : Heap) :
    RunsIf (statement.CanGet disk) (statement.executeGet atof temporary disk) heap
      fun _ _ => True := by
  unfold Statement.executeGet
  cases found : disk.table statement.name with
  | none => exact .inr ⟨by simp [Statement.CanGet, found], .bind (faults_throw ..)⟩
  | some table =>
      have needs : statement.CanGet disk ↔ 0 ≤ intSize table.keyStruct ∧
          (statement.Asks → table.keyStruct.Takes (fieldsOf (inner statement.keyStr))) := by
        simp [Statement.CanGet, found]
      simp only [orFault, pure_bind]
      apply RunsIf.congr _ needs.symm
      apply (newChars_runsIf _ heap).bind
      intro key heap₁ _
      by_cases asks : statement.Asks
      · rw [if_pos asks]
        apply RunsIf.congr _ (forall_prop_of_true asks).symm
        apply (setRecord_runsIf key _ heap₁).before
        simp
      · rw [if_neg asks]
        exact .of_runs ((runs_pure ..).mpr trivial) fun isAsked => absurd isAsked asks

private theorem execute_runsIf (keyFew : statement.keyStr.length < intMax)
    (dataFew : statement.dataStr.length < intMax) (heap : Heap) :
    RunsIf (statement.Feasible disk) (statement.execute atof temporary disk) heap
      fun _ _ => True := by
  have apart : "CREATE".toList ≠ "INSERT".toList ∧ "CREATE".toList ≠ "GET".toList := by decide
  unfold Statement.execute Statement.Feasible
  split
  next isCreate =>
    apply RunsIf.of_runs (executeCreate_runs keyFew dataFew heap)
    rw [isCreate]
    exact ⟨fun same => absurd same apart.1, fun same => absurd same apart.2⟩
  next =>
    split
    next isInsert =>
      apply (executeInsert_runsIf heap).congr
      rw [isInsert]
      simp
    next notInsert =>
      split
      next isGet =>
        apply (executeGet_runsIf heap).congr
        rw [isGet]
        simp
      next notGet =>
        apply RunsIf.of_runs ((runs_pure ..).mpr trivial)
        exact ⟨fun same => absurd same notInsert, fun same => absurd same notGet⟩

/-! ## The faults -/

private theorem newChars_explained (size : Int) (heap : Heap) :
    FaultsOnly Explained (newChars size) heap := by
  unfold newChars
  split
  · exact .throw (.inr (.inl rfl))
  · exact .pure

private theorem setRecord_explained (data : Nat) (values : List Text) (heap : Heap) :
    FaultsOnly Explained (setRecord atof temporary columns data values) heap := by
  unfold setRecord
  split
  · exact .pure
  · refine FaultsOnly.get_bind (.bind (.orFault (.inr (.inr rfl)) _) fun memory heap₁ => ?_)
    exact .of_runs ((runs_set _ _ fun _ _ => True).mpr trivial)

/-- The table that is named is opened. -/
private theorem opens_explained {next : Table → Querying (Option Call)} {heap : Heap} (name : Text)
    (explained : ∀ table, FaultsOnly Explained (next table) heap) :
    FaultsOnly Explained (orFault .null (disk.table name) >>= next) heap := by
  cases disk.table name with
  | none => exact .of_error (run_bind_error rfl) (.inl rfl)
  | some table => exact explained table

private theorem execute_explained (heap : Heap) :
    FaultsOnly Explained (statement.execute atof temporary disk) heap := by
  have badLength : Explained .badLength := .inr (.inl rfl)
  unfold Statement.execute
  split
  · unfold Statement.executeCreate
    split
    · exact .bind (.orFault badLength _) fun _ _ => .bind (.orFault badLength _) fun _ _ => .pure
    · exact .pure
  · split
    · apply opens_explained
      intro table
      refine .bind (newChars_explained _ _) fun key heap₁ => ?_
      refine .bind (newChars_explained _ _) fun data heap₂ => ?_
      split
      · refine .bind (setRecord_explained _ _ _) fun _ heap₃ => ?_
        exact .bind (setRecord_explained _ _ _) fun _ _ => .pure
      · exact .pure
    · split
      · apply opens_explained
        intro table
        refine .bind (newChars_explained _ _) fun key heap₁ => ?_
        split
        · exact .bind (setRecord_explained _ _ _) fun _ _ => .pure
        · exact .pure
      · exact .pure

end Outcomes

/-! ## Queries -/

section Queries

variable (atof : Text → BitVec 64) (temporary : Nat) (disk : Disk)

/-- A query does what its first four words say and nothing else, up to its call of the tree. It
comes to that call exactly when the tables have what the statement needs, and else stops with a
null header, a size that is negative as an `int`, or a column that cannot be set. -/
theorem query_of_statement {q : Text} (short : q.length < intMax) :
    query atof temporary disk q = (Statement.ofQuery q).execute atof temporary disk ∧
      (∀ heap, RunsIf ((Statement.ofQuery q).Feasible disk) (query atof temporary disk q) heap
        fun _ _ => True) ∧
      ∀ heap, FaultsOnly Explained (query atof temporary disk q) heap := by
  obtain ⟨same, keyFew, dataFew⟩ := @query_eq atof temporary disk q short
  rw [same]
  exact ⟨rfl, fun heap => execute_runsIf keyFew dataFew heap, fun heap => execute_explained heap⟩

end Queries

/-- Two values for the key. -/
def twoValues : Text := "insert t '(1 2)' (3)".toList

/-- The key of the table has two `INT` columns. -/
def twoKeysDisk : Disk :=
  onlyTable letterT (by decide) (intTable 2 1 (by decide) (by decide))

/-- The second value has replaced the first one. -/
theorem query_of_statement_twoValues :
    query (fun _ => 0) 0 twoKeysDisk twoValues =
        (Statement.ofQuery twoValues).execute (fun _ => 0) 0 twoKeysDisk ∧
      ((query (fun _ => 0) 0 twoKeysDisk twoValues).run emptyHeap).toOption.map
          (fun result => (result.1.map Call.name, result.2.memory 0, result.2.memory 8)) =
        some (some ['t'], 2, 3) :=
  ⟨(query_of_statement _ _ _ (by decide)).1, by decide +kernel⟩

end PersistentBTree.Queries
