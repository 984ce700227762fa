import PersistentBTree.Queries.Catalogue
import PersistentBTree.Queries.QueryOutcomes
import PersistentBTree.Tables.Rows

/-! What a query does to the files: it makes the call that its statement says, and the call
writes no files but those of the table that is named. -/

set_option autoImplicit false

namespace PersistentBTree.Queries

open Imperative StringParser
open Tables (Records HoldsRows)

variable {K D S α : Type}

/-! ## Reading a statement -/

namespace Statement

variable {q word : Text} {more : Bool} {parser₁ parser₂ : StringParser}

private theorem run_readStatement (looked : hasNext.run (ofText q) = .ok (more, parser₁))
    (read : next.run parser₁ = .ok (word, parser₂)) :
    readStatement.run (ofText q) = (do
      let name ← next
      let keyStr ← next
      let dataStr ← next
      pure (⟨toUpper word, name, keyStr, dataStr⟩ : Statement)).run parser₂ := by
  rw [readStatement, run_bind_ok looked, run_bind_ok read]

/-- The command is the first word, if the query can be read. -/
theorem command_ofQuery (looked : hasNext.run (ofText q) = .ok (more, parser₁))
    (read : next.run parser₁ = .ok (word, parser₂)) :
    (ofQuery q).command = toUpper word ∨ (ofQuery q).command = [] := by
  have first : Ensures (do
      let name ← next
      let keyStr ← next
      let dataStr ← next
      pure (⟨toUpper word, name, keyStr, dataStr⟩ : Statement)) parser₂ fun statement _ =>
        statement.command = toUpper word :=
    .after fun _ _ => .after fun _ _ => .after fun _ _ => .pure rfl
  rw [ofQuery, run_readStatement looked read]
  split
  next statement _ returned => exact .inl (first _ _ returned)
  next => exact .inr rfl

theorem ofQuery_eq {name keyStr dataStr : Text} {parser₃ parser₄ parser₅ : StringParser}
    (looked : hasNext.run (ofText q) = .ok (more, parser₁))
    (read : next.run parser₁ = .ok (word, parser₂))
    (named : next.run parser₂ = .ok (name, parser₃))
    (keyed : next.run parser₃ = .ok (keyStr, parser₄))
    (valued : next.run parser₄ = .ok (dataStr, parser₅)) :
    ofQuery q = ⟨toUpper word, name, keyStr, dataStr⟩ := by
  rw [ofQuery, run_readStatement looked read, run_bind_ok named, run_bind_ok keyed,
    run_bind_ok valued]
  rfl

/-- A query without any word says nothing. -/
theorem command_ofQuery_nil (looked : hasNext.run (ofText q) = .ok (false, parser₁)) :
    (ofQuery q).command = [] := by
  obtain ⟨-, same, found⟩ := (hasNext_nextOf (ofText q)).holds looked
  have nothing : nextOf parser₁.rest = none := by
    rw [same]
    by_contra some_
    cases found.mpr some_
  cases read : next.run parser₁ with
  | error fault =>
      have stopped : readStatement.run (ofText q) = .error fault := by
        rw [readStatement, run_bind_ok looked, run_bind_error read]
      rw [ofQuery, stopped]
  | ok result =>
      obtain ⟨word, parser₂⟩ := result
      have isNil : word = [] := by
        have holds := ((next_runsIf parser₁).holds read).2
        rw [nothing] at holds
        exact (Prod.mk.inj holds).1
      cases command_ofQuery looked read with
      | inl isWord =>
          rw [isWord, isNil]
          rfl
      | inr empty => exact empty

/-- The call that a query with this statement makes. -/
def Makes (statement : Statement) : Option Call → Prop
  | some (.create name keyStruct dataStruct) => statement.Creates ∧ name = statement.name ∧
      columnsOf statement.keyStr = some keyStruct ∧ columnsOf statement.dataStr = some dataStruct
  | some (.insert name _ _) => statement.Inserts ∧ name = statement.name
  | some (.find _ _) | none => ¬ statement.Creates ∧ ¬ statement.Inserts

end Statement

section Calls

variable {atof : Text → BitVec 64} {temporary : Nat} {disk : Disk} {q : Text} {heap : Heap}

private theorem columnsOf_eq {types : Text} {names : List Text} {final : StringParser}
    (returned : (tokenize (types.length + 1)).run (ofText types) = .ok (names, final)) :
    columnsOf types = DataStructure.ofTypes names := by
  rw [columnsOf, returned]

private theorem create_makes {word : Text} {parser : StringParser}
    (isCreate : toUpper word = "CREATE".toList)
    (read : ∀ {name keyStr dataStr parser₃ parser₄ parser₅},
      next.run parser = .ok (name, parser₃) → next.run parser₃ = .ok (keyStr, parser₄) →
      next.run parser₄ = .ok (dataStr, parser₅) →
      Statement.ofQuery q = ⟨toUpper word, name, keyStr, dataStr⟩) :
    Ensures (create parser) heap fun call _ => (Statement.ofQuery q).Makes call := by
  unfold create
  refine Ensures.of_runOn fun name parser₃ named => ?_
  refine Ensures.of_runOn fun keyStr parser₄ keyed => ?_
  refine Ensures.of_runOn fun dataStr parser₅ valued => ?_
  have isStatement := read named keyed valued
  rw [isCreate] at isStatement
  dsimp only
  split
  next complete =>
    refine Ensures.of_runOn fun keyTypes _ keyTokens => ?_
    refine Ensures.orFault_bind fun keySt isKey => ?_
    refine Ensures.of_runOn fun dataTypes _ dataTokens => ?_
    refine Ensures.orFault_bind fun dataSt isData => ?_
    apply Ensures.pure
    rw [isStatement]
    exact ⟨⟨rfl, complete⟩, rfl, (columnsOf_eq keyTokens).trans isKey,
      (columnsOf_eq dataTokens).trans isData⟩
  next incomplete =>
    apply Ensures.pure
    rw [isStatement]
    exact ⟨fun creates => incomplete creates.2, fun inserts => incomplete inserts.2⟩

private theorem insert_makes {word : Text} {parser : StringParser}
    (isInsert : toUpper word = "INSERT".toList)
    (read : ∀ {name keyStr dataStr parser₃ parser₄ parser₅},
      next.run parser = .ok (name, parser₃) → next.run parser₃ = .ok (keyStr, parser₄) →
      next.run parser₄ = .ok (dataStr, parser₅) →
      Statement.ofQuery q = ⟨toUpper word, name, keyStr, dataStr⟩) :
    Ensures (insert atof temporary disk parser) heap fun call _ =>
      (Statement.ofQuery q).Makes call := by
  unfold insert insertInto
  refine Ensures.of_runOn fun name parser₃ named => ?_
  refine Ensures.orFault_bind fun table _ => ?_
  refine .after fun keyBuf _ => .after fun dataBuf _ => ?_
  refine Ensures.of_runOn fun keyStr parser₄ keyed => ?_
  refine Ensures.of_runOn fun dataStr parser₅ valued => ?_
  have isStatement := read named keyed valued
  rw [isInsert] at isStatement
  dsimp only
  split
  next complete =>
    refine .after fun keys _ => .after fun datas _ => .after fun _ _ => .after fun _ _ => ?_
    apply Ensures.pure
    rw [isStatement]
    exact ⟨⟨rfl, complete⟩, rfl⟩
  next incomplete =>
    apply Ensures.pure
    rw [isStatement]
    exact ⟨fun creates => incomplete creates.2, fun inserts => incomplete inserts.2⟩

private theorem get_makes {statement : Statement} {parser : StringParser}
    (noEffect : ¬ statement.Creates ∧ ¬ statement.Inserts) :
    Ensures (get_ atof temporary disk parser) heap fun call _ => statement.Makes call := by
  unfold get_
  refine .after fun named _ => ?_
  refine Ensures.orFault_bind fun table _ => ?_
  refine .after fun keyBuf _ => .after fun keyed _ => ?_
  dsimp only
  split
  · exact .after fun keys _ => .after fun _ _ => .pure noEffect
  · exact .pure noEffect

/-- A command other than these two has no effect. -/
private theorem noEffect_of_command {statement : Statement} {word : Text}
    (isWord : statement.command = toUpper word ∨ statement.command = [])
    (notCreate : toUpper word ≠ "CREATE".toList) (notInsert : toUpper word ≠ "INSERT".toList) :
    ¬ statement.Creates ∧ ¬ statement.Inserts := by
  cases isWord with
  | inl same =>
      exact ⟨fun creates => notCreate (same.symm.trans creates.1),
        fun inserts => notInsert (same.symm.trans inserts.1)⟩
  | inr empty =>
      constructor
      · intro creates
        exact absurd (empty.symm.trans creates.1) (by decide)
      · intro inserts
        exact absurd (empty.symm.trans inserts.1) (by decide)

/-- A query that returns has made the call that its statement says. -/
theorem query_makes : Ensures (query atof temporary disk q) heap fun call _ =>
    (Statement.ofQuery q).Makes call := by
  unfold query
  refine Ensures.of_runOn fun more parser₁ looked => ?_
  cases more with
  | false =>
      apply Ensures.pure
      exact @noEffect_of_command _ [] (.inr (Statement.command_ofQuery_nil looked))
        (by decide) (by decide)
  | true =>
      refine Ensures.of_runOn fun word parser₂ read => ?_
      have isWord := Statement.command_ofQuery looked read
      dsimp only
      split
      next isCreate => exact create_makes isCreate (Statement.ofQuery_eq looked read)
      next notCreate =>
        split
        next isInsert => exact insert_makes isInsert (Statement.ofQuery_eq looked read)
        next notInsert =>
          have noEffect := noEffect_of_command isWord notCreate notInsert
          split
          · exact get_makes noEffect
          · exact .pure noEffect

end Calls

/-! ## Writing files -/

/-- What a statement does to the files. -/
structure Statement.Changes (canCreate : Text → Bool) (statement : Statement)
    (before after : Files S) : Prop where
  others : ∀ name, ¬ statement.Writes name → after.file name = before.file name
  cannotMake : statement.Creates → ¬ CanMake canCreate statement.name →
    after.file statement.name = before.file statement.name
  creates : statement.Creates → CanMake canCreate statement.name → ∃ file,
    after.file statement.name = some file ∧
      columnsOf statement.keyStr = some file.keyStruct ∧
      columnsOf statement.dataStr = some file.dataStruct ∧ HoldsRows file.store 0
  inserts : statement.Inserts → ∃ file store, before.file statement.name = some file ∧
    after.file statement.name = some { file with store } ∧
      (file.nSlots ≠ 0 → ∀ rows, HoldsRows file.store rows → HoldsRows store (rows + 1))

section Changes

variable {canCreate : Text → Bool} {statement : Statement} {before after : Files S}

theorem Statement.Changes.of_same (noEffect : ¬ statement.Creates ∧ ¬ statement.Inserts)
    (same : ∀ name, after.file name = before.file name) :
    statement.Changes canCreate before after where
  others name _ := same name
  cannotMake creates := absurd creates noEffect.1
  creates creates := absurd creates noEffect.1
  inserts inserts := absurd inserts noEffect.2

end Changes

section Steps

variable {platform : Platform K D S} {fuel : Nat} {session : Session S} {name : Text}
  {file : File S} {statement : Statement}

namespace Session

theorem file_setFile (short : name.length < 4096) :
    (session.setFile name short file).files.file name = some file := if_pos rfl

theorem file_setFile_of_ne (short : name.length < 4096) {other : Text} (apart : other ≠ name) :
    (session.setFile name short file).files.file other = session.files.file other := if_neg apart

theorem file_setStore_of_ne (found : session.files.file name = some file)
    (store : Pages.Store (Tables.Node S)) {other : Text} (apart : other ≠ name) :
    (session.setStore found store).files.file other = session.files.file other := if_neg apart

/-- Pages that are written back as they were. -/
theorem file_setStore_same (found : session.files.file name = some file) (other : Text) :
    (session.setStore found file.store).files.file other = session.files.file other := by
  by_cases same : other = name
  · rw [same, found]
    exact file_setFile _
  · exact file_setFile_of_ne _ same

end Session

/-- A call of an object writes the pages of the table that it has open. -/
theorem callTree_ensures {tree : Tree}
    {call : (file : File S) → Records K D S → Tables.M S α} :
    Ensures (callTree platform tree call) session fun result after => ∃ name file table,
      ∃ found : session.files.file name = some file, tree.name = some name ∧
        (call file (platform.records file.keyStruct file.dataStruct)).run (tree.table file) =
          .ok (result.1, table) ∧ after = session.setStore found table.store := by
  unfold callTree
  apply Ensures.get_bind
  split
  next => exact .throw _
  next name named =>
    split
    next => exact .throw _
    next file found =>
      refine Ensures.of_runWith fun result table returned => ?_
      apply Ensures.set_bind
      exact .pure ⟨name, file, table, found, named, returned, rfl⟩

/-- The same when the table is known. -/
theorem callTree_opened_ensures (found : session.files.file name = some file)
    {call : (file : File S) → Records K D S → Tables.M S α} {post : α → Tables.Table S → Prop}
    (ensures : Ensures (call file (platform.records file.keyStruct file.dataStruct))
      ((Tree.new.opened name file).table file) post) :
    Ensures (callTree platform (Tree.new.opened name file) call) session fun result after =>
      ∃ table, post result.1 table ∧ after = session.setStore found table.store := by
  refine callTree_ensures.mono fun result after reached => ?_
  obtain ⟨opened, other, table, isOpened, named, returned, written⟩ := reached
  have sameName : name = opened := Option.some.inj named
  subst sameName
  have sameFile : file = other := Option.some.inj (found.symm.trans isOpened)
  subst sameFile
  exact ⟨table, ensures _ _ returned, written⟩

theorem openTree_ensures (tree : Tree) (name : Text) :
    Ensures (openTree tree name) session fun opened after => ∃ file,
      session.files.file name = some file ∧ opened = tree.opened name file ∧ after = session := by
  unfold openTree
  apply Ensures.get_bind
  cases found : session.files.file name with
  | none => exact .throw _
  | some file => exact .pure ⟨file, rfl, rfl, rfl⟩

private theorem createFiles_changes {keyStruct dataStruct : DataStructure}
    (makes : statement.Makes (some (.create name keyStruct dataStruct))) :
    Ensures (createFiles platform name keyStruct dataStruct) session fun _ after =>
      after.tree = session.tree ∧
        statement.Changes platform.canCreate session.files after.files := by
  obtain ⟨creates, isName, keys, datas⟩ := makes
  have notInserts : ¬ statement.Inserts := by
    intro inserts
    exact absurd (creates.1.symm.trans inserts.1) (by decide)
  unfold createFiles
  apply Ensures.get_bind
  split
  next canMake =>
    rw [isName] at canMake
    cases found : session.files.file name with
    | some file => exact .throw _
    | none =>
        dsimp only
        cases Header.initHeader keyStruct dataStruct Pages.limit .zero with
        | error fault => exact .throw _
        | ok header =>
            refine .of_runs ((runs_set ..).mpr ⟨rfl, ?_⟩)
            constructor
            case others =>
              intro other spared
              have apart : other ≠ name := fun same =>
                spared ⟨.inl creates, isName.symm.trans same.symm⟩
              exact Session.file_setFile_of_ne _ apart
            case cannotMake => exact fun _ cannot => absurd canMake cannot
            case creates =>
              intro _ _
              rw [← isName]
              exact ⟨_, Session.file_setFile _, keys, datas, Tables.holdsRows_created _⟩
            case inserts => exact fun inserts => absurd inserts notInserts
  next cannot =>
    rw [isName] at cannot
    refine .pure ⟨rfl, ?_⟩
    constructor
    case others => exact fun _ _ => rfl
    case cannotMake => exact fun _ _ => rfl
    case creates => exact fun _ canMake => absurd canMake cannot
    case inserts => exact fun inserts => absurd inserts notInserts

private theorem insertCall_changes {key data : Nat}
    (makes : statement.Makes (some (.insert name key data))) :
    Ensures (performCall platform fuel (.insert name key data)) session fun _ after =>
      after.tree = session.tree ∧
        statement.Changes platform.canCreate session.files after.files := by
  obtain ⟨inserts, isName⟩ := makes
  have notCreates : ¬ statement.Creates := by
    intro creates
    exact absurd (creates.1.symm.trans inserts.1) (by decide)
  refine (openTree_ensures .new name).bind fun opened middle reached => ?_
  obtain ⟨file, found, isOpened, same⟩ := reached
  rw [isOpened, same]
  apply Ensures.get_bind
  have inserted : Ensures (Tables.insert (platform.records file.keyStruct file.dataStruct)
      (platform.readKey file.keyStruct session.heap.memory key)
      (platform.readData file.dataStruct session.heap.memory data))
      ((Tree.new.opened name file).table file) fun _ table => file.nSlots ≠ 0 →
        ∀ rows, HoldsRows file.store rows → HoldsRows table.store (rows + 1) :=
    fun _ _ returned some_ _ holds =>
      Tables.insert_holdsRows holds rfl some_ _ _ _ _ returned
  refine (callTree_opened_ensures found inserted).bind fun _ after reached => ?_
  obtain ⟨table, grows, written⟩ := reached
  rw [written]
  refine .pure ⟨rfl, ?_⟩
  constructor
  case others =>
    intro other spared
    have apart : other ≠ name := fun same => spared ⟨.inr inserts, isName.symm.trans same.symm⟩
    exact Session.file_setFile_of_ne _ apart
  case cannotMake => exact fun creates => absurd creates notCreates
  case creates => exact fun creates => absurd creates notCreates
  case inserts =>
    intro _
    rw [← isName]
    exact ⟨file, table.store, found, Session.file_setFile _, grows⟩

private theorem findCall_changes {key : Nat} (makes : statement.Makes (some (.find name key))) :
    Ensures (performCall platform fuel (.find name key)) session fun _ after =>
      after.tree = session.tree ∧
        statement.Changes platform.canCreate session.files after.files := by
  refine (openTree_ensures .new name).bind fun opened middle reached => ?_
  obtain ⟨file, found, isOpened, same⟩ := reached
  rw [isOpened, same]
  apply Ensures.get_bind
  have reads : ReadsOnly (do
      let found ← Tables.find (platform.records file.keyStruct file.dataStruct) fuel
        (platform.readKey file.keyStruct session.heap.memory key)
      found.1.data (platform.records file.keyStruct file.dataStruct)) :=
    (Tables.readsOnly_find fuel _).bind fun found =>
      (Tables.readsOnly_getNode found.1.currnode).bind fun _ => .orFault _ _
  refine (callTree_opened_ensures found (reads _)).bind fun _ after reached => ?_
  obtain ⟨table, kept, written⟩ := reached
  rw [written, kept]
  exact .pure ⟨rfl, .of_same makes (Session.file_setStore_same found)⟩

/-- A query writes the files as its statement says, and leaves the object of the program. -/
theorem performQuery_changes (q : Text) :
    Ensures (performQuery platform fuel q) session fun _ after =>
      after.tree = session.tree ∧
        (Statement.ofQuery q).Changes platform.canCreate session.files after.files := by
  unfold performQuery
  apply Ensures.get_bind
  refine Ensures.of_runWith fun call heap returned => ?_
  have makes := query_makes call heap returned
  apply Ensures.modify_bind
  cases call with
  | none => exact .pure ⟨rfl, .of_same makes fun _ => rfl⟩
  | some call =>
      cases call with
      | create name keyStruct dataStruct => exact createFiles_changes makes
      | insert name key data => exact insertCall_changes makes
      | find name key => exact findCall_changes makes

end Steps

end PersistentBTree.Queries
