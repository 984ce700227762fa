import PersistentBTree.Queries.QueryOutcomes
import PersistentBTree.Queries.Session
import PersistentBTree.Tables.FlatProperties

/-! Programs that use no null header and no null handle. No part of the code checks for
one, so that a program has to open only tables that exist, look up keys only in tables
with rows, and erase only from tables without any. -/

set_option autoImplicit false

namespace PersistentBTree.Queries

open Imperative StringParser
open Tables (Records EndsBefore Flat Points Grows)

variable {K D S : Type}

/-! ## The property -/

/-- The key is not found. For `find` and the bounds this is `End()` of an empty table. -/
def Answer.NotFound (tree : Tree) : Answer → Prop
  | .nothing => False
  | .flag value => value = false
  | .iterator iter => iter = ⟨tree.mTailleafId, 0⟩
  | .number count => count = 0

/-- The steps that look up a key. -/
inductive Step.LooksUp : Step K D → Prop where
  | existsKey (key : K) : LooksUp (.existsKey key)
  | find (key : K) : LooksUp (.find key)
  | count (key : K) : LooksUp (.count key)
  | lowerBound (key : K) : LooksUp (.lowerBound key)
  | upperBound (key : K) : LooksUp (.upperBound key)

section Property

variable (platform : Platform K D S) (fuel : Nat)

/-- The step uses nothing that is null; a missing table is not opened, and in an empty
one no key is found. -/
structure Tolerates (before : Session S) (step : Step K D) : Prop where
  noNull : FaultsOnly (¬ ·.IsNull) (step.perform platform fuel) before
  missing : ∀ name, step = .open_ name → before.files.file name = none →
    Runs (step.perform platform fuel) before fun _ after => after.tree.isOpen = false
  empty : step.LooksUp → before.tree.isOpen = true → before.tree.mRootId = -1 →
    Runs (step.perform platform fuel) before fun answer _ => answer.NotFound before.tree

/-- No step of the program follows anything that is absent. -/
def ToleratesAbsence (session : Session S) : List (Step K D) → Prop
  | [] => True
  | step :: rest => Tolerates platform fuel session step ∧
      ∀ answer after, (step.perform platform fuel).run session = .ok (answer, after) →
        ToleratesAbsence after rest

/-- What a query needs: a table to insert into that has room for a row, or one with rows
to get a row from. The files of a new table are not those of another one. -/
structure QueryAdmissible (files : Files S) (q : Text) : Prop where
  create : ∀ name, Begins q "CREATE".toList name →
    files.file (name ++ "_header".toList) = none ∧
      ∀ other, name = other ++ "_header".toList → files.file other = none
  insert : ∀ name, Begins q "INSERT".toList name →
    ∃ file, files.file name = some file ∧ file.nSlots ≠ 0
  get : ∀ name, Begins q "GET".toList name →
    ∃ file, files.file name = some file ∧ file.store.header.rootPage ≠ -1

/-- The object has a table with rows open, and its last key is not equal to this one. -/
def Counts (session : Session S) (key : K) : Prop :=
  session.tree.mRootId ≠ -1 ∧ ∀ name file, session.tree.name = some name →
    session.files.file name = some file →
      EndsBefore (platform.records file.keyStruct file.dataStruct)
        (file.store.file session.tree.mRootId).content key

/-- What a step needs. -/
def Admissible (before : Session S) : Step K D → Prop
  | .renew => True
  | .open_ name => ∃ file, before.files.file name = some file
  | .insert _ _ => before.tree.isOpen = true ∧ before.tree.nodeslotmax ≠ 0
  | .existsKey _ | .find _ | .lowerBound _ | .upperBound _ => before.tree.mRootId ≠ -1
  | .count key => Counts platform before key
  | .eraseOne _ => before.tree.mRootId = -1
  | .query q => QueryAdmissible before.files q

/-- Every step of the program has what it needs when it is taken. -/
def Careful (session : Session S) : List (Step K D) → Prop
  | [] => True
  | step :: rest => Admissible platform session step ∧
      ∀ answer after, (step.perform platform fuel).run session = .ok (answer, after) →
        Careful after rest

end Property

/-! ## The states of a program -/

/-- All tables are flat, and the object has none of them open or knows a root of it. -/
structure Intact (session : Session S) : Prop where
  flat : ∀ name file, session.files.file name = some file → Flat file.store
  tree : session.tree.name = none ∧ session.tree.mRootId = -1 ∨
    ∃ name file, session.tree.name = some name ∧ session.files.file name = some file ∧
      Points file.store session.tree.mRootId session.tree.mTailleafId

theorem intact_start (heap : Heap) : Intact (Session.start heap : Session S) :=
  ⟨nofun, .inl ⟨rfl, rfl⟩⟩

namespace Intact

variable {session : Session S} {name : Text} {file : File S}

theorem withTree (intact : Intact session) (found : session.files.file name = some file)
    {tree : Tree} (named : tree.name = some name)
    (points : Points file.store tree.mRootId tree.mTailleafId) :
    Intact { session with tree } :=
  ⟨intact.flat, .inr ⟨name, file, named, found, points⟩⟩

/-- A table whose pages have been written, or that is new. -/
theorem setFile (intact : Intact session) (short : name.length < 4096) (flat : Flat file.store)
    (kept : ∀ before, session.files.file name = some before →
      ∀ n, before.store.Allocated n → file.store.Allocated n) :
    Intact (session.setFile name short file) := by
  constructor
  case flat =>
    intro other found here
    dsimp only [Session.setFile] at here
    split at here
    · cases here
      exact flat
    · exact intact.flat other found here
  case tree =>
    rcases intact.tree with closed | ⟨open_, before, named, found, points⟩
    · exact .inl closed
    · right
      by_cases same : open_ = name
      · subst same
        exact ⟨open_, file, named, if_pos rfl, points.mono (kept before found)⟩
      · exact ⟨open_, before, named, (if_neg same).trans found, points⟩

end Intact

/-! ## One step -/

section Steps

variable {platform : Platform K D S} {fuel : Nat} {session : Session S} {name : Text}
  {file : File S} {α : Type}

theorem notNull_tree {fault : Tables.Fault} (other : Tables.NotNull fault) :
    ¬ (Stop.tree fault).IsNull := by
  rintro (isNull | isNull | isNull)
  · cases isNull
  · exact other (Stop.tree.inj isNull)
  · cases isNull

theorem notNull_query {fault : Fault} (other : fault ≠ .null) : ¬ (Stop.query fault).IsNull := by
  rintro (isNull | isNull | isNull)
  · cases isNull
  · cases isNull
  · exact other (Stop.query.inj isNull)

theorem notNull_header (fault : Header.Fault) : ¬ (Stop.header fault).IsNull := by
  rintro (isNull | isNull | isNull) <;> cases isNull

theorem callTree_runsOr {tree : Tree} (named : tree.name = some name)
    (found : session.files.file name = some file)
    (call : (file : File S) → Records K D S → Tables.M S α) {post : α → Tables.Table S → Prop}
    (runs : RunsOr Tables.NotNull (call file (platform.records file.keyStruct file.dataStruct))
      (tree.table file) post) :
    RunsOr (¬ ·.IsNull) (callTree platform tree call) session fun result after =>
      ∃ table, post result.1 table ∧ result.2 = .ofTable name table ∧
        after = session.setStore found table.store := by
  unfold callTree
  refine .after ((runs_get ..).mpr ?_)
  rw [named]
  dsimp only
  split
  next missing =>
    rw [found] at missing
    cases missing
  next other present =>
    have same : other = file := Option.some.inj (present.symm.trans found)
    subst same
    have called : RunsOr (¬ ·.IsNull) (runWith Stop.tree
        (call other (platform.records other.keyStruct other.dataStruct)) (tree.table other))
        session fun result after => post result.1 result.2 ∧ after = session :=
      RunsOr.runWith runs fun fault => notNull_tree
    refine called.bind ?_
    intro (result, table) middle ⟨reached, _⟩
    refine .after ((runs_set ..).mpr (.pure ⟨table, reached, rfl, ?_⟩))
    rfl

/-- A call of the object that leaves the table as it is. -/
theorem onTree_runsOr (intact : Intact session) (hasRoot : session.tree.mRootId ≠ -1)
    {call : Records K D S → Tables.M S α}
    (runs : ∀ name file, session.tree.name = some name → session.files.file name = some file →
      Flat file.store → file.store.Allocated session.tree.mRootId →
      file.store.Allocated session.tree.mTailleafId →
        RunsOr Tables.NotNull (call (platform.records file.keyStruct file.dataStruct))
          (session.tree.table file) fun _ after => after = session.tree.table file) :
    RunsOr (¬ ·.IsNull) (onTree platform call) session fun _ after => Intact after := by
  rcases intact.tree with ⟨-, noRoot⟩ | ⟨name, file, named, found, points⟩
  · exact absurd noRoot hasRoot
  · have flat := intact.flat name file found
    obtain ⟨root, tail⟩ := points.resolve_left hasRoot
    refine .after ((runs_get ..).mpr ?_)
    refine (callTree_runsOr named found (fun _ => call)
      (runs name file named found flat root tail)).bind ?_
    intro (result, tree) middle ⟨table, same, isTree, written⟩
    refine .after ((runs_modify ..).mpr (.pure ?_))
    rw [written]
    dsimp only at isTree
    rw [isTree, same]
    have stored := intact.setFile (session.files.short name file found) flat
      fun before here n inUse => by
        rw [found] at here
        cases here
        exact inUse
    exact stored.withTree (if_pos rfl) rfl (.inr ⟨root, tail⟩)

theorem openTree_runs (tree : Tree) (found : session.files.file name = some file) :
    Runs (openTree tree name) session fun opened after =>
      opened = tree.opened name file ∧ after = session := by
  unfold openTree
  rw [runs_bind, runs_get, found]
  exact (runs_pure ..).mpr ⟨rfl, rfl⟩

private theorem kept_of_found {before : File S} (found : session.files.file name = some file)
    (kept : ∀ n, file.store.Allocated n → before.store.Allocated n) :
    ∀ other, session.files.file name = some other →
      ∀ n, other.store.Allocated n → before.store.Allocated n := by
  intro other here
  rw [found] at here
  cases here
  exact kept

/-- An insertion by an object that has the table open. -/
private theorem insert_runsOr_callTree (intact : Intact session) (tree : Tree)
    (named : tree.name = some name) (found : session.files.file name = some file)
    (points : Points file.store tree.mRootId tree.mTailleafId) (some_ : tree.nodeslotmax ≠ 0)
    (key : File S → K) (value : File S → D) :
    RunsOr (¬ ·.IsNull) (callTree platform tree fun file records =>
      Tables.insert records (key file) (value file)) session fun result after =>
        Intact after ∧ ∃ file, after.files.file name = some file ∧ result.2.name = some name ∧
          Points file.store result.2.mRootId result.2.mTailleafId := by
  have flat := intact.flat name file found
  have runs := @Tables.insert_runsOr K D S (platform.records file.keyStruct file.dataStruct)
    (tree.table file) flat points some_ (key file) (value file)
  apply (callTree_runsOr named found (fun file records =>
    Tables.insert records (key file) (value file)) runs).mono
  intro result after ⟨table, grown, isTree, written⟩
  rw [written, isTree]
  exact ⟨intact.setFile (session.files.short name _ found) grown.flat
      (kept_of_found found grown.kept), _, if_pos rfl, rfl,
    .inr ⟨grown.root, grown.tail⟩⟩

theorem createFiles_runsOr (intact : Intact session) (keyStruct dataStruct : DataStructure) :
    RunsOr (¬ ·.IsNull) (createFiles platform name keyStruct dataStruct) session
      fun _ after => Intact after := by
  unfold createFiles
  refine .after ((runs_get ..).mpr ?_)
  split
  · cases found : session.files.file name with
    | some file => exact .throw (notNull_header _)
    | none =>
        dsimp only
        cases Header.initHeader keyStruct dataStruct Pages.limit .zero with
        | error fault => exact .throw (notNull_header fault)
        | ok header =>
            refine .of_runs ((runs_set ..).mpr ?_)
            apply intact.setFile _ (Tables.flat_created platform.zeroes)
            intro before here
            rw [found] at here
            cases here
  · exact .pure intact

private theorem performCall_runsOr (intact : Intact session) {q : Text}
    (admissible : QueryAdmissible session.files q) {call : Call}
    (begins : Begins q call.command call.name) :
    RunsOr (¬ ·.IsNull) (performCall platform fuel call) session fun _ after => Intact after := by
  cases call with
  | create name keyStruct dataStruct => exact createFiles_runsOr intact keyStruct dataStruct
  | insert name key data =>
      obtain ⟨file, found, some_⟩ := admissible.insert name begins
      have flat := intact.flat name file found
      refine .after ((openTree_runs .new found).mono ?_)
      intro _ _ reached
      obtain ⟨opens, same⟩ := reached
      rw [opens, same]
      refine .after ((runs_get ..).mpr ?_)
      refine (insert_runsOr_callTree intact (Tree.new.opened name file) rfl found flat.header
        some_ (fun file => platform.readKey file.keyStruct session.heap.memory key)
        (fun file => platform.readData file.dataStruct session.heap.memory data)).bind ?_
      intro _ after reached
      obtain ⟨kept, _⟩ := reached
      exact .pure kept
  | find name key =>
      obtain ⟨file, found, hasRoot⟩ := admissible.get name begins
      have flat := intact.flat name file found
      obtain ⟨root, tail⟩ := flat.header.resolve_left hasRoot
      refine .after ((openTree_runs .new found).mono ?_)
      intro _ _ reached
      obtain ⟨opens, same⟩ := reached
      rw [opens, same]
      refine .after ((runs_get ..).mpr ?_)
      have runs : RunsOr Tables.NotNull (do
          let found ← Tables.find (platform.records file.keyStruct file.dataStruct) fuel
            (platform.readKey file.keyStruct session.heap.memory key)
          found.1.data (platform.records file.keyStruct file.dataStruct))
          ((Tree.new.opened name file).table file)
          fun _ after => after = (Tree.new.opened name file).table file := by
        refine (Tables.find_runsOr flat root tail fuel _).bind fun iter middle found => ?_
        rw [found.1]
        exact Tables.getData_runsOr found.2 _
      refine (callTree_runsOr rfl found (fun file records => do
          let found ← Tables.find records fuel
            (platform.readKey file.keyStruct session.heap.memory key)
          found.1.data records) runs).bind ?_
      intro _ after reached
      obtain ⟨table, kept, _, written⟩ := reached
      rw [kept] at written
      refine .pure ?_
      rw [written]
      exact intact.setFile (session.files.short name _ found) flat (kept_of_found found fun _ => id)

theorem performQuery_runsOr (intact : Intact session) {q : Text}
    (admissible : QueryAdmissible session.files q) :
    RunsOr (¬ ·.IsNull) (performQuery platform fuel q) session fun _ after => Intact after := by
  have opens (command name : Text) (begins : Begins q command name)
      (either : command = "INSERT".toList ∨ command = "GET".toList) :
      Opens session.disk (· ≠ .null) name := by
    intro missing
    have present : ∃ file, session.files.file name = some file := by
      rcases either with rfl | rfl
      · obtain ⟨file, found, -⟩ := admissible.insert name begins
        exact ⟨file, found⟩
      · obtain ⟨file, found, -⟩ := admissible.get name begins
        exact ⟨file, found⟩
    obtain ⟨file, found⟩ := present
    dsimp only [Session.disk] at missing
    rw [found] at missing
    cases missing
  have sets (columns : DataStructure) :
      Sets platform.atof platform.temporary (· ≠ .null) columns :=
    sets_of_setData (fun _ ordinary => ordinary.1) fun _ _ _ _ => nofun
  have called : RunsOr (¬ ·.IsNull) (runWith Stop.query
      (query platform.atof platform.temporary session.disk q) session.heap) session
      fun result after => (∀ made ∈ result.1, Begins q made.command made.name) ∧
        after = session :=
    RunsOr.runWith (query_runsOr (fun _ ordinary => ordinary.1) opens fun _ _ _ =>
      ⟨sets _, sets _⟩) fun fault => notNull_query
  refine .after ((runs_get ..).mpr (called.bind ?_))
  intro (call, heap) middle ⟨begins, same⟩
  dsimp only at begins ⊢
  rw [same]
  refine .after ((runs_modify ..).mpr ?_)
  have intact' : Intact { session with heap } := ⟨intact.flat, intact.tree⟩
  cases call with
  | none => exact .pure intact'
  | some call => exact performCall_runsOr intact' admissible (begins call rfl)

/-- A step that has what it needs uses nothing that is null. -/
theorem perform_runsOr (intact : Intact session) {step : Step K D}
    (admissible : Admissible platform session step) :
    RunsOr (¬ ·.IsNull) (step.perform platform fuel) session fun _ after => Intact after := by
  cases step with
  | renew => exact .of_runs ((runs_bind ..).mpr ((runs_modify ..).mpr
      ((runs_pure ..).mpr ⟨intact.flat, .inl ⟨rfl, rfl⟩⟩)))
  | open_ name =>
      obtain ⟨file, found⟩ := admissible
      refine .after ((runs_get ..).mpr (.after ((openTree_runs session.tree found).mono ?_)))
      intro _ _ ⟨opens, same⟩
      rw [opens, same]
      refine .after ((runs_modify ..).mpr (.pure ?_))
      exact intact.withTree found rfl (intact.flat name file found).header
  | insert key value =>
      obtain ⟨isOpen, some_⟩ := admissible
      rcases intact.tree with ⟨closed, -⟩ | ⟨name, file, named, found, points⟩
      · rw [Tree.isOpen, closed] at isOpen
        cases isOpen
      · have inserted : RunsOr (¬ ·.IsNull) (onTree platform fun records =>
            Tables.insert records key value) session fun _ after => Intact after := by
          refine .after ((runs_get ..).mpr ?_)
          refine (insert_runsOr_callTree intact session.tree named found points some_ (fun _ => key)
            fun _ => value).bind ?_
          intro (result, tree) after ⟨kept, file, here, isTree, points⟩
          exact .after ((runs_modify ..).mpr (.pure (kept.withTree here isTree points)))
        exact inserted.bind fun _ _ kept => .pure kept
  | existsKey key =>
      have looked : RunsOr (¬ ·.IsNull) (onTree platform fun records =>
          Tables.existsKey records fuel key) session fun _ after => Intact after :=
        onTree_runsOr intact admissible fun _ _ _ _ flat root _ =>
          Tables.existsKey_runsOr flat root fuel key
      exact looked.bind fun _ _ kept => .pure kept
  | find key =>
      have looked : RunsOr (¬ ·.IsNull) (onTree platform fun records =>
          Tables.find records fuel key) session fun _ after => Intact after :=
        onTree_runsOr intact admissible fun _ _ _ _ flat root tail =>
          (Tables.find_runsOr flat root tail fuel key).mono fun _ _ found => found.1
      exact looked.bind fun _ _ kept => .pure kept
  | count key =>
      have counted : RunsOr (¬ ·.IsNull) (onTree platform fun records =>
          Tables.countKey records fuel key) session fun _ after => Intact after :=
        onTree_runsOr intact admissible.1 fun name file named found flat root _ =>
          Tables.countKey_runsOr flat root fuel (admissible.2 name file named found)
      exact counted.bind fun _ _ kept => .pure kept
  | lowerBound key =>
      have looked : RunsOr (¬ ·.IsNull) (onTree platform fun records =>
          Tables.lowerBound records fuel key) session fun _ after => Intact after :=
        onTree_runsOr intact admissible fun _ _ _ _ flat root _ =>
          Tables.lowerBound_runsOr flat root fuel key
      exact looked.bind fun _ _ kept => .pure kept
  | upperBound key =>
      have looked : RunsOr (¬ ·.IsNull) (onTree platform fun records =>
          Tables.upperBound records fuel key) session fun _ after => Intact after :=
        onTree_runsOr intact admissible fun _ _ _ _ flat root _ =>
          Tables.upperBound_runsOr flat root fuel key
      exact looked.bind fun _ _ kept => .pure kept
  | eraseOne key =>
      refine .after ((runs_get ..).mpr ?_)
      rw [if_pos (show session.tree.mRootId = -1 from admissible)]
      exact .pure intact
  | query q => exact (performQuery_runsOr intact admissible).bind fun _ _ kept => .pure kept

theorem tolerates_of_admissible (intact : Intact session) {step : Step K D}
    (admissible : Admissible platform session step) : Tolerates platform fuel session step where
  noNull := (perform_runsOr intact admissible).faultsOnly
  missing := by
    rintro name rfl missing
    obtain ⟨file, found⟩ := admissible
    rw [missing] at found
    cases found
  empty := by
    intro looksUp _ noRoot
    cases looksUp with
    | count key => exact absurd noRoot admissible.1
    | _ => exact absurd noRoot admissible

private theorem toleratesAbsence_of_intact (intact : Intact session) {steps : List (Step K D)}
    (careful : Careful platform fuel session steps) :
    ToleratesAbsence platform fuel session steps := by
  induction steps generalizing session with
  | nil => trivial
  | cons step rest ih =>
      obtain ⟨admissible, careful⟩ := careful
      refine ⟨tolerates_of_admissible intact admissible, fun answer after returned => ?_⟩
      exact ih ((perform_runsOr intact admissible).holds returned) (careful answer after returned)

/-- A program whose steps have what they need uses nothing that is null. -/
theorem toleratesAbsence (platform : Platform K D S) (fuel : Nat) (heap : Heap)
    (steps : List (Step K D)) (careful : Careful platform fuel (.start heap) steps) :
    ToleratesAbsence platform fuel (.start heap) steps :=
  toleratesAbsence_of_intact (intact_start heap) careful

end Steps

/-! ## A table of numbers -/

/-- The keys and the data are numbers, and slots are arrays. -/
def numbers : Platform Nat Nat (Tables.Slots Nat Nat) where
  records _ _ := Tables.arrays Nat Nat
  readKey _ memory address := (memory address).toNat
  readData _ memory address := (memory address).toNat
  zeroes := ⟨fun _ => 0, fun _ => 0, fun _ => 0⟩
  canCreate _ := true
  atof _ := 0
  temporary := 0

def noHeap : Heap := ⟨fun _ => 0, 0⟩

def createTable : Text := "CREATE t INT INT".toList

/-- A table is created and opened, and gets a row, which is then looked up. -/
def firstRow : List (Step Nat Nat) :=
  [.query createTable, .eraseOne 1, .open_ "t".toList, .insert 1 10, .existsKey 1]

section FirstRow

private theorem begins_createTable {command name : Text} (begins : Begins createTable command name) :
    command = "CREATE".toList ∧ name = "t".toList := by
  obtain ⟨after, read⟩ := begins
  have words : ((firstWords.run (ofText createTable)).toOption.map fun result => result.1) =
      some ("CREATE".toList, "t".toList) := by decide +kernel
  rw [read] at words
  cases words
  exact ⟨rfl, rfl⟩

/-- The test holds of the state in which the program ends. -/
private def endsWith (program : Stepping (Tables.Slots Nat Nat) Answer)
    (test : Session (Tables.Slots Nat Nat) → Bool) : Bool :=
  match program.run (.start noHeap) with
  | .ok (_, final) => test final
  | .error _ => true

private theorem of_endsWith {program : Stepping (Tables.Slots Nat Nat) Answer}
    (test : Session (Tables.Slots Nat Nat) → Bool) (ends : endsWith program test = true)
    {answer : Answer} {final : Session (Tables.Slots Nat Nat)}
    (returned : program.run (.start noHeap) = .ok (answer, final)) : test final = true := by
  rwa [endsWith, returned] at ends

private def created : Stepping (Tables.Slots Nat Nat) Answer :=
  (Step.query createTable : Step Nat Nat).perform numbers 3

private def erased : Stepping (Tables.Slots Nat Nat) Answer := do
  let _ ← created
  (Step.eraseOne 1 : Step Nat Nat).perform numbers 3

private def opened : Stepping (Tables.Slots Nat Nat) Answer := do
  let _ ← erased
  (Step.open_ "t".toList : Step Nat Nat).perform numbers 3

private def inserted : Stepping (Tables.Slots Nat Nat) Answer := do
  let _ ← opened
  (Step.insert 1 10 : Step Nat Nat).perform numbers 3

private theorem careful_firstRow : Careful numbers 3 (.start noHeap) firstRow := by
  constructor
  · constructor
    case create =>
      intro name _
      exact ⟨rfl, fun _ _ => rfl⟩
    case insert =>
      intro name begins
      exact absurd (begins_createTable begins).1 (by decide)
    case get =>
      intro name begins
      exact absurd (begins_createTable begins).1 (by decide)
  intro _ session₁ returned₁
  constructor
  · have noRoot := of_endsWith (fun session => decide (session.tree.mRootId = -1))
      (by decide +kernel) returned₁
    have noRoot := of_decide_eq_true noRoot
    exact noRoot
  intro _ session₂ returned₂
  have ran₂ : erased.run (.start noHeap) = _ := (run_bind_ok returned₁).trans returned₂
  constructor
  · have present := of_endsWith (fun session => (session.files.file "t".toList).isSome)
      (by decide +kernel) ran₂
    exact Option.isSome_iff_exists.mp present
  intro _ session₃ returned₃
  have ran₃ : opened.run (.start noHeap) = _ := (run_bind_ok ran₂).trans returned₃
  constructor
  · have room := of_endsWith (fun session =>
      decide (session.tree.isOpen = true ∧ session.tree.nodeslotmax ≠ 0)) (by decide +kernel) ran₃
    have room := of_decide_eq_true room
    exact room
  intro _ session₄ returned₄
  have ran₄ : inserted.run (.start noHeap) = _ := (run_bind_ok ran₃).trans returned₄
  constructor
  · have hasRoot := of_endsWith (fun session => decide (session.tree.mRootId ≠ -1))
      (by decide +kernel) ran₄
    have hasRoot := of_decide_eq_true hasRoot
    exact hasRoot
  intro _ session₅ _
  trivial

end FirstRow

theorem toleratesAbsence_firstRow : Careful numbers 3 (.start noHeap) firstRow ∧
    ToleratesAbsence numbers 3 (.start noHeap) firstRow :=
  ⟨careful_firstRow, toleratesAbsence numbers 3 noHeap firstRow careful_firstRow⟩

/-- The header of a missing table is read when the table is opened. -/
theorem not_toleratesAbsence_missing :
    ¬ ToleratesAbsence numbers 3 (.start noHeap) [.open_ "t".toList] := by
  intro tolerates
  exact tolerates.1.noNull .null rfl (.inl rfl)

end PersistentBTree.Queries
