import PersistentBTree.Queries.CatalogueProperties
import PersistentBTree.Queries.SessionGuarantees

/-! What sessions keep: the files of the tables are those that the catalogue lists, with
as many rows, and what is done with other tables does not reach a table. A table `t` has the
files `t` and `t_header`, and none of them may be a file of another table. -/

set_option autoImplicit false

namespace PersistentBTree.Queries

open Imperative
open Tables (Records HoldsRows)

variable {K D S α : Type} {platform : Platform K D S} {fuel : Nat} {session after : Session S}

/-! ## The catalogue -/

/-- The file of a table that is listed. A table whose header gives no room for a row may
have any pages. -/
structure Entry.Describes (entry : Entry) (file : File S) : Prop where
  keyStruct : file.keyStruct = entry.keyStruct
  dataStruct : file.dataStruct = entry.dataStruct
  rows : file.nSlots ≠ 0 → HoldsRows file.store entry.rows

/-- There are files of the tables that are listed, and no others. -/
def Catalogue.Lists (catalogue : Catalogue) (files : Files S) : Prop :=
  ∀ name, Option.Rel Entry.Describes (catalogue name) (files.file name)

namespace Catalogue

variable {catalogue : Catalogue} {files : Files S}

theorem lists_empty : empty.Lists (.empty : Files S) := fun _ => .none

theorem Lists.exists_entry (lists : catalogue.Lists files) {name : Text} {file : File S}
    (found : files.file name = some file) :
    ∃ entry, catalogue name = some entry ∧ entry.Describes file := by
  have related := lists name
  rw [found] at related
  cases entry : catalogue name with
  | none =>
      rw [entry] at related
      cases related
  | some listed =>
      rw [entry] at related
      cases related with
      | some describes => exact ⟨listed, rfl, describes⟩

/-- A statement does the same to the catalogue and to the files. -/
theorem Lists.obey {canCreate : Text → Bool} {statement : Statement} {later : Files S}
    (lists : catalogue.Lists files) (changes : statement.Changes canCreate files later) :
    (catalogue.obey canCreate statement).Lists later := by
  intro name
  unfold Catalogue.obey
  split
  next made =>
    obtain ⟨creates, canMake⟩ := made
    by_cases named : name = statement.name
    · subst named
      obtain ⟨file, found, keys, datas, noRows⟩ := changes.creates creates canMake
      rw [Function.update_self, found, keys, datas]
      exact .some ⟨rfl, rfl, fun _ => noRows⟩
    · rw [Function.update_of_ne named, changes.others name fun writes => named writes.2.symm]
      exact lists name
  next notMade =>
    split
    next inserts =>
      by_cases named : name = statement.name
      · subst named
        obtain ⟨file, store, found, written, grows⟩ := changes.inserts inserts
        obtain ⟨entry, listed, describes⟩ := lists.exists_entry found
        rw [Function.update_self, written, listed]
        exact .some ⟨describes.keyStruct, describes.dataStruct,
          fun some_ => grows some_ _ (describes.rows some_)⟩
      · rw [Function.update_of_ne named, changes.others name fun writes => named writes.2.symm]
        exact lists name
    next notInserted =>
      have same : later.file name = files.file name := by
        by_cases writes : statement.Writes name
        · obtain ⟨either, named⟩ := writes
          subst named
          have creates := either.resolve_right notInserted
          exact changes.cannotMake creates fun canMake => notMade ⟨creates, canMake⟩
        · exact changes.others name writes
      rw [same]
      exact lists name

end Catalogue

private theorem performSteps_cons {step : Step K D} {rest : List (Step K D)}
    {post : Unit → Session S → Prop} {reached : Session S → Prop}
    (first : Ensures (step.perform platform fuel) session fun _ middle => reached middle)
    (second : ∀ middle, reached middle → Ensures (performSteps platform fuel rest) middle post) :
    Ensures (performSteps platform fuel (step :: rest)) session post :=
  first.bind fun _ middle holds => second middle holds

private theorem query_perform (q : Text) :
    Ensures ((Step.query q : Step K D).perform platform fuel) session fun _ middle =>
      middle.tree = session.tree ∧
        (Statement.ofQuery q).Changes platform.canCreate session.files middle.files :=
  (performQuery_changes q).bind fun _ _ changed => .pure changed

/-! ## The tables that exist -/

private theorem onTree_names {call : Records K D S → Tables.M S α} :
    Ensures (onTree platform call) session fun _ final =>
      final.files.names = session.files.names := by
  unfold onTree
  apply Ensures.get_bind
  refine callTree_ensures.bind fun _ middle reached => ?_
  obtain ⟨own, file, table, found, named, returned, written⟩ := reached
  rw [written]
  apply Ensures.modify_bind
  apply Ensures.pure
  apply Set.ext
  intro name
  change ((session.setStore found table.store).files.file name).isSome = true ↔ _
  by_cases same : name = own
  · subst same
    rw [Session.setStore, Session.file_setFile]
    simp [Files.names, found]
  · rw [Session.file_setStore_of_ne found table.store same]
    rfl

/-- A step creates no table but one that it names. -/
private theorem perform_names (step : Step K D) :
    Ensures (step.perform platform fuel) session fun _ final =>
      ∀ name ∈ final.files.names, name ∈ session.files.names ∨ step.Names name := by
  have same : ∀ {files : Files S}, files.names = session.files.names →
      ∀ name ∈ files.names, name ∈ session.files.names ∨ step.Names name :=
    fun equal name member => .inl (equal ▸ member)
  cases step with
  | renew => exact .of_runs ((runs_bind ..).mpr ((runs_modify ..).mpr ((runs_pure ..).mpr (same rfl))))
  | open_ opened =>
      apply Ensures.get_bind
      refine (openTree_ensures session.tree opened).bind fun tree middle reached => ?_
      obtain ⟨_, _, _, unchanged⟩ := reached
      rw [unchanged]
      apply Ensures.modify_bind
      exact .pure (same rfl)
  | insert key value => exact onTree_names.bind fun _ _ equal => .pure (same equal)
  | existsKey key => exact onTree_names.bind fun _ _ equal => .pure (same equal)
  | find key => exact onTree_names.bind fun _ _ equal => .pure (same equal)
  | count key => exact onTree_names.bind fun _ _ equal => .pure (same equal)
  | lowerBound key => exact onTree_names.bind fun _ _ equal => .pure (same equal)
  | upperBound key => exact onTree_names.bind fun _ _ equal => .pure (same equal)
  | eraseOne key =>
      apply Ensures.get_bind
      split
      · exact .pure (same rfl)
      · exact onTree_names.bind fun _ _ equal => .pure (same equal)
  | query q =>
      refine (query_perform q).mono fun _ middle changed name member => ?_
      by_cases writes : (Statement.ofQuery q).Writes name
      · exact .inr writes.2
      · left
        change (session.files.file name).isSome = true
        rw [← changed.2.others name writes]
        exact member

private theorem performSteps_names (steps : List (Step K D)) :
    Ensures (performSteps platform fuel steps) session fun _ final =>
      final.files.names ⊆ namesOf session.files steps := by
  induction steps generalizing session with
  | nil => exact .pure fun name member => .inl member
  | cons step rest ih =>
      refine performSteps_cons (perform_names step) fun middle reached => ?_
      refine ih.mono fun _ final inside name member => ?_
      cases inside member with
      | inl there =>
          exact (reached name there).imp id fun names => ⟨step, List.mem_cons_self, names⟩
      | inr later =>
          obtain ⟨other, among, names⟩ := later
          exact .inr ⟨other, List.mem_cons_of_mem _ among, names⟩

private theorem queries_lists {catalogue : Catalogue} (qs : List Text)
    (lists : catalogue.Lists session.files) :
    Ensures (performSteps platform fuel (qs.map Step.query)) session fun _ final =>
      (qs.foldl (fun catalogue q => catalogue.obey platform.canCreate (.ofQuery q))
        catalogue).Lists final.files := by
  induction qs generalizing session catalogue with
  | nil => exact .pure lists
  | cons q rest ih =>
      exact performSteps_cons (query_perform q) fun middle changed => ih (lists.obey changed.2)

private theorem queries_names {heap : Heap} {qs : List Text}
    (returned : (performSteps platform fuel (qs.map Step.query)).run (.start heap) =
      .ok ((), after)) : ∀ name ∈ after.files.names, ∃ q ∈ qs, (Statement.ofQuery q).name = name := by
  intro name member
  cases performSteps_names _ () after returned member with
  | inl absent => cases absent
  | inr named =>
      obtain ⟨step, among, names⟩ := named
      obtain ⟨q, inside, rfl⟩ := List.mem_map.mp among
      exact ⟨q, inside, names⟩

/-- After every session of queries the files are those that the catalogue lists, if the tables
that it names have all their files for themselves. -/
theorem catalogue_of_queries {Location : Type} {locate : Text → Location} {heap : Heap}
    {qs : List Text}
    (separate : Separate locate { name | ∃ q ∈ qs, (Statement.ofQuery q).name = name })
    (returned : (performSteps platform fuel (qs.map Step.query)).run (.start heap) =
      .ok ((), after)) :
    (Catalogue.after platform.canCreate qs).Lists after.files ∧
      Separate locate after.files.names :=
  ⟨queries_lists qs Catalogue.lists_empty () after returned, separate.mono (queries_names returned)⟩

def insertRow : Text := "INSERT t '(1)' '(10)'".toList

/-- Two tables, one of which gets two rows. -/
def twoTables : List Text :=
  [createTable, insertRow, "create u BOOL (INT,STRING8)".toList, insertRow, "GET t '(1)'".toList]

private theorem exists_of_isOk {program : Stepping (Tables.Slots Nat Nat) Unit}
    {start : Session (Tables.Slots Nat Nat)} (ok : (program.run start).isOk = true) :
    ∃ final, program.run start = .ok ((), final) := by
  cases returned : program.run start with
  | error fault =>
      rw [returned] at ok
      cases ok
  | ok result => exact ⟨result.2, rfl⟩

private theorem exists_twoTables : ∃ final,
    (performSteps numbers 3 (twoTables.map Step.query)).run (.start noHeap) = .ok ((), final) :=
  exists_of_isOk (by decide +kernel)

/-- The two tables have two files each. -/
private theorem separate_twoTables {names : Set Text}
    (inside : ∀ name ∈ names, ∃ q ∈ twoTables, (Statement.ofQuery q).name = name) :
    Separate id names := by
  have apart : ∀ q ∈ twoTables, ∀ q' ∈ twoTables,
      (Statement.ofQuery q).name = (Statement.ofQuery q').name ∨
        ¬ SharesFile id (Statement.ofQuery q).name (Statement.ofQuery q').name := by
    decide +kernel
  intro one member other member' different
  obtain ⟨q, among, rfl⟩ := inside one member
  obtain ⟨q', among', rfl⟩ := inside other member'
  exact (apart q among q' among').resolve_left different

theorem catalogue_of_queries_twoTables : ∃ final,
    (performSteps numbers 3 (twoTables.map Step.query)).run (.start noHeap) = .ok ((), final) ∧
      (Catalogue.after numbers.canCreate twoTables).Lists final.files ∧
      Separate id final.files.names := by
  obtain ⟨final, returned⟩ := exists_twoTables
  exact ⟨final, returned, catalogue_of_queries (separate_twoTables fun _ => id) returned⟩

/-- What is listed of the two tables. -/
example : (["t".toList, "u".toList].map fun name =>
    ((Catalogue.after numbers.canCreate twoTables) name).map Entry.rows) = [some 2, some 0] := by
  decide +kernel

/-! ## Isolation -/

/-- The step may write the files of the table. -/
def Step.Writes (tree : Tree) (name : Text) : Step K D → Prop
  | .insert _ _ => tree.name = some name
  | .query q => (Statement.ofQuery q).Writes name
  | _ => False

/-- No step writes the files of the table when it is taken. -/
def Spares (platform : Platform K D S) (fuel : Nat) (name : Text) (session : Session S) :
    List (Step K D) → Prop
  | [] => True
  | step :: rest => ¬ step.Writes session.tree name ∧
      ∀ answer middle, (step.perform platform fuel).run session = .ok (answer, middle) →
        Spares platform fuel name middle rest

private theorem onTree_spares {name : Text} {call : Records K D S → Tables.M S α}
    (other : session.tree.name ≠ some name ∨ ∀ records, ReadsOnly (call records)) :
    Ensures (onTree platform call) session fun _ final =>
      final.files.file name = session.files.file name := by
  unfold onTree
  apply Ensures.get_bind
  refine callTree_ensures.bind fun _ middle reached => ?_
  obtain ⟨own, file, table, found, named, returned, written⟩ := reached
  rw [written]
  apply Ensures.modify_bind
  apply Ensures.pure
  cases other with
  | inl apart =>
      have different : name ≠ own := by
        intro same
        rw [same] at apart
        exact apart named
      exact Session.file_setStore_of_ne found table.store different
  | inr reads =>
      have kept := reads _ _ _ _ returned
      rw [kept]
      exact Session.file_setStore_same found name

private theorem readsOnly_eraseOne (key : K) : ReadsOnly (Tables.eraseOne key : Tables.M S Bool) := by
  have stops : ∀ root : Tables.Node S, ReadsOnly (do
      let found ← Tables.eraseDescend root
      modify fun table : Tables.Table S => if found then
        { table with mStats.itemcount := table.mStats.itemcount - 1 } else table
      pure found) := by
    intro root state
    exact Ensures.bind (Ensures.throw _) fun _ _ (reached : False) => reached.elim
  exact ReadsOnly.get.bind fun _ => .ite .pure ((Tables.readsOnly_getNode _).bind stops)

/-- A step leaves the files of a table that it does not write. -/
private theorem perform_spares {name : Text} {step : Step K D}
    (spared : ¬ step.Writes session.tree name) :
    Ensures (step.perform platform fuel) session fun _ final =>
      final.files.file name = session.files.file name := by
  cases step with
  | renew => exact .of_runs ((runs_bind ..).mpr ((runs_modify ..).mpr ((runs_pure ..).mpr rfl)))
  | open_ opened =>
      apply Ensures.get_bind
      refine (openTree_ensures session.tree opened).bind fun tree middle reached => ?_
      obtain ⟨_, _, _, same⟩ := reached
      rw [same]
      apply Ensures.modify_bind
      exact .pure rfl
  | insert key value => exact (onTree_spares (.inl spared)).bind fun _ _ same => .pure same
  | existsKey key =>
      have reads := fun records => @Tables.readsOnly_existsKey K D S records fuel key
      exact (onTree_spares (.inr reads)).bind fun _ _ same => .pure same
  | find key =>
      have reads := fun records => @Tables.readsOnly_find K D S records fuel key
      exact (onTree_spares (.inr reads)).bind fun _ _ same => .pure same
  | count key =>
      have reads := fun records => @Tables.readsOnly_countKey K D S records fuel key
      exact (onTree_spares (.inr reads)).bind fun _ _ same => .pure same
  | lowerBound key =>
      have reads := fun records => @Tables.readsOnly_lowerBound K D S records fuel key
      exact (onTree_spares (.inr reads)).bind fun _ _ same => .pure same
  | upperBound key =>
      have reads := fun records => @Tables.readsOnly_upperBound K D S records fuel key
      exact (onTree_spares (.inr reads)).bind fun _ _ same => .pure same
  | eraseOne key =>
      apply Ensures.get_bind
      split
      · exact .pure rfl
      · exact (onTree_spares (.inr fun _ => readsOnly_eraseOne key)).bind fun _ _ same => .pure same
  | query q => exact (query_perform q).mono fun _ _ changed => changed.2.others name spared

private theorem performSteps_spares {name : Text} {steps : List (Step K D)}
    (spares : Spares platform fuel name session steps) :
    Ensures (performSteps platform fuel steps) session fun _ final =>
      final.files.file name = session.files.file name := by
  induction steps generalizing session with
  | nil => exact .pure rfl
  | cons step rest ih =>
      obtain ⟨spared, spares⟩ := spares
      have first : Ensures (step.perform platform fuel) session fun _ middle =>
          Spares platform fuel name middle rest ∧
            middle.files.file name = session.files.file name :=
        fun answer middle ran => ⟨spares answer middle ran, perform_spares spared answer middle ran⟩
      refine performSteps_cons first fun middle reached => ?_
      exact (ih reached.1).mono fun _ final same => same.trans reached.2

/-- A program that does not write the files of a table leaves its header and its pages as they
are, if the tables that exist and those that it names have all their files for themselves. -/
theorem file_of_spares {Location : Type} {locate : Text → Location} {name : Text}
    {steps : List (Step K D)} (separate : Separate locate (namesOf session.files steps))
    (spares : Spares platform fuel name session steps)
    (returned : (performSteps platform fuel steps).run session = .ok ((), after)) :
    after.files.file name = session.files.file name ∧ Separate locate after.files.names :=
  ⟨performSteps_spares spares () after returned,
    separate.mono (performSteps_names steps () after returned)⟩

private theorem exists_twoTables_insertRow : ∃ before final,
    (performSteps numbers 3 (twoTables.map Step.query)).run (.start noHeap) = .ok ((), before) ∧
      (performSteps numbers 3 [Step.query insertRow]).run before = .ok ((), final) := by
  have ok : ((do
      performSteps numbers 3 (twoTables.map Step.query)
      performSteps numbers 3 [Step.query insertRow] :
        Stepping (Tables.Slots Nat Nat) Unit).run (.start noHeap)).isOk = true := by
    decide +kernel
  obtain ⟨before, returned⟩ := exists_twoTables
  rw [run_bind_ok returned] at ok
  obtain ⟨final, last⟩ := exists_of_isOk ok
  exact ⟨before, final, returned, last⟩

theorem file_of_spares_insertRow : ∃ before final,
    (performSteps numbers 3 (twoTables.map Step.query)).run (.start noHeap) = .ok ((), before) ∧
      (performSteps numbers 3 [Step.query insertRow]).run before = .ok ((), final) ∧
        final.files.file "u".toList = before.files.file "u".toList ∧
        Separate id final.files.names := by
  obtain ⟨before, final, returned, last⟩ := exists_twoTables_insertRow
  have spared : ¬ (Statement.ofQuery insertRow).Writes "u".toList := by decide +kernel
  have spares : Spares numbers 3 "u".toList before [Step.query insertRow] :=
    ⟨spared, fun _ _ _ => trivial⟩
  have separate : Separate id (namesOf before.files [(Step.query insertRow : Step Nat Nat)]) := by
    apply separate_twoTables
    intro name member
    cases member with
    | inl exists_ => exact queries_names returned name exists_
    | inr named =>
        obtain ⟨step, among, names⟩ := named
        rw [List.mem_singleton.mp among] at names
        exact ⟨insertRow, by simp [twoTables], names⟩
  exact ⟨before, final, returned, last, file_of_spares separate spares last⟩

end PersistentBTree.Queries
