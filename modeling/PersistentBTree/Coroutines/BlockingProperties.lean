import PersistentBTree.Coroutines.Blocking
import PersistentBTree.Coroutines.RunProperties

/-! The coroutines do what the blocking processes do. A trade among parties is the step of the
processes that they stand for of which the same is seen, or nothing is seen of it and they do
nothing. -/

set_option autoImplicit false

namespace PersistentBTree.Coroutines

open Imperative
open List (Perm)

variable {Code Error : Type} {behaviour : Behaviour Code Error}
  {label : Option (Label Code Error)} {parties parties' old new rest : List (Party Code Error)}
  {store store' : Store Code}

/-! ## The sockets of accepts -/

/-- An accept holds its socket until it has ended. -/
def socketOwnership (Code Error : Type) : Ownership (Party Code Error) SocketId Unit where
  holds := Party.accepting
  suits := fun party cell => party.accepting.isSome → cell.isSome
  live := fun _ => False
  some_of_suits := fun holds suits => by simp [holds] at suits

def socketCells (sockets : Nat) (socket : SocketId) : Option Unit :=
  if socket < sockets then some () else none

theorem socketCells_eq_none {sockets : Nat} {socket : SocketId} :
    socketCells sockets socket = none ↔ sockets ≤ socket := by
  simp [socketCells]

/-- Accepts under way have sockets of their own. -/
def SocketsOwned (parties : List (Party Code Error)) (sockets : Nat) : Prop :=
  Imperative.Owned (socketOwnership Code Error) parties (socketCells sockets)

private theorem sockets_fewer (owned : SocketsOwned parties store.sockets)
    (before : Perm parties (old ++ rest)) (after : Perm parties' (new ++ rest))
    (fewer : new.filterMap Party.accepting = []) : SocketsOwned parties' store.sockets := by
  have holds : new.filterMap (socketOwnership Code Error).holds = [] := fewer
  refine owned.exchange before after (fun _ _ _ => rfl) ?_ ?_ ?_ ?_
  · exact fun socket isNew => absurd (holds ▸ isNew) List.not_mem_nil
  · intro party member accepts
    obtain ⟨socket, accepting⟩ := Option.isSome_iff_exists.mp accepts
    have isNew : socket ∈ new.filterMap Party.accepting :=
      List.mem_filterMap.mpr ⟨party, member, accepting⟩
    rw [fewer] at isNew
    cases isNew
  · exact holds.symm ▸ List.nodup_nil
  · exact fun _ _ _ _ lives => lives.elim

theorem Trades.socketsOwned (trades : Trades behaviour label old store new store')
    (owned : SocketsOwned parties store.sockets)
    (before : Perm parties (old ++ rest)) (after : Perm parties' (new ++ rest)) :
    SocketsOwned parties' store'.sockets := by
  cases trades with
  | create | deferReturns | finish | raise | go | defer | completeDeferred | completeFinished
  | transfer | deferHandlerReturns => exact sockets_fewer owned before after rfl
  | resume place found completes =>
      apply sockets_fewer owned before after
      rw [List.filterMap_cons_none rfl, List.filterMap_map, List.filterMap_eq_nil_iff]
      exact fun _ _ => rfl
  | @ended pending =>
      apply sockets_fewer owned before after
      cases pending <;> rfl
  | @accept thread store id coro call handler place found called accepts =>
      refine owned.exchange before after ?_ ?_ ?_ ?_ (fun _ _ _ _ lives => lives.elim)
      · intro socket _ notNew
        have differs : socket ≠ store.sockets := fun same => notNew (same ▸ List.mem_singleton_self _)
        simp only [socketCells]
        grind
      · intro socket isNew
        have same : socket = store.sockets := List.mem_singleton.mp isNew
        exact .inr (socketCells_eq_none.mpr (Nat.le_of_eq same.symm))
      · intro party member accepting
        cases List.mem_cons.mp member with
        | inl same =>
            subst same
            cases accepting
        | inr begun =>
            rw [List.mem_singleton.mp begun]
            change (socketCells (store.sockets + 1) store.sockets).isSome
            simp [socketCells]
      · exact List.nodup_singleton store.sockets

/-! ## The world of the parties -/

theorem worldOf_perm (same : Perm parties parties') (store : Store Code) :
    worldOf behaviour parties store = worldOf behaviour parties' store := by
  have processes := Multiset.coe_eq_coe.mpr (same.flatMap_right fun party =>
    party.processes behaviour (party.coro.bind store.cells))
  have accepting : ∀ socket, socket ∈ parties.filterMap Party.accepting ↔
      socket ∈ parties'.filterMap Party.accepting := fun socket => (same.filterMap _).mem_iff
  simp only [worldOf, takenOf, processesOf, accepting, same.countP_eq]
  exact congrArg (fun left => World.mk left _ _) processes

private theorem processesOf_append (cells : CoroId → Option (Coro Code)) :
    processesOf behaviour cells (old ++ rest) =
      processesOf behaviour cells old ++ processesOf behaviour cells rest :=
  List.flatMap_append

/-- What a trade changes was held by one of the parties, or is new. -/
theorem Trades.changes (trades : Trades behaviour label old store new store') (id : CoroId)
    (differs : store'.cells id ≠ store.cells id) :
    id ∈ old.filterMap Party.coro ∨ store.cells id = none := by
  have put : ∀ {other : CoroId} {cell : Option (Coro Code)},
      (store.put other cell).cells id ≠ store.cells id → id = other := by
    intro other cell differs
    by_contra apart
    exact differs (Function.update_of_ne apart ..)
  cases trades with
  | create place fresh => exact .inr (put differs ▸ fresh)
  | resume place found completes =>
      left
      rw [put differs]
      rcases completes with ⟨rfl, -⟩ | ⟨handler, rfl, -⟩ <;>
        simp [Party.coro, place, Place.coro, Task.coro]
  | deferReturns place | finish place | raise place | go place | defer place
  | completeFinished place =>
      left
      rw [put differs]
      simp [Party.coro, place, Place.coro]
  | completeDeferred | transfer | accept | deferHandlerReturns | ended => exact absurd rfl differs

/-- The others see nothing of a trade. -/
theorem Trades.frame (trades : Trades behaviour label old store new store')
    (owned : Imperative.Owned (ownership Code Error) parties store.cells)
    (before : Perm parties (old ++ rest)) :
    processesOf behaviour store'.cells rest = processesOf behaviour store.cells rest := by
  have seen := Imperative.Owned.frame owned before trades.changes
  unfold processesOf
  apply List.flatMap_congr
  intro party member
  have same : party.coro.bind store'.cells = party.coro.bind store.cells := seen party member
  rw [same]

private theorem simulated_trade (trades : Trades behaviour label old store new store')
    (owned : Imperative.Owned (ownership Code Error) parties store.cells)
    (before : Perm parties (old ++ rest))
    (steps : ∀ (others : List (Process Code)) (raised : Nat),
      World.Follows behaviour
        ⟨(processesOf behaviour store.cells old ++ others : List (Process Code)),
          takenOf (old ++ rest) store.sockets, old.countP Party.raised + raised⟩
        label ⟨(processesOf behaviour store'.cells new ++ others : List (Process Code)),
          takenOf (new ++ rest) store'.sockets, new.countP Party.raised + raised⟩) :
    World.Follows behaviour (worldOf behaviour (old ++ rest) store) label
      (worldOf behaviour (new ++ rest) store') := by
  have stepped := steps (processesOf behaviour store.cells rest) (rest.countP Party.raised)
  simpa only [worldOf, processesOf_append, trades.frame owned before, List.countP_append]
    using stepped

/-- A trade that is no business of an accept. -/
private theorem simulated_plain (trades : Trades behaviour label old store new store')
    (owned : Imperative.Owned (ownership Code Error) parties store.cells)
    (before : Perm parties (old ++ rest)) (sockets : store'.sockets = store.sockets)
    (accepting : new.filterMap Party.accepting = old.filterMap Party.accepting)
    (steps : ∀ (others : List (Process Code)) (taken : Set SocketId) (raised : Nat),
      World.Follows behaviour
        ⟨(processesOf behaviour store.cells old ++ others : List (Process Code)), taken,
          old.countP Party.raised + raised⟩
        label ⟨(processesOf behaviour store'.cells new ++ others : List (Process Code)), taken,
          new.countP Party.raised + raised⟩) :
    World.Follows behaviour (worldOf behaviour (old ++ rest) store) label
      (worldOf behaviour (new ++ rest) store') := by
  refine simulated_trade trades owned before fun others raised => ?_
  have taken : takenOf (new ++ rest) store'.sockets = takenOf (old ++ rest) store.sockets := by
    simp only [takenOf, List.filterMap_append, accepting, sockets]
  rw [taken]
  exact steps ..

/-! ## The simulation -/

section Processes

variable {thread : Thread Error} {id : CoroId} {coro : Coro Code} {call : Call Code}
  (cells : CoroId → Option (Coro Code))

private theorem processes_inside {cells : CoroId → Option (Coro Code)}
    (place : thread.place = .inside id) (found : cells id = some coro) :
    processesOf behaviour cells [.thread thread] = [coro.process behaviour thread.error] := by
  simp [processesOf, Party.processes, Party.coro, place, Place.coro, Thread.processes, found]

private theorem processes_idle (idle : thread.place.coro = none) :
    processesOf behaviour cells [.thread thread] = [] := by
  cases place : thread.place <;>
    simp_all [processesOf, Party.processes, Party.coro, Place.coro, Thread.processes]

private theorem processes_deferring {cells : CoroId → Option (Coro Code)}
    (place : thread.place = .deferring id ∨
      thread.place = .completing id ∧ thread.deferHandler.isSome = true)
    (found : cells id = some coro) :
    processesOf behaviour cells [.thread thread] = coro.blocked := by
  cases place with
  | inl place =>
      simp [processesOf, Party.processes, Party.coro, place, Place.coro, Thread.processes, found]
  | inr completing =>
      obtain ⟨place, pointed⟩ := completing
      simp [processesOf, Party.processes, Party.coro, place, Place.coro, Thread.processes, found,
        pointed]

private theorem processes_finished (place : thread.place = .completing id)
    (pointed : thread.deferHandler = none) :
    processesOf behaviour cells [.thread thread] = [] := by
  simp [processesOf, Party.processes, Party.coro, place, Place.coro, Thread.processes, pointed]
  split <;> simp_all

private theorem processes_cons (party : Party Code Error) :
    processesOf behaviour cells (party :: rest) =
      processesOf behaviour cells [party] ++ processesOf behaviour cells rest := by
  simp [processesOf]

@[simp] private theorem processes_create (handler : Code) :
    processesOf behaviour cells [.task (.create handler)] = [.runs handler] := by
  simp [processesOf, Party.processes, Task.processes]

private theorem processes_pending {cells : CoroId → Option (Coro Code)} {pending : Pending Code}
    (found : cells pending.coro = some coro) :
    processesOf behaviour cells [.pending pending] = coro.blocked := by
  simp [processesOf, Party.processes, Party.coro, found]

private theorem processes_completed {cells : CoroId → Option (Coro Code)} {error : Option Error}
    {task : Task Code Error} {posted : List (Task Code Error)}
    (completes : (task = .onComplete id error ∧ posted = []) ∨
      ∃ handler, task = .onCompleteGo id handler error ∧
        posted = if error.isNone then [.create handler] else [])
    (found : cells id = some coro) :
    processesOf behaviour cells [.task task] =
      .runs (behaviour.resume coro.code error) ::
        processesOf behaviour cells (posted.map .task) := by
  rcases completes with ⟨rfl, rfl⟩ | ⟨handler, rfl, rfl⟩
  · simp [processesOf, Party.processes, Party.coro, Task.coro, Task.processes, found]
  · cases error <;>
      simp [processesOf, Party.processes, Party.coro, Task.coro, Task.processes, found]

end Processes

private theorem takenOf_begin (thread thread' : Thread Error) (id : CoroId) (sockets : Nat)
    (handler : Code) :
    takenOf ([.thread thread', .pending (.accept id sockets handler)] ++ rest) (sockets + 1) =
      takenOf ([.thread thread] ++ rest) sockets := by
  apply Set.ext
  intro socket
  have inNew : ([Party.thread thread', Party.pending (.accept id sockets handler)] ++ rest).filterMap
      Party.accepting = sockets :: rest.filterMap (@Party.accepting Code Error) := rfl
  have inOld : ([Party.thread thread] ++ rest).filterMap Party.accepting =
      rest.filterMap (@Party.accepting Code Error) := rfl
  simp only [takenOf, Set.mem_ofPred_eq, inNew, inOld, List.mem_cons]
  grind

private theorem takenOf_ended {id : CoroId} {socket sockets : Nat} {handler : Code}
    (error : Option Error)
    (owned : SocketsOwned parties sockets)
    (before : Perm parties ([.pending (.accept id socket handler)] ++ rest)) :
    socket ∉ takenOf ([.pending (.accept id socket handler)] ++ rest) sockets ∧
      takenOf ([.task (Pending.task error (.accept id socket handler))] ++ rest) sockets =
        insert socket (takenOf ([.pending (.accept id socket handler)] ++ rest) sockets) := by
  have inOld : ([Party.pending (.accept id socket handler)] ++ rest).filterMap Party.accepting =
      socket :: rest.filterMap (@Party.accepting Code Error) := rfl
  have inNew : ([Party.task (Pending.task error (.accept id socket handler))] ++ rest).filterMap
      Party.accepting = rest.filterMap (@Party.accepting Code Error) := rfl
  have inside : socket < sockets := by
    have suits := (owned.perm before).suits (.pending (.accept id socket handler)) List.mem_cons_self
    have some_ : (socketCells sockets socket).isSome := suits rfl
    by_contra beyond
    rw [socketCells_eq_none.mpr (Nat.le_of_not_lt beyond)] at some_
    cases some_
  have alone : socket ∉ rest.filterMap (@Party.accepting Code Error) :=
    (List.nodup_cons.mp (owned.perm before).exclusive).1
  constructor
  · intro taken
    exact taken.2 (inOld ▸ List.mem_cons_self)
  · apply Set.ext
    intro other
    simp only [takenOf, Set.mem_ofPred_eq, Set.mem_insert_iff, inNew, inOld, List.mem_cons]
    grind

private theorem follows_none {before after : World Code} (same : after = before) :
    World.Follows behaviour before none after :=
  same

private theorem follows_runs {code : Code} {others after : List (Process Code)}
    {taken : Set SocketId} {raised raised' : Nat} {label : Label Code Error}
    (steps : World.Steps behaviour ⟨.runs code ::ₘ (others : Multiset (Process Code)), taken, raised⟩
      label ⟨(after : List (Process Code)), taken, raised'⟩) :
    World.Follows behaviour
      ⟨(([.runs code] ++ others : List (Process Code)) : Multiset _), taken, raised⟩ (some label)
      ⟨(after : List (Process Code)), taken, raised'⟩ :=
  steps

private theorem follows_blocked {operation : Operation Code} {code : Code}
    {others after : List (Process Code)} {taken taken' : Set SocketId} {raised : Nat}
    {label : Label Code Error}
    (steps : World.Steps behaviour
      ⟨.blocked operation code ::ₘ (others : Multiset (Process Code)), taken, raised⟩ label
      ⟨(after : List (Process Code)), taken', raised⟩) :
    World.Follows behaviour
      ⟨(([.blocked operation code] ++ others : List (Process Code)) : Multiset _), taken, raised⟩
      (some label) ⟨(after : List (Process Code)), taken', raised⟩ :=
  steps

/-- The processes that the parties stand for make the step that is seen of a trade. -/
theorem Trades.simulated (trades : Trades behaviour label old store new store')
    (owned : Imperative.Owned (ownership Code Error) parties store.cells)
    (sockets : SocketsOwned parties store.sockets) (before : Perm parties (old ++ rest)) :
    World.Follows behaviour (worldOf behaviour (old ++ rest) store) label
      (worldOf behaviour (new ++ rest) store') := by
  have suited : ∀ party ∈ old, Suits party (party.coro.bind store.cells) :=
    fun party member => owned.suits party (before.mem_iff.mpr (List.mem_append_left rest member))
  have kept := trades
  cases trades with
  | @create thread handler store id place fresh =>
      apply simulated_plain kept owned before rfl rfl
      intro others taken raised
      apply follows_none
      rw [processes_inside rfl (store.put_self ..), processes_cons, processes_idle _ (by rw [place]; rfl),
        processes_create]
      simp [Coro.process, Party.raised, place]
  | @resume thread task posted error store id coro place found completes =>
      obtain ⟨coro', found', call, suspended⟩ : Waiting (store.cells id) := by
        have waits := suited (.task task) (List.mem_cons_of_mem _ List.mem_cons_self)
        rcases completes with ⟨rfl, -⟩ | ⟨handler, rfl, -⟩ <;> exact waits
      rw [found] at found'
      cases found'
      apply simulated_plain kept owned before rfl
      · rw [List.filterMap_cons_none rfl, List.filterMap_map]
        exact List.filterMap_eq_nil_iff.mpr fun _ _ => rfl
      intro others taken raised
      apply follows_none
      rw [processes_cons, processes_inside rfl (store.put_self ..), processes_cons _ (.thread thread),
        processes_idle _ (by rw [place]; rfl), processes_completed completes found]
      have notRaised : ∀ tasks : List (Task Code Error), (tasks.map Party.task).countP
          (@Party.raised Code Error) = 0 := by
        intro tasks
        rw [List.countP_map, List.countP_eq_zero]
        exact fun _ _ => Bool.false_ne_true
      have created : processesOf behaviour (store.put id (some { coro with
          running := true, savedContext := some ⟨thread.coro, false⟩ })).cells (posted.map .task) =
          processesOf behaviour store.cells (posted.map .task) := by
        rcases completes with ⟨-, rfl⟩ | ⟨handler, -, rfl⟩
        · rfl
        · cases error
          · simp
          · rfl
      rw [created, List.countP_cons, notRaised, List.countP_cons, List.countP_singleton]
      simp [Coro.process, suspended.called, Party.raised, place]
  | @deferReturns thread store id coro call place found called =>
      apply simulated_plain kept owned before rfl rfl
      intro others taken raised
      apply follows_none
      rw [processes_inside place found, processes_inside place (store.put_self ..)]
      simp [Coro.process, called]
  | @finish thread store id coro place found idle acts =>
      have suits := suited (.thread thread) List.mem_cons_self
      simp only [Suits, SuitsThread, Party.coro, place, Place.coro, Option.bind_some, found] at suits
      apply simulated_plain kept owned before rfl rfl
      intro others taken raised
      have emptied : ∀ cells, processesOf behaviour cells
          [.thread { thread with coro := none, place := .completing id }] = [] :=
        fun cells => processes_finished cells rfl suits.2.1
      rw [processes_inside place found, emptied]
      simp only [Coro.process, idle, List.countP_singleton, Party.raised, place]
      exact follows_runs (.finish acts)
  | @raise thread store id coro constructing place found idle acts =>
      apply simulated_plain kept owned before rfl rfl
      intro others taken raised
      rw [processes_inside place found, processes_idle _ rfl]
      simp only [Coro.process, idle, List.countP_singleton, Party.raised, place, if_true]
      rw [if_neg Bool.false_ne_true, Nat.zero_add, Nat.add_comm]
      exact follows_runs (.raise acts)
  | @go thread store id coro handler next place found idle acts =>
      apply simulated_plain kept owned before rfl rfl
      intro others taken raised
      rw [processes_inside place found, processes_cons, processes_inside place (store.put_self ..),
        processes_create]
      simp only [Coro.process, idle, List.countP_cons, List.countP_nil, Party.raised, place]
      exact follows_runs (.go acts)
  | @defer thread store id coro operation place found idle acts =>
      apply simulated_plain kept owned before rfl rfl
      intro others taken raised
      rw [processes_inside place found, processes_deferring (.inr ⟨rfl, rfl⟩) (store.put_self ..)]
      simp only [Coro.process, Coro.blocked, idle, List.countP_singleton, Party.raised, place]
      exact follows_runs (.defer acts)
  | @completeDeferred thread store id pointer place pointed =>
      have suits := suited (.thread thread) List.mem_cons_self
      simp only [Suits, SuitsThread, Party.coro, place, Place.coro, Option.bind_some, pointed] at suits
      obtain ⟨-, ⟨noHandler, -⟩ | ⟨call, -, coro, found, -⟩⟩ := suits
      · cases noHandler
      · apply simulated_plain kept owned before rfl rfl
        intro others taken raised
        apply follows_none
        rw [processes_deferring (.inl rfl) found,
          processes_deferring (.inr ⟨place, by rw [pointed]; rfl⟩) found]
        simp [Party.raised, place]
  | @completeFinished thread store id place pointed =>
      apply simulated_plain kept owned before rfl rfl
      intro others taken raised
      apply follows_none
      rw [processes_finished _ place pointed, processes_idle _ rfl]
      simp [Party.raised, place]
  | @transfer thread store id coro call socket request place found called handler =>
      apply simulated_plain kept owned before rfl rfl
      intro others taken raised
      apply follows_none
      rw [processes_deferring (.inl place) found, processes_cons, processes_idle _ rfl,
        processes_pending found]
      simp [Party.raised, place]
  | @accept thread store id coro call handler place found called accepts =>
      refine simulated_trade kept owned before fun others raised => follows_none ?_
      rw [takenOf_begin thread, processes_deferring (.inl place) found, processes_cons, processes_idle _ rfl,
        processes_pending found]
      simp [Party.raised, place]
  | @deferHandlerReturns thread store place =>
      apply simulated_plain kept owned before rfl rfl
      intro others taken raised
      apply follows_none
      rw [processes_idle _ rfl, processes_idle _ (by rw [place]; rfl)]
      simp [Party.raised, place]
  | @ended pending error store coro found =>
      obtain ⟨coro', found', call, suspended, starts⟩ :=
        suited (.pending pending) List.mem_cons_self
      have same : some coro = some coro' := found.symm.trans found'
      cases same
      cases pending with
      | transfer id socket request =>
          have completed : processesOf behaviour store.cells [.task (.onComplete id error)] =
              [.runs (behaviour.resume coro.code error)] :=
            processes_completed (.inl ⟨rfl, rfl⟩) found
          refine simulated_plain kept owned before rfl rfl fun others taken raised => ?_
          rw [processes_pending found]
          simp only [Pending.task, completed, Coro.blocked, suspended.called]
          cases handler : call.handler with
          | transfer socket' request' =>
              rw [handler] at starts
              cases starts
              exact follows_blocked .transferred
          | goAccept accepts =>
              rw [handler] at starts
              obtain ⟨fresh, same⟩ := starts
              cases same
      | accept id socket handler =>
          obtain ⟨fresh, taken⟩ := takenOf_ended error sockets before
          refine simulated_trade kept owned before fun others raised => ?_
          rw [processes_pending found, taken]
          simp only [Coro.blocked, suspended.called]
          cases handler : call.handler with
          | transfer =>
              rw [handler] at starts
              cases starts
          | goAccept accepts =>
              rw [handler] at starts
              obtain ⟨socket', same⟩ := starts
              cases same
              cases error with
              | none =>
                  have completed : processesOf behaviour store.cells
                      [.task (.onCompleteGo id (accepts socket) none)] =
                      [.runs (behaviour.resume coro.code none), .runs (accepts socket)] :=
                    processes_completed (.inr ⟨_, rfl, rfl⟩) found
                  simp only [Pending.task, completed]
                  exact follows_blocked (.accepted fresh)
              | some error =>
                  have completed : processesOf behaviour store.cells
                      [.task (.onCompleteGo id (accepts socket) (some error))] =
                      [.runs (behaviour.resume coro.code (some error))] :=
                    processes_completed (.inr ⟨_, rfl, rfl⟩) found
                  simp only [Pending.task, completed]
                  exact follows_blocked (.notAccepted fresh)

end PersistentBTree.Coroutines
