import Mathlib.Data.Multiset.Filter
import PersistentBTree.Coroutines.Guarantees
import PersistentBTree.Coroutines.Server

/-! The server in all its runs. No two operations are under way on one socket, and a failed
accept is the last one and costs at most one thread. -/

set_option autoImplicit false

namespace PersistentBTree.Coroutines

open Imperative
open List (Perm)

variable {Error : Type}

/-! ## The processes -/

def ServerCode.socket : ServerCode → Option SocketId
  | .accepting | .thrown => none
  | .reading socket | .writing socket | .caught socket => some socket

/-- The code belongs to the coroutine that accepts connections. -/
def ServerCode.accepts : ServerCode → Bool
  | .accepting | .thrown => true
  | .reading _ | .writing _ | .caught _ => false

def Process.code {Code : Type} : Process Code → Code
  | .runs code | .blocked _ code => code

def Process.socket (process : Process ServerCode) : Option SocketId := process.code.socket

def Process.accepts (process : Process ServerCode) : Bool := process.code.accepts

/-- What the processes of the server keep. -/
structure World.Serves (Error : Type) (world : World ServerCode) : Prop where
  /-- No two processes serve the same socket. -/
  apart : (world.processes.filterMap Process.socket).Nodup
  taken : ∀ process ∈ world.processes, ∀ socket, process.socket = some socket →
    socket ∈ world.taken
  /-- A process waits for what its code has asked for. -/
  asked : ∀ operation code, Process.blocked operation code ∈ world.processes →
    (server : Behaviour ServerCode Error).act code = .defer operation
  /-- One process accepts connections, or an exception has left it. -/
  accepts : world.processes.countP (fun process => process.accepts) + world.raised = 1

section Step

variable {rest : Multiset (Process ServerCode)} {process process' : Process ServerCode}
  {taken taken' : Set SocketId} {raised : Nat}

private theorem Serves.forget (serves : World.Serves Error ⟨process ::ₘ rest, taken, raised⟩) :
    (rest.filterMap Process.socket).Nodup ∧
      ∀ socket, process.socket = some socket →
        socket ∉ rest.filterMap Process.socket := by
  have apart := serves.apart
  cases socket : process.socket with
  | none =>
      rw [Multiset.filterMap_cons_none _ _ socket] at apart
      exact ⟨apart, fun _ absent => by cases absent⟩
  | some used =>
      rw [Multiset.filterMap_cons_some _ _ _ socket, Multiset.nodup_cons] at apart
      refine ⟨apart.2, fun other same => ?_⟩
      cases same
      exact apart.1

/-- A process goes on with the same socket. -/
private theorem Serves.replace (serves : World.Serves Error ⟨process ::ₘ rest, taken, raised⟩)
    (socket : process'.socket = process.socket)
    (accepts : process'.accepts = process.accepts)
    (grows : taken ⊆ taken')
    (asked : ∀ operation code, process' = .blocked operation code →
      (server : Behaviour ServerCode Error).act code = .defer operation) :
    World.Serves Error ⟨process' ::ₘ rest, taken', raised⟩ := by
  obtain ⟨apart, inside, askedBefore, one⟩ := serves
  refine ⟨?_, ?_, ?_, ?_⟩
  · simpa only [Multiset.filterMap_cons, socket] using apart
  · intro other member used same
    apply grows
    cases Multiset.mem_cons.mp member with
    | inl here => exact inside process (Multiset.mem_cons_self ..) used (by rw [← socket, ← here, same])
    | inr there => exact inside other (Multiset.mem_cons_of_mem there) used same
  · intro operation code member
    cases Multiset.mem_cons.mp member with
    | inl here => exact asked operation code here.symm
    | inr there => exact askedBefore operation code (Multiset.mem_cons_of_mem there)
  · simpa only [Multiset.countP_cons, accepts] using one

private theorem Serves.remove (serves : World.Serves Error ⟨process ::ₘ rest, taken, raised⟩)
    {raised' : Nat} (accepts : (if process.accepts = true then 1 else 0) + raised = raised') :
    World.Serves Error ⟨rest, taken, raised'⟩ := by
  refine ⟨(Serves.forget serves).1, ?_, ?_, ?_⟩
  · exact fun other member => serves.taken other (Multiset.mem_cons_of_mem member)
  · exact fun operation code member => serves.asked operation code (Multiset.mem_cons_of_mem member)
  · have one := serves.accepts
    simp only [Multiset.countP_cons, Nat.add_assoc] at one
    exact accepts ▸ one

/-- A connection gets a process of its own. -/
private theorem Serves.add {socket : SocketId} (serves : World.Serves Error ⟨rest, taken, raised⟩)
    (fresh : socket ∉ taken) :
    World.Serves Error ⟨.runs (.reading socket) ::ₘ rest, insert socket taken, raised⟩ := by
  obtain ⟨apart, inside, asked, one⟩ := serves
  refine ⟨?_, ?_, ?_, ?_⟩
  · rw [Multiset.filterMap_cons_some Process.socket (.runs (.reading socket)) rest rfl,
      Multiset.nodup_cons]
    refine ⟨fun used => ?_, apart⟩
    obtain ⟨other, member, same⟩ := (Multiset.mem_filterMap ..).mp used
    exact fresh (inside other member socket same)
  · intro other member used same
    cases Multiset.mem_cons.mp member with
    | inl here =>
        subst here
        cases same
        exact Set.mem_insert ..
    | inr there => exact Set.mem_insert_of_mem _ (inside other there used same)
  · intro operation code member
    cases Multiset.mem_cons.mp member with
    | inl here => cases here
    | inr there => exact asked operation code there
  · have noAcceptor : ¬ (Process.runs (.reading socket)).accepts = true := Bool.false_ne_true
    rw [Multiset.countP_cons, if_neg noAcceptor, Nat.add_zero]
    exact one

end Step

theorem server_resume (code : ServerCode) (error : Option Error) :
    (server.resume code error).socket = code.socket ∧
      (server.resume code error).accepts = code.accepts := by
  cases code <;> cases error <;> exact ⟨rfl, rfl⟩

theorem World.Serves.step {world world' : World ServerCode} {label : Label ServerCode Error}
    (serves : world.Serves Error)
    (steps : World.Steps (server : Behaviour ServerCode Error) world label world') :
    world'.Serves Error := by
  cases steps with
  | @finish code rest taken raised acts =>
      apply Serves.remove serves
      cases code <;> simp_all [server, Process.accepts, Process.code, ServerCode.accepts]
  | @raise code rest taken raised acts =>
      apply Serves.remove serves
      cases code <;> simp_all [server, Process.accepts, Process.code, ServerCode.accepts, Nat.add_comm]
  | @go code handler next rest taken raised acts => cases code <;> cases acts
  | @defer code operation rest taken raised acts =>
      have asked : ∀ operation' code', Process.blocked operation code = .blocked operation' code' →
          (server : Behaviour ServerCode Error).act code' = .defer operation' := by
        intro operation' code' same
        cases same
        exact acts
      exact Serves.replace serves rfl rfl subset_rfl asked
  | @transferred socket request code error rest taken raised =>
      obtain ⟨socket, accepts⟩ := server_resume code error
      exact Serves.replace serves socket accepts subset_rfl fun _ _ same => by cases same
  | @accepted handler socket code rest taken raised fresh =>
      have acts := serves.asked _ _ (Multiset.mem_cons_self ..)
      cases code with
      | accepting =>
          cases acts
          rw [Multiset.cons_swap]
          apply Serves.add _ fresh
          exact Serves.replace serves rfl rfl subset_rfl fun _ _ same => by cases same
      | thrown | reading | writing | caught => cases acts
  | @notAccepted handler socket code error rest taken raised fresh =>
      obtain ⟨same, accepts⟩ := server_resume code (some error)
      exact Serves.replace serves same accepts (Set.subset_insert ..) fun _ _ same => by cases same

theorem start_serves : (World.start [ServerCode.accepting]).Serves Error := by
  have processes : (World.start [ServerCode.accepting]).processes = {.runs .accepting} := rfl
  refine ⟨?_, ?_, ?_, ?_⟩
  · rw [processes]
    exact Multiset.nodup_zero
  · intro process member socket same
    rw [processes, Multiset.mem_singleton] at member
    subst member
    cases same
  · intro operation code member
    rw [processes, Multiset.mem_singleton] at member
    cases member
  · rfl

theorem World.Runs.serves {world : World ServerCode} {labels : List (Label ServerCode Error)}
    (runs : World.Runs server (.start [.accepting]) labels world) : world.Serves Error := by
  induction runs with
  | nil => exact start_serves
  | snoc _ steps serves => exact serves.step steps

/-! ## After a failed accept -/

/-- No process is about to accept a connection or waits for one. -/
def World.Closed (world : World ServerCode) : Prop :=
  ∀ process ∈ world.processes, process.code ≠ .accepting

theorem code_of_goAccept {code : ServerCode} {handler : SocketId → ServerCode}
    (acts : (server : Behaviour ServerCode Error).act code = .defer (.goAccept handler)) :
    code = .accepting := by
  cases code with
  | accepting => rfl
  | thrown | reading | writing | caught => cases acts

theorem resume_ne_accepting {code : ServerCode} (other : code ≠ .accepting)
    (error : Option Error) : server.resume code error ≠ .accepting := by
  cases code with
  | accepting => exact absurd rfl other
  | thrown | reading | writing | caught => cases error <;> exact ServerCode.noConfusion

/-- An accept that fails was the last one. -/
theorem World.Serves.closed {world world' : World ServerCode} {code : ServerCode}
    {socket : SocketId} {error : Error} (serves : world.Serves Error)
    (steps : World.Steps server world (.accepted code socket (some error)) world') :
    world'.Closed := by
  cases steps with
  | @notAccepted handler _ _ _ rest taken raised fresh =>
      have accepting := code_of_goAccept (serves.asked _ _ (Multiset.mem_cons_self ..))
      subst accepting
      have accepts : (Process.blocked (.goAccept handler) .accepting).accepts = true := rfl
      have one := serves.accepts
      simp only [Multiset.countP_cons, if_pos accepts] at one
      have none_ : rest.countP (fun process => process.accepts) = 0 := by omega
      intro process member
      cases Multiset.mem_cons.mp member with
      | inl here =>
          subst here
          exact ServerCode.noConfusion
      | inr there =>
          intro accepting
          apply Multiset.countP_eq_zero.mp none_ process there
          rw [Process.accepts, accepting]
          rfl

theorem World.Closed.step {world world' : World ServerCode} {label : Label ServerCode Error}
    (closed : world.Closed) (serves : world.Serves Error)
    (steps : World.Steps server world label world') : world'.Closed := by
  cases steps with
  | finish acts | raise acts =>
      exact fun process member => closed process (Multiset.mem_cons_of_mem member)
  | @go code handler next rest taken raised acts => cases code <;> cases acts
  | @defer code operation rest taken raised acts =>
      intro process member
      cases Multiset.mem_cons.mp member with
      | inl here => exact here ▸ closed (.runs code) (Multiset.mem_cons_self ..)
      | inr there => exact closed process (Multiset.mem_cons_of_mem there)
  | @transferred socket request code error rest taken raised =>
      intro process member
      cases Multiset.mem_cons.mp member with
      | inl here =>
          exact here ▸ resume_ne_accepting (closed _ (Multiset.mem_cons_self ..)) error
      | inr there => exact closed process (Multiset.mem_cons_of_mem there)
  | accepted fresh | notAccepted fresh =>
      exact absurd (code_of_goAccept (serves.asked _ _ (Multiset.mem_cons_self ..)))
        (closed _ (Multiset.mem_cons_self ..))

/-! ## The operations under way -/

def Pending.socket : Pending ServerCode → SocketId
  | .transfer _ socket _ | .accept _ socket _ => socket

def Pending.accepts : Pending ServerCode → Bool
  | .transfer _ _ _ => false
  | .accept _ _ _ => true

/-- The socket of an operation of a connection. -/
def Pending.transfers : Pending ServerCode → Option SocketId
  | .transfer _ socket _ => some socket
  | .accept _ _ _ => none

section Machine

variable {machine : Machine ServerCode Error}

/-- An operation under way stands for a process that has asked for it. -/
theorem processes_pending_server (owned : machine.Owned)
    (serves : (machine.world server).Serves Error) {pending : Pending ServerCode}
    (member : pending ∈ machine.shared.pending) :
    ∃ operation code, Party.processes server (.pending pending : Party ServerCode Error)
        (machine.shared.cell pending.coro) = [.blocked operation code] ∧
      .blocked operation code ∈ (machine.world server).processes ∧
      code.socket = pending.transfers ∧ code.accepts = pending.accepts := by
  have inside : Party.pending pending ∈ machine.parties :=
    List.mem_append_right _ (List.mem_append_left _ (List.mem_map_of_mem member))
  obtain ⟨coro, found, call, suspended, starts⟩ := owned.suits (.pending pending) inside
  have found' : machine.shared.cell pending.coro = some coro := found
  have blocked : Party.processes server (.pending pending : Party ServerCode Error)
      (machine.shared.cell pending.coro) = [.blocked call.handler coro.code] := by
    rw [found']
    change coro.blocked = _
    rw [Coro.blocked, suspended.called]
  have somewhere : Process.blocked call.handler coro.code ∈ (machine.world server).processes := by
    apply List.mem_flatMap.mpr
    refine ⟨.pending pending, inside, ?_⟩
    exact blocked.symm ▸ List.mem_singleton_self _
  have asked := serves.asked _ _ somewhere
  refine ⟨_, _, blocked, somewhere, ?_⟩
  cases handler : call.handler with
  | transfer socket request =>
      rw [handler] at starts asked
      have same : pending = .transfer pending.coro socket request := starts
      rw [same]
      cases code : coro.code with
      | accepting | thrown | caught =>
          rw [code] at asked
          cases asked
      | reading | writing =>
          rw [code] at asked
          cases asked
          exact ⟨rfl, rfl⟩
  | goAccept accepts =>
      rw [handler] at starts asked
      obtain ⟨socket, same⟩ := starts
      rw [same]
      cases code : coro.code with
      | thrown | caught | reading | writing =>
          rw [code] at asked
          cases asked
      | accepting => exact ⟨rfl, rfl⟩

/-- The processes of the operations under way. -/
private def pendingProcesses (machine : Machine ServerCode Error) : List (Process ServerCode) :=
  machine.shared.pending.flatMap fun pending =>
    Party.processes server (.pending pending : Party ServerCode Error)
      (machine.shared.cell pending.coro)

private theorem pendingProcesses_sublist (machine : Machine ServerCode Error) :
    (pendingProcesses machine).Sublist (processesOf server machine.shared.cell machine.parties) := by
  have split : processesOf server machine.shared.cell machine.parties =
      processesOf server machine.shared.cell (machine.threads.map .thread) ++
        (pendingProcesses machine ++
          processesOf server machine.shared.cell (machine.shared.ready.map .task)) := by
    simp only [processesOf, Machine.parties, Shared.parties, pendingProcesses, List.flatMap_append,
      List.flatMap_map]
    rfl
  rw [split]
  exact (List.sublist_append_left ..).trans (List.sublist_append_right ..)

private theorem flatMap_filterMap {α β γ : Type} {items : List α} {spread : α → List β}
    {pick : β → Option γ} {chosen : α → Option γ}
    (each : ∀ item ∈ items, ∃ value, spread item = [value] ∧ pick value = chosen item) :
    (items.flatMap spread).filterMap pick = items.filterMap chosen := by
  induction items with
  | nil => rfl
  | cons item items ih =>
      obtain ⟨value, single, picked⟩ := each item List.mem_cons_self
      rw [List.flatMap_cons, single, List.singleton_append, List.filterMap_cons, List.filterMap_cons,
        picked, ih fun other member => each other (List.mem_cons_of_mem _ member)]

private theorem flatMap_countP {α β : Type} {items : List α} {spread : α → List β}
    {counts : β → Bool} {counted : α → Bool}
    (each : ∀ item ∈ items, ∃ value, spread item = [value] ∧ counts value = counted item) :
    (items.flatMap spread).countP counts = items.countP counted := by
  induction items with
  | nil => rfl
  | cons item items ih =>
      obtain ⟨value, single, same⟩ := each item List.mem_cons_self
      rw [List.flatMap_cons, single, List.singleton_append, List.countP_cons, List.countP_cons,
        same, ih fun other member => each other (List.mem_cons_of_mem _ member)]

private theorem nodup_of_kinds {α β : Type} {items : List α} {value : α → β}
    (first second : α → Option β)
    (each : ∀ item, (first item = some (value item) ∧ second item = none) ∨
      (first item = none ∧ second item = some (value item)))
    (firsts : (items.filterMap first).Nodup) (seconds : (items.filterMap second).Nodup)
    (apart : ∀ one ∈ items.filterMap first, one ∉ items.filterMap second) :
    (items.map value).Nodup := by
  have somewhere : ∀ rest : List α, ∀ one ∈ rest.map value,
      one ∈ rest.filterMap first ∨ one ∈ rest.filterMap second := by
    intro rest one member
    obtain ⟨item, inside, rfl⟩ := List.mem_map.mp member
    cases each item with
    | inl kind => exact .inl (List.mem_filterMap.mpr ⟨item, inside, kind.1⟩)
    | inr kind => exact .inr (List.mem_filterMap.mpr ⟨item, inside, kind.2⟩)
  induction items with
  | nil => exact List.nodup_nil
  | cons item items ih =>
      rw [List.map_cons, List.nodup_cons]
      cases each item with
      | inl kind =>
          rw [List.filterMap_cons_some kind.1, List.nodup_cons] at firsts
          rw [List.filterMap_cons_none kind.2] at seconds
          rw [List.filterMap_cons_some kind.1, List.filterMap_cons_none kind.2] at apart
          refine ⟨fun again => ?_, ih firsts.2 seconds
            fun one member => apart one (List.mem_cons_of_mem _ member)⟩
          cases somewhere items _ again with
          | inl inFirst => exact firsts.1 inFirst
          | inr inSecond => exact apart _ List.mem_cons_self inSecond
      | inr kind =>
          rw [List.filterMap_cons_none kind.1] at firsts
          rw [List.filterMap_cons_some kind.2, List.nodup_cons] at seconds
          rw [List.filterMap_cons_none kind.1, List.filterMap_cons_some kind.2] at apart
          refine ⟨fun again => ?_, ih firsts seconds.2
            fun one member inside => apart one member (List.mem_cons_of_mem _ inside)⟩
          cases somewhere items _ again with
          | inl inFirst => exact apart _ inFirst List.mem_cons_self
          | inr inSecond => exact seconds.1 inSecond

theorem pending_sockets_nodup (owned : machine.Owned)
    (sockets : SocketsOwned machine.parties machine.shared.sockets)
    (serves : (machine.world server).Serves Error) :
    (machine.shared.pending.map Pending.socket).Nodup := by
  have single : ∀ pending ∈ machine.shared.pending, ∃ process,
      Party.processes server (.pending pending : Party ServerCode Error)
        (machine.shared.cell pending.coro) = [process] ∧ process.socket = pending.transfers := by
    intro pending member
    obtain ⟨operation, code, same, -, socket, -⟩ := processes_pending_server owned serves member
    exact ⟨_, same, socket⟩
  have transfers : (pendingProcesses machine).filterMap Process.socket =
      machine.shared.pending.filterMap Pending.transfers := flatMap_filterMap single
  have accepting : (machine.shared.pending.map Party.pending).filterMap
      (@Party.accepting ServerCode Error) = machine.shared.pending.filterMap fun pending =>
        Party.accepting (.pending pending : Party ServerCode Error) := List.filterMap_map
  have part : ((machine.shared.pending.map Party.pending).filterMap
      (@Party.accepting ServerCode Error)).Sublist (machine.parties.filterMap Party.accepting) :=
    ((List.sublist_append_left ..).trans (List.sublist_append_right ..)).filterMap _
  have processes := pendingProcesses_sublist machine
  apply nodup_of_kinds Pending.transfers fun pending =>
    Party.accepting (.pending pending : Party ServerCode Error)
  · intro pending
    cases pending with
    | transfer => exact .inl ⟨rfl, rfl⟩
    | accept => exact .inr ⟨rfl, rfl⟩
  · rw [← transfers]
    have apart := serves.apart
    exact List.Nodup.sublist (processes.filterMap _) apart
  · rw [← accepting]
    exact sockets.exclusive.sublist part
  · intro socket used accepted
    rw [← transfers] at used
    rw [← accepting] at accepted
    obtain ⟨process, member, same⟩ := List.mem_filterMap.mp used
    have taken := serves.taken process (processes.subset member) socket same
    exact taken.2 (part.subset accepted)

theorem accepts_add_ended (owned : machine.Owned) (serves : (machine.world server).Serves Error) :
    machine.shared.pending.countP Pending.accepts +
      (machine.threads.map (@Party.thread ServerCode Error)).countP Party.raised ≤ 1 := by
  have single : ∀ pending ∈ machine.shared.pending, ∃ process,
      Party.processes server (.pending pending : Party ServerCode Error)
        (machine.shared.cell pending.coro) = [process] ∧ process.accepts = pending.accepts := by
    intro pending member
    obtain ⟨operation, code, same, -, -, accepts⟩ := processes_pending_server owned serves member
    exact ⟨_, same, accepts⟩
  have pending : machine.shared.pending.countP Pending.accepts ≤
      (machine.world server).processes.countP fun process => process.accepts := by
    have counted : (pendingProcesses machine).countP (fun process => process.accepts) =
        machine.shared.pending.countP Pending.accepts := flatMap_countP single
    have listed : (machine.world server).processes.countP (fun process => process.accepts) =
        (processesOf server machine.shared.cell machine.parties).countP
          fun process => process.accepts := by
      change Multiset.countP _ (processesOf server machine.shared.cell machine.parties :
        Multiset (Process ServerCode)) = _
      rw [Multiset.coe_countP]
      simp only [Bool.decide_eq_true]
    rw [← counted, listed]
    exact (pendingProcesses_sublist machine).countP_le
  have threads : (machine.threads.map (@Party.thread ServerCode Error)).countP Party.raised ≤
      (machine.world server).raised :=
    (List.sublist_append_left ..).countP_le
  have one := serves.accepts
  omega

/-- No accept is under way when no process waits for one. -/
theorem accepts_of_closed (owned : machine.Owned) (serves : (machine.world server).Serves Error)
    (closed : (machine.world server).Closed) :
    machine.shared.pending.countP Pending.accepts = 0 := by
  apply List.countP_eq_zero.mpr
  intro pending member accepts
  obtain ⟨operation, code, -, somewhere, -, same⟩ := processes_pending_server owned serves member
  cases code with
  | accepting => exact closed _ somewhere rfl
  | thrown => cases serves.asked _ _ somewhere
  | reading | writing | caught =>
      rw [accepts] at same
      cases same

/-- An accept that starts is under way, and a socket is created for nothing else. -/
theorem Trades.sockets {behaviour : Behaviour ServerCode Error}
    {label : Option (Label ServerCode Error)} {old new : List (Party ServerCode Error)}
    {store store' : Store ServerCode} (trades : Trades behaviour label old store new store') :
    store'.sockets = store.sockets ∨
      ∃ pending, .pending pending ∈ new ∧ Pending.accepts pending = true := by
  cases trades with
  | accept => exact .inr ⟨_, List.mem_cons_of_mem _ (List.mem_singleton_self _), rfl⟩
  | create | resume | deferReturns | finish | raise | go | defer | completeDeferred
  | completeFinished | transfer | deferHandlerReturns | ended => exact .inl rfl

private theorem Trades.sockets_eq {label : Option (Label ServerCode Error)}
    {before after : Machine ServerCode Error} (trades : before.Trades server label after)
    (none_ : after.shared.pending.countP Pending.accepts = 0) :
    after.shared.sockets = before.shared.sockets := by
  obtain ⟨old, new, rest, -, joined, trades⟩ := trades
  cases trades.sockets with
  | inl same => exact same
  | inr begun =>
      obtain ⟨pending, member, accepts⟩ := begun
      have inside : Party.pending pending ∈ after.parties :=
        joined.mem_iff.mpr (List.mem_append_left _ member)
      have waiting : pending ∈ after.shared.pending := by
        simpa [Machine.parties, Shared.parties] using inside
      exact absurd accepts (List.countP_eq_zero.mp none_ pending waiting)

/-- What holds from a failed accept on, when this many sockets have been created. -/
structure Machine.Closed (sockets : Nat) (machine : Machine ServerCode Error) : Prop where
  apart : SocketsOwned machine.parties machine.shared.sockets
  serves : (machine.world server).Serves Error
  closed : (machine.world server).Closed
  created : machine.shared.sockets = sockets

theorem Machine.Closed.step {sockets : Nat} {label : Option (Label ServerCode Error)}
    {before after : Machine ServerCode Error} (owned : before.Owned)
    (trades : before.Trades server label after) (closed : before.Closed sockets) :
    after.Closed sockets := by
  obtain ⟨apart, follows⟩ := trades.follows owned closed.apart
  have kept : (after.world server).Serves Error ∧ (after.world server).Closed := by
    cases label with
    | none =>
        have same : after.world server = before.world server := follows
        rw [same]
        exact ⟨closed.serves, closed.closed⟩
    | some label => exact ⟨closed.serves.step follows, closed.closed.step closed.serves follows⟩
  have none_ := accepts_of_closed (trades.owned owned) kept.1 kept.2
  exact ⟨apart, kept.1, kept.2, (Trades.sockets_eq trades none_).trans closed.created⟩

/-- An accept under way fails. -/
theorem closed_of_failed (owned : machine.Owned)
    (sockets : SocketsOwned machine.parties machine.shared.sockets)
    (serves : (machine.world server).Serves Error) {operation : Nat} {pending : Pending ServerCode}
    (waiting : machine.shared.pending[operation]? = some pending) (accepts : pending.accepts = true)
    (error : Error) :
    ∃ next, machine.step server (.ended operation (some error)) = .ok next ∧ next.Owned ∧
      next.Closed machine.shared.sockets := by
  have inside : Party.pending pending ∈ machine.parties :=
    List.mem_append_right _ (List.mem_append_left _
      (List.mem_map_of_mem (List.mem_of_getElem? waiting)))
  obtain ⟨coro, found, -⟩ := owned.suits (.pending pending) inside
  have label : machine.label (.ended operation (some error)) =
      some (pending.label coro.code (some error)) := by
    have found' : machine.shared.cell pending.coro = some coro := found
    rw [Machine.label, waiting, Option.bind_some, found', Option.map_some]
  obtain ⟨next, stepped, moved⟩ := owned.step server (.ended operation (some error))
  rw [label] at moved
  cases moved with
  | inl unchanged => cases unchanged.2
  | inr trades =>
      obtain ⟨apart, steps⟩ := trades.follows owned sockets
      have serves' : (next.world server).Serves Error := serves.step steps
      have closed : (next.world server).Closed := by
        cases pending with
        | transfer => cases accepts
        | accept id socket handler => exact serves.closed steps
      have none_ := accepts_of_closed (trades.owned owned) serves' closed
      exact ⟨next, stepped, trades.owned owned, apart, serves', closed,
        Trades.sockets_eq trades none_⟩

end Machine

/-! ## The guarantees -/

/-- Some thread has left `run`. -/
def Thread.hasEnded (thread : Thread Error) : Bool :=
  Party.raised (.thread thread : Party ServerCode Error)

section Guarantees

variable (hardwareConcurrency : Nat) (events : List (Event Error))

theorem run_serves : ∃ machine, (bind hardwareConcurrency).run server events = .ok machine ∧
    machine.Owned ∧ SocketsOwned machine.parties machine.shared.sockets ∧
      (machine.world server).Serves Error := by
  obtain ⟨machine, ran, owned, sockets, runs⟩ :=
    run_simulated server [.accepting] 0 hardwareConcurrency events
  exact ⟨machine, ran, owned, sockets, runs.serves⟩

/-- No two operations are ever under way on the same socket, whether they belong to a
connection or accept one. -/
theorem server_sockets_apart : ∃ machine,
    (bind hardwareConcurrency).run server events = .ok machine ∧
      (machine.shared.pending.map Pending.socket).Nodup := by
  obtain ⟨machine, ran, owned, sockets, serves⟩ := run_serves hardwareConcurrency events
  exact ⟨machine, ran, pending_sockets_nodup owned sockets serves⟩

/-- At most one accept is under way, and an exception has left `run` in one thread at most.
From an accept that ends with an error on, none is under way and no socket is created. -/
theorem server_accepts_once : ∃ machine,
    (bind hardwareConcurrency).run server events = .ok machine ∧
      machine.shared.pending.countP Pending.accepts + machine.threads.countP Thread.hasEnded ≤ 1 ∧
      ∀ operation pending error, machine.shared.pending[operation]? = some pending →
        pending.accepts = true → ∀ later, ∃ reached,
          machine.run server (.ended operation (some error) :: later) = .ok reached ∧
            reached.shared.pending.countP Pending.accepts = 0 ∧
            reached.shared.sockets = machine.shared.sockets := by
  obtain ⟨machine, ran, owned, sockets, serves⟩ := run_serves hardwareConcurrency events
  have bound := accepts_add_ended owned serves
  rw [List.countP_map] at bound
  refine ⟨machine, ran, bound, fun operation pending error waiting accepts later => ?_⟩
  obtain ⟨next, stepped, owned', closed⟩ :=
    closed_of_failed owned sockets serves waiting accepts error
  obtain ⟨reached, continued, owned'', closed'⟩ :=
    owned'.run closed (fun _ _ _ owned trades kept => kept.step owned trades) later
  refine ⟨reached, ?_, accepts_of_closed owned'' closed'.serves closed'.closed, closed'.created⟩
  rw [Machine.run_cons, stepped]
  exact continued

end Guarantees

end PersistentBTree.Coroutines
