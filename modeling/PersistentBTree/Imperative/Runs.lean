import Mathlib.Tactic.Common

/-! Total correctness of stateful programs that may fault. A program reads and
writes one state and either returns or stops with a fault; `Runs` says that it
returns, and what holds of the result and of the state it leaves. Running is
deterministic, so every rule below is an equivalence. -/

set_option autoImplicit false

namespace Imperative

/-- A program over the state `σ` that may stop with a fault in `ε`. -/
abbrev Program (σ ε α : Type) := StateT σ (Except ε) α

variable {σ ε α β : Type}

/-- From `state` the program returns, and `post` holds of the result and of
the final state. -/
def Runs (program : Program σ ε α) (state : σ) (post : α → σ → Prop) : Prop :=
  ∃ result final, program.run state = .ok (result, final) ∧ post result final

theorem run_bind_ok {program : Program σ ε α} {next : α → Program σ ε β} {state middle : σ}
    {result : α} (returned : program.run state = .ok (result, middle)) :
    (program >>= next).run state = (next result).run middle := by
  rw [StateT.run_bind, returned]
  rfl

theorem run_get_bind (next : σ → Program σ ε β) (state : σ) :
    ((get : Program σ ε σ) >>= next).run state = (next state).run state := rfl

theorem run_set_bind (new state : σ) (next : PUnit → Program σ ε β) :
    ((set new : Program σ ε PUnit) >>= next).run state = (next ⟨⟩).run new := rfl

theorem run_bind_error {program : Program σ ε α} {next : α → Program σ ε β} {state : σ}
    {fault : ε} (stopped : program.run state = .error fault) :
    (program >>= next).run state = .error fault := by
  rw [StateT.run_bind, stopped]
  rfl

theorem Runs.mono {program : Program σ ε α} {state : σ} {post weaker : α → σ → Prop}
    (runs : Runs program state post)
    (implies : ∀ result final, post result final → weaker result final) :
    Runs program state weaker := by
  obtain ⟨result, final, returned, holds⟩ := runs
  exact ⟨result, final, returned, implies result final holds⟩

/-- What holds after a run holds after the run that is at hand. -/
theorem Runs.holds {program : Program σ ε α} {state final : σ} {result : α} {post : α → σ → Prop}
    (runs : Runs program state post) (returned : program.run state = .ok (result, final)) :
    post result final := by
  obtain ⟨result', final', returned', holds⟩ := runs
  rw [returned] at returned'
  cases returned'
  exact holds

theorem Runs.and {program : Program σ ε α} {state : σ} {post other : α → σ → Prop}
    (first : Runs program state post) (second : Runs program state other) :
    Runs program state fun result final => post result final ∧ other result final := by
  obtain ⟨result, final, returned, holds⟩ := first
  exact ⟨result, final, returned, holds, second.holds returned⟩

/-- What a program establishes, when what it leaves decides it. -/
theorem Runs.iff {program : Program σ ε α} {state : σ} {post weaker : α → σ → Prop}
    {condition : Prop} (runs : Runs program state post)
    (decides : ∀ result final, post result final → (weaker result final ↔ condition)) :
    Runs program state weaker ↔ condition := by
  constructor
  · intro reached
    obtain ⟨result, final, -, holds, weakened⟩ := runs.and reached
    exact (decides result final holds).mp weakened
  · intro holds
    exact runs.mono fun result final reached => (decides result final reached).mpr holds

@[simp] theorem runs_pure (value : α) (state : σ) (post : α → σ → Prop) :
    Runs (pure value : Program σ ε α) state post ↔ post value state := by
  constructor
  · rintro ⟨result, final, returned, holds⟩
    cases returned
    exact holds
  · intro holds
    exact ⟨value, state, rfl, holds⟩

@[simp] theorem runs_bind (program : Program σ ε α) (next : α → Program σ ε β)
    (state : σ) (post : β → σ → Prop) :
    Runs (program >>= next) state post ↔
      Runs program state fun result middle => Runs (next result) middle post := by
  constructor
  · rintro ⟨result, final, returned, holds⟩
    cases first : program.run state with
    | error fault =>
        rw [StateT.run_bind, first] at returned
        cases returned
    | ok outcome =>
        obtain ⟨value, middle⟩ := outcome
        rw [StateT.run_bind, first] at returned
        exact ⟨value, middle, first, result, final, returned, holds⟩
  · rintro ⟨value, middle, first, result, final, rest, holds⟩
    refine ⟨result, final, ?_, holds⟩
    rw [StateT.run_bind, first]
    exact rest

theorem Runs.bind_iff {program : Program σ ε α} {next : α → Program σ ε β} {state middle : σ}
    {value : α} {post : β → σ → Prop}
    (first : Runs program state fun result final => result = value ∧ final = middle) :
    Runs (program >>= next) state post ↔ Runs (next value) middle post := by
  rw [runs_bind]
  apply first.iff
  rintro result final ⟨rfl, rfl⟩
  rfl

@[simp] theorem runs_map (change : α → β) (program : Program σ ε α) (state : σ)
    (post : β → σ → Prop) :
    Runs (change <$> program) state post ↔
      Runs program state fun result final => post (change result) final := by
  rw [map_eq_pure_bind, runs_bind]
  simp only [runs_pure]

@[simp] theorem runs_throw (fault : ε) (state : σ) (post : α → σ → Prop) :
    Runs (throw fault : Program σ ε α) state post ↔ False := by
  constructor
  · rintro ⟨_, _, returned, _⟩
    cases returned
  · exact False.elim

@[simp] theorem runs_get (state : σ) (post : σ → σ → Prop) :
    Runs (get : Program σ ε σ) state post ↔ post state state := by
  constructor
  · rintro ⟨result, final, returned, holds⟩
    cases returned
    exact holds
  · intro holds
    exact ⟨state, state, rfl, holds⟩

@[simp] theorem runs_modify (change : σ → σ) (state : σ) (post : PUnit → σ → Prop) :
    Runs (modify change : Program σ ε PUnit) state post ↔ post ⟨⟩ (change state) := by
  constructor
  · rintro ⟨result, final, returned, holds⟩
    cases returned
    exact holds
  · intro holds
    exact ⟨⟨⟩, change state, rfl, holds⟩

@[simp] theorem runs_set (new state : σ) (post : PUnit → σ → Prop) :
    Runs (set new : Program σ ε PUnit) state post ↔ post ⟨⟩ new := by
  constructor
  · rintro ⟨result, final, returned, holds⟩
    cases returned
    exact holds
  · intro holds
    exact ⟨⟨⟩, new, rfl, holds⟩

theorem runs_ite (condition : Prop) [Decidable condition] (yes no : Program σ ε α)
    (state : σ) (post : α → σ → Prop) :
    Runs (if condition then yes else no) state post ↔
      if condition then Runs yes state post else Runs no state post := by
  split <;> rfl

/-- Return the value, or stop with `fault` when there is none. -/
def orFault (fault : ε) : Option α → Program σ ε α
  | some value => pure value
  | none => throw fault

@[simp] theorem runs_orFault (fault : ε) (value : Option α) (state : σ) (post : α → σ → Prop) :
    Runs (orFault fault value : Program σ ε α) state post ↔
      ∃ result, value = some result ∧ post result state := by
  cases value <;> simp [orFault]

@[simp] theorem runs_liftM (outcome : Except ε α) (state : σ) (post : α → σ → Prop) :
    Runs (liftM outcome : Program σ ε α) state post ↔
      ∃ result, outcome = .ok result ∧ post result state := by
  constructor
  · intro ⟨result, final, returned, holds⟩
    cases outcome with
    | error fault => cases returned
    | ok value =>
        cases returned
        exact ⟨_, rfl, holds⟩
  · intro ⟨result, computed, holds⟩
    exact ⟨result, state, by rw [computed]; rfl, holds⟩

/-- Run a program on a state of its own, which is returned. -/
def runOn {τ : Type} (program : Program τ ε α) (inner : τ) : Program σ ε (α × τ) :=
  fun outer => (program.run inner).map fun outcome => (outcome, outer)

theorem run_runOn {τ : Type} (program : Program τ ε α) (inner : τ) (outer : σ) :
    (runOn program inner).run outer =
      (program.run inner).map fun outcome => (outcome, outer) := rfl

theorem runOn_eq_pure {τ : Type} {program : Program τ ε α} {inner : τ} {outcome : α × τ}
    (returned : program.run inner = .ok outcome) :
    (runOn program inner : Program σ ε (α × τ)) = pure outcome := by
  funext outer
  rw [runOn, returned]
  rfl

@[simp] theorem runs_runOn {τ : Type} (program : Program τ ε α) (inner : τ) (outer : σ)
    (post : α × τ → σ → Prop) :
    Runs (runOn program inner) outer post ↔
      Runs program inner fun result final => post (result, final) outer := by
  constructor
  · rintro ⟨⟨result, final⟩, outer', returned, holds⟩
    cases ran : program.run inner with
    | error fault =>
        rw [run_runOn, ran] at returned
        cases returned
    | ok outcome =>
        rw [run_runOn, ran] at returned
        cases returned
        exact ⟨result, final, ran, holds⟩
  · rintro ⟨result, final, ran, holds⟩
    refine ⟨(result, final), outer, ?_, holds⟩
    rw [run_runOn, ran]
    rfl

/-- A program whose faults are taken as faults of another kind. -/
def withFault {ε' : Type} (convert : ε' → ε) (program : Program σ ε' α) : Program σ ε α :=
  fun state => (program.run state).mapError convert

@[simp] theorem runs_withFault {ε' : Type} (convert : ε' → ε) (program : Program σ ε' α)
    (state : σ) (post : α → σ → Prop) :
    Runs (withFault convert program) state post ↔ Runs program state post := by
  constructor
  · intro ⟨result, final, returned, holds⟩
    cases ran : program.run state with
    | error fault =>
        change (program.run state).mapError convert = _ at returned
        rw [ran] at returned
        cases returned
    | ok outcome =>
        change (program.run state).mapError convert = _ at returned
        rw [ran] at returned
        cases returned
        exact ⟨result, final, ran, holds⟩
  · intro ⟨result, final, returned, holds⟩
    refine ⟨result, final, ?_, holds⟩
    change (program.run state).mapError convert = _
    rw [returned]
    rfl

/-- Run a program with faults of another kind on a state of its own, which is returned. -/
def runWith {τ ε' : Type} (convert : ε' → ε) (program : Program τ ε' α) (inner : τ) :
    Program σ ε (α × τ) :=
  match program.run inner with
  | .ok outcome => pure outcome
  | .error fault => throw (convert fault)

/-! ## Programs that may fault -/

/-- From `state` the program stops with a fault. -/
def Faults (program : Program σ ε α) (state : σ) : Prop :=
  ∃ fault, program.run state = .error fault

theorem faults_throw (fault : ε) (state : σ) : Faults (throw fault : Program σ ε α) state :=
  ⟨fault, rfl⟩

theorem faults_liftM {outcome : Except ε α} {fault : ε} (stopped : outcome = .error fault)
    (state : σ) : Faults (liftM outcome : Program σ ε α) state :=
  ⟨fault, by rw [stopped]; rfl⟩

theorem Faults.bind {program : Program σ ε α} {next : α → Program σ ε β} {state : σ}
    (faults : Faults program state) : Faults (program >>= next) state := by
  obtain ⟨fault, stopped⟩ := faults
  refine ⟨fault, ?_⟩
  rw [StateT.run_bind, stopped]
  rfl

theorem Faults.withFault {ε' : Type} {program : Program σ ε α} {state : σ}
    (faults : Faults program state) (convert : ε → ε') :
    Faults (withFault convert program) state := by
  obtain ⟨fault, stopped⟩ := faults
  refine ⟨convert fault, ?_⟩
  change (program.run state).mapError convert = _
  rw [stopped]
  rfl

theorem Runs.faults_bind {program : Program σ ε α} {next : α → Program σ ε β} {state : σ}
    (runs : Runs program state fun result middle => Faults (next result) middle) :
    Faults (program >>= next) state := by
  obtain ⟨result, middle, returned, fault, stopped⟩ := runs
  refine ⟨fault, ?_⟩
  rw [StateT.run_bind, returned]
  exact stopped

/-- What stops the first part or whatever comes after it stops the program. -/
theorem faults_bind {program : Program σ ε α} {next : α → Program σ ε β} {state : σ}
    (faults : ∀ result middle, program.run state = .ok (result, middle) →
      Faults (next result) middle) : Faults (program >>= next) state := by
  cases returned : program.run state with
  | error fault => exact Faults.bind ⟨fault, returned⟩
  | ok outcome =>
      obtain ⟨result, middle⟩ := outcome
      exact Runs.faults_bind ⟨result, middle, returned, faults result middle returned⟩

theorem Runs.not_faults {program : Program σ ε α} {state : σ} {post : α → σ → Prop}
    (runs : Runs program state post) : ¬ Faults program state := by
  rintro ⟨fault, stopped⟩
  obtain ⟨result, final, returned, -⟩ := runs
  rw [returned] at stopped
  cases stopped

/-- What holds of the result and of the final state if the program returns from `state`. -/
def Ensures (program : Program σ ε α) (state : σ) (post : α → σ → Prop) : Prop :=
  ∀ result final, program.run state = .ok (result, final) → post result final

theorem Runs.and_ensures {program : Program σ ε α} {state : σ} {post other : α → σ → Prop}
    (runs : Runs program state post) (ensures : Ensures program state other) :
    Runs program state fun result final => post result final ∧ other result final := by
  obtain ⟨result, final, returned, holds⟩ := runs
  exact ⟨result, final, returned, holds, ensures result final returned⟩

namespace Ensures

variable {program : Program σ ε α} {state : σ} {post weaker : α → σ → Prop}

theorem of_runs (runs : Runs program state post) : Ensures program state post :=
  fun _ _ returned => runs.holds returned

theorem pure {value : α} (holds : post value state) :
    Ensures (pure value : Program σ ε α) state post :=
  of_runs ((runs_pure ..).mpr holds)

theorem of_faults (faults : Faults program state) : Ensures program state post := by
  intro result final returned
  obtain ⟨fault, stopped⟩ := faults
  rw [returned] at stopped
  cases stopped

theorem throw (fault : ε) : Ensures (throw fault : Program σ ε α) state post :=
  of_faults (faults_throw fault state)

theorem of_run_eq {same : Program σ ε α} {other : σ} (equal : program.run state = same.run other)
    (ensures : Ensures same other post) : Ensures program state post :=
  fun result final returned => ensures result final (equal ▸ returned)

theorem bind {next : α → Program σ ε β} {goal : β → σ → Prop}
    (first : Ensures program state post)
    (second : ∀ result middle, post result middle → Ensures (next result) middle goal) :
    Ensures (program >>= next) state goal := by
  intro result final returned
  cases ran : program.run state with
  | error fault =>
      rw [StateT.run_bind, ran] at returned
      cases returned
  | ok outcome =>
      obtain ⟨value, middle⟩ := outcome
      rw [StateT.run_bind, ran] at returned
      exact second value middle (first value middle ran) result final returned

theorem mono (ensures : Ensures program state post)
    (implies : ∀ result final, post result final → weaker result final) :
    Ensures program state weaker :=
  fun result final returned => implies result final (ensures result final returned)

theorem after {next : α → Program σ ε β} {goal : β → σ → Prop}
    (second : ∀ result middle, Ensures (next result) middle goal) :
    Ensures (program >>= next) state goal :=
  bind (fun _ _ _ => trivial) fun result middle (_ : True) => second result middle

theorem get_bind {next : σ → Program σ ε β} {goal : β → σ → Prop}
    (second : Ensures (next state) state goal) :
    Ensures ((get : Program σ ε σ) >>= next) state goal := second

theorem set_bind {new : σ} {next : PUnit → Program σ ε β} {goal : β → σ → Prop}
    (second : Ensures (next ⟨⟩) new goal) :
    Ensures ((set new : Program σ ε PUnit) >>= next) state goal := second

theorem modify_bind {change : σ → σ} {next : PUnit → Program σ ε β} {goal : β → σ → Prop}
    (second : Ensures (next ⟨⟩) (change state) goal) :
    Ensures ((modify change : Program σ ε PUnit) >>= next) state goal := second

theorem orFault_bind {fault : ε} {value : Option α} {next : α → Program σ ε β}
    {goal : β → σ → Prop}
    (second : ∀ result, value = some result → Ensures (next result) state goal) :
    Ensures (orFault fault value >>= next) state goal := by
  cases value with
  | none => exact bind (throw fault) fun _ _ (reached : False) => reached.elim
  | some result => exact second result rfl

theorem withFault {ε' : Type} {called : Program σ ε' α} (ensures : Ensures called state post)
    (convert : ε' → ε) : Ensures (Imperative.withFault convert called) state post := by
  intro result final returned
  change (called.run state).mapError convert = _ at returned
  cases ran : called.run state with
  | error fault =>
      rw [ran] at returned
      cases returned
  | ok outcome =>
      rw [ran] at returned
      cases returned
      exact ensures result final ran

/-- A program on a state of its own leaves the state. -/
theorem runOn_bind {τ : Type} {inner : Program τ ε α} {start : τ}
    {next : α × τ → Program σ ε β} {goal : β → σ → Prop}
    (second : ∀ result, Ensures (next result) state goal) :
    Ensures (Imperative.runOn inner start >>= next) state goal := by
  have kept : Ensures (Imperative.runOn inner start : Program σ ε (α × τ)) state
      fun _ middle => middle = state := by
    intro result final returned
    cases ran : inner.run start with
    | error fault =>
        rw [run_runOn, ran] at returned
        cases returned
    | ok outcome =>
        rw [run_runOn, ran] at returned
        cases returned
        rfl
  refine kept.bind fun result middle same => ?_
  rw [same]
  exact second result

/-- What such a program has returned is known in what follows. -/
theorem of_runOn {τ : Type} {inner : Program τ ε α} {start : τ}
    {next : α × τ → Program σ ε β} {goal : β → σ → Prop}
    (second : ∀ result final, inner.run start = .ok (result, final) →
      Ensures (next (result, final)) state goal) :
    Ensures (Imperative.runOn inner start >>= next) state goal := by
  intro result final returned
  cases ran : inner.run start with
  | error fault =>
      rw [StateT.run_bind, run_runOn, ran] at returned
      cases returned
  | ok outcome =>
      rw [StateT.run_bind, run_runOn, ran] at returned
      exact second outcome.1 outcome.2 ran result final returned

theorem of_runWith {τ ε' : Type} {convert : ε' → ε} {inner : Program τ ε' α} {start : τ}
    {next : α × τ → Program σ ε β} {goal : β → σ → Prop}
    (second : ∀ result final, inner.run start = .ok (result, final) →
      Ensures (next (result, final)) state goal) :
    Ensures (Imperative.runWith convert inner start >>= next) state goal := by
  cases ran : inner.run start with
  | error fault =>
      rw [Imperative.runWith, ran]
      exact bind (throw _) fun _ _ (reached : False) => reached.elim
  | ok outcome =>
      rw [Imperative.runWith, ran]
      exact second outcome.1 outcome.2 ran

end Ensures

/-- The program does not change the state. -/
def ReadsOnly (program : Program σ ε α) : Prop :=
  ∀ state, Ensures program state fun _ final => final = state

namespace ReadsOnly

variable {program : Program σ ε α}

theorem pure {value : α} : ReadsOnly (pure value : Program σ ε α) := fun _ => .pure rfl

theorem throw (fault : ε) : ReadsOnly (throw fault : Program σ ε α) := fun _ => .throw fault

theorem get : ReadsOnly (get : Program σ ε σ) := by
  intro state result final returned
  cases returned
  rfl

theorem orFault (fault : ε) (value : Option α) : ReadsOnly (orFault fault value : Program σ ε α) := by
  cases value with
  | none => exact throw fault
  | some result => exact pure

theorem bind {next : α → Program σ ε β} (first : ReadsOnly program)
    (second : ∀ result, ReadsOnly (next result)) : ReadsOnly (program >>= next) := by
  intro state
  refine (first state).bind fun result middle same => ?_
  rw [same]
  exact second result state

theorem ite {condition : Prop} [Decidable condition] {yes no : Program σ ε α} (left : ReadsOnly yes)
    (right : ReadsOnly no) : ReadsOnly (if condition then yes else no) := by
  split
  · exact left
  · exact right

theorem exists_of_bind (reads : ReadsOnly program) {next : α → Program σ ε β} {state : σ}
    {post : β → σ → Prop} (runs : Runs (program >>= next) state post) :
    ∃ result, program.run state = .ok (result, state) ∧ Runs (next result) state post := by
  obtain ⟨result, middle, returned, rest⟩ := (runs_bind ..).mp runs
  have same : middle = state := reads state result middle returned
  subst same
  exact ⟨result, returned, rest⟩

end ReadsOnly

/-- If the program stops with a fault from `state`, the fault is an allowed one. -/
def FaultsOnly (allowed : ε → Prop) (program : Program σ ε α) (state : σ) : Prop :=
  ∀ fault, program.run state = .error fault → allowed fault

namespace FaultsOnly

variable {allowed : ε → Prop} {program : Program σ ε α} {state : σ} {post : α → σ → Prop}

theorem of_runs (runs : Runs program state post) : FaultsOnly allowed program state := by
  intro fault stopped
  exact absurd ⟨fault, stopped⟩ runs.not_faults

theorem pure {value : α} : FaultsOnly allowed (pure value : Program σ ε α) state :=
  of_runs ((runs_pure value state fun _ _ => True).mpr trivial)

theorem mono {wider : ε → Prop} (only : FaultsOnly allowed program state)
    (allows : ∀ fault, allowed fault → wider fault) : FaultsOnly wider program state :=
  fun fault stopped => allows fault (only fault stopped)

theorem runOn {τ : Type} {program : Program τ ε α} {inner : τ} {outer : σ}
    (only : FaultsOnly allowed program inner) : FaultsOnly allowed (runOn program inner) outer := by
  intro fault stopped
  apply only fault
  cases ran : program.run inner with
  | error other =>
      rw [run_runOn, ran] at stopped
      cases stopped
      rfl
  | ok outcome =>
      rw [run_runOn, ran] at stopped
      cases stopped

theorem get_bind {next : σ → Program σ ε β} (second : FaultsOnly allowed (next state) state) :
    FaultsOnly allowed ((get : Program σ ε σ) >>= next) state := second

theorem set_bind {new : σ} {next : PUnit → Program σ ε β}
    (second : FaultsOnly allowed (next ⟨⟩) new) :
    FaultsOnly allowed ((set new : Program σ ε PUnit) >>= next) state := second

theorem of_error {fault : ε} (stopped : program.run state = .error fault) (allows : allowed fault) :
    FaultsOnly allowed program state := by
  intro other stopped'
  rw [stopped] at stopped'
  cases stopped'
  exact allows

theorem bind {next : α → Program σ ε β} (first : FaultsOnly allowed program state)
    (second : ∀ result middle, FaultsOnly allowed (next result) middle) :
    FaultsOnly allowed (program >>= next) state := by
  intro fault stopped
  cases ran : program.run state with
  | error earlier =>
      rw [StateT.run_bind, ran] at stopped
      cases stopped
      exact first _ ran
  | ok outcome =>
      obtain ⟨value, middle⟩ := outcome
      rw [StateT.run_bind, ran] at stopped
      exact second value middle fault stopped

theorem after {next : α → Program σ ε β}
    (first : Runs program state fun result middle => FaultsOnly allowed (next result) middle) :
    FaultsOnly allowed (program >>= next) state := by
  intro fault stopped
  obtain ⟨value, middle, returned, rest⟩ := first
  rw [StateT.run_bind, returned] at stopped
  exact rest fault stopped

theorem throw {fault : ε} (allows : allowed fault) :
    FaultsOnly allowed (throw fault : Program σ ε α) state := of_error rfl allows

theorem orFault {fault : ε} (allows : allowed fault) (value : Option α) :
    FaultsOnly allowed (orFault fault value : Program σ ε α) state := by
  cases value with
  | none => exact throw allows
  | some result => exact pure

end FaultsOnly

/-- Like `Runs`, but the program may also stop with an allowed fault. -/
def RunsOr (allowed : ε → Prop) (program : Program σ ε α) (state : σ) (post : α → σ → Prop) :
    Prop :=
  Runs program state post ∨ ∃ fault, program.run state = .error fault ∧ allowed fault

namespace RunsOr

variable {allowed : ε → Prop} {program : Program σ ε α} {state : σ} {post weaker : α → σ → Prop}

theorem of_runs (runs : Runs program state post) : RunsOr allowed program state post := .inl runs

theorem pure {value : α} (holds : post value state) :
    RunsOr allowed (pure value : Program σ ε α) state post :=
  of_runs ((runs_pure ..).mpr holds)

theorem throw {fault : ε} (allows : allowed fault) :
    RunsOr allowed (throw fault : Program σ ε α) state post :=
  .inr ⟨fault, rfl, allows⟩

theorem orFault {fault : ε} (allows : allowed fault) {value : Option α}
    (holds : ∀ result, value = some result → post result state) :
    RunsOr allowed (orFault fault value : Program σ ε α) state post := by
  cases value with
  | none => exact throw allows
  | some result => exact pure (holds result rfl)

theorem bind {next : α → Program σ ε β} {goal : β → σ → Prop}
    (first : RunsOr allowed program state post)
    (second : ∀ result middle, post result middle → RunsOr allowed (next result) middle goal) :
    RunsOr allowed (program >>= next) state goal := by
  rcases first with ⟨result, middle, returned, holds⟩ | ⟨fault, stopped, allows⟩
  · rcases second result middle holds with runs | ⟨fault, stopped, allows⟩
    · exact .inl ((runs_bind ..).mpr ⟨result, middle, returned, runs⟩)
    · exact .inr ⟨fault, by rw [run_bind_ok returned, stopped], allows⟩
  · exact .inr ⟨fault, run_bind_error stopped, allows⟩

theorem after {next : α → Program σ ε β} {goal : β → σ → Prop}
    (first : Runs program state fun result middle => RunsOr allowed (next result) middle goal) :
    RunsOr allowed (program >>= next) state goal :=
  bind (of_runs first) fun _ _ rest => rest

theorem mono (outcome : RunsOr allowed program state post)
    (implies : ∀ result final, post result final → weaker result final) :
    RunsOr allowed program state weaker :=
  outcome.imp_left fun runs => runs.mono implies

theorem of_faultsOnly (only : FaultsOnly allowed program state) :
    RunsOr allowed program state fun result final => program.run state = .ok (result, final) := by
  cases ran : program.run state with
  | error fault => exact .inr ⟨fault, ran, only fault ran⟩
  | ok outcome => exact .inl ⟨outcome.1, outcome.2, ran, rfl⟩

theorem runOn {τ : Type} {called : Program τ ε α} {inner : τ}
    (only : FaultsOnly allowed called inner) :
    RunsOr allowed (runOn called inner) state fun result final =>
      called.run inner = .ok result ∧ final = state := by
  rcases of_faultsOnly only with ⟨result, final, returned, -⟩ | ⟨fault, stopped, allows⟩
  · exact of_runs ((runs_runOn ..).mpr ⟨result, final, returned, returned, rfl⟩)
  · exact .inr ⟨fault, by rw [run_runOn, stopped]; rfl, allows⟩

theorem runWith {τ ε' : Type} {inside : ε' → Prop} {convert : ε' → ε} {inner : τ}
    {called : Program τ ε' α} {reached : α → τ → Prop}
    (outcome : RunsOr inside called inner reached)
    (allows : ∀ fault, inside fault → allowed (convert fault)) :
    RunsOr allowed (runWith convert called inner) state fun result final =>
      reached result.1 result.2 ∧ final = state := by
  rcases outcome with ⟨result, final, returned, holds⟩ | ⟨fault, stopped, inside⟩
  · rw [Imperative.runWith, returned]
    exact pure ⟨holds, rfl⟩
  · rw [Imperative.runWith, stopped]
    exact throw (allows fault inside)

theorem holds (outcome : RunsOr allowed program state post) {result : α} {final : σ}
    (returned : program.run state = .ok (result, final)) : post result final := by
  rcases outcome with runs | ⟨fault, stopped, -⟩
  · exact runs.holds returned
  · rw [returned] at stopped
    cases stopped

theorem faultsOnly (outcome : RunsOr allowed program state post) :
    FaultsOnly allowed program state := by
  rcases outcome with runs | ⟨fault, stopped, allows⟩
  · exact .of_runs runs
  · exact .of_error stopped allows

end RunsOr

/-- Like `Runs`, but when `excuse` holds the program may also stop with a
fault. -/
def RunsUnless (excuse : Prop) (program : Program σ ε α) (state : σ) (post : α → σ → Prop) : Prop :=
  Runs program state post ∨ excuse ∧ Faults program state

namespace RunsUnless

variable {excuse : Prop} {program : Program σ ε α} {state : σ} {post weaker : α → σ → Prop}

theorem holds (outcome : RunsUnless excuse program state post) {result : α} {final : σ}
    (returned : program.run state = .ok (result, final)) : post result final := by
  rcases outcome with runs | ⟨-, fault, stopped⟩
  · exact runs.holds returned
  · rw [returned] at stopped
    cases stopped

theorem mono (outcome : RunsUnless excuse program state post)
    {wider : Prop} (excused : excuse → wider)
    (implies : ∀ result final, post result final → weaker result final) :
    RunsUnless wider program state weaker :=
  outcome.imp (fun runs => runs.mono implies) (And.imp_left excused)

theorem bind {next : α → Program σ ε β} {goal : β → σ → Prop}
    (first : RunsUnless excuse program state post)
    (second : ∀ result middle, post result middle → RunsUnless excuse (next result) middle goal) :
    RunsUnless excuse (program >>= next) state goal := by
  rcases first with ⟨result, middle, returned, holds⟩ | ⟨excused, faults⟩
  · rcases second result middle holds with rest | ⟨excused, faults⟩
    · exact .inl ((runs_bind ..).mpr ⟨result, middle, returned, rest⟩)
    · exact .inr ⟨excused, Runs.faults_bind ⟨result, middle, returned, faults⟩⟩
  · exact .inr ⟨excused, faults.bind⟩

end RunsUnless

/-- When `condition` holds, the program returns as `Runs` says; when it does not,
the program stops with a fault. -/
def RunsIf (condition : Prop) (program : Program σ ε α) (state : σ) (post : α → σ → Prop) : Prop :=
  condition ∧ Runs program state post ∨ ¬ condition ∧ Faults program state

namespace RunsIf

variable {condition other : Prop} {program : Program σ ε α} {state : σ} {post weaker : α → σ → Prop}

theorem of_runs (runs : Runs program state post) (holds : condition) :
    RunsIf condition program state post :=
  .inl ⟨holds, runs⟩

theorem runs (outcome : RunsIf condition program state post) (holds : condition) :
    Runs program state post := by
  rcases outcome with ⟨-, runs⟩ | ⟨never, -⟩
  · exact runs
  · exact absurd holds never

theorem faults (outcome : RunsIf condition program state post) (never : ¬ condition) :
    Faults program state := by
  rcases outcome with ⟨holds, -⟩ | ⟨-, faults⟩
  · exact absurd holds never
  · exact faults

theorem holds (outcome : RunsIf condition program state post) {result : α} {final : σ}
    (returned : program.run state = .ok (result, final)) : post result final := by
  rcases outcome with ⟨-, runs⟩ | ⟨-, fault, stopped⟩
  · exact runs.holds returned
  · rw [returned] at stopped
    cases stopped

theorem condition_of_returned (outcome : RunsIf condition program state post) {result : α}
    {final : σ} (returned : program.run state = .ok (result, final)) : condition := by
  rcases outcome with ⟨holds, -⟩ | ⟨-, fault, stopped⟩
  · exact holds
  · rw [returned] at stopped
    cases stopped

/-- The program returns exactly when the condition holds. -/
theorem runs_iff (outcome : RunsIf condition program state post) :
    Runs program state post ↔ condition := by
  constructor
  · intro runs
    by_contra never
    exact runs.not_faults (outcome.faults never)
  · exact outcome.runs

/-- What a program that may fault establishes, when what it leaves decides it. -/
theorem runs_iff_and (outcome : RunsIf condition program state post)
    (decides : ∀ result final, post result final → (weaker result final ↔ other)) :
    Runs program state weaker ↔ condition ∧ other := by
  constructor
  · intro runs
    have holds : condition := by
      by_contra never
      exact runs.not_faults (outcome.faults never)
    obtain ⟨result, final, returned, reached⟩ := runs
    exact ⟨holds, (decides result final (outcome.holds returned)).mp reached⟩
  · intro ⟨holds, otherHolds⟩
    exact (outcome.runs holds).mono fun result final reached =>
      (decides result final reached).mpr otherHolds

theorem mono (outcome : RunsIf condition program state post)
    (implies : ∀ result final, post result final → weaker result final) :
    RunsIf condition program state weaker :=
  outcome.imp_left (And.imp_right fun runs => runs.mono implies)

theorem and_ensures {further : α → σ → Prop} (outcome : RunsIf condition program state post)
    (ensures : Ensures program state further) :
    RunsIf condition program state fun result final => post result final ∧ further result final :=
  outcome.imp_left (And.imp_right fun runs => runs.and_ensures ensures)

theorem congr (outcome : RunsIf condition program state post) (same : condition ↔ other) :
    RunsIf other program state post := by
  rcases outcome with ⟨holds, runs⟩ | ⟨never, faults⟩
  · exact .inl ⟨same.mp holds, runs⟩
  · exact .inr ⟨fun holds => never (same.mpr holds), faults⟩

theorem bind {next : α → Program σ ε β} {goal : β → σ → Prop}
    (first : RunsIf condition program state post)
    (second : ∀ result middle, post result middle → RunsIf other (next result) middle goal) :
    RunsIf (condition ∧ other) (program >>= next) state goal := by
  rcases first with ⟨holds, result, middle, returned, reached⟩ | ⟨never, faults⟩
  · rcases second result middle reached with ⟨otherHolds, runs⟩ | ⟨never, faults⟩
    · exact .inl ⟨⟨holds, otherHolds⟩, (runs_bind ..).mpr ⟨result, middle, returned, runs⟩⟩
    · exact .inr ⟨fun both => never both.2, Runs.faults_bind ⟨result, middle, returned, faults⟩⟩
  · exact .inr ⟨fun both => never both.1, faults.bind⟩

theorem after {next : α → Program σ ε β} {goal : β → σ → Prop}
    (first : Runs program state fun result middle =>
      RunsIf condition (next result) middle goal) :
    RunsIf condition (program >>= next) state goal :=
  (bind (.inl ⟨trivial, first⟩) fun _ _ rest => rest).congr (by simp)

theorem of_run_eq {same : Program σ ε α} (equal : program.run state = same.run state)
    (outcome : RunsIf condition same state post) : RunsIf condition program state post := by
  unfold RunsIf Runs Faults at outcome ⊢
  rwa [equal]

theorem withFault {ε' : Type} (outcome : RunsIf condition program state post)
    (convert : ε → ε') : RunsIf condition (withFault convert program) state post :=
  outcome.imp (And.imp_right (runs_withFault ..).mpr)
    (And.imp_right fun faults => faults.withFault convert)

theorem before {next : α → Program σ ε β} {goal : β → σ → Prop}
    (first : RunsIf condition program state post)
    (second : ∀ result middle, post result middle → Runs (next result) middle goal) :
    RunsIf condition (program >>= next) state goal :=
  (first.bind fun result middle reached => of_runs (second result middle reached) trivial).congr
    (by simp)

end RunsIf

end Imperative
