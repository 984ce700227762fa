import Mathlib.Order.Defs.Unbundled
import PersistentBTree.Imperative.Runs

/-! Programs that keep a preorder between the states before and after them, whatever they
return. One rule for each way to compose programs. -/

set_option autoImplicit false

namespace Imperative

variable {σ ε α β : Type} {related : σ → σ → Prop}

/-- If the program returns, the states before and after it are related. -/
def Preserves (related : σ → σ → Prop) (program : Program σ ε α) : Prop :=
  ∀ state, Ensures program state fun _ final => related state final

namespace Preserves

theorem ite {condition : Prop} [Decidable condition] {yes no : Program σ ε α}
    (left : Preserves related yes) (right : Preserves related no) :
    Preserves related (if condition then yes else no) := by
  split
  · exact left
  · exact right

theorem modify {change : σ → σ} (changes : ∀ state, related state (change state)) :
    Preserves related (modify change : Program σ ε PUnit) :=
  fun state => .of_runs ((runs_modify ..).mpr (changes state))

theorem withFault {ε' : Type} {program : Program σ ε' α} (preserves : Preserves related program)
    (convert : ε' → ε) : Preserves related (withFault convert program) :=
  fun state => (preserves state).withFault convert

section Preorder

variable [IsPreorder σ related]

theorem of_readsOnly {program : Program σ ε α} (reads : ReadsOnly program) :
    Preserves related program := by
  intro state result final returned
  rw [reads state result final returned]
  exact refl_of related state

theorem pure {value : α} : Preserves related (pure value : Program σ ε α) := of_readsOnly .pure

theorem bind {program : Program σ ε α} {next : α → Program σ ε β}
    (first : Preserves related program) (second : ∀ result, Preserves related (next result)) :
    Preserves related (program >>= next) := by
  intro state
  refine (first state).bind fun result middle reached => ?_
  intro value final returned
  exact trans_of related reached (second result middle value final returned)

theorem after {program : Program σ ε α} {next : α → Program σ ε β} (reads : ReadsOnly program)
    (second : ∀ result, Preserves related (next result)) : Preserves related (program >>= next) :=
  (of_readsOnly reads).bind second

end Preorder

end Preserves

end Imperative
