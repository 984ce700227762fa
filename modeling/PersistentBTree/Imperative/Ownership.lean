import Mathlib.Data.List.Perm.Basic
import Mathlib.Data.List.Nodup

/-! Exclusive ownership. Parties hold tokens, at most one each, and a token may denote a
cell. No token is held twice, and a cell that lives is held by somebody. When some parties
change, together with the cells whose tokens they hold, whatever was known of the others
still holds. -/

set_option autoImplicit false

namespace Imperative

open List (Perm)

variable {Party Token Cell : Type}

/-- Which token a party holds, what a party knows of the cell that its token denotes, and
which cells have to be held. -/
structure Ownership (Party Token Cell : Type) where
  holds : Party → Option Token
  suits : Party → Option Cell → Prop
  live : Cell → Prop
  /-- A party that holds a token knows that there is a cell. -/
  some_of_suits : ∀ {party : Party} {token : Token}, holds party = some token → ¬ suits party none

structure Owned (ownership : Ownership Party Token Cell) (parties : List Party)
    (cells : Token → Option Cell) : Prop where
  suits : ∀ party ∈ parties, ownership.suits party ((ownership.holds party).bind cells)
  exclusive : (parties.filterMap ownership.holds).Nodup
  covers : ∀ token cell, cells token = some cell → ownership.live cell →
    token ∈ parties.filterMap ownership.holds

namespace Owned

variable {ownership : Ownership Party Token Cell} {parties parties' old new rest : List Party}
  {cells cells' : Token → Option Cell}

theorem perm (owned : Owned ownership parties cells) (same : Perm parties parties') :
    Owned ownership parties' cells where
  suits := fun party member => owned.suits party (same.mem_iff.mpr member)
  exclusive := (same.filterMap ownership.holds).nodup_iff.mp owned.exclusive
  covers := fun token cell found lives =>
    (same.filterMap ownership.holds).mem_iff.mp (owned.covers token cell found lives)

private theorem held {party : Party} {token : Token} (owned : Owned ownership parties cells)
    (member : party ∈ parties) (holds : ownership.holds party = some token) :
    ∃ cell, cells token = some cell := by
  have suits := owned.suits party member
  rw [holds] at suits
  cases found : cells token with
  | none => exact absurd (found ▸ suits) (ownership.some_of_suits holds)
  | some cell => exact ⟨cell, rfl⟩

/-- What is not held by the parties `old` and is not new is not seen to change by the others. -/
theorem frame (owned : Owned ownership parties cells) (before : Perm parties (old ++ rest))
    (changes : ∀ token, cells' token ≠ cells token →
      token ∈ old.filterMap ownership.holds ∨ cells token = none) :
    ∀ party ∈ rest, (ownership.holds party).bind cells' = (ownership.holds party).bind cells := by
  intro party member
  cases holds : ownership.holds party with
  | none => rfl
  | some token =>
      have distinct := (owned.perm before).exclusive
      rw [List.filterMap_append, List.nodup_append'] at distinct
      obtain ⟨cell, found⟩ := (owned.perm before).held (List.mem_append_right old member) holds
      by_contra differ
      cases changes token differ with
      | inl isOld => exact distinct.2.2 isOld (List.mem_filterMap.mpr ⟨party, member, holds⟩)
      | inr absent =>
          rw [absent] at found
          cases found

/-- The parties `old` become `new`. They may change the cells whose tokens they hold, and
bring up cells with new tokens. -/
theorem exchange (owned : Owned ownership parties cells) (before : Perm parties (old ++ rest))
    (after : Perm parties' (new ++ rest))
    (kept : ∀ token, token ∉ old.filterMap ownership.holds →
      token ∉ new.filterMap ownership.holds → cells' token = cells token)
    (fresh : ∀ token ∈ new.filterMap ownership.holds,
      token ∈ old.filterMap ownership.holds ∨ cells token = none)
    (suits : ∀ party ∈ new, ownership.suits party ((ownership.holds party).bind cells'))
    (exclusive : (new.filterMap ownership.holds).Nodup)
    (covers : ∀ token ∈ old.filterMap ownership.holds, ∀ cell, cells' token = some cell →
      ownership.live cell → token ∈ new.filterMap ownership.holds) :
    Owned ownership parties' cells' := by
  have first := owned.perm before
  have distinct := first.exclusive
  rw [List.filterMap_append, List.nodup_append'] at distinct
  obtain ⟨-, restUnique, apart⟩ := distinct
  have changes : ∀ token, cells' token ≠ cells token →
      token ∈ old.filterMap ownership.holds ∨ cells token = none := by
    intro token differ
    by_cases isOld : token ∈ old.filterMap ownership.holds
    · exact .inl isOld
    · by_cases isNew : token ∈ new.filterMap ownership.holds
      · exact fresh token isNew
      · exact absurd (kept token isOld isNew) differ
  have second : Owned ownership (new ++ rest) cells' := by
    refine ⟨?_, ?_, ?_⟩
    · intro party member
      cases List.mem_append.mp member with
      | inl isNew => exact suits party isNew
      | inr inside =>
          rw [owned.frame before changes party inside]
          exact first.suits party (List.mem_append_right old inside)
    · rw [List.filterMap_append, List.nodup_append']
      refine ⟨exclusive, restUnique, fun token isNew member => ?_⟩
      obtain ⟨party, inside, holds⟩ := List.mem_filterMap.mp member
      obtain ⟨cell, found⟩ := first.held (List.mem_append_right old inside) holds
      cases fresh token isNew with
      | inl isOld => exact apart isOld member
      | inr absent =>
          rw [absent] at found
          cases found
    · intro token cell found lives
      rw [List.filterMap_append]
      by_cases isNew : token ∈ new.filterMap ownership.holds
      · exact List.mem_append_left _ isNew
      · apply List.mem_append_right
        have notOld : token ∉ old.filterMap ownership.holds :=
          fun isOld => isNew (covers token isOld cell found lives)
        rw [kept token notOld isNew] at found
        have somewhere := first.covers token cell found lives
        rw [List.filterMap_append] at somewhere
        exact (List.mem_append.mp somewhere).resolve_left notOld
  exact second.perm after.symm

end Owned

end Imperative
