import Mathlib.Data.List.Infix
import Mathlib.Tactic.Common

/-! A stream that arrives in chunks and is cut behind every chunk with which a marker has
arrived. Where it is cut depends on the chunks. -/

set_option autoImplicit false

namespace Imperative

variable {α : Type} [DecidableEq α]

/-- What has been cut off the stream, and what has arrived since. -/
structure Cuts (α : Type) where
  parts : List (List α)
  pending : List α

def Cuts.push (marker : List α) (cuts : Cuts α) (chunk : List α) : Cuts α :=
  if marker <:+: cuts.pending ++ chunk then ⟨cuts.parts ++ [cuts.pending ++ chunk], []⟩
  else ⟨cuts.parts, cuts.pending ++ chunk⟩

def cut (marker : List α) (chunks : List (List α)) : Cuts α :=
  chunks.foldl (Cuts.push marker) ⟨[], []⟩

variable {marker : List α} {chunks : List (List α)}

theorem cut_concat (marker : List α) (chunks : List (List α)) (chunk : List α) :
    cut marker (chunks ++ [chunk]) = (cut marker chunks).push marker chunk := by
  rw [cut, List.foldl_append]
  rfl

theorem Cuts.push_of_infix {cuts : Cuts α} {chunk : List α}
    (found : marker <:+: cuts.pending ++ chunk) :
    cuts.push marker chunk = ⟨cuts.parts ++ [cuts.pending ++ chunk], []⟩ := if_pos found

theorem Cuts.push_of_not_infix {cuts : Cuts α} {chunk : List α}
    (absent : ¬ marker <:+: cuts.pending ++ chunk) :
    cuts.push marker chunk = ⟨cuts.parts, cuts.pending ++ chunk⟩ := if_neg absent

/-- Nothing of the stream is lost. -/
theorem flatten_cut (marker : List α) (chunks : List (List α)) :
    (cut marker chunks).parts.flatten ++ (cut marker chunks).pending = chunks.flatten := by
  induction chunks using List.reverseRecOn with
  | nil => rfl
  | append_singleton chunks chunk ih =>
      rw [cut_concat, List.flatten_append, List.flatten_singleton, ← ih]
      by_cases found : marker <:+: (cut marker chunks).pending ++ chunk
      · rw [Cuts.push_of_infix found]
        simp
      · rw [Cuts.push_of_not_infix found]
        simp

theorem infix_of_mem_parts {part : List α} (member : part ∈ (cut marker chunks).parts) :
    marker <:+: part := by
  induction chunks using List.reverseRecOn with
  | nil => cases member
  | append_singleton chunks chunk ih =>
      rw [cut_concat] at member
      by_cases found : marker <:+: (cut marker chunks).pending ++ chunk
      · rw [Cuts.push_of_infix found] at member
        cases List.mem_append.mp member with
        | inl earlier => exact ih earlier
        | inr last => rwa [List.mem_singleton.mp last]
      · rw [Cuts.push_of_not_infix found] at member
        exact ih member

/-! ## Streams of messages -/

/-- The marker does not occur in the message before its end. -/
def EndsAt (marker message : List α) : Prop := ¬ marker <:+: message.dropLast

omit [DecidableEq α] in
/-- What contains the marker is not a proper part of the message. -/
theorem EndsAt.length_le {message start : List α} (ends : EndsAt marker message)
    (begins : start <+: message) (found : marker <:+: start) : message.length ≤ start.length := by
  by_contra shorter
  apply ends
  apply found.trans
  apply List.IsPrefix.isInfix
  rw [List.dropLast_eq_take, List.prefix_iff_eq_take.mp begins]
  apply List.take_prefix_take_left
  omega

omit [DecidableEq α] in
/-- Parts of a stream of messages that all contain the marker are at most as many as the
messages. -/
theorem length_parts_le (nonempty : marker ≠ []) {messages parts : List (List α)}
    (ends : ∀ message ∈ messages, EndsAt marker message) (found : ∀ part ∈ parts, marker <:+: part)
    {before behind : List α} (stream : messages.flatten = before ++ parts.flatten ++ behind) :
    parts.length ≤ messages.length := by
  induction messages generalizing parts before with
  | nil =>
      cases parts with
      | nil => exact Nat.le_refl 0
      | cons part rest =>
          have empty := stream.symm
          simp only [List.flatten_nil, List.flatten_cons, List.append_eq_nil_iff] at empty
          have isNil := found part List.mem_cons_self
          rw [empty.1.2.1, List.infix_nil] at isNil
          exact absurd isNil nonempty
  | cons message messages ih =>
      cases parts with
      | nil => exact Nat.zero_le _
      | cons part rest =>
          have first := found part List.mem_cons_self
          rw [List.flatten_cons, List.flatten_cons, List.append_assoc before, List.append_assoc part,
            ← List.append_assoc before] at stream
          -- the first message lies in what is cut off up to its first part
          have within : message <+: before ++ part := by
            cases List.append_eq_append_iff.mp stream with
            | inl covers =>
                obtain ⟨more, isMore, -⟩ := covers
                exact ⟨more, isMore.symm⟩
            | inr covers =>
                obtain ⟨more, isMore, -⟩ := covers
                have long := (ends message List.mem_cons_self).length_le ⟨more, isMore.symm⟩
                  (first.trans (List.suffix_append before part).isInfix)
                have none_ : more = [] := by
                  rw [isMore, List.length_append] at long
                  exact List.eq_nil_of_length_eq_zero (by omega)
                rw [none_, List.append_nil] at isMore
                exact ⟨[], by rw [isMore, List.append_nil]⟩
          obtain ⟨more, isMore⟩ := within
          rw [← isMore, List.append_assoc, List.append_cancel_left_eq, ← List.append_assoc] at stream
          have few := ih (fun other member => ends other (List.mem_cons_of_mem _ member))
            (fun other member => found other (List.mem_cons_of_mem _ member)) stream
          exact Nat.succ_le_succ few

/-- However a stream of messages arrives, at most as many parts are cut off. -/
theorem length_cut_le (nonempty : marker ≠ []) {messages : List (List α)}
    (ends : ∀ message ∈ messages, EndsAt marker message)
    (arrived : chunks.flatten <+: messages.flatten) :
    (cut marker chunks).parts.length ≤ messages.length := by
  obtain ⟨behind, stream⟩ := arrived
  have parted : messages.flatten =
      [] ++ (cut marker chunks).parts.flatten ++ ((cut marker chunks).pending ++ behind) := by
    rw [← stream, ← flatten_cut marker chunks, List.nil_append, List.append_assoc]
  exact length_parts_le nonempty ends (fun part member => infix_of_mem_parts member) parted

/-! ## Messages that arrive one by one -/

private theorem foldl_push_of_not_infix (cuts : Cuts α)
    (absent : ¬ marker <:+: cuts.pending ++ chunks.flatten) :
    chunks.foldl (Cuts.push marker) cuts = ⟨cuts.parts, cuts.pending ++ chunks.flatten⟩ := by
  induction chunks generalizing cuts with
  | nil => simp
  | cons chunk rest ih =>
      rw [List.flatten_cons, ← List.append_assoc] at absent ⊢
      have notYet : ¬ marker <:+: cuts.pending ++ chunk :=
        fun found => absent (found.trans (List.prefix_append _ _).isInfix)
      rw [List.foldl_cons, Cuts.push_of_not_infix notYet]
      exact ih ⟨cuts.parts, cuts.pending ++ chunk⟩ absent

/-- The chunks of a message, none of which is empty, make one part. -/
private theorem foldl_push_message (parts : List (List α)) (some_ : ∀ chunk ∈ chunks, chunk ≠ [])
    (found : marker <:+: chunks.flatten) (ends : EndsAt marker chunks.flatten)
    (nonempty : marker ≠ []) :
    chunks.foldl (Cuts.push marker) ⟨parts, []⟩ = ⟨parts ++ [chunks.flatten], []⟩ := by
  cases chunks using List.reverseRecOn with
  | nil => exact absurd (List.infix_nil.mp found) nonempty
  | append_singleton front last =>
      have lastSome := some_ last (List.mem_append_right front List.mem_cons_self)
      rw [List.flatten_append, List.flatten_singleton] at found ends ⊢
      have absent : ¬ marker <:+: ([] : List α) ++ front.flatten := by
        intro early
        apply ends
        rw [List.dropLast_append_of_ne_nil lastSome]
        exact early.trans (List.prefix_append _ _).isInfix
      rw [List.foldl_append, foldl_push_of_not_infix ⟨parts, []⟩ absent]
      exact Cuts.push_of_infix found

/-- When every message ends where a chunk ends, the messages are what is cut off. -/
theorem cut_flatten (nonempty : marker ≠ []) {messages : List (List (List α))}
    (some_ : ∀ message ∈ messages, ∀ chunk ∈ message, chunk ≠ [])
    (found : ∀ message ∈ messages, marker <:+: message.flatten)
    (ends : ∀ message ∈ messages, EndsAt marker message.flatten) :
    cut marker messages.flatten = ⟨messages.map List.flatten, []⟩ := by
  induction messages using List.reverseRecOn with
  | nil => rfl
  | append_singleton messages message ih =>
      have last : message ∈ messages ++ [message] := List.mem_append_right messages List.mem_cons_self
      have earlier := ih (fun other member => some_ other (List.mem_append_left _ member))
        (fun other member => found other (List.mem_append_left _ member))
        (fun other member => ends other (List.mem_append_left _ member))
      rw [List.flatten_append, List.flatten_singleton, cut, List.foldl_append, ← cut, earlier,
        foldl_push_message _ (some_ message last) (found message last) (ends message last) nonempty,
        List.map_append]
      rfl

end Imperative
