import PersistentBTree.Queries.StringParserProperties

/-! Splitting a line gives back the fields that were written on it. A field is
written bare or between single quotes, and each one but the last is followed by
a space at least. -/

set_option autoImplicit false

namespace PersistentBTree.Queries

open Imperative StringParser

/-- A field as it is written in a query. -/
inductive Field where
  | bare (word : Word)
  | quoted (text : Text) (noQuote : '\'' ∉ text)

namespace Field

def text : Field → Text
  | bare word => word.text
  | quoted text _ => text

def written : Field → Text
  | bare word => word.text
  | quoted text _ => '\'' :: text ++ ['\'']

end Field

def spaces (count : Nat) : Text := List.replicate count ' '

/-- Every field is followed by some number of spaces. -/
def lineOf : List (Field × Nat) → Text
  | [] => []
  | (field, gap) :: rest => field.written ++ spaces gap ++ lineOf rest

/-- There is a space between two fields. -/
def Separated (fields : List (Field × Nat)) : Prop := ∀ pair ∈ fields.dropLast, 0 < pair.2

instance (fields : List (Field × Nat)) : Decidable (Separated fields) :=
  inferInstanceAs (Decidable (∀ pair ∈ fields.dropLast, 0 < pair.2))

theorem skipSpaces_spaces_append (count : Nat) (text : Text) :
    skipSpaces (spaces count ++ text) = skipSpaces text := by
  rw [skipSpaces, List.dropWhile_append_of_pos]
  · rfl
  · intro char isSpace
    simp [List.eq_of_mem_replicate isSpace]

theorem nextOf_spaces_append (count : Nat) (text : Text) :
    nextOf (spaces count ++ text) = nextOf text := by
  rw [nextOf, nextOf, skipSpaces_spaces_append]

/-- A written field is read back, and what follows it is left. -/
theorem nextOf_written {field : Field} {gap : Nat} {after : Text}
    (separated : gap = 0 → after = []) :
    ∃ fewer, nextOf (field.written ++ (spaces gap ++ after)) =
      some (field.text, spaces fewer ++ after) := by
  cases field with
  | bare word =>
      refine ⟨gap - 1, ?_⟩
      cases gap with
      | zero =>
          rw [Field.written, Field.text, separated rfl, nextOf_word word (by simp [spaces])]
          rfl
      | succ gap =>
          rw [Field.written, Field.text, nextOf_word word (by simp [spaces, List.replicate_succ])]
          rfl
  | quoted text noQuote =>
      refine ⟨gap, ?_⟩
      rw [Field.written, Field.text, List.cons_append, List.cons_append, List.append_assoc,
        List.singleton_append, nextOf_quoted noQuote]

theorem Separated.rest {field : Field} {gap : Nat} {fields : List (Field × Nat)}
    (separated : Separated ((field, gap) :: fields)) :
    Separated fields ∧ (gap = 0 → lineOf fields = []) := by
  cases fields with
  | nil => exact ⟨separated, fun _ => rfl⟩
  | cons next rest =>
      rw [Separated, List.dropLast_cons_cons] at separated
      have positive : 0 < gap := separated (field, gap) List.mem_cons_self
      refine ⟨fun pair member => separated pair (List.mem_cons_of_mem _ member), ?_⟩
      omega

/-- `count` calls of `next`. -/
def nexts : (count : Nat) → Parsing (List Text)
  | 0 => pure []
  | count + 1 => do
      let s ← next
      let rest ← nexts count
      pure (s :: rest)

theorem nexts_runs {fields : List (Field × Nat)} (separated : Separated fields)
    {parser : StringParser} {gap : Nat} (short : (intLength parser.str).toNat < intMax)
    (left : parser.rest = spaces gap ++ lineOf fields) :
    Runs (nexts fields.length) parser fun result final =>
      result = fields.map (·.1.text) ∧ ∃ trailing, final.rest = spaces trailing := by
  induction fields generalizing parser gap with
  | nil =>
      rw [List.length_nil, nexts, runs_pure]
      exact ⟨rfl, gap, by simpa [lineOf] using left⟩
  | cons pair fields ih =>
      obtain ⟨field, after⟩ := pair
      obtain ⟨separated, last⟩ := separated.rest
      obtain ⟨fewer, read⟩ := @nextOf_written field after (lineOf fields) last
      rw [List.length_cons, nexts, runs_bind]
      apply (next_runs short).mono
      intro result middle ⟨kept, returned⟩
      rw [left, nextOf_spaces_append, lineOf, List.append_assoc, read, Option.getD_some,
        Prod.mk.injEq] at returned
      rw [runs_bind]
      apply (ih separated (by rwa [kept]) returned.2).mono
      intro results final ⟨texts, trailing⟩
      rw [runs_pure, texts, returned.1, List.map_cons]
      exact ⟨rfl, trailing⟩

/-- As many calls of `next` as there are fields return their texts, and then
`hasNext` is false. -/
def FieldsReturned (leading : Nat) (fields : List (Field × Nat)) : Prop :=
  Runs (do return (← nexts fields.length, ← hasNext))
    (ofText (spaces leading ++ lineOf fields)) fun result _ =>
      result = (fields.map (·.1.text), false)

/-- The loop over the fields of the text ends. -/
def Terminates (text : Text) : Prop :=
  ∃ fuel, Runs (nextAll fuel) (ofText text) fun _ _ => True

/-- The loop takes no substring from beyond the end of the text. -/
def StaysInside (text : Text) : Prop :=
  ∀ fuel, FaultsOnly (· ≠ .outOfRange) (nextAll fuel) (ofText text)

theorem hasNext_spaces {parser : StringParser} {count : Nat}
    (left : parser.rest = spaces count) : Runs hasNext parser fun result _ => result = false := by
  apply (hasNext_runs parser).mono
  intro result final ⟨same, skipped, more⟩
  have none : skipSpaces (spaces count) = [] := by
    simpa [skipSpaces] using skipSpaces_spaces_append count []
  rw [← same, ← rest_ne_nil_iff, skipped, left, none] at more
  simpa using more

theorem fieldsReturned {leading : Nat} {fields : List (Field × Nat)}
    (separated : Separated fields)
    (short : (spaces leading ++ lineOf fields).length < intMax) :
    FieldsReturned leading fields := by
  rw [FieldsReturned, runs_bind]
  have size : (intLength (ofText (spaces leading ++ lineOf fields)).str).toNat < intMax := by
    rw [ofText, intLength_of_le (Nat.le_of_lt short), Int.toNat_natCast]
    exact short
  apply (nexts_runs separated size (rest_ofText (Nat.le_of_lt short))).mono
  intro results middle reached
  obtain ⟨texts, trailing, left⟩ := reached
  rw [runs_bind]
  apply (hasNext_spaces left).mono
  intro more final none
  rw [runs_pure, texts, none]

/-- A line of fields that a cursor of type `int` can pass is split into the texts
of the fields. On every line the loop stays inside the text, and ends unless the
cursor would have to pass the largest `int`. -/
theorem fieldSplitting :
    (∀ (leading : Nat) (fields : List (Field × Nat)), Separated fields →
      (spaces leading ++ lineOf fields).length < intMax → FieldsReturned leading fields) ∧
    ∀ text : Text, (intLength text ≠ intMax → Terminates text) ∧ StaysInside text := by
  refine ⟨fun leading fields => fieldsReturned, fun text => ⟨?_, ?_⟩⟩
  · intro passes
    have short : (intLength text).toNat < intMax := by
      have most := intLength_le_intMax text
      have positive : 0 < intMax := by simp only [intMax]; omega
      omega
    exact ⟨_, (@nextAll_runs _ (ofText text) short (Nat.lt_succ_self _)).mono
      fun _ _ _ => trivial⟩
  · intro fuel
    refine (nextAll_faultsOnly fuel (ofText text)).mono fun fault allowed => ?_
    rcases allowed with rfl | rfl
    · decide
    · decide

/-- Two bare fields and a quoted one with a space in it. -/
theorem fieldSplitting_threeFields :
    FieldsReturned 1 [(.bare ⟨['a'], by decide, by decide, by decide⟩, 2),
      (.quoted ['b', ' '] (by decide), 1), (.quoted [] (by decide), 0)] :=
  fieldSplitting.1 1 _ (by decide) (by decide)

/-- A word of `count` letters. -/
def letters (count : Nat) (positive : 0 < count) : Word where
  text := List.replicate count 'a'
  nonempty := by simpa using Nat.ne_of_gt positive
  noSpace := by simp [List.mem_replicate]
  unquoted := by simp [List.head?_replicate]

/-- The length of a word of 2 GiB is a negative `int`, and the parser sees nothing
of it. -/
theorem not_fieldsReturned_letters {count : Nat} (positive : 0 < count)
    (long : intMax < count % 2 ^ 32) : ¬ FieldsReturned 0 [(.bare (letters count positive), 0)] := by
  intro returned
  let parser := ofText (spaces 0 ++ lineOf [(.bare (letters count positive), 0)])
  have size : parser.str.length = count := by
    simp [parser, ofText, spaces, lineOf, letters, Field.written]
  have unseen : (intLength parser.str).toNat = 0 := by
    rw [intLength, size]
    simp only [if_neg (Nat.not_le.mpr long)]
    omega
  have nothing : parser.rest = [] := by
    rw [rest, seen, unseen, List.take_zero, List.drop_nil]
  have short : (intLength parser.str).toNat < intMax := by
    simp only [unseen, intMax]
    omega
  have read := next_runs short
  rw [nothing] at read
  simp only [FieldsReturned, List.length_singleton, nexts, runs_bind, runs_pure] at returned
  obtain ⟨result, middle, -, ⟨-, empty⟩, more, final, -, same⟩ := read.and returned
  have length : result.length = count := by
    simp only [List.map_cons, List.map_nil, Prod.mk.injEq, List.cons.injEq] at same
    rw [same.1.1]
    simp [letters, Field.text]
  simp [nextOf, skipSpaces] at empty
  simp [empty.1] at length
  omega

theorem not_fieldSplitting :
    ¬ ((∀ (leading : Nat) (fields : List (Field × Nat)), Separated fields →
        FieldsReturned leading fields) ∧
      ∀ text : Text, Terminates text ∧ StaysInside text) := by
  intro claim
  have separated : Separated [(.bare (letters (2 ^ 31) (Nat.two_pow_pos 31)), 0)] := by simp [Separated]
  have long : intMax < 2 ^ 31 % 2 ^ 32 := by simp only [intMax]; omega
  exact not_fieldsReturned_letters _ long (claim.1 0 _ separated)

end PersistentBTree.Queries
