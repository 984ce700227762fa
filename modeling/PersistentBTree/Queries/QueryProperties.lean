import PersistentBTree.Queries.Database
import PersistentBTree.Queries.StringParserProperties

/-! How a query is read word by word. The parser sees of the query what an `int`
can index, and may see it cut off in the middle of a word. -/

set_option autoImplicit false

namespace PersistentBTree.Queries

open Imperative StringParser

theorem replaceEach_eq_map {str : Text} (change : Char → Char) (short : str.length ≤ intMax) :
    replaceEach change str = str.map change := by
  rw [replaceEach, intLength_of_le short, Int.toNat_natCast, List.take_length, List.drop_length,
    List.append_nil]

/-- What a run of `next` has read. -/
theorem read_of_next {parser : StringParser} {post : Text → StringParser → Prop}
    (runs : Runs next parser post) :
    Passable parser.str parser.rest ∧ ∃ final, final.str = parser.str ∧
      final.rest = ((nextOf parser.rest).getD ([], [])).2 ∧
      post ((nextOf parser.rest).getD ([], [])).1 final := by
  rcases next_runsIf parser with ⟨passable, reads⟩ | ⟨-, faults⟩
  · obtain ⟨result, final, -, ⟨same, read⟩, holds⟩ := reads.and runs
    rw [← read]
    exact ⟨passable, final, same, rfl, holds⟩
  · exact absurd faults runs.not_faults

section Reading

variable {β : Type} {parser : StringParser} {heap : Heap} {rest : Text × StringParser → Querying β}
  {post : β → Heap → Prop} {field more : Text}

theorem run_next_bind (short : (intLength parser.str).toNat < intMax)
    (reads : nextOf parser.rest = some (field, more)) :
    ∃ final : StringParser, final.str = parser.str ∧ final.rest = more ∧
      ∀ (heap : Heap) (rest : Text × StringParser → Querying β),
        (runOn next parser >>= rest).run heap = (rest (field, final)).run heap := by
  obtain ⟨result, final, returned, same, read⟩ := next_runs short
  rw [reads, Option.getD_some, Prod.mk.injEq] at read
  refine ⟨final, same, read.2, fun heap rest => ?_⟩
  rw [← read.1]
  apply run_bind_ok
  rw [run_runOn, returned]
  rfl

theorem run_hasNext_bind (parser : StringParser) :
    ∃ final : StringParser, final.str = parser.str ∧ nextOf final.rest = nextOf parser.rest ∧
      ∀ (heap : Heap) (rest : Bool × StringParser → Querying β),
        (runOn hasNext parser >>= rest).run heap =
          (rest ((nextOf parser.rest).isSome, final)).run heap := by
  obtain ⟨result, final, returned, same, read, found⟩ := hasNext_nextOf parser
  have isSome : (nextOf parser.rest).isSome = result := by
    rw [Bool.eq_iff_iff, found, Option.isSome_iff_ne_none]
  refine ⟨final, same, read, fun heap rest => ?_⟩
  rw [isSome]
  apply run_bind_ok
  rw [run_runOn, returned]
  rfl

theorem runs_next_bind (short : (intLength parser.str).toNat < intMax)
    (reads : nextOf parser.rest = some (field, more))
    (goesOn : ∀ final : StringParser, final.str = parser.str → final.rest = more →
      Runs (rest (field, final)) heap post) :
    Runs (runOn next parser >>= rest) heap post := by
  rw [runs_bind, runs_runOn]
  apply (next_runs short).mono
  intro result final ⟨same, read⟩
  rw [reads, Option.getD_some, Prod.mk.injEq] at read
  rw [read.1]
  exact goesOn final same read.2

/-- What a query that read a field and went on has read. -/
theorem read_of_next_bind (front : (nextOf parser.rest).getD ([], []) = (field, more))
    (runs : Runs (runOn next parser >>= rest) heap post) :
    Passable parser.str parser.rest ∧ ∃ final : StringParser, final.str = parser.str ∧
      final.rest = more ∧ Runs (rest (field, final)) heap post := by
  rw [runs_bind, runs_runOn] at runs
  have read := read_of_next runs
  rwa [front] at read

end Reading

/-- The front of a word is a word. -/
def Word.take (word : Word) {count : Nat} (positive : 0 < count) : Word where
  text := word.text.take count
  nonempty := by simp [word.nonempty, Nat.ne_of_gt positive]
  noSpace inside := word.noSpace (List.mem_of_mem_take inside)
  unquoted := by rw [List.head?_take, if_neg (Nat.ne_of_gt positive)]; exact word.unquoted

/-- A text that begins with a word and is cut off somewhere. -/
theorem nextOf_take (word : Word) {after : Text} (closed : ∀ char ∈ after.head?, char = ' ')
    {count : Nat} (positive : 0 < count) :
    nextOf ((word.text ++ after).take count) =
      some (word.text.take count, (after.drop 1).take (count - word.text.length - 1)) := by
  have closedCut : ∀ char ∈ (after.take (count - word.text.length)).head?, char = ' ' := by
    intro char first
    rw [List.head?_take] at first
    split at first
    · cases first
    · exact closed char first
  rw [List.take_append, ← List.drop_take]
  exact nextOf_word (word.take positive) closedCut

/-- What `next` returns at the front of such a text, also when nothing is left of it. -/
theorem getD_nextOf_take (word : Word) {after : Text} (closed : ∀ char ∈ after.head?, char = ' ')
    (count : Nat) :
    (nextOf ((word.text ++ after).take count)).getD ([], []) =
      (word.text.take count, (after.drop 1).take (count - word.text.length - 1)) := by
  rcases Nat.eq_zero_or_pos count with rfl | positive
  · simp [nextOf, skipSpaces]
  · rw [nextOf_take word closed positive, Option.getD_some]

/-- A word at the end of the text can only be passed when the text is short. -/
theorem short_of_passable {str : Text} (word : Word) (passable : Passable str word.text) :
    (intLength str).toNat < intMax := by
  obtain ⟨text, nonempty, noSpace, unquoted⟩ := word
  obtain ⟨char, more, rfl⟩ := List.exists_cons_of_ne_nil nonempty
  have visible : char ≠ ' ' := fun same => noSpace (by simp [same])
  have plain : char ≠ '\'' := fun same => unquoted (by simp [same])
  rw [Passable, skipSpaces, List.dropWhile_cons_of_neg (by simpa using visible)] at passable
  simp only [if_neg plain] at passable
  exact passable.resolve_right noSpace

/-- A text that is seen nearly to its end is seen whole. -/
theorem length_le_of_seen {str : Text} (some : 0 < (intLength str).toNat)
    (nearly : str.length ≤ (intLength str).toNat + 10) : str.length = (intLength str).toNat := by
  simp only [intLength] at some nearly ⊢
  split at some <;> omega

/-- The tokens of a text are the runs of its letters and digits. -/
theorem tokenize_runs {text : Text} (short : text.length < intMax) :
    Runs (tokenize (text.length + 1)) (ofText text) fun result _ =>
      result = fieldsOf (text.map blank) := by
  have atMost := Nat.le_of_lt short
  rw [tokenize, runs_bind, runs_modify]
  change Runs _ (ofText (replaceEach blank text)) _
  rw [replaceEach_eq_map blank atMost]
  have size : (text.map blank).length = text.length := List.length_map ..
  have left : (ofText (text.map blank)).rest = text.map blank := rest_ofText (by rwa [size])
  have seenShort : (intLength (ofText (text.map blank)).str).toNat < intMax := by
    change (intLength (text.map blank)).toNat < intMax
    rwa [intLength_of_le (by rwa [size]), Int.toNat_natCast, size]
  have runs := @nextAll_runs (text.length + 1) _ seenShort (by rw [left, size]; exact Nat.lt_succ_self _)
  rwa [left] at runs

end PersistentBTree.Queries
