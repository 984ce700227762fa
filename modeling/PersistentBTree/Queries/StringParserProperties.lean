import PersistentBTree.Queries.StringParser

/-! The word splitter reads a text field by field. `nextOf` is one call of `next`
on the text that is left; the parser, whose cursor may stand behind the end, does
the same on the part of the string that an `int` can index. -/

set_option autoImplicit false

namespace PersistentBTree.Queries

open Imperative

/-! ## Fields of a text -/

/-- The text before the first `stop`, and the text behind it. -/
def cutAt (stop : Char) (text : Text) : Text × Text :=
  (text.takeWhile (· != stop), (text.dropWhile (· != stop)).drop 1)

def skipSpaces (text : Text) : Text := text.dropWhile (· == ' ')

/-- The next field of a text and what follows it. -/
def nextOf (text : Text) : Option (Text × Text) :=
  match skipSpaces text with
  | [] => none
  | char :: more => some (if char = '\'' then cutAt '\'' more else cutAt ' ' (char :: more))

theorem length_skipSpaces_le (text : Text) : (skipSpaces text).length ≤ text.length :=
  (List.dropWhile_suffix _).length_le

theorem length_cutAt_le (stop : Char) (text : Text) :
    (cutAt stop text).2.length ≤ text.length - 1 := by
  have left := (List.dropWhile_suffix (fun char => char != stop) : _ <:+ text).length_le
  simp only [cutAt, List.length_drop]
  omega

/-- A character is not a space when the spaces before it have been skipped. -/
theorem head_ne_space {text more : Text} {char : Char} (found : skipSpaces text = char :: more) :
    char ≠ ' ' := by
  have stops := List.head?_dropWhile_not (· == ' ') text
  rw [← skipSpaces, found] at stops
  simpa using stops

theorem length_lt_of_nextOf {text field more : Text} (found : nextOf text = some (field, more)) :
    more.length < text.length := by
  have skipped := length_skipSpaces_le text
  unfold nextOf at found
  cases left : skipSpaces text with
  | nil =>
      rw [left] at found
      cases found
  | cons char rest =>
      rw [left] at found skipped
      simp only [Option.some.injEq] at found
      have quoted := length_cutAt_le '\'' rest
      have bare := length_cutAt_le ' ' (char :: rest)
      have same : more = (if char = '\'' then cutAt '\'' rest else cutAt ' ' (char :: rest)).2 := by
        rw [found]
      simp only [List.length_cons] at skipped bare
      split at same
      · rw [same]
        omega
      · rw [same]
        omega

/-- The fields of a text, in order. -/
def fieldsOf (text : Text) : List Text :=
  match _found : nextOf text with
  | none => []
  | some (field, more) => field :: fieldsOf more
termination_by text.length
decreasing_by exact length_lt_of_nextOf _found

theorem fieldsOf_of_none {text : Text} (last : nextOf text = none) : fieldsOf text = [] := by
  rw [fieldsOf]
  split
  · rfl
  · next found => simp [last] at found

theorem fieldsOf_of_some {text field more : Text} (found : nextOf text = some (field, more)) :
    fieldsOf text = field :: fieldsOf more := by
  rw [fieldsOf]
  split
  · next last => simp [last] at found
  · next found' =>
      rw [found] at found'
      cases found'
      rfl

@[simp] theorem skipSpaces_skipSpaces (text : Text) :
    skipSpaces (skipSpaces text) = skipSpaces text := by
  cases left : skipSpaces text with
  | nil => rfl
  | cons char more => simp [skipSpaces, head_ne_space left]

theorem nextOf_eq_none_iff (text : Text) : nextOf text = none ↔ skipSpaces text = [] := by
  unfold nextOf
  cases skipSpaces text <;> simp

/-- Up to the first `stop` a text without one is cut off whole. -/
theorem cutAt_append {stop : Char} {text : Text} (absent : stop ∉ text) (after : Text) :
    cutAt stop (text ++ after) = (text ++ (cutAt stop after).1, (cutAt stop after).2) := by
  have goesOn : ∀ char ∈ text, (char != stop) = true := by
    intro char inside
    have differs : char ≠ stop := fun same => absent (same ▸ inside)
    simpa using differs
  rw [cutAt, List.takeWhile_append_of_pos goesOn, List.dropWhile_append_of_pos goesOn, cutAt]

/-- A text that can stand in a query as it is. -/
structure Word where
  text : Text
  nonempty : text ≠ []
  noSpace : ' ' ∉ text
  unquoted : text.head? ≠ some '\''

theorem nextOf_word (word : Word) {after : Text} (closed : ∀ char ∈ after.head?, char = ' ') :
    nextOf (word.text ++ after) = some (word.text, after.drop 1) := by
  obtain ⟨text, nonempty, noSpace, unquoted⟩ := word
  obtain ⟨char, more, rfl⟩ := List.exists_cons_of_ne_nil nonempty
  have visible : char ≠ ' ' := fun same => noSpace (by simp [same])
  have plain : char ≠ '\'' := fun same => unquoted (by simp [same])
  have ends : cutAt ' ' after = ([], after.drop 1) := by
    cases after with
    | nil => rfl
    | cons first rest => simp [cutAt, closed first (by simp)]
  have read := cutAt_append noSpace after
  rw [ends, List.append_nil] at read
  simp only [nextOf, skipSpaces, List.cons_append] at read ⊢
  rw [List.dropWhile_cons_of_neg (by simpa using visible)]
  simp only [if_neg plain, read]

/-- A quoted field is read up to the closing quote. -/
theorem nextOf_quoted {text : Text} (noQuote : '\'' ∉ text) (after : Text) :
    nextOf ('\'' :: (text ++ '\'' :: after)) = some (text, after) := by
  have read : cutAt '\'' (text ++ '\'' :: after) = (text, after) := by
    rw [cutAt_append noQuote]
    simp [cutAt]
  rw [nextOf, skipSpaces, List.dropWhile_cons_of_neg (by simp)]
  simp only [if_true, read]

theorem fieldsOf_congr {text other : Text} (same : nextOf text = nextOf other) :
    fieldsOf text = fieldsOf other := by
  cases found : nextOf text with
  | none => rw [fieldsOf_of_none found, fieldsOf_of_none (same.symm.trans found)]
  | some fieldMore =>
      obtain ⟨field, more⟩ := fieldMore
      rw [fieldsOf_of_some found, fieldsOf_of_some (same.symm.trans found)]

theorem nextOf_cons_space (text : Text) : nextOf (' ' :: text) = nextOf text := by
  rw [nextOf, nextOf, skipSpaces, List.dropWhile_cons_of_pos (by simp), ← skipSpaces]

theorem fieldsOf_cons_space (text : Text) : fieldsOf (' ' :: text) = fieldsOf text :=
  fieldsOf_congr (nextOf_cons_space text)

theorem length_fieldsOf_le (text : Text) : (fieldsOf text).length ≤ text.length := by
  induction text using fieldsOf.induct with
  | case1 text last => simp [fieldsOf_of_none last]
  | case2 text field more found ih =>
      have fewer := length_lt_of_nextOf found
      rw [fieldsOf_of_some found, List.length_cons]
      omega

/-! ## The parser -/

theorem intLength_le_intMax (str : Text) : (intLength str).toNat ≤ intMax := by
  simp only [intLength]
  split <;> omega

theorem intLength_le_length (str : Text) : (intLength str).toNat ≤ str.length := by
  have wrapped := Nat.mod_le str.length (2 ^ 32)
  simp only [intLength]
  split <;> omega

/-- A text that an `int` can index is seen whole. -/
theorem intLength_of_le {str : Text} (short : str.length ≤ intMax) :
    intLength str = str.length := by
  have small : str.length < 2 ^ 32 := Nat.lt_of_le_of_lt short (by simp only [intMax]; omega)
  simp only [intLength, Nat.mod_eq_of_lt small, if_pos short]

namespace StringParser

/-- The part of the string that the `int` length covers. -/
def seen (str : Text) : Text := str.take (intLength str).toNat

/-- The text that is left to read. -/
def rest (parser : StringParser) : Text := (seen parser.str).drop parser.idx

theorem rest_ofText {text : Text} (short : text.length ≤ intMax) : (ofText text).rest = text := by
  rw [rest, ofText, List.drop_zero, seen, intLength_of_le short, Int.toNat_natCast,
    List.take_length]

theorem length_seen (str : Text) : (seen str).length = (intLength str).toNat := by
  rw [seen, List.length_take, Nat.min_eq_left (intLength_le_length str)]

theorem advance_le_intMax (goesOn : Char → Bool) (parser : StringParser) :
    advance goesOn parser.str parser.idx ≤ intMax :=
  Nat.le_trans scan_le_max (max_le parser.inRange (intLength_le_intMax _))

theorem runs_setIdx {idx : Nat} {parser : StringParser} {post : PUnit → StringParser → Prop}
    (inRange : idx ≤ intMax) (holds : post ⟨⟩ { parser with idx, inRange }) :
    Runs (setIdx idx) parser post := by
  rw [setIdx, dif_pos inRange, runs_modify]
  exact holds

/-- `hasNext` skips the spaces and says whether a field is left. -/
theorem hasNext_runs (parser : StringParser) :
    Runs hasNext parser fun result final =>
      final.str = parser.str ∧ final.rest = skipSpaces parser.rest ∧
        (result = true ↔ final.idx < (intLength parser.str).toNat) := by
  simp only [hasNext, runs_bind, runs_get]
  apply runs_setIdx (advance_le_intMax ..)
  simp only [runs_pure, decide_eq_true_eq]
  refine ⟨trivial, drop_scan, ?_⟩
  omega

/-- A field is left when the cursor is inside the text. -/
theorem rest_ne_nil_iff (parser : StringParser) :
    parser.rest ≠ [] ↔ parser.idx < (intLength parser.str).toNat := by
  rw [rest, ne_eq, List.drop_eq_nil_iff, length_seen, Nat.not_le]

/-- `hasNext` leaves the next field as it was. -/
theorem hasNext_nextOf (parser : StringParser) :
    Runs hasNext parser fun result final =>
      final.str = parser.str ∧ nextOf final.rest = nextOf parser.rest ∧
        (result = true ↔ nextOf parser.rest ≠ none) := by
  apply (hasNext_runs parser).mono
  intro result final ⟨same, skipped, more⟩
  refine ⟨same, ?_, ?_⟩
  · rw [nextOf, nextOf, skipped, skipSpaces_skipSpaces]
  · rw [more, ← same, ← rest_ne_nil_iff, skipped, ne_eq, ne_eq, nextOf_eq_none_iff]

section Advance

variable {goesOn : Char → Bool} {str : Text} {start : Nat}

theorem advance_le (inside : start ≤ (intLength str).toNat) :
    advance goesOn str start ≤ (intLength str).toNat :=
  scan_le inside

theorem drop_advance : (seen str).drop (advance goesOn str start + 1) =
    (((seen str).drop start).dropWhile goesOn).drop 1 := by
  rw [seen, advance, ← List.drop_drop, drop_scan]

/-- The substring of a field is taken from inside the string. -/
theorem substr_advance (inside : start ≤ (intLength str).toNat) :
    substr str start (advance goesOn str start - start) =
      some (((seen str).drop start).takeWhile goesOn) := by
  have within : start ≤ str.length := Nat.le_trans inside (intLength_le_length str)
  rw [substr, if_pos within, seen, advance, take_scan inside]

end Advance

theorem rest_eq_cons {parser : StringParser} {char : Char} {more : Text}
    (left : parser.rest = char :: more) :
    parser.str[parser.idx]? = some char ∧ parser.idx < (intLength parser.str).toNat ∧
      (seen parser.str).drop (parser.idx + 1) = more := by
  have inside : parser.idx < (intLength parser.str).toNat :=
    (rest_ne_nil_iff parser).mp (by simp [left])
  have first : (seen parser.str)[parser.idx]? = some char := by
    rw [← List.head?_drop, ← rest, left, List.head?_cons]
  refine ⟨?_, inside, ?_⟩
  · rwa [seen, List.getElem?_take_of_lt inside] at first
  · rw [← List.drop_drop, ← rest, left, List.drop_one, List.tail_cons]

/-- The cursor passes the end of a field when the field is closed, or the text is
shorter than the largest `int`. -/
def Passes (str : Text) (searchChar : Char) (field : Text) : Prop :=
  (intLength str).toNat < intMax ∨ searchChar ∈ field

theorem advance_lt_intMax_iff {str : Text} {start : Nat} (searchChar : Char)
    (inside : start ≤ (intLength str).toNat) :
    advance (· != searchChar) str start < intMax ↔
      Passes str searchChar ((seen str).drop start) := by
  have stops : advance (· != searchChar) str start < (intLength str).toNat ↔
      ∃ char ∈ (seen str).drop start, (char != searchChar) = false :=
    scan_lt_iff inside (intLength_le_length str)
  have atMost := @advance_le (· != searchChar) _ _ inside
  have most := intLength_le_intMax str
  simp only [bne_eq_false_iff_eq, exists_eq_right] at stops
  rw [Passes, ← stops]
  omega

/-- The text from `start` to the next `searchChar` is read, and the character
behind it passed. -/
theorem nextFrom_runs {parser : StringParser} {start : Nat} (searchChar : Char)
    (inside : start ≤ (intLength parser.str).toNat) :
    RunsIf (Passes parser.str searchChar ((seen parser.str).drop start))
      (nextFrom start searchChar) parser fun result final =>
        final.str = parser.str ∧
          (result, final.rest) = cutAt searchChar ((seen parser.str).drop start) := by
  have stops := Nat.le_trans inside (intLength_le_intMax _)
  apply RunsIf.after
  apply runs_setIdx stops
  apply RunsIf.after
  rw [runs_get]
  apply RunsIf.after
  rw [runs_orFault]
  refine ⟨_, substr_advance inside, ?_⟩
  rw [← advance_lt_intMax_iff searchChar inside]
  by_cases passes : advance (· != searchChar) parser.str start < intMax
  · refine .of_runs ?_ passes
    rw [runs_bind]
    apply runs_setIdx passes
    rw [runs_pure, rest, drop_advance, cutAt]
    exact ⟨rfl, rfl⟩
  · refine .inr ⟨passes, .bind ?_⟩
    rw [setIdx, dif_neg (by exact passes)]
    exact faults_throw ..

/-- The first field of the text can be passed. -/
def Passable (str text : Text) : Prop :=
  match skipSpaces text with
  | [] => True
  | char :: more => if char = '\'' then Passes str '\'' more else Passes str ' ' (char :: more)

/-- `next` reads the first field of the text that is left. -/
theorem next_runsIf (parser : StringParser) :
    RunsIf (Passable parser.str parser.rest) next parser fun result final =>
      final.str = parser.str ∧ (result, final.rest) = (nextOf parser.rest).getD ([], []) := by
  apply RunsIf.after
  apply (hasNext_runs parser).mono
  intro found middle ⟨same, skipped, more⟩
  rw [← same, ← rest_ne_nil_iff] at more
  rw [nextOf, Passable, ← skipped, ← same]
  cases left : middle.rest with
  | nil =>
      rw [if_neg (by simp [more, left])]
      exact .of_runs ((runs_pure ..).mpr ⟨rfl, by rw [left, Option.getD_none]⟩) trivial
  | cons char text =>
      obtain ⟨first, inside, behind⟩ := rest_eq_cons left
      rw [if_pos (more.mpr (by simp [left]))]
      apply RunsIf.after
      rw [runs_get, first]
      by_cases quote : char = '\''
      · simp only [quote, if_true, Option.getD_some]
        rw [← behind]
        exact nextFrom_runs _ inside
      · simp only [Option.some.injEq, quote, if_false, Option.getD_some]
        rw [← left]
        exact nextFrom_runs _ (Nat.le_of_lt inside)

theorem passable_of_lt {str : Text} (short : (intLength str).toNat < intMax) (text : Text) :
    Passable str text := by
  unfold Passable
  split
  · trivial
  · split <;> exact .inl short

theorem next_runs {parser : StringParser} (short : (intLength parser.str).toNat < intMax) :
    Runs next parser fun result final =>
      final.str = parser.str ∧ (result, final.rest) = (nextOf parser.rest).getD ([], []) :=
  (next_runsIf parser).runs (passable_of_lt short _)

theorem faultsOnly_setIdx (idx : Nat) (parser : StringParser) :
    FaultsOnly (· = .overflow) (setIdx idx) parser := by
  by_cases inRange : idx ≤ intMax
  · have runs : Runs (setIdx idx) parser fun _ _ => True := runs_setIdx inRange trivial
    exact .of_runs runs
  · rw [setIdx, dif_neg inRange]
    exact .of_error rfl rfl

theorem nextFrom_faultsOnly {parser : StringParser} {start : Nat} (searchChar : Char)
    (inside : start ≤ (intLength parser.str).toNat) :
    FaultsOnly (· = .overflow) (nextFrom start searchChar) parser := by
  apply FaultsOnly.after
  apply runs_setIdx (Nat.le_trans inside (intLength_le_intMax _))
  apply FaultsOnly.after
  rw [runs_get]
  apply FaultsOnly.after
  rw [runs_orFault]
  refine ⟨_, substr_advance inside, ?_⟩
  exact FaultsOnly.bind (faultsOnly_setIdx _ _) fun _ _ => .pure

/-- However long the string is, no substring is taken from beyond its end. -/
theorem next_faultsOnly (parser : StringParser) : FaultsOnly (· = .overflow) next parser := by
  apply FaultsOnly.after
  apply (hasNext_runs parser).mono
  intro found middle ⟨same, skipped, more⟩
  rw [← same] at more
  cases found with
  | false => exact .pure
  | true =>
      have inside := more.mp rfl
      rw [if_pos rfl]
      apply FaultsOnly.after
      rw [runs_get]
      split
      · exact nextFrom_faultsOnly _ inside
      · exact nextFrom_faultsOnly _ (Nat.le_of_lt inside)

theorem nextAll_faultsOnly (fuel : Nat) (parser : StringParser) :
    FaultsOnly (fun fault => fault = .overflow ∨ fault = .outOfFuel) (nextAll fuel) parser := by
  induction fuel generalizing parser with
  | zero => exact .of_error rfl (.inr rfl)
  | succ fuel ih =>
      apply FaultsOnly.after
      apply (hasNext_runs parser).mono
      intro found middle _
      cases found with
      | false => exact .pure
      | true =>
          rw [if_pos rfl]
          have onlyNext : FaultsOnly (fun fault => fault = .overflow ∨ fault = .outOfFuel)
              next middle := (next_faultsOnly middle).mono fun _ => Or.inl
          apply onlyNext.bind
          intro _ after
          exact (ih after).bind fun _ _ => .pure

theorem tokenize_faultsOnly (fuel : Nat) (parser : StringParser) :
    FaultsOnly (fun fault => fault = .overflow ∨ fault = .outOfFuel) (tokenize fuel) parser := by
  apply FaultsOnly.after
  rw [runs_modify]
  exact nextAll_faultsOnly fuel _

/-- The loop reads all fields of the text that is left. Every round takes at
least one character. -/
theorem nextAll_runs {fuel : Nat} {parser : StringParser}
    (short : (intLength parser.str).toNat < intMax) (enough : parser.rest.length < fuel) :
    Runs (nextAll fuel) parser fun result _ => result = fieldsOf parser.rest := by
  induction fuel generalizing parser with
  | zero => exact absurd enough (Nat.not_lt_zero _)
  | succ fuel ih =>
      rw [nextAll, runs_bind]
      apply (hasNext_runs parser).mono
      intro found middle ⟨same, skipped, more⟩
      rw [← same, ← rest_ne_nil_iff, skipped] at more
      have again : nextOf middle.rest = nextOf parser.rest := by
        rw [nextOf, nextOf, skipped, skipSpaces_skipSpaces]
      cases next : nextOf parser.rest with
      | none =>
          rw [nextOf_eq_none_iff] at next
          rw [if_neg (by simp [more, next]), runs_pure, fieldsOf_of_none]
          rwa [nextOf_eq_none_iff]
      | some fieldMore =>
          obtain ⟨field, text⟩ := fieldMore
          have left : skipSpaces parser.rest ≠ [] := by
            simp [← nextOf_eq_none_iff, next]
          rw [if_pos (more.mpr left), runs_bind]
          apply (next_runs (by rwa [same])).mono
          intro result after ⟨kept, read⟩
          rw [again, next, Option.getD_some, Prod.mk.injEq] at read
          have fewer := length_lt_of_nextOf next
          rw [runs_bind]
          apply (ih (by rwa [kept, same]) (by rw [read.2]; omega)).mono
          intro results final rest
          rw [runs_pure, fieldsOf_of_some next, read.1, rest, read.2]

end StringParser

end PersistentBTree.Queries
