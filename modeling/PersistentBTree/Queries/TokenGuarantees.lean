import PersistentBTree.Imperative.Intervals
import PersistentBTree.Queries.QueryProperties

/-! The tokens of a text are its maximal runs of letters and digits. The cursor of the
parser is an `int`, so that a run has to end in a position that an `int` can pass. -/

set_option autoImplicit false

namespace PersistentBTree.Queries

open Imperative StringParser

/-- The tokens are all maximal runs of letters and digits of the text, in order. -/
def MaximalRuns (text : Text) (tokens : List Text) : Prop :=
  ∃ spans, ListsIntervals (PassesAt isalnum text) 0 spans ∧ tokens = spans.map (itemsIn text)

/-- `tokenize` ends and returns the maximal runs of the string, whatever was read from the
parser before. -/
def Tokenizes (parser : StringParser) : Prop :=
  ∃ fuel, Runs (tokenize fuel) parser fun tokens _ => MaximalRuns parser.str tokens

/-- Every letter and digit stands before the end of the string as an `int` gives it, and
the cursor can pass the position behind it. -/
def Countable (str : Text) : Prop :=
  ∀ i, PassesAt isalnum str i → i < (intLength str).toNat ∧ i + 1 < intMax

/-! ## Blanked texts -/

theorem blank_of_isalnum {char : Char} (alnum : isalnum char = true) : blank char = char :=
  if_pos alnum

theorem blank_beq_space (char : Char) : (blank char == ' ') = !isalnum char := by
  cases alnum : isalnum char with
  | false => simp [blank, alnum]
  | true =>
      have visible : char ≠ ' ' := by
        intro same
        rw [same] at alnum
        cases alnum
      simpa [blank_of_isalnum alnum] using visible

theorem blank_ne_quote (char : Char) : blank char ≠ '\'' := by
  cases alnum : isalnum char with
  | false => simp [blank, alnum]
  | true =>
      rw [blank_of_isalnum alnum]
      intro same
      rw [same] at alnum
      cases alnum

theorem map_blank_takeWhile (text : Text) :
    (text.takeWhile isalnum).map blank = text.takeWhile isalnum := by
  rw [List.map_congr_left fun char among => blank_of_isalnum (List.mem_takeWhile_imp among)]
  exact List.map_id _

theorem cutAt_map_blank (text : Text) :
    cutAt ' ' (text.map blank) =
      (text.takeWhile isalnum, ((text.dropWhile isalnum).drop 1).map blank) := by
  have goesOn : (fun char => char != ' ') ∘ blank = isalnum := by
    funext char
    change (!(blank char == ' ')) = isalnum char
    rw [blank_beq_space, Bool.not_not]
  rw [cutAt, List.takeWhile_map, List.dropWhile_map, goesOn, map_blank_takeWhile, List.map_drop]

theorem skipSpaces_map_blank (text : Text) :
    skipSpaces (text.map blank) = (text.dropWhile fun char => !isalnum char).map blank := by
  have goesOn : (fun char => char == ' ') ∘ blank = fun char => !isalnum char :=
    funext blank_beq_space
  rw [skipSpaces, List.dropWhile_map, goesOn]

theorem nextOf_map_blank {text more : Text} {char : Char}
    (left : (text.dropWhile fun char => !isalnum char) = char :: more) :
    nextOf (text.map blank) = some ((char :: more).takeWhile isalnum,
      (((char :: more).dropWhile isalnum).drop 1).map blank) := by
  have cut := cutAt_map_blank (char :: more)
  rw [List.map_cons] at cut
  rw [nextOf, skipSpaces_map_blank, left, List.map_cons]
  simp only [if_neg (blank_ne_quote char), cut]

/-- The fields of a blanked text from a position on are the maximal runs from there on. -/
theorem fieldsOf_map_blank (text : Text) (start : Nat)
    (opened : ∀ i, i + 1 = start → ¬ PassesAt isalnum text i) :
    ∃ spans, ListsIntervals (PassesAt isalnum text) start spans ∧
      fieldsOf ((text.drop start).map blank) = spans.map (itemsIn text) := by
  induction behind : text.length - start using Nat.strong_induction_on generalizing start with
  | _ count ih =>
  have skipped := drop_length_takeWhile (fun char => !isalnum char) (text.drop start)
  cases left : (text.drop start).dropWhile fun char => !isalnum char with
  | nil =>
      refine ⟨[], .nil fun i from_ passes => ?_, ?_⟩
      · obtain ⟨i, rfl⟩ := Nat.exists_eq_add_of_le from_
        rw [← passesAt_drop, PassesAt, Option.any_eq_true] at passes
        obtain ⟨char, here, alnum⟩ := passes
        have fails := List.dropWhile_eq_nil_iff.mp left char (List.mem_of_getElem? here)
        rw [alnum] at fails
        cases fails
      · apply fieldsOf_of_none
        rw [nextOf_eq_none_iff, skipSpaces_map_blank, left, List.map_nil]
  | cons char more =>
      obtain ⟨first, isFirst⟩ : ∃ first, first =
        start + ((text.drop start).takeWhile fun char => !isalnum char).length := ⟨_, rfl⟩
      obtain ⟨stop, isStop⟩ : ∃ stop, stop =
        first + ((text.drop first).takeWhile isalnum).length := ⟨_, rfl⟩
      have here : text.drop first = char :: more := by
        rw [isFirst, ← List.drop_drop, skipped, left]
      have passes : PassesAt isalnum text first := by
        have stops := List.head?_dropWhile_not (fun char => !isalnum char) (text.drop start)
        rw [left] at stops
        rw [PassesAt, ← List.head?_drop, here]
        simpa using stops
      have after : (text.drop first).dropWhile isalnum = text.drop stop := by
        rw [isStop, ← List.drop_drop, drop_length_takeWhile]
      have closed : ¬ PassesAt isalnum text stop := by
        rw [isStop, ← passesAt_drop]
        exact not_passesAt_length_takeWhile
      have fewer : text.length - (stop + 1) < count := by
        have inside := passes.lt_length
        omega
      have opened' : ∀ i, i + 1 = stop + 1 → ¬ PassesAt isalnum text i := by
        intro i same
        cases same
        exact closed
      obtain ⟨spans, lists, read⟩ := ih _ fewer (stop + 1) opened' rfl
      refine ⟨(first, stop) :: spans, .cut opened isFirst isStop passes lists, ?_⟩
      rw [fieldsOf_of_some (nextOf_map_blank left), List.map_cons, ← read, ← here, after,
        List.drop_drop, itemsIn, isStop, Nat.add_sub_cancel_left]
      congr 1
      exact List.prefix_iff_eq_take.mp (List.takeWhile_prefix isalnum)

/-! ## The parser on a text without quotes -/

/-- The cursor passes the end of the last field. -/
def Closed (str left : Text) : Prop :=
  (intLength str).toNat < intMax ∨ ∀ char ∈ left.getLast?, char = ' '

theorem closed_cons_iff (str before left : Text) (char : Char) :
    Closed str (before ++ char :: left) ↔ Closed str (char :: left) := by
  rw [Closed, Closed, List.getLast?_append_cons]

theorem closed_of_spaces {str left : Text} (spaces : skipSpaces left = []) : Closed str left := by
  refine .inr fun char last => ?_
  have isSpace := List.dropWhile_eq_nil_iff.mp spaces char (List.mem_of_getLast? last)
  simpa using isSpace

/-- The end of the last field is passed when that of the first field is, and those of the
fields behind it are. -/
theorem closed_iff_cutAt {str left : Text} (some_ : left ≠ []) :
    Passes str ' ' left ∧ Closed str (cutAt ' ' left).2 ↔ Closed str left := by
  by_cases short : (intLength str).toNat < intMax
  · exact ⟨fun _ => .inl short, fun _ => ⟨.inl short, .inl short⟩⟩
  · by_cases space : ' ' ∈ left
    · have stops : ∃ more, left.dropWhile (fun char => char != ' ') = ' ' :: more := by
        cases after : left.dropWhile fun char => char != ' ' with
        | nil => simpa using List.dropWhile_eq_nil_iff.mp after ' ' space
        | cons char more =>
            have ends := List.head?_dropWhile_not (fun char => char != ' ') left
            rw [after] at ends
            have same : char = ' ' := by simpa using ends
            exact ⟨more, by rw [same]⟩
      obtain ⟨more, after⟩ := stops
      have whole := @List.takeWhile_append_dropWhile _ (fun char => char != ' ') left
      rw [after] at whole
      rw [cutAt, after, List.drop_one, List.tail_cons, ← whole, closed_cons_iff, whole]
      have passes : Passes str ' ' left := .inr space
      cases more with
      | nil => simp [passes, Closed]
      | cons next more =>
          rw [and_iff_right passes]
          exact (closed_cons_iff str [' '] more next).symm
    · have stuck : ¬ Passes str ' ' left := fun passes => passes.elim short space
      refine ⟨fun both => absurd both.1 stuck, fun closed => ?_⟩
      have last := closed.resolve_left short (left.getLast some_) (List.getLast?_eq_some_getLast some_)
      exact absurd (last ▸ List.getLast_mem some_) space

/-- The loop needs a round for each field, and one to see that there is no more. -/
theorem nextAll_runsIf {fuel : Nat} {parser : StringParser} (noQuote : '\'' ∉ parser.rest) :
    RunsIf (Closed parser.str parser.rest ∧ (fieldsOf parser.rest).length < fuel)
      (nextAll fuel) parser fun result _ => result = fieldsOf parser.rest := by
  induction fuel generalizing parser with
  | zero => exact .inr ⟨fun both => absurd both.2 (Nat.not_lt_zero _), faults_throw ..⟩
  | succ fuel ih =>
      apply RunsIf.after
      apply (hasNext_runs parser).mono
      intro found middle reached
      obtain ⟨same, skipped, more⟩ := reached
      rw [← same, ← rest_ne_nil_iff, skipped] at more
      cases left : skipSpaces parser.rest with
      | nil =>
          have none_ := fieldsOf_of_none ((nextOf_eq_none_iff parser.rest).mpr left)
          rw [if_neg (by simp [more, left]), none_]
          exact .of_runs ((runs_pure ..).mpr rfl) ⟨closed_of_spaces left, Nat.succ_pos _⟩
      | cons char text =>
          have suffix : char :: text <:+ parser.rest := left ▸ List.dropWhile_suffix _
          have plain : char ≠ '\'' := by
            intro quote
            exact noQuote (suffix.mem (quote ▸ List.mem_cons_self))
          have first : nextOf parser.rest = some (cutAt ' ' (char :: text)) := by
            simp only [nextOf, left, if_neg plain]
          have again : nextOf middle.rest = some (cutAt ' ' (char :: text)) := by
            rw [← first, nextOf, nextOf, skipped, skipSpaces_skipSpaces]
          have passable : Passable middle.str middle.rest ↔ Passes parser.str ' ' (char :: text) := by
            have settled : skipSpaces (char :: text) = char :: text := by
              rw [← left, skipSpaces_skipSpaces]
            simp only [Passable, skipped, left, settled, if_neg plain, same]
          have unquoted : '\'' ∉ (cutAt ' ' (char :: text)).2 := fun quote =>
            noQuote (suffix.mem (((List.drop_suffix 1 _).trans (List.dropWhile_suffix _)).mem quote))
          rw [if_pos (more.mpr (by simp [left])), fieldsOf_of_some first]
          have second : ∀ field final, final.str = middle.str ∧
              (field, final.rest) = (nextOf middle.rest).getD ([], []) →
              RunsIf (Closed parser.str (cutAt ' ' (char :: text)).2 ∧
                (fieldsOf (cutAt ' ' (char :: text)).2).length < fuel)
                (do
                  let rest ← nextAll fuel
                  pure (field :: rest)) final fun fields _ =>
                fields = (cutAt ' ' (char :: text)).1 :: fieldsOf (cutAt ' ' (char :: text)).2 := by
            intro field final reached
            obtain ⟨kept, read⟩ := reached
            rw [again, Option.getD_some] at read
            have rest : final.rest = (cutAt ' ' (char :: text)).2 := congrArg Prod.snd read
            have isFirst : field = (cutAt ' ' (char :: text)).1 := congrArg Prod.fst read
            have runs := @ih final (rest ▸ unquoted)
            rw [rest, kept, same] at runs
            refine runs.before fun fields _ isRest => ?_
            rw [runs_pure, isFirst, isRest]
          refine ((next_runsIf middle).bind second).congr ?_
          have closed := @closed_iff_cutAt parser.str (char :: text) (by simp)
          have whole : Closed parser.str parser.rest ↔ Closed parser.str (char :: text) := by
            obtain ⟨before, whole⟩ := suffix
            rw [← whole, closed_cons_iff]
          rw [passable, ← and_assoc, closed, whole, List.length_cons, Nat.succ_lt_succ_iff]
          exact Iff.rfl

/-! ## All tokens -/

theorem length_replaceEach (change : Char → Char) (str : Text) :
    (replaceEach change str).length = str.length := by
  rw [replaceEach, List.length_append, List.length_map, ← List.length_append,
    List.take_append_drop]

theorem intLength_replaceEach (change : Char → Char) (str : Text) :
    intLength (replaceEach change str) = intLength str := by
  rw [intLength, length_replaceEach, intLength]

theorem seen_replaceEach (change : Char → Char) (str : Text) :
    seen (replaceEach change str) = (seen str).map change := by
  rw [seen, intLength_replaceEach, replaceEach, ← seen]
  apply List.take_left'
  rw [List.length_map, length_seen]

theorem tokenize_runsIf (fuel : Nat) (parser : StringParser) :
    RunsIf (Closed parser.str ((seen parser.str).map blank) ∧
        (fieldsOf ((seen parser.str).map blank)).length < fuel)
      (tokenize fuel) parser fun tokens _ => tokens = fieldsOf ((seen parser.str).map blank) := by
  have rest : (ofText (replaceEach blank parser.str)).rest = (seen parser.str).map blank := by
    rw [StringParser.rest, ofText, List.drop_zero, seen_replaceEach]
  have noQuote : '\'' ∉ (ofText (replaceEach blank parser.str)).rest := by
    rw [rest, List.mem_map]
    intro reached
    obtain ⟨char, _, quote⟩ := reached
    exact blank_ne_quote char quote
  have runs := @nextAll_runsIf fuel _ noQuote
  have closed : Closed (replaceEach blank parser.str) ((seen parser.str).map blank) ↔
      Closed parser.str ((seen parser.str).map blank) := by
    rw [Closed, intLength_replaceEach, Closed]
  rw [rest] at runs
  apply RunsIf.after
  rw [runs_modify]
  exact runs.congr (and_congr_left' closed)

theorem filter_skipSpaces (text : Text) :
    (skipSpaces text).filter (fun char => char != ' ') = text.filter fun char => char != ' ' := by
  induction text with
  | nil => rfl
  | cons char text ih =>
      by_cases space : char = ' '
      · rw [skipSpaces, List.dropWhile_cons_of_pos (by simpa using space),
          List.filter_cons_of_neg (by simpa using space)]
        exact ih
      · rw [skipSpaces, List.dropWhile_cons_of_neg (by simpa using space)]

theorem filter_cutAt (text : Text) : text.filter (fun char => char != ' ') =
    (cutAt ' ' text).1 ++ (cutAt ' ' text).2.filter fun char => char != ' ' := by
  induction text with
  | nil => rfl
  | cons char text ih =>
      by_cases space : char = ' '
      · simp [cutAt, space]
      · rw [cutAt, List.takeWhile_cons_of_pos (by simpa using space),
          List.dropWhile_cons_of_pos (by simpa using space),
          List.filter_cons_of_pos (by simpa using space), ih, cutAt, List.cons_append]

/-- The fields together are the characters but for the spaces. -/
theorem flatten_fieldsOf {text : Text} (noQuote : '\'' ∉ text) :
    (fieldsOf text).flatten = text.filter fun char => char != ' ' := by
  induction text using fieldsOf.induct with
  | case1 text last =>
      have spaces := List.dropWhile_eq_nil_iff.mp ((nextOf_eq_none_iff text).mp last)
      rw [fieldsOf_of_none last, List.flatten_nil, eq_comm, List.filter_eq_nil_iff]
      intro char among
      simpa using spaces char among
  | case2 text field more found ih =>
      have suffix := @List.dropWhile_suffix _ text fun char => char == ' '
      cases left : skipSpaces text with
      | nil =>
          rw [(nextOf_eq_none_iff text).mpr left] at found
          cases found
      | cons char rest =>
          rw [← skipSpaces, left] at suffix
          have plain : char ≠ '\'' := fun quote => noQuote (suffix.mem (quote ▸ List.mem_cons_self))
          have cut : cutAt ' ' (char :: rest) = (field, more) := by
            simpa only [nextOf, left, if_neg plain, Option.some.injEq] using found
          have behind : (cutAt ' ' (char :: rest)).2 <:+ char :: rest :=
            (List.drop_suffix 1 _).trans (List.dropWhile_suffix _)
          rw [cut] at behind
          rw [fieldsOf_of_some found, List.flatten_cons,
            ih fun quote => noQuote (suffix.mem (behind.mem quote)), ← filter_skipSpaces text, left,
            filter_cutAt (char :: rest), cut]

theorem maximalRuns_iff (text : Text) (tokens : List Text) :
    MaximalRuns text tokens ↔ tokens = fieldsOf (text.map blank) := by
  obtain ⟨spans, lists, read⟩ := fieldsOf_map_blank text 0 fun i next => by cases next
  rw [List.drop_zero] at read
  constructor
  · intro ⟨others, lists', same⟩
    rw [same, lists'.unique lists, read]
  · intro same
    exact ⟨spans, lists, same.trans read⟩

theorem flatten_tokens (text : Text) :
    (fieldsOf (text.map blank)).flatten = text.filter isalnum := by
  have noQuote : '\'' ∉ text.map blank := by
    rw [List.mem_map]
    intro ⟨char, _, quote⟩
    exact blank_ne_quote char quote
  have visible : (fun char => char != ' ') ∘ blank = isalnum := by
    funext char
    change (!(blank char == ' ')) = isalnum char
    rw [blank_beq_space, Bool.not_not]
  rw [flatten_fieldsOf noQuote, List.filter_map, visible,
    List.map_congr_left fun char among => blank_of_isalnum (List.mem_filter.mp among).2]
  exact List.map_id _

/-- The part that is read has the same runs when nothing behind it is a letter or digit. -/
theorem maximalRuns_seen_iff (str : Text) :
    MaximalRuns str (fieldsOf ((seen str).map blank)) ↔
      ∀ i, PassesAt isalnum str i → i < (intLength str).toNat := by
  have split : str.filter isalnum =
      (seen str).filter isalnum ++ (str.drop (intLength str).toNat).filter isalnum := by
    rw [← List.filter_append, seen, List.take_append_drop]
  constructor
  · intro runs i passes
    have same := congrArg List.flatten ((maximalRuns_iff ..).mp runs)
    rw [flatten_tokens, flatten_tokens, split, List.self_eq_append_right,
      List.filter_eq_nil_iff] at same
    by_contra beyond
    obtain ⟨i, rfl⟩ := Nat.exists_eq_add_of_le (Nat.le_of_not_lt beyond)
    rw [← passesAt_drop, PassesAt, Option.any_eq_true] at passes
    obtain ⟨char, here, alnum⟩ := passes
    exact same char (List.mem_of_getElem? here) alnum
  · intro inside
    obtain ⟨spans, lists, read⟩ := fieldsOf_map_blank (seen str) 0 fun i next => by cases next
    have agree : PassesAt isalnum (seen str) = PassesAt isalnum str := by
      funext i
      rw [PassesAt, PassesAt, seen]
      cases Nat.lt_or_ge i (intLength str).toNat with
      | inl before => rw [List.getElem?_take_of_lt before]
      | inr beyond =>
          have never : ¬ PassesAt isalnum str i := fun passes =>
            Nat.not_lt_of_ge beyond (inside i passes)
          have fails : (str[i]?).any isalnum = false := Bool.eq_false_iff.mpr never
          rw [List.getElem?_take_eq_none beyond, fails, Option.any_none]
    rw [agree] at lists
    rw [List.drop_zero] at read
    refine ⟨spans, lists, read.trans (List.map_congr_left fun span among => ?_)⟩
    have maximal := ((lists.complete span).mp among).2
    have before := inside (span.2 - 1) (maximal.all _ (by have := maximal.nonempty; omega)
      (by have := maximal.nonempty; omega))
    have most : min (span.2 - span.1) ((intLength str).toNat - span.1) = span.2 - span.1 := by omega
    rw [itemsIn, itemsIn, seen, List.drop_take, List.take_take, most]

/-- Only a run that ends in the position `intMax` keeps the cursor from passing its end. -/
theorem closed_seen_iff (str : Text) : Closed str ((seen str).map blank) ↔
    ∀ i, PassesAt isalnum str i → i < (intLength str).toNat → i + 1 < intMax := by
  have most := intLength_le_intMax str
  have positive : 0 < intMax := by decide
  rw [Closed, List.getLast?_map, List.getLast?_eq_getElem?, length_seen, seen]
  constructor
  · intro closed i passes inside
    by_contra late
    have isLast : i = (intLength str).toNat - 1 := by omega
    rw [PassesAt, Option.any_eq_true] at passes
    obtain ⟨char, here, alnum⟩ := passes
    have last := closed.resolve_left (by omega) (blank char) (by
      rw [← isLast, List.getElem?_take_of_lt inside, here]
      rfl)
    have space := blank_beq_space char
    rw [alnum, last] at space
    cases space
  · intro passed
    by_cases short : (intLength str).toNat < intMax
    · exact .inl short
    · refine .inr fun last isLast => ?_
      rw [List.getElem?_take_of_lt (by omega), Option.mem_def, Option.map_eq_some_iff] at isLast
      obtain ⟨char, here, rfl⟩ := isLast
      have never : ¬ PassesAt isalnum str ((intLength str).toNat - 1) := fun passes => by
        have early := passed _ passes (by omega)
        omega
      rw [PassesAt, here, Option.any_some, Bool.not_eq_true] at never
      have space := blank_beq_space char
      rw [never] at space
      simpa using space

/-- The fuel has to be more than there are tokens. -/
private theorem tokenize_runs_iff (parser : StringParser) (fuel : Nat) :
    (Runs (tokenize fuel) parser fun tokens _ => MaximalRuns parser.str tokens) ↔
      Countable parser.str ∧ (fieldsOf ((seen parser.str).map blank)).length < fuel := by
  have decides := (tokenize_runsIf fuel parser).runs_iff_and
    fun tokens _ (isTokens : tokens = fieldsOf ((seen parser.str).map blank)) =>
      iff_of_eq (congrArg (MaximalRuns parser.str) isTokens)
  rw [decides, maximalRuns_seen_iff, closed_seen_iff]
  constructor
  · intro ⟨⟨passed, enough⟩, inside⟩
    exact ⟨fun i passes => ⟨inside i passes, passed i passes (inside i passes)⟩, enough⟩
  · intro ⟨countable, enough⟩
    exact ⟨⟨fun i passes _ => (countable i passes).2, enough⟩,
      fun i passes => (countable i passes).1⟩

/-- The tokens are right exactly when the cursor can pass all of them. -/
theorem tokenizes_iff (parser : StringParser) : Tokenizes parser ↔ Countable parser.str := by
  simp only [Tokenizes, tokenize_runs_iff]
  constructor
  · intro ⟨_, countable, _⟩
    exact countable
  · exact fun countable => ⟨_, countable, Nat.lt_succ_self _⟩

theorem countable_of_length {str : Text} (short : str.length < intMax) : Countable str := by
  intro i passes
  rw [PassesAt, Option.any_eq_true] at passes
  obtain ⟨char, here, -⟩ := passes
  have inside := (List.getElem?_eq_some_iff.mp here).1
  rw [intLength_of_le (Nat.le_of_lt short), Int.toNat_natCast]
  exact ⟨inside, by omega⟩

/-- The tokens of a string of less than `intMax` characters are right. -/
theorem tokenizes_of_length {parser : StringParser} (short : parser.str.length < intMax) :
    Tokenizes parser :=
  ⟨_, (tokenize_runs_iff ..).mpr ⟨countable_of_length short, Nat.lt_succ_self _⟩⟩

/-- A word of `2 ^ 31` letters has no tokens. -/
theorem not_tokenizes_longWord : ¬ Tokenizes (ofText (List.replicate (2 ^ 31) 'a')) := by
  intro reached
  obtain ⟨fuel, tokens, final, returned, spans, lists, same⟩ := reached
  have unseen : seen (List.replicate (2 ^ 31) 'a') = [] := by
    have length : intLength (List.replicate (2 ^ 31) 'a') = -2 ^ 31 := by
      simp only [intLength, List.length_replicate, intMax]
      rfl
    rw [seen, length]
    rfl
  have read := (tokenize_runsIf fuel (ofText _)).holds returned
  rw [ofText, unseen, List.map_nil, fieldsOf_of_none rfl, same, List.map_eq_nil_iff] at read
  have letters : ∀ i, PassesAt isalnum (List.replicate (2 ^ 31) 'a') i ↔ i < 2 ^ 31 := by
    intro i
    rw [PassesAt, List.getElem?_replicate]
    split
    · next inside => exact iff_of_true rfl inside
    · next beyond => exact iff_of_false (fun same => by cases same) beyond
  have maximal : MaximalInterval (PassesAt isalnum (List.replicate (2 ^ 31) 'a')) (0, 2 ^ 31) := by
    refine ⟨Nat.two_pow_pos 31, fun i _ inside => (letters i).mpr inside, ?_, ?_⟩
    · exact fun passes => Nat.lt_irrefl _ ((letters _).mp passes)
    · intro i same
      cases same
  have listed := (lists.complete _).mpr ⟨Nat.zero_le _, maximal⟩
  rw [read] at listed
  cases listed

end PersistentBTree.Queries
