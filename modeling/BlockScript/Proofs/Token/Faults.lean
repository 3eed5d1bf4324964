import BlockScript.Proofs.Token.Spacing

/-!
# Where a scan fails

A scan fails at one place of a text, and what stands before that place does not depend on what
stands behind it: the text before scans by itself to the tokens that were read.  A place is the one
where a scan fails if the text before it scans and leaves no comment open, and the text from there
on offends (`scan_fails_where_offending`).
-/

namespace BlockScript

/-! ### Scans that keep what they read -/

/-- Scans a text that starts at a position, behind tokens already read, the last one first.  Yields
all tokens that are read, and the error that stops the scan, if one does. -/
def Token.attempt (position : Position) (read : List Token) (text : List Char) :
    List Token × Option LexError :=
  match text with
  | [] => (read.reverse, none)
  | character :: rest =>
    match _found : Lexeme.first character rest with
    | .error fault => (read.reverse, some ⟨position, fault⟩)
    | .ok lexeme =>
      attempt (position.after lexeme.text) ((ofLexeme? position lexeme).toList ++ read) lexeme.rest
termination_by text.length
decreasing_by exact Lexeme.length_rest_lt _found

namespace Token

variable {character : Char} {rest : List Char}

theorem attempt_of_first {lexeme : Lexeme} (found : Lexeme.first character rest = .ok lexeme)
    (position : Position) (read : List Token) :
    attempt position read (character :: rest) =
      attempt (position.after lexeme.text) ((ofLexeme? position lexeme).toList ++ read)
        lexeme.rest := by
  rw [attempt]
  split
  · next failed => cases found.symm.trans failed
  · next other found_other => rw [Except.ok.inj (found_other.symm.trans found)]

theorem attempt_of_fault {fault : LexFault} (found : Lexeme.first character rest = .error fault)
    (position : Position) (read : List Token) :
    attempt position read (character :: rest) = (read.reverse, some ⟨position, fault⟩) := by
  rw [attempt]
  split
  · next other failed => rw [Except.error.inj (failed.symm.trans found)]
  · next found_other => cases found.symm.trans found_other

/-- A scan yields all tokens that are read, with the end of the text behind them, or nothing but the
error. -/
theorem scanFrom_eq_attempt (position : Position) (read : List Token) (text : List Char) :
    scanFrom position read text =
      match attempt position read text with
      | (tokens, none) => .ok (tokens ++ [endAt (position.after text)])
      | (_, some error) => .error error := by
  fun_induction attempt position read text with
  | case1 position read => rw [scanFrom, List.reverse_cons, Position.after_nil]
  | case2 position read character rest fault found =>
    rw [scanFrom]
    split
    · next other failed => rw [Except.error.inj (failed.symm.trans found)]
    · next found_other => cases found.symm.trans found_other
  | case3 position read character rest lexeme found ih =>
    rw [scanFrom]
    split
    · next failed => cases found.symm.trans failed
    · next other found_other =>
      obtain rfl := Except.ok.inj (found.symm.trans found_other)
      rw [ih, ← Position.after_append, Lexeme.text_append_rest found]

end Token

/-! ### Comments at the end -/

/-- A text that ends inside a comment: one lexeme after the other is cut off it, until a comment is
left that goes on to the end. -/
inductive EndsInComment : List Char → Prop where
  | comment {text} : OpenComment text → EndsInComment text
  | behind {character rest lexeme} : Lexeme.first character rest = .ok lexeme →
      EndsInComment lexeme.rest → EndsInComment (character :: rest)

namespace Lexeme

variable {character : Char} {rest : List Char}

theorem first_of_open (comment : OpenComment (character :: rest)) :
    first character rest = .ok ⟨none, character :: rest, []⟩ := by
  cases comment with
  | @line body no_newline =>
    have goes_on : ∀ character ∈ body, decide (character ≠ '\n') = true := by
      intro character member
      exact decide_eq_true fun newline => no_newline (newline ▸ member)
    have line := @List.takeWhile_append_of_pos _ _ body [] goes_on
    have behind := @List.dropWhile_append_of_pos _ _ body [] goes_on
    simp only [List.append_nil, List.takeWhile_nil, List.dropWhile_nil] at line behind
    rw [first, if_neg (by decide)]
    simp only [line, behind]
  | @block body no_end =>
    rcases blockComment_closed_or_open ['*', '/'] body with ⟨inside, -, body_eq, -⟩ | ⟨-, read_eq⟩
    · -- A closed comment has an end in it.
      refine absurd ?_ no_end
      rw [body_eq]
      exact ⟨inside, (blockComment ['*', '/'] body).2, by simp⟩
    · rw [first, if_neg (by decide)]
      simp only [read_eq]
      simp

end Lexeme

/-- A piece of trivia is not a comment that goes on to the end. -/
theorem Piece.not_open {text : List Char} (piece : Piece text) : ¬OpenComment text := by
  intro comment
  cases piece with
  | blank => cases comment
  | @lineComment body =>
    cases comment with
    | line no_newline => exact no_newline (by simp)
  | @blockComment body =>
    cases comment with
    | block no_end => exact no_end ⟨body, [], by simp⟩

/-! ### Offending texts -/

namespace Lexeme

variable {character : Char} {rest : List Char} {fault : LexFault}

theorem stringBody?_of_unclosed {text : List Char} (unclosed : Unclosed text)
    (read value : List Char) : stringBody? read value text = none := by
  induction unclosed generalizing read value with
  | nil | backslash => rfl
  | escaped _ ih => exact ih _ _
  | plain no_quote no_backslash _ ih => rw [stringBody?_plain no_quote no_backslash, ih]

theorem ofPair?_single (second : Char) (character_eq : character = '&' ∨ character = '|')
    (other : second ≠ character) : Symbol.ofPair? character second = none := by
  unfold Symbol.ofPair?
  split <;> simp_all

theorem symbol?_single (doubled : character = '&' ∨ character = '|')
    (alone : rest.head? ≠ some character) : symbol? character rest = none := by
  have no_symbol : Symbol.ofChar? character = none := by
    rcases doubled with rfl | rfl <;> rfl
  unfold symbol?
  cases rest with
  | nil => simp [no_symbol]
  | cons second rest =>
    have no_pair := ofPair?_single second doubled (by simpa using alone)
    simp [no_pair, no_symbol]

theorem mem_marks_of_ofChar? (symbol : Symbol.ofChar? character ≠ none) : character ∈ marks := by
  unfold Symbol.ofChar? at symbol
  split at symbol
  all_goals first | decide | exact absurd rfl symbol

theorem mem_marks_of_ofPair? {second : Char} (symbol : Symbol.ofPair? character second ≠ none) :
    character ∈ marks ∧ second ∈ marks := by
  unfold Symbol.ofPair? at symbol
  split at symbol
  all_goals first | decide | exact absurd rfl symbol

theorem ne_of_not_opens (not_opens : ¬Opens character) {mark : Char} (isMark : mark ∈ marks) :
    character ≠ mark := by
  rintro rfl
  exact not_opens (.inr (.inl isMark))

/-- What opens nothing is no part of a symbol. -/
theorem no_symbol_of_not_opens (not_opens : ¬Opens character) :
    Symbol.ofChar? character = none ∧ ∀ other : Char,
      Symbol.ofPair? character other = none ∧ Symbol.ofPair? other character = none := by
  have no_mark : character ∉ marks := fun isMark => not_opens (.inr (.inl isMark))
  refine ⟨?_, fun other => ⟨?_, ?_⟩⟩
  · exact not_not.mp fun symbol => no_mark (mem_marks_of_ofChar? symbol)
  · exact not_not.mp fun symbol => no_mark (mem_marks_of_ofPair? symbol).1
  · exact not_not.mp fun symbol => no_mark (mem_marks_of_ofPair? symbol).2

/-- What opens nothing is neither blank nor the start of a string, a number, a word or a symbol. -/
theorem first_of_not_opens (not_opens : ¬Opens character) (rest : List Char) :
    first character rest = .error (.unexpected character) := by
  obtain ⟨apart, -, no_letter, no_digit⟩ : _ ∧ _ ∧ _ ∧ _ := by
    simpa only [Opens, not_or] using not_opens
  simp only [List.mem_cons, List.not_mem_nil, or_false, not_or] at apart
  obtain ⟨no_space, no_tab, no_return, no_newline, no_quote, no_underscore⟩ := apart
  have not_blank : ¬isBlank character = true := by simp [isBlank, *]
  have no_word : ¬startsWord character = true := by simp [startsWord, *]
  have no_symbol : symbol? character rest = none := by
    obtain ⟨no_char, no_pair⟩ := no_symbol_of_not_opens not_opens
    unfold symbol?
    cases rest <;> simp [no_char, no_pair]
  have not_doubled : ¬(character = '&' ∨ character = '|') :=
    not_or.mpr ⟨ne_of_not_opens not_opens (by decide), ne_of_not_opens not_opens (by decide)⟩
  -- The first two cases of a lexeme are the comments, which start with a slash.
  have no_slash : character ≠ '/' := ne_of_not_opens not_opens (by decide)
  rw [first, if_neg not_blank, token, if_neg no_quote, if_neg no_digit, if_neg no_word, no_symbol]
  · simp only [if_neg not_doubled]
  · exact fun _ slash => absurd slash no_slash
  · exact fun _ slash => absurd slash no_slash

/-- An offending text has no first lexeme. -/
theorem first_of_offends {fault : LexFault} (offends : Offends fault (character :: rest)) :
    first character rest = .error fault := by
  cases offends with
  | unexpected not_opens => exact first_of_not_opens not_opens rest
  | single doubled alone =>
    have no_symbol := symbol?_single doubled alone
    rcases doubled with rfl | rfl
    · change token '&' rest = _
      simp [token, no_symbol, startsWord]
    · change token '|' rest = _
      simp [token, no_symbol, startsWord]
  | unterminatedString unclosed =>
    change token '"' rest = _
    rw [token, if_pos rfl, stringBody?_of_unclosed unclosed]

/-- Nothing goes on with the first character of an offending text. -/
theorem breaks_of_offends {fault : LexFault} (offends : Offends fault (character :: rest)) :
    Breaks character := by
  cases offends with
  | unexpected not_opens =>
    obtain ⟨apart, -, no_letter, no_digit⟩ : _ ∧ _ ∧ _ ∧ _ := by
      simpa only [Opens, not_or] using not_opens
    have other {mark : Char} (isMark : mark ∈ marks) : character ≠ mark :=
      ne_of_not_opens not_opens isMark
    have no_underscore : character ≠ '_' := by
      rintro rfl
      exact apart (by decide)
    refine ⟨by simpa using no_digit, ?_, other (by decide), other (by decide), other (by decide), ?_⟩
    · simp [continuesWord, Char.isAlphanum, *]
    · exact fun first _ => ((no_symbol_of_not_opens not_opens).2 first).2
  | single doubled alone =>
    rcases doubled with rfl | rfl
    all_goals refine ⟨by decide, by decide, by decide, by decide, by decide, fun first symbol => ?_⟩
    all_goals
      unfold Symbol.ofPair?
      split <;> simp_all [Symbol.ofChar?]
  | unterminatedString unclosed =>
    refine ⟨by decide, by decide, by decide, by decide, by decide, fun first _ => ?_⟩
    unfold Symbol.ofPair?
    split <;> simp_all

end Lexeme

/-- What is skipped in front of an offending text is no comment that goes on to the end. -/
theorem Lexeme.Skips.not_open {text rest : List Char} {fault : LexFault} (skips : Skips text rest)
    (offends : Offends fault rest) : ¬OpenComment text := by
  intro comment
  cases skips with
  | piece piece => exact piece.not_open comment
  | line =>
    -- A comment of one line ends in front of a newline, which is blank.
    cases offends with
    | unexpected not_opens => exact not_opens (.inl (by decide))
    | single doubled => rcases doubled with doubled | doubled <;> cases doubled
  | comment => cases offends

/-- The text behind a quote has no closing quote if it is cut short either. -/
theorem Unclosed.cut {kept behind : List Char} (unclosed : Unclosed (kept ++ behind)) :
    Unclosed kept := by
  generalize whole : kept ++ behind = text at unclosed
  induction unclosed generalizing kept with
  | nil =>
    obtain ⟨rfl, -⟩ := List.append_eq_nil_iff.mp whole
    exact .nil
  | backslash =>
    cases kept with
    | nil => exact .nil
    | cons first kept =>
      obtain ⟨rfl, nothing⟩ := List.cons.inj whole
      obtain ⟨rfl, -⟩ := List.append_eq_nil_iff.mp nothing
      exact .backslash
  | escaped _ ih =>
    cases kept with
    | nil => exact .nil
    | cons first kept =>
      obtain ⟨rfl, following⟩ := List.cons.inj whole
      -- The cut may be right behind the backslash.
      cases kept with
      | nil => exact .backslash
      | cons second kept => exact .escaped (ih (List.cons.inj following).2)
  | plain no_quote no_backslash _ ih =>
    cases kept with
    | nil => exact .nil
    | cons first kept =>
      obtain ⟨rfl, following⟩ := List.cons.inj whole
      exact .plain no_quote no_backslash (ih following)

/-- A text offends by what it starts with, so it still does if it is cut short. -/
theorem Offends.cut {fault : LexFault} {kept behind : List Char} (some : kept ≠ [])
    (offends : Offends fault (kept ++ behind)) : Offends fault kept := by
  obtain ⟨character, kept, rfl⟩ := List.exists_cons_of_ne_nil some
  cases offends with
  | unexpected not_opens => exact .unexpected not_opens
  | single doubled alone =>
    refine .single doubled ?_
    cases kept with
    | nil => simp
    | cons second kept => exact alone
  | unterminatedString unclosed => exact .unterminatedString unclosed.cut

/-! ### The place where a scan fails -/

namespace Token

variable {position : Position} {read : List Token} {front : List Char}

/-- The tokens in front of an offending text are read as if nothing stood behind them. -/
theorem attempt_append (scans : (attempt position read front).2 = none)
    (closed : ¬EndsInComment front) {fault : LexFault} {character : Char} {rest : List Char}
    (offends : Offends fault (character :: rest)) :
    attempt position read (front ++ character :: rest) =
      ((attempt position read front).1, some ⟨position.after front, fault⟩) := by
  -- Each lexeme of the text in front is still read whole: it is no comment that would swallow what
  -- stands behind, and no token that the offending character could go on.
  fun_induction attempt position read front with
  | case1 position read =>
    exact attempt_of_fault (Lexeme.first_of_offends offends) position read
  | case2 => cases scans
  | case3 position read first others lexeme found ih =>
    have not_open : ¬OpenComment (first :: others) := fun comment => closed (.comment comment)
    have still_closed : ¬EndsInComment lexeme.rest := fun ends => closed (.behind found ends)
    have whole := Lexeme.text_append_rest found
    have extended := @Lexeme.first_extend _ _ _ _ _ rest _ found not_open
      (Lexeme.breaks_of_offends offends)
    rw [List.cons_append, attempt_of_first extended, ← whole, Position.after_append]
    exact ih scans still_closed

/-- Where a scan fails the text offends, and the text before is scanned to the tokens that were
read. -/
theorem attempt_stops {text : List Char} {tokens : List Token} {error : LexError}
    (stops : attempt position read text = (tokens, some error)) :
    ∃ front character rest, text = front ++ character :: rest ∧
      Offends error.fault (character :: rest) ∧ ¬EndsInComment front ∧
      attempt position read front = (tokens, none) := by
  fun_induction attempt position read text with
  | case1 => cases stops
  | case2 position read character rest fault found =>
    cases stops
    refine ⟨[], character, rest, rfl, Lexeme.offends_of_first found, ?_, by rw [attempt]⟩
    rintro ⟨⟨⟩⟩
  | case3 position read first others lexeme found ih =>
    -- The rest behind the lexeme stops somewhere; its front, with the lexeme put back, is the front
    -- of the whole text.
    obtain ⟨front, character, rest, behind, offends, closed, scans⟩ := ih stops
    have whole := Lexeme.text_append_rest found
    obtain ⟨start, tail, characters⟩ := List.exists_cons_of_ne_nil (Lexeme.text_ne_nil found)
    obtain ⟨kind?, lexemeText, lexemeRest⟩ := lexeme
    simp only at whole characters behind closed scans
    subst characters behind
    obtain ⟨rfl, rfl⟩ := List.cons.inj whole
    -- The lexeme is the first one of the text before the fault, too.
    have cut := Lexeme.first_cut found
    refine ⟨start :: (tail ++ front), character, rest, by simp, offends, ?_, ?_⟩
    · intro ends
      cases ends with
      | comment comment =>
        -- The comment would be the lexeme, and nothing that offends stands behind one.
        obtain ⟨rfl, lexeme_eq, rfl⟩ :=
          Lexeme.mk.inj (Except.ok.inj (cut.symm.trans (Lexeme.first_of_open comment)))
        rw [← lexeme_eq] at comment
        exact (Lexeme.skips_of_first found rfl).not_open offends comment
      | behind found_again ends =>
        obtain rfl := Except.ok.inj (cut.symm.trans found_again)
        exact closed ends
    · rw [attempt_of_first cut]
      exact scans

end Token

/-- A text fails at an offset with a fault: what stands before scans on its own and does not end
inside a comment, and what stands behind offends. -/
structure FailsAt (source : List Char) (offset : Nat) (fault : LexFault) : Prop where
  scans : ∃ tokens, Token.scan (String.ofList (source.take offset)) = .ok tokens
  closed : ¬EndsInComment (source.take offset)
  offends : Offends fault (source.drop offset)

namespace FailsAt

open Token

variable {source : List Char} {offset other : Nat} {fault otherFault : LexFault}

theorem offset_lt (fails : FailsAt source offset fault) : offset < source.length := by
  by_contra beyond
  have offends := fails.offends
  rw [List.drop_eq_nil_of_le (Nat.le_of_not_lt beyond)] at offends
  cases offends

/-- The scan reads the tokens before the offset and fails there. -/
theorem attempt_eq (fails : FailsAt source offset fault) :
    ∃ tokens,
      attempt .start [] (source.take offset) = (tokens, none) ∧
      attempt .start [] source = (tokens, some ⟨.behind (source.take offset), fault⟩) := by
  obtain ⟨all, scanned⟩ := fails.scans
  rw [scan, String.toList_ofList, scanFrom_eq_attempt] at scanned
  cases read : attempt .start [] (source.take offset) with
  | mk tokens stop =>
    cases stop with
    | some error => simp [read] at scanned
    | none =>
      have within := fails.offset_lt
      have behind := List.drop_eq_getElem_cons within
      have offends := fails.offends
      have onward := @attempt_append .start [] (source.take offset) (by rw [read]) fails.closed fault
        source[offset] (source.drop (offset + 1)) (behind ▸ offends)
      rw [← behind, List.take_append_drop, read, Position.start_after] at onward
      exact ⟨tokens, rfl, onward⟩

theorem scan_eq (fails : FailsAt source offset fault) :
    scan (String.ofList source) = .error ⟨.behind (source.take offset), fault⟩ := by
  obtain ⟨tokens, -, stops⟩ := fails.attempt_eq
  rw [scan, String.toList_ofList, scanFrom_eq_attempt, stops]

/-- No text that scans reaches behind the place where another one fails. -/
theorem le_of_scans (fails : FailsAt source offset fault)
    (scans : ∃ tokens, scan (String.ofList (source.take other)) = .ok tokens) : other ≤ offset := by
  by_contra beyond
  have less := Nat.lt_of_not_le beyond
  -- The text up to the further place fails where the whole text does.
  have shorter : (source.take other).take offset = source.take offset := by
    rw [List.take_take, Nat.min_eq_left (Nat.le_of_lt less)]
  have offends : Offends fault ((source.take other).drop offset) := by
    have whole := fails.offends
    have within := fails.offset_lt
    rw [← List.take_append_drop (other - offset) (source.drop offset)] at whole
    rw [List.drop_take]
    refine whole.cut fun nothing => ?_
    have lengths := congrArg List.length nothing
    simp at lengths
    omega
  have fails_still : FailsAt (source.take other) offset fault :=
    ⟨shorter ▸ fails.scans, shorter ▸ fails.closed, offends⟩
  obtain ⟨tokens, scanned⟩ := scans
  cases scanned.symm.trans fails_still.scan_eq

theorem unique (fails : FailsAt source offset fault) (again : FailsAt source other otherFault) :
    offset = other ∧ fault = otherFault := by
  -- The text up to each of the two places scans, so it ends in front of the other one.
  have same : offset = other :=
    Nat.le_antisymm (again.le_of_scans fails.scans) (fails.le_of_scans again.scans)
  have faults := fails.scan_eq.symm.trans again.scan_eq
  exact ⟨same, congrArg LexError.fault (Except.error.inj faults)⟩

/-- Where a scan fails, it fails at an offset. -/
theorem of_scan {text : String} {error : LexError} (failed : scan text = .error error) :
    ∃ offset, FailsAt text.toList offset error.fault := by
  rw [scan, scanFrom_eq_attempt] at failed
  cases stops : attempt .start [] text.toList with
  | mk tokens stop =>
    cases stop with
    | none => simp [stops] at failed
    | some cause =>
      obtain rfl : cause = error := by simpa [stops] using failed
      obtain ⟨front, character, rest, whole, offends, closed, read⟩ := attempt_stops stops
      refine ⟨front.length, ?_, ?_, ?_⟩
      · rw [whole, List.take_left, scan, String.toList_ofList, scanFrom_eq_attempt, read]
        exact ⟨_, rfl⟩
      · rwa [whole, List.take_left]
      · rwa [whole, List.drop_left]

end FailsAt

/-! ### Numbers -/

/-- A numeral as it is written: digits, and behind a point the digits of the fraction if there is
one. -/
def numeral (whole fraction : List Char) : List Char :=
  if fraction = [] then whole else whole ++ '.' :: fraction

/-- A text that starts with a digit starts with a number. -/
theorem Lexeme.exists_number {digit : Char} (is_digit : digit.isDigit = true) (rest : List Char) :
    ∃ whole fraction behind, whole ≠ [] ∧ (∀ character ∈ whole ++ fraction, character.isDigit = true) ∧
      digit :: rest = numeral whole fraction ++ behind ∧
      Lexeme.first digit rest =
        .ok ⟨some (.number (Number.ofDigits whole fraction)), numeral whole fraction, behind⟩ := by
  have starts : (digit :: rest).takeWhile Char.isDigit ≠ [] := by simp [is_digit]
  have digits_of {text : List Char} :
      ∀ character ∈ text.takeWhile Char.isDigit, character.isDigit = true :=
    fun _ member => List.mem_takeWhile_imp member
  have parts := @List.takeWhile_append_dropWhile _ Char.isDigit (digit :: rest)
  rw [first_of_isDigit is_digit]
  -- A point counts only if there is a digit behind it.
  rcases number_cases (digit :: rest) with ⟨following, point, digits⟩ | no_fraction
  · have fraction_parts := @List.takeWhile_append_dropWhile _ Char.isDigit following
    refine ⟨_, following.takeWhile Char.isDigit, following.dropWhile Char.isDigit, starts, ?_, ?_, ?_⟩
    · intro character member
      exact (List.mem_append.mp member).elim (digits_of _) (digits_of _)
    · rw [numeral, if_neg digits, List.append_assoc, List.cons_append, fraction_parts, ← point, parts]
    · rw [number_of_fraction point digits, numeral, if_neg digits]
  · refine ⟨_, [], (digit :: rest).dropWhile Char.isDigit, starts, ?_, ?_, ?_⟩
    · simpa using digits_of
    · rw [numeral, if_pos rfl, parts]
    · rw [number_of_no_fraction no_fraction, numeral, if_pos rfl]

/-- A scan fails if and only if its text fails at some offset (`FailsAt`), and there is at most one
such offset.  The error is at the offset, with the fault of what stands behind it, and the tokens
read until then are those of the text before the offset, which scans on its own.  A text that starts
with a digit starts with a number, so no number is ever at fault. -/
theorem scan_fails_where_offending (source : String) :
    ((∃ error, Token.scan source = .error error) ↔
      ∃ offset fault, FailsAt source.toList offset fault) ∧
    (∀ offset fault, FailsAt source.toList offset fault →
      let front := source.toList.take offset
      Token.scan source = .error ⟨.behind front, fault⟩ ∧
      ∃ tokens,
        Token.attempt .start [] source.toList = (tokens, some ⟨.behind front, fault⟩) ∧
        Token.scan (String.ofList front) = .ok (tokens ++ [Token.endAt (.behind front)])) ∧
    (∀ offset other fault otherFault, FailsAt source.toList offset fault →
      FailsAt source.toList other otherFault → offset = other ∧ fault = otherFault) ∧
    ∀ digit rest, digit.isDigit = true →
      ∃ whole fraction behind, whole ≠ [] ∧
        (∀ character ∈ whole ++ fraction, character.isDigit = true) ∧
        digit :: rest = numeral whole fraction ++ behind ∧
        Lexeme.first digit rest =
          .ok ⟨some (.number (Number.ofDigits whole fraction)), numeral whole fraction, behind⟩ := by
  refine ⟨⟨?_, ?_⟩, ?_, fun _ _ _ _ fails again => fails.unique again, ?_⟩
  · rintro ⟨error, failed⟩
    obtain ⟨offset, fails⟩ := FailsAt.of_scan failed
    exact ⟨offset, error.fault, fails⟩
  · rintro ⟨offset, fault, fails⟩
    have failed := fails.scan_eq
    rw [String.ofList_toList] at failed
    exact ⟨_, failed⟩
  · intro offset fault fails front
    -- The tokens in front are those that an attempt has when it stops.
    obtain ⟨tokens, scans, stops⟩ := fails.attempt_eq
    have failed := fails.scan_eq
    rw [String.ofList_toList] at failed
    refine ⟨failed, tokens, stops, ?_⟩
    rw [Token.scan, String.toList_ofList, Token.scanFrom_eq_attempt, scans]
    simp only [Position.start_after]
  · intro digit rest is_digit
    exact Lexeme.exists_number is_digit rest

/-- A lone ampersand behind a comment that is closed, in front of a string that is not. -/
theorem scan_fails_at_ampersand :
    let source := "a/*&*/&\"b"
    FailsAt source.toList 6 (.single '&') ∧
      Token.scan source = .error ⟨⟨1, 7⟩, .single '&'⟩ ∧
      ∃ tokens, Token.attempt .start [] source.toList = (tokens, some ⟨⟨1, 7⟩, .single '&'⟩) ∧
        Token.scan "a/*&*/" = .ok (tokens ++ [Token.endAt ⟨1, 7⟩]) := by
  intro source
  have front : source.toList.take 6 = "a/*&*/".toList := by decide
  have scans : Token.scan "a/*&*/" =
      .ok [⟨.identifier "a", "a", ⟨1, 1⟩⟩, ⟨.eof, "", ⟨1, 7⟩⟩] := by
    with_unfolding_all rfl
  have closed : ¬EndsInComment "a/*&*/".toList := by
    have word : Lexeme.first 'a' "/*&*/".toList =
        .ok ⟨some (.identifier "a"), ['a'], "/*&*/".toList⟩ := rfl
    have comment : Lexeme.first '/' "*&*/".toList = .ok ⟨none, "/*&*/".toList, []⟩ := rfl
    rintro (⟨⟨⟩⟩ | ⟨found, ends⟩)
    obtain rfl := Except.ok.inj (word.symm.trans found)
    rcases ends with (open_comment | ⟨found, ends⟩)
    · exact (@Piece.blockComment ['&'] (by decide)).not_open open_comment
    · rw [← Except.ok.inj (comment.symm.trans found)] at ends
      rcases ends with ⟨⟨⟩⟩
  have behind : source.toList.drop 6 = ['&', '"', 'b'] := by decide
  have fails : FailsAt source.toList 6 (.single '&') := by
    refine ⟨?_, ?_, ?_⟩
    · rw [front, String.ofList_toList]
      exact ⟨_, scans⟩
    · rwa [front]
    · rw [behind]
      exact .single (.inl rfl) (by decide)
  have main := (scan_fails_where_offending source).2.1 6 _ fails
  simp only [front, String.ofList_toList] at main
  exact ⟨fails, main⟩

end BlockScript
