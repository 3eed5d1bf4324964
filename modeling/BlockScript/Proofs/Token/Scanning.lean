import BlockScript.Token.Scan

/-!
# The rules of scanning

What may stand between two tokens, where a text offends, and how a scan goes on from each place in
a text, told as rules (`Scans`).  Scanning follows the rules (`scans_scan`), so what is true of all
texts is proved by induction on them.
-/

namespace BlockScript

/-! ### Between tokens -/

/-- A blank, a line comment with the newline that ends it, or a block comment with its end, which
is the first one there is. -/
inductive Piece : List Char → Prop where
  | blank {character} : character ∈ [' ', '\t', '\r', '\n'] → Piece [character]
  | lineComment {body} : '\n' ∉ body → Piece ('/' :: '/' :: (body ++ ['\n']))
  | blockComment {body} : ¬['*', '/'] <:+: body → Piece ('/' :: '*' :: (body ++ ['*', '/']))

/-- What may stand in front of a token. -/
inductive Trivia : List Char → Prop where
  | nil : Trivia []
  | cons {piece rest} : Piece piece → Trivia rest → Trivia (piece ++ rest)

/-- A comment that goes on to the end of the text. -/
inductive OpenComment : List Char → Prop where
  | line {body} : '\n' ∉ body → OpenComment ('/' :: '/' :: body)
  | block {body} : ¬['*', '/'] <:+: body → OpenComment ('/' :: '*' :: body)

/-- What may stand behind the last token. -/
inductive FinalGap : List Char → Prop where
  | closed {gap} : Trivia gap → FinalGap gap
  | unterminated {gap comment} : Trivia gap → OpenComment comment → FinalGap (gap ++ comment)

theorem FinalGap.skip {piece gap : List Char} (first : Piece piece) (final : FinalGap gap) :
    FinalGap (piece ++ gap) := by
  cases final with
  | closed trivia => exact .closed (.cons first trivia)
  | unterminated trivia comment =>
    rw [← List.append_assoc]
    exact .unterminated (.cons first trivia) comment

/-! ### Offending texts -/

/-- The characters of symbols, `&` and `|` among them. -/
def marks : List Char := "+-*/%()\x7b\x7d,.;=<>!&|?:".toList

/-- The characters that a token, a comment or blank text can start with. -/
def Opens (character : Char) : Prop :=
  character ∈ [' ', '\t', '\r', '\n', '"', '_'] ∨ character ∈ marks ∨ character.isAlpha = true ∨
    character.isDigit = true

/-- The text behind a quote has no quote that closes the string: each one stands behind a backslash
that is not itself escaped. -/
inductive Unclosed : List Char → Prop where
  | nil : Unclosed []
  | backslash : Unclosed ['\\']
  | escaped {character rest} : Unclosed rest → Unclosed ('\\' :: character :: rest)
  | plain {character rest} : character ≠ '"' → character ≠ '\\' → Unclosed rest →
      Unclosed (character :: rest)

/-- A text that starts with an offending token. -/
inductive Offends : LexFault → List Char → Prop where
  | unexpected {character rest} : ¬Opens character →
      Offends (.unexpected character) (character :: rest)
  | single {character rest} : character = '&' ∨ character = '|' → rest.head? ≠ some character →
      Offends (.single character) (character :: rest)
  | unterminatedString {body} : Unclosed body → Offends .unterminatedString ('"' :: body)

/-! ### Rules -/

/-- How a scan of a text that stands at a position comes out. -/
inductive Scans : Position → List Char → Except LexError (List Token) → Prop where
  | finish {position} : Scans position [] (.ok [Token.endAt position])
  | comment {position text} : OpenComment text →
      Scans position text (.ok [Token.endAt (position.after text)])
  | skip {position piece rest outcome} : Piece piece → Scans (position.after piece) rest outcome →
      Scans position (piece ++ rest) outcome
  | token {position character rest lexeme kind outcome} :
      Lexeme.first character rest = .ok lexeme → lexeme.kind? = some kind →
      Scans (position.after lexeme.text) lexeme.rest outcome →
      Scans position (character :: rest)
        (outcome.map (⟨kind, String.ofList lexeme.text, position⟩ :: ·))
  | fault {position text fault} : Offends fault text → Scans position text (.error ⟨position, fault⟩)

/-! ### Scanning follows the rules -/

namespace Lexeme

/-- A lexeme that is no token, and the text behind it. -/
inductive Skips : (text rest : List Char) → Prop where
  | piece {text rest} : Piece text → Skips text rest
  | line {body rest} : '\n' ∉ body → Skips ('/' :: '/' :: body) ('\n' :: rest)
  | comment {text} : OpenComment text → Skips text []

theorem blockComment_closed_or_open (read text : List Char) :
    (∃ body, ¬['*', '/'] <:+: body ∧
      text = body ++ '*' :: '/' :: (blockComment read text).2 ∧
      (blockComment read text).1.reverse = read.reverse ++ body ++ ['*', '/']) ∨
    (¬['*', '/'] <:+: text ∧ blockComment read text = (text.reverse ++ read, [])) := by
  fun_induction blockComment read text with
  | case1 read rest => exact .inl ⟨[], by simp, rfl, by simp⟩
  | case2 read character rest not_end ih =>
    -- The end of the comment does not start here, so it is found behind this character or not at all.
    have not_here : ¬['*', '/'] <+: character :: rest := by
      rintro ⟨behind, same⟩
      injection same with star same
      exact not_end behind star.symm same.symm
    have none_here {body : List Char} (le : body <+: rest) (behind : ¬['*', '/'] <:+: body) :
        ¬['*', '/'] <:+: character :: body := by
      rw [List.infix_cons_iff]
      rintro (here | later)
      · exact not_here (here.trans ((List.prefix_cons_inj character).mpr le))
      · exact behind later
    rcases ih with ⟨body, no_end, rest_eq, read_eq⟩ | ⟨no_end, read_eq⟩
    · refine .inl ⟨character :: body, none_here ?_ no_end, ?_, ?_⟩
      · exact ⟨_, rest_eq.symm⟩
      · rw [List.cons_append, ← rest_eq]
      · rw [read_eq, List.reverse_cons]
        simp
    · refine .inr ⟨none_here (List.prefix_refl rest) no_end, ?_⟩
      rw [read_eq]
      simp
  | case3 read => exact .inr ⟨by simp, rfl⟩

theorem line_ends (comment : List Char) :
    '\n' ∉ comment.takeWhile (· ≠ '\n') ∧
      (comment.dropWhile (· ≠ '\n') = [] ∨
        ∃ rest, comment.dropWhile (· ≠ '\n') = '\n' :: rest) := by
  induction comment with
  | nil => simp
  | cons character rest ih =>
    by_cases newline : character = '\n'
    · subst newline
      simp
    · simpa [newline, Ne.symm newline] using ih

theorem skips_lineComment (comment : List Char) :
    Skips ('/' :: '/' :: comment.takeWhile (· ≠ '\n')) (comment.dropWhile (· ≠ '\n')) := by
  obtain ⟨no_newline, behind | ⟨rest, behind⟩⟩ := line_ends comment
  · rw [behind]
    exact .comment (.line no_newline)
  · rw [behind]
    exact .line no_newline

theorem skips_blockComment (comment : List Char) :
    Skips (blockComment ['*', '/'] comment).1.reverse (blockComment ['*', '/'] comment).2 := by
  rcases blockComment_closed_or_open ['*', '/'] comment with
    ⟨body, no_end, -, read_eq⟩ | ⟨no_end, read_eq⟩
  · rw [read_eq]
    exact .piece (.blockComment no_end)
  · rw [read_eq]
    simpa using Skips.comment (.block no_end)

theorem skips_blank {character : Char} (blank : isBlank character = true) (rest : List Char) :
    Skips [character] rest := by
  apply Skips.piece
  apply Piece.blank
  simp only [isBlank, Bool.or_eq_true, beq_iff_eq] at blank
  rcases blank with ((rfl | rfl) | rfl) | rfl <;> decide

theorem number_kind (text : List Char) : ∃ value, (number text).kind? = some (.number value) := by
  unfold number
  dsimp only
  split <;> exact ⟨_, rfl⟩

theorem wordKind_ne_eof (word : String) : wordKind word ≠ .eof := by
  unfold wordKind
  split <;> exact nofun

theorem symbol?_kind {character : Char} {rest : List Char} {lexeme : Lexeme}
    (found : symbol? character rest = some lexeme) :
    ∃ mark, lexeme.kind? = some (.symbol mark) := by
  unfold symbol? at found
  split at found
  · split at found
    · next mark _ => cases found; exact ⟨mark, rfl⟩
    · obtain ⟨mark, _, rfl⟩ := Option.map_eq_some_iff.mp found; exact ⟨mark, rfl⟩
  · obtain ⟨mark, _, rfl⟩ := Option.map_eq_some_iff.mp found; exact ⟨mark, rfl⟩

/-- A token is neither blank nor a comment, nor the end of the text. -/
theorem token_kind {character : Char} {rest : List Char} {lexeme : Lexeme}
    (found : token character rest = .ok lexeme) :
    ∃ kind, lexeme.kind? = some kind ∧ kind ≠ .eof := by
  cases token_eq_ok_iff.mp found with
  | string _ _ same =>
    subst same
    exact ⟨_, rfl, nofun⟩
  | number _ _ same =>
    subst same
    obtain ⟨value, kinded⟩ := number_kind (character :: rest)
    exact ⟨_, kinded, nofun⟩
  | word _ _ _ same =>
    subst same
    exact ⟨_, rfl, wordKind_ne_eof _⟩
  | symbol _ _ _ symbol =>
    obtain ⟨mark, kinded⟩ := symbol?_kind symbol
    exact ⟨_, kinded, nofun⟩

theorem kind_ne_eof {character : Char} {rest : List Char} {lexeme : Lexeme} {kind : TokenKind}
    (found : first character rest = .ok lexeme) (kinded : lexeme.kind? = some kind) :
    kind ≠ .eof := by
  unfold first at found
  split at found
  · cases found; cases kinded
  · split at found
    · cases found; cases kinded
    · cases found; cases kinded
    · obtain ⟨other, other_kinded, proper⟩ := token_kind found
      obtain rfl := Option.some.inj (other_kinded.symm.trans kinded)
      exact proper

/-- A lexeme that is no token is skipped. -/
theorem skips_of_first {character : Char} {rest : List Char} {lexeme : Lexeme}
    (found : first character rest = .ok lexeme) (unkinded : lexeme.kind? = none) :
    Skips lexeme.text lexeme.rest := by
  unfold first at found
  split at found
  next blank => cases found; exact skips_blank blank rest
  next =>
    split at found
    · cases found; exact skips_lineComment _
    · cases found; exact skips_blockComment _
    · obtain ⟨kind, kinded, -⟩ := token_kind found
      cases unkinded.symm.trans kinded

/-- A character at which a string neither ends nor escapes another one is no backslash. -/
theorem ne_backslash {character : Char} {rest : List Char}
    (no_end : character = '\\' → rest = [] → False)
    (no_escape : ∀ escaped behind, character = '\\' → rest = escaped :: behind → False) :
    character ≠ '\\' := by
  intro backslash
  cases rest with
  | nil => exact no_end backslash rfl
  | cons escaped behind => exact no_escape escaped behind backslash rfl

theorem stringBody?_plain {character : Char} (no_quote : character ≠ '"')
    (no_backslash : character ≠ '\\') (read value rest : List Char) :
    stringBody? read value (character :: rest) =
      stringBody? (character :: read) (character :: value) rest :=
  stringBody?.eq_5 _ _ _ _ no_quote (fun backslash => absurd backslash no_backslash)
    (fun _ _ backslash => absurd backslash no_backslash)

theorem unclosed_of_stringBody? {read value text : List Char}
    (body : stringBody? read value text = none) : Unclosed text := by
  fun_induction stringBody? read value text with
  | case1 => exact .nil
  | case2 => cases body
  | case3 => exact .backslash
  | case4 read value escaped rest ih => exact .escaped (ih body)
  | case5 read value character rest no_quote no_end no_escape ih =>
    exact .plain no_quote (ne_backslash no_end no_escape) (ih body)

/-- Every mark but the two that stand doubled is a symbol of its own. -/
theorem ofChar?_of_mem_marks {character : Char} (mark : character ∈ marks)
    (no_ampersand : character ≠ '&') (no_bar : character ≠ '|') : Symbol.ofChar? character ≠ none := by
  have all : marks.all (fun mark =>
      mark == '&' || mark == '|' || (Symbol.ofChar? mark).isSome) = true := by
    decide
  have found := List.all_eq_true.mp all character mark
  simp only [Bool.or_eq_true, beq_iff_eq, no_ampersand, no_bar, false_or] at found
  exact Option.isSome_iff_ne_none.mp found

theorem ofChar?_eq_none_of_symbol? {character : Char} {rest : List Char}
    (found : symbol? character rest = none) : Symbol.ofChar? character = none := by
  unfold symbol? at found
  split at found
  · split at found
    · cases found
    · exact Option.map_eq_none_iff.mp found
  · exact Option.map_eq_none_iff.mp found

theorem head?_ne_of_symbol? {character : Char} {rest : List Char}
    (found : symbol? character rest = none) (doubled : character = '&' ∨ character = '|') :
    rest.head? ≠ some character := by
  intro twice
  obtain ⟨behind, rfl⟩ : ∃ behind, rest = character :: behind := by
    cases rest with
    | nil => cases twice
    | cons second behind => exact ⟨behind, by rw [Option.some.inj twice]⟩
  rcases doubled with rfl | rfl <;> simp [symbol?, Symbol.ofPair?] at found

/-- What is neither blank nor the start of a string, a number, a word or a symbol opens nothing. -/
theorem not_opens {character : Char} {rest : List Char} (not_blank : isBlank character ≠ true)
    (no_quote : character ≠ '"') (no_digit : character.isDigit ≠ true)
    (no_word : startsWord character ≠ true) (no_symbol : symbol? character rest = none)
    (not_doubled : ¬(character = '&' ∨ character = '|')) : ¬Opens character := by
  obtain ⟨no_ampersand, no_bar⟩ := not_or.mp not_doubled
  simp only [startsWord, ne_eq, Bool.or_eq_true, beq_iff_eq, not_or] at no_word
  simp only [isBlank, ne_eq, Bool.or_eq_true, beq_iff_eq, not_or] at not_blank
  rintro (apart | mark | letter | digit)
  · simp only [List.mem_cons, List.not_mem_nil, or_false] at apart
    grind
  · exact ofChar?_of_mem_marks mark no_ampersand no_bar
      (ofChar?_eq_none_of_symbol? no_symbol)
  · exact no_word.1 letter
  · exact no_digit digit

theorem offends_of_token {character : Char} {rest : List Char} {fault : LexFault}
    (not_blank : isBlank character ≠ true) (found : token character rest = .error fault) :
    Offends fault (character :: rest) := by
  unfold token at found
  by_cases quote : character = '"'
  · rw [if_pos quote] at found
    subst quote
    split at found
    · cases found
    · next body => cases found; exact .unterminatedString (unclosed_of_stringBody? body)
  · by_cases digit : character.isDigit = true
    · simp [quote, digit] at found
    by_cases starts : startsWord character = true
    · simp [quote, digit, starts] at found
    cases symbol : symbol? character rest with
    | some lexeme => simp [quote, digit, starts, symbol] at found
    | none =>
      -- Only marks that stand for nothing alone are told apart from what opens nothing.
      by_cases doubled : character = '&' ∨ character = '|'
      · simp only [quote, digit, starts, symbol, doubled, if_true, if_false] at found
        cases found
        exact .single doubled (head?_ne_of_symbol? symbol doubled)
      · simp only [quote, digit, starts, symbol, doubled, if_false] at found
        cases found
        exact .unexpected (not_opens not_blank quote digit starts symbol doubled)

/-- A text without a first lexeme offends. -/
theorem offends_of_first {character : Char} {rest : List Char} {fault : LexFault}
    (found : first character rest = .error fault) : Offends fault (character :: rest) := by
  unfold first at found
  split at found
  · cases found
  next not_blank =>
    split at found
    · cases found
    · cases found
    · exact offends_of_token not_blank found

end Lexeme

namespace Token

/-- Tokens already read stand in front of those that are still to come. -/
theorem scanFrom_read (position : Position) (read : List Token) (text : List Char) :
    scanFrom position read text = (scanFrom position [] text).map (read.reverse ++ ·) := by
  induction length : text.length using Nat.strongRecOn generalizing position read text with
  | _ length ih =>
    cases text with
    | nil => simp [scanFrom, Except.map]
    | cons character rest =>
      rw [scanFrom, scanFrom]
      split
      · rfl
      · next lexeme found =>
        have shorter := length ▸ Lexeme.length_rest_lt found
        rw [ih _ shorter _ _ lexeme.rest rfl, List.append_nil,
          ih _ shorter _ (ofLexeme? position lexeme).toList lexeme.rest rfl]
        cases scanFrom (position.after lexeme.text) [] lexeme.rest <;> simp [Except.map]

/-- The first lexeme of a text, and then the text behind it. -/
theorem scanFrom_of_first {character : Char} {rest : List Char} {lexeme : Lexeme}
    (found : Lexeme.first character rest = .ok lexeme) (position : Position) :
    scanFrom position [] (character :: rest) =
      (scanFrom (position.after lexeme.text) [] lexeme.rest).map
        ((ofLexeme? position lexeme).toList ++ ·) := by
  rw [scanFrom]
  split
  · next failed => cases found.symm.trans failed
  · next other found_other =>
    obtain rfl := Except.ok.inj (found.symm.trans found_other)
    rw [List.append_nil, scanFrom_read]
    cases ofLexeme? position lexeme <;> rfl

theorem scanFrom_of_kinded {character : Char} {rest : List Char} {lexeme : Lexeme}
    {kind : TokenKind} (found : Lexeme.first character rest = .ok lexeme)
    (kinded : lexeme.kind? = some kind) (position : Position) :
    scanFrom position [] (character :: rest) =
      (scanFrom (position.after lexeme.text) [] lexeme.rest).map
        (⟨kind, String.ofList lexeme.text, position⟩ :: ·) := by
  rw [scanFrom_of_first found, ofLexeme?, kinded]
  rfl

theorem scanFrom_of_unkinded {character : Char} {rest : List Char} {lexeme : Lexeme}
    (found : Lexeme.first character rest = .ok lexeme) (unkinded : lexeme.kind? = none)
    (position : Position) :
    scanFrom position [] (character :: rest) =
      scanFrom (position.after lexeme.text) [] lexeme.rest := by
  rw [scanFrom_of_first found, ofLexeme?, unkinded]
  cases scanFrom (position.after lexeme.text) [] lexeme.rest <;> rfl

theorem scanFrom_newline (position : Position) (rest : List Char) :
    scanFrom position [] ('\n' :: rest) = scanFrom (position.after ['\n']) [] rest := by
  have found : Lexeme.first '\n' rest = .ok ⟨none, ['\n'], rest⟩ := rfl
  exact scanFrom_of_unkinded found rfl position

/-- Scanning follows the rules. -/
theorem scans_scanFrom (position : Position) (text : List Char) :
    Scans position text (scanFrom position [] text) := by
  induction length : text.length using Nat.strongRecOn generalizing position text with
  | _ length ih =>
    cases text with
    | nil => rw [scanFrom]; exact .finish
    | cons character rest =>
      cases found : Lexeme.first character rest with
      | error fault =>
        have failed : scanFrom position [] (character :: rest) = .error ⟨position, fault⟩ := by
          rw [scanFrom]
          split
          · next other failed => rw [Except.error.inj (failed.symm.trans found)]
          · next lexeme found_other => cases found.symm.trans found_other
        rw [failed]
        exact .fault (Lexeme.offends_of_first found)
      | ok lexeme =>
        have shorter := length ▸ Lexeme.length_rest_lt found
        have whole := Lexeme.text_append_rest found
        have onward := ih _ shorter (position.after lexeme.text) lexeme.rest rfl
        cases kinded : lexeme.kind? with
        | some kind =>
          rw [scanFrom_of_kinded found kinded]
          exact .token found kinded onward
        | none =>
          rw [scanFrom_of_unkinded found kinded, ← whole]
          have skips := Lexeme.skips_of_first found kinded
          generalize lexeme.text = skipped at *
          generalize lexeme.rest = behind at *
          cases skips with
          | piece piece => exact .skip piece onward
          | @line body behind no_newline =>
            -- The newline is a lexeme of its own, which is skipped along with the comment.
            have step : Scans (position.after ('/' :: '/' :: (body ++ ['\n']))) behind
                (scanFrom (position.after ('/' :: '/' :: (body ++ ['\n']))) [] behind) :=
              ih behind.length (Nat.lt_of_succ_lt shorter) _ behind rfl
            rw [scanFrom_newline, ← Position.after_append]
            simpa using Scans.skip (.lineComment no_newline) step
          | comment comment =>
            rw [List.append_nil, scanFrom]
            exact .comment comment

/-- The scan of a text follows the rules from its start. -/
theorem scans_scan (source : String) : Scans .start source.toList (scan source) :=
  scans_scanFrom .start source.toList

end Token

end BlockScript
