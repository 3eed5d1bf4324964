import BlockScript.Proofs.Token.Scanning

/-!
# Texts cut short

A lexeme is the same one if the text behind it is cut short (`first_cut`): the longest symbol, number
or word stays the longest one.  Trivia are skipped whatever stands behind them (`scanFrom_trivia`).
-/

namespace BlockScript

namespace Lexeme

/-! ### Lexemes of a text cut short -/

section Cut

variable {character : Char} {rest tail kept behind : List Char} {kind? : Option TokenKind}

theorem takeWhile_cut {holds : Char → Bool} {text : List Char}
    (left : text.dropWhile holds = kept ++ behind) :
    (text.takeWhile holds ++ kept).takeWhile holds = text.takeWhile holds ∧
      (text.takeWhile holds ++ kept).dropWhile holds = kept := by
  induction text with
  | nil =>
    obtain ⟨rfl, rfl⟩ := List.append_eq_nil_iff.mp left.symm
    exact ⟨rfl, rfl⟩
  | cons first text ih =>
    by_cases goes_on : holds first = true
    · simpa [goes_on] using ih (by simpa [goes_on] using left)
    · cases kept with
      | nil => simp [goes_on]
      | cons next kept =>
        -- What is kept starts where the walk over the whole text stopped.
        rw [List.dropWhile_cons_of_neg goes_on] at left
        obtain ⟨rfl, -⟩ := List.cons.inj left
        simp [goes_on]

theorem blockComment_cut {read text readAll : List Char}
    (comment : blockComment read text = (readAll, kept ++ behind)) :
    ∃ front, text = front ++ behind ∧ blockComment read front = (readAll, kept) := by
  fun_induction blockComment read text with
  | case1 read rest =>
    obtain ⟨rfl, rfl⟩ := Prod.mk.inj comment
    exact ⟨'*' :: '/' :: kept, rfl, rfl⟩
  | case2 read character rest not_end ih =>
    obtain ⟨front, rfl, same⟩ := ih comment
    refine ⟨character :: front, rfl, ?_⟩
    rw [blockComment.eq_2, same]
    -- An end of the comment in the shorter text is one in the longer text, too.
    rintro following rfl rfl
    exact not_end _ rfl rfl
  | case3 read =>
    obtain ⟨rfl, nothing⟩ := Prod.mk.inj comment
    obtain ⟨rfl, rfl⟩ := List.append_eq_nil_iff.mp nothing.symm
    exact ⟨[], rfl, rfl⟩

theorem stringBody?_cut {read value text readAll valueAll : List Char}
    (body : stringBody? read value text = some (readAll, valueAll, kept ++ behind)) :
    ∃ front, text = front ++ behind ∧
      stringBody? read value front = some (readAll, valueAll, kept) := by
  fun_induction stringBody? read value text with
  | case1 => cases body
  | case2 =>
    cases body
    exact ⟨'"' :: kept, rfl, rfl⟩
  | case3 => cases body
  | case4 read value escaped rest ih =>
    obtain ⟨front, rfl, same⟩ := ih body
    exact ⟨'\\' :: escaped :: front, rfl, same⟩
  | case5 read value character rest no_quote no_end no_escape ih =>
    obtain ⟨front, rfl, same⟩ := ih body
    refine ⟨character :: front, rfl, ?_⟩
    rw [stringBody?_plain no_quote (ne_backslash no_end no_escape), same]

theorem symbol?_cut
    (found : symbol? character rest = some ⟨kind?, character :: tail, kept ++ behind⟩) :
    symbol? character (tail ++ kept) = some ⟨kind?, character :: tail, kept⟩ := by
  unfold symbol? at found
  split at found
  · next second following =>
    split at found
    · next pair =>
      cases found
      simp [symbol?, pair]
    · next no_pair =>
      obtain ⟨mark, single, same⟩ := Option.map_eq_some_iff.mp found
      cases kept with
      | nil =>
        cases same
        simp [symbol?, single]
      | cons next kept =>
        cases same
        simp [symbol?, no_pair, single]
  · obtain ⟨mark, single, same⟩ := Option.map_eq_some_iff.mp found
    injection same with kind_eq text_eq rest_eq
    obtain ⟨rfl, rfl⟩ := List.append_eq_nil_iff.mp rest_eq.symm
    obtain ⟨-, rfl⟩ := List.cons.inj text_eq
    simp [symbol?, single, kind_eq]

theorem word_cut {text characters : List Char}
    (found : word text = ⟨kind?, characters, kept ++ behind⟩) :
    word (characters ++ kept) = ⟨kind?, characters, kept⟩ := by
  obtain ⟨rfl, rfl, left⟩ := Lexeme.mk.inj found
  obtain ⟨same, rest_eq⟩ := takeWhile_cut left
  simp only [word, same, rest_eq]

/-- A digit starts a number. -/
theorem first_of_isDigit {digit : Char} (is_digit : digit.isDigit = true) (rest : List Char) :
    first digit rest = .ok (number (digit :: rest)) := by
  have other {character : Char} (no_digit : character.isDigit = false) : digit ≠ character := by
    rintro rfl
    rw [is_digit] at no_digit
    cases no_digit
  have not_blank : isBlank digit = false := by
    simp [isBlank, @other ' ' rfl, @other '\r' rfl, @other '\t' rfl, @other '\n' rfl]
  rw [first, if_neg (by simp [not_blank]), token, if_neg (other rfl), if_pos is_digit]
  · exact fun _ slash => absurd slash (other rfl)
  · exact fun _ slash => absurd slash (other rfl)

theorem number_of_no_fraction {text : List Char}
    (whole : fraction (text.dropWhile Char.isDigit) = []) :
    number text = ⟨some (.number (Number.ofDigits (text.takeWhile Char.isDigit) [])),
      text.takeWhile Char.isDigit, text.dropWhile Char.isDigit⟩ := by
  simp only [number, whole]

theorem number_of_fraction {text following : List Char}
    (point : text.dropWhile Char.isDigit = '.' :: following)
    (digits : following.takeWhile Char.isDigit ≠ []) :
    number text = ⟨some (.number (Number.ofDigits (text.takeWhile Char.isDigit)
        (following.takeWhile Char.isDigit))),
      text.takeWhile Char.isDigit ++ '.' :: following.takeWhile Char.isDigit,
      following.dropWhile Char.isDigit⟩ := by
  have whole := @List.takeWhile_append_dropWhile _ Char.isDigit following
  have dropped := congrArg (List.drop (following.takeWhile Char.isDigit).length) whole
  rw [List.drop_left] at dropped
  have fraction_eq : fraction (text.dropWhile Char.isDigit) = following.takeWhile Char.isDigit := by
    rw [point, fraction]
  unfold number
  dsimp only
  rw [fraction_eq, point]
  split
  · next none => exact absurd none digits
  · rw [List.drop_succ_cons, ← dropped]

/-- A number has a fraction or is whole. -/
theorem number_cases (text : List Char) :
    (∃ following, text.dropWhile Char.isDigit = '.' :: following ∧
      following.takeWhile Char.isDigit ≠ []) ∨ fraction (text.dropWhile Char.isDigit) = [] := by
  unfold fraction
  split
  · next following point =>
    by_cases digits : following.takeWhile Char.isDigit = []
    · exact .inr digits
    · exact .inl ⟨following, point, digits⟩
  · exact .inr rfl

theorem fraction_cut (whole : fraction (kept ++ behind) = []) : fraction kept = [] := by
  cases kept with
  | nil => rfl
  | cons first kept =>
    by_cases point : first = '.'
    · subst point
      cases kept with
      | nil => rfl
      | cons next kept =>
        by_cases digit : next.isDigit = true
        · simp [fraction, digit] at whole
        · simp [fraction, digit]
    · simp [fraction, point]

theorem number_cut {text characters : List Char}
    (found : number text = ⟨kind?, characters, kept ++ behind⟩) :
    number (characters ++ kept) = ⟨kind?, characters, kept⟩ := by
  rcases number_cases text with ⟨following, point, digits⟩ | whole
  · rw [number_of_fraction point digits] at found
    obtain ⟨rfl, rfl, left⟩ := Lexeme.mk.inj found
    obtain ⟨fraction_eq, rest_eq⟩ := takeWhile_cut left
    -- The whole part goes up to the point in both texts, the fraction up to what is kept.
    have following_eq := @List.takeWhile_append_dropWhile _ Char.isDigit following
    rw [left, ← List.append_assoc] at following_eq
    rw [← following_eq, ← List.cons_append] at point
    obtain ⟨digits_eq, point_eq⟩ := takeWhile_cut point
    rw [List.append_assoc, List.cons_append,
      number_of_fraction point_eq (by rwa [fraction_eq]), digits_eq, fraction_eq, rest_eq]
  · rw [number_of_no_fraction whole] at found
    obtain ⟨rfl, rfl, left⟩ := Lexeme.mk.inj found
    obtain ⟨digits_eq, rest_eq⟩ := takeWhile_cut left
    have still_whole : fraction kept = [] := fraction_cut (left ▸ whole)
    rw [number_of_no_fraction (by rw [rest_eq, still_whole]), digits_eq, rest_eq]

theorem token_cut (found : token character rest = .ok ⟨kind?, character :: tail, kept ++ behind⟩) :
    token character (tail ++ kept) = .ok ⟨kind?, character :: tail, kept⟩ := by
  refine token_eq_ok_iff.mpr ?_
  cases token_eq_ok_iff.mp found with
  | string quote body same =>
    obtain ⟨rfl, text_eq, rfl⟩ := Lexeme.mk.inj same
    obtain ⟨front, rfl, cut⟩ := stringBody?_cut body
    have whole := stringBody?_append cut
    rw [text_eq, quote] at whole
    obtain rfl : tail ++ kept = front := (List.cons.inj whole).2
    exact .string quote cut (by rw [text_eq])
  | number no_quote digit same => exact .number no_quote digit (number_cut same)
  | word no_quote no_digit starts same => exact .word no_quote no_digit starts (word_cut same)
  | symbol no_quote no_digit no_word symbol =>
    exact .symbol no_quote no_digit no_word (symbol?_cut symbol)

/-- The first lexeme of a text is also that of the text cut short somewhere behind it. -/
theorem first_cut (found : first character rest = .ok ⟨kind?, character :: tail, kept ++ behind⟩) :
    first character (tail ++ kept) = .ok ⟨kind?, character :: tail, kept⟩ := by
  unfold first at found ⊢
  split at found
  · next blank =>
    rw [if_pos blank]
    cases found
    rfl
  · next not_blank =>
    rw [if_neg not_blank]
    split at found
    · next comment =>
      injection found with same
      obtain ⟨rfl, text_eq, left⟩ := Lexeme.mk.inj same
      obtain ⟨-, rfl⟩ := List.cons.inj text_eq
      obtain ⟨line_eq, rest_eq⟩ := takeWhile_cut left
      simp only [List.cons_append, line_eq, rest_eq]
    · next comment =>
      injection found with same
      obtain ⟨rfl, text_eq, left⟩ := Lexeme.mk.inj same
      obtain ⟨front, rfl, cut⟩ := blockComment_cut (Prod.ext rfl left)
      have whole := blockComment_append ['*', '/'] front
      rw [cut, text_eq] at whole
      have text_cut : tail ++ kept = '*' :: front := (List.cons.inj whole).2
      rw [text_cut]
      simp only [cut, text_eq]
    · next no_line no_block =>
      -- The shorter text does not start with a comment either.
      have whole := token_append found
      have rest_eq : tail ++ kept ++ behind = rest := by
        rw [List.append_assoc]
        exact (List.cons.inj whole).2
      split
      · next comment text_eq => exact absurd (by rw [← rest_eq, text_eq]; rfl) (no_line _ rfl)
      · next comment text_eq => exact absurd (by rw [← rest_eq, text_eq]; rfl) (no_block _ rfl)
      · exact token_cut found

end Cut

/-! ### Trivia -/

theorem first_blank {character : Char} (blank : character ∈ [' ', '\t', '\r', '\n'])
    (rest : List Char) : first character rest = .ok ⟨none, [character], rest⟩ := by
  have is_blank : isBlank character = true := by
    simp only [List.mem_cons, List.not_mem_nil, or_false] at blank
    rcases blank with rfl | rfl | rfl | rfl <;> rfl
  unfold first
  rw [if_pos is_blank]

theorem first_lineComment {body : List Char} (no_newline : '\n' ∉ body) (rest : List Char) :
    first '/' ('/' :: (body ++ '\n' :: rest)) = .ok ⟨none, '/' :: '/' :: body, '\n' :: rest⟩ := by
  have goes_on : ∀ character ∈ body, decide (character ≠ '\n') = true := by
    intro character member
    exact decide_eq_true fun newline => no_newline (newline ▸ member)
  have line := @List.takeWhile_append_of_pos _ _ body ('\n' :: rest) goes_on
  have behind := @List.dropWhile_append_of_pos _ _ body ('\n' :: rest) goes_on
  rw [first, if_neg (by decide)]
  simp only [line, behind]
  simp

theorem blockComment_closed {body : List Char} (no_end : ¬['*', '/'] <:+: body)
    (read rest : List Char) :
    blockComment read (body ++ '*' :: '/' :: rest) = ('/' :: '*' :: (body.reverse ++ read), rest) := by
  induction body generalizing read with
  | nil => rfl
  | cons character body ih =>
    rw [List.infix_cons_iff, not_or] at no_end
    obtain ⟨not_here, not_behind⟩ := no_end
    rw [List.cons_append, blockComment.eq_2, ih not_behind]
    · simp
    · -- A star before the end of the body is not followed by the slash of the end.
      rintro following rfl slash
      cases body with
      | nil => cases slash
      | cons next body =>
        obtain ⟨rfl, -⟩ := List.cons.inj slash
        exact not_here ⟨body, rfl⟩

theorem first_blockComment {body : List Char} (no_end : ¬['*', '/'] <:+: body) (rest : List Char) :
    first '/' ('*' :: (body ++ '*' :: '/' :: rest)) =
      .ok ⟨none, '/' :: '*' :: (body ++ ['*', '/']), rest⟩ := by
  rw [first, if_neg (by decide)]
  simp [blockComment_closed no_end]

end Lexeme

namespace Token

theorem scanFrom_piece {piece : List Char} (first : Piece piece) (position : Position)
    (rest : List Char) :
    scanFrom position [] (piece ++ rest) = scanFrom (position.after piece) [] rest := by
  cases first with
  | blank blank => exact scanFrom_of_unkinded (Lexeme.first_blank blank rest) rfl position
  | @lineComment body no_newline =>
    have line := scanFrom_of_unkinded (Lexeme.first_lineComment no_newline rest) rfl position
    rw [scanFrom_newline, ← Position.after_append] at line
    simpa using line
  | @blockComment body no_end =>
    simpa using scanFrom_of_unkinded (Lexeme.first_blockComment no_end rest) rfl position

/-- Trivia are skipped, whatever stands behind them. -/
theorem scanFrom_trivia {gap : List Char} (trivia : Trivia gap) (position : Position)
    (rest : List Char) :
    scanFrom position [] (gap ++ rest) = scanFrom (position.after gap) [] rest := by
  induction trivia generalizing position with
  | nil => rfl
  | cons first _ ih => rw [List.append_assoc, scanFrom_piece first, ih, Position.after_append]

/-! ### Tokens in front of a text -/

/-- A token is the first lexeme of a text that consists of its characters and the text behind it. -/
def Leads (token : Token) (behind : List Char) : Prop :=
  ∃ character tail, token.lexeme.toList = character :: tail ∧
    Lexeme.first character (tail ++ behind) = .ok ⟨some token.kind, character :: tail, behind⟩

theorem leads_of_first {character : Char} {rest : List Char} {lexeme : Lexeme} {kind : TokenKind}
    (found : Lexeme.first character rest = .ok lexeme) (kinded : lexeme.kind? = some kind)
    (position : Position) : Leads ⟨kind, String.ofList lexeme.text, position⟩ lexeme.rest := by
  have whole := Lexeme.text_append_rest found
  obtain ⟨first, tail, characters⟩ := List.exists_cons_of_ne_nil (Lexeme.text_ne_nil found)
  obtain ⟨kind?, text, behind⟩ := lexeme
  simp only at kinded characters whole
  subst kinded characters
  obtain ⟨rfl, rfl⟩ := List.cons.inj whole
  exact ⟨first, tail, String.toList_ofList, found⟩

/-- The text behind a token can be cut short. -/
theorem Leads.cut {token : Token} {kept behind : List Char}
    (leads : token.Leads (kept ++ behind)) : token.Leads kept := by
  obtain ⟨character, tail, characters, found⟩ := leads
  exact ⟨character, tail, characters, Lexeme.first_cut found⟩

theorem Leads.scanFrom_eq {token : Token} {behind : List Char} (leads : token.Leads behind)
    {position : Position} (stands : token.position = position) :
    scanFrom position [] (token.lexeme.toList ++ behind) =
      (scanFrom (position.after token.lexeme.toList) [] behind).map (token :: ·) := by
  obtain ⟨character, tail, characters, found⟩ := leads
  subst stands
  rw [characters, List.cons_append, scanFrom_of_kinded found rfl]
  simp only [← characters, String.ofList_toList]

end Token

end BlockScript
