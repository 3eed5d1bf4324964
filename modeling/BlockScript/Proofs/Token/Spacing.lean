import BlockScript.Proofs.Token.Layout
import Mathlib.Data.List.TakeWhile
import Mathlib.Tactic.IntervalCases

/-!
# Other layouts of the same tokens

A token stays the token that it is when other trivia are put behind it, as long as they begin with a
blank (`Leads.extend`): no symbol, number or word goes on with a blank, and no string is closed by
what stands behind it.  So the tokens of a text can be written down again with any trivia between
them (`scan_written`).
-/

namespace BlockScript

/-- A text that begins with a blank. -/
def StartsBlank (text : List Char) : Prop :=
  ∃ character ∈ [' ', '\t', '\r', '\n'], text.head? = some character

namespace Lexeme

/-! ### Lexemes of a text with more behind it -/

/-- A character that no token and no comment mark can go on with. -/
structure Breaks (character : Char) : Prop where
  no_digit : character.isDigit = false
  no_word : continuesWord character = false
  no_point : character ≠ '.'
  no_slash : character ≠ '/'
  no_star : character ≠ '*'
  no_pair : ∀ first, Symbol.ofChar? first ≠ none → Symbol.ofPair? first character = none

theorem breaks_of_blank {character : Char} (blank : character ∈ [' ', '\t', '\r', '\n']) :
    Breaks character := by
  simp only [List.mem_cons, List.not_mem_nil, or_false] at blank
  rcases blank with rfl | rfl | rfl | rfl
  all_goals refine ⟨by decide, by decide, by decide, by decide, by decide, fun first _ => ?_⟩
  all_goals
    unfold Symbol.ofPair?
    split <;> simp_all

section Extend

variable {character next : Char} {rest text kept behind : List Char} {kind? : Option TokenKind}

/-- A walk stops at the same place if something is put behind the text that it does not go on
with. -/
theorem takeWhile_extend {holds : Char → Bool} (left : rest.dropWhile holds = kept)
    (stops : holds next = false) :
    (rest ++ next :: behind).takeWhile holds = rest.takeWhile holds ∧
      (rest ++ next :: behind).dropWhile holds = kept ++ next :: behind := by
  subst left
  induction rest with
  | nil => simp [stops]
  | cons first rest ih =>
    by_cases goes_on : holds first = true
    · simpa [goes_on] using ih
    · simp [goes_on]

theorem stringBody?_extend {read value readAll valueAll : List Char}
    (body : stringBody? read value rest = some (readAll, valueAll, kept)) :
    stringBody? read value (rest ++ behind) = some (readAll, valueAll, kept ++ behind) := by
  fun_induction stringBody? read value rest with
  | case1 => cases body
  | case2 =>
    cases body
    rfl
  | case3 => cases body
  | case4 read value escaped rest ih => exact ih body
  | case5 read value character rest no_quote no_end no_escape ih =>
    rw [List.cons_append, stringBody?_plain no_quote (ne_backslash no_end no_escape)]
    exact ih body

theorem word_extend (found : word rest = ⟨kind?, text, kept⟩) (breaks : Breaks next) :
    word (rest ++ next :: behind) = ⟨kind?, text, kept ++ next :: behind⟩ := by
  obtain ⟨kind_eq, text_eq, left⟩ := Lexeme.mk.inj found
  obtain ⟨same, rest_eq⟩ := @takeWhile_extend next rest kept behind _ left breaks.no_word
  simp only [word, same, rest_eq, text_eq, ← kind_eq]

theorem fraction_extend (whole : fraction kept = []) (breaks : Breaks next) :
    fraction (kept ++ next :: behind) = [] := by
  cases kept with
  | nil => simp [fraction, breaks.no_point]
  | cons first kept =>
    by_cases point : first = '.'
    · subst point
      -- A point needs a digit behind it, which is none that was there and none that is added.
      cases kept with
      | nil => simp [fraction, breaks.no_digit]
      | cons second kept =>
        by_cases digit : second.isDigit = true
        · simp [fraction, digit] at whole
        · simp [fraction, digit]
    · simp [fraction, point]

theorem number_extend (found : number rest = ⟨kind?, text, kept⟩) (breaks : Breaks next) :
    number (rest ++ next :: behind) = ⟨kind?, text, kept ++ next :: behind⟩ := by
  rcases number_cases rest with ⟨following, point, digits⟩ | whole
  · rw [number_of_fraction point digits] at found
    obtain ⟨kind_eq, text_eq, left⟩ := Lexeme.mk.inj found
    obtain ⟨same_whole, point'⟩ := @takeWhile_extend next _ _ behind _ point breaks.no_digit
    obtain ⟨same_fraction, rest_eq⟩ := @takeWhile_extend next _ _ behind _ left breaks.no_digit
    rw [List.cons_append] at point'
    rw [number_of_fraction point' (by rwa [same_fraction]), same_whole, same_fraction, rest_eq,
      kind_eq, text_eq]
  · rw [number_of_no_fraction whole] at found
    obtain ⟨kind_eq, text_eq, left⟩ := Lexeme.mk.inj found
    obtain ⟨same, rest_eq⟩ := @takeWhile_extend next _ _ behind _ left breaks.no_digit
    have still_whole : fraction (kept ++ next :: behind) = [] :=
      fraction_extend (left ▸ whole) breaks
    rw [number_of_no_fraction (by rw [rest_eq, still_whole]), same, rest_eq, kind_eq, text_eq]

theorem symbol?_extend (found : symbol? character rest = some ⟨kind?, text, kept⟩)
    (breaks : Breaks next) :
    symbol? character (rest ++ next :: behind) =
      some ⟨kind?, text, kept ++ next :: behind⟩ := by
  unfold symbol? at found
  split at found
  · next second following =>
    split at found
    · next pair =>
      cases found
      simp [symbol?, pair]
    · next no_pair =>
      obtain ⟨mark, single, same⟩ := Option.map_eq_some_iff.mp found
      cases same
      simp [symbol?, no_pair, single]
  · obtain ⟨mark, single, same⟩ := Option.map_eq_some_iff.mp found
    have no_pair := breaks.no_pair character (by simp [single])
    cases same
    simp [symbol?, no_pair, single]

theorem token_extend (found : token character rest = .ok ⟨kind?, text, kept⟩)
    (breaks : Breaks next) :
    token character (rest ++ next :: behind) = .ok ⟨kind?, text, kept ++ next :: behind⟩ := by
  refine token_eq_ok_iff.mpr ?_
  cases token_eq_ok_iff.mp found with
  | string quote body same =>
    obtain ⟨rfl, rfl, rfl⟩ := Lexeme.mk.inj same
    exact .string quote (stringBody?_extend body) rfl
  | number no_quote digit same => exact .number no_quote digit (number_extend same breaks)
  | word no_quote no_digit starts same =>
    exact .word no_quote no_digit starts (word_extend same breaks)
  | symbol no_quote no_digit no_word symbol =>
    exact .symbol no_quote no_digit no_word (symbol?_extend symbol breaks)

theorem not_open_of_kinded {kind : TokenKind}
    (found : first character rest = .ok ⟨some kind, text, kept⟩) :
    ¬OpenComment (character :: rest) := by
  intro comment
  cases comment <;> cases found

/-- A line comment that ends within a text is not changed by what is put behind the text. -/
theorem first_lineComment_append {comment : List Char}
    (ends : ¬OpenComment ('/' :: '/' :: comment)) (behind : List Char) :
    first '/' ('/' :: (comment ++ behind)) =
      .ok ⟨none, '/' :: '/' :: comment.takeWhile (· ≠ '\n'),
        comment.dropWhile (· ≠ '\n') ++ behind⟩ := by
  obtain ⟨no_newline, ended | ⟨others, ended⟩⟩ := line_ends comment
  · -- Without a newline the comment goes on to the end.
    rw [List.dropWhile_eq_nil_iff] at ended
    refine absurd (.line fun newline => ?_) ends
    simpa using ended _ newline
  · have whole : comment ++ behind =
        comment.takeWhile (· ≠ '\n') ++ '\n' :: (others ++ behind) := by
      rw [← List.cons_append, ← List.append_assoc, ← ended, List.takeWhile_append_dropWhile]
    rw [whole, ended]
    exact first_lineComment no_newline (others ++ behind)

/-- Nor is a block comment that is closed within the text. -/
theorem first_blockComment_append {comment : List Char}
    (ends : ¬OpenComment ('/' :: '*' :: comment)) (behind : List Char) :
    first '/' ('*' :: (comment ++ behind)) =
      .ok ⟨none, (blockComment ['*', '/'] comment).1.reverse,
        (blockComment ['*', '/'] comment).2 ++ behind⟩ := by
  rcases blockComment_closed_or_open ['*', '/'] comment with
    ⟨body, no_end, comment_eq, read_eq⟩ | ⟨no_end, -⟩
  · have whole : comment ++ behind =
        body ++ '*' :: '/' :: ((blockComment ['*', '/'] comment).2 ++ behind) := by
      rw [← List.cons_append, ← List.cons_append, ← List.append_assoc, ← comment_eq]
    rw [whole, read_eq]
    exact first_blockComment no_end _
  · exact absurd (.block no_end) ends

/-- The first lexeme of a text, if it is no comment that goes on to the end, stays the first one if
a character is put behind the text that nothing goes on with. -/
theorem first_extend (found : first character rest = .ok ⟨kind?, text, kept⟩)
    (not_open : ¬OpenComment (character :: rest)) (breaks : Breaks next) :
    first character (rest ++ next :: behind) = .ok ⟨kind?, text, kept ++ next :: behind⟩ := by
  unfold first at found ⊢
  split at found
  · next blank =>
    cases found
    rw [if_pos blank]
  · next not_blank =>
    rw [if_neg not_blank]
    split at found
    · cases found
      exact first_lineComment_append not_open (next :: behind)
    · cases found
      exact first_blockComment_append not_open (next :: behind)
    · next no_line no_block =>
      -- Two characters start a comment only if they did so before, as what is added starts none.
      split
      · next comment rest_eq =>
        cases rest with
        | nil => exact absurd (List.cons.inj rest_eq).1 breaks.no_slash
        | cons second rest =>
          obtain ⟨rfl, -⟩ := List.cons.inj rest_eq
          exact absurd rfl (no_line _ rfl)
      · next comment rest_eq =>
        cases rest with
        | nil => exact absurd (List.cons.inj rest_eq).1 breaks.no_star
        | cons second rest =>
          obtain ⟨rfl, -⟩ := List.cons.inj rest_eq
          exact absurd rfl (no_block _ rfl)
      · exact token_extend found breaks

end Extend

end Lexeme

/-! ### Tokens in front of other trivia -/

namespace Token

/-- Any text that begins with a blank can be put behind a token in place of what stands there. -/
theorem Leads.extend {token : Token} {behind other : List Char} (leads : token.Leads behind)
    (separates : StartsBlank other ∨ other = []) : token.Leads other := by
  have alone : token.Leads [] := @Leads.cut token [] behind leads
  rcases separates with ⟨blank, member, head⟩ | rfl
  · obtain ⟨rest, rfl⟩ := List.head?_eq_some_iff.mp head
    obtain ⟨character, tail, characters, found⟩ := alone
    rw [List.append_nil] at found
    have breaks := Lexeme.breaks_of_blank member
    exact ⟨character, tail, characters,
      Lexeme.first_extend found (Lexeme.not_open_of_kinded found) breaks⟩
  · exact alone

/-- The text of tokens with gaps in front of, between and behind them. -/
def written (gaps : Nat → List Char) : List Token → List Char
  | [] => gaps 0
  | token :: tokens =>
    gaps 0 ++ token.lexeme.toList ++ written (fun place => gaps (place + 1)) tokens

end Token

/-- Gaps that keep a number of tokens apart.  All of them are trivia.  A gap between two tokens
begins with a blank, and so does the one behind the last token, unless it is empty. -/
structure Separating (gaps : Nat → List Char) (count : Nat) : Prop where
  trivia : ∀ place ≤ count, Trivia (gaps place)
  blank : ∀ place, 0 < place → place ≤ count →
    StartsBlank (gaps place) ∨ place = count ∧ gaps place = []

namespace Separating

variable {gaps : Nat → List Char} {tokens : List Token}

theorem tail {count : Nat} (separating : Separating gaps (count + 1)) :
    Separating (fun place => gaps (place + 1)) count where
  trivia place le := separating.trivia (place + 1) (Nat.succ_le_succ le)
  blank place _ le := by
    have blank := separating.blank (place + 1) (Nat.succ_pos place) (Nat.succ_le_succ le)
    simpa using blank

/-- What stands behind the first token begins with the gap behind it. -/
theorem startsBlank_written (separating : Separating gaps (tokens.length + 1)) :
    StartsBlank (Token.written (fun place => gaps (place + 1)) tokens) ∨
      Token.written (fun place => gaps (place + 1)) tokens = [] := by
  have behind := separating.blank 1 Nat.one_pos (Nat.succ_le_succ (Nat.zero_le _))
  cases tokens with
  | nil => exact behind.imp_right And.right
  | cons token tokens =>
    -- Another token follows, so the gap is not the last one and cannot be empty.
    rcases behind with ⟨character, member, head⟩ | ⟨last, -⟩
    · refine .inl ⟨character, member, ?_⟩
      simp [Token.written, head]
    · simp at last

/-- Tokens with gaps around them are scanned to the same kinds and the same lexemes. -/
theorem scanFrom_written (position : Position) (separating : Separating gaps tokens.length)
    (lead : ∀ token ∈ tokens, token.Leads []) :
    ∃ again, Token.scanFrom position [] (Token.written gaps tokens) =
        .ok (again ++ [Token.endAt (position.after (Token.written gaps tokens))]) ∧
      again.map (·.kind) = tokens.map (·.kind) ∧ again.map (·.lexeme) = tokens.map (·.lexeme) := by
  induction tokens generalizing gaps position with
  | nil =>
    refine ⟨[], ?_, rfl, rfl⟩
    have skipped := Token.scanFrom_trivia (separating.trivia 0 (Nat.zero_le _)) position []
    rw [List.append_nil, Token.scanFrom] at skipped
    exact skipped
  | cons token tokens ih =>
    have trivia := separating.trivia 0 (Nat.zero_le _)
    let behind := Token.written (fun place => gaps (place + 1)) tokens
    -- The token is the same one at its new place.
    let moved : Token := ⟨token.kind, token.lexeme, position.after (gaps 0)⟩
    have leads : moved.Leads behind :=
      (lead token List.mem_cons_self).extend separating.startsBlank_written
    obtain ⟨again, scanned, kinds, lexemes⟩ :=
      ih ((position.after (gaps 0)).after token.lexeme.toList) separating.tail
        fun other member => lead other (List.mem_cons_of_mem _ member)
    refine ⟨moved :: again, ?_, by simp [moved, kinds], by simp [moved, lexemes]⟩
    have text_eq : Token.written gaps (token :: tokens) =
        gaps 0 ++ (moved.lexeme.toList ++ behind) := by
      simp [Token.written, moved, behind]
    rw [text_eq, Token.scanFrom_trivia trivia, leads.scanFrom_eq rfl, scanned]
    simp only [Position.after_append]
    rfl

end Separating

/-- Every token of a laid out text is one wherever it stands at the end of a text. -/
theorem Spaced.Laid.leads {position : Position} {items : List Spaced} {tail : List Char}
    (laid : Spaced.Laid position items tail) : ∀ item ∈ items, item.token.Leads [] := by
  induction laid with
  | nil => simp
  | cons _ leads _ _ ih =>
    intro other member
    rcases List.mem_cons.mp member with rfl | later
    · exact leads.extend (.inr rfl)
    · exact ih other later

/-- The lexemes of a text, written down again with other trivia around them that keep them apart,
are scanned to tokens of the same kinds, with what they stand for, and with the same lexemes, and
then to the end of the text. -/
theorem scan_written {source : String} {tokens : List Token} {last : Token}
    (scanned : Token.scan source = .ok (tokens ++ [last])) {gaps : Nat → List Char}
    (separating : Separating gaps tokens.length) :
    ∃ again stop, Token.scan (String.ofList (Token.written gaps tokens)) = .ok (again ++ [stop]) ∧
      again.map (·.kind) = tokens.map (·.kind) ∧ again.map (·.lexeme) = tokens.map (·.lexeme) ∧
      stop.kind = .eof ∧ stop.lexeme = "" := by
  obtain ⟨items, tail, stop, laid, -, -, outcome⟩ :=
    Spaced.laid_of_scans (Token.scans_scan source)
  rw [scanned] at outcome
  cases stop with
  | error cause => cases outcome
  | ok found =>
    obtain ⟨rfl, -⟩ := List.append_inj' (Except.ok.inj outcome) rfl
    have lead : ∀ token ∈ items.map (·.token), token.Leads [] := by
      intro token member
      obtain ⟨item, item_member, rfl⟩ := List.mem_map.mp member
      exact laid.leads item item_member
    obtain ⟨again, again_scanned, kinds, lexemes⟩ := separating.scanFrom_written .start lead
    let stop := Token.endAt (Position.start.after (Token.written gaps (items.map (·.token))))
    refine ⟨again, stop, ?_, kinds, lexemes, rfl, rfl⟩
    rw [Token.scan, String.toList_ofList]
    exact again_scanned

/-- A slash that no longer touches its operands, in front of a comment and behind one. -/
theorem scan_written_slash :
    let tokens : List Token := [⟨.identifier "a", "a", ⟨1, 1⟩⟩, ⟨.symbol .slash, "/", ⟨1, 2⟩⟩,
      ⟨.string "b", "\"\\b\"", ⟨1, 3⟩⟩]
    let gaps : Nat → List Char := fun place =>
      if place = 0 then ['/', '*', '*', '/'] else if place = 1 then [' ', '/', '/', '\n']
      else if place = 2 then ['\n'] else []
    Token.scan "a/\"\\b\"" = .ok (tokens ++ [⟨.eof, "", ⟨1, 7⟩⟩]) ∧ Separating gaps tokens.length ∧
      ∃ again stop, Token.scan (String.ofList (Token.written gaps tokens)) = .ok (again ++ [stop]) ∧
        again.map (·.kind) = tokens.map (·.kind) ∧ again.map (·.lexeme) = tokens.map (·.lexeme) ∧
        stop.kind = .eof ∧ stop.lexeme = "" := by
  intro tokens gaps
  have scanned : Token.scan "a/\"\\b\"" = .ok (tokens ++ [⟨.eof, "", ⟨1, 7⟩⟩]) := by
    with_unfolding_all rfl
  have separating : Separating gaps tokens.length := by
    constructor
    · intro place le
      have le : place ≤ 3 := le
      interval_cases place
      · exact .cons (@Piece.blockComment [] (by decide)) .nil
      · exact .cons (@Piece.blank ' ' (by decide)) (.cons (@Piece.lineComment [] (by decide)) .nil)
      · exact .cons (@Piece.blank '\n' (by decide)) .nil
      · exact .nil
    · intro place pos le
      have le : place ≤ 3 := le
      interval_cases place
      · exact .inl ⟨' ', by decide, rfl⟩
      · exact .inl ⟨'\n', by decide, rfl⟩
      · exact .inr ⟨rfl, rfl⟩
  exact ⟨scanned, separating, scan_written scanned separating⟩

end BlockScript
