import BlockScript.Proofs.Token.Truncation

/-!
# Texts as tokens and trivia

A text that scans is the lexemes of its tokens one after the other, with trivia in front of each of
them and behind the last one (`lexemes_cover_source`).  Each token stands where its position says,
and so does the text that ends a scan without tokens (`positions_count_source`).
-/

namespace BlockScript

/-! ### Positions by counting -/

/-- The line and the column behind a text: one more than the newlines in it, and one more than the
characters behind the last of them. -/
def Position.behind (text : List Char) : Position :=
  ⟨1 + text.count '\n', 1 + (text.reverse.takeWhile (· ≠ '\n')).length⟩

theorem Position.behind_append_singleton (text : List Char) (character : Char) :
    Position.behind (text ++ [character]) = (Position.behind text).next character := by
  by_cases newline : character = '\n'
  · subst newline
    simp [Position.behind, Position.next, Nat.add_assoc]
  · simp [Position.behind, Position.next, newline, Nat.add_assoc]

/-- To walk over a text is to count its newlines and the characters behind the last one. -/
theorem Position.start_after (text : List Char) : Position.start.after text = .behind text := by
  -- From the end of the text, as the last character is the last one walked over.
  suffices ∀ reversed : List Char,
      Position.start.after reversed.reverse = .behind reversed.reverse by
    simpa using this text.reverse
  intro reversed
  induction reversed with
  | nil => rfl
  | cons character reversed ih =>
    rw [List.reverse_cons, Position.after_append, ih, Position.behind_append_singleton]
    rfl

/-! ### Layouts -/

/-- A token and the trivia in front of it. -/
structure Spaced where
  gap : List Char
  token : Token

namespace Spaced

/-- The text of a token and of the trivia in front of it. -/
def text (item : Spaced) : List Char :=
  item.gap ++ item.token.lexeme.toList

/-- The text of tokens with the trivia in front of each of them. -/
def textAll (items : List Spaced) : List Char :=
  items.flatMap text

@[simp] theorem textAll_cons (item : Spaced) (items : List Spaced) :
    textAll (item :: items) = item.text ++ textAll items := rfl

/-- A token that is not the end of the text and has characters of its own, behind trivia. -/
structure Sound (item : Spaced) : Prop where
  gap : Trivia item.gap
  kind_ne_eof : item.token.kind ≠ .eof
  lexeme_ne_empty : item.token.lexeme ≠ ""

/-- Tokens one after the other from a position on, in front of the rest of a text.  Each of them is
the first lexeme from its place on, behind trivia, and knows where it stands. -/
inductive Laid : Position → List Spaced → List Char → Prop where
  | nil {position tail} : Laid position [] tail
  | cons {position item items tail} : Trivia item.gap → item.token.Leads (textAll items ++ tail) →
      item.token.position = position.after item.gap →
      Laid (position.after item.text) items tail → Laid position (item :: items) tail

/-- How a scan stops in the text behind its tokens: with the token that ends the text, or with an
error where the text offends. -/
inductive Stops : Position → List Char → Except LexError Token → Prop where
  | finish {position gap} : FinalGap gap → Stops position gap (.ok (.endAt (position.after gap)))
  | fault {position gap offending fault} : Trivia gap → Offends fault offending →
      Stops position (gap ++ offending) (.error ⟨position.after gap, fault⟩)

/-- A piece of trivia belongs to the gap that follows it. -/
theorem Stops.skip {position : Position} {piece tail : List Char} {stop : Except LexError Token}
    (first : Piece piece) (stops : Stops (position.after piece) tail stop) :
    Stops position (piece ++ tail) stop := by
  cases stops with
  | finish final =>
    rw [← Position.after_append]
    exact .finish (final.skip first)
  | fault trivia offends =>
    rw [← Position.after_append, ← List.append_assoc]
    exact .fault (.cons first trivia) offends

theorem Laid.skip {position : Position} {piece tail : List Char} {item : Spaced}
    {items : List Spaced} (first : Piece piece)
    (laid : Laid (position.after piece) (item :: items) tail) :
    Laid position (⟨piece ++ item.gap, item.token⟩ :: items) tail := by
  cases laid with
  | cons trivia leads stands rest =>
    refine .cons (.cons first trivia) leads ?_ ?_
    · rw [stands, ← Position.after_append]
    · rwa [text, List.append_assoc, Position.after_append]

/-- The rules of scanning lay a text out. -/
theorem laid_of_scans {position : Position} {source : List Char}
    {outcome : Except LexError (List Token)} (scans : Scans position source outcome) :
    ∃ items tail stop, Laid position items tail ∧ source = textAll items ++ tail ∧
      Stops (position.after (textAll items)) tail stop ∧
      outcome = stop.map fun last => items.map token ++ [last] := by
  induction scans with
  | finish => exact ⟨[], [], _, .nil, rfl, .finish (.closed .nil), rfl⟩
  | @comment position text comment =>
    exact ⟨[], text, _, .nil, rfl, .finish (.unterminated .nil comment), rfl⟩
  | @skip position piece rest outcome first _ ih =>
    obtain ⟨items, tail, stop, laid, rfl, stops, rfl⟩ := ih
    -- What is skipped joins the gap in front of the next token, or the tail if there is none.
    cases items with
    | nil => exact ⟨[], piece ++ tail, stop, .nil, rfl, stops.skip first, rfl⟩
    | cons item items =>
      refine ⟨⟨piece ++ item.gap, item.token⟩ :: items, tail, stop, laid.skip first, ?_, ?_, rfl⟩
      · simp [text]
      · simpa [text, Position.after_append] using stops
  | @token position character rest lexeme kind outcome found kinded _ ih =>
    obtain ⟨items, tail, stop, laid, rest_eq, stops, rfl⟩ := ih
    have whole := Lexeme.text_append_rest found
    have leads := Token.leads_of_first found kinded position
    let item : Spaced := ⟨[], ⟨kind, String.ofList lexeme.text, position⟩⟩
    have item_text : item.text = lexeme.text := by simp [text, item]
    refine ⟨item :: items, tail, stop, ?_, ?_, ?_, ?_⟩
    · exact .cons .nil (rest_eq ▸ leads) rfl (item_text ▸ laid)
    · rw [← whole, rest_eq, textAll_cons, item_text, List.append_assoc]
    · rwa [textAll_cons, item_text, Position.after_append]
    · cases stop <;> rfl
  | @fault position source fault offends =>
    exact ⟨[], [] ++ source, _, .nil, rfl, .fault .nil offends, rfl⟩

theorem sound_of_leads {item : Spaced} {behind : List Char} (trivia : Trivia item.gap)
    (leads : item.token.Leads behind) : item.Sound := by
  obtain ⟨character, tail, characters, found⟩ := leads
  refine ⟨trivia, Lexeme.kind_ne_eof found rfl, fun empty => ?_⟩
  simp [empty] at characters

theorem Laid.sound {position : Position} {items : List Spaced} {tail : List Char}
    (laid : Laid position items tail) : ∀ item ∈ items, item.Sound := by
  induction laid with
  | nil => simp
  | cons trivia leads _ _ ih =>
    intro other member
    rcases List.mem_cons.mp member with rfl | later
    · exact sound_of_leads trivia leads
    · exact ih other later

theorem Laid.cut {position : Position} {items : List Spaced} {kept behind : List Char}
    (laid : Laid position items (kept ++ behind)) : Laid position items kept := by
  generalize whole : kept ++ behind = tail at laid
  induction laid with
  | nil => exact .nil
  | cons trivia leads stands _ ih =>
    rw [← whole, ← List.append_assoc] at leads
    exact .cons trivia leads.cut stands (ih whole)

/-- Tokens in front of trivia are what the text of both scans to. -/
theorem Laid.scanFrom_eq {position : Position} {items : List Spaced} {gap : List Char}
    (laid : Laid position items gap) (final : Trivia gap) :
    Token.scanFrom position [] (textAll items ++ gap) =
      .ok (items.map token ++ [Token.endAt (position.after (textAll items ++ gap))]) := by
  induction laid with
  | @nil position gap =>
    have skipped := Token.scanFrom_trivia final position []
    rw [List.append_nil, Token.scanFrom] at skipped
    exact skipped
  | @cons position item items gap trivia leads stands _ ih =>
    have onward := ih final
    rw [text, Position.after_append] at onward
    have parts : textAll (item :: items) ++ gap =
        item.gap ++ (item.token.lexeme.toList ++ (textAll items ++ gap)) := by
      simp [text]
    rw [parts, Token.scanFrom_trivia trivia, leads.scanFrom_eq stands, onward]
    simp only [Position.after_append]
    rfl

/-- A token stands behind the tokens in front of it and its own trivia. -/
theorem Laid.position_eq {position : Position} {earlier later : List Spaced} {item : Spaced}
    {tail : List Char} (laid : Laid position (earlier ++ item :: later) tail) :
    item.token.position = position.after (textAll earlier ++ item.gap) := by
  induction earlier generalizing position with
  | nil =>
    cases laid with
    | cons _ _ stands _ => exact stands
  | cons first earlier ih =>
    cases laid with
    | cons _ _ _ rest =>
      rw [ih rest, textAll_cons, List.append_assoc, ← Position.after_append]

end Spaced

open Spaced

/-! ### Scans -/

/-- The tokens of a text, the last of which is its end and has no characters, and the trivia around
them make up the whole text: nothing else is left out, and nothing belongs to two tokens. -/
theorem lexemes_cover_source {source : String} {tokens : List Token}
    (scanned : Token.scan source = .ok tokens) :
    ∃ (items : List Spaced) (finalGap : List Char) (last : Token),
      tokens = items.map (·.token) ++ [last] ∧ last.kind = .eof ∧ last.lexeme = "" ∧
        source.toList = textAll items ++ finalGap ∧ (∀ item ∈ items, item.Sound) ∧
        FinalGap finalGap := by
  have scans := Token.scans_scan source
  obtain ⟨items, tail, stop, laid, source_eq, stops, outcome⟩ := laid_of_scans scans
  rw [scanned] at outcome
  cases stops with
  | finish final =>
    have tokens_eq := Except.ok.inj outcome
    exact ⟨items, tail, _, tokens_eq, rfl, rfl, source_eq, laid.sound, final⟩
  | fault => cases outcome

/-- A line comment, a closed and an unclosed block comment are trivia, and the newline is, too. -/
theorem lexemes_cover_comments :
    Token.scan "a//b\n/*c*/\"d\"/*e" =
        .ok [⟨.identifier "a", "a", ⟨1, 1⟩⟩, ⟨.string "d", "\"d\"", ⟨2, 6⟩⟩, ⟨.eof, "", ⟨2, 12⟩⟩] ∧
      ∃ (items : List Spaced) (finalGap : List Char) (last : Token),
        [⟨.identifier "a", "a", ⟨1, 1⟩⟩, ⟨.string "d", "\"d\"", ⟨2, 6⟩⟩, ⟨.eof, "", ⟨2, 12⟩⟩] =
            items.map (·.token) ++ [last] ∧ last.kind = .eof ∧ last.lexeme = "" ∧
          "a//b\n/*c*/\"d\"/*e".toList = textAll items ++ finalGap ∧
          (∀ item ∈ items, item.Sound) ∧ FinalGap finalGap := by
  have scanned : Token.scan "a//b\n/*c*/\"d\"/*e" =
      .ok [⟨.identifier "a", "a", ⟨1, 1⟩⟩, ⟨.string "d", "\"d\"", ⟨2, 6⟩⟩, ⟨.eof, "", ⟨2, 12⟩⟩] := by
    -- The scanner recurses on what is left to read, so its recursion has to be unfolded as well.
    with_unfolding_all rfl
  exact ⟨scanned, lexemes_cover_source scanned⟩

/-- Each token of a text carries the position of its first character, the last token that of the
end of the text.  If a text has no tokens, the position of the error is that of the first character
of what offends, and the text in front of it scans to tokens that end with trivia. -/
theorem positions_count_source (source : String) :
    (∀ tokens, Token.scan source = .ok tokens →
      ∃ (items : List Spaced) (finalGap : List Char) (last : Token),
        tokens = items.map (·.token) ++ [last] ∧ source.toList = textAll items ++ finalGap ∧
          (∀ item ∈ items, item.Sound) ∧ FinalGap finalGap ∧
          (∀ earlier item later, items = earlier ++ item :: later →
            item.token.position = .behind (textAll earlier ++ item.gap)) ∧
          last.kind = .eof ∧ last.position = .behind source.toList) ∧
    ∀ error, Token.scan source = .error error →
      ∃ (items : List Spaced) (gap offending : List Char),
        source.toList = textAll items ++ gap ++ offending ∧ Trivia gap ∧
          (∀ item ∈ items, item.Sound) ∧
          Token.scan (String.ofList (textAll items ++ gap)) =
            .ok (items.map (·.token) ++ [Token.endAt error.position]) ∧
          Offends error.fault offending ∧ error.position = .behind (textAll items ++ gap) := by
  have scans := Token.scans_scan source
  obtain ⟨items, tail, stop, laid, source_eq, stops, outcome⟩ := laid_of_scans scans
  constructor
  · intro tokens scanned
    rw [scanned] at outcome
    cases stops with
    | finish final =>
      have tokens_eq := Except.ok.inj outcome
      refine ⟨items, tail, _, tokens_eq, source_eq, laid.sound, final, ?_, rfl, ?_⟩
      · rintro earlier item later rfl
        rw [laid.position_eq, Position.start_after]
      · rw [source_eq, ← Position.start_after, Position.after_append]
        rfl
    | fault => cases outcome
  · intro error scanned
    rw [scanned] at outcome
    cases stops with
    | finish => cases outcome
    | @fault gap offending fault trivia offends =>
      obtain rfl := Except.error.inj outcome
      -- The text in front of what offends is scanned as it is within the whole text.
      have front := laid.cut.scanFrom_eq trivia
      refine ⟨items, gap, offending, ?_, trivia, laid.sound, ?_, offends, ?_⟩
      · rw [source_eq, List.append_assoc]
      · rw [Token.scan, String.toList_ofList, front, Position.after_append]
      · rw [← Position.start_after, Position.after_append]

end BlockScript
