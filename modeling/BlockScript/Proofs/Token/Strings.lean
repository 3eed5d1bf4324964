import BlockScript.Proofs.Token.Spacing

/-!
# String literals

What stands between the quotes of a string literal is an encoding of its value, one character after
the other (`Encodes`).  A character may be written in more than one way.  Every encoding is read
back as what it encodes, and nothing else is read as a string (`string_literals_encode`).
-/

namespace BlockScript

/-! ### Encodings -/

/-- The ways to write a character between quotes. -/
inductive EncodesCharacter : Char → List Char → Prop where
  | plain {character} : character ≠ '"' → character ≠ '\\' →
      EncodesCharacter character [character]
  | escaped {character} : character ≠ 'n' → character ≠ 't' →
      EncodesCharacter character ['\\', character]
  | newline : EncodesCharacter '\n' ['\\', 'n']
  | tab : EncodesCharacter '\t' ['\\', 't']

/-- `Encodes value code` says that the characters of a value can be written as a code. -/
inductive Encodes : List Char → List Char → Prop where
  | nil : Encodes [] []
  | cons {character code value rest} : EncodesCharacter character code → Encodes value rest →
      Encodes (character :: value) (code ++ rest)

/-- A code between quotes. -/
def quoted (code : List Char) : String :=
  String.ofList ('"' :: code ++ ['"'])

namespace Lexeme

/-! ### Reading encodings -/

theorem stringBody?_character {character : Char} {code : List Char}
    (encodes : EncodesCharacter character code) (read decoded rest : List Char) :
    stringBody? read decoded (code ++ rest) =
      stringBody? (code.reverse ++ read) (character :: decoded) rest := by
  cases encodes with
  | plain no_quote no_backslash => exact stringBody?_plain no_quote no_backslash ..
  | @escaped character no_n no_t =>
    have itself : unescape character = character := unescape.eq_3 character no_n no_t
    rw [List.cons_append, List.cons_append, stringBody?, itself]
    rfl
  | newline | tab => rfl

theorem stringBody?_of_encodes {value code : List Char} (encodes : Encodes value code)
    (read decoded rest : List Char) :
    stringBody? read decoded (code ++ '"' :: rest) =
      some ('"' :: (code.reverse ++ read), value.reverse ++ decoded, rest) := by
  induction encodes generalizing read decoded with
  | nil => rfl
  | cons first _ ih =>
    rw [List.append_assoc, stringBody?_character first, ih]
    simp

/-- What stands behind a backslash is a way to write what it stands for. -/
theorem encodesCharacter_unescape (escaped : Char) :
    EncodesCharacter (unescape escaped) ['\\', escaped] := by
  unfold unescape
  split
  · exact .newline
  · exact .tab
  · next no_n no_t => exact .escaped no_n no_t

theorem encodes_of_stringBody? {read decoded text readAll decodedAll rest : List Char}
    (body : stringBody? read decoded text = some (readAll, decodedAll, rest)) :
    ∃ value code, Encodes value code ∧ readAll = '"' :: (code.reverse ++ read) ∧
      decodedAll = value.reverse ++ decoded := by
  fun_induction stringBody? read decoded text with
  | case1 => cases body
  | case2 read decoded rest =>
    cases body
    exact ⟨[], [], .nil, rfl, rfl⟩
  | case3 => cases body
  -- A backslash and what stands behind it are written for one character.
  | case4 read decoded escaped rest ih =>
    obtain ⟨value, code, encodes, rfl, rfl⟩ := ih body
    exact ⟨_, _, .cons (encodesCharacter_unescape escaped) encodes, by simp, by simp⟩
  | case5 read decoded character rest no_quote no_end no_escape ih =>
    obtain ⟨value, code, encodes, rfl, rfl⟩ := ih body
    have no_backslash : character ≠ '\\' := ne_backslash no_end no_escape
    exact ⟨_, _, .cons (.plain no_quote no_backslash) encodes, by simp, by simp⟩

theorem first_quoted {value : String} {code : List Char} (encodes : Encodes value.toList code)
    (rest : List Char) :
    first '"' (code ++ '"' :: rest) =
      .ok ⟨some (.string value), '"' :: code ++ ['"'], rest⟩ := by
  change token '"' (code ++ '"' :: rest) = _
  rw [token, if_pos rfl, stringBody?_of_encodes encodes]
  simp

theorem wordKind_ne_string (word value : String) : wordKind word ≠ .string value := by
  unfold wordKind
  split <;> exact nofun

/-- Only a quote starts a string. -/
theorem encodes_of_token {character : Char} {rest text behind : List Char} {value : String}
    (found : token character rest = .ok ⟨some (.string value), text, behind⟩) :
    ∃ code, Encodes value.toList code ∧ text = '"' :: code ++ ['"'] := by
  cases token_eq_ok_iff.mp found with
  | string _ body same =>
    obtain ⟨kind_eq, rfl, -⟩ := Lexeme.mk.inj same
    obtain ⟨chars, code, encodes, rfl, rfl⟩ := encodes_of_stringBody? body
    obtain rfl : String.ofList chars = value := by simpa using kind_eq
    exact ⟨code, by simpa using encodes, by simp⟩
  | number _ _ same =>
    obtain ⟨number, kinded⟩ := number_kind (character :: rest)
    rw [same] at kinded
    cases kinded
  | word _ _ _ same =>
    exact absurd (Option.some.inj (congrArg kind? same)) (wordKind_ne_string _ _)
  | symbol _ _ _ symbol =>
    obtain ⟨mark, kinded⟩ := symbol?_kind symbol
    cases kinded

theorem encodes_of_first {character : Char} {rest text behind : List Char} {value : String}
    (found : first character rest = .ok ⟨some (.string value), text, behind⟩) :
    ∃ code, Encodes value.toList code ∧ text = '"' :: code ++ ['"'] := by
  unfold first at found
  split at found
  · cases found
  · split at found
    · cases found
    · cases found
    · exact encodes_of_token found

end Lexeme

/-! ### String tokens -/

theorem Token.Leads.encodes {token : Token} {behind : List Char} {value : String}
    (leads : token.Leads behind) (kinded : token.kind = .string value) :
    ∃ code, Encodes value.toList code ∧ token.lexeme = quoted code := by
  obtain ⟨character, tail, characters, found⟩ := leads
  rw [kinded] at found
  obtain ⟨code, encodes, text_eq⟩ := Lexeme.encodes_of_first found
  refine ⟨code, encodes, ?_⟩
  rw [quoted, ← text_eq, ← characters, String.ofList_toList]

/-- Every token of a text but the one that ends it is one wherever it stands at the end of a
text. -/
theorem Token.leads_of_scan {source : String} {tokens : List Token}
    (scanned : Token.scan source = .ok tokens) {token : Token} (member : token ∈ tokens)
    (proper : token.kind ≠ .eof) : token.Leads [] := by
  obtain ⟨items, tail, stop, laid, -, stops, outcome⟩ :=
    Spaced.laid_of_scans (Token.scans_scan source)
  rw [scanned] at outcome
  cases stops with
  | fault => cases outcome
  | finish =>
    rw [Except.ok.inj outcome] at member
    rcases List.mem_append.mp member with within | last
    · obtain ⟨item, item_member, rfl⟩ := List.mem_map.mp within
      exact laid.leads item item_member
    · rw [List.mem_singleton.mp last] at proper
      exact absurd rfl proper

/-- Every encoding of a string, between quotes, is scanned to a token with that string as its value,
and to nothing else.  A string token of any text has an encoding of its value between quotes as its
lexeme. -/
theorem string_literals_encode :
    (∀ (value : String) (code : List Char), Encodes value.toList code →
      Token.scan (quoted code) =
        .ok [⟨.string value, quoted code, .start⟩,
          Token.endAt (Position.start.after (quoted code).toList)]) ∧
    ∀ (source : String) (tokens : List Token), Token.scan source = .ok tokens →
      ∀ token ∈ tokens, ∀ value, token.kind = .string value →
        ∃ code, Encodes value.toList code ∧ token.lexeme = quoted code := by
  constructor
  · intro value code encodes
    have found := Lexeme.first_quoted encodes []
    have scanned := Token.scanFrom_of_kinded found rfl .start
    rw [Token.scanFrom] at scanned
    rw [Token.scan, quoted, String.toList_ofList]
    exact scanned
  · intro source tokens scanned token member value kinded
    have proper : token.kind ≠ .eof := by simp [kinded]
    exact (Token.leads_of_scan scanned member proper).encodes kinded

/-- A quote, a newline and a letter behind backslashes, a tab as it is, and a backslash at the
end. -/
theorem string_literals_encode_escapes :
    let value := "\"\nq\t\\"
    let code := ['\\', '"', '\\', 'n', '\\', 'q', '\t', '\\', '\\']
    Encodes value.toList code ∧
      Token.scan (quoted code) = .ok [⟨.string value, quoted code, ⟨1, 1⟩⟩, ⟨.eof, "", ⟨1, 12⟩⟩] ∧
      ∃ other, Encodes value.toList other ∧ quoted code = quoted other := by
  intro value code
  have encodes : Encodes value.toList code := by
    have characters : value.toList = ['"', '\n', 'q', '\t', '\\'] := by decide
    rw [characters]
    have quoteCode := @EncodesCharacter.escaped '"' (by decide) (by decide)
    have letterCode := @EncodesCharacter.escaped 'q' (by decide) (by decide)
    have tabCode := @EncodesCharacter.plain '\t' (by decide) (by decide)
    have backslashCode := @EncodesCharacter.escaped '\\' (by decide) (by decide)
    exact .cons quoteCode <| .cons .newline <| .cons letterCode <| .cons tabCode <|
      .cons backslashCode .nil
  have scanned : Token.scan (quoted code) =
      .ok [⟨.string value, quoted code, ⟨1, 1⟩⟩, ⟨.eof, "", ⟨1, 12⟩⟩] := by
    have stop : Position.start.after (quoted code).toList = ⟨1, 12⟩ := by decide
    rw [string_literals_encode.1 value code encodes, stop]
    rfl
  exact ⟨encodes, scanned, string_literals_encode.2 _ _ scanned _ List.mem_cons_self value rfl⟩

end BlockScript
