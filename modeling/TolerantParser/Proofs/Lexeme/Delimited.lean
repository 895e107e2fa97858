import TolerantParser.Proofs.Lexeme.Alone

/-!
String literals and what is between their quotes. The lexer looks for the closing quotes from the left, going over what
backslashes hide; the contents are found from the letters in front and the quotes at the end. Both find the same text
(`Delimited`).
-/

namespace TolerantParser

variable {d : Dialect} {quote : Char} {quotes text rest : List Char} {length : Nat}

/-- A literal with these quotes would go on behind a text: a backslash hides the character behind it, or the line end,
and there is always one; the quotes are not in what is left, and no line end if it is one quote. -/
def intact (quotes : List Char) : List Char → Bool
  | [] => true
  | ['\\'] => false
  | '\\' :: '\r' :: '\n' :: rest => intact quotes rest
  | '\\' :: _ :: rest => intact quotes rest
  | c :: rest => !quotes.isPrefixOf (c :: rest) && !(quotes.length == 1 && isLineEndChar c) && intact quotes rest

/-- The four ways of quoting. -/
def delimiters : List (List Char) := [['\''], ['"'], ['\'', '\'', '\''], ['"', '"', '"']]

/-- A literal is letters that the dialect marks literals with, and between quotes its contents, which do not end
earlier. -/
def Delimited (d : Dialect) (text : List Char) : Prop :=
  ∃ letters quotes, text = letters ++ quotes ++ stringContents text ++ quotes ∧
    String.ofList (letters.map Char.toLower) ∈ d.stringMarks ∧ quotes ∈ delimiters ∧
    intact quotes (stringContents text)

theorem intact_plain {c : Char} (plain : c ≠ '\\') : intact quotes (c :: rest) =
    (!quotes.isPrefixOf (c :: rest) && !(quotes.length == 1 && isLineEndChar c) && intact quotes rest) := by
  rw [intact] <;> simp [plain]

theorem intact_hidden (behind : intact quotes rest) (c : Char) : intact quotes ('\\' :: c :: rest) := by
  by_cases pair : c = '\r' ∧ rest.head? = some '\n'
  · obtain ⟨rfl, first⟩ := pair
    obtain ⟨rest, rfl⟩ := List.head?_eq_some_iff.1 first
    rw [intact_plain (by decide), Bool.and_eq_true] at behind
    exact behind.2
  · rw [intact]
    · exact behind
    · rintro tail rfl rfl
      exact pair ⟨rfl, rfl⟩

/-! ### Closing quotes -/

theorem intact_closeTriple (closed : closeTriple quote text = some length) :
    ∃ inner back, text = inner ++ [quote, quote, quote] ++ back ∧ inner.length + 3 = length ∧
      intact [quote, quote, quote] inner := by
  fun_induction closeTriple quote text generalizing length with
  | case1 => cases closed
  | case2 => cases closed
  | case3 c rest ih =>
    obtain ⟨fewer, found, rfl⟩ := Option.map_eq_some_iff.1 closed
    obtain ⟨inner, back, rfl, rfl, within⟩ := ih found
    exact ⟨'\\' :: c :: inner, back, rfl, rfl, intact_hidden within c⟩
  | case4 c rest alone hidden here =>
    cases closed
    simp only [Bool.and_eq_true, beq_iff_eq, List.isPrefixOf_iff_prefix] at here
    obtain ⟨rfl, back, rfl⟩ := here
    exact ⟨[], back, rfl, rfl, rfl⟩
  | case5 c rest alone hidden notHere ih =>
    obtain ⟨fewer, found, rfl⟩ := Option.map_eq_some_iff.1 closed
    obtain ⟨inner, back, rfl, rfl, within⟩ := ih found
    have plain := ne_backslash alone hidden
    refine ⟨c :: inner, back, rfl, rfl, ?_⟩
    have goesOn : [quote, quote, quote].isPrefixOf (c :: inner) = false := by
      rw [← Bool.not_eq_true, List.isPrefixOf_iff_prefix, List.cons_prefix_cons]
      rintro ⟨rfl, more⟩
      refine notHere ?_
      rw [beq_self_eq_true, Bool.true_and, List.isPrefixOf_iff_prefix, List.append_assoc]
      exact more.trans (List.prefix_append _ _)
    rw [intact_plain plain, within, goesOn]
    rfl

theorem intact_closeSingle (closed : closeSingle quote text = (true, length)) :
    ∃ inner back, text = inner ++ quote :: back ∧ inner.length + 1 = length ∧ intact [quote] inner := by
  fun_induction closeSingle quote text generalizing length with
  | case1 => cases closed
  | case2 => cases closed
  | case3 rest ih =>
    obtain ⟨fewer, found, rfl⟩ := counted closed
    obtain ⟨inner, back, rfl, rfl, within⟩ := ih found
    exact ⟨'\\' :: '\r' :: '\n' :: inner, back, rfl, rfl, within⟩
  | case4 c rest pair ih =>
    obtain ⟨fewer, found, rfl⟩ := counted closed
    obtain ⟨inner, back, rfl, rfl, within⟩ := ih found
    exact ⟨'\\' :: c :: inner, back, rfl, rfl, intact_hidden within c⟩
  | case5 c rest alone pair hidden here =>
    cases closed
    obtain rfl := eq_of_beq here
    exact ⟨[], rest, rfl, rfl, rfl⟩
  | case6 => cases closed
  | case7 c rest alone pair hidden notHere goesOn ih =>
    obtain ⟨fewer, found, rfl⟩ := counted closed
    obtain ⟨inner, back, rfl, rfl, within⟩ := ih found
    have plain := ne_backslash alone hidden
    refine ⟨c :: inner, back, rfl, rfl, ?_⟩
    have other : [quote].isPrefixOf (c :: inner) = false := by
      rw [← Bool.not_eq_true, List.isPrefixOf_iff_prefix, List.cons_prefix_cons]
      rintro ⟨rfl, -⟩
      exact notHere (beq_self_eq_true _)
    rw [intact_plain plain, within, other]
    simp [goesOn]

/-! ### Contents -/

theorem exists_quote (listed : quotes ∈ delimiters) : ∃ quote, isQuote quote ∧
    (quotes = [quote] ∨ quotes = [quote, quote, quote]) := by
  simp only [delimiters, List.mem_cons, List.not_mem_nil, or_false] at listed
  rcases listed with rfl | rfl | rfl | rfl
  · exact ⟨'\'', rfl, .inl rfl⟩
  · exact ⟨'"', rfl, .inl rfl⟩
  · exact ⟨'\'', rfl, .inr rfl⟩
  · exact ⟨'"', rfl, .inr rfl⟩

theorem mem_delimiters (isQuote : isQuote quote) : [quote] ∈ delimiters ∧ [quote, quote, quote] ∈ delimiters := by
  simp only [TolerantParser.isQuote, Bool.or_eq_true, beq_iff_eq] at isQuote
  rcases isQuote with rfl | rfl <;> decide

/-- The quotes that a literal begins with, behind its letters. -/
def openingQuotes (body : List Char) : List Char :=
  if body.take 3 == ['"', '"', '"'] || body.take 3 == ['\'', '\'', '\''] then body.take 3 else body.take 1

theorem openingQuotes_eq {inner : List Char} (listed : quotes ∈ delimiters) (within : intact quotes inner) :
    openingQuotes (quotes ++ inner ++ quotes) = quotes := by
  obtain ⟨quote, isQuote, rfl | rfl⟩ := exists_quote listed
  · -- behind a quote that is alone comes no quote, unless it is the last
    have single : ([quote] ++ inner ++ [quote]).take 3 ≠ [quote, quote, quote] := by
      cases inner with
      | nil => exact nofun
      | cons c inner =>
        intro triple
        obtain ⟨rfl, -⟩ := List.cons.inj (List.cons.inj triple).2
        have plain : c ≠ '\\' := by
          rintro rfl
          cases isQuote
        simp [intact_plain plain] at within
    rw [openingQuotes, if_neg]
    · rfl
    · rw [Bool.or_eq_true, beq_iff_eq, beq_iff_eq]
      rintro (triple | triple) <;>
        (obtain rfl := Option.some.inj (congrArg List.head? triple)
         exact single triple)
  · rw [openingQuotes, if_pos]
    · rfl
    · rw [Bool.or_eq_true, beq_iff_eq, beq_iff_eq]
      simp only [TolerantParser.isQuote, Bool.or_eq_true, beq_iff_eq] at isQuote
      rcases isQuote with rfl | rfl
      · exact .inr rfl
      · exact .inl rfl

theorem stringContents_eq {letters inner : List Char} (marked : ∀ c ∈ letters, isStringMark c)
    (listed : quotes ∈ delimiters) (within : intact quotes inner) :
    stringContents (letters ++ quotes ++ inner ++ quotes) = inner := by
  have body : (letters ++ quotes ++ inner ++ quotes).dropWhile isStringMark = quotes ++ inner ++ quotes := by
    obtain ⟨quote, isQuote, rfl | rfl⟩ := exists_quote listed <;>
      simp [List.dropWhile_append_of_pos marked, plain_of_isQuote isQuote]
  have opening := openingQuotes_eq listed within
  unfold openingQuotes at opening
  unfold stringContents
  simp only [body, opening]
  have behind : (quotes ++ inner ++ quotes).drop quotes.length = inner ++ quotes := by
    rw [List.append_assoc, List.drop_left]
  have long : 2 * quotes.length ≤ (quotes ++ inner ++ quotes).length := by
    simp only [List.length_append]
    omega
  have ended : quotes.isSuffixOf (quotes ++ inner ++ quotes) := by
    rw [List.isSuffixOf_iff_suffix]
    exact List.suffix_append _ _
  rw [if_pos (by rw [Bool.and_eq_true, decide_eq_true_eq]; exact ⟨long, ended⟩), behind, List.length_append,
    Nat.add_sub_cancel, List.take_left]

/-! ### Literals -/

/-- Only a literal is read as one. -/
theorem stringMarkLength?_of_string (literal : (scanLexeme d text).1 = .string) :
    ∃ marks, stringMarkLength? d text = some marks ∧ scanLexeme d text = scanString marks text := by
  rcases scanLexeme_cases d text with string | kind | listed | longest
  · exact string
  · simp [literal] at kind
  · exact absurd literal (ne_of_mem_keywords listed (by decide))
  · obtain ⟨spelling, rest, -, -, listed⟩ := longestOperator?_some longest
    exact absurd literal (ne_of_mem_operators listed (by decide))

/-- A literal that is closed is delimited. -/
theorem delimited_of_string (literal : (scanLexeme d text).1 = .string) :
    Delimited d (text.take (scanLexeme d text).2) := by
  obtain ⟨marks, found, scanned⟩ := stringMarkLength?_of_string literal
  obtain ⟨letters, quote, rest, rfl, rfl, -, marked, isQuote, listed⟩ := stringMarkLength?_eq_some.1 found
  have known {quotes inner : List Char} (these : quotes ∈ delimiters) (within : intact quotes inner) :
      Delimited d (letters ++ quotes ++ inner ++ quotes) := by
    refine ⟨letters, quotes, ?_, listed, these, ?_⟩ <;> rw [stringContents_eq marked these within]
    exact within
  rw [scanned, scanString_eq] at literal ⊢
  by_cases triple : [quote, quote].isPrefixOf rest
  · obtain ⟨tail, rfl⟩ := List.isPrefixOf_iff_prefix.1 triple
    rw [if_pos triple] at literal ⊢
    cases closes : closeTriple quote (([quote, quote] ++ tail).drop 2) with
    | none =>
      rw [closes] at literal
      cases literal
    | some length =>
      obtain ⟨inner, back, rfl, rfl, within⟩ :=
        intact_closeTriple (show closeTriple quote tail = some length from closes)
      have literal := known (mem_delimiters isQuote).2 within
      have piece : letters ++ quote :: ([quote, quote] ++ (inner ++ [quote, quote, quote] ++ back)) =
          letters ++ [quote, quote, quote] ++ inner ++ [quote, quote, quote] ++ back := by simp
      dsimp only
      rw [piece, List.take_left']
      · exact literal
      · simp only [List.length_append, List.length_cons, List.length_nil]
        omega
  · rw [if_neg triple] at literal ⊢
    cases closes : closeSingle quote rest with
    | mk closed length =>
      rw [closes] at literal
      cases closed with
      | false => cases literal
      | true =>
        obtain ⟨inner, back, rfl, rfl, within⟩ := intact_closeSingle closes
        have literal := known (mem_delimiters isQuote).1 within
        have piece : letters ++ quote :: (inner ++ quote :: back) = letters ++ [quote] ++ inner ++ [quote] ++ back := by
          simp
        dsimp only
        rw [piece, List.take_left']
        · exact literal
        · simp only [List.length_append, List.length_cons, List.length_nil]
          omega

end TolerantParser
