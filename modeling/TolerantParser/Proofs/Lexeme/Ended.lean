import TolerantParser.Proofs.Lexeme.Respelled
import TolerantParser.Proofs.Lexer.Cuts

/-!
What lexemes end with. A closed literal ends with its quote, and nothing else reaches to a character that stops
lexemes; so no lexeme ends with the end of a line, unless it is an error. A comma is one by itself, whatever stands
behind it.
-/

namespace TolerantParser

variable {d : Dialect} {quote : Char} {text rest : List Char}

/-- The text begins with so many characters, the last of which is the given one. -/
def ReachesTo (last : Char) (text : List Char) (length : Nat) : Prop :=
  ∃ front back, text = front ++ last :: back ∧ front.length + 1 = length

theorem ReachesTo.behind {last : Char} {length : Nat} (reaches : ReachesTo last text length) (more : List Char) :
    ReachesTo last (more ++ text) (more.length + length) := by
  obtain ⟨front, back, rfl, rfl⟩ := reaches
  exact ⟨more ++ front, back, (List.append_assoc ..).symm, by rw [List.length_append]; rfl⟩

theorem reachesTo_closeTriple {length : Nat} (closed : closeTriple quote text = some length) :
    ReachesTo quote text length := by
  fun_induction closeTriple quote text generalizing length with
  | case1 => cases closed
  | case2 => cases closed
  | case3 c rest ih =>
    obtain ⟨inner, found, rfl⟩ := Option.map_eq_some_iff.1 closed
    rw [Nat.add_comm]
    exact (ih found).behind ['\\', c]
  | case4 c rest alone hidden here =>
    cases closed
    simp only [Bool.and_eq_true, beq_iff_eq, List.isPrefixOf_iff_prefix] at here
    obtain ⟨rfl, back, rfl⟩ := here
    exact ⟨[c, c], back, rfl, rfl⟩
  | case5 c rest alone hidden notHere ih =>
    obtain ⟨inner, found, rfl⟩ := Option.map_eq_some_iff.1 closed
    rw [Nat.add_comm]
    exact (ih found).behind [c]

theorem reachesTo_closeSingle {length : Nat} (closed : closeSingle quote text = (true, length)) :
    ReachesTo quote text length := by
  fun_induction closeSingle quote text generalizing length with
  | case1 => cases closed
  | case2 => cases closed
  | case3 rest ih =>
    obtain ⟨inner, found, rfl⟩ := counted closed
    rw [Nat.add_comm]
    exact (ih found).behind ['\\', '\r', '\n']
  | case4 c rest pair ih =>
    obtain ⟨inner, found, rfl⟩ := counted closed
    rw [Nat.add_comm]
    exact (ih found).behind ['\\', c]
  | case5 c rest alone pair hidden here =>
    cases closed
    exact ⟨[], rest, by rw [← eq_of_beq here]; rfl, rfl⟩
  | case6 => cases closed
  | case7 c rest alone pair hidden notHere goesOn ih =>
    obtain ⟨inner, found, rfl⟩ := counted closed
    rw [Nat.add_comm]
    exact (ih found).behind [c]

/-- A closed literal ends with a quote. -/
theorem reachesTo_scanString {marks length : Nat} {kind : TokenKind} (inside : marks < text.length)
    (quoted : ∀ c ∈ (text.drop marks).head?, isQuote c) (cut : scanString marks text = (kind, length))
    (proper : kind ≠ .error) : ∃ quote, isQuote quote ∧ ReachesTo quote text length := by
  have letters := List.take_append_drop marks text
  have marked : (text.take marks).length = marks := List.length_take_of_le (Nat.le_of_lt inside)
  unfold scanString at cut
  split at cut
  next quote tail behind =>
    refine ⟨quote, quoted quote (by rw [behind]; rfl), ?_⟩
    rw [behind] at letters
    have from' : ∀ {inner : Nat}, ReachesTo quote tail inner → ReachesTo quote text (marks + 1 + inner) :=
      fun reaches => by
        have all := reaches.behind (text.take marks ++ [quote])
        rwa [List.append_assoc, List.singleton_append, letters, List.length_append, marked] at all
    split at cut
    next triple =>
      obtain ⟨tail, rfl⟩ := List.isPrefixOf_iff_prefix.1 triple
      split at cut
      next inner closes =>
        obtain ⟨rfl, rfl⟩ := Prod.mk.inj cut
        have reaches := from' ((reachesTo_closeTriple closes).behind [quote, quote])
        rwa [List.length_cons, List.length_singleton, ← Nat.add_assoc] at reaches
      next =>
        obtain ⟨rfl, -⟩ := Prod.mk.inj cut
        exact absurd rfl proper
    next single =>
      cases closes : closeSingle quote tail with
      | mk closed inner =>
        rw [closes] at cut
        obtain ⟨rfl, rfl⟩ := Prod.mk.inj cut
        cases closed with
        | true => exact from' (reachesTo_closeSingle closes)
        | false => exact absurd rfl proper
  next =>
    obtain ⟨rfl, -⟩ := Prod.mk.inj cut
    exact absurd rfl proper

/-- Nothing but a literal reaches to a stopper. -/
theorem scanLexeme_within {line : List Char} (stopped : Stopped rest) (filled : line ≠ [])
    (plain : stringMarkLength? d (line ++ rest) = none) : (scanLexeme d (line ++ rest)).2 ≤ line.length := by
  obtain ⟨name, within⟩ := nameLength_stopped (f := d.features) stopped filled
  unfold scanLexeme
  rw [plain]
  simp only [name, scanNumber_stopped stopped, longestOperator?_stopped stopped filled]
  split
  · exact within
  · split
    · exact scanNumber_le d.features line
    · cases longest : longestOperator? d line with
      | none => exact List.length_pos_iff.2 filled
      | some found => exact longestOperator?_le longest

theorem scanString_le {marks : Nat} (inside : marks < text.length) : (scanString marks text).2 ≤ text.length := by
  have length := congrArg List.length (List.take_append_drop marks text)
  rw [List.length_append, List.length_take_of_le (Nat.le_of_lt inside)] at length
  unfold scanString
  split
  next quote rest behind =>
    rw [behind, List.length_cons] at length
    split
    next triple =>
      obtain ⟨tail, rfl⟩ := List.isPrefixOf_iff_prefix.1 triple
      split
      next inner closes =>
        obtain ⟨front, back, split, rfl, -⟩ := closeTriple_some closes
        have counts := congrArg List.length (show tail = front ++ back from split)
        simp only [List.length_append, List.length_cons, List.length_nil] at length counts ⊢
        omega
      next => exact Nat.le_refl _
    next =>
      obtain ⟨front, back, rfl, counts, -⟩ := closeSingle_eq (Prod.eta (closeSingle quote rest)).symm
      dsimp only
      rw [List.length_append] at length
      omega
  next => exact Nat.le_refl _

/-- A lexeme is no longer than the text. -/
theorem scanLexeme_le (nonempty : text ≠ []) : (scanLexeme d text).2 ≤ text.length := by
  cases found : stringMarkLength? d text with
  | some marks =>
    have scanned : scanLexeme d text = scanString marks text := by rw [scanLexeme, found]
    rw [scanned]
    exact scanString_le (marks_of_stringMarkLength? found).2
  | none =>
    have all := scanLexeme_within (nofun : Stopped []) nonempty (by rwa [List.append_nil])
    rwa [List.append_nil] at all

/-- A lexeme is a piece of the text and does not end with the end of a line, unless it is an error or nothing but a
character that ends lines. -/
theorem exists_lexeme {kind : TokenKind} {length : Nat} (nonempty : text ≠ [])
    (cut : scanLexeme d text = (kind, length))
    (proper : kind ≠ .error) : ∃ word rest, text = word ++ rest ∧ word.length = length ∧
      ∀ c ∈ word.getLast?, isLineEndChar c → word = [c] := by
  cases found : stringMarkLength? d text with
  | some marks =>
    have scanned : scanString marks text = (kind, length) := by
      unfold scanLexeme at cut
      rwa [found] at cut
    obtain ⟨quote, quotes, front, back, rfl, rfl⟩ := reachesTo_scanString (marks_of_stringMarkLength? found).2
      (isQuote_of_stringMarkLength? found) scanned proper
    refine ⟨front ++ [quote], back, by simp, List.length_append, fun c last ends => ?_⟩
    rw [List.getLast?_concat] at last
    obtain rfl := Option.some.inj last
    obtain ⟨feed, back, -⟩ := ne_lineEnd_of_isQuote quotes
    simp [isLineEndChar, feed, back] at ends
  | none =>
    have within : length ≤ text.length := by
      have all := scanLexeme_le (d := d) nonempty
      rwa [cut] at all
    refine ⟨text.take length, text.drop length, (List.take_append_drop ..).symm, List.length_take_of_le within,
      fun c last ends => ?_⟩
    obtain ⟨front, piece⟩ := List.getLast?_eq_some_iff.1 last
    by_cases alone : front = []
    · rw [piece, alone]
      rfl
    · -- the lexeme would go over the end of a line
      have split : text = front ++ c :: text.drop length := by
        conv_lhs => rw [← List.take_append_drop length text, piece]
        simp
      have stops : Stopped (c :: text.drop length) := by
        rintro _ ⟨⟩
        simp [isStopper, ends]
      have short := scanLexeme_within (d := d) stops alone (split ▸ found)
      have longer := congrArg List.length piece
      rw [List.length_take_of_le within, List.length_append, List.length_singleton] at longer
      rw [← split, cut] at short
      omega

/-! ### Commas and backslashes -/

theorem scanString_kind (marks : Nat) (text : List Char) :
    (scanString marks text).1 = .string ∨ (scanString marks text).1 = .error := by
  unfold scanString
  repeat' split
  all_goals first | exact .inl rfl | exact .inr rfl

theorem scanDecimal_kind (f : Features) (text : List Char) :
    (scanDecimal f text).1 = .number ∨ (scanDecimal f text).1 = .error := by
  unfold scanDecimal
  dsimp only
  repeat' split
  all_goals first | exact .inl rfl | exact .inr rfl

theorem scanNumber_kind (f : Features) (text : List Char) :
    (scanNumber f text).1 = .number ∨ (scanNumber f text).1 = .error := by
  unfold scanNumber
  repeat' split
  all_goals first | exact .inl rfl | exact scanDecimal_kind f _

theorem comma_of_mem_operators {operator : String × TokenKind} (listed : operator ∈ d.operators) :
    (operator.2 = .comma → operator.1 = ",") ∧ (operator.1.toList.head? = some ',' → operator = (",", .comma)) := by
  revert operator
  cases d <;> decide

theorem longestOperator?_some {found : TokenKind × Nat} (longest : longestOperator? d text = some found) :
    ∃ spelling rest, text = spelling ++ rest ∧ spelling.length = found.2 ∧
      (String.ofList spelling, found.1) ∈ d.operators := by
  obtain ⟨length, -, hit⟩ := List.exists_of_findSome?_eq_some longest
  dsimp only at hit
  split at hit
  next long =>
    obtain ⟨kind, spelled, rfl⟩ := Option.map_eq_some_iff.1 hit
    obtain ⟨before, after, split, -⟩ := List.lookup_eq_some_iff.1 spelled
    exact ⟨_, _, (List.take_append_drop length text).symm, eq_of_beq long, by simp [split]⟩
  next => cases hit

/-- A lexeme is a literal, or its kind is that of a name, a number or an error, or it is a keyword or an operator. -/
theorem scanLexeme_cases (d : Dialect) (text : List Char) :
    (∃ marks, stringMarkLength? d text = some marks ∧ scanLexeme d text = scanString marks text) ∨
      (scanLexeme d text).1 ∈ [.name, .number, .error] ∨
      (String.ofList (text.take (scanLexeme d text).2), (scanLexeme d text).1) ∈ d.keywords ∨
      longestOperator? d text = some (scanLexeme d text) := by
  unfold scanLexeme
  split
  next marks found => exact .inl ⟨marks, found, rfl⟩
  next =>
    refine .inr ?_
    split
    · rcases d.wordKind_eq_name_or_mem (String.ofList (text.take (nameLength d.features text))) with named | listed
      · simp [named]
      · exact .inr (.inl listed)
    · split
      · rcases scanNumber_kind d.features text with kind | kind <;> simp [kind]
      · cases longest : longestOperator? d text with
        | none => exact .inl (by simp)
        | some found => exact .inr (.inr rfl)

/-- Only a comma is read as one. -/
theorem eq_comma_of_scanLexeme {length : Nat} (cut : scanLexeme d text = (.comma, length)) :
    ∃ rest, text = ',' :: rest ∧ length = 1 := by
  rcases scanLexeme_cases d text with ⟨marks, -, scanned⟩ | kind | listed | longest
  · rcases scanString_kind marks text with kind | kind <;> (rw [← scanned, cut] at kind; cases kind)
  · simp [cut] at kind
  · exact absurd (congrArg Prod.fst cut) (ne_of_mem_keywords listed (show TokenKind.comma.code < 100 by decide))
  · obtain ⟨spelling, rest, split, count, listed⟩ := longestOperator?_some (cut ▸ longest)
    have comma : spelling = [','] := String.ofList_inj.1 ((comma_of_mem_operators listed).1 rfl)
    subst comma
    exact ⟨rest, split, count.symm⟩

theorem scanLexeme_comma (d : Dialect) (rest : List Char) : scanLexeme d (',' :: rest) = (.comma, 1) := by
  have stopped : Stopped (',' :: rest) := by
    rintro _ ⟨⟩
    decide
  have literal : stringMarkLength? d (',' :: rest) = none := by
    rw [← List.nil_append (',' :: rest), stringMarkLength?_stopped stopped]
    rfl
  have name : (',' :: rest).head?.any (startsName d.features) = false :=
    passes_startsName ',' (stopped ',' rfl)
  have number : startsNumber (',' :: rest) = false := by
    rw [← List.nil_append (',' :: rest), startsNumber_stopped stopped]
    rfl
  unfold scanLexeme
  rw [literal]
  simp only [name, number, Bool.false_eq_true, if_false]
  cases longest : longestOperator? d (',' :: rest) with
  | none =>
    have found : d.operatorKind? "," = some .comma := by cases d <;> decide
    rw [longestOperator?, List.findSome?_eq_none_iff] at longest
    have missing : (d.operatorKind? ",").map (fun kind => (kind, 1)) = none := longest 1 (by decide)
    rw [found] at missing
    cases missing
  | some found =>
    obtain ⟨spelling, rest', split, count, listed⟩ := longestOperator?_some longest
    have positive := longestOperator?_pos longest
    obtain ⟨c, tail, rfl⟩ := List.exists_cons_of_length_pos (count ▸ positive)
    obtain ⟨rfl, -⟩ := List.cons.inj split
    have same := (comma_of_mem_operators listed).2 (by rw [String.toList_ofList]; rfl)
    obtain ⟨spelled, kind⟩ := Prod.mk.inj same
    have alone : ',' :: tail = [','] := String.ofList_inj.1 spelled
    rw [alone] at count
    exact Prod.ext kind count.symm

theorem ne_backslash_of_mem_operators {operator : String × TokenKind} (listed : operator ∈ d.operators) :
    operator.1.toList.head? ≠ some '\\' := by
  revert operator
  cases d <;> decide

/-- No lexeme begins with a backslash. -/
theorem scanLexeme_backslash (d : Dialect) (rest : List Char) : (scanLexeme d ('\\' :: rest)).1 = .error := by
  have letters : (('\\' :: rest).take 2).takeWhile isStringMark = [] := rfl
  have literal : stringMarkLength? d ('\\' :: rest) = none := by
    unfold stringMarkLength?
    rw [letters]
    rfl
  have name : ('\\' :: rest).head?.any (startsName d.features) = false := by
    simp [startsName, show isLetter '\\' = false from by decide]
  have number : startsNumber ('\\' :: rest) = false := rfl
  unfold scanLexeme
  rw [literal]
  simp only [name, number, Bool.false_eq_true, if_false]
  cases longest : longestOperator? d ('\\' :: rest) with
  | none => rfl
  | some found =>
    obtain ⟨spelling, rest', split, count, listed⟩ := longestOperator?_some longest
    obtain ⟨c, tail, rfl⟩ := List.exists_cons_of_length_pos (count ▸ longestOperator?_pos longest)
    obtain ⟨rfl, -⟩ := List.cons.inj split
    exact absurd (by rw [String.toList_ofList]; rfl) (ne_backslash_of_mem_operators listed)

end TolerantParser
