import TolerantParser.Proofs.Lexeme.Stopped
import TolerantParser.Proofs.Text.Respelled

/-!
Lexemes of texts whose line ends are written in another way. Only string literals reach over line ends, and there a
backslash in front of one hides all of it; so each lexeme is of the same kind and is the same piece of the text.
-/

namespace TolerantParser

open LineEnding

variable {d : Dialect} {f : Features} {ending : LineEnding} {text rest : List Char} {quote : Char}

/-! ### Lexemes within a line -/

/-- Nothing behind a line feed belongs to a lexeme within the line, however the line feed is written. -/
theorem stopped_respell (ends : ∀ c ∈ rest.head?, c = '\n') (ending : LineEnding) :
    Stopped rest ∧ Stopped (ending.respell rest) := by
  cases rest with
  | nil => exact ⟨nofun, nofun⟩
  | cons c rest =>
    obtain rfl := ends c rfl
    rw [respell_feed]
    refine ⟨by rintro _ ⟨⟩; decide, ?_⟩
    cases ending <;> (rintro _ ⟨⟩; decide)

theorem length_respell_take {line : List Char} {count : Nat} (inline : ∀ c ∈ line, c ≠ '\n')
    (within : count ≤ line.length) (rest : List Char) :
      (ending.respell ((line ++ rest).take count)).length = count := by
  rw [List.take_append_of_le_length within, respell_eq_self fun c member => inline c (List.mem_of_mem_take member),
    List.length_take_of_le within]

theorem scanDecimal_le (f : Features) (text : List Char) : (scanDecimal f text).2 ≤ text.length := by
  have stopped : Stopped [] := nofun
  have whole := (List.takeWhile_prefix Char.isDigit (l := text)).length_le
  have fraction := (fractionLength_stopped stopped (text.drop (text.takeWhile Char.isDigit).length)).2
  unfold scanDecimal
  dsimp only
  generalize (text.takeWhile Char.isDigit).length = digits at *
  generalize hpoint : fractionLength (text.drop digits) = point at *
  have power := (exponentLength_stopped stopped ((text.drop digits).drop point)).2
  generalize exponentLength ((text.drop digits).drop point) = letters at *
  simp only [List.length_drop] at fraction power
  have behind : (((text.drop digits).drop point).drop letters).length = text.length - (digits + point + letters) := by
    simp only [List.length_drop]
    omega
  split
  next last => simp only [last, List.length_cons] at behind; dsimp only; omega
  next last => simp only [last, List.length_cons] at behind; dsimp only; omega
  next =>
    have suffix : longSuffixLength f (((text.drop digits).drop point).drop letters) ≤
        (((text.drop digits).drop point).drop letters).length := by
      cases ((text.drop digits).drop point).drop letters with
      | nil => exact Nat.le_refl 0
      | cons c rest =>
        rw [longSuffixLength, List.length_cons]
        split <;> omega
    split
    · dsimp only
      omega
    · split <;> (dsimp only; omega)

theorem scanNumber_le (f : Features) (text : List Char) : (scanNumber f text).2 ≤ text.length := by
  unfold scanNumber
  split
  next mark rest =>
    split
    next isDigit _ =>
      have digits := (List.takeWhile_prefix isDigit (l := rest)).length_le
      have suffix : longSuffixLength f (rest.drop (rest.takeWhile isDigit).length) ≤
          (rest.drop (rest.takeWhile isDigit).length).length := by
        cases rest.drop (rest.takeWhile isDigit).length with
        | nil => exact Nat.le_refl 0
        | cons c rest =>
          rw [longSuffixLength, List.length_cons]
          split <;> omega
      rw [List.length_drop] at suffix
      simp only [List.length_cons]
      omega
    · exact scanDecimal_le f _
  · exact scanDecimal_le f _

theorem longestOperator?_le {found : TokenKind × Nat} (longest : longestOperator? d text = some found) :
    found.2 ≤ text.length := by
  obtain ⟨length, -, hit⟩ := List.exists_of_findSome?_eq_some longest
  dsimp only at hit
  split at hit
  next long =>
    obtain ⟨kind, -, rfl⟩ := Option.map_eq_some_iff.1 hit
    rw [beq_iff_eq, List.length_take] at long
    dsimp only
    omega
  next => cases hit

/-! ### String literals -/

theorem isPrefixOf_respell {plain : List Char} (inline : ∀ c ∈ plain, c ≠ '\n' ∧ c ≠ '\r') (text : List Char) :
    plain.isPrefixOf (ending.respell text) = plain.isPrefixOf text := by
  induction plain generalizing text with
  | nil => rfl
  | cons first plain ih =>
    rw [List.forall_mem_cons] at inline
    cases text with
    | nil => rfl
    | cons c text =>
      by_cases feed : c = '\n'
      · subst feed
        have other : (first == '\n') = false := beq_false_of_ne inline.1.1
        have other' : (first == '\r') = false := beq_false_of_ne inline.1.2
        rw [respell_feed]
        cases ending <;> simp [LineEnding.text, List.isPrefixOf, other, other']
      · rw [respell_plain feed, List.isPrefixOf, List.isPrefixOf, ih inline.2]

theorem ne_lineEnd_of_isQuote (quotes : isQuote quote) : quote ≠ '\n' ∧ quote ≠ '\r' ∧ quote ≠ '\\' := by
  simp only [isQuote, Bool.or_eq_true, beq_iff_eq] at quotes
  rcases quotes with rfl | rfl <;> decide

theorem closeTriple_other {c : Char} (plain : c ≠ '\\') (other : c ≠ quote) (rest : List Char) :
    closeTriple quote (c :: rest) = (closeTriple quote rest).map (· + 1) := by
  rw [closeTriple_plain plain, beq_false_of_ne other, Bool.false_and, if_neg Bool.false_ne_true]

/-- A line end within a literal is passed over. -/
theorem closeTriple_lineEnd (quotes : isQuote quote) (ending : LineEnding) (rest : List Char) :
    closeTriple quote (ending.text.toList ++ rest) =
      (closeTriple quote rest).map (· + ending.text.toList.length) := by
  obtain ⟨feed, back, -⟩ := ne_lineEnd_of_isQuote quotes
  cases ending with
  | lf => exact closeTriple_other (by decide) feed.symm rest
  | cr => exact closeTriple_other (by decide) back.symm rest
  | crlf =>
    show closeTriple quote ('\r' :: '\n' :: rest) = _
    rw [closeTriple_other (by decide) back.symm, closeTriple_other (by decide) feed.symm, Option.map_map]
    rfl

/-- A backslash in front of a line end hides no more than the line end. -/
theorem closeTriple_joined (quotes : isQuote quote) (ending : LineEnding) (rest : List Char) :
    closeTriple quote ('\\' :: (ending.text.toList ++ rest)) =
      (closeTriple quote rest).map (· + (1 + ending.text.toList.length)) := by
  obtain ⟨feed, -, -⟩ := ne_lineEnd_of_isQuote quotes
  cases ending with
  | lf | cr => rfl
  | crlf =>
    show (closeTriple quote ('\n' :: rest)).map _ = _
    rw [closeTriple_other (by decide) feed.symm, Option.map_map]
    rfl

theorem closeTriple_respell (quotes : isQuote quote) (text : List Char) : closeTriple quote (ending.respell text) =
    (closeTriple quote text).map fun length => (ending.respell (text.take length)).length := by
  obtain ⟨feed, back, hidden⟩ := ne_lineEnd_of_isQuote quotes
  fun_induction closeTriple quote text with
  | case1 => rfl
  | case2 => rfl
  | case3 c rest ih =>
    rw [respell_plain (by decide), Option.map_map]
    by_cases ends : c = '\n'
    · rw [ends, respell_feed, closeTriple_joined quotes, ih, Option.map_map]
      refine Option.map_congr fun length _ => ?_
      simp only [Function.comp_apply, List.take_succ_cons, respell_plain (c := '\\') (by decide), respell_feed,
        List.length_cons, List.length_append]
      omega
    · have hides : closeTriple quote ('\\' :: c :: ending.respell rest) =
          (closeTriple quote (ending.respell rest)).map (· + 2) := rfl
      rw [respell_plain ends, hides, ih, Option.map_map]
      refine Option.map_congr fun length _ => ?_
      simp only [Function.comp_apply, List.take_succ_cons, respell_plain (c := '\\') (by decide), respell_plain ends,
        List.length_cons]
  | case4 c rest alone concealed here =>
    simp only [Bool.and_eq_true, beq_iff_eq] at here
    obtain ⟨rfl, follow⟩ := here
    obtain ⟨behind, rfl⟩ := List.isPrefixOf_iff_prefix.1 follow
    simp [respell_plain feed, closeTriple_plain hidden]
  | case5 c rest alone concealed notHere ih =>
    have plain : c ≠ '\\' := fun backslash => by
      cases rest with
      | nil => exact alone backslash rfl
      | cons other rest => exact concealed other rest backslash rfl
    rw [Option.map_map]
    by_cases ends : c = '\n'
    · rw [ends, respell_feed, closeTriple_lineEnd quotes, ih, Option.map_map]
      refine Option.map_congr fun length _ => ?_
      simp only [Function.comp_apply, List.take_succ_cons, respell_feed, List.length_append]
      omega
    · rw [respell_plain ends, closeTriple_plain plain, isPrefixOf_respell (by simp [feed, back]), if_neg notHere, ih,
        Option.map_map]
      refine Option.map_congr fun length _ => ?_
      simp only [Function.comp_apply, List.take_succ_cons, respell_plain ends, List.length_cons]

theorem closeSingle_respell (quotes : isQuote quote) (text : List Char) (plain : '\r' ∉ text) :
    closeSingle quote (ending.respell text) =
      (closeSingle quote text).map id fun length => (ending.respell (text.take length)).length := by
  obtain ⟨feed, back, hidden⟩ := ne_lineEnd_of_isQuote quotes
  fun_induction closeSingle quote text with
  | case1 => rfl
  | case2 => rfl
  | case3 rest => simp at plain
  | case4 c rest pair ih =>
    have ih := ih fun listed => plain (by simp [listed])
    have other : c ≠ '\r' := by
      rintro rfl
      simp at plain
    rw [respell_plain (by decide)]
    by_cases ends : c = '\n'
    · have hides : closeSingle quote ('\\' :: (ending.text.toList ++ ending.respell rest)) =
          (closeSingle quote (ending.respell rest)).map id (· + (1 + ending.text.toList.length)) := by
        cases ending with
        | lf => exact closeSingle_hidden fun return' => absurd return' (show '\n' ≠ '\r' by decide)
        | crlf => rfl
        | cr => exact closeSingle_hidden fun _ => head?_respell_ne_feed (by decide) rest
      rw [ends, respell_feed, hides, ih]
      refine Prod.ext rfl ?_
      simp only [Prod.map_snd, List.take_succ_cons, respell_plain (c := '\\') (by decide), respell_feed,
        List.length_cons, List.length_append]
      omega
    · rw [respell_plain ends, closeSingle_hidden fun return' => absurd return' other, ih]
      refine Prod.ext rfl ?_
      simp only [Prod.map_snd, List.take_succ_cons, respell_plain (c := '\\') (by decide), respell_plain ends,
        List.length_cons]
  | case5 c rest alone pair concealed here =>
    obtain rfl := eq_of_beq here
    rw [respell_plain feed, closeSingle_plain hidden, if_pos (beq_self_eq_true _)]
    simp [respell_plain feed]
  | case6 c rest alone pair concealed notHere stops =>
    have ends : c = '\n' := by
      have other : c ≠ '\r' := by
        rintro rfl
        simp at plain
      simpa [isLineEndChar, other] using stops
    have stopped : closeSingle quote (ending.text.toList ++ ending.respell rest) = (false, 0) := by
      have stops : ∀ c rest, isLineEndChar c → c ≠ quote → closeSingle quote (c :: rest) = (false, 0) := by
        intro c rest ends other
        have plain : c ≠ '\\' := by
          rintro rfl
          cases ends
        rw [closeSingle_plain plain, beq_false_of_ne other, if_neg Bool.false_ne_true, if_pos ends]
      cases ending with
      | lf => exact stops '\n' _ rfl feed.symm
      | crlf => exact stops '\r' _ rfl back.symm
      | cr => exact stops '\r' _ rfl back.symm
    rw [ends, respell_feed, stopped]
    rfl
  | case7 c rest alone pair concealed notHere goesOn ih =>
    have ih := ih fun listed => plain (by simp [listed])
    have ends : c ≠ '\n' := by
      rintro rfl
      exact goesOn rfl
    have backslash : c ≠ '\\' := fun backslash => by
      cases rest with
      | nil => exact alone backslash rfl
      | cons other rest => exact concealed other rest backslash rfl
    rw [respell_plain ends, closeSingle_plain backslash, if_neg notHere, if_neg goesOn, ih]
    refine Prod.ext rfl ?_
    simp only [Prod.map_snd, List.take_succ_cons, respell_plain ends, List.length_cons]

/-- A string literal is the same piece of the text. -/
theorem scanString_respell {marks : Nat} (lettered : ∀ c ∈ text.take marks, c ≠ '\n')
    (quoted : ∀ c ∈ (text.drop marks).head?, isQuote c) (inside : marks < text.length) (plain : '\r' ∉ text) :
    scanString marks (ending.respell text) =
      ((scanString marks text).1, (ending.respell (text.take (scanString marks text).2)).length) := by
  obtain ⟨letters, quote, rest, rfl, rfl⟩ : ∃ letters quote rest, text = letters ++ quote :: rest ∧
      letters.length = marks := by
    refine ⟨text.take marks, text[marks], text.drop (marks + 1), ?_, List.length_take_of_le (Nat.le_of_lt inside)⟩
    rw [List.getElem_cons_drop, List.take_append_drop]
  rw [List.take_left] at lettered
  rw [List.drop_left] at quoted
  have quotes : isQuote quote := quoted quote rfl
  obtain ⟨feed, back, -⟩ := ne_lineEnd_of_isQuote quotes
  have plainRest : '\r' ∉ rest := fun listed => plain (by simp [listed])
  have whole : ending.respell (letters ++ quote :: rest) = letters ++ quote :: ending.respell rest := by
    rw [respell_append, respell_eq_self lettered, respell_plain feed]
  have piece : ∀ front back : List Char, rest = front ++ back → ∀ length,
      (ending.respell ((letters ++ quote :: rest).take (letters.length + 1 + front.length + length))).length =
        letters.length + 1 + (ending.respell front).length + (ending.respell (back.take length)).length := by
    rintro front back rfl length
    have taken : (letters ++ quote :: (front ++ back)).take (letters.length + 1 + front.length + length) =
        letters ++ quote :: (front ++ back.take length) := by
      rw [Nat.add_assoc, Nat.add_assoc, List.take_length_add_append, Nat.add_comm 1, List.take_succ_cons,
        List.take_length_add_append]
    rw [taken, respell_append, respell_eq_self lettered, respell_plain feed, respell_append]
    simp only [List.length_append, List.length_cons]
    omega
  unfold scanString
  rw [whole, List.drop_left, List.drop_left]
  dsimp only
  rw [isPrefixOf_respell (by simp [feed, back])]
  split
  next triple =>
    obtain ⟨inner, rfl⟩ := List.isPrefixOf_iff_prefix.1 triple
    have front : ending.respell [quote, quote] = [quote, quote] := respell_eq_self (by simp [feed])
    have behind : ∀ inner : List Char, ([quote, quote] ++ inner).drop 2 = inner := fun _ => rfl
    rw [respell_append, front, behind, behind, closeTriple_respell quotes]
    cases closeTriple quote inner with
    | none =>
      dsimp only [Option.map_none]
      rw [List.take_length, whole, respell_append, front]
    | some length =>
      dsimp only [Option.map_some]
      have pieces := piece [quote, quote] inner rfl length
      rw [front] at pieces
      exact Prod.ext rfl pieces.symm
  next single =>
    rw [closeSingle_respell quotes rest plainRest]
    have pieces := piece [] rest rfl (closeSingle quote rest).2
    exact Prod.ext rfl pieces.symm

/-! ### All lexemes -/

theorem marks_of_stringMarkLength? {marks : Nat} (found : stringMarkLength? d text = some marks) :
    (∀ c ∈ text.take marks, c ≠ '\n') ∧ marks < text.length := by
  unfold stringMarkLength? at found
  dsimp only at found
  split at found
  next c rest behind =>
    split at found
    next =>
      cases found
      have prefix' : (text.take 2).takeWhile isStringMark <+: text :=
        (List.takeWhile_prefix _).trans (List.take_prefix 2 text)
      refine ⟨fun c member => ?_, ?_⟩
      · rw [← List.prefix_iff_eq_take.1 prefix'] at member
        rintro rfl
        cases List.mem_takeWhile_imp member
      · have length := congrArg List.length behind
        rw [List.length_drop, List.length_cons] at length
        omega
    next => cases found
  next => cases found

/-- Each lexeme is of the same kind and is the same piece of the text. -/
theorem scanLexeme_respell (ending : LineEnding) {c : Char} {tail : List Char} (inline : c ≠ '\n')
    (plain : '\r' ∉ c :: tail) : scanLexeme d (ending.respell (c :: tail)) = ((scanLexeme d (c :: tail)).1,
      (ending.respell ((c :: tail).take (scanLexeme d (c :: tail)).2)).length) := by
  -- the line up to its line feed decides on all lexemes but the literals
  obtain ⟨line, rest, split, noFeed, ends⟩ : ∃ line rest, tail = line ++ rest ∧ (∀ c ∈ line, c ≠ '\n') ∧
      ∀ c ∈ rest.head?, c = '\n' := by
    refine ⟨tail.takeWhile (· != '\n'), tail.dropWhile (· != '\n'), List.takeWhile_append_dropWhile.symm,
      fun c member => by simpa using List.mem_takeWhile_imp member, fun c first => ?_⟩
    have stopped := List.head?_dropWhile_not (· != '\n') tail
    rw [Option.mem_def.1 first] at stopped
    simpa using stopped
  obtain ⟨stopped, stopped'⟩ := stopped_respell ends ending
  have noFeed : ∀ other ∈ c :: line, other ≠ '\n' := List.forall_mem_cons.2 ⟨inline, noFeed⟩
  have filled : c :: line ≠ [] := List.cons_ne_nil _ _
  have text : c :: tail = (c :: line) ++ rest := by rw [split, List.cons_append]
  have whole : ending.respell (c :: tail) = (c :: line) ++ ending.respell rest := by
    rw [text, respell_append, respell_eq_self noFeed]
  have marks : stringMarkLength? d (ending.respell (c :: tail)) = stringMarkLength? d (c :: tail) := by
    rw [whole, text, stringMarkLength?_stopped stopped, stringMarkLength?_stopped stopped']
  unfold scanLexeme
  rw [marks]
  cases found : stringMarkLength? d (c :: tail) with
  | some marks =>
    obtain ⟨lettered, inside⟩ := marks_of_stringMarkLength? found
    exact scanString_respell lettered (isQuote_of_stringMarkLength? found) inside plain
  | none =>
    obtain ⟨name, within⟩ := nameLength_stopped (f := d.features) stopped filled
    obtain ⟨name', -⟩ := nameLength_stopped (f := d.features) stopped' filled
    have number := scanNumber_le d.features (c :: line)
    have length {count : Nat} (within : count ≤ (c :: line).length) :
        (ending.respell ((c :: line ++ rest).take count)).length = count :=
      length_respell_take noFeed within rest
    generalize c :: line = line at *
    rw [whole, text]
    simp only [stopped.head passes_startsName, stopped'.head passes_startsName, name, name',
      startsNumber_stopped stopped, startsNumber_stopped stopped', scanNumber_stopped stopped,
      scanNumber_stopped stopped', longestOperator?_stopped stopped filled, longestOperator?_stopped stopped' filled,
      List.take_append_of_le_length within]
    split
    · exact Prod.ext rfl (length within).symm
    · split
      · exact Prod.ext rfl (length number).symm
      · cases longest : longestOperator? d line with
        | none => exact Prod.ext rfl (length (List.length_pos_iff.2 filled)).symm
        | some found => exact Prod.ext rfl (length (longestOperator?_le longest)).symm

end TolerantParser
