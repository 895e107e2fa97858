import Mathlib.Data.List.GetD
import TolerantParser.Lexer.OnDemand
import TolerantParser.Proofs.Lexer.Layout
import TolerantParser.Proofs.Lexer.Strides

/-!
The lexer reaches the end of the file. Each character that is left of a text stands for two tokens (`Scan.allowance`):
a token that has text takes a character, and a block that begins takes a blank, which pays for the token at its end
too. Called for one at a time, the tokens are those that the text is cut into, and behind them the last one comes again
(`Lexer.Gives`).
-/

namespace TolerantParser

variable {d : Dialect} {lines : LineIndex}

/-! ### What a text pays for -/

/-- A line ends so many blocks and begins at most one. -/
theorem length_layoutAt (column : Nat) (columns : List Nat) :
    (layoutAt column columns).dedents + (layoutAt column columns).columns.length =
      columns.length + (layoutAt column columns).opens.toNat := by
  have kept := dedents_layoutAt column columns
  rw [columns_layoutAt]
  cases (layoutAt column columns).opens with
  | true =>
    rw [if_pos rfl, List.length_cons, Bool.toNat_true]
    omega
  | false =>
    rw [if_neg Bool.false_ne_true, Bool.toNat_false]
    omega

/-- A line that begins a block has blanks in front. -/
theorem opens_le_blanks (blanks : List Char) (columns : List Nat) :
    (layoutAt (columnAfter blanks) columns).opens.toNat ≤ blanks.length := by
  cases blanks with
  | nil => simp [layoutAt, columnAfter]
  | cons c blanks => exact (Bool.toNat_le _).trans (Nat.succ_pos _)

namespace Scan

variable {s : Scan}

/-- A bound on the tokens that a scan has yet to give: two for each character, and one for each column, for a line that
has begun, and for the end of the file. -/
def allowance (s : Scan) : Nat := 2 * s.rest.length + s.columns.length + s.inStatement.toNat + 1

theorem allowance_skip_le (s : Scan) (count : Nat) : (s.skip count).allowance ≤ s.allowance := by
  have shorter : (s.rest.drop count).length ≤ s.rest.length := (List.drop_suffix count s.rest).length_le
  simp only [allowance, skip]
  omega

/-- The text of a token pays for the token and for one more. -/
theorem allowance_cut (lines : LineIndex) (kind : TokenKind) {count : Nat} (longer : 0 < count) (filled : s.rest ≠ []) :
    (s.cut lines kind count).2.allowance + 2 ≤ s.allowance := by
  have text := List.length_pos_iff.2 filled
  simp only [allowance, cut, List.length_drop]
  omega

theorem allowance_lineEnded (s : Scan) : s.lineEnded.allowance ≤ s.allowance := by
  simp only [allowance, lineEnded, Bool.toNat_false]
  omega

/-- A lexeme takes a token for itself and one for the end of the line that it may begin. -/
theorem allowance_significant (lines : LineIndex) (filled : s.rest ≠ []) :
    (s.significant d lines).2.allowance + 1 ≤ s.allowance := by
  have taken := allowance_cut lines (scanLexeme d s.rest).1 (scanLexeme_pos d filled) filled
  simp only [allowance, significant, cut, Bool.toNat_true] at taken ⊢
  omega

theorem length_indent (s : Scan) (lines : LineIndex) (column : Nat) : (s.indent lines column).1.length =
    (layoutAt column s.columns).dedents + (layoutAt column s.columns).opens.toNat := by
  cases opens : (layoutAt column s.columns).opens <;> simp [indent, opens]

/-- A blank pays for the tokens at both ends of a block. -/
theorem paid_layout (lines : LineIndex) {blanks front : List Char} (split : s.rest = blanks ++ front) :
    (s.layout lines blanks).1.length + (s.layout lines blanks).2.allowance ≤ s.allowance := by
  unfold layout
  split
  next =>
    have count := length_layoutAt (columnAfter blanks) s.columns
    have begun := opens_le_blanks blanks s.columns
    rw [length_indent]
    simp only [allowance, indent, skip, split, List.drop_left, List.length_append]
    omega
  next => exact (Nat.zero_add _).trans_le (s.allowance_skip_le _)

theorem length_finish (s : Scan) (lines : LineIndex) : (s.finish lines).length ≤ s.allowance := by
  cases begun : s.inStatement <;>
    simp only [finish, allowance, begun, if_true, if_false, Bool.false_eq_true, List.length_append,
      List.length_replicate,
      List.length_singleton, List.length_nil, Bool.toNat_true, Bool.toNat_false] <;> omega

/-- What a stride gives is paid for by the text that it takes. -/
theorem Stride.paid {next : Scan} {tokens : List Token} (stride : Stride d lines s tokens (some next)) :
    tokens.length + next.allowance ≤ s.allowance := by
  cases stride with
  | @comment blanks body rest split _ comment =>
    obtain ⟨tail, marked⟩ := List.head?_eq_some_iff.1 comment.marked
    have past := s.allowance_skip_le blanks.length
    have longer : 0 < body.length := by simp [marked]
    have taken := allowance_cut lines .comment longer ((rest_past split).trans_ne (by simp [marked]))
    rw [List.length_singleton]
    omega
  | @passed blanks ending =>
    rw [List.length_nil, Nat.zero_add]
    exact (allowance_skip_le _ _).trans (allowance_skip_le _ _)
  | @newline blanks ending rest split _ ends =>
    obtain ⟨c, tail, front, -⟩ := ends.head
    have longer : 0 < ending.length := ends.length ▸ lineEndLength_pos _
    have past := s.allowance_skip_le blanks.length
    have taken := allowance_cut lines .newline longer ((rest_past split).trans_ne (by simp [front]))
    have ended := ((s.skip blanks.length).cut lines .newline ending.length).2.allowance_lineEnded
    rw [List.length_singleton]
    omega
  | @joined blanks ending rest split =>
    have layout := paid_layout lines split
    have past := (s.layout lines blanks).2.allowance_skip_le (1 + ending.length)
    omega
  | @lexeme blanks c tail split =>
    have layout := paid_layout lines split
    have front : (s.layout lines blanks).2.rest = c :: tail := rest_pastLayout split
    have word := allowance_significant (d := d) lines (front.trans_ne (List.cons_ne_nil c tail))
    rw [List.length_append, List.length_singleton]
    omega

theorem Strides.length_le {tokens : List Token} (strides : Strides d lines s tokens) :
    tokens.length ≤ s.allowance := by
  induction strides with
  | @last s _ stride =>
    cases stride with
    | ends => exact (length_finish _ lines).trans (s.allowance_skip_le _)
  | step stride _ ih =>
    have paid := stride.paid
    rw [List.length_append]
    omega

end Scan

/-- A text has at most two tokens for each of its characters, and two more. -/
theorem length_lex (d : Dialect) (text : String) : (lex d text).length ≤ 2 * text.length + 2 := by
  have paid := (lex_strides d text).length_le
  rwa [Scan.allowance, show (Scan.start text.toList).rest = text.toList from rfl, String.length_toList] at paid

/-! ### One token at a time -/

namespace Lexer

variable {l : Lexer} {tokens : List Token} {last : Token}

/-- The tokens that a lexer has yet to give, and the one that it gives again and again behind them. -/
inductive Gives (l : Lexer) : List Token → Token → Prop
  | within {scan : Scan} {front : List Token} {last : Token} : l.progress = .within scan →
      (scan.collect l.dialect l.lines #[]).toList = front ++ [last] → Gives l (l.pending ++ (front ++ [last])) last
  | past {last : Token} : l.progress = .past last → Gives l l.pending last

theorem gives_ofText {front : List Token} {text : String} (whole : lex d text = front ++ [last]) :
    (ofText d text).Gives (front ++ [last]) last :=
  .within rfl whole

/-- A stride changes nothing of what is to come. -/
theorem Gives.refill (gives : l.Gives tokens last) : l.refill.Gives tokens last := by
  cases gives with
  | past past =>
    rw [Lexer.refill, past]
    exact .past past
  | @within scan front last within whole =>
    unfold Lexer.refill
    split
    next past => cases within.symm.trans past
    next scan' within' =>
    obtain rfl := Progress.within.inj (within.symm.trans within')
    split
    next more next stepped =>
      -- the scan behind the stride still has the end of the file to give, so the last token is one of its own
      have filled : (next.collect l.dialect l.lines #[]).toList ≠ [] := by
        simpa using (Scan.cuts_collect next l.dialect l.lines).endsOnce.ne_nil
      obtain ⟨back, last', later⟩ := (List.eq_nil_or_concat _).resolve_left filled
      rw [Scan.toList_collect_some stepped, later, List.concat_eq_append, ← List.append_assoc] at whole
      obtain ⟨rfl, same⟩ := List.append_inj' whole rfl
      obtain rfl := List.singleton_inj.1 same
      rw [List.append_assoc, ← List.append_assoc]
      exact .within rfl (later.trans (List.concat_eq_append ..))
    next more stepped =>
      obtain rfl : more = front ++ [last] := (Scan.toList_collect_none stepped).symm.trans whole
      exact .past (congrArg Progress.past List.getLast_concat)

/-- A call gives the first of the tokens to come, or the last one again. -/
theorem Gives.next (gives : l.Gives tokens last) :
    l.next.1 = tokens.headD last ∧ l.next.2.Gives tokens.tail last := by
  fun_induction Lexer.next l with
  | case1 l token pending waits =>
    cases gives with
    | within within whole =>
      rw [waits]
      exact ⟨rfl, .within within whole⟩
    | past past =>
      rw [waits]
      exact ⟨rfl, .past past⟩
  | case2 l waits token past =>
    cases gives with
    | within within => cases within.symm.trans past
    | past past' =>
      obtain rfl := Progress.past.inj (past.symm.trans past')
      have all : l.pending.tail = l.pending := by rw [waits, List.tail_nil]
      rw [all]
      exact ⟨by rw [waits, List.headD_nil], .past past⟩
  | case3 l waits scan within ih => exact ih gives.refill

/-- What a call gives is read off the tokens to come. -/
theorem Gives.answer (gives : l.Gives tokens last) (call : Nat) : l.answer call = tokens.getD call last := by
  induction call generalizing l tokens with
  | zero =>
    rw [Lexer.answer, gives.next.1]
    cases tokens <;> rfl
  | succ call ih =>
    rw [Lexer.answer, ih gives.next.2]
    cases tokens <;> rfl

variable {front : List Token}

theorem Gives.answer_front (gives : l.Gives (front ++ [last]) last) {call : Nat} (before : call < front.length) :
    l.answer call = front[call] := by
  rw [gives.answer, List.getD_append _ _ _ _ before, List.getD_eq_getElem _ _ before]

theorem Gives.answer_last (gives : l.Gives (front ++ [last]) last) {call : Nat} (behind : front.length ≤ call) :
    l.answer call = last := by
  rw [gives.answer, List.getD_append_right _ _ _ _ behind]
  cases call - front.length <;> rfl

/-- The first calls give the tokens one after another. -/
theorem Gives.answers (gives : l.Gives (front ++ [last]) last) :
    (List.range (front.length + 1)).map l.answer = front ++ [last] := by
  rw [List.range_succ, List.map_append, List.map_singleton, gives.answer_last le_rfl]
  congr 1
  refine List.ext_getElem (by simp) fun call within before => ?_
  rw [List.getElem_map, List.getElem_range, gives.answer_front before]

/-- The lexer reaches the end of the file: for a text there is a call, one of the first two for each character and two
more, that is the first to give it, and that every later call gives it again. The tokens up to it are those of the
text, and a call gives no token of a kind that the dialect does not define. -/
theorem endOfFile_reached (d : Dialect) (text : String) :
    ∃ count, count + 1 ≤ 2 * text.length + 2 ∧
      ((ofText d text).answer count).kind = .endOfFile ∧
      (∀ call < count, ((ofText d text).answer call).kind ≠ .endOfFile) ∧
      (∀ call, count ≤ call → (ofText d text).answer call = (ofText d text).answer count) ∧
      (∀ call, d.defines ((ofText d text).answer call).kind) ∧
      (List.range (count + 1)).map (ofText d text).answer = lex d text := by
  obtain ⟨kinds, split, others⟩ := endsOnce_lex d text
  obtain ⟨front, ending, whole, rfl, single⟩ := List.map_eq_append_iff.1 split
  obtain ⟨last, rfl, ends⟩ := List.map_eq_singleton_iff.1 single
  have gives := gives_ofText whole
  have bound := length_lex d text
  have defined : ∀ token ∈ front ++ [last], d.defines token.kind := fun token member =>
    (genuine_lex d text token (whole ▸ member)).defined
  rw [whole, List.length_append, List.length_singleton] at bound
  refine ⟨front.length, bound, ?_, fun call before same => ?_, fun call behind => ?_, fun call => ?_, ?_⟩
  · rw [gives.answer_last le_rfl, ends]
  · rw [gives.answer_front before] at same
    exact others (List.mem_map.2 ⟨front[call], List.getElem_mem before, same⟩)
  · rw [gives.answer_last behind, gives.answer_last le_rfl]
  · rcases Nat.lt_or_ge call front.length with before | behind
    · rw [gives.answer_front before]
      exact defined _ (List.mem_append_left _ (List.getElem_mem before))
    · rw [gives.answer_last behind]
      exact defined last List.mem_concat_self
  · rw [gives.answers, whole]

end Lexer

end TolerantParser
