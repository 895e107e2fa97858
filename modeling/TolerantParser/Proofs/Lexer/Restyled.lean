import TolerantParser.Proofs.Lexeme.Ended
import TolerantParser.Proofs.Lexer.Standing
import TolerantParser.Proofs.Printer.Restyled

/-!
The tokens of a text that is written anew. Stride by stride the text of the tokens as they are written is made of the
pieces that the strides have taken, with other blanks behind commas and in front of comments and with line ends written
as preferred (`Scan.Restyles`). What is behind a lexeme shows the same to it up to a character that stops it, so a
scan over the written text makes the same strides; its tokens are those that were written.
-/

namespace TolerantParser

variable {d : Dialect} {lines : LineIndex} {prefs : Prefs} {previous : Option TokenKind}

/-! ### Leads -/

/-- The blanks that are written behind a gap, in front of a token whose lead is the gap and some blanks. -/
structure Prefs.Blanked (prefs : Prefs) (previous : Option TokenKind) (token : Token)
    (gap blanks blanks' : List Char) : Prop where
  lead : (prefs.leadOf previous token).toList = gap ++ blanks'
  blank : Blanks blanks'
  same : blanks' = blanks ∨ token.kind = .comment ∨ previous = some .comma

theorem Prefs.exists_blanked (prefs : Prefs) (previous : Option TokenKind) {token : Token} {gap blanks : List Char}
    (lead : token.lead.toList = gap ++ blanks) (blank : Blanks blanks)
    (broken : gap ≠ [] → ∃ c ∈ gap, isLineEndChar c) : ∃ blanks', prefs.Blanked previous token gap blanks blanks' := by
  rcases prefs.leadOf_cases previous token with kept | ⟨inline, here, count, spaces⟩
  · exact ⟨blanks, by rw [kept, lead], blank, .inl rfl⟩
  · have plain := (Bool.and_eq_true_iff.1 inline).2
    rw [lead, List.all_append, Bool.and_eq_true] at plain
    have nothing : gap = [] := by
      by_contra some
      obtain ⟨c, member, ends⟩ := broken some
      have blank := List.all_eq_true.1 plain.1 c member
      rw [plain_of_blank (by simpa [isBlank] using .inl (by simpa using blank))] at ends
      cases ends
    refine ⟨List.replicate count ' ', ?_, fun c member => ?_, .inr here⟩
    · rw [spaces, nothing]
      exact String.toList_ofList
    · rw [(List.mem_replicate.1 member).2]
      rfl

theorem Prefs.respell_behind {blanks : List Char} (blank : Blanks blanks) (text : List Char) :
    prefs.respell (blanks ++ text) = blanks ++ prefs.respell text := by
  induction blanks with
  | nil => rfl
  | cons c rest ih =>
    rw [Blanks, List.forall_mem_cons] at blank
    rw [List.cons_append, Prefs.respell_plain (plain_of_blank blank.1), ih blank.2, List.cons_append]

theorem Prefs.respell_blanks {blanks : List Char} (blank : Blanks blanks) (prefs : Prefs) :
    prefs.respell blanks = blanks :=
  Prefs.respell_inline fun c member => plain_of_blank (blank c member)

theorem Prefs.respell_lineEnd {ending rest : List Char} (ends : IsLineEnd ending rest) (prefs : Prefs) :
    prefs.respell ending = prefs.lineEnd ending := by
  have alone : IsLineEnd ending [] := by
    cases ends with
    | lf => exact .lf []
    | crlf => exact .crlf []
    | cr => exact .cr nofun
  have written : prefs.respell (ending ++ []) = _ := Prefs.respell_ending alone
  rwa [List.append_nil, Prefs.respell_nil, List.append_nil] at written

namespace Scan

variable {s t next : Scan} {tokens : List Token} {out : List Char}

/-- How a scan stands behind a token of kind `previous`: a comma is within a logical line, and the pending lead has a
line end, if there is any. -/
structure Poised (previous : Option TokenKind) (s : Scan) : Prop where
  comma : previous = some .comma → s.atLineStart = false ∧ s.inStatement
  broken : s.gap ≠ [] → ∃ c ∈ s.gap, isLineEndChar c
  parted : Parted s.gap s.rest

theorem poised_start (text : List Char) : Poised none (.start text) :=
  ⟨nofun, absurd rfl, fun pair => by cases pair.1⟩

theorem parted_nil (more : List Char) : Parted [] more := fun pair => by cases pair.1

theorem gap_layout (s : Scan) (lines : LineIndex) (blanks : List Char) :
    (s.layout lines blanks).2.gap = (s.skip blanks.length).gap := by
  unfold layout
  split <;> rfl

theorem gap_past {blanks front : List Char} (split : s.rest = blanks ++ front) :
    (s.skip blanks.length).gap = s.gap ++ blanks := by
  rw [skip, split, List.take_left]

theorem rest_pastCut {piece rest : List Char} (split : s.rest = piece ++ rest) (lines : LineIndex) (kind : TokenKind) :
    (s.cut lines kind piece.length).2.rest = rest := by
  rw [rest_cut, split, List.drop_left]

theorem behindAll_layout (previous : Option TokenKind) (layout : ∀ token ∈ tokens, token.kind.isLayout) :
    Prefs.behindAll previous tokens = previous := by
  induction tokens with
  | nil => rfl
  | cons token rest ih =>
    rw [List.forall_mem_cons] at layout
    rw [Prefs.behindAll, List.foldl_cons, Prefs.behind, if_pos layout.1]
    exact ih layout.2

theorem parted_ending (front : List Char) {ending rest : List Char} (ends : IsLineEnd ending rest) :
    Parted (front ++ ending) rest := by
  rintro ⟨last, first⟩
  cases ends with
  | lf | crlf => simp at last
  | cr alone => exact alone first

/-- The pending lead has a line end once one has been passed over. -/
theorem poised_passed (gap : List Char) {rest ending : List Char} (ends : IsLineEnd ending rest)
    (split : next.gap = gap ++ ending) (front : next.rest = rest)
    (comma : previous = some .comma → next.atLineStart = false ∧ next.inStatement) : Poised previous next := by
  refine ⟨comma, fun _ => ?_, by rw [split, front]; exact parted_ending gap ends⟩
  have member : ∃ c ∈ ending, isLineEndChar c := by
    cases ends <;> exact ⟨_, List.mem_cons_self, rfl⟩
  obtain ⟨c, member, lineEnd⟩ := member
  exact ⟨c, by rw [split]; exact List.mem_append_right _ member, lineEnd⟩

theorem rest_joined {blanks ending rest : List Char} (split : s.rest = blanks ++ '\\' :: (ending ++ rest))
    (lines : LineIndex) : ((s.layout lines blanks).2.skip (1 + ending.length)).rest = rest := by
  have front : (s.layout lines blanks).2.rest = ('\\' :: ending) ++ rest := rest_pastLayout split
  rw [Nat.add_comm]
  exact rest_past front

theorem gap_joined {blanks ending rest : List Char} (split : s.rest = blanks ++ '\\' :: (ending ++ rest)) :
    ((s.layout lines blanks).2.skip (1 + ending.length)).gap = s.gap ++ (blanks ++ '\\' :: ending) := by
  have front : (s.layout lines blanks).2.rest = ('\\' :: ending) ++ rest := rest_pastLayout split
  have length : 1 + ending.length = ('\\' :: ending).length := Nat.add_comm ..
  rw [length, gap_past front, gap_layout, gap_past split, List.append_assoc]

theorem Poised.pastJoined (poised : Poised previous s) {blanks ending rest : List Char}
    (split : s.rest = blanks ++ '\\' :: (ending ++ rest)) (ends : IsLineEnd ending rest) :
    Poised previous ((s.layout lines blanks).2.skip (1 + ending.length)) := by
  refine poised_passed (s.gap ++ blanks ++ ['\\']) ends ?_ (rest_joined split lines) fun comma => ?_
  · rw [gap_joined split]
    simp
  · exact ⟨inLine_layout .., (inStatement_layout ..).trans (poised.comma comma).2⟩

theorem Poised.onward (poised : Poised previous s) (stride : Stride d lines s tokens (some next)) :
    Poised (Prefs.behindAll previous tokens) next := by
  cases stride with
  | comment => exact ⟨nofun, absurd rfl, parted_nil _⟩
  | @passed blanks ending rest split _ ends =>
    refine poised_passed (s.gap ++ blanks) ends ?_ ?_ poised.comma
    · rw [gap_past (rest_past split), gap_past split]
    · exact rest_past (rest_past split)
  | newline => exact ⟨nofun, absurd rfl, parted_nil _⟩
  | joined split _ ends =>
    rw [behindAll_layout previous fun token member => (mem_layout member).1]
    exact poised.pastJoined split ends
  | @lexeme blanks =>
    exact ⟨fun _ => ⟨inLine_layout s lines blanks, rfl⟩, absurd rfl, parted_nil _⟩

/-! ### The text as it is written -/

/-- A lexeme that is no error, up to its end. -/
structure IsWord (d : Dialect) (kind : TokenKind) (word rest : List Char) : Prop where
  starts : ∃ c tail, word = c :: tail ∧ StartsLexeme c (tail ++ rest)
  scanned : scanLexeme d (word ++ rest) = (kind, word.length)
  proper : kind ≠ .error
  ended : ∀ c ∈ word.getLast?, isLineEndChar c = false

theorem exists_isWord {c : Char} {tail : List Char} {kind : TokenKind} {length : Nat} (starts : StartsLexeme c tail)
    (cut : scanLexeme d (c :: tail) = (kind, length)) (proper : kind ≠ .error) :
    ∃ word rest, c :: tail = word ++ rest ∧ IsWord d kind word rest := by
  obtain ⟨word, rest, split, rfl, ended⟩ := exists_lexeme (List.cons_ne_nil c tail) cut proper
  have positive := scanLexeme_pos d (List.cons_ne_nil c tail)
  rw [cut] at positive
  obtain ⟨first, more, rfl⟩ := List.exists_cons_of_length_pos positive
  refine ⟨first :: more, rest, split, ⟨first, more, rfl, ?_⟩, split ▸ cut, proper, fun last found => ?_⟩
  · obtain ⟨rfl, rfl⟩ := List.cons.inj split
    exact starts
  · by_contra ends
    obtain ⟨rfl, rfl⟩ := List.cons.inj (ended last found (by simpa using ends))
    obtain ⟨rfl, -⟩ := List.cons.inj split
    exact ends starts.notLineEnd

/-- The text of the tokens that a scan gives, as they are written, without the lead that is pending: stride by stride
it is what the stride has taken, with other blanks and other line ends. -/
inductive Restyles (prefs : Prefs) (d : Dialect) (lines : LineIndex) :
    Option TokenKind → Scan → List Token → List Char → Prop
  | ends {previous : Option TokenKind} {s : Scan} : Blanks s.rest →
      Restyles prefs d lines previous s ((s.skip s.rest.length).finish lines) s.rest
  | comment {previous : Option TokenKind} {s : Scan} {blanks blanks' body rest out : List Char} {tokens : List Token} :
      s.rest = blanks ++ (body ++ rest) → Blanks blanks → IsComment body rest →
      prefs.Blanked previous ((s.skip blanks.length).cut lines .comment body.length).1 s.gap blanks blanks' →
      Restyles prefs d lines (some .comment) ((s.skip blanks.length).cut lines .comment body.length).2 tokens out →
      Restyles prefs d lines previous s (((s.skip blanks.length).cut lines .comment body.length).1 :: tokens)
        (blanks' ++ (body ++ out))
  | passed {previous : Option TokenKind} {s : Scan} {blanks ending rest out : List Char} {tokens : List Token} :
      s.rest = blanks ++ (ending ++ rest) → Blanks blanks → IsLineEnd ending rest → s.atLineStart ∨ 0 < s.depth →
      Restyles prefs d lines previous ((s.skip blanks.length).skip ending.length) tokens out →
      Restyles prefs d lines previous s tokens (blanks ++ (prefs.lineEnd ending ++ out))
  | newline {previous : Option TokenKind} {s : Scan} {blanks ending rest out : List Char} {tokens : List Token} :
      s.rest = blanks ++ (ending ++ rest) → Blanks blanks → IsLineEnd ending rest → s.atLineStart = false →
        s.depth = 0 →
      Restyles prefs d lines (some .newline) ((s.skip blanks.length).cut lines .newline ending.length).2.lineEnded
        tokens out →
      Restyles prefs d lines previous s (((s.skip blanks.length).cut lines .newline ending.length).1 :: tokens)
        (blanks ++ (prefs.lineEnd ending ++ out))
  | joined {previous : Option TokenKind} {s : Scan} {blanks ending rest out : List Char} {tokens : List Token} :
      s.rest = blanks ++ '\\' :: (ending ++ rest) → Blanks blanks → IsLineEnd ending rest →
      Restyles prefs d lines previous ((s.layout lines blanks).2.skip (1 + ending.length)) tokens out →
      Restyles prefs d lines previous s ((s.layout lines blanks).1 ++ tokens)
        (blanks ++ '\\' :: (prefs.lineEnd ending ++ out))
  | lexeme {previous : Option TokenKind} {s : Scan} {blanks blanks' word rest out : List Char} {kind : TokenKind}
      {tokens : List Token} : s.rest = blanks ++ (word ++ rest) → Blanks blanks → IsWord d kind word rest →
      prefs.Blanked previous ((s.layout lines blanks).2.significant d lines).1 s.gap blanks blanks' →
      Restyles prefs d lines (some kind) ((s.layout lines blanks).2.significant d lines).2 tokens out →
      Restyles prefs d lines previous s
        ((s.layout lines blanks).1 ++ ((s.layout lines blanks).2.significant d lines).1 :: tokens)
        (blanks' ++ (word ++ out))

theorem IsWord.stride {blanks word rest : List Char} {kind : TokenKind} (split : s.rest = blanks ++ (word ++ rest))
    (blank : Blanks blanks) (isWord : IsWord d kind word rest) : Stride d lines s
      ((s.layout lines blanks).1 ++ [((s.layout lines blanks).2.significant d lines).1])
      (some ((s.layout lines blanks).2.significant d lines).2) := by
  obtain ⟨c, tail, rfl, starts⟩ := isWord.starts
  exact .lexeme split blank starts

theorem IsWord.significant {s : Scan} {kind : TokenKind} {word rest : List Char} (isWord : IsWord d kind word rest)
    (front : s.rest = word ++ rest) : s.significant d lines = ((s.cut lines kind word.length).1,
      { (s.cut lines kind word.length).2 with depth := depthAfter s.depth kind, inStatement := true }) := by
  rw [Scan.significant, front, isWord.scanned]
  rfl

theorem kind_significant {s : Scan} {kind : TokenKind} {word rest : List Char} (front : s.rest = word ++ rest)
    (isWord : IsWord d kind word rest) : (s.significant d lines).1.kind = kind := by
  rw [isWord.significant front]
  rfl

theorem Strides.restyles (strides : Strides d lines s tokens) (prefs : Prefs)
    (proper : ∀ token ∈ tokens, token.kind ≠ .error) (poised : Poised previous s) :
    ∃ out, Restyles prefs d lines previous s tokens out := by
  induction strides generalizing previous with
  | last stride =>
    cases stride with
    | ends blank => exact ⟨_, .ends blank⟩
  | @step s next tokens more stride _ ih =>
    rw [List.forall_mem_append] at proper
    obtain ⟨out, later⟩ := ih proper.2 (poised.onward stride)
    cases stride with
    | @comment blanks body rest split blank comment =>
      have lead : ((s.skip blanks.length).cut lines .comment body.length).1.lead.toList = s.gap ++ blanks :=
        String.toList_ofList.trans (gap_past split)
      obtain ⟨blanks', blanked⟩ := prefs.exists_blanked previous lead blank poised.broken
      exact ⟨_, .comment split blank comment blanked later⟩
    | passed split blank ends here => exact ⟨_, .passed split blank ends here later⟩
    | newline split blank ends here outside => exact ⟨_, .newline split blank ends here outside later⟩
    | @joined blanks _ _ split blank ends =>
      rw [behindAll_layout previous fun token member => (mem_layout member).1] at later
      exact ⟨_, .joined split blank ends later⟩
    | @lexeme blanks c tail split blank starts =>
      have front : (s.layout lines blanks).2.rest = c :: tail := rest_pastLayout split
      have lead : ((s.layout lines blanks).2.significant d lines).1.lead.toList = s.gap ++ blanks :=
        String.toList_ofList.trans ((gap_layout ..).trans (gap_past split))
      obtain ⟨blanks', blanked⟩ := prefs.exists_blanked previous lead blank poised.broken
      have kind : ((s.layout lines blanks).2.significant d lines).1.kind = (scanLexeme d (c :: tail)).1 := by
        rw [← front]
        rfl
      obtain ⟨word, rest, parts, isWord⟩ := exists_isWord starts (Prod.eta _).symm
        (kind ▸ proper.1 _ (List.mem_append_right _ (List.mem_singleton_self _)))
      have inline : (scanLexeme d (c :: tail)).1.isLayout = false :=
        TokenKind.plain_of_isInline (isLexeme_scanLexeme (d := d) (c :: tail)).1
      rw [Prefs.behindAll, List.foldl_append, List.foldl_cons, kind, Prefs.behind, if_neg (by simp [inline])] at later
      rw [parts] at split
      rw [List.append_assoc]
      exact ⟨_, .lexeme split blank isWord blanked later⟩

/-! ### What a lexeme sees -/

/-- The written text begins with a line feed only where it stands for one. -/
theorem Restyles.feeds (restyles : Restyles prefs d lines previous s tokens out) : prefs.Feeds s.rest out := by
  have behind : ∀ {blanks text out : List Char}, Blanks blanks → prefs.Feeds text out →
      prefs.Feeds (blanks ++ text) (blanks ++ out) := fun {blanks text out} blank feeds => by
    cases blanks with
    | nil => exact feeds
    | cons c tail =>
      refine Prefs.feeds_plain ?_ _
      rintro rfl
      cases blank _ List.mem_cons_self
  have plain : ∀ {blanks text front out : List Char}, Blanks blanks → (∀ c ∈ front.head?, c ≠ '\n') → front ≠ [] →
      prefs.Feeds text (blanks ++ (front ++ out)) := fun {blanks text front out} blank other filled => by
    cases blanks with
    | nil =>
      obtain ⟨c, tail, rfl⟩ := List.exists_cons_of_ne_nil filled
      exact Prefs.feeds_plain (other c rfl) _
    | cons c tail =>
      refine Prefs.feeds_plain ?_ _
      rintro rfl
      cases blank _ List.mem_cons_self
  cases restyles with
  | ends blank =>
    intro first
    have here := blank _ (List.mem_of_head? first)
    cases here
  | @comment _ _ blanks blanks' body _ _ _ _ _ comment blanked =>
    obtain ⟨tail, marked⟩ := List.head?_eq_some_iff.1 comment.marked
    refine plain blanked.blank (fun c first => ?_) (by rw [marked]; exact List.cons_ne_nil _ _)
    rw [comment.marked] at first
    obtain rfl := Option.some.inj first
    decide
  | passed split blank ends =>
    rw [split]
    exact behind blank (Prefs.feeds_lineEnd ends _)
  | newline split blank ends =>
    rw [split]
    exact behind blank (Prefs.feeds_lineEnd ends _)
  | @joined _ _ _ ending _ out _ _ blank =>
    have other : ∀ c ∈ ['\\'].head?, c ≠ '\n' := by
      rintro c ⟨⟩
      decide
    exact plain blank other (List.cons_ne_nil _ _)
  | lexeme _ _ isWord blanked =>
    obtain ⟨c, tail, rfl, starts⟩ := isWord.starts
    refine plain blanked.blank (fun first found => ?_) (List.cons_ne_nil _ _)
    obtain rfl := Option.some.inj found
    rintro rfl
    cases starts.notLineEnd

theorem stopped_behind {blanks front : List Char} (blank : Blanks blanks) (stopped : Stopped front) :
    Stopped (blanks ++ front) := by
  cases blanks with
  | nil => exact stopped
  | cons c tail =>
    rintro _ ⟨⟩
    simp [isStopper, blank c List.mem_cons_self]

theorem stopped_lineEnd {ending rest : List Char} (ends : IsLineEnd ending rest) (prefs : Prefs) (out : List Char) :
    Stopped (ending ++ rest) ∧ Stopped (prefs.lineEnd ending ++ out) := by
  constructor
  · obtain ⟨c, tail, front, lineEnd, -⟩ := ends.head
    rw [front]
    rintro _ ⟨⟩
    simp [isStopper, lineEnd]
  · obtain ⟨c, tail, front, lineEnd, -⟩ := prefs.head?_lineEnd ends
    rw [front]
    rintro _ ⟨⟩
    simp [isStopper, lineEnd]

theorem stopped_comment {body rest : List Char} (comment : IsComment body rest) (out : List Char) :
    Stopped (body ++ out) := by
  obtain ⟨tail, marked⟩ := List.head?_eq_some_iff.1 comment.marked
  rw [marked]
  rintro _ ⟨⟩
  decide

theorem not_comment_of_isWord {kind : TokenKind} {word rest : List Char} (isWord : IsWord d kind word rest) :
    kind.isInline ∧ kind ≠ .comment := by
  have inline := (isLexeme_scanLexeme (d := d) (word ++ rest)).1
  rw [isWord.scanned] at inline
  exact ⟨inline, fun comment => by rw [comment] at inline; cases inline⟩

/-- Where a line has ended it has ended in the written text, too. -/
theorem Restyles.ended (restyles : Restyles prefs d lines previous s tokens out)
    (ended : ∀ c ∈ s.rest.head?, isLineEndChar c) : ∀ c ∈ out.head?, isLineEndChar c := by
  have noBlank : ∀ {blanks front : List Char}, s.rest = blanks ++ front → Blanks blanks → blanks = [] :=
    fun {blanks front} split blank => by
      cases blanks with
      | nil => rfl
      | cons c tail =>
        have ends := ended c (by rw [split]; rfl)
        rw [plain_of_blank (blank c List.mem_cons_self)] at ends
        cases ends
  cases restyles with
  | ends => exact ended
  | comment split blank comment =>
    obtain rfl := noBlank split blank
    obtain ⟨tail, marked⟩ := List.head?_eq_some_iff.1 comment.marked
    have ends := ended '#' (by rw [split, marked]; rfl)
    cases ends
  | passed split blank ends =>
    obtain rfl := noBlank split blank
    obtain ⟨c, tail, front, lineEnd, -⟩ := prefs.head?_lineEnd ends
    rw [front]
    rintro _ ⟨⟩
    exact lineEnd
  | newline split blank ends =>
    obtain rfl := noBlank split blank
    obtain ⟨c, tail, front, lineEnd, -⟩ := prefs.head?_lineEnd ends
    rw [front]
    rintro _ ⟨⟩
    exact lineEnd
  | joined split blank =>
    obtain rfl := noBlank split blank
    have ends := ended '\\' (by rw [split]; rfl)
    cases ends
  | lexeme split blank isWord =>
    obtain rfl := noBlank split blank
    obtain ⟨c, tail, rfl, starts⟩ := isWord.starts
    have ends := ended c (by rw [split]; rfl)
    rw [starts.notLineEnd] at ends
    cases ends

/-- Two texts are the same up to where lexemes stop. -/
def Agree (text out : List Char) : Prop :=
  ∃ more rest rest', text = more ++ rest ∧ out = more ++ rest' ∧ Stopped rest ∧ Stopped rest'

theorem Agree.behind {text out : List Char} (agree : Agree text out) (front : List Char) :
    Agree (front ++ text) (front ++ out) := by
  obtain ⟨more, rest, rest', rfl, rfl, stopped, stopped'⟩ := agree
  exact ⟨front ++ more, rest, rest', (List.append_assoc ..).symm, (List.append_assoc ..).symm, stopped, stopped'⟩

theorem agree_of_stopped {text out : List Char} (stopped : Stopped text) (stopped' : Stopped out) : Agree text out :=
  ⟨[], text, out, rfl, rfl, stopped, stopped'⟩

/-- The written text is what it was up to where lexemes stop, unless it is behind a comma. -/
theorem Restyles.agree (restyles : Restyles prefs d lines previous s tokens out) (other : previous ≠ some .comma) :
    Agree s.rest out := by
  induction restyles with
  | @ends _ s blank =>
    have stopped : Stopped s.rest := by
      rw [← List.append_nil s.rest]
      exact stopped_behind blank nofun
    exact agree_of_stopped stopped stopped
  | comment split blank comment blanked _ _ =>
    rw [split]
    exact agree_of_stopped (stopped_behind blank (stopped_comment comment _))
      (stopped_behind blanked.blank (stopped_comment comment _))
  | @passed _ _ blanks _ _ out _ split _ ends _ _ _ =>
    obtain ⟨stopped, stopped'⟩ := stopped_lineEnd ends prefs out
    rw [split]
    exact (agree_of_stopped stopped stopped').behind blanks
  | @newline _ _ blanks _ _ out _ split _ ends _ _ _ _ =>
    obtain ⟨stopped, stopped'⟩ := stopped_lineEnd ends prefs out
    rw [split]
    exact (agree_of_stopped stopped stopped').behind blanks
  | @joined _ _ blanks ending rest out _ split _ ends _ _ =>
    obtain ⟨stopped, stopped'⟩ := stopped_lineEnd ends prefs out
    rw [split]
    exact ((agree_of_stopped stopped stopped').behind ['\\']).behind blanks
  | @lexeme _ s blanks blanks' word rest out kind _ split _ isWord blanked _ ih =>
    have front : (s.layout lines blanks).2.rest = word ++ rest := rest_pastLayout split
    have same : blanks' = blanks := blanked.same.resolve_right fun here => here.elim
      (fun comment => (not_comment_of_isWord isWord).2 ((kind_significant front isWord).symm.trans comment)) other
    rw [split, same]
    refine Agree.behind ?_ blanks
    by_cases comma : kind = .comma
    · -- a comma stops lexemes itself
      obtain ⟨tail, split, length⟩ := eq_comma_of_scanLexeme (comma ▸ isWord.scanned)
      obtain ⟨c, rfl⟩ := List.length_eq_one_iff.1 length
      obtain ⟨rfl, -⟩ := List.cons.inj split
      exact agree_of_stopped (by rintro _ ⟨⟩; decide) (by rintro _ ⟨⟩; decide)
    · have later := ih (by simpa using comma)
      rw [show ((s.layout lines blanks).2.significant d lines).2.rest = rest from ?_] at later
      · exact later.behind word
      · rw [rest_significant, front, isWord.scanned, List.drop_left]

/-- A lexeme is one in the written text, too. -/
theorem Restyles.isWord {word : List Char} {kind : TokenKind} (isWord : IsWord d kind word s.rest)
    (restyles : Restyles prefs d lines (some kind) s tokens out) : IsWord d kind word out := by
  obtain ⟨c, tail, rfl, starts⟩ := isWord.starts
  have scanned : scanLexeme d (c :: tail ++ out) = (kind, (c :: tail).length) := by
    by_cases comma : kind = .comma
    · subst comma
      obtain ⟨behind, split, length⟩ := eq_comma_of_scanLexeme isWord.scanned
      obtain rfl : tail = [] := List.length_eq_zero_iff.1 (Nat.succ.inj length)
      obtain ⟨rfl, -⟩ := List.cons.inj split
      exact scanLexeme_comma d out
    · obtain ⟨more, rest, rest', split, rfl, stopped, stopped'⟩ := restyles.agree (by simpa using comma)
      have cut := isWord.scanned
      rw [split] at cut
      exact scanLexeme_stopped (List.cons_ne_nil c tail) cut stopped stopped' (absurd · isWord.proper)
  refine ⟨⟨c, tail, rfl, starts.notBlank, starts.notComment, starts.notLineEnd, ?_⟩, scanned, isWord.proper,
    isWord.ended⟩
  rintro rfl
  have error := scanLexeme_backslash d (tail ++ out)
  rw [← List.cons_append, scanned] at error
  exact absurd error isWord.proper

/-! ### What is written -/

/-- What is taken in front of a token is written behind the pending lead as it is written by itself. -/
theorem Poised.respell_gap (poised : Poised previous s) {piece rest : List Char} (split : s.rest = piece ++ rest) :
    prefs.respell (s.gap ++ piece) = prefs.respell s.gap ++ prefs.respell piece := by
  refine Prefs.respell_append fun pair => poised.parted ⟨pair.1, ?_⟩
  rw [split, List.head?_append, pair.2]
  rfl

theorem lead_written {token : Token} {blanks blanks' : List Char}
    (blanked : prefs.Blanked previous token s.gap blanks blanks') :
    prefs.leadWritten previous token = prefs.respell s.gap ++ blanks' := by
  have parted : Parted s.gap blanks' := fun pair => by
    have feed := blanked.blank _ (List.mem_of_head? pair.2)
    cases feed
  rw [Prefs.leadWritten, blanked.lead, Prefs.respell_append parted, Prefs.respell_blanks blanked.blank]

theorem Poised.dress_layout (poised : Poised previous s) (blanks : List Char) (more : List Token) :
    prefs.dress previous ((s.layout lines blanks).1 ++ more) = prefs.dress previous more := by
  by_cases comma : previous = some .comma
  · rw [layout, (poised.comma comma).1, if_neg Bool.false_ne_true]
    rfl
  · exact Prefs.dress_layout comma (fun token member => mem_layout member) more

theorem dress_finish (comma : previous = some .comma → s.inStatement) :
    prefs.dress previous (s.finish lines) = prefs.respell s.gap := by
  have last : ∀ previous, prefs.dress previous [(s.cut lines .endOfFile 0).1] = prefs.respell s.gap :=
    fun previous => by
    have lead : prefs.leadOf previous (s.cut lines .endOfFile 0).1 = (s.cut lines .endOfFile 0).1.lead :=
      Prefs.leadOf_closing (show TokenKind.endOfFile ≠ .comment by decide) rfl
    rw [Prefs.dress, Prefs.leadWritten, lead, Prefs.textWritten_empty rfl, List.append_nil, Prefs.dress,
      List.append_nil]
    exact congrArg _ String.toList_ofList
  have dedents : ∀ token ∈ List.replicate (s.columns.length - 1) (s.detached lines .dedent),
      token.kind.isLayout ∧ token.text = "" ∧ token.lead = "" := fun token member => by
    rw [(List.mem_replicate.1 member).2]
    exact ⟨rfl, rfl, rfl⟩
  unfold finish
  split
  · have lead : prefs.leadWritten previous (s.detached lines .newline) = [] := by
      rw [Prefs.leadWritten, Prefs.leadOf_closing (show TokenKind.newline ≠ .comment by decide) rfl]
      exact prefs.respell_nil
    rw [List.append_assoc, List.singleton_append, Prefs.dress, lead, Prefs.textWritten_empty rfl]
    exact (Prefs.dress_layout (show some TokenKind.newline ≠ some .comma by decide) dedents _).trans (last _)
  next outside =>
    rw [List.nil_append, Prefs.dress_layout (fun here => outside (comma here)) dedents]
    exact last previous

theorem text_cut {piece rest : List Char} (split : s.rest = piece ++ rest) (kind : TokenKind) :
    (s.cut lines kind piece.length).1.text = String.ofList piece :=
  congrArg String.ofList (by rw [split, List.take_left])

theorem out_of_cut {text more : List Char} (later : prefs.respell [] ++ text = more) : text = more := by
  rwa [Prefs.respell_nil, List.nil_append] at later

section

variable {blanks blanks' ending rest : List Char}

theorem written_comment {body : List Char} (split : s.rest = blanks ++ (body ++ rest)) :
    prefs.textWritten ((s.skip blanks.length).cut lines .comment body.length).1 = body := by
  rw [Prefs.textWritten_plain (show TokenKind.comment ≠ .newline by decide), text_cut (rest_past split) _,
    String.toList_ofList]

theorem written_line (split : s.rest = blanks ++ (ending ++ rest)) (ends : IsLineEnd ending rest) :
    prefs.textWritten ((s.skip blanks.length).cut lines .newline ending.length).1 = prefs.lineEnd ending := by
  have filled : (String.ofList ending).isEmpty = false := by cases ends <;> rfl
  rw [Prefs.textWritten, text_cut (rest_past split) _, filled, String.toList_ofList]
  rfl

theorem Poised.lead_line (poised : Poised previous s) (split : s.rest = blanks ++ rest) (blank : Blanks blanks)
    (count : Nat) : prefs.leadWritten previous ((s.skip blanks.length).cut lines .newline count).1 =
      prefs.respell s.gap ++ blanks := by
  rw [Prefs.leadWritten, Prefs.leadOf_closing (show TokenKind.newline ≠ .comment by decide) rfl]
  refine (congrArg _ (String.toList_ofList.trans (gap_past split))).trans ?_
  rw [poised.respell_gap split, Prefs.respell_blanks blank]

theorem written_word {word : List Char} {kind : TokenKind} (front : s.rest = word ++ rest)
    (isWord : IsWord d kind word rest) (lines : LineIndex) (prefs : Prefs) :
    prefs.textWritten (s.significant d lines).1 = word := by
  have inline := (not_comment_of_isWord isWord).1
  have plain : (s.significant d lines).1.kind ≠ .newline := fun line => by
    rw [kind_significant front isWord] at line
    rw [line] at inline
    cases inline
  rw [Prefs.textWritten_plain plain, isWord.significant front, text_cut front _, String.toList_ofList]

theorem Poised.gap_passed (poised : Poised previous s) (split : s.rest = blanks ++ (ending ++ rest))
    (blank : Blanks blanks) (ends : IsLineEnd ending rest) :
    prefs.respell ((s.skip blanks.length).skip ending.length).gap =
      prefs.respell s.gap ++ (blanks ++ prefs.lineEnd ending) := by
  rw [gap_past (rest_past split), gap_past split, List.append_assoc,
    poised.respell_gap (split.trans (List.append_assoc ..).symm), Prefs.respell_behind blank,
      Prefs.respell_lineEnd ends]

theorem Poised.gap_joined (poised : Poised previous s) (split : s.rest = blanks ++ '\\' :: (ending ++ rest))
    (blank : Blanks blanks) (ends : IsLineEnd ending rest) :
    prefs.respell ((s.layout lines blanks).2.skip (1 + ending.length)).gap =
      prefs.respell s.gap ++ (blanks ++ '\\' :: prefs.lineEnd ending) := by
  have whole : s.rest = (blanks ++ '\\' :: ending) ++ rest := by
    rw [split]
    simp
  rw [Scan.gap_joined split, poised.respell_gap whole, Prefs.respell_behind blank, Prefs.respell_plain rfl,
    Prefs.respell_lineEnd ends]

/-- The scan behind a lexeme. -/
theorem Poised.pastWord (poised : Poised previous s) {word : List Char} {kind : TokenKind}
    (split : s.rest = blanks ++ (word ++ rest)) (blank : Blanks blanks) (isWord : IsWord d kind word rest) :
    Poised (some kind) ((s.layout lines blanks).2.significant d lines).2 := by
  have stride : Stride d lines s _ _ := isWord.stride split blank
  have past := poised.onward stride
  rwa [Prefs.behindAll, List.foldl_append, List.foldl_cons, List.foldl_nil,
    kind_significant (rest_pastLayout split) isWord, Prefs.behind,
    TokenKind.plain_of_isInline (not_comment_of_isWord isWord).1] at past

end

/-- Behind the pending lead the text is what the tokens are written as. -/
theorem Restyles.written (restyles : Restyles prefs d lines previous s tokens out) (poised : Poised previous s) :
    prefs.respell s.gap ++ out = prefs.dress previous tokens := by
  induction restyles with
  | @ends previous s blank =>
    have inStatement : previous = some .comma → (s.skip s.rest.length).inStatement :=
      fun comma => (poised.comma comma).2
    rw [dress_finish inStatement, gap_past (List.append_nil _).symm, poised.respell_gap (List.append_nil _).symm,
      Prefs.respell_blanks blank]
  | @comment previous s blanks blanks' body rest out tokens split blank comment blanked _ ih =>
    have stride : Stride d lines s _ _ := .comment split blank comment
    have later := out_of_cut (ih (poised.onward stride))
    rw [Prefs.dress, lead_written blanked, written_comment split, List.append_assoc, List.append_assoc, later]
    rfl
  | @passed previous s blanks ending rest out tokens split blank ends here _ ih =>
    have stride : Stride d lines s _ _ := .passed split blank ends here
    have later := ih (poised.onward stride)
    rw [poised.gap_passed split blank ends] at later
    rw [← later]
    simp only [List.append_assoc]
  | @newline previous s blanks ending rest out tokens split blank ends here outside _ ih =>
    have stride : Stride d lines s _ _ := .newline split blank ends here outside
    have later := out_of_cut (ih (poised.onward stride))
    rw [Prefs.dress, poised.lead_line split blank, written_line split ends, List.append_assoc, List.append_assoc, later]
    rfl
  | @joined previous s blanks ending rest out tokens split blank ends _ ih =>
    have later := ih (poised.pastJoined split ends)
    rw [poised.gap_joined split blank ends] at later
    rw [poised.dress_layout, ← later]
    simp only [List.append_assoc, List.cons_append]
  | @lexeme previous s blanks blanks' word rest out kind tokens split blank isWord blanked _ ih =>
    have front : (s.layout lines blanks).2.rest = word ++ rest := rest_pastLayout split
    have later := out_of_cut (ih (poised.pastWord split blank isWord))
    rw [poised.dress_layout, Prefs.dress, lead_written blanked, written_word front isWord,
      kind_significant front isWord,
      Prefs.behind, TokenKind.plain_of_isInline (not_comment_of_isWord isWord).1, List.append_assoc, List.append_assoc,
      later]
    rfl

/-! ### The scan of the written text -/

variable {text text' piece rest : List Char} {count : Nat}

theorem parted_inline {more : List Char} (inline : ∀ c ∈ piece.getLast?, isLineEndChar c = false) :
    Parted piece more := fun pair => by
  have ends := inline _ pair.1
  cases ends

theorem parted_blanks {blanks more : List Char} (blank : Blanks blanks) : Parted blanks more :=
  parted_inline fun c last => plain_of_blank (blank c (List.mem_of_getLast? last))

/-- So many lines have ended where the scan is. -/
structure AtLine (text : List Char) (count : Nat) (s : Scan) : Prop where
  split : ∃ before, text = before ++ s.rest ∧ s.offset = before.length ∧ Parted before s.rest ∧ lineCount before = count

namespace AtLine

variable (here : AtLine text count s)

include here

theorem line : ((LineIndex.ofChars text).position s.offset).line = count + 1 := by
  obtain ⟨before, split, offset, parted, rfl⟩ := here.split
  rw [offset, split, LineIndex.line_parted parted]

/-- A piece further on. -/
theorem moved (split : s.rest = piece ++ rest) (parted : Parted piece rest) (next : Scan) (front : next.rest = rest)
    (offset : next.offset = s.offset + piece.length) : AtLine text (count + lineCount piece) next := by
  obtain ⟨before, whole, length, apart, rfl⟩ := here.split
  rw [split] at whole apart
  have apart' : Parted before piece := fun pair => apart ⟨pair.1, by rw [List.head?_append, pair.2]; rfl⟩
  refine ⟨before ++ piece, ?_, ?_, fun pair => ?_, lineCount_append apart'⟩
  · rw [whole, front, List.append_assoc]
  · rw [offset, length, List.length_append]
  · obtain ⟨last, first⟩ := pair
    rw [front] at first
    rcases List.eq_nil_or_concat piece with rfl | ⟨inner, c, rfl⟩
    · exact apart ⟨by rwa [List.append_nil] at last, first⟩
    · rw [List.concat_eq_append, ← List.append_assoc, List.getLast?_concat] at last
      rw [List.concat_eq_append] at parted
      exact parted ⟨by rw [List.getLast?_concat, last], first⟩

theorem skip (split : s.rest = piece ++ rest) (parted : Parted piece rest) :
    AtLine text (count + lineCount piece) (s.skip piece.length) :=
  here.moved split parted _ (rest_past split) (by rw [Scan.skip, split, List.take_left])

theorem cut (split : s.rest = piece ++ rest) (parted : Parted piece rest) (lines : LineIndex) (kind : TokenKind) :
    AtLine text (count + lineCount piece) (s.cut lines kind piece.length).2 :=
  here.moved split parted _ (rest_pastCut split lines kind) <| by
    show s.offset + (s.rest.take piece.length).length = _
    rw [split, List.take_left]

/-- The line on which a token ends that does not end its line. -/
theorem lastLine_word (split : s.rest = piece ++ rest) (filled : piece ≠ [])
    (inline : ∀ c ∈ piece.getLast?, isLineEndChar c = false) (kind : TokenKind) :
    (s.cut (.ofChars text) kind piece.length).2.lastLine = some (count + lineCount piece + 1) := by
  obtain ⟨before, whole, length, apart, rfl⟩ := here.split
  rw [split] at whole apart
  obtain ⟨inner, c, rfl⟩ := (List.eq_nil_or_concat piece).resolve_left filled
  rw [List.concat_eq_append] at *
  have plain : isLineEndChar c = false := inline c (by rw [List.getLast?_concat]; rfl)
  have apart' : Parted before (inner ++ [c]) := fun pair => apart ⟨pair.1, by rw [List.head?_append, pair.2]; rfl⟩
  have text : text = (before ++ inner) ++ c :: rest := by
    rw [whole]
    simp
  have stop : before.length + (inner ++ [c]).length - 1 = (before ++ inner).length := by
    simp only [List.length_append, List.length_singleton]
    omega
  rw [Scan.cut]
  dsimp only
  rw [split, List.take_left, if_neg (by simp), length, stop, text, LineIndex.line_last plain, List.append_assoc,
    lineCount_append apart']

/-- The line on which a token ends that ends its line. -/
theorem lastLine_ending (split : s.rest = piece ++ rest) (ends : IsLineEnd piece rest) (kind : TokenKind) :
    (s.cut (.ofChars text) kind piece.length).2.lastLine = some (count + 1) := by
  obtain ⟨before, whole, length, apart, rfl⟩ := here.split
  rw [split] at whole apart
  have filled : piece.isEmpty = false ∧ 0 < piece.length := by cases ends <;> exact ⟨rfl, by decide⟩
  have stop : before.length + piece.length - 1 = before.length + (piece.length - 1) := by omega
  rw [Scan.cut]
  dsimp only
  rw [split, List.take_left, filled.1, if_neg Bool.false_ne_true, length, stop, whole,
    LineIndex.line_inside_ending apart ends (by omega), LineIndex.line_parted apart]

end AtLine

/-- A scan over a text and one over the written text have come to the same token. -/
structure Beside (text text' : List Char) (s t : Scan) : Prop where
  place : ∃ count, AtLine text count s ∧ AtLine text' count t
  columns : t.columns = s.columns
  depth : t.depth = s.depth
  atLineStart : t.atLineStart = s.atLineStart
  inStatement : t.inStatement = s.inStatement
  lastLine : t.lastLine = s.lastLine

theorem beside_start (text text' : List Char) : Beside text text' (.start text) (.start text') :=
  ⟨⟨0, ⟨[], rfl, rfl, parted_nil _, rfl⟩, ⟨[], rfl, rfl, parted_nil _, rfl⟩⟩, rfl, rfl, rfl, rfl, rfl⟩

namespace Beside

variable (beside : Beside text text' s t)

include beside

theorem line : ((LineIndex.ofChars text').position t.offset).line =
    ((LineIndex.ofChars text).position s.offset).line := by
  obtain ⟨count, here, there⟩ := beside.place
  rw [here.line, there.line]

theorem skip {piece' rest' : List Char} (split : s.rest = piece ++ rest) (split' : t.rest = piece' ++ rest')
    (parted : Parted piece rest) (parted' : Parted piece' rest') (same : lineCount piece' = lineCount piece) :
    Beside text text' (s.skip piece.length) (t.skip piece'.length) := by
  obtain ⟨count, here, there⟩ := beside.place
  exact ⟨⟨_, here.skip split parted, same ▸ there.skip split' parted'⟩, beside.columns, beside.depth,
    beside.atLineStart, beside.inStatement, beside.lastLine⟩

theorem blanks {blanks blanks' rest' : List Char} (split : s.rest = blanks ++ rest) (split' : t.rest = blanks' ++ rest')
    (blank : Blanks blanks) (blank' : Blanks blanks') :
    Beside text text' (s.skip blanks.length) (t.skip blanks'.length) := by
  have none : ∀ {blanks : List Char}, Blanks blanks → lineCount blanks = 0 := fun blank =>
    lineCount_inline fun c member => plain_of_blank (blank c member)
  exact beside.skip split split' (parted_blanks blank) (parted_blanks blank') ((none blank').trans (none blank).symm)

/-- A token that does not end its line is cut off both texts. -/
theorem word {rest' : List Char} (split : s.rest = piece ++ rest) (split' : t.rest = piece ++ rest')
    (filled : piece ≠ []) (inline : ∀ c ∈ piece.getLast?, isLineEndChar c = false) (kind : TokenKind) :
    Beside text text' (s.cut (.ofChars text) kind piece.length).2 (t.cut (.ofChars text') kind piece.length).2 := by
  obtain ⟨count, here, there⟩ := beside.place
  refine ⟨⟨_, here.cut split (parted_inline inline) _ kind, there.cut split' (parted_inline inline) _ kind⟩,
    beside.columns, beside.depth, beside.atLineStart, beside.inStatement, ?_⟩
  rw [here.lastLine_word split filled inline, there.lastLine_word split' filled inline]

/-- A line end is cut off both texts. -/
theorem ending {rest' : List Char} (split : s.rest = piece ++ rest) (split' : t.rest = prefs.lineEnd piece ++ rest')
    (ends : IsLineEnd piece rest) (ends' : IsLineEnd (prefs.lineEnd piece) rest') (kind : TokenKind) :
    Beside text text' (s.cut (.ofChars text) kind piece.length).2
      (t.cut (.ofChars text') kind (prefs.lineEnd piece).length).2 := by
  obtain ⟨count, here, there⟩ := beside.place
  have none : lineCount (prefs.lineEnd piece) = lineCount piece := by
    rw [← Prefs.respell_lineEnd ends, Prefs.lineCount_respell]
  have parted : ∀ {ending rest : List Char}, IsLineEnd ending rest → Parted ending rest := fun ends =>
    parted_ending [] ends
  refine ⟨⟨_, here.cut split (parted ends) _ kind, none ▸ there.cut split' (parted ends') _ kind⟩,
    beside.columns, beside.depth, beside.atLineStart, beside.inStatement, ?_⟩
  rw [here.lastLine_ending split ends, there.lastLine_ending split' ends']

/-- The token of the one scan is what that of the other one is written as. -/
theorem styles {kind : TokenKind} {count count' : Nat}
    (same : t.rest.take count' = prefs.textWritten (s.cut (.ofChars text) kind count).1)
    (lead : t.gap = prefs.leadWritten previous (s.cut (.ofChars text) kind count).1) :
    prefs.Styles previous (s.cut (.ofChars text) kind count).1 (t.cut (.ofChars text') kind count').1 := by
  refine ⟨rfl, String.toList_ofList.trans same, String.toList_ofList.trans lead, ?_⟩
  show t.lastLine.all (· < ((LineIndex.ofChars text').position t.offset).line) =
    s.lastLine.all (· < ((LineIndex.ofChars text).position s.offset).line)
  rw [beside.lastLine, beside.line]

omit beside in
theorem styles_detached {lines' : LineIndex} {kind : TokenKind} (plain : kind ≠ .comment)
    (kept : Prefs.closesAfterComma kind ∨ previous ≠ some .comma) :
    prefs.Styles previous (s.detached lines kind) (t.detached lines' kind) := by
  have lead : prefs.leadOf previous (s.detached lines kind) = (s.detached lines kind).lead :=
    kept.elim (fun closes => Prefs.leadOf_closing plain closes) fun other => Prefs.leadOf_kept plain other
  refine ⟨rfl, (Prefs.textWritten_empty rfl).symm, ?_, rfl⟩
  rw [Prefs.leadWritten, lead]
  exact prefs.respell_nil.symm

omit beside in
theorem styled_dedents {lines' : LineIndex} (other : previous ≠ some .comma) (count : Nat) :
    prefs.Styled previous (List.replicate count (s.detached lines .dedent))
      (List.replicate count (t.detached lines' .dedent)) := by
  induction count with
  | zero => exact .nil
  | succ count ih => exact .cons (styles_detached (by decide) (.inr other)) ih

/-- The layout in front of a token is the same, as long as the blanks are at the start of a line. -/
theorem layout {blanks blanks' rest' : List Char} (split : s.rest = blanks ++ rest) (split' : t.rest = blanks' ++ rest')
    (blank : Blanks blanks) (blank' : Blanks blanks') (same : s.atLineStart → blanks' = blanks)
    (comma : previous = some .comma → s.atLineStart = false) :
    prefs.Styled previous (s.layout (.ofChars text) blanks).1 (t.layout (.ofChars text') blanks').1 ∧
      Beside text text' (s.layout (.ofChars text) blanks).2 (t.layout (.ofChars text') blanks').2 := by
  have past := beside.blanks split split' blank blank'
  unfold Scan.layout
  rw [beside.atLineStart]
  split
  next here =>
    have other : previous ≠ some .comma := fun isComma => by
      rw [comma isComma] at here
      cases here
    have columns : (t.skip blanks'.length).columns = (s.skip blanks.length).columns := beside.columns
    rw [same here] at past columns ⊢
    obtain ⟨count, ⟨place⟩, ⟨place'⟩⟩ := past.place
    refine ⟨?_, ⟨count, ⟨place⟩, ⟨place'⟩⟩, ?_, past.depth, rfl, past.inStatement, past.lastLine⟩
    · rw [Scan.indent, Scan.indent, columns]
      refine Prefs.Styled.append (styled_dedents other _) ?_
      rw [behindAll_layout previous fun token member => by rw [(List.mem_replicate.1 member).2]; rfl]
      split
      · exact .cons (styles_detached (by decide) (.inr other)) .nil
      · exact .nil
    · simp only [Scan.indent, columns]
  next => exact ⟨.nil, past⟩

theorem finish (gap : t.gap = prefs.respell s.gap) (comma : previous = some .comma → s.inStatement) :
    prefs.Styled previous (s.finish (.ofChars text)) (t.finish (.ofChars text')) := by
  have last : ∀ previous, prefs.Styles previous (s.cut (.ofChars text) .endOfFile 0).1
      (t.cut (.ofChars text') .endOfFile 0).1 := fun previous => by
    refine beside.styles (Prefs.textWritten_empty rfl).symm ?_
    rw [gap, Prefs.leadWritten, Prefs.leadOf_closing (show TokenKind.endOfFile ≠ .comment by decide) rfl]
    exact congrArg _ String.toList_ofList.symm
  have layout : ∀ {previous : Option TokenKind}, previous ≠ some .comma → prefs.Styled previous
      (List.replicate (s.columns.length - 1) (s.detached (.ofChars text) .dedent) ++
        [(s.cut (.ofChars text) .endOfFile 0).1])
      (List.replicate (s.columns.length - 1) (t.detached (.ofChars text') .dedent) ++
        [(t.cut (.ofChars text') .endOfFile 0).1]) := fun other =>
    .append (styled_dedents other _) (.cons (last _) .nil)
  unfold Scan.finish
  rw [beside.inStatement, beside.columns, List.append_assoc, List.append_assoc]
  split
  · exact .cons (styles_detached (by decide) (.inl rfl)) (layout (show some TokenKind.newline ≠ some .comma by decide))
  next outside => exact layout fun isComma => outside (comma isComma)

end Beside

/-- Where a stride has given some tokens and come to `next`, the scan over the written text makes one over what is
written for them, and `out` is left. -/
def Redone (prefs : Prefs) (d : Dialect) (text text' : List Char) (previous : Option TokenKind) (t : Scan)
    (tokens : List Token) (next : Scan) (out : List Char) : Prop :=
  ∃ others next', Stride d (.ofChars text') t others (some next') ∧ prefs.Styled previous tokens others ∧
    Beside text text' next next' ∧ next'.rest = out ∧ next'.gap = prefs.respell next.gap

theorem Redone.onward {more : List Token} (redone : Redone prefs d text text' previous t tokens next out)
    (later : ∀ next', Beside text text' next next' → next'.rest = out → next'.gap = prefs.respell next.gap →
      ∃ others, Strides d (.ofChars text') next' others ∧ prefs.Styled (Prefs.behindAll previous tokens) more others) :
    ∃ others, Strides d (.ofChars text') t others ∧ prefs.Styled previous (tokens ++ more) others := by
  obtain ⟨first, next', stride, styled, beside, front, gap⟩ := redone
  obtain ⟨others, strides, styles⟩ := later next' beside front gap
  exact ⟨first ++ others, .step stride strides, styled.append styles⟩

section

variable {blanks blanks' ending : List Char} (poised : Poised previous s) (beside : Beside text text' s t)
  (gap : t.gap = prefs.respell s.gap)

include poised beside gap

theorem styled_finish (blank : Blanks s.rest) (written : t.rest = s.rest) :
    prefs.Styled previous ((s.skip s.rest.length).finish (.ofChars text))
      ((t.skip t.rest.length).finish (.ofChars text')) := by
  have split : t.rest = s.rest ++ [] := written.trans (List.append_nil _).symm
  have past := beside.blanks (List.append_nil _).symm split blank blank
  rw [written]
  refine past.finish ?_ fun comma => (poised.comma comma).2
  rw [gap_past split, gap, gap_past (List.append_nil _).symm, poised.respell_gap (List.append_nil _).symm,
    Prefs.respell_blanks blank]

omit poised in
theorem follows_comment {body : List Char} (split : s.rest = blanks ++ (body ++ rest)) (blank : Blanks blanks)
    (written : t.rest = blanks' ++ (body ++ out)) (comment : IsComment body rest) (comment' : IsComment body out)
    (blanked : prefs.Blanked previous ((s.skip blanks.length).cut (.ofChars text) .comment body.length).1 s.gap
      blanks blanks') : Redone prefs d text text' previous t
      [((s.skip blanks.length).cut (.ofChars text) .comment body.length).1]
      ((s.skip blanks.length).cut (.ofChars text) .comment body.length).2 out := by
  have past := beside.blanks split written blank blanked.blank
  have filled : body ≠ [] := fun nothing => by
    have marked := comment.marked
    rw [nothing] at marked
    cases marked
  have next := past.word (rest_past split) (rest_past written) filled
    (fun c last => comment.inline c (List.mem_of_getLast? last)) .comment
  refine ⟨_, _, .comment written blanked.blank comment', .cons (past.styles ?_ ?_) .nil, next,
    rest_pastCut (rest_past written) _ _, prefs.respell_nil.symm⟩
  · rw [written_comment split, rest_past written, List.take_left]
  · rw [gap_past written, gap, lead_written blanked]

theorem follows_passed (split : s.rest = blanks ++ (ending ++ rest)) (blank : Blanks blanks)
    (written : t.rest = blanks ++ (prefs.lineEnd ending ++ out)) (ends : IsLineEnd ending rest)
    (feeds : prefs.Feeds rest out) (here : s.atLineStart ∨ 0 < s.depth) :
    Redone prefs d text text' previous t [] ((s.skip blanks.length).skip ending.length) out := by
  have ends' := Prefs.isLineEnd_lineEnd ends feeds
  have past := beside.blanks split written blank blank
  have next := past.skip (rest_past split) (rest_past written) (parted_ending [] ends) (parted_ending [] ends')
    (by rw [← Prefs.respell_lineEnd ends, Prefs.lineCount_respell])
  refine ⟨_, _, .passed written blank ends' (by rwa [beside.atLineStart, beside.depth]), .nil, next,
    rest_past (rest_past written), ?_⟩
  rw [gap_past (rest_past written), gap_past written, gap, poised.gap_passed split blank ends, List.append_assoc]

theorem follows_newline (split : s.rest = blanks ++ (ending ++ rest)) (blank : Blanks blanks)
    (written : t.rest = blanks ++ (prefs.lineEnd ending ++ out)) (ends : IsLineEnd ending rest)
    (feeds : prefs.Feeds rest out) (here : s.atLineStart = false) (outside : s.depth = 0) :
    Redone prefs d text text' previous t [((s.skip blanks.length).cut (.ofChars text) .newline ending.length).1]
      ((s.skip blanks.length).cut (.ofChars text) .newline ending.length).2.lineEnded out := by
  have ends' := Prefs.isLineEnd_lineEnd ends feeds
  have past := beside.blanks split written blank blank
  obtain ⟨⟨count, ⟨place⟩, ⟨place'⟩⟩, columns, depth, -, -, lastLine⟩ :=
    past.ending (rest_past split) (rest_past written) ends ends' .newline
  have next : Beside text text' ((s.skip blanks.length).cut (.ofChars text) .newline ending.length).2.lineEnded
      ((t.skip blanks.length).cut (.ofChars text') .newline (prefs.lineEnd ending).length).2.lineEnded :=
    ⟨⟨count, ⟨place⟩, ⟨place'⟩⟩, columns, depth, rfl, rfl, lastLine⟩
  refine ⟨_, _, .newline written blank ends' (beside.atLineStart.trans here) (beside.depth.trans outside),
    .cons (past.styles ?_ ?_) .nil, next, rest_pastCut (rest_past written) (.ofChars text') .newline,
    prefs.respell_nil.symm⟩
  · rw [written_line split ends, rest_past written, List.take_left]
  · rw [gap_past written, gap, poised.lead_line split blank]

theorem follows_joined (split : s.rest = blanks ++ '\\' :: (ending ++ rest)) (blank : Blanks blanks)
    (written : t.rest = blanks ++ '\\' :: (prefs.lineEnd ending ++ out)) (ends : IsLineEnd ending rest)
    (feeds : prefs.Feeds rest out) : Redone prefs d text text' previous t (s.layout (.ofChars text) blanks).1
      ((s.layout (.ofChars text) blanks).2.skip (1 + ending.length)) out := by
  have front : (s.layout (.ofChars text) blanks).2.rest = ('\\' :: ending) ++ rest := rest_pastLayout split
  have front' : (t.layout (.ofChars text') blanks).2.rest = ('\\' :: prefs.lineEnd ending) ++ out :=
    rest_pastLayout written
  have length : ∀ ending : List Char, ('\\' :: ending).length = 1 + ending.length := fun ending => Nat.add_comm ..
  have ends' := Prefs.isLineEnd_lineEnd ends feeds
  obtain ⟨layout, past⟩ := beside.layout split written blank blank (fun _ => rfl) fun comma => (poised.comma comma).1
  have next := past.skip front front' (parted_ending ['\\'] ends) (parted_ending ['\\'] ends')
    (by rw [lineCount_plain rfl, lineCount_plain rfl, ← Prefs.respell_lineEnd ends, Prefs.lineCount_respell])
  rw [length, length] at next
  refine ⟨_, _, .joined written blank ends', layout, next, rest_joined written _, ?_⟩
  rw [gap_joined written, gap, poised.gap_joined split blank ends]

theorem follows_word {word : List Char} {kind : TokenKind} (split : s.rest = blanks ++ (word ++ rest))
    (blank : Blanks blanks) (written : t.rest = blanks' ++ (word ++ out)) (isWord : IsWord d kind word rest)
    (isWord' : IsWord d kind word out)
    (blanked : prefs.Blanked previous ((s.layout (.ofChars text) blanks).2.significant d (.ofChars text)).1 s.gap
      blanks blanks') : Redone prefs d text text' previous t
      ((s.layout (.ofChars text) blanks).1 ++ [((s.layout (.ofChars text) blanks).2.significant d (.ofChars text)).1])
      ((s.layout (.ofChars text) blanks).2.significant d (.ofChars text)).2 out := by
  have front : (s.layout (.ofChars text) blanks).2.rest = word ++ rest := rest_pastLayout split
  have front' : (t.layout (.ofChars text') blanks').2.rest = word ++ out := rest_pastLayout written
  -- blanks at the start of a line are not changed
  have same : s.atLineStart → blanks' = blanks := fun atLineStart => by
    refine blanked.same.resolve_right (not_or.2 ⟨fun comment => ?_, fun comma => ?_⟩)
    · exact (not_comment_of_isWord isWord).2 ((kind_significant front isWord).symm.trans comment)
    · rw [(poised.comma comma).1] at atLineStart
      cases atLineStart
  obtain ⟨layout, past⟩ := beside.layout split written blank blanked.blank same fun comma => (poised.comma comma).1
  obtain ⟨c, tail, filled, -⟩ := isWord.starts
  obtain ⟨⟨count, ⟨place⟩, ⟨place'⟩⟩, columns, depth, atLineStart, -, lastLine⟩ :=
    past.word front front' (filled ▸ List.cons_ne_nil c tail) isWord.ended kind
  have next : Beside text text' ((s.layout (.ofChars text) blanks).2.significant d (.ofChars text)).2
      ((t.layout (.ofChars text') blanks').2.significant d (.ofChars text')).2 := by
    rw [isWord.significant front, isWord'.significant front']
    exact ⟨⟨count, ⟨place⟩, ⟨place'⟩⟩, columns, congrArg (depthAfter · kind) depth, atLineStart, rfl, lastLine⟩
  have styles : prefs.Styles previous ((s.layout (.ofChars text) blanks).2.significant d (.ofChars text)).1
      ((t.layout (.ofChars text') blanks').2.significant d (.ofChars text')).1 := by
    have lead := lead_written blanked
    have word := written_word front isWord (.ofChars text) prefs
    rw [isWord.significant front] at lead word ⊢
    rw [isWord'.significant front']
    refine past.styles ?_ ?_
    · rw [word, front', List.take_left]
    · rw [gap_layout, gap_past written, gap, lead]
  refine ⟨_, _, isWord'.stride written blanked.blank, layout.append (.cons ?_ .nil), next,
    by rw [rest_significant, front', isWord'.scanned, List.drop_left], prefs.respell_nil.symm⟩
  rwa [behindAll_layout previous fun token member => (mem_layout member).1]

end

/-- A scan over the written text gives the tokens that were written. -/
theorem Restyles.relexed (restyles : Restyles prefs d (.ofChars text) previous s tokens out)
    (poised : Poised previous s) (beside : Beside text text' s t) (written : t.rest = out)
    (gap : t.gap = prefs.respell s.gap) :
    ∃ others, Strides d (.ofChars text') t others ∧ prefs.Styled previous tokens others := by
  induction restyles generalizing t with
  | ends blank =>
    have stride : Stride d (.ofChars text') t _ none := .ends (written ▸ blank)
    exact ⟨_, .last stride, styled_finish poised beside gap blank written⟩
  | comment split blank comment blanked later ih =>
    have stride : Stride d (.ofChars text) _ _ _ := .comment split blank comment
    have ended := later.ended fun c first => comment.ended c (rest_pastCut (rest_past split) _ _ ▸ first)
    exact (follows_comment beside gap split blank written comment ⟨comment.marked, comment.inline, ended⟩
      blanked).onward fun next' => ih (poised.onward stride)
  | passed split blank ends here later ih =>
    have stride : Stride d (.ofChars text) _ _ _ := .passed split blank ends here
    have feeds := rest_past (rest_past split) ▸ later.feeds
    exact (follows_passed poised beside gap split blank written ends feeds here).onward
      fun next' => ih (poised.onward stride)
  | newline split blank ends here outside later ih =>
    have stride : Stride d (.ofChars text) _ _ _ := .newline split blank ends here outside
    have feeds : prefs.Feeds _ _ := rest_pastCut (rest_past split) (.ofChars text) .newline ▸ later.feeds
    exact (follows_newline poised beside gap split blank written ends feeds here outside).onward
      fun next' => ih (poised.onward stride)
  | @joined previous s blanks ending rest out tokens split blank ends later ih =>
    have feeds := rest_joined split (.ofChars text) ▸ later.feeds
    refine (follows_joined poised beside gap split blank written ends feeds).onward fun next' => ?_
    rw [behindAll_layout previous fun token member => (mem_layout member).1]
    exact ih (poised.pastJoined split ends)
  | @lexeme previous s blanks blanks' word rest out kind tokens split blank isWord blanked later ih =>
    have front : (s.layout (.ofChars text) blanks).2.rest = word ++ rest := rest_pastLayout split
    have isWord' : IsWord d kind word out := Restyles.isWord (by
      rw [rest_significant, front, isWord.scanned, List.drop_left]
      exact isWord) later
    rw [← List.singleton_append, ← List.append_assoc]
    refine (follows_word poised beside gap split blank written isWord isWord' blanked).onward fun next' => ?_
    rw [Prefs.behindAll, List.foldl_append, List.foldl_cons, List.foldl_nil, kind_significant front isWord,
      Prefs.behind, TokenKind.plain_of_isInline (not_comment_of_isWord isWord).1]
    exact ih (poised.pastWord split blank isWord)

end Scan

/-- The text of the tokens as they are written has those tokens. -/
theorem lex_restyled (d : Dialect) (prefs : Prefs) (text : String)
    (proper : ∀ token ∈ lex d text, token.kind ≠ .error) :
    prefs.Styled none (lex d text) (lex d (String.ofList (prefs.dress none (lex d text)))) := by
  have poised := Scan.poised_start text.toList
  obtain ⟨out, restyles⟩ := (lex_strides d text).restyles prefs proper poised
  obtain rfl := Scan.out_of_cut (restyles.written poised)
  obtain ⟨others, strides, styled⟩ := restyles.relexed poised
    (Scan.beside_start text.toList _) rfl prefs.respell_nil.symm
  have tokens : lex d (String.ofList (prefs.dress none (lex d text))) = others := by
    rw [lex, String.toList_ofList]
    exact strides.collect_eq
  rw [tokens]
  exact styled

end TolerantParser
