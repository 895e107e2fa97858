import TolerantParser.Proofs.Lexeme.Ended
import TolerantParser.Proofs.Lexer.Leaps
import TolerantParser.Proofs.Lexer.Standing
import TolerantParser.Proofs.Stream.Corresponding
import TolerantParser.Proofs.Text.Lines

/-!
Texts put together. Where a text is whole lines and the lexer is between two logical lines at its end, another text
behind it does not change its tokens, and the tokens of the other are what they are by themselves, further down. Only
the ends of blocks that are still open come elsewhere: in front of the first token that is behind them.
-/

namespace TolerantParser

variable {d : Dialect} {text more : List Char} {lines : LineIndex}

namespace Scan

variable {s t next : Scan}

/-! ### The end of a text -/

/-- The scan when it has come to the end of its text. -/
def last (s : Scan) (d : Dialect) (lines : LineIndex) : Scan :=
  match _stepped : s.step d lines with
  | (_, none) => s
  | (_, some next) => next.last d lines
  termination_by s.rest.length
  decreasing_by exact step_shorter _stepped

theorem last_of_step_none {tokens : List Token} (stepped : s.step d lines = (tokens, none)) : s.last d lines = s := by
  rw [last]
  split <;> simp_all

theorem last_of_step_some {tokens : List Token} (stepped : s.step d lines = (tokens, some next)) :
    s.last d lines = next.last d lines := by
  rw [last]
  split <;> simp_all

/-- The scan behind so many strides, or at the end of its text. -/
def leapsEnd (d : Dialect) (lines : LineIndex) : Nat → Scan → Scan
  | 0, s => s
  | count + 1, s =>
    match s.leap d lines with
    | (_, none) => s
    | (_, some next) => next.leapsEnd d lines count

theorem leapsEnd_eq {count : Nat} (enough : s.rest.length < count) : s.leapsEnd d lines count = s.last d lines := by
  induction count generalizing s with
  | zero => cases enough
  | succ count ih =>
    rw [leapsEnd, leap_eq]
    rcases stepped : s.step d lines with ⟨more, _ | next⟩
    · exact (last_of_step_none stepped).symm
    · have shorter := step_shorter stepped
      rw [last_of_step_some stepped]
      exact ih (by omega)

/-- What the layout of a scan is like: blocks are further to the right than those around them, and between two logical
lines no bracket is open. -/
structure Settled (s : Scan) : Prop where
  columns : ∃ inner, s.columns = inner ++ [0] ∧ ∀ column ∈ inner, 0 < column
  between : s.atLineStart → s.inStatement = false ∧ s.depth = 0

theorem settled_start (text : List Char) : (start text).Settled := ⟨⟨[], rfl, nofun⟩, fun _ => ⟨rfl, rfl⟩⟩

theorem Settled.indent (settled : s.Settled) (column : Nat) : (s.indent lines column).2.Settled := by
  obtain ⟨inner, columns, right⟩ := settled.columns
  refine ⟨?_, nofun⟩
  show ∃ inner, (layoutAt column s.columns).columns = inner ++ [0] ∧ _
  have kept : ∃ rest, (inner ++ [0]).dropWhile (column < ·) = rest ++ [0] ∧ ∀ column ∈ rest, 0 < column := by
    rw [List.dropWhile_append]
    split
    · exact ⟨[], by simp, nofun⟩
    · exact ⟨_, rfl, fun other member => right other ((List.dropWhile_sublist _).subset member)⟩
  obtain ⟨rest, kept, right⟩ := kept
  rw [columns, layoutAt]
  dsimp only
  rw [kept]
  split
  next opens =>
    refine ⟨column :: rest, rfl, List.forall_mem_cons.2 ⟨?_, right⟩⟩
    exact Nat.lt_of_le_of_lt (Nat.zero_le _) opens
  next => exact ⟨rest, rfl, right⟩

theorem Settled.layout (settled : s.Settled) (lines : LineIndex) (blanks : List Char) :
    (s.layout lines blanks).2.Settled := by
  have skipped : (s.skip blanks.length).Settled := ⟨settled.columns, settled.between⟩
  unfold Scan.layout
  split
  · exact skipped.indent _
  · exact skipped

theorem Stride.settled {tokens : List Token} (stride : Stride d lines s tokens (some next)) (settled : s.Settled) :
    next.Settled := by
  cases stride with
  | comment | passed => exact ⟨settled.columns, settled.between⟩
  | newline _ _ _ _ outside => exact ⟨settled.columns, fun _ => ⟨rfl, outside⟩⟩
  | @joined blanks =>
    have settled := settled.layout lines blanks
    exact ⟨settled.columns, settled.between⟩
  | @lexeme blanks =>
    refine ⟨(settled.layout lines blanks).columns, fun here => ?_⟩
    rw [show ((s.layout lines blanks).2.significant d lines).2.atLineStart =
      _ from s.inLine_layout lines blanks] at here
    cases here

/-! ### More text behind -/

/-- The scan with more text behind its own. -/
def onto (s : Scan) (more : List Char) : Scan := { s with rest := s.rest ++ more }

theorem Into.length (into : s.Into text) : s.offset + s.rest.length = text.length := by
  obtain ⟨before, split, offset⟩ := into.split
  rw [split, offset]
  exact List.length_append.symm

theorem Into.suffix (into : s.Into text) : s.rest <:+ text := by
  obtain ⟨before, split, -⟩ := into.split
  exact ⟨_, split.symm⟩

theorem skip_onto {count : Nat} (within : count ≤ s.rest.length) :
    (s.onto more).skip count = (s.skip count).onto more := by
  simp only [skip, onto, List.take_append_of_le_length within, List.drop_append_of_le_length within]

theorem cut_onto (apart : Parted text more) (into : s.Into text) (kind : TokenKind) {count : Nat}
    (within : count ≤ s.rest.length) : (s.onto more).cut (.ofChars (text ++ more)) kind count =
      ((s.cut (.ofChars text) kind count).1, (s.cut (.ofChars text) kind count).2.onto more) := by
  have length := into.length
  have taken : (s.rest.take count).length = count := List.length_take_of_le within
  have place : ∀ offset ≤ text.length, (LineIndex.ofChars (text ++ more)).position offset =
      (LineIndex.ofChars text).position offset := fun offset within => LineIndex.position_front apart within
  simp only [cut, onto, List.take_append_of_le_length within, List.drop_append_of_le_length within,
    place s.offset (by omega), place (s.offset + (s.rest.take count).length) (by omega),
    place (s.offset + (s.rest.take count).length - 1) (by omega)]

theorem layout_onto (apart : Parted text more) (into : s.Into text) {blanks : List Char}
    (within : blanks.length ≤ s.rest.length) : (s.onto more).layout (.ofChars (text ++ more)) blanks =
      ((s.layout (.ofChars text) blanks).1, (s.layout (.ofChars text) blanks).2.onto more) := by
  have past := (into.skip blanks.length).1.length
  have place : (LineIndex.ofChars (text ++ more)).position (s.skip blanks.length).offset =
      (LineIndex.ofChars text).position (s.skip blanks.length).offset :=
    LineIndex.position_front apart (by omega)
  have detached : ∀ kind, ((s.skip blanks.length).onto more).detached (.ofChars (text ++ more)) kind =
      (s.skip blanks.length).detached (.ofChars text) kind := fun kind => by
    simp only [Scan.detached, onto, place]
  unfold Scan.layout
  rw [skip_onto within, show (s.onto more).atLineStart = s.atLineStart from rfl]
  split
  · simp only [indent, detached]
    rfl
  · rfl

/-- What is left of whole lines is whole lines, and forms no line end with what comes behind. -/
theorem Into.whole (into : s.Into text) (whole : WholeLines text) : WholeLines s.rest := by
  obtain ⟨before, split⟩ := into.suffix
  intro c last
  refine whole c ?_
  rw [← split, List.getLast?_append, last]
  rfl

theorem Into.apart (into : s.Into text) (apart : Parted text more) : Parted s.rest more := by
  obtain ⟨before, split⟩ := into.suffix
  refine fun pair => apart ⟨?_, pair.2⟩
  rw [← split, List.getLast?_append, pair.1]
  rfl

theorem significant_onto (apart : Parted text more) (into : s.Into text) (nonempty : s.rest ≠ [])
    (same : scanLexeme d (s.rest ++ more) = scanLexeme d s.rest) :
    (s.onto more).significant d (.ofChars (text ++ more)) =
      ((s.significant d (.ofChars text)).1, (s.significant d (.ofChars text)).2.onto more) := by
  have same : scanLexeme d (s.onto more).rest = scanLexeme d s.rest := same
  simp only [significant, same, cut_onto apart into _ (scanLexeme_le nonempty)]
  rfl

/-- A stride is made in the same way where more comes behind the text, if a comment does not go on there and a lexeme
is the same. -/
theorem Stride.onto {tokens : List Token} (apart : Parted text more) (into : s.Into text)
    (stride : Stride d (.ofChars text) s tokens (some next))
    (comments : ∀ {blanks body rest}, s.rest = blanks ++ (body ++ rest) → IsComment body rest →
      IsComment body (rest ++ more))
    (lexemes : ∀ {blanks : List Char} {c : Char} {tail : List Char}, s.rest = blanks ++ c :: tail →
      StartsLexeme c tail →
      ((s.layout (.ofChars text) blanks).2.significant d (.ofChars text)).1 ∈ tokens →
      ((s.layout (.ofChars text) blanks).2.significant d (.ofChars text)).2 = next →
        StartsLexeme c (tail ++ more) ∧ scanLexeme d (c :: tail ++ more) = scanLexeme d (c :: tail)) :
    Stride d (.ofChars (text ++ more)) (s.onto more) tokens (some (next.onto more)) := by
  have apart' := into.apart apart
  have apart'' : ∀ {front rest : List Char}, s.rest = front ++ rest → Parted rest more := fun split pair =>
    apart' ⟨by rw [split, List.getLast?_append, pair.1]; rfl, pair.2⟩
  have within : ∀ {front rest : List Char}, s.rest = front ++ rest → front.length ≤ s.rest.length := fun split => by
    rw [split, List.length_append]
    exact Nat.le_add_right ..
  have longer : ∀ {blanks front rest : List Char}, s.rest = blanks ++ (front ++ rest) →
      (s.onto more).rest = blanks ++ (front ++ (rest ++ more)) := fun split => by
    rw [Scan.onto, split, List.append_assoc, List.append_assoc]
  have inside : ∀ {blanks front rest : List Char}, s.rest = blanks ++ (front ++ rest) →
      front.length ≤ (s.skip blanks.length).rest.length := fun split => by
    rw [rest_past split, List.length_append]
    exact Nat.le_add_right ..
  cases stride with
  | @comment blanks body rest split blank comment =>
    have stride : Stride d (.ofChars (text ++ more)) (s.onto more) _ _ :=
      .comment (longer split) blank (comments split comment)
    rwa [skip_onto (within split), cut_onto apart (into.skip _).1 _ (inside split)] at stride
  | @passed blanks ending rest split blank ends here =>
    have ends' := ends.onto (apart'' split)
    have stride : Stride d (.ofChars (text ++ more)) (s.onto more) _ _ := .passed (longer split) blank ends' here
    rwa [skip_onto (within split), skip_onto (inside split)] at stride
  | @newline blanks ending rest split blank ends here outside =>
    have ends' := ends.onto (apart'' split)
    have stride : Stride d (.ofChars (text ++ more)) (s.onto more) _ _ :=
      .newline (longer split) blank ends' here outside
    rwa [skip_onto (within split), cut_onto apart (into.skip _).1 _ (inside split)] at stride
  | @joined blanks ending rest split blank ends =>
    have split' : s.rest = (blanks ++ ['\\']) ++ (ending ++ rest) := by rw [split]; simp
    have ends' := ends.onto (apart'' split')
    have longer' : (s.onto more).rest = blanks ++ '\\' :: (ending ++ (rest ++ more)) := by
      rw [longer split']
      simp
    have stride : Stride d (.ofChars (text ++ more)) (s.onto more) _ _ := .joined longer' blank ends'
    rw [layout_onto apart into (within split)] at stride
    have inner : 1 + ending.length ≤ (s.layout (.ofChars text) blanks).2.rest.length := by
      rw [rest_pastLayout split, List.length_cons, List.length_append]
      omega
    rwa [skip_onto inner] at stride
  | @lexeme blanks c tail split blank starts =>
    have front : (s.layout (.ofChars text) blanks).2.rest = c :: tail := rest_pastLayout split
    obtain ⟨starts', same⟩ := lexemes split starts (by simp) rfl
    have longer' : (s.onto more).rest = blanks ++ c :: (tail ++ more) := by
      rw [Scan.onto, split]
      simp
    have stride : Stride d (.ofChars (text ++ more)) (s.onto more) _ _ := .lexeme longer' blank starts'
    rwa [layout_onto apart into (within split),
      significant_onto apart (into.layout blanks).1 (by rw [front]; exact List.cons_ne_nil _ _)
        (by rw [front]; exact same)]
      at stride

/-- Of whole lines no lexeme sees what comes behind them, unless it takes all of them. -/
theorem scanLexeme_whole {left : List Char} (whole : WholeLines left) (goesOn : left.drop (scanLexeme d left).2 ≠ [])
    (more : List Char) : scanLexeme d (left ++ more) = scanLexeme d left := by
  have nonempty : left ≠ [] := by
    rintro rfl
    exact goesOn List.drop_nil
  have within := scanLexeme_le (d := d) nonempty
  -- the last character ends a line, and so no lexeme in front of it sees what comes behind
  obtain ⟨inner, ending, split⟩ : ∃ inner ending, left.drop (scanLexeme d left).2 = inner ++ [ending] :=
    ⟨_, _, (List.dropLast_append_getLast goesOn).symm⟩
  have parts : left = left.take (scanLexeme d left).2 ++ (inner ++ [ending]) := by
    rw [← split, List.take_append_drop]
  have ends : isLineEndChar ending := whole ending (by rw [parts, ← List.append_assoc]; simp)
  have stops : isStopper ending := by simp [isStopper, ends]
  have length : (left.take (scanLexeme d left).2).length = (scanLexeme d left).2 := List.length_take_of_le within
  have filled : left.take (scanLexeme d left).2 ≠ [] := by
    have positive := scanLexeme_pos d nonempty
    rw [← List.length_pos_iff, length]
    exact positive
  have cut : scanLexeme d (left.take (scanLexeme d left).2 ++ (inner ++ [ending])) =
      ((scanLexeme d left).1, (left.take (scanLexeme d left).2).length) := by
    rw [← parts, length]
  have stopped : ∀ more, Stopped (ending :: more) := fun more => by
    rintro _ ⟨⟩
    exact stops
  have again := scanLexeme_stopped filled cut (stopped []) (stopped more) fun _ => rfl
  have whole : left ++ more = left.take (scanLexeme d left).2 ++ (inner ++ ending :: more) := by
    conv_lhs => rw [parts]
    simp
  rw [whole, again, length]

/-- A stride that does not take all of the text is made in the same way where more comes behind whole lines. -/
theorem Stride.onto_whole {tokens : List Token} (whole : WholeLines text) (apart : Parted text more)
    (into : s.Into text)
    (stride : Stride d (.ofChars text) s tokens (some next)) (goesOn : next.rest = [] → next.atLineStart) :
    Stride d (.ofChars (text ++ more)) (s.onto more) tokens (some (next.onto more)) := by
  have whole' := into.whole whole
  refine stride.onto apart into (fun {blanks body rest} split comment => ?_)
    fun {blanks c tail} split starts _ behind => ?_
  · refine ⟨comment.marked, comment.inline, fun c first => ?_⟩
    cases rest with
    | cons other rest => exact comment.ended c first
    | nil =>
      -- no comment is behind the last line end
      obtain ⟨tail, rfl⟩ := List.head?_eq_some_iff.1 comment.marked
      have last := List.getLast?_eq_some_getLast (List.cons_ne_nil '#' tail)
      have ends := whole' _ (by rw [split, List.append_nil, List.getLast?_append, last]; rfl)
      rw [comment.inline _ (List.mem_of_getLast? last)] at ends
      cases ends
  · have front : (s.layout (.ofChars text) blanks).2.rest = c :: tail := rest_pastLayout split
    have whole'' : WholeLines (c :: tail) :=
      fun other last => whole' other (by rw [split, List.getLast?_append, last]; rfl)
    refine ⟨⟨starts.notBlank, starts.notComment, starts.notLineEnd, fun backslash next first => ?_⟩,
      scanLexeme_whole whole'' (fun all => ?_) more⟩
    · cases tail with
      | cons other tail => exact starts.notJoined backslash next first
      | nil =>
        have ends := whole'' c rfl
        rw [starts.notLineEnd] at ends
        cases ends
    · have inLine := s.inLine_layout (.ofChars text) blanks
      have here := goesOn (by rw [← behind, rest_significant, front]; exact all)
      rw [← behind, show ((s.layout (.ofChars text) blanks).2.significant d (.ofChars text)).2.atLineStart = _ from
        inLine] at here
      cases here

theorem Stride.into {tokens : List Token} (stride : Stride d (.ofChars text) s tokens (some next))
    (into : s.Into text) : next.Into text := by
  cases stride with
  | comment => exact ((into.skip _).1.cut _ _).2.1
  | passed => exact ((into.skip _).1.skip _).1
  | @newline blanks ending => exact ⟨((into.skip blanks.length).1.cut .newline ending.length).2.1.split⟩
  | joined => exact ((into.layout _).1.skip _).1
  | lexeme => exact (into.layout _).1.significant d

/-- Where a text of whole lines ends between two logical lines, its tokens in front of the end are the first ones of
every text that begins with it, and the lexer goes on from there. -/
theorem Strides.onto {tokens : List Token} (whole : WholeLines text) (apart : Parted text more)
    (strides : Strides d (.ofChars text) s tokens) (into : s.Into text) (settled : s.Settled)
    (ready : (s.last d (.ofChars text)).atLineStart) :
    (s.last d (.ofChars text)).Into text ∧ (s.last d (.ofChars text)).Settled ∧ (s.last d (.ofChars text)).rest = [] ∧
      ∃ front, tokens = front ++ (s.last d (.ofChars text)).finish (.ofChars text) ∧
        ((s.onto more).collect d (.ofChars (text ++ more)) #[]).toList = front ++
          (((s.last d (.ofChars text)).onto more).collect d (.ofChars (text ++ more)) #[]).toList := by
  induction strides with
  | @last s tokens stride =>
    rw [last_of_step_none stride.step_eq] at ready ⊢
    cases stride with
    | ends blank =>
      have nothing : s.rest = [] := by
        rw [← List.getLast?_eq_none_iff]
        refine Option.eq_none_iff_forall_ne_some.2 fun c last => ?_
        have ends := into.whole whole c last
        have here := blank c (List.mem_of_getLast? last)
        simp [isBlank, isLineEndChar] at ends here
        rcases ends with rfl | rfl <;> simp at here
      have here : s.skip 0 = s := by simp [skip]
      refine ⟨into, settled, nothing, [], ?_, rfl⟩
      rw [nothing, List.length_nil, here]
      rfl
  | @step s next tokens later stride _ ih =>
    rw [last_of_step_some stride.step_eq] at ready ⊢
    obtain ⟨into', settled', ends, front, split, collected⟩ := ih (stride.into into) (stride.settled settled) ready
    have goesOn : next.rest = [] → next.atLineStart := fun nothing => by
      have stride : Stride d (.ofChars text) next _ none := .ends (by rw [nothing]; exact List.forall_mem_nil _)
      rwa [last_of_step_none stride.step_eq] at ready
    refine ⟨into', settled', ends, tokens ++ front, by rw [split, List.append_assoc], ?_⟩
    rw [(stride.onto_whole whole apart into goesOn).collect_eq, collected, List.append_assoc]

end Scan

/-! ### More text in front -/

/-- What can be seen of tokens, besides the comments. -/
def significantViews (tokens : List Token) : List TokenView := (tokens.filter (·.kind != .comment)).map Token.view

theorem significantViews_append (tokens others : List Token) :
    significantViews (tokens ++ others) = significantViews tokens ++ significantViews others := by
  rw [significantViews, List.filter_append, List.map_append, significantViews, significantViews]

/-- The same token so many lines further down. -/
def TokenView.down (lines : Nat) (view : TokenView) : TokenView :=
  { view with first := view.first.down lines, last := view.last.down lines }

theorem significantViews_down {token lower : Token} {lines : Nat} (same : lower.view = token.view.down lines) :
    significantViews [lower] = (significantViews [token]).map (TokenView.down lines) := by
  have kinds : lower.kind = token.kind := congrArg (·.gist.kind) same
  simp only [significantViews, List.filter_cons, List.filter_nil, kinds]
  split
  · exact congrArg ([·]) same
  · rfl

/-- The token ends a block. -/
structure TokenView.EndsBlock (view : TokenView) : Prop where
  gist : view.gist = ⟨.dedent, "", false⟩
  text : view.text = ""

namespace Scan

variable {s t next : Scan}

/-- A scan with a text in front of it has come as far as one without; blocks may be open that are not in its text. -/
structure Below (text : List Char) (inner : List Nat) (s t : Scan) : Prop where
  rest : s.rest = t.rest
  offset : s.offset = text.length + t.offset
  columns : s.columns = inner ++ t.columns
  depth : s.depth = t.depth
  atLineStart : s.atLineStart = t.atLineStart
  inStatement : s.inStatement = t.inStatement

variable {inner : List Nat}

theorem Below.skip (below : Below text inner s t) (count : Nat) : Below text inner (s.skip count) (t.skip count) := by
  refine ⟨congrArg (List.drop count) below.rest, ?_, below.columns, below.depth, below.atLineStart, below.inStatement⟩
  simp only [Scan.skip, below.rest, below.offset, Nat.add_assoc]

theorem Below.cut (below : Below text inner s t) (whole : WholeLines text) (apart : Parted text more) (kind : TokenKind)
    (count : Nat) : (s.cut (.ofChars (text ++ more)) kind count).1.view =
        ((t.cut (.ofChars more) kind count).1.view).down (lineCount text) ∧
      Below text inner (s.cut (.ofChars (text ++ more)) kind count).2 (t.cut (.ofChars more) kind count).2 := by
  have place := LineIndex.position_back whole apart
  refine ⟨?_, congrArg (List.drop count) below.rest, ?_, below.columns, below.depth, below.atLineStart,
    below.inStatement⟩
  · simp only [Scan.cut, Token.view, Token.gist, below.rest, below.offset, Nat.add_assoc, place]
    rfl
  · simp only [Scan.cut, below.rest, below.offset, Nat.add_assoc]

theorem Below.detached (below : Below text inner s t) (whole : WholeLines text) (apart : Parted text more)
    (kind : TokenKind) : (s.detached (.ofChars (text ++ more)) kind).view =
      ((t.detached (.ofChars more) kind).view).down (lineCount text) := by
  simp only [Scan.detached, Token.view, Token.gist, below.offset, LineIndex.position_back whole apart]
  rfl

theorem endsBlock_detached (s : Scan) (lines : LineIndex) : (s.detached lines .dedent).view.EndsBlock := ⟨rfl, rfl⟩

theorem Below.significant (below : Below text inner s t) (whole : WholeLines text) (apart : Parted text more)
    (d : Dialect) : (s.significant d (.ofChars (text ++ more))).1.view =
        ((t.significant d (.ofChars more)).1.view).down (lineCount text) ∧
      Below text inner (s.significant d (.ofChars (text ++ more))).2 (t.significant d (.ofChars more)).2 := by
  obtain ⟨looks, behind⟩ := below.cut whole apart (scanLexeme d t.rest).1 (scanLexeme d t.rest).2
  have depth : depthAfter s.depth (scanLexeme d t.rest).1 = depthAfter t.depth (scanLexeme d t.rest).1 := by
    rw [below.depth]
  simp only [Scan.significant, below.rest]
  exact ⟨looks, behind.rest, behind.offset, behind.columns, depth, behind.atLineStart, rfl⟩

/-- What the scan with a text in front of it owes for the blocks that are open in that text: nothing, or it is between
two logical lines and the next one does not stand to the right of the outermost block. -/
def Owed (inner : List Nat) (t : Scan) (tokens : List Token) : Prop :=
  inner ≠ [] → t.columns = [0] ∧ (∀ column ∈ inner, 0 < column) ∧ t.atLineStart ∧ t.inStatement = false ∧
    ∀ first ∈ (significantViews tokens).head?, first.kind ≠ .indent

/-- A line that begins at the margin ends all blocks. -/
theorem layoutAt_margin (right : ∀ column ∈ inner, 0 < column) :
    layoutAt 0 (inner ++ [0]) = ⟨inner.length, false, [0]⟩ := by
  have kept : (inner ++ [0]).dropWhile (0 < ·) = [0] := by
    rw [List.dropWhile_append_of_pos fun column member => decide_eq_true (right column member)]
    rfl
  simp [layoutAt, kept]

theorem significantViews_indent (s : Scan) (lines : LineIndex) (column : Nat) :
    significantViews (s.indent lines column).1 =
    List.replicate (layoutAt column s.columns).dedents (s.detached lines .dedent).view ++
      (if (layoutAt column s.columns).opens then [(s.detached lines .indent).view] else []) := by
  rw [Scan.indent, significantViews_append]
  congr 1
  · simp [significantViews, Scan.detached]
  · split <;> rfl

theorem significantViews_finish (s : Scan) (lines : LineIndex) : significantViews (s.finish lines) =
    (if s.inStatement then [(s.detached lines .newline).view] else []) ++
      List.replicate (s.columns.length - 1) (s.detached lines .dedent).view ++
      [(s.cut lines .endOfFile 0).1.view] := by
  rw [Scan.finish, significantViews_append, significantViews_append]
  congr 2
  · split <;> rfl
  · simp [significantViews, Scan.detached]

/-- The end of the text ends the blocks that are open in the text in front as well. -/
theorem Below.finish (below : Below text inner s t) (whole : WholeLines text) (apart : Parted text more)
    {tokens : List Token} (owed : Owed inner t tokens) :
    ∃ ends : List TokenView, ends.length = inner.length ∧ (∀ view ∈ ends, view.EndsBlock) ∧
      significantViews (s.finish (.ofChars (text ++ more))) =
        ends ++ (significantViews (t.finish (.ofChars more))).map (TokenView.down (lineCount text)) := by
  have looks := fun kind => below.detached whole apart kind
  have last := (below.cut whole apart .endOfFile 0).1
  simp only [significantViews_finish, looks, last, below.inStatement]
  by_cases settled : inner = []
  · subst settled
    have columns : s.columns = t.columns := below.columns
    refine ⟨[], rfl, List.forall_mem_nil _, ?_⟩
    rw [columns]
    cases t.inStatement <;> simp
  · obtain ⟨columns, -, -, outside, -⟩ := owed settled
    have length : s.columns.length - 1 = inner.length := by
      rw [below.columns, columns, List.length_append]
      rfl
    refine ⟨_, List.length_replicate, fun view member => ?_, by rw [length, columns, outside]; rfl⟩
    rw [(List.mem_replicate.1 member).2, ← looks]
    exact endsBlock_detached ..

/-- Layout ends the blocks that are open in the text in front. -/
theorem Below.layout (below : Below text inner s t) (whole : WholeLines text) (apart : Parted text more)
    {blanks : List Char} {tokens : List Token} (owed : Owed inner t ((t.layout (.ofChars more) blanks).1 ++ tokens)) :
    Below text [] (s.layout (.ofChars (text ++ more)) blanks).2 (t.layout (.ofChars more) blanks).2 ∧
      ∃ ends : List TokenView, ends.length = inner.length ∧ (∀ view ∈ ends, view.EndsBlock) ∧
        significantViews (s.layout (.ofChars (text ++ more)) blanks).1 =
          ends ++ (significantViews (t.layout (.ofChars more) blanks).1).map (TokenView.down (lineCount text)) := by
  have past := below.skip blanks.length
  have looks := fun kind => past.detached whole apart kind
  unfold Scan.layout at owed ⊢
  rw [below.atLineStart]
  split
  next here =>
    rw [if_pos here] at owed
    by_cases settled : inner = []
    · subst settled
      have columns : (s.skip blanks.length).columns = (t.skip blanks.length).columns := below.columns
      refine ⟨⟨past.rest, past.offset, ?_, past.depth, rfl, past.inStatement⟩, [], rfl, List.forall_mem_nil _, ?_⟩
      · show (layoutAt _ (s.skip blanks.length).columns).columns = (layoutAt _ (t.skip blanks.length).columns).columns
        rw [columns]
      · rw [significantViews_indent, significantViews_indent, columns, looks, looks, List.nil_append, List.map_append,
          List.map_replicate]
        split <;> rfl
    · obtain ⟨columns, right, -, -, first⟩ := owed settled
      have margin : columnAfter blanks = 0 := by
        by_contra further
        have opens : layoutAt (columnAfter blanks) [0] = ⟨0, true, [columnAfter blanks, 0]⟩ := by
          simp [layoutAt, Nat.pos_of_ne_zero further]
        refine first ((t.skip blanks.length).detached (.ofChars more) .indent).view ?_ rfl
        rw [significantViews_append, significantViews_indent,
          show (t.skip blanks.length).columns = [0] from columns, opens]
        rfl
      have change : layoutAt 0 (s.skip blanks.length).columns = ⟨inner.length, false, [0]⟩ := by
        rw [show (s.skip blanks.length).columns = inner ++ [0] from columns ▸ below.columns, layoutAt_margin right]
      have change' : layoutAt 0 (t.skip blanks.length).columns = ⟨0, false, [0]⟩ := by
        rw [show (t.skip blanks.length).columns = [0] from columns]
        rfl
      rw [margin]
      refine ⟨⟨past.rest, past.offset, ?_, past.depth, rfl, past.inStatement⟩,
        List.replicate inner.length ((s.skip blanks.length).detached (.ofChars (text ++ more)) .dedent).view,
          List.length_replicate,
        fun view member => (List.mem_replicate.1 member).2 ▸ endsBlock_detached .., ?_⟩
      · show (layoutAt 0 (s.skip blanks.length).columns).columns = (layoutAt 0 (t.skip blanks.length).columns).columns
        rw [change, change']
      · rw [significantViews_indent, significantViews_indent, change, change']
        simp
  next inside =>
    have settled : inner = [] := by
      by_contra pending
      exact inside (owed pending).2.2.1
    subst settled
    exact ⟨past, [], rfl, List.forall_mem_nil _, rfl⟩

/-- With whole lines in front the tokens of a text are what they are, further down, once the blocks have ended that
are open in these lines. -/
theorem Strides.under {tokens : List Token} (whole : WholeLines text) (apart : Parted text more)
    (strides : Strides d (.ofChars more) t tokens) (below : Below text inner s t) (owed : Owed inner t tokens) :
    ∃ ends : List TokenView, ends.length = inner.length ∧ (∀ view ∈ ends, view.EndsBlock) ∧
      significantViews (s.collect d (.ofChars (text ++ more)) #[]).toList =
        ends ++ (significantViews tokens).map (TokenView.down (lineCount text)) := by
  induction strides generalizing s inner with
  | @last t tokens stride =>
    cases stride with
    | ends blank =>
      have stride : Stride d (.ofChars (text ++ more)) s _ none := .ends (by rwa [below.rest])
      rw [(Strides.last stride).collect_eq, below.rest]
      exact (below.skip t.rest.length).finish whole apart owed
  | @step t next tokens later stride _ ih =>
    cases stride with
    | @comment blanks body rest split blank comment =>
      have past := below.skip blanks.length
      have stride : Stride d (.ofChars (text ++ more)) s _ _ := .comment (below.rest.trans split) blank comment
      obtain ⟨ends, length, all, same⟩ := ih (past.cut whole apart .comment body.length).2 fun pending => owed pending
      refine ⟨ends, length, all, ?_⟩
      rw [stride.collect_eq, significantViews_append, significantViews_append, same]
      rfl
    | @passed blanks ending rest split blank ends here =>
      have past := (below.skip blanks.length).skip ending.length
      have here : s.atLineStart ∨ 0 < s.depth := by rwa [below.atLineStart, below.depth]
      have stride : Stride d (.ofChars (text ++ more)) s _ _ := .passed (below.rest.trans split) blank ends here
      obtain ⟨ends, length, all, same⟩ := ih past fun pending => owed pending
      exact ⟨ends, length, all, by rw [stride.collect_eq, List.nil_append, List.nil_append, same]⟩
    | @newline blanks ending rest split blank ends here outside =>
      have settled : inner = [] := by
        by_contra pending
        have := (owed pending).2.2.1
        rw [here] at this
        cases this
      subst settled
      obtain ⟨looks, behind⟩ := (below.skip blanks.length).cut whole apart .newline ending.length
      have stride : Stride d (.ofChars (text ++ more)) s _ _ :=
        .newline (below.rest.trans split) blank ends (below.atLineStart.trans here) (below.depth.trans outside)
      have past : Below text []
        ((s.skip blanks.length).cut (.ofChars (text ++ more)) .newline ending.length).2.lineEnded
          ((t.skip blanks.length).cut (.ofChars more) .newline ending.length).2.lineEnded :=
        ⟨behind.rest, behind.offset, behind.columns, behind.depth, rfl, rfl⟩
      obtain ⟨none, length, -, same⟩ := ih past (absurd rfl ·)
      obtain rfl := List.length_eq_zero_iff.1 length
      refine ⟨[], rfl, List.forall_mem_nil _, ?_⟩
      rw [stride.collect_eq, significantViews_append, significantViews_append, same, List.map_append, List.nil_append,
        List.nil_append]
      exact congrArg (· ++ _) (congrArg ([·]) looks)
    | @joined blanks ending rest split blank ends =>
      have stride : Stride d (.ofChars (text ++ more)) s _ _ := .joined (below.rest.trans split) blank ends
      obtain ⟨behind, ended, count, all, laid⟩ := below.layout whole apart owed
      obtain ⟨none, length, -, same⟩ := ih (behind.skip (1 + ending.length)) (absurd rfl ·)
      obtain rfl := List.length_eq_zero_iff.1 length
      refine ⟨ended, count, all, ?_⟩
      rw [stride.collect_eq, significantViews_append, significantViews_append, laid, same, List.map_append,
        List.append_assoc,
        List.nil_append]
    | @lexeme blanks c tail split blank starts =>
      have stride : Stride d (.ofChars (text ++ more)) s _ _ := .lexeme (below.rest.trans split) blank starts
      rw [List.append_assoc] at owed
      obtain ⟨behind, ended, count, all, laid⟩ := below.layout whole apart owed
      obtain ⟨looks, past⟩ := behind.significant whole apart d
      obtain ⟨none, length, -, same⟩ := ih past (absurd rfl ·)
      obtain rfl := List.length_eq_zero_iff.1 length
      refine ⟨ended, count, all, ?_⟩
      have last : significantViews
        [((s.layout (.ofChars (text ++ more)) blanks).2.significant d (.ofChars (text ++ more))).1] =
          (significantViews [((t.layout (.ofChars more) blanks).2.significant d (.ofChars more)).1]).map
            (TokenView.down (lineCount text)) := significantViews_down looks
      rw [stride.collect_eq, significantViews_append, significantViews_append, significantViews_append,
        significantViews_append, laid, same, last]
      simp only [List.map_append, List.append_assoc, List.nil_append]

end Scan

/-- The lexer is between two logical lines at the end of the text. -/
def EndsBetween (d : Dialect) (text : String) : Prop :=
  ((Scan.start text.toList).last d (.ofChars text.toList)).atLineStart

instance (d : Dialect) (text : String) : Decidable (EndsBetween d text) := inferInstanceAs (Decidable (_ = true))

theorem endsBetween_of_leapsEnd {text : String} {chars : List Char} (same : text.toList = chars)
    (between : ((Scan.start chars).leapsEnd d (.ofChars chars) (chars.length + 1)).atLineStart) :
      EndsBetween d text := by
  subst same
  rw [EndsBetween, ← Scan.leapsEnd_eq (s := .start text.toList) (Nat.lt_succ_self _)]
  exact between

/-- The tokens of two texts together are those of the first without the end of the file, the ends of the blocks that
are open there, and those of the second further down. -/
theorem lex_append {text more : String} (whole : WholeLines text.toList) (apart : Parted text.toList more.toList)
    (ready : EndsBetween d text) (margin : ∀ first ∈ (significantViews (lex d more)).head?, first.kind ≠ .indent) :
    ∃ (front ends ends' : List TokenView) (last : TokenView), significantViews (lex d text) = front ++ ends ++ [last] ∧
      significantViews (lex d (text ++ more)) =
        front ++ ends' ++ (significantViews (lex d more)).map (TokenView.down (lineCount text.toList)) ∧
      last.kind = .endOfFile ∧ ends.length = ends'.length ∧ ∀ view ∈ ends ++ ends', view.EndsBlock := by
  obtain ⟨into, settled, nothing, front, split, collected⟩ :=
    (lex_strides d text).onto whole apart (.start text.toList) (Scan.settled_start text.toList) ready
  obtain ⟨inner, columns, right⟩ := settled.columns
  obtain ⟨outside, depth⟩ := settled.between ready
  obtain ⟨last, here⟩ : ∃ last, last = (Scan.start text.toList).last d (.ofChars text.toList) := ⟨_, rfl⟩
  rw [← here] at into nothing columns split collected outside depth
  have below : Scan.Below text.toList inner (last.onto more.toList) (.start more.toList) := by
    refine ⟨?_, ?_, columns, depth, here ▸ ready, outside⟩
    · rw [Scan.onto, nothing]
      rfl
    · have length := into.length
      rw [nothing] at length
      exact length
  have owed : Scan.Owed inner (.start more.toList) (lex d more) := fun _ => ⟨rfl, right, rfl, rfl, margin⟩
  obtain ⟨ends', length, all, same⟩ := (lex_strides d more).under whole apart below owed
  have finish := Scan.significantViews_finish last (.ofChars text.toList)
  rw [outside, if_neg Bool.false_ne_true, List.nil_append, columns, List.length_append] at finish
  refine ⟨significantViews front, List.replicate inner.length
    (last.detached (.ofChars text.toList) .dedent).view, ends',
    (last.cut (.ofChars text.toList) .endOfFile 0).1.view, ?_, ?_, rfl, ?_, fun view member => ?_⟩
  · rw [split, significantViews_append, finish, List.append_assoc]
    rfl
  · have begun : (Scan.start text.toList).onto more.toList = .start (text ++ more).toList := by
      rw [String.toList_append]
      rfl
    rw [begun, ← String.toList_append] at collected
    rw [← String.toList_append] at same
    rw [lex, collected, significantViews_append, same, List.append_assoc]
  · rw [length, List.length_replicate]
  · rcases List.mem_append.1 member with first | second
    · rw [(List.mem_replicate.1 first).2]
      exact Scan.endsBlock_detached ..
    · exact all view second

end TolerantParser
