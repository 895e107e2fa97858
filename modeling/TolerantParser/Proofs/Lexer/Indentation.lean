import Mathlib.Data.List.DropRight
import TolerantParser.Proofs.Lexer.Layout
import TolerantParser.Proofs.Lexer.Standing

/-!
Blocks and columns. The tokens of a text tell which blocks are open: each token that begins a block opens one at the
column where it stands, and each token that ends one closes the innermost. Read in this way they describe a block
structure (`Layered`), the blocks of which are those that the scan keeps (`Layers`): when a logical line begins, the
innermost block is the one at its column, however many blocks end there and whether the column is that of one of them.
-/

namespace TolerantParser

variable {d : Dialect} {lines : LineIndex} {text : List Char} {before tokens after : List Token} {token : Token}
  {s : Scan}

/-! ### Columns -/

/-- The column of the first line of a text that is neither blank nor a comment, with so much of a line gone over
already. A space is one column wide, a tab goes on to the next multiple of eight, and a form feed starts over. -/
def indentationFrom (comment : Bool) (column : Nat) : List Char → Nat
  | [] => column
  | c :: rest =>
    if isLineEndChar c then indentationFrom false 0 rest
    else if comment || c == '#' then indentationFrom true 0 rest
    else if c == ' ' then indentationFrom false (column + 1) rest
    else if c == '\t' then indentationFrom false ((column / 8 + 1) * 8) rest
    else if c == '\x0c' then indentationFrom false 0 rest
    else column

/-- The column of the logical line that a text begins with. Blank lines and lines that hold only a comment are of no
account, and neither are the lines that it goes on with. -/
def indentation (text : List Char) : Nat := indentationFrom false 0 text

/-- The column of a place in a text, as the indentation in front of it on its line. -/
def columnAt (text : List Char) (offset : Nat) : Nat :=
  indentation ((text.take offset).rtakeWhile (!isLineEndChar ·))

theorem inline_of_isBlank {c : Char} (blank : isBlank c) : isLineEndChar c = false ∧ c ≠ '#' := by
  simp only [isBlank, Bool.or_eq_true, beq_iff_eq] at blank
  rcases blank with (rfl | rfl) | rfl <;> decide

theorem indentationFrom_blanks {blanks : List Char} (blank : Blanks blanks) (column : Nat) (rest : List Char) :
    indentationFrom false column (blanks ++ rest) = indentationFrom false (blanks.foldl (fun column c =>
      if c == '\t' then (column / 8 + 1) * 8 else if c == '\x0c' then 0 else column + 1) column) rest := by
  induction blanks generalizing column with
  | nil => rfl
  | cons c blanks ih =>
    obtain ⟨here, others⟩ := List.forall_mem_cons.1 blank
    rw [List.foldl_cons, ← ih others, List.cons_append, indentationFrom]
    simp only [isBlank, Bool.or_eq_true, beq_iff_eq] at here
    rcases here with (rfl | rfl) | rfl <;> rfl

theorem indentationFrom_comment {body : List Char} (inline : ∀ c ∈ body, isLineEndChar c = false) (rest : List Char) :
    indentationFrom true 0 (body ++ rest) = indentationFrom true 0 rest := by
  induction body with
  | nil => rfl
  | cons c body ih =>
    obtain ⟨here, others⟩ := List.forall_mem_cons.1 inline
    rw [List.cons_append, indentationFrom, here, ih others]
    rfl

theorem indentation_blanks {blanks : List Char} (blank : Blanks blanks) : indentation blanks = columnAfter blanks := by
  have run := indentationFrom_blanks blank 0 []
  rw [List.append_nil] at run
  exact run

/-- The line is found. -/
theorem indentation_line {blanks tail : List Char} {c : Char} (blank : Blanks blanks) (notBlank : isBlank c = false)
    (inline : isLineEndChar c = false) (notComment : c ≠ '#') :
    indentation (blanks ++ c :: tail) = columnAfter blanks := by
  simp only [isBlank, Bool.or_eq_false_iff, beq_eq_false_iff_ne] at notBlank
  rw [indentation, indentationFrom_blanks blank, indentationFrom, columnAfter]
  simp [notBlank, inline, notComment]

theorem indentationFrom_ending {ending rest : List Char} (ends : IsLineEnd ending rest) (comment : Bool)
    (column : Nat) : indentationFrom comment column (ending ++ rest) = indentation rest := by
  cases ends <;> rfl

/-- A blank line is of no account. -/
theorem indentation_passed {blanks ending rest : List Char} (blank : Blanks blanks) (ends : IsLineEnd ending rest) :
    indentation (blanks ++ (ending ++ rest)) = indentation rest := by
  rw [indentation, indentationFrom_blanks blank, indentationFrom_ending ends]

/-- Neither is a comment. -/
theorem indentation_comment {blanks body rest : List Char} (blank : Blanks blanks) (comment : IsComment body rest) :
    indentation (blanks ++ (body ++ rest)) = indentation rest := by
  obtain ⟨more, rfl⟩ := List.head?_eq_some_iff.1 comment.marked
  have behind : indentationFrom true 0 rest = indentation rest := by
    cases rest with
    | nil => rfl
    | cons c tail => rw [indentation, indentationFrom, indentationFrom, if_pos (comment.ended c rfl),
        if_pos (comment.ended c rfl)]
  rw [indentation, indentationFrom_blanks blank, List.cons_append, indentationFrom, ← behind]
  exact indentationFrom_comment (List.forall_mem_cons.1 comment.inline).2 rest

/-- Behind the blanks that a line begins with, the place is at their column. -/
theorem columnAt_blanks {front blanks rest : List Char} (begins : ∀ c ∈ front.getLast?, isLineEndChar c)
    (blank : Blanks blanks) : columnAt (front ++ (blanks ++ rest))
    (front.length + blanks.length) = columnAfter blanks := by
  have taken : (front ++ (blanks ++ rest)).take (front.length + blanks.length) = front ++ blanks := by
    rw [List.take_length_add_append, List.take_left]
  have stopped : front.reverse.takeWhile (!isLineEndChar ·) = [] := by
    rw [← List.head?_reverse] at begins
    cases back : front.reverse with
    | nil => rfl
    | cons c more => simp [begins c (by simp [back])]
  have inline : ∀ c ∈ blanks.reverse, (!isLineEndChar c) = true := fun c member => by
    simp [(inline_of_isBlank (blank c (List.mem_reverse.1 member))).1]
  rw [columnAt, taken, List.rtakeWhile, List.reverse_append, List.takeWhile_append_of_pos inline, stopped,
    List.append_nil, List.reverse_reverse, indentation_blanks blank]

/-! ### Blocks -/

/-- What a token does to the columns of the open blocks, the innermost first. -/
def columnsBehind (text : List Char) (columns : List Nat) (token : Token) : List Nat :=
  match token.kind with
  | .indent => columnAt text token.range.start :: columns
  | .dedent => columns.tail
  | _ => columns

/-- The columns of the blocks that are open behind tokens. -/
def openColumns (text : List Char) (tokens : List Token) : List Nat := tokens.foldl (columnsBehind text) [0]

/-- The tokens of the logical line that goes on behind tokens. -/
def lineBehind (tokens : List Token) : List Token := tokens.rtakeWhile (·.kind != .newline)

/-- Where that line begins. -/
def lineFrom (tokens : List Token) : Nat := (tokens.rdropWhile (·.kind != .newline)).getLast?.elim 0 (·.range.stop)

/-- Each block is further to the right than the one around it, and the outermost is at the left. -/
structure Deepening (columns : List Nat) : Prop where
  rising : columns.Pairwise (· > ·)
  outermost : columns.getLast? = some 0

/-- The token is the first of a logical line. Comments and layout may be in front of it. -/
structure Begins (before : List Token) (token : Token) : Prop where
  first : ∀ other ∈ lineBehind before, other.kind.isLayout ∨ other.kind = .comment
  plain : token.kind.isLayout = false
  counts : token.kind ≠ .comment
  more : token.kind ≠ .endOfFile

/-- A token behind others is where the blocks of the text allow it: a block ends only inside of the outermost one, and
begins only to the right of the innermost one; a line begins in a block of its own column; in front of it blocks end
first, except for those that are closed by the end of the text, and then one may begin; and the file ends outside of all
blocks. -/
structure Layered (text : List Char) (before : List Token) (token : Token) : Prop where
  pops : token.kind = .dedent → 1 < (openColumns text before).length
  pushes : token.kind = .indent → ∀ column ∈ (openColumns text before).head?, column < columnAt text token.range.start
  begins : Begins before token → (openColumns text before).head? = some (indentation (text.drop (lineFrom before)))
  closesFirst : token.kind = .dedent →
    (∀ other ∈ lineBehind before, other.kind ≠ .indent) ∨ token.range.start = text.length
  opensOnce : token.kind = .indent → ∀ other ∈ lineBehind before, other.kind = .dedent ∨ other.kind = .comment
  ends : token.kind = .endOfFile → openColumns text before = [0]

/-- So is each of some tokens. -/
inductive LayeredFrom (text : List Char) : List Token → List Token → Prop
  | nil (before : List Token) : LayeredFrom text before []
  | cons {before after : List Token} {token : Token} : Layered text before token →
      LayeredFrom text (before ++ [token]) after → LayeredFrom text before (token :: after)

theorem openColumns_append (text : List Char) (before : List Token) (token : Token) :
    openColumns text (before ++ [token]) = columnsBehind text (openColumns text before) token := by
  rw [openColumns, List.foldl_append]
  rfl

theorem openColumns_plain (text : List Char) (before : List Token) (plain : token.kind.isLayout = false) :
    openColumns text (before ++ [token]) = openColumns text before := by
  rw [openColumns_append, columnsBehind]
  split
  next opens => simp [opens, TokenKind.isLayout] at plain
  next closes => simp [closes, TokenKind.isLayout] at plain
  next => rfl

theorem lineBehind_newline (before : List Token) (ends : token.kind = .newline) : lineBehind (before ++ [token]) = [] :=
  List.rtakeWhile_concat_neg _ _ _ (by simp [ends])

theorem lineFrom_newline (before : List Token) (ends : token.kind = .newline) :
    lineFrom (before ++ [token]) = token.range.stop := by
  rw [lineFrom, List.rdropWhile_concat_neg _ _ _ (by simp [ends]), List.getLast?_concat]
  rfl

theorem lineBehind_append (before : List Token) (goesOn : ∀ token ∈ tokens, token.kind ≠ .newline) :
    lineBehind (before ++ tokens) = lineBehind before ++ tokens := by
  have others : ∀ token ∈ tokens.reverse, (token.kind != .newline) = true := by simpa using goesOn
  rw [lineBehind, List.rtakeWhile, List.reverse_append, List.takeWhile_append_of_pos others, List.reverse_append,
    List.reverse_reverse]
  rfl

theorem lineFrom_append (before : List Token) (goesOn : ∀ token ∈ tokens, token.kind ≠ .newline) :
    lineFrom (before ++ tokens) = lineFrom before := by
  have others : ∀ token ∈ tokens.reverse, (token.kind != .newline) = true := by simpa using goesOn
  rw [lineFrom, List.rdropWhile, List.reverse_append, List.dropWhile_append_of_pos others]
  rfl

namespace LayeredFrom

theorem append {more : List Token} (first : LayeredFrom text before tokens)
    (rest : LayeredFrom text (before ++ tokens) more) : LayeredFrom text before (tokens ++ more) := by
  induction first with
  | nil => simpa using rest
  | cons here _ ih => exact .cons here (ih (by simpa using rest))

theorem single (here : Layered text before token) : LayeredFrom text before [token] := .cons here (.nil _)

theorem layered {more : List Token} (layered : LayeredFrom text before (tokens ++ token :: more)) :
    Layered text (before ++ tokens) token := by
  induction tokens generalizing before with
  | nil =>
    cases layered with
    | cons here _ => simpa using here
  | cons other tokens ih =>
    cases layered with
    | cons _ rest => simpa using ih rest

end LayeredFrom

namespace Deepening

variable {columns : List Nat} {column : Nat}

theorem ne_nil (deep : Deepening columns) : columns ≠ [] := by
  rintro rfl
  cases deep.outermost

/-- A block begins to the right of the innermost one. -/
theorem inner (deep : Deepening columns) (right : ∀ outer ∈ columns.head?, outer < column) :
    Deepening (column :: columns) := by
  obtain ⟨innermost, outer, rfl⟩ := List.exists_cons_of_ne_nil deep.ne_nil
  refine ⟨List.pairwise_cons.2 ⟨fun other member => ?_, deep.rising⟩, deep.outermost⟩
  rcases List.mem_cons.1 member with rfl | outside
  · exact right other rfl
  · exact Nat.lt_trans ((List.pairwise_cons.1 deep.rising).1 other outside) (right innermost rfl)

/-- The innermost block ends. -/
theorem outer (deep : Deepening (column :: columns)) (inside : columns ≠ []) : Deepening columns := by
  obtain ⟨innermost, outer, rfl⟩ := List.exists_cons_of_ne_nil inside
  exact ⟨(List.pairwise_cons.1 deep.rising).2, deep.outermost⟩

end Deepening

/-- The columns stay in order at a token that is where the blocks allow it. -/
theorem Layered.deepening (layered : Layered text before token) (deep : Deepening (openColumns text before)) :
    Deepening (openColumns text (before ++ [token])) := by
  rw [openColumns_append, columnsBehind]
  split
  next opens => exact deep.inner (layered.pushes opens)
  next closes =>
    have inside := layered.pops closes
    obtain ⟨innermost, outer, columns⟩ := List.exists_cons_of_ne_nil deep.ne_nil
    rw [columns] at deep inside ⊢
    refine deep.outer ?_
    rintro rfl
    exact absurd inside (by simp)
  next => exact deep

/-- One block is open for each token that has opened one, less those that have been closed, besides the outermost. -/
theorem Layered.count (layered : Layered text before token)
    (balance : (openColumns text before).length + before.countP (·.kind == .dedent) =
      1 + before.countP (·.kind == .indent)) :
    (openColumns text (before ++ [token])).length + (before ++ [token]).countP (·.kind == .dedent) =
      1 + (before ++ [token]).countP (·.kind == .indent) := by
  rw [openColumns_append, columnsBehind, List.countP_append, List.countP_append]
  split
  next opens =>
    have dedents : [token].countP (·.kind == .dedent) = 0 := by simp [opens]
    have indents : [token].countP (·.kind == .indent) = 1 := by simp [opens]
    rw [dedents, indents, List.length_cons]
    omega
  next closes =>
    have dedents : [token].countP (·.kind == .dedent) = 1 := by simp [closes]
    have indents : [token].countP (·.kind == .indent) = 0 := by simp [closes]
    have deep := layered.pops closes
    rw [dedents, indents, List.length_tail]
    omega
  next opens closes =>
    have dedents : [token].countP (·.kind == .dedent) = 0 := by simpa using closes
    have indents : [token].countP (·.kind == .indent) = 0 := by simpa using opens
    rw [dedents, indents]
    exact balance

/-- Along tokens that are where the blocks allow it, the columns of the open blocks are in order, and as many blocks are
open as have been opened and not closed. -/
theorem LayeredFrom.along (layered : LayeredFrom text before tokens) (deep : Deepening (openColumns text before))
    (balance : (openColumns text before).length + before.countP (·.kind == .dedent) =
      1 + before.countP (·.kind == .indent)) {front : List Token} (early : front <+: tokens) :
    Deepening (openColumns text (before ++ front)) ∧
      (openColumns text (before ++ front)).length + (before ++ front).countP (·.kind == .dedent) =
        1 + (before ++ front).countP (·.kind == .indent) := by
  induction layered generalizing front with
  | nil =>
    obtain rfl := List.prefix_nil.1 early
    simpa using ⟨deep, balance⟩
  | cons here _ ih =>
    cases front with
    | nil => simpa using ⟨deep, balance⟩
    | cons first front =>
      obtain ⟨rfl, later⟩ := List.cons_prefix_cons.1 early
      simpa using ih (here.deepening deep) (here.count balance) later

/-! ### Blocks of a scan -/

/-- Blocks that end make way for the column of a line: what is left is the blocks around it, and it begins one of its
own if the innermost of these is not at its column. -/
theorem Deepening.makesWay {columns : List Nat} (deep : Deepening columns) (column : Nat) :
    ∃ closed kept, columns = closed ++ kept ∧ (layoutAt column columns).dedents = closed.length ∧ Deepening kept ∧
      (((layoutAt column columns).opens = true ∧ (∀ outer ∈ kept.head?, outer < column) ∧
          (layoutAt column columns).columns = column :: kept) ∨
        ((layoutAt column columns).opens = false ∧ kept.head? = some column ∧
          (layoutAt column columns).columns = kept)) := by
  induction columns with
  | nil => cases deep.outermost
  | cons innermost outer ih =>
    by_cases right : column < innermost
    · have inside : outer ≠ [] := by
        rintro rfl
        exact Nat.ne_zero_of_lt right (Option.some.inj deep.outermost)
      obtain ⟨closed, kept, whole, count, around, change⟩ := ih (deep.outer inside)
      have passed : (innermost :: outer).dropWhile (column < ·) = outer.dropWhile (column < ·) := by simp [right]
      refine ⟨innermost :: closed, kept, congrArg (innermost :: ·) whole, ?_, around, ?_⟩
      · have here := dedents_layoutAt column (innermost :: outer)
        have behind := dedents_layoutAt column outer
        rw [passed, List.length_cons] at here
        rw [List.length_cons]
        omega
      · simpa only [layoutAt, passed] using change
    · refine ⟨[], innermost :: outer, rfl, by simp [layoutAt, right], deep, ?_⟩
      rcases Nat.lt_or_eq_of_le (Nat.le_of_not_lt right) with less | rfl
      · exact .inl (by simp [layoutAt, right, less])
      · exact .inr (by simp [layoutAt])

/-- A scan is in front of a line: nothing but comments has been cut off since the last one, and what is left begins with
the line, or with the end of the line of a comment. -/
structure LineStart (text : List Char) (before : List Token) (s : Scan) : Prop where
  bare : ∀ other ∈ lineBehind before, other.kind = .comment
  same : indentation (text.drop (lineFrom before)) = indentation s.rest
  front : (∀ c ∈ (text.take s.offset).getLast?, isLineEndChar c) ∨ ∀ c ∈ s.rest.head?, isLineEndChar c

/-- The blocks of a scan are those that its tokens have opened, and within a line the innermost is at its column. -/
structure Layers (text : List Char) (before : List Token) (s : Scan) : Prop where
  into : s.Into text
  columns : openColumns text before = s.columns
  deepening : Deepening s.columns
  between : s.atLineStart → LineStart text before s
  within : s.atLineStart = false → s.columns.head? = some (indentation (text.drop (lineFrom before)))
  statement : s.inStatement → s.atLineStart = false

/-- Tokens other than layout are where they should be if they begin no line, or one in a block of its column. -/
theorem layered_plain (plain : token.kind.isLayout = false)
    (begins : Begins before token → (openColumns text before).head? = some (indentation (text.drop (lineFrom before))))
    (ends : token.kind = .endOfFile → openColumns text before = [0]) : Layered text before token where
  pops closes := by simp [closes, TokenKind.isLayout] at plain
  pushes opens := by simp [opens, TokenKind.isLayout] at plain
  begins := begins
  closesFirst closes := by simp [closes, TokenKind.isLayout] at plain
  opensOnce opens := by simp [opens, TokenKind.isLayout] at plain
  ends := ends

theorem Layers.layered (layers : Layers text before s) (inside : s.atLineStart = false)
    (plain : token.kind.isLayout = false) (more : token.kind ≠ .endOfFile) : Layered text before token :=
  layered_plain plain (fun _ => layers.columns ▸ layers.within inside) fun last => absurd last more

theorem layered_comment (text : List Char) (before : List Token) (comment : token.kind = .comment) :
    Layered text before token :=
  layered_plain (by simp [comment, TokenKind.isLayout]) (fun begins => absurd comment begins.counts) fun last => by
    simp [last] at comment

/-- Blocks may end where none has begun in the line, and at the end of the text. -/
theorem layeredFrom_dedents {closed kept : List Nat} (closes : token.kind = .dedent) (inside : kept ≠ [])
    (columns : openColumns text before = closed ++ kept)
    (free : (∀ other ∈ lineBehind before, other.kind ≠ .indent) ∨ token.range.start = text.length) :
    LayeredFrom text before (List.replicate closed.length token) ∧
      openColumns text (before ++ List.replicate closed.length token) = kept := by
  induction closed generalizing before with
  | nil => simpa using ⟨LayeredFrom.nil before, columns⟩
  | cons innermost closed ih =>
    have here : Layered text before token := {
      pops := fun _ => by
        have some := List.length_pos_of_ne_nil inside
        simp [columns]
        omega
      pushes := fun opens => by simp [closes] at opens
      begins := fun begins => by
        have plain := begins.plain
        simp [closes, TokenKind.isLayout] at plain
      closesFirst := fun _ => free
      opensOnce := fun opens => by simp [closes] at opens
      ends := fun last => by simp [closes] at last }
    have popped : openColumns text (before ++ [token]) = closed ++ kept := by
      rw [openColumns_append, columnsBehind, closes, columns]
      rfl
    obtain ⟨later, left⟩ := ih popped <| free.imp_left fun none other member => by
      rw [lineBehind_append before (by simp [closes]), List.mem_append, List.mem_singleton] at member
      rcases member with early | rfl
      · exact none other early
      · simp [closes]
    rw [List.length_cons, List.replicate_succ]
    exact ⟨.cons here later, by simpa using left⟩

namespace Scan

theorem Into.text_eq (into : s.Into text) :
    text = text.take s.offset ++ s.rest ∧ (text.take s.offset).length = s.offset := by
  obtain ⟨front, split, offset⟩ := into.split
  have taken : text.take s.offset = front ++ s.gap := by
    rw [split, offset, List.take_left]
  exact ⟨by rw [taken, ← split], by rw [taken, offset]⟩

theorem Into.drop_eq (into : s.Into text) : text.drop s.offset = s.rest := by
  obtain ⟨front, split, offset⟩ := into.split
  rw [split, offset, List.drop_left]

/-- Behind a line end a line begins. -/
theorem Into.behind_ending {next : Scan} (into : s.Into text) (later : next.Into text) {blanks ending : List Char}
    (split : s.rest = blanks ++ (ending ++ next.rest)) (ends : IsLineEnd ending next.rest) :
    ∀ c ∈ (text.take next.offset).getLast?, isLineEndChar c := by
  have whole : text.take next.offset ++ next.rest = text.take s.offset ++ blanks ++ ending ++ next.rest := by
    rw [← later.text_eq.1, List.append_assoc _ ending, List.append_assoc _ blanks, ← split, ← into.text_eq.1]
  rw [List.append_cancel_right whole]
  intro c last
  rw [List.getLast?_append] at last
  cases ends <;> (obtain rfl := Option.some.inj last; decide)

end Scan

namespace Layers

/-- Within a line nothing changes where the text is passed over. -/
theorem skip (layers : Layers text before s) (inside : s.atLineStart = false) (count : Nat) :
    Layers text before (s.skip count) where
  into := (layers.into.skip count).1
  columns := layers.columns
  deepening := layers.deepening
  between here := by
    rw [show (s.skip count).atLineStart = s.atLineStart from rfl, inside] at here
    cases here
  within := layers.within
  statement := layers.statement

/-- Where a line begins, the blanks in front of it lead to its column. -/
theorem columnAt_line (layers : Layers text before s) (here : s.atLineStart) {blanks tail : List Char} {c : Char}
    (split : s.rest = blanks ++ c :: tail) (blank : Blanks blanks) (inline : isLineEndChar c = false) :
    columnAt text (s.skip blanks.length).offset = columnAfter blanks := by
  have start : ∀ c ∈ (text.take s.offset).getLast?, isLineEndChar c := by
    refine (layers.between here).front.resolve_right fun ends => ?_
    have blocked : ∀ c ∈ s.rest.head?, isLineEndChar c = false := by
      rw [split]
      cases blanks with
      | nil => simpa using inline
      | cons b more => simpa using (inline_of_isBlank (blank b List.mem_cons_self)).1
    cases first : s.rest.head? with
    | none => simp [split] at first
    | some c => simpa [blocked c first] using ends c first
  obtain ⟨whole, offset⟩ := layers.into.text_eq
  generalize text.take s.offset = front at start whole offset
  have there : (s.skip blanks.length).offset = front.length + blanks.length := by
    rw [offset, Scan.skip, split, List.take_left]
  rw [there, whole, split]
  exact columnAt_blanks start blank

/-- In front of the first token of a line the blocks are those that the line is in. -/
theorem indent (layers : Layers text before s) (here : s.atLineStart) {blanks tail : List Char} {c : Char}
    (split : s.rest = blanks ++ c :: tail) (blank : Blanks blanks) (notBlank : isBlank c = false)
    (inline : isLineEndChar c = false) (notComment : c ≠ '#') :
    let indented := (s.skip blanks.length).indent (.ofChars text) (columnAfter blanks)
    LayeredFrom text before indented.1 ∧ Layers text (before ++ indented.1) indented.2 := by
  intro indented
  obtain ⟨bare, same, -⟩ := layers.between here
  obtain ⟨closed, kept, whole, count, around, change⟩ := layers.deepening.makesWay (columnAfter blanks)
  let dedents := List.replicate closed.length ((s.skip blanks.length).detached (.ofChars text) .dedent)
  have closing : ∀ token ∈ dedents, token.kind = .dedent := fun _ member => List.eq_of_mem_replicate member ▸ rfl
  obtain ⟨closes, left⟩ : LayeredFrom text before dedents ∧ openColumns text (before ++ dedents) = kept := by
    refine layeredFrom_dedents rfl around.ne_nil (layers.columns.trans whole) (.inl fun other member => ?_)
    simp [bare other member]
  have tokens : indented.1 = dedents ++ if (layoutAt (columnAfter blanks) s.columns).opens then
      [(s.skip blanks.length).detached (.ofChars text) .indent] else [] := by
    show List.replicate (layoutAt (columnAfter blanks) s.columns).dedents _ ++ _ = _
    rw [count]
    rfl
  have line : lineFrom (before ++ indented.1) = lineFrom before := by
    refine lineFrom_append before fun token member ends => ?_
    obtain ⟨kind, layout, rfl⟩ := Scan.mem_indent member
    rw [show kind = .newline from ends] at layout
    cases layout
  have column : indentation (text.drop (lineFrom before)) = columnAfter blanks := by
    rw [same, split, indentation_line blank notBlank inline notComment]
  have settles (columns : openColumns text (before ++ indented.1) = indented.2.columns)
      (deep : Deepening indented.2.columns) (top : indented.2.columns.head? = some (columnAfter blanks)) :
      Layers text (before ++ indented.1) indented.2 :=
    ⟨⟨(layers.into.skip blanks.length).1.split⟩, columns, deep, nofun, fun _ => by rw [top, line, column], fun _ => rfl⟩
  rcases change with ⟨opens, right, change⟩ | ⟨stays, top, change⟩
  · have columns : indented.2.columns = columnAfter blanks :: kept := change
    have column := layers.columnAt_line here split blank inline
    have begun : lineBehind (before ++ dedents) = lineBehind before ++ dedents :=
      lineBehind_append before fun token member => by simp [closing token member]
    have pushes : Layered text (before ++ dedents) ((s.skip blanks.length).detached (.ofChars text) .indent) := {
      pops := nofun
      pushes := fun _ => left.symm ▸ column.symm ▸ right
      begins := fun begins => by cases begins.plain
      closesFirst := nofun
      opensOnce := fun _ other member => by
        rw [begun, List.mem_append] at member
        exact member.symm.imp (closing other) (bare other)
      ends := nofun }
    rw [if_pos opens] at tokens
    have behind : openColumns text (before ++ indented.1) = columnAfter blanks :: kept := by
      rw [tokens, ← List.append_assoc, openColumns_append, left]
      exact congrArg (· :: kept) column
    refine ⟨tokens ▸ closes.append (.single pushes), settles (behind.trans columns.symm) ?_ ?_⟩
    · rw [columns]
      exact around.inner right
    · rw [columns]
      rfl
  · have columns : indented.2.columns = kept := change
    rw [if_neg (by simp [stays]), List.append_nil] at tokens
    have behind : openColumns text (before ++ indented.1) = kept := tokens ▸ left
    refine ⟨tokens ▸ closes, settles (behind.trans columns.symm) ?_ ?_⟩
    · rw [columns]
      exact around
    · rw [columns]
      exact top

theorem layout (layers : Layers text before s) {blanks tail : List Char} {c : Char}
    (split : s.rest = blanks ++ c :: tail) (blank : Blanks blanks) (notBlank : isBlank c = false)
    (inline : isLineEndChar c = false) (notComment : c ≠ '#') :
    LayeredFrom text before (s.layout (.ofChars text) blanks).1 ∧
      Layers text (before ++ (s.layout (.ofChars text) blanks).1) (s.layout (.ofChars text) blanks).2 := by
  cases here : s.atLineStart with
  | true =>
    rw [show s.layout (.ofChars text) blanks = (s.skip blanks.length).indent (.ofChars text) (columnAfter blanks) from
      if_pos here]
    exact layers.indent here split blank notBlank inline notComment
  | false =>
    rw [show s.layout (.ofChars text) blanks = ([], s.skip blanks.length) from if_neg (by simp [here]), List.append_nil]
    exact ⟨.nil before, layers.skip here _⟩

/-- A stride leaves the blocks as its tokens say. -/
theorem stride {next : Scan} (layers : Layers text before s)
    (stride : Scan.Stride d (.ofChars text) s tokens (some next)) :
    LayeredFrom text before tokens ∧ Layers text (before ++ tokens) next := by
  cases stride with
  | @comment blanks body rest split blank comment =>
    have past := Scan.rest_past split
    have front : ((s.skip blanks.length).cut (.ofChars text) .comment body.length).2.rest = rest := by
      rw [Scan.rest_cut, past, List.drop_left]
    refine ⟨.single (layered_comment text before rfl), ((layers.into.skip _).1.cut _ _).2.1,
      (openColumns_plain text before rfl).trans layers.columns, layers.deepening, fun here => ?_, fun inside => ?_,
      layers.statement⟩
    · obtain ⟨bare, same, -⟩ := layers.between here
      refine ⟨fun other member => ?_, ?_, .inr (front ▸ comment.ended)⟩
      · rw [lineBehind_append before (by simp [Scan.cut]), List.mem_append, List.mem_singleton] at member
        rcases member with early | rfl
        · exact bare other early
        · rfl
      · rw [lineFrom_append before (by simp [Scan.cut]), same, split, indentation_comment blank comment, front]
    · rw [lineFrom_append before (by simp [Scan.cut])]
      exact layers.within inside
  | @passed blanks ending rest split blank ends outside =>
    rw [List.append_nil]
    refine ⟨.nil before, ?_⟩
    cases here : s.atLineStart with
    | false => exact (layers.skip here _).skip here _
    | true =>
      obtain ⟨bare, same, -⟩ := layers.between here
      have into := ((layers.into.skip blanks.length).1.skip ending.length).1
      have front : ((s.skip blanks.length).skip ending.length).rest = rest := by
        rw [Scan.rest_skip, Scan.rest_past split, List.drop_left]
      refine ⟨into, layers.columns, layers.deepening, fun _ => ⟨bare, ?_, .inl ?_⟩, layers.within,
        layers.statement⟩
      · rw [same, split, indentation_passed blank ends, front]
      · exact layers.into.behind_ending into (front.symm ▸ split) (front.symm ▸ ends)
  | @newline blanks ending rest split blank ends inside outside =>
    have into : ((s.skip blanks.length).cut (.ofChars text) .newline ending.length).2.lineEnded.Into text :=
      ⟨((layers.into.skip blanks.length).1.cut .newline ending.length).2.1.split⟩
    have front : ((s.skip blanks.length).cut (.ofChars text) .newline ending.length).2.lineEnded.rest = rest := by
      show (s.skip blanks.length).rest.drop ending.length = rest
      rw [Scan.rest_past split, List.drop_left]
    refine ⟨.single (layers.layered inside rfl (fun opens => by cases opens)), into,
      (openColumns_plain text before rfl).trans layers.columns, layers.deepening, fun _ => ⟨?_, ?_, .inl ?_⟩,
      (fun waits => by cases waits), (fun waits => by cases waits)⟩
    · rw [lineBehind_newline before rfl]
      exact List.forall_mem_nil _
    · rw [lineFrom_newline before rfl]
      exact congrArg indentation into.drop_eq
    · exact layers.into.behind_ending into (front.symm ▸ split) (front.symm ▸ ends)
  | @joined blanks ending rest split blank ends =>
    obtain ⟨layered, later⟩ := layers.layout split blank (by decide) (by decide) (by decide)
    exact ⟨layered, later.skip (s.inLine_layout _ blanks) _⟩
  | @lexeme blanks c tail split blank starts =>
    obtain ⟨layered, later⟩ :=
      layers.layout split blank starts.notBlank starts.notLineEnd starts.notComment
    have inside := s.inLine_layout (.ofChars text) blanks
    generalize s.layout (.ofChars text) blanks = behind at layered later inside ⊢
    have word : (behind.2.significant d (.ofChars text)).1.kind.isInline := (isLexeme_scanLexeme behind.2.rest).1
    have plain := TokenKind.plain_of_isInline word
    have structural := structural_of_isInline word
    have goesOn : (behind.2.significant d (.ofChars text)).1.kind ≠ .newline := fun ends => by
      rw [ends] at word
      cases word
    rw [← List.append_assoc]
    refine ⟨layered.append (.single (later.layered inside plain structural.1)), later.into.significant d,
      (openColumns_plain text _ plain).trans later.columns, later.deepening, fun here => ?_, fun _ => ?_,
        fun _ => inside⟩
    · exact absurd (show behind.2.atLineStart from here) (by simp [inside])
    · rw [lineFrom_append _ (by simpa using goesOn)]
      exact later.within inside

/-- At the end of the text all blocks are closed. -/
theorem finish (layers : Layers text before s) :
    LayeredFrom text before ((s.skip s.rest.length).finish (.ofChars text)) := by
  let t := s.skip s.rest.length
  let line := if t.inStatement then [t.detached (.ofChars text) .newline] else []
  have ended : t.offset = text.length := by
    have into := (layers.into.skip s.rest.length).1.text_eq
    rw [Scan.rest_skip, List.drop_length, List.append_nil] at into
    exact into.2.symm.trans (congrArg List.length into.1).symm
  have closed : LayeredFrom text before line ∧ openColumns text (before ++ line) = s.columns := by
    by_cases waits : s.inStatement
    · rw [show line = [t.detached (.ofChars text) .newline] from if_pos waits]
      exact ⟨.single (layers.layered (layers.statement waits) rfl nofun),
        (openColumns_plain text before rfl).trans layers.columns⟩
    · rw [show line = [] from if_neg waits, List.append_nil]
      exact ⟨.nil before, layers.columns⟩
  obtain ⟨inner, columns⟩ := List.getLast?_eq_some_iff.1 layers.deepening.outermost
  obtain ⟨dedents, left⟩ := layeredFrom_dedents (show (t.detached (.ofChars text) .dedent).kind = .dedent from rfl)
    (List.cons_ne_nil 0 []) (closed.2.trans columns) (.inr ended)
  have count : t.columns.length - 1 = inner.length := by
    rw [show t.columns = s.columns from rfl, columns, List.length_append]
    rfl
  rw [Scan.finish, count, List.append_assoc]
  refine closed.1.append (dedents.append (.single (layered_plain rfl (fun begins => ?_) fun _ => left)))
  exact absurd rfl begins.more

end Layers

/-- What the tokens of a scan say of the blocks is so. -/
theorem Scan.Strides.layered (strides : Scan.Strides d (.ofChars text) s tokens) (layers : Layers text before s) :
    LayeredFrom text before tokens := by
  induction strides generalizing before with
  | last stride =>
    cases stride with
    | ends => exact layers.finish
  | step stride _ ih =>
    obtain ⟨layered, later⟩ := layers.stride stride
    exact layered.append (ih later)

theorem layers_start (text : List Char) : Layers text [] (.start text) where
  into := .start text
  columns := rfl
  deepening := ⟨List.pairwise_singleton .., rfl⟩
  between _ := ⟨List.forall_mem_nil _, rfl, .inl nofun⟩
  within := nofun
  statement := nofun

theorem layeredFrom_lex (d : Dialect) (text : String) : LayeredFrom text.toList [] (lex d text) :=
  (lex_strides d text).layered (layers_start text.toList)

/-- The layout of a text, read off its tokens, is a proper block structure. Behind any of the tokens the columns of the
open blocks increase from 0, and no more blocks have been closed than opened; behind all of them as many have been
closed. Each token is where the blocks allow it (`Layered`): above all, each logical line begins in a block of its
column. -/
theorem lex_layered (d : Dialect) (text : String) :
    (∀ front, front <+: lex d text → Deepening (openColumns text.toList front) ∧
      front.countP (·.kind == .dedent) ≤ front.countP (·.kind == .indent)) ∧
    (lex d text).countP (·.kind == .dedent) = (lex d text).countP (·.kind == .indent) ∧
    ∀ before token after, lex d text = before ++ token :: after → Layered text.toList before token := by
  have run := layeredFrom_lex d text
  have along {front : List Token} (early : front <+: lex d text) :=
    run.along ⟨List.pairwise_singleton .., rfl⟩ rfl early
  simp only [List.nil_append] at along
  have each : ∀ before token after, lex d text = before ++ token :: after → Layered text.toList before token :=
    fun before token after split => by simpa using (split ▸ run).layered
  refine ⟨fun front early => ⟨(along early).1, ?_⟩, ?_, each⟩
  · have balance := (along early).2
    have some := List.length_pos_of_ne_nil (along early).1.ne_nil
    omega
  · obtain ⟨kinds, whole, -⟩ := endsOnce_lex d text
    obtain ⟨before, last, split, -, kind⟩ := List.map_eq_append_iff.1 whole
    obtain ⟨token, rfl, ends⟩ := List.map_eq_singleton_iff.1 kind
    have closed : openColumns text.toList (lex d text) = [0] := by
      rw [split, openColumns_plain _ _ (by simp [ends, TokenKind.isLayout])]
      exact (each before token [] split).ends ends
    have balance := (along (List.prefix_refl _)).2
    rw [closed, List.length_singleton] at balance
    omega

end TolerantParser
