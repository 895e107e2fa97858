import TolerantParser.Proofs.Document.Subtrees
import TolerantParser.Proofs.Tree.Outermost

/-!
Where the comments of a document are. A comment belongs before the outermost node that starts at the next token; if no
node does, before the document where no token comes first, and else after the outermost node that ends at the token
before; and if no node does that either, with the node that owns the next token. Only tokens that the tree owns count,
and the layout of blocks does not.
-/

namespace TolerantParser

open TokenStream (significant)

variable {node inner tree : Node} {side : Bounds → Nat} {mark : Nat} {plan : CommentPlan} {around : Option Bounds}
  {tokens : List Cell}

/-! ### Trees with comments -/

theorem ofTokens_filter (cells : List Cell) :
    Bounds.ofTokens (cells.filter (!·.isComment)) = Bounds.ofTokens cells := by
  rw [Bounds.ofTokens, Bounds.ofTokens, List.foldl_filter]
  refine List.foldl_ext _ _ _ fun bounds cell _ => ?_
  by_cases comment : cell.kind = .comment <;> simp [Cell.isComment, comment, TokenKind.isInsignificant]

mutual

theorem Node.outline_uncommented : (node : Node) → node.uncommented.outline = node.outline
  | .mk info children => by
    rw [Node.uncommented, Node.outline, Node.outline, Children.outlines_uncommented children, ofTokens_filter]

theorem Children.outlines_uncommented : (children : Children) → children.uncommented.outlines = children.outlines
  | .nil => rfl
  | .gap _ rest => Children.outlines_uncommented rest
  | .cons _ node rest => by
    rw [Children.uncommented, Children.outlines, Children.outlines, Node.outline_uncommented node,
      Children.outlines_uncommented rest]

end

section

variable (comments : ∀ spot, ∀ cell ∈ plan.commentsIn spot, cell.kind = .comment)

include comments

/-- Comments do not count among the tokens of a node. -/
theorem Node.outline_commented : (node.commented plan around).outline = node.outline := by
  rw [← Node.outline_uncommented, Node.commented, Node.uncommented_withComments comments, Node.outline_uncommented]

theorem Node.at_commented : (node.commented plan around).At side mark ↔ node.At side mark := by
  rw [Node.At, ← Node.outline_bounds, Node.outline_commented comments, Node.outline_bounds, Node.At]

/-- The outermost node stays so when comments have come to hang on it, and no node around it has the same end. -/
theorem Node.Topmost.commented (topmost : node.Topmost (Node.At side mark) inner) (free : Frees side around mark) :
    ∃ outer, (node.commented plan around).Topmost (Node.At side mark) (inner.commented plan outer) ∧
      Frees side outer mark := by
  induction topmost generalizing around with
  | here at_ => exact ⟨around, .here ((Node.at_commented comments).2 at_), free⟩
  | @inside node child inner passed member below ih =>
    have free : Frees side node.bounds mark := fun bounds own same =>
      passed (Option.map_eq_some_iff.2 ⟨bounds, own, same⟩)
    obtain ⟨outer, topmost, others⟩ := ih free
    refine ⟨outer, .inside (mt (Node.at_commented comments).1 passed) ?_ topmost, others⟩
    rw [Node.nodes_commented]
    exact List.mem_map_of_mem member

end

/-- The outermost node that starts or ends at a mark takes all comments there. -/
theorem Node.commentsAt_of_free {comments : Array (List Cell)} (at_ : node.At side mark)
    (free : Frees side around mark) : commentsAt comments side around node.bounds = comments.getD mark [] := by
  obtain ⟨bounds, own, same⟩ := Option.map_eq_some_iff.1 at_
  rw [commentsAt_eq, own, taken, if_neg, List.flatMap_singleton, same]
  cases around with
  | none => exact Bool.false_ne_true
  | some outer => simpa [same] using free outer rfl

/-- What a plan has placed is in some spot. -/
theorem exists_spot {cell : Cell} (placed : cell ∈ plan.contents) : ∃ spot, cell ∈ plan.commentsIn spot := by
  have among : ∀ lists : Array (List Cell), cell ∈ lists.toList.flatten → ∃ mark, cell ∈ lists.getD mark [] := by
    intro lists inside
    obtain ⟨list, listed, here⟩ := List.mem_flatten.1 inside
    obtain ⟨mark, less, rfl⟩ := List.getElem_of_mem listed
    refine ⟨mark, ?_⟩
    rw [Array.length_toList] at less
    simpa [Array.getD_eq_getD_getElem?, less] using here
  simp only [CommentPlan.contents, List.mem_append] at placed
  rcases placed with ((top | before) | after) | inside
  · exact ⟨.top, top⟩
  · exact (among _ before).imp' Spot.before fun _ here => here
  · exact (among _ after).imp' Spot.after fun _ here => here
  · exact (among _ inside).imp' Spot.inside fun _ here => here

/-- In a list in order the first to hold is found. -/
theorem find?_of_first {α : Type} {before : α → α → Prop} {holds : α → Bool} {list : List α} {a : α}
    (sorted : list.Pairwise before) (member : a ∈ list) (here : holds a)
    (first : ∀ b ∈ list, holds b → ¬ before b a) : list.find? holds = some a := by
  obtain ⟨early, late, rfl⟩ := List.append_of_mem member
  have sooner := (List.pairwise_append.1 sorted).2.2
  refine List.find?_eq_some_iff_append.2 ⟨here, early, late, rfl, fun b among => ?_⟩
  have passed := first b (List.mem_append_left _ among)
  simpa using fun holds => passed holds (sooner b among a List.mem_cons_self)

/-! ### Documents -/

namespace Document

variable {document : Document}

/-- The tokens of a document that count: those that its tree owns, without comments and the layout of blocks. -/
def counted (document : Document) : List Cell :=
  document.tokens.filter fun cell => !cell.kind.isInsignificant && decide (cell ∈ document.tree.ownedTokens)

/-- The next token that counts. -/
def following? (document : Document) (comment : Cell) : Option Cell :=
  document.counted.find? (comment.index < ·.index)

/-- The last token before that counts. -/
def previous? (document : Document) (comment : Cell) : Option Cell :=
  document.counted.reverse.find? (·.index < comment.index)

/-- Where a comment belongs, in the order of preference. -/
inductive Belongs (document : Document) (comment : Cell) : Prop
  | before {following : Cell} {node : Node} (next : document.following? comment = some following)
      (starts : document.tree.Outermost Bounds.first following.index node) (here : comment ∈ node.info.before)
  | top {following : Cell} (next : document.following? comment = some following)
      (within : ∀ node, ¬ document.tree.Outermost Bounds.first following.index node)
      (first : document.previous? comment = none) (here : comment ∈ document.tree.info.before)
  | after {following previous : Cell} {node : Node} (next : document.following? comment = some following)
      (within : ∀ node, ¬ document.tree.Outermost Bounds.first following.index node)
      (last : document.previous? comment = some previous)
      (ends : document.tree.Outermost Bounds.last previous.index node) (here : comment ∈ node.info.after)
  | inside {following previous : Cell} {node : Node} (next : document.following? comment = some following)
      (within : ∀ node, ¬ document.tree.Outermost Bounds.first following.index node)
      (last : document.previous? comment = some previous)
      (goesOn : ∀ node, ¬ document.tree.Outermost Bounds.last previous.index node)
      (listed : node ∈ document.tree.subtrees) (owns : following ∈ node.tokens) (here : comment ∈ node.tokens)

variable {spaced calm : Prop} {lost : List Cell} (kept : document.Kept spaced calm tree lost)

include kept

theorem Kept.mem_counted {cell : Cell} : cell ∈ document.counted ↔
    cell ∈ tree.ownedTokens ∧ cell.kind.isInsignificant = false := by
  have owned : cell.isComment = false → (cell ∈ document.tree.ownedTokens ↔ cell ∈ tree.ownedTokens) := fun plain => by
    have same := congrArg (cell ∈ ·) (Node.ownedTokens_uncommented document.tree)
    rw [kept.attached, kept.covers.uncommented, ← kept.attached] at same
    simpa [plain] using same.symm
  rw [counted, List.mem_filter, Bool.and_eq_true, Bool.not_eq_true', decide_eq_true_eq]
  constructor
  · rintro ⟨listed, counts, own⟩
    have plain := (plain_of_significant counts).2
    exact ⟨(owned (by simpa [Cell.isComment] using plain)).1 own, counts⟩
  · rintro ⟨own, counts⟩
    have plain := (plain_of_significant counts).2
    exact ⟨kept.covers.owned cell own, counts, (owned (by simpa [Cell.isComment] using plain)).2 own⟩

theorem Kept.mark_iff : mark ∈ tree.marks ↔ ∃ cell ∈ document.counted, cell.index = mark := by
  rw [Node.marks, mem_marksOf]
  exact exists_congr fun cell => by rw [kept.mem_counted, and_assoc]

theorem Kept.sorted_counted : document.counted.Pairwise (·.index < ·.index) :=
  (pairwise_index kept.covers.numbered).sublist List.filter_sublist

theorem Kept.following?_of_next {comment : Cell} (next : NextMark tree.marks comment.index mark) :
    ∃ following, document.following? comment = some following ∧ following.index = mark := by
  obtain ⟨following, counts, rfl⟩ := kept.mark_iff.1 next.listed
  refine ⟨following, find?_of_first kept.sorted_counted counts (by simpa using next.behind)
    fun other among behind => ?_, rfl⟩
  have := next.first other.index (kept.mark_iff.2 ⟨other, among, rfl⟩) (by simpa using behind)
  omega

theorem Kept.previous?_of_last {comment : Cell} (last : LastMark tree.marks comment.index mark) :
    ∃ previous, document.previous? comment = some previous ∧ previous.index = mark := by
  obtain ⟨previous, counts, rfl⟩ := kept.mark_iff.1 last.listed
  refine ⟨previous, find?_of_first (List.pairwise_reverse.2 kept.sorted_counted) (List.mem_reverse.2 counts)
    (by simpa using last.before) fun other among before => ?_, rfl⟩
  have := last.last other.index (kept.mark_iff.2 ⟨other, List.mem_reverse.1 among, rfl⟩) (by simpa using before)
  omega

theorem Kept.previous?_of_first {comment : Cell} (first : ∀ mark ∈ tree.marks, comment.index < mark) :
    document.previous? comment = none := by
  refine List.find?_eq_none.2 fun cell member => ?_
  have := first cell.index (kept.mark_iff.2 ⟨cell, List.mem_reverse.1 member, rfl⟩)
  simp only [decide_eq_true_eq]
  omega

/-- Behind each comment there is a token that counts, the end of the document if no other. -/
theorem Kept.exists_next {comment : Cell} (listed : comment ∈ document.tokens) (isComment : comment.isComment) :
    ∃ mark, NextMark tree.marks comment.index mark := by
  have some : document.tokens ≠ [] := List.ne_nil_of_mem listed
  obtain ⟨final, counts, same⟩ :=
    kept.mark_iff.1 (kept.covers.ended _ (List.getLast?_eq_getLast_of_ne_nil some))
  have plain := (plain_of_significant (kept.mem_counted.1 counts).2).2
  obtain rfl := CommentPlan.eq_of_index kept.covers.numbered
    (kept.covers.owned final (kept.mem_counted.1 counts).1) (List.getLast_mem some) same
  have behind : comment.index < (document.tokens.getLast some).index := by
    have split := List.dropLast_concat_getLast some
    have sorted := pairwise_index kept.covers.numbered
    rw [← split] at listed sorted
    rcases List.mem_append.1 listed with early | last
    · exact (List.pairwise_append.1 sorted).2.2 comment early _ (List.mem_singleton_self _)
    · rw [← List.mem_singleton.1 last] at plain
      exact absurd (eq_of_beq isComment) plain
  cases found : document.counted.find? (comment.index < ·.index) with
  | none => exact absurd behind (by simpa using List.find?_eq_none.1 found _ counts)
  | some following =>
    obtain ⟨holds, early, late, split, passed⟩ := List.find?_eq_some_iff_append.1 found
    have sorted := kept.sorted_counted
    rw [split] at sorted
    refine ⟨following.index, kept.mark_iff.2 ⟨following, by simp [split], rfl⟩, by simpa using holds,
      fun other listed behind => ?_⟩
    obtain ⟨cell, among, rfl⟩ := kept.mark_iff.1 listed
    rw [split, List.mem_append, List.mem_cons] at among
    rcases among with before | rfl | after
    · exact absurd behind (by simpa using passed cell before)
    · exact Nat.le_refl _
    · exact Nat.le_of_lt ((List.pairwise_cons.1 (List.pairwise_append.1 sorted).2.1).1 cell after)

/-- Where no node below the root has an end there is no outermost one. -/
theorem Kept.mem_of_outermost (outermost : document.tree.Outermost side mark node) :
    ∃ child ∈ tree.children.nodes, mark ∈ child.outline.all.map side := by
  obtain ⟨child, member, topmost⟩ := outermost
  rw [kept.attached, Node.nodes_attachComments] at member
  obtain ⟨bare, among, rfl⟩ := List.mem_map.1 member
  have ends := Node.exists_topmost_iff.1 ⟨node, topmost⟩
  rw [Node.outline_commented kept.covers.hangs.comment] at ends
  exact ⟨bare, among, ends⟩

/-- The outermost node that starts or ends at a mark, with the comments that hang on it. -/
theorem Kept.exists_outermost {child : Node} (member : child ∈ tree.children.nodes)
    (ends : mark ∈ child.outline.all.map side) : ∃ (bare : Node) (outer : Option Bounds),
      document.tree.Outermost side mark (bare.commented (tree.plan document.tokens) outer) ∧
      bare.info.before = [] ∧ bare.info.after = [] ∧ bare.At side mark ∧ Frees side outer mark := by
  obtain ⟨bare, topmost⟩ := Node.exists_topmost_iff.2 ends
  have apart : Frees side none mark := nofun
  obtain ⟨outer, below, free⟩ := topmost.commented kept.covers.hangs.comment apart
  obtain ⟨before, after⟩ := kept.covers.bare bare (Node.mem_listed.2 (.inr ⟨child, member, topmost.listed⟩))
  refine ⟨bare, outer, ⟨_, ?_, below⟩, before, after, topmost.holds, free⟩
  rw [kept.attached, Node.nodes_attachComments]
  exact List.mem_map_of_mem member

theorem Kept.not_starts (notStarting : tree.starts document.tokens mark = false) (node : Node) :
    ¬ document.tree.Outermost Bounds.first mark node := fun outermost => by
  obtain ⟨child, member, ends⟩ := kept.mem_of_outermost outermost
  obtain ⟨bounds, listed, rfl⟩ := List.mem_map.1 ends
  exact Bool.false_ne_true (notStarting.symm.trans (kept.covers.sided member bounds listed).1)

theorem Kept.not_ends (notEnding : tree.ends document.tokens mark = false) (node : Node) :
    ¬ document.tree.Outermost Bounds.last mark node := fun outermost => by
  obtain ⟨child, member, ends⟩ := kept.mem_of_outermost outermost
  obtain ⟨bounds, listed, rfl⟩ := List.mem_map.1 ends
  exact Bool.false_ne_true (notEnding.symm.trans (kept.covers.sided member bounds listed).2)

/-- Each node of the tree has its tokens and the comments in front of them. -/
theorem Kept.exists_tokens (listed : inner ∈ tree.listed) : ∃ node ∈ document.tree.subtrees,
    node.tokens = inner.tokens ++ (tree.plan document.tokens).insideOf inner.tokens := by
  simp only [← (Node.subtrees_perm _).mem_iff, kept.attached]
  rcases Node.mem_listed.1 listed with rfl | ⟨child, member, inside⟩
  · exact ⟨_, Node.mem_listed_attachComments.2 (.inl rfl), rfl⟩
  · obtain ⟨outer, here⟩ := Node.listed_commented (tree.plan document.tokens) none inside
    exact ⟨_, Node.mem_listed_attachComments.2 (.inr ⟨child, member, here⟩), Node.tokens_commented ..⟩

/-- Each comment hangs where it belongs. -/
theorem Kept.belongs {comment : Cell} (listed : comment ∈ document.tokens) (isComment : comment.isComment) :
    document.Belongs comment := by
  have planned := kept.covers.planned
  obtain ⟨spot, here⟩ := exists_spot (planned.whole.mem_iff.2 (List.mem_filter.2 ⟨listed, isComment⟩))
  have goes := planned.goes spot comment here
  cases goes with
  | @before mark next starting =>
    obtain ⟨following, found, rfl⟩ := kept.following?_of_next next
    obtain ⟨child, member, starts⟩ := Node.mem_of_starts starting
    obtain ⟨bare, outer, outermost, before, -, at_, free⟩ := kept.exists_outermost member starts
    refine .before found outermost ?_
    rw [Node.before_commented, before, Node.commentsAt_of_free at_ free]
    exact here
  | top first notStarting =>
    obtain ⟨mark, next⟩ := kept.exists_next listed isComment
    obtain ⟨following, found, rfl⟩ := kept.following?_of_next next
    refine .top found (kept.not_starts (notStarting _ next)) (kept.previous?_of_first first) ?_
    rw [kept.attached]
    exact List.mem_append_right _ here
  | after last ending notStarting =>
    obtain ⟨mark, next⟩ := kept.exists_next listed isComment
    obtain ⟨following, found, rfl⟩ := kept.following?_of_next next
    obtain ⟨previous, before, rfl⟩ := kept.previous?_of_last last
    obtain ⟨child, member, ends⟩ := Node.mem_of_ends ending
    obtain ⟨bare, outer, outermost, -, after, at_, free⟩ := kept.exists_outermost member ends
    refine .after found (kept.not_starts (notStarting _ next)) before outermost ?_
    rw [Node.after_commented, after, Node.commentsAt_of_free at_ free]
    exact here
  | inside next notStarting last notEnding =>
    obtain ⟨following, found, rfl⟩ := kept.following?_of_next next
    obtain ⟨previous, before, rfl⟩ := kept.previous?_of_last last
    obtain ⟨inner, among, own⟩ :=
      Node.mem_ownedTokens.1 (kept.mem_counted.1 (List.mem_of_find?_eq_some found)).1
    obtain ⟨node, listed, tokens⟩ := kept.exists_tokens among
    refine .inside found (kept.not_starts notStarting) before (kept.not_ends notEnding) listed ?_ ?_
    · exact tokens ▸ List.mem_append_left _ own
    · exact tokens ▸ List.mem_append_right _ (mem_insideOf.2 ⟨following, own, here⟩)

end Document

/-! ### Order -/

/-- The comments of a node are in the order of the document. -/
structure Node.CommentsInOrder (node : Node) : Prop where
  before : node.info.before.Pairwise (·.index < ·.index)
  after : node.info.after.Pairwise (·.index < ·.index)
  tokens : (node.tokens.filter Cell.isComment).Pairwise (·.index < ·.index)

variable {markings : Markings}

/-- The comments in front of a node's own tokens are in order, as the tokens are gone over by their places. -/
theorem insideOf_ordered (hangs : Hangs markings plan) (cells : List Cell) (nodup : (cells.map Cell.index).Nodup) :
    (plan.insideOf cells).Pairwise (·.index < ·.index) := by
  have sorted : ((cells.map (·.index)).mergeSort).Pairwise (· < ·) := by
    have le : ((cells.map (·.index)).mergeSort).Pairwise fun a b => decide (a ≤ b) = true :=
      List.pairwise_mergeSort (fun a b c first second => by simp only [decide_eq_true_eq] at *; omega)
        (fun a b => by simp only [Bool.or_eq_true, decide_eq_true_eq]; omega) _
    have apart := (List.mergeSort_perm (cells.map (·.index)) (fun a b => decide (a ≤ b))).nodup_iff.2 nodup
    exact (le.and apart).imp fun both => Nat.lt_of_le_of_ne (of_decide_eq_true both.1) both.2
  refine List.pairwise_flatMap.2
    ⟨fun mark _ => hangs.ordered (.inside mark), sorted.imp fun less comment early other late => ?_⟩
  cases hangs.goes (.inside _) comment early with
  | inside next =>
    cases hangs.goes (.inside _) other late with
    | inside following =>
      by_contra behind
      have := following.first _ next.listed
      have := next.behind
      omega

theorem commentsAt_ordered {lists : Array (List Cell)}
    (ordered : ∀ mark, (lists.getD mark []).Pairwise (·.index < ·.index))
    (bounds : Option Bounds) : (commentsAt lists side around bounds).Pairwise (·.index < ·.index) := by
  unfold commentsAt
  split
  · exact .nil
  · split
    · exact .nil
    · exact ordered _

theorem filter_isComment (comments : ∀ spot, ∀ cell ∈ plan.commentsIn spot, cell.kind = .comment) {cells : List Cell}
    (plain : ∀ cell ∈ cells, cell.kind ≠ .comment) :
    (cells ++ plan.insideOf cells).filter Cell.isComment = plan.insideOf cells := by
  rw [List.filter_append, List.filter_eq_nil_iff.2 fun cell own => by simp [Cell.isComment, plain cell own],
    List.nil_append, List.filter_eq_self]
  intro cell inside
  obtain ⟨token, -, here⟩ := mem_insideOf.1 inside
  simp [Cell.isComment, comments _ cell here]

theorem Fits.commentsInOrder (hangs : Hangs markings plan) (fits : Fits markings node) :
    (node.commented plan around).CommentsInOrder := by
  obtain ⟨before, after⟩ := fits.bare node (Node.mem_listed.2 (.inl rfl))
  obtain ⟨nodup, -⟩ := fits.separate
  refine ⟨?_, ?_, ?_⟩
  · rw [Node.before_commented, before]
    exact commentsAt_ordered (fun mark => hangs.ordered (.before mark)) _
  · rw [Node.after_commented, after]
    exact commentsAt_ordered (fun mark => hangs.ordered (.after mark)) _
  · rw [Node.tokens_commented, filter_isComment hangs.comment fun cell own => fits.plain cell (Node.owned_of_mem own)]
    exact insideOf_ordered hangs _ nodup

/-- On each node the comments of a document keep their order. -/
theorem Node.Over.commentsInOrder (covers : tree.Over tokens) :
    ∀ node ∈ (tree.attachComments tokens).listed, node.CommentsInOrder := by
  intro node listed
  rcases Node.mem_listed_attachComments.1 listed with rfl | ⟨child, member, inside⟩
  · obtain ⟨before, after⟩ := covers.bare tree (Node.mem_listed.2 (.inl rfl))
    obtain ⟨nodup, -⟩ := covers.separate
    refine ⟨?_, ?_, ?_⟩
    · show (tree.info.before ++ _).Pairwise _
      rw [before]
      exact covers.hangs.ordered .top
    · show tree.info.after.Pairwise _
      rw [after]
      exact .nil
    · show ((tree.tokens ++ (tree.plan tokens).insideOf tree.tokens).filter Cell.isComment).Pairwise _
      rw [filter_isComment covers.hangs.comment fun cell own => covers.plain cell (Node.owned_of_mem own)]
      exact insideOf_ordered covers.hangs _ nodup
  · obtain ⟨bare, here, outer, rfl⟩ := Node.mem_listed_commented inside
    exact ((covers.fits.below member).listed (covers.sided member) bare here).1.commentsInOrder covers.hangs

/-! ### Main result -/

theorem Node.ownedTokens_perm (node : Node) : node.ownedTokens.Perm (node.listed.flatMap Node.tokens) := by
  induction node using Node.of_children with
  | step node ih =>
    rw [Node.ownedTokens_eq]
    refine List.Perm.trans ?_ (node.listed_perm.flatMap_right Node.tokens).symm
    rw [List.flatMap_cons, List.flatMap_assoc]
    exact (List.Perm.flatMap_left _ ih).append_left _

/-- A tree with the comments of its document owns no token twice. -/
theorem Node.Over.nodup_places (covers : tree.Over tokens) : (tree.attachComments tokens).places.Nodup := by
  have numbers : tokens.Pairwise fun a b => a.index ≠ b.index := (pairwise_index covers.numbered).imp Nat.ne_of_lt
  have held : ((tree.attachComments tokens).held.map Cell.index).Nodup := by
    rw [((held_attachComments covers).map Cell.index).nodup_iff, List.map_append, List.nodup_append']
    refine ⟨covers.separate.nodup_places, List.pairwise_map.2 (numbers.sublist List.filter_sublist), ?_⟩
    intro place owned comment
    obtain ⟨cell, own, rfl⟩ := List.mem_map.1 owned
    obtain ⟨other, among, same⟩ := List.mem_map.1 comment
    obtain ⟨listed, isComment⟩ := List.mem_filter.1 among
    obtain rfl := CommentPlan.eq_of_index covers.numbered listed (covers.owned cell own) same
    exact covers.plain other own (eq_of_beq isComment)
  have within : ∀ nodes : List Node, (nodes.flatMap Node.tokens).Sublist (nodes.flatMap Node.holds) := by
    intro nodes
    induction nodes with
    | nil => exact .slnil
    | cons node rest ih =>
      rw [List.flatMap_cons, List.flatMap_cons]
      exact ((List.sublist_append_right _ _).trans (List.sublist_append_left _ _)).append ih
  rw [Node.places, ((Node.ownedTokens_perm _).map Cell.index).nodup_iff]
  exact held.sublist ((within _).map Cell.index)

/-- Each comment of a text, be it well formed or not, is one of its document, hangs where it belongs and nowhere else,
and the comments of a node keep their order. The outermost nodes are those that an index made with a stack has, in any
tree that owns no token twice, as that of a document does not; and what is asked while comments are placed the index
answers. -/
theorem Document.comments_outermost (limits : Limits) (d : Dialect) (options : ParseOptions) (text : String) :
    (∀ tree : Node, tree.places.Nodup → (CommentIndex.ofTree tree).Of tree ∧
      ∀ tokens : List Cell, (∀ place ∈ tree.places, place < tokens.length) →
        (CommentIndex.ofTree tree).planOf tokens = tree.plan tokens) ∧
      ∃ document, Document.ofText? limits d options text = .ok document ∧ document.lexed = lex d text ∧
        document.tree.places.Nodup ∧
        (∀ comment ∈ document.tokens, comment.isComment →
          document.Belongs comment ∧ document.tree.held.count comment = 1) ∧
        ∀ node ∈ document.tree.subtrees, node.CommentsInOrder := by
  refine ⟨fun tree nodup => ⟨CommentIndex.ofTree_of nodup, fun _ => (CommentIndex.ofTree_of nodup).plan_eq⟩, ?_⟩
  obtain ⟨document, parses, parsed⟩ := Document.ofText?_ok limits d options text
  obtain ⟨tree, lost, kept⟩ := parsed.kept
  refine ⟨document, parses, parsed.lexed_eq, ?_, fun comment listed isComment => ⟨kept.belongs listed isComment, ?_⟩,
    fun node member => ?_⟩
  · rw [kept.attached]
    exact kept.covers.nodup_places
  · rw [kept.attached]
    exact kept.covers.count_comment listed isComment
  · have listed := document.tree.subtrees_perm.mem_iff.2 member
    rw [kept.attached] at listed
    exact kept.covers.commentsInOrder node listed

end TolerantParser
