import TolerantParser.Proofs.Printer.Written

/-!
Printing a tree with the comments of its document. Whatever the tree leaves out, the text is that of the
tokens it has and of all comments, in the order of the document.
-/

namespace TolerantParser

variable {limits : Limits} {tree : Node} {tokens : List Cell}

/-! ### The markings of a document -/

/-- The marks of a tree over a document. -/
def Node.markings (tree : Node) (tokens : List Cell) : Markings :=
  { marks := tree.marks, starts := tree.starts tokens, ends := tree.ends tokens }

theorem mem_contents {plan : CommentPlan} {spot : Spot} {cell : Cell}
    (member : cell ∈ plan.commentsIn spot) : cell ∈ plan.contents := by
  have listed : ∀ (lists : Array (List Cell)) (mark : Nat), cell ∈ lists.getD mark [] →
      cell ∈ lists.toList.flatten := by
    intro lists mark inside
    rw [Array.getD_eq_getD_getElem?] at inside
    cases found : lists[mark]? with
    | none => simp [found] at inside
    | some list =>
      rw [found] at inside
      exact List.mem_flatten.2 ⟨list, Array.mem_toList_iff.2 (Array.mem_of_getElem? found), inside⟩
  simp only [CommentPlan.contents, List.mem_append]
  cases spot with
  | top => exact .inl (.inl (.inl member))
  | before mark => exact .inl (.inl (.inr (listed _ mark member)))
  | after mark => exact .inl (.inr (listed _ mark member))
  | inside mark => exact .inr (listed _ mark member)

theorem Node.Over.mark_significant (covers : tree.Over tokens) {cell : Cell} (listed : cell ∈ tokens)
    (mark : cell.index ∈ tree.marks) : cell ∈ tree.ownedTokens ∧ cell.kind.isInsignificant = false := by
  obtain ⟨other, owned, significant, same⟩ := mem_marksOf.1 mark
  obtain rfl := CommentPlan.eq_of_index covers.numbered (covers.owned other owned) listed same
  exact ⟨owned, significant⟩

theorem plain_of_significant {kind : TokenKind} (significant : kind.isInsignificant = false) :
    kind.isLayout = false ∧ kind ≠ .comment := by
  cases kind <;> first | exact ⟨rfl, by decide⟩ | cases significant

theorem Node.Over.hangs (covers : tree.Over tokens) : Hangs (tree.markings tokens) (tree.plan tokens) := by
  have planned := covers.planned
  have comment : ∀ spot, ∀ cell ∈ (tree.plan tokens).commentsIn spot,
      cell ∈ tokens ∧ cell.kind = .comment := by
    intro spot cell member
    obtain ⟨listed, comment⟩ := List.mem_filter.1 (planned.whole.mem_iff.1 (mem_contents member))
    exact ⟨listed, eq_of_beq comment⟩
  refine ⟨planned.goes, planned.ordered, fun spot cell member => (comment spot cell member).2,
    fun spot cell member mark => ?_⟩
  obtain ⟨listed, kind⟩ := comment spot cell member
  exact (plain_of_significant (covers.mark_significant listed mark).2).2 kind

theorem Node.Over.fits (covers : tree.Over tokens) : Fits (tree.markings tokens) tree where
  separate := covers.separate
  bare := covers.bare
  within := List.Subset.refl _
  plain := covers.plain
  consistent cell owned mark :=
    (plain_of_significant (covers.mark_significant (covers.owned cell owned) mark).2).1

theorem Node.Over.sided (covers : tree.Over tokens) {child : Node} (member : child ∈ tree.children.nodes) :
    Sided (tree.markings tokens) child := by
  have below : ∀ mark ∈ child.marks, mark < tokens.length := by
    intro mark own
    obtain ⟨cell, owned, -, rfl⟩ := mem_marksOf.1 (mem_marks.2 (.inr ⟨child, member, own⟩))
    have listed := List.mem_map_of_mem (f := Cell.index) (covers.owned cell owned)
    rwa [covers.numbered, List.mem_range] at listed
  intro bounds listed
  have all : bounds ∈ tree.children.outlines.all := by
    rw [Children.all_outlines]
    exact List.mem_flatMap.2 ⟨child, member, listed⟩
  have marks := mem_outline child bounds listed
  exact ⟨CommentPlan.getD_marked.2 ⟨below _ marks.1, List.mem_map.2 ⟨bounds, all, rfl⟩⟩,
    CommentPlan.getD_marked.2 ⟨below _ marks.2, List.mem_map.2 ⟨bounds, all, rfl⟩⟩⟩

theorem Node.Over.prints (covers : tree.Over tokens) : ∀ child ∈ tree.children.nodes,
    Prints (tree.markings tokens) (tree.plan tokens) none child := fun child member =>
  prints_commented covers.hangs (covers.fits.below member) (covers.sided member) (around_none child)

/-! ### All is written -/

theorem held_commented_nil {plan : CommentPlan} {node : Node} (bare : node.Bare)
    (separate : node.Separate) {around : Option Bounds} (outside : Around around node)
    (nothing : node.places = []) : (node.commented plan around).held = [] := by
  have owned : node.ownedTokens = [] := List.map_eq_nil_iff.1 nothing
  have none : ∀ side, IsEnd side → node.takes side around = [] := by
    intro side isEnd
    refine List.eq_nil_iff_forall_not_mem.2 fun mark member => ?_
    have mine := marks_of_sides isEnd node mark (((takes_spec isEnd separate outside).2 mark).1 member).1
    have := places_of_marks mine
    simp [nothing] at this
  refine List.perm_nil.1 ((held_commented plan bare around).trans ?_)
  rw [owned, brought, nothing, none _ isEnd_first, none _ isEnd_last]
  exact .refl _

/-- The parts of a node are all that it and the nodes below it hold, but for its own comments. -/
theorem flatMap_parts_perm (plan : CommentPlan) {inner : Option Bounds} {node : Node}
    (children : ∀ child ∈ node.children.nodes, ((childPart plan inner child).toList.flatMap Prod.snd).Perm
      (child.commented plan inner).held) :
    ((byPlace (commentedParts plan inner node)).flatMap Prod.snd).Perm
      (node.tokens ++ plan.insideOf node.tokens ++
        (node.children.nodes.map (Node.commented plan inner)).flatMap Node.held) := by
  refine ((List.mergeSort_perm _ _).flatMap_right _).trans ?_
  rw [commentedParts, List.flatMap_append]
  refine List.Perm.append (List.Perm.of_eq ?_) ?_
  · rw [List.flatMap_map]
    simp
  · rw [List.filterMap_eq_flatMap_toList, List.flatMap_assoc, List.flatMap_map]
    exact List.Perm.flatMap_left _ children

/-- What is written of a node is what it and the nodes below it hold, if that is so for its children. -/
theorem Node.written_perm (plan : CommentPlan) (around : Option Bounds) {node : Node}
    (children : ∀ child ∈ node.children.nodes, ((childPart plan node.bounds child).toList.flatMap Prod.snd).Perm
      (child.commented plan node.bounds).held) :
    (node.commented plan around).written.2.Perm (node.commented plan around).held := by
  have parts := flatMap_parts_perm plan children
  refine List.Perm.trans ?_ (Node.held_perm _).symm
  rw [Node.written_eq, parts_commented, Node.holds, Node.tokens_commented, Node.nodes_commented, List.perm_iff_count]
  intro cell
  have same := parts.count_eq cell
  simp only [List.count_append] at same ⊢
  omega

/-- A node that is written nowhere holds nothing. -/
theorem Node.held_of_unwritten {markings : Markings} {plan : CommentPlan} (hangs : Hangs markings plan) {node : Node}
    (fits : Fits markings node) (sided : Sided markings node) {around : Option Bounds} (outside : Around around node)
    (unwritten : (node.commented plan around).written.1 = none) : (node.commented plan around).held = [] := by
  have least := (prints_commented hangs fits sided outside).least
  rw [unwritten] at least
  exact held_commented_nil fits.bare fits.separate outside least

theorem childPart_perm {markings : Markings} {plan : CommentPlan} (hangs : Hangs markings plan) {node : Node}
    (fits : Fits markings node) (sided : Sided markings node) {around : Option Bounds} (outside : Around around node) :
    ((childPart plan around node).toList.flatMap Prod.snd).Perm (node.commented plan around).held := by
  induction node using Node.of_children generalizing around with
  | step node ih =>
    rw [childPart]
    cases first : (node.commented plan around).written.1 with
    | none =>
      rw [Node.held_of_unwritten hangs fits sided outside first]
      exact .refl _
    | some place =>
      rw [Option.map_some, Option.toList_some, List.flatMap_singleton]
      exact Node.written_perm plan around fun child member =>
        ih child member (fits.below member) (sided.below member) (around_bounds member)

theorem parts_attachComments (tree : Node) (tokens : List Cell) :
    (tree.attachComments tokens).parts = commentedParts (tree.plan tokens) none tree := by
  rw [Node.parts, Node.nodes_attachComments, List.filterMap_map]
  rfl

theorem written_attachComments (tree : Node) (tokens : List Cell) :
    (tree.attachComments tokens).written.2 = tree.info.before ++ (tree.plan tokens).document ++
      (byPlace (commentedParts (tree.plan tokens) none tree)).flatMap Prod.snd ++ tree.info.after := by
  rw [Node.written_eq, parts_attachComments]
  rfl

/-- What is written of a tree with comments is what its nodes hold. -/
theorem Node.Over.written_perm (covers : tree.Over tokens) :
    (tree.attachComments tokens).written.2.Perm (tree.attachComments tokens).held := by
  have below := flatMap_parts_perm (tree.plan tokens) fun child member =>
    childPart_perm covers.hangs (covers.fits.below member) (covers.sided member)
      (around_none child)
  refine List.Perm.trans ?_ (Node.held_perm _).symm
  rw [written_attachComments, Node.holds_attachComments, Node.nodes_attachComments,
    List.perm_iff_count]
  intro cell
  have same := below.count_eq cell
  simp only [List.count_append] at same ⊢
  omega

/-! ### In the order of the document -/

/-- Comments before the document stand before all that is tied to a mark. -/
theorem Tied.behind_top {markings : Markings} {around : Option Bounds} {own : List Nat} {place other : Nat}
    (tied : Tied markings around own place) (within : own ⊆ markings.marks)
    (goes : Goes markings.marks markings.starts markings.ends other .top) : other < place := by
  obtain ⟨first, notStarting⟩ : (∀ mark ∈ markings.marks, other < mark) ∧
      ∀ next, NextMark markings.marks other next → markings.starts next = false := by
    cases goes with
    | top first notStarting => exact ⟨first, notStarting⟩
  cases tied with
  | on here => exact first place (within here)
  | inside _ _ _ _ last => exact Nat.lt_trans (first _ last.listed) last.before
  | after _ _ last => exact Nat.lt_trans (first _ last.listed) last.before
  | before here _ next starts =>
    by_contra early
    have same : NextMark markings.marks other _ := ⟨next.listed, first _ next.listed, fun mark listed behind =>
      next.first mark listed (Nat.lt_of_le_of_lt (Nat.le_of_not_lt early) behind)⟩
    simp [notStarting _ same] at starts

theorem Node.Over.ordered (covers : tree.Over tokens) :
    (visible (tree.attachComments tokens).written.2).Pairwise (·.index < ·.index) := by
  obtain ⟨before, after⟩ := covers.bare tree (Node.mem_listed.2 (.inl rfl))
  rw [written_attachComments, before, after, List.nil_append, List.append_nil, visible_append,
    List.pairwise_append]
  refine ⟨(covers.hangs.ordered .top).sublist List.filter_sublist,
    ordered_parts covers.hangs covers.fits covers.prints, fun comment early cell late => ?_⟩
  have tied := tied_parts covers.hangs covers.fits covers.prints none
    (fun _ _ _ _ => ⟨fun free => free, fun free => free⟩) cell late
  exact tied.behind_top (List.Subset.refl _) (covers.hangs.goes .top comment (mem_visible.1 early).1)

/-- What is seen of a tree with comments are its tokens and all comments, as they stand in the document. -/
theorem visible_attachComments (covers : tree.Over tokens) :
    visible (tree.attachComments tokens).written.2 =
      visible (tokens.filter fun cell => cell.isComment || decide (cell ∈ tree.ownedTokens)) := by
  have numbers := pairwise_index covers.numbered
  have nodup : tokens.Nodup := numbers.imp fun less => ne_of_apply_ne Cell.index (Nat.ne_of_lt less)
  have held : (tree.ownedTokens ++ tokens.filter Cell.isComment).Perm
      (tokens.filter fun cell => cell.isComment || decide (cell ∈ tree.ownedTokens)) := by
    refine (List.perm_ext_iff_of_nodup ?_ (nodup.filter _)).2 fun cell => ?_
    · rw [List.nodup_append']
      refine ⟨.of_map _ covers.separate.nodup_places, nodup.filter _, fun cell owned comment => ?_⟩
      exact covers.plain cell owned (eq_of_beq (List.mem_filter.1 comment).2)
    · simp only [List.mem_append, List.mem_filter, Bool.or_eq_true, decide_eq_true_eq]
      constructor
      · rintro (owned | comment)
        · exact ⟨covers.owned cell owned, .inr owned⟩
        · exact ⟨comment.1, .inl comment.2⟩
      · rintro ⟨listed, comment | owned⟩
        · exact .inr ⟨listed, comment⟩
        · exact .inl owned
  have same := ((covers.written_perm.trans (held_attachComments covers)).trans held).filter
    (!·.kind.isLayout)
  refine same.eq_of_pairwise (fun a b _ _ less more => ?_) covers.ordered ?_
  · exact absurd (Nat.lt_trans less more) (Nat.lt_irrefl _)
  · exact (numbers.sublist List.filter_sublist).sublist List.filter_sublist

/-! ### The text -/

/-- The text of tokens that are written as they are. -/
def textOf (cells : List Cell) : String := String.join (cells.map fun cell => cell.written)

theorem writeToken_keep (previous : Option TokenKind) (token : Token) :
    Prefs.keep.writeToken previous token = token.written := by
  have lead : Prefs.keep.leadOf previous token = token.lead := by
    unfold Prefs.leadOf
    split <;> rfl
  rw [Prefs.writeToken, lead]
  rfl

theorem foldl_writeToken_keep (cells : List Cell) (text : String) (previous : Option TokenKind) :
    (cells.foldl (fun (text, previous) cell => (text ++ Prefs.keep.writeToken previous cell.toToken,
      if cell.kind.isLayout then previous else some cell.kind)) (text, previous)).1 =
      cells.foldl (fun text cell => text ++ cell.written) text := by
  induction cells generalizing text previous with
  | nil => rfl
  | cons cell rest ih => rw [List.foldl_cons, List.foldl_cons, ih, writeToken_keep]

theorem write_keep (cells : List Cell) : Prefs.keep.write cells = textOf cells := by
  rw [Prefs.write, foldl_writeToken_keep, textOf, String.join_eq_foldl, List.foldl_map]

theorem toList_textOf (cells : List Cell) :
    (textOf cells).toList = cells.flatMap fun cell => cell.written.toList := by
  rw [textOf, String.toList_join, List.flatMap_map]

/-- Layout that takes no room is not seen. -/
theorem textOf_visible {cells : List Cell} (bare : ∀ cell ∈ cells, cell.kind.isLayout → cell.written = "") :
    textOf (visible cells) = textOf cells := by
  rw [← String.toList_inj, toList_textOf, toList_textOf]
  induction cells with
  | nil => rfl
  | cons cell rest ih =>
    have later := ih fun other member => bare other (by simp [member])
    by_cases layout : cell.kind.isLayout
    · rw [visible, List.filter_cons_of_neg (by simp [layout]), List.flatMap_cons,
        bare cell (by simp) layout]
      exact later
    · rw [visible, List.filter_cons_of_pos (by simpa using layout), List.flatMap_cons, List.flatMap_cons]
      exact congrArg _ later

theorem Node.print?_keep {node : Node} {text : String} (prints : node.print? limits .keep = .ok text) :
    text = textOf node.written.2 := by
  rw [Node.print?, Node.requireDepth] at prints
  split at prints
  · exact ((write_keep _).symm.trans (Except.ok.inj prints)).symm
  · cases prints

/-- A tree with the comments of its document is printed as its tokens and all comments, in the order of the
document. -/
theorem print_attachComments (covers : tree.Over tokens)
    (bare : ∀ cell ∈ tokens, cell.kind.isLayout → cell.written = "") {text : String}
    (prints : (tree.attachComments tokens).print? limits .keep = .ok text) :
    text = textOf (tokens.filter fun cell => cell.isComment || decide (cell ∈ tree.ownedTokens)) := by
  have all : ∀ cell ∈ (tree.attachComments tokens).written.2, cell ∈ tokens := by
    intro cell member
    have held := (covers.written_perm.trans (held_attachComments covers)).mem_iff.1 member
    rcases List.mem_append.1 held with owned | comment
    · exact covers.owned cell owned
    · exact (List.mem_filter.1 comment).1
  rw [Node.print?_keep prints, ← textOf_visible fun cell member => bare cell (all cell member),
    visible_attachComments covers, textOf_visible fun cell member =>
    bare cell (List.mem_filter.1 member).1]

end TolerantParser
