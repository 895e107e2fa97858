import Mathlib.Data.List.Chain
import TolerantParser.Proofs.Lexer.Layout
import TolerantParser.Proofs.Printer.Attached
import TolerantParser.Proofs.Printer.Restyled

/-!
Block layout in what is written. Comments may change places with layout, but the tokens of a tree, layout among them,
are written in the order of the document. So if no layout stands right behind a comma in the document, none is written
there, and preferences do not put blanks in front of it.
-/

namespace TolerantParser

open TokenStream (significant)

variable {markings : Markings} {plan : CommentPlan} {around inner : Option Bounds} {node tree : Node}
  {tokens : List Cell}

/-! ### The order of tokens -/

/-- A part begins at one of some places, and its tokens are at these. Its comments may be anywhere. -/
structure PutAt (places : List Nat) (part : Nat × List Cell) : Prop where
  first : part.1 ∈ places
  tokens : ∀ cell ∈ significant part.2, cell.index ∈ places

theorem putAt_single (cell : Cell) : PutAt [cell.index] (cell.index, [cell]) :=
  ⟨List.mem_singleton_self _, fun other member => by
    rw [List.mem_singleton.1 (List.mem_filter.1 member).1]
    exact List.mem_singleton_self _⟩

theorem PutAt.inStep {places more : List Nat} {part next : Nat × List Cell} (here : PutAt places part)
    (there : PutAt more next) (apart : Apart places more) : InStep (·.kind != .comment) part next := by
  have precedes : ∀ {places more part next}, PutAt places part → PutAt more next →
      (∀ place ∈ places, ∀ other ∈ more, place < other) → InStep (·.kind != .comment) part next :=
    fun here there before => by
      refine ⟨fun _ cell own other found => before _ (here.tokens cell own) _ (there.tokens other found),
        fun late => ?_⟩
      exact absurd (before _ here.first _ there.first) (Nat.not_lt.2 late)
  rcases apart with before | behind
  · exact precedes here there before
  · exact (precedes there here fun place member other listed => behind other listed place member).symm

/-- The tokens of a node with its comments are written in the order of the document. -/
structure Writes (plan : CommentPlan) (around : Option Bounds) (node : Node) : Prop where
  least : Least node.places (node.commented plan around).written.1
  owned : ∀ cell ∈ significant (node.commented plan around).written.2, cell ∈ node.ownedTokens
  ordered : (significant (node.commented plan around).written.2).Pairwise (·.index < ·.index)

theorem Writes.putAt {child : Node} {part : Nat × List Cell} (writes : Writes plan inner child)
    (here : childPart plan inner child = some part) : PutAt child.places part := by
  obtain ⟨least, owned, -⟩ := writes
  rw [childPart_eq here] at least owned
  exact ⟨least.1, fun cell member => List.mem_map_of_mem (owned cell member)⟩

section

variable (hangs : Hangs markings plan)

include hangs

theorem comment_of_insideOf {cells : List Cell} : ∀ cell ∈ plan.insideOf cells, cell.kind = .comment := by
  intro cell member
  obtain ⟨token, -, inside⟩ := mem_insideOf.1 member
  exact hangs.comment _ cell inside

theorem owned_parts (children : ∀ child ∈ node.children.nodes, Writes plan inner child) :
    ∀ cell ∈ significant ((byPlace (commentedParts plan inner node)).flatMap Prod.snd), cell ∈ node.ownedTokens := by
  intro cell member
  obtain ⟨listed, plain⟩ := List.mem_filter.1 member
  obtain ⟨part, among, inside⟩ := List.mem_flatMap.1 listed
  rcases List.mem_append.1 ((List.mergeSort_perm _ _).mem_iff.1 among) with mine | below
  · obtain ⟨other, here, rfl⟩ := List.mem_map.1 mine
    obtain rfl := List.mem_singleton.1 inside
    rcases List.mem_append.1 here with token | added
    · exact Node.owned_of_mem token
    · simp [comment_of_insideOf hangs cell added] at plain
  · obtain ⟨child, found, here⟩ := List.mem_filterMap.1 below
    have owned := (children child found).owned cell
    rw [childPart_eq here] at owned
    exact Node.owned_below found (owned (List.mem_filter.2 ⟨inside, plain⟩))

theorem inStep_parts (separate : node.Separate) (children : ∀ child ∈ node.children.nodes, Writes plan inner child) :
    (commentedParts plan inner node).Pairwise (InStep (·.kind != .comment)) := by
  obtain ⟨nodup, apart, own, -⟩ := separate
  have unseen : ∀ cell ∈ plan.insideOf node.tokens, [cell].filter (·.kind != .comment) = [] := fun cell member => by
    simp [comment_of_insideOf hangs cell member]
  rw [commentedParts, List.map_append, List.append_assoc, List.pairwise_append, List.pairwise_append]
  refine ⟨?_, ⟨?_, ?_, fun part mine next _ => ?_⟩, fun part mine next others => ?_⟩
  · rw [List.pairwise_map]
    rw [List.nodup_iff_pairwise_ne, List.pairwise_map] at nodup
    refine nodup.imp fun {cell other} differs => (putAt_single cell).inStep (putAt_single other) ?_
    rcases Nat.lt_or_gt_of_ne differs with before | behind
    · exact .inl (by simpa using before)
    · exact .inr (by simpa using behind)
  · rw [List.pairwise_map]
    exact List.pairwise_iff_forall_sublist.2 fun {cell _} both =>
      inStep_of_unseen (unseen cell (both.subset List.mem_cons_self)) _
  · rw [List.pairwise_filterMap]
    exact apart.imp_of_mem fun {a b} first second apart part here next there =>
      ((children a first).putAt here).inStep ((children b second).putAt there) apart
  · obtain ⟨cell, member, rfl⟩ := List.mem_map.1 mine
    exact inStep_of_unseen (unseen cell member) _
  · obtain ⟨cell, member, rfl⟩ := List.mem_map.1 mine
    rcases List.mem_append.1 others with added | below
    · obtain ⟨other, comment, rfl⟩ := List.mem_map.1 added
      exact (inStep_of_unseen (unseen other comment) _).symm
    · obtain ⟨child, listed, here⟩ := List.mem_filterMap.1 below
      exact (putAt_single cell).inStep ((children child listed).putAt here) (own cell member child listed)

theorem significant_parts_ordered (separate : node.Separate)
    (children : ∀ child ∈ node.children.nodes, Writes plan inner child) :
    (significant ((byPlace (commentedParts plan inner node)).flatMap Prod.snd)).Pairwise (·.index < ·.index) := by
  refine ordered_byPlace (fun part member => ?_) (inStep_parts hangs separate children)
  rcases List.mem_append.1 member with mine | below
  · obtain ⟨cell, -, rfl⟩ := List.mem_map.1 mine
    exact List.Pairwise.sublist List.filter_sublist (List.pairwise_singleton _ _)
  · obtain ⟨child, listed, here⟩ := List.mem_filterMap.1 below
    have ordered := (children child listed).ordered
    rwa [childPart_eq here] at ordered

theorem writes_commented (fits : Fits markings node) (sided : Sided markings node)
    (outside : Around around node) : Writes plan around node := by
  induction node using Node.of_children generalizing around with
  | step node ih =>
    have below : ∀ child ∈ node.children.nodes, Writes plan node.bounds child := fun child member =>
      ih child member (fits.below member) (sided.below member) (around_bounds member)
    have owned := owned_parts hangs below
    have ordered := significant_parts_ordered hangs fits.separate below
    have bare := fits.bare node (Node.mem_listed.2 (.inl rfl))
    have comments : ∀ (spot : Nat → Spot) (side : Bounds → Nat) (lists : Array (List Cell)),
        (∀ mark, plan.commentsIn (spot mark) = lists.getD mark []) →
        significant (commentsAt lists side around node.bounds) = [] := fun spot side lists same =>
      TokenStream.significant_eq_nil fun cell member => by
        obtain ⟨bounds, -, -, listed⟩ := mem_commentsAt member
        exact hangs.comment (spot _) cell (same _ ▸ listed)
    have written : significant (node.commented plan around).written.2 =
        significant ((byPlace (commentedParts plan node.bounds node)).flatMap Prod.snd) := by
      rw [Node.written_eq, parts_commented, Node.before_commented, Node.after_commented, bare.1, bare.2,
        List.nil_append,
        List.nil_append, TokenStream.significant_append, TokenStream.significant_append,
        comments .before _ _ fun _ => rfl, comments .after _ _ fun _ => rfl, List.nil_append, List.append_nil]
    exact ⟨(prints_commented hangs fits sided outside).least, by rwa [written], by rwa [written]⟩

end

/-- The tokens of a tree with the comments of its document are written in the order of the document. -/
theorem Node.Over.significant_ordered (covers : tree.Over tokens) :
    (significant (tree.attachComments tokens).written.2).Pairwise (·.index < ·.index) := by
  obtain ⟨before, after⟩ := covers.bare tree (Node.mem_listed.2 (.inl rfl))
  have top : significant (tree.plan tokens).document = [] := TokenStream.significant_eq_nil (covers.hangs.comment .top)
  rw [written_attachComments, before, after, List.nil_append, List.append_nil, TokenStream.significant_append, top,
    List.nil_append]
  exact significant_parts_ordered covers.hangs covers.separate fun child member =>
    writes_commented covers.hangs (covers.fits.below member) (covers.sided member) (around_none child)

/-! ### Behind commas -/

/-- No block begins or ends right behind a comma. -/
def OffCommas (kinds : List TokenKind) : Prop := kinds.IsChain fun kind next => kind = .comma → next.isLayout = false

theorem Laid.offCommas {level : Nat} {kinds : List TokenKind} (laid : Laid level kinds) : OffCommas kinds := by
  have front : ∀ {kind rest}, kind ≠ .comma → OffCommas rest → OffCommas (kind :: rest) := fun other later =>
    List.isChain_cons.2 ⟨fun _ _ comma => absurd comma other, later⟩
  induction laid with
  | last => exact List.isChain_singleton _
  | opens _ ih | closes _ ih | line _ ih => exact front (by decide) ih
  | inline _ follows _ ih =>
    refine List.isChain_cons_cons.2 ⟨fun _ => ?_, ih⟩
    rcases follows with inline | rfl
    · exact TokenKind.plain_of_isInline inline
    · rfl

namespace Prefs

variable {prefs : Prefs} {previous : Option TokenKind}

/-- Behind a token of kind `previous`, no layout is written behind a comma, and none has a text. -/
inductive Settled : Option TokenKind → List Token → Prop
  | nil {previous : Option TokenKind} : Settled previous []
  | plain {previous : Option TokenKind} {token : Token} {rest : List Token} : token.kind.isLayout = false →
      Settled (some token.kind) rest → Settled previous (token :: rest)
  | layout {previous : Option TokenKind} {token : Token} {rest : List Token} : token.kind.isLayout →
      token.text = "" ∧ token.lead = "" → previous ≠ some .comma → Settled previous rest →
      Settled previous (token :: rest)

theorem settled_of_offCommas {tokens : List Token}
    (bare : ∀ token ∈ tokens, token.kind.isLayout → token.text = "" ∧ token.lead = "")
    (apart : OffCommas (Scan.met tokens))
    (first : previous = some .comma → ∀ next ∈ (Scan.met tokens).head?, next.isLayout = false) :
    Settled previous tokens := by
  induction tokens generalizing previous with
  | nil => exact .nil
  | cons token rest ih =>
    rw [List.forall_mem_cons] at bare
    by_cases comment : token.kind = .comment
    · have same : Scan.met (token :: rest) = Scan.met rest := by simp [Scan.met, comment]
      refine .plain (by rw [comment]; rfl) (ih bare.2 (same ▸ apart) fun comma => ?_)
      rw [comment] at comma
      cases comma
    · rw [Scan.met_cons rest comment] at apart first
      obtain ⟨next, later⟩ := List.isChain_cons.1 apart
      by_cases layout : token.kind.isLayout
      · have other : previous ≠ some .comma := fun comma => by
          rw [first comma token.kind rfl] at layout
          cases layout
        exact .layout layout (bare.1 layout) other (ih bare.2 later fun comma => absurd comma other)
      · refine .plain (by simpa using layout) (ih bare.2 later fun comma kind here => ?_)
        exact next kind here (Option.some.inj comma)

/-- Layout that is not behind a comma is not seen in the text. -/
theorem Settled.dress_plain {tokens : List Token} (settled : Settled previous tokens) :
    prefs.dress previous tokens = prefs.dress previous (tokens.filter (!·.kind.isLayout)) := by
  induction settled with
  | nil => rfl
  | @plain _ token rest plain _ ih =>
    rw [List.filter_cons_of_pos (by simp [plain]), dress, dress, behind, if_neg (by simp [plain]), ih]
  | @layout previous token rest layout bare other _ ih =>
    have only : ∀ one ∈ [token], one.kind.isLayout ∧ one.text = "" ∧ one.lead = "" :=
      List.forall_mem_singleton.2 ⟨layout, bare⟩
    rw [List.filter_cons_of_neg (by simp [layout]), ← ih]
    exact dress_layout other only rest

end Prefs

end TolerantParser
