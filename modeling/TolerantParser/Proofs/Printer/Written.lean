import TolerantParser.Printer.Basic
import TolerantParser.Proofs.Printer.Hanging

/-!
The order in which a tree is written. A node is written part by part, each of its own tokens and each child
a part, in the order of their first places. Below and around the node at hand all that counts is what the
cells are tied to, so a tree with comments is written in the order of the document; only layout, which is
not seen, may change places with comments.
-/

namespace TolerantParser

/-! ### Parts -/

/-- The tokens that can be seen. -/
def visible (cells : List Cell) : List Cell := cells.filter (!·.kind.isLayout)

@[simp] theorem visible_append (cells more : List Cell) :
    visible (cells ++ more) = visible cells ++ visible more := List.filter_append ..

theorem mem_visible {cells : List Cell} {cell : Cell} :
    cell ∈ visible cells ↔ cell ∈ cells ∧ cell.kind.isLayout = false := by
  simp [visible]

/-- The parts that a node is written as, besides its comments. -/
def Node.parts (node : Node) : List (Nat × List Cell) :=
  node.tokens.map (fun cell => (cell.index, [cell])) ++
  node.children.nodes.filterMap fun child => child.written.1.map (·, child.written.2)

theorem Children.written_eq (children : Children) : children.written =
    children.nodes.filterMap fun child => child.written.1.map (·, child.written.2) := by
  induction children using Children.induction with
  | nil => rfl
  | gap _ rest ih => exact ih
  | cons _ node rest ih =>
    rw [Children.written, Children.nodes, List.filterMap_cons, ← ih]
    rcases node.written with ⟨_ | first, cells⟩ <;> rfl

theorem Node.written_eq (node : Node) : node.written =
    ((byPlace node.parts).head?.map Prod.fst,
      node.info.before ++ (byPlace node.parts).flatMap Prod.snd ++ node.info.after) := by
  cases node with
  | mk info children =>
    rw [Node.written, children.written_eq]
    rfl

/-- What is seen of the one part lies before what is seen of the other, if the one comes first. -/
def Precedes (seen : Cell → Bool) (part next : Nat × List Cell) : Prop :=
  part.1 ≤ next.1 → ∀ cell ∈ part.2.filter seen, ∀ other ∈ next.2.filter seen, cell.index < other.index

/-- Two parts lie in the order of their first places. -/
def InStep (seen : Cell → Bool) (part next : Nat × List Cell) : Prop :=
  Precedes seen part next ∧ Precedes seen next part

/-- A part of which nothing is seen is in step with all others. -/
theorem inStep_of_unseen {seen : Cell → Bool} {part : Nat × List Cell} (unseen : part.2.filter seen = [])
    (next : Nat × List Cell) : InStep seen part next := by
  rw [InStep, Precedes, Precedes, unseen]
  exact ⟨fun _ => List.forall_mem_nil _, fun _ _ _ => List.forall_mem_nil _⟩

theorem pairwise_byPlace (parts : List (Nat × List Cell)) :
    (byPlace parts).Pairwise fun part next => part.1 ≤ next.1 := by
  have sorted : (byPlace parts).Pairwise fun part next => decide (part.1 ≤ next.1) = true :=
    List.pairwise_mergeSort (fun a b c first second => by simp only [decide_eq_true_eq] at *; omega)
      (fun a b => by simp only [Bool.or_eq_true, decide_eq_true_eq]; omega) parts
  exact sorted.imp fun le => of_decide_eq_true le

/-- Parts that lie in the order of their first places are written in document order. -/
theorem ordered_byPlace {seen : Cell → Bool} {parts : List (Nat × List Cell)}
    (each : ∀ part ∈ parts, (part.2.filter seen).Pairwise (·.index < ·.index))
    (pairs : parts.Pairwise (InStep seen)) :
    (((byPlace parts).flatMap Prod.snd).filter seen).Pairwise (·.index < ·.index) := by
  have sorted := List.mergeSort_perm parts fun a b => decide (a.1 ≤ b.1)
  have pairs : (byPlace parts).Pairwise (InStep seen) := sorted.symm.pairwise pairs fun both => both.symm
  rw [List.filter_flatMap, List.pairwise_flatMap]
  refine ⟨fun part member => each part (sorted.mem_iff.1 member), ?_⟩
  exact ((pairwise_byPlace parts).and pairs).imp fun both => both.2.1 both.1

/-! ### Cells in their places -/

variable {markings : Markings} {plan : CommentPlan} {around outer : Option Bounds}

/-- The plan has comments where they go in the markings. -/
structure Hangs (markings : Markings) (plan : CommentPlan) : Prop where
  goes : ∀ spot, ∀ cell ∈ plan.commentsIn spot,
    Goes markings.marks markings.starts markings.ends cell.index spot
  ordered : ∀ spot, (plan.commentsIn spot).Pairwise (·.index < ·.index)
  comment : ∀ spot, ∀ cell ∈ plan.commentsIn spot, cell.kind = .comment
  fresh : ∀ spot, ∀ cell ∈ plan.commentsIn spot, cell.index ∉ markings.marks

/-- A part of a tree over the document of the markings, without comments. -/
structure Fits (markings : Markings) (node : Node) : Prop where
  separate : node.Separate
  bare : node.Bare
  within : node.marks ⊆ markings.marks
  plain : ∀ cell ∈ node.ownedTokens, cell.kind ≠ .comment
  consistent : ∀ cell ∈ node.ownedTokens, cell.index ∈ markings.marks → cell.kind.isLayout = false

theorem Fits.below {node child : Node} (fits : Fits markings node) (member : child ∈ node.children.nodes) :
    Fits markings child where
  separate := by
    obtain ⟨-, -, -, below⟩ := fits.separate
    exact below child member
  bare := fits.bare.below member
  within := fun _ mark => fits.within (mem_marks.2 (.inr ⟨child, member, mark⟩))
  plain cell owned := fits.plain cell (Node.owned_below member owned)
  consistent cell owned := fits.consistent cell (Node.owned_below member owned)

/-- Nodes start and end where the markings says so. -/
def Sided (markings : Markings) (node : Node) : Prop :=
  ∀ bounds ∈ node.outline.all, markings.starts bounds.first ∧ markings.ends bounds.last

theorem Sided.below {node child : Node} (sided : Sided markings node)
    (member : child ∈ node.children.nodes) : Sided markings child := fun bounds listed =>
  sided bounds (Node.all_outline node ▸ List.mem_append_right _ (List.mem_flatMap.2 ⟨child, member, listed⟩))

theorem Sided.own {node : Node} (sided : Sided markings node) {bounds : Bounds}
    (here : node.bounds = some bounds) : markings.starts bounds.first ∧ markings.ends bounds.last :=
  sided bounds <| by
    rw [Node.all_outline, here]
    exact List.mem_cons_self

theorem Tied.widen {own more : List Nat} {place : Nat} (tied : Tied markings around own place)
    (within : own ⊆ more)
    (first : ∀ mark ∈ own, Frees Bounds.first around mark → Frees Bounds.first outer mark)
    (last : ∀ mark ∈ own, Frees Bounds.last around mark → Frees Bounds.last outer mark) :
    Tied markings outer more place := by
  cases tied with
  | on here => exact .on (within here)
  | before here fresh next starts free => exact .before (within here) fresh next starts (first _ here free)
  | inside here fresh next starts last ends => exact .inside (within here) fresh next starts last ends
  | after here fresh found ends next free =>
    exact .after (within here) fresh found ends next (last _ here free)

theorem mem_insideOf {tokens : List Cell} {cell : Cell} : cell ∈ plan.insideOf tokens ↔
    ∃ token ∈ tokens, cell ∈ plan.commentsIn (.inside token.index) := by
  rw [(insideOf_perm plan tokens).mem_iff, List.mem_flatMap]
  simp [CommentPlan.commentsIn]

/-- Nodes get no tokens but comments, each in front of a token of theirs. -/
theorem Node.mem_ownedTokens_commented {node : Node} {cell : Cell} : cell ∈ (node.commented plan around).ownedTokens ↔
    cell ∈ node.ownedTokens ∨ ∃ token ∈ node.ownedTokens, cell ∈ plan.commentsIn (.inside token.index) := by
  induction node using Node.of_children generalizing around with
  | step node ih =>
    have below : (∃ child ∈ node.children.nodes, cell ∈ (child.commented plan node.bounds).ownedTokens) ↔
        ∃ child ∈ node.children.nodes, cell ∈ child.ownedTokens ∨
          ∃ token ∈ child.ownedTokens, cell ∈ plan.commentsIn (.inside token.index) :=
      exists_congr fun child => and_congr_right fun member => ih child member
    rw [Node.ownedTokens_eq, Node.tokens_commented, Node.nodes_commented, List.flatMap_map, List.append_assoc,
      List.mem_append, List.mem_append, mem_insideOf, List.mem_flatMap, below, Node.ownedTokens_eq]
    simp only [List.mem_append, List.mem_flatMap]
    constructor
    · rintro (own | ⟨token, own, inside⟩ | ⟨child, member, owned | ⟨token, owned, inside⟩⟩)
      · exact .inl (.inl own)
      · exact .inr ⟨token, .inl own, inside⟩
      · exact .inl (.inr ⟨child, member, owned⟩)
      · exact .inr ⟨token, .inr ⟨child, member, owned⟩, inside⟩
    · rintro ((own | ⟨child, member, owned⟩) | ⟨token, own | ⟨child, member, owned⟩, inside⟩)
      · exact .inl own
      · exact .inr (.inr ⟨child, member, .inl owned⟩)
      · exact .inr (.inl ⟨token, own, inside⟩)
      · exact .inr (.inr ⟨child, member, .inr ⟨token, owned, inside⟩⟩)

theorem Fits.mark_of_visible {node : Node} (fits : Fits markings node) {token : Cell}
    (owned : token ∈ node.ownedTokens) (seen : token.kind.isLayout = false) : token.index ∈ node.marks := by
  rw [Node.marks, mem_marksOf]
  refine ⟨token, owned, ?_, rfl⟩
  have notComment := fits.plain token owned
  generalize token.kind = kind at seen notComment
  cases kind <;> first | rfl | exact absurd rfl notComment | cases seen

/-- A cell of a node's own, be it a token or a comment, is tied to a token of the node. -/
theorem own_tied (hangs : Hangs markings plan) {node : Node} (fits : Fits markings node) {cell : Cell}
    (own : cell ∈ node.tokens ++ plan.insideOf node.tokens)
    (seen : cell.kind.isLayout = false) :
    ∃ token ∈ node.tokens, token.index ∈ node.marks ∧ cell.index ≤ token.index ∧
      ∀ around, Tied markings around [token.index] cell.index := by
  rw [List.mem_append, mem_insideOf] at own
  rcases own with token | ⟨token, owned, inside⟩
  · exact ⟨cell, token, fits.mark_of_visible (Node.owned_of_mem token) seen, Nat.le_refl _, fun _ => .on (by simp)⟩
  · have fresh := hangs.fresh _ cell inside
    cases hangs.goes _ cell inside with
    | inside next starts last ends =>
      have mark := fits.mark_of_visible (Node.owned_of_mem owned)
        (fits.consistent token (Node.owned_of_mem owned) next.listed)
      exact ⟨token, owned, mark, Nat.le_of_lt next.behind,
        fun _ => .inside (by simp) fresh next starts last ends⟩

/-! ### Nodes -/

/-- The first of some places. -/
def Least (places : List Nat) : Option Nat → Prop
  | none => places = []
  | some first => first ∈ places ∧ ∀ place ∈ places, first ≤ place

/-- A node with its comments is written in order, and what is seen of it is tied to its marks. -/
structure Prints (markings : Markings) (plan : CommentPlan) (around : Option Bounds) (node : Node) : Prop where
  least : Least node.places (node.commented plan around).written.1
  tied : ∀ cell ∈ visible (node.commented plan around).written.2,
    Tied markings around node.marks cell.index
  ordered : (visible (node.commented plan around).written.2).Pairwise (·.index < ·.index)

/-- The part that a child is. -/
def childPart (plan : CommentPlan) (inner : Option Bounds) (child : Node) : Option (Nat × List Cell) :=
  (child.commented plan inner).written.1.map (·, (child.commented plan inner).written.2)

/-- The parts of a node with its comments, where `inner` are the bounds that its children see around. -/
def commentedParts (plan : CommentPlan) (inner : Option Bounds) (node : Node) : List (Nat × List Cell) :=
  (node.tokens ++ plan.insideOf node.tokens).map (fun cell => (cell.index, [cell])) ++
  node.children.nodes.filterMap (childPart plan inner)

theorem parts_commented (plan : CommentPlan) (around : Option Bounds) (node : Node) :
    (node.commented plan around).parts = commentedParts plan node.bounds node := by
  rw [Node.parts, Node.tokens_commented, Node.nodes_commented, List.filterMap_map]
  rfl

theorem mem_visible_single {cell other : Cell} (seen : other ∈ visible [cell]) :
    other = cell ∧ cell.kind.isLayout = false := by
  obtain ⟨single, plain⟩ := mem_visible.1 seen
  obtain rfl := List.mem_singleton.1 single
  exact ⟨rfl, plain⟩

variable {inner : Option Bounds} {node child : Node} {part : Nat × List Cell}

theorem childPart_eq (here : childPart plan inner child = some part) :
    (child.commented plan inner).written = (some part.1, part.2) := by
  rw [childPart, Option.map_eq_some_iff] at here
  obtain ⟨first, found, rfl⟩ := here
  exact Prod.ext found rfl

theorem Tied.exists_mark {own : List Nat} {place : Nat} (tied : Tied markings around own place) :
    ∃ mark, mark ∈ own := by
  cases tied with
  | on here => exact ⟨_, here⟩
  | before here => exact ⟨_, here⟩
  | inside here => exact ⟨_, here⟩
  | after here => exact ⟨_, here⟩

/-- A cell that is tied to a place apart from a child is in step with it. -/
theorem inStep_child {cell : Cell} {mark : Nat} (listed : mark ∈ markings.marks) (early : cell.index ≤ mark)
    (tied : Tied markings around [mark] cell.index) (apart : Apart [mark] child.places)
    (within : child.marks ⊆ markings.marks) (prints : Prints markings plan inner child)
    (here : childPart plan inner child = some part) : InStep (!·.kind.isLayout) (cell.index, [cell]) part := by
  have written := childPart_eq here
  obtain ⟨least, tiedBelow, -⟩ := prints
  rw [written] at least tiedBelow
  obtain ⟨member, first⟩ := least
  have single : [mark] ⊆ markings.marks := by simpa using listed
  rcases apart with before | behind
  · have later := before mark (List.mem_singleton_self _)
    refine ⟨fun _ one seen other found => ?_, fun le => ?_⟩
    · rw [(mem_visible_single seen).1]
      refine tied.lt (tiedBelow other found) single within fun only same next here => ?_
      rw [List.mem_singleton.1 same]
      exact later next (places_of_marks here)
    · have := later part.1 member
      exact absurd (show part.1 ≤ cell.index from le) (by omega)
  · have sooner := behind mark (List.mem_singleton_self _)
    have lt : ∀ {place : Nat}, Tied markings inner child.marks place → place < cell.index := fun found =>
      found.lt tied within single fun next here only same => by
        rw [List.mem_singleton.1 same]
        exact sooner next (places_of_marks here)
    refine ⟨fun le _ _ other found => ?_, fun _ other found one seen => ?_⟩
    · obtain ⟨next, here⟩ := (tiedBelow other found).exists_mark
      have := first next (places_of_marks here)
      have := lt (.on here)
      exact absurd (show cell.index ≤ part.1 from le) (by omega)
    · rw [(mem_visible_single seen).1]
      exact lt (tiedBelow other found)

/-- A child before another one is in step with it. -/
theorem inStep_before {other : Node} {next : Nat × List Cell}
    (before : ∀ place ∈ child.places, ∀ later ∈ other.places, place < later)
    (fits : Fits markings child) (others : Fits markings other)
    (prints : Prints markings plan inner child) (printed : Prints markings plan inner other)
    (here : childPart plan inner child = some part) (there : childPart plan inner other = some next) :
    InStep (!·.kind.isLayout) part next := by
  have written := childPart_eq here
  have writtenNext := childPart_eq there
  obtain ⟨least, tied, -⟩ := prints
  obtain ⟨leastNext, tiedNext, -⟩ := printed
  rw [written] at least tied
  rw [writtenNext] at leastNext tiedNext
  refine ⟨fun _ cell seen later found => ?_, fun le => ?_⟩
  · exact (tied cell seen).lt (tiedNext later found) fits.within others.within
      fun mark one next other => before mark (places_of_marks one) next (places_of_marks other)
  · have := before part.1 least.1 next.1 leastNext.1
    omega

variable (hangs : Hangs markings plan) (fits : Fits markings node)
  (children : ∀ child ∈ node.children.nodes, Prints markings plan inner child)

include hangs fits

/-- No two cells that are a node's own have one place, layout aside. -/
theorem nodup_own : ((visible (node.tokens ++ plan.insideOf node.tokens)).map Cell.index).Nodup := by
  obtain ⟨nodup, -, -, -⟩ := fits.separate
  rw [visible_append, List.map_append, List.nodup_append']
  refine ⟨?_, ?_, ?_⟩
  · exact nodup.sublist (List.filter_sublist.map _)
  · have places : ((node.tokens.map Cell.index).mergeSort).Nodup :=
      (List.mergeSort_perm _ _).nodup_iff.2 nodup
    refine List.Nodup.sublist (List.filter_sublist.map _) ?_
    rw [CommentPlan.insideOf, List.map_flatMap, List.nodup_flatMap]
    refine ⟨fun place _ => ?_, places.imp fun {a b} differs => ?_⟩
    · have ordered := hangs.ordered (.inside place)
      exact List.pairwise_map.2 (ordered.imp fun less => Nat.ne_of_lt less)
    · rintro index one other
      obtain ⟨cell, listed, rfl⟩ := List.mem_map.1 one
      obtain ⟨next, among, same⟩ := List.mem_map.1 other
      cases hangs.goes (.inside a) cell listed with
      | inside first =>
        cases hangs.goes (.inside b) next among with
        | inside second => exact differs (first.unique (same ▸ second))
  · intro index one other
    obtain ⟨token, seen, rfl⟩ := List.mem_map.1 one
    obtain ⟨comment, found, same⟩ := List.mem_map.1 other
    obtain ⟨owned, plain⟩ := mem_visible.1 seen
    obtain ⟨_, -, inside⟩ := mem_insideOf.1 (mem_visible.1 found).1
    exact hangs.fresh _ comment inside (same ▸ fits.within (fits.mark_of_visible (Node.owned_of_mem owned) plain))

theorem pairwise_own : ((node.tokens ++ plan.insideOf node.tokens).map fun cell =>
    (cell.index, [cell])).Pairwise (InStep (!·.kind.isLayout)) := by
  have apart := nodup_own hangs fits
  rw [List.nodup_iff_pairwise_ne, List.pairwise_map, visible, List.pairwise_filter] at apart
  rw [List.pairwise_map]
  refine apart.imp fun {cell other} differs => ?_
  have precedes : ∀ one two : Cell, (one.kind.isLayout = false → two.kind.isLayout = false →
      one.index ≠ two.index) → Precedes (!·.kind.isLayout) (one.index, [one]) (two.index, [two]) := by
    intro one two differs le a seen b found
    obtain ⟨rfl, plain⟩ := mem_visible_single seen
    obtain ⟨rfl, also⟩ := mem_visible_single found
    exact Nat.lt_of_le_of_ne le (differs plain also)
  refine ⟨precedes cell other fun one two => differs (by simp [one]) (by simp [two]),
    precedes other cell fun one two => ?_⟩
  exact (differs (by simp [two]) (by simp [one])).symm

include children

theorem pairwise_parts : (commentedParts plan inner node).Pairwise (InStep (!·.kind.isLayout)) := by
  obtain ⟨-, apart, own, -⟩ := fits.separate
  rw [commentedParts, List.pairwise_append]
  refine ⟨pairwise_own hangs fits, ?_, fun part cells next child => ?_⟩
  · rw [List.pairwise_filterMap]
    refine apart.imp_of_mem fun {a b} first second apart part here next there => ?_
    rcases apart with before | behind
    · exact inStep_before before (fits.below first) (fits.below second) (children a first)
        (children b second) here there
    · exact (inStep_before (fun place one later other => behind later other place one) (fits.below second)
        (fits.below first) (children b second) (children a first) there here).symm
  · obtain ⟨cell, listed, rfl⟩ := List.mem_map.1 cells
    obtain ⟨child, member, here⟩ := List.mem_filterMap.1 child
    by_cases seen : cell.kind.isLayout = false
    · obtain ⟨token, owned, mark, early, tied⟩ := own_tied hangs fits listed seen
      exact inStep_child (fits.within mark) early (tied none) (own token owned child member)
        (fits.below member).within (children child member) here
    · exact inStep_of_unseen (by simpa using seen) _

theorem ordered_parts :
    (visible ((byPlace (commentedParts plan inner node)).flatMap Prod.snd)).Pairwise
      (·.index < ·.index) := by
  refine ordered_byPlace (fun part member => ?_) (pairwise_parts hangs fits children)
  rcases List.mem_append.1 member with own | below
  · obtain ⟨cell, -, rfl⟩ := List.mem_map.1 own
    exact List.Pairwise.sublist List.filter_sublist (List.pairwise_singleton _ _)
  · obtain ⟨child, listed, here⟩ := List.mem_filterMap.1 below
    have ordered := (children child listed).ordered
    rwa [childPart_eq here] at ordered

/-- What is seen in the parts of a node is tied to its marks. -/
theorem tied_parts (outer : Option Bounds) (reach : ∀ child ∈ node.children.nodes, ∀ mark ∈ child.marks,
      (Frees Bounds.first inner mark → Frees Bounds.first outer mark) ∧
      (Frees Bounds.last inner mark → Frees Bounds.last outer mark)) :
    ∀ cell ∈ visible ((byPlace (commentedParts plan inner node)).flatMap Prod.snd),
      Tied markings outer node.marks cell.index := by
  intro cell seen
  obtain ⟨listed, plain⟩ := mem_visible.1 seen
  obtain ⟨part, member, inside⟩ := List.mem_flatMap.1 listed
  have member : part ∈ commentedParts plan inner node := (List.mergeSort_perm _ _).mem_iff.1 member
  rcases List.mem_append.1 member with own | below
  · obtain ⟨one, among, rfl⟩ := List.mem_map.1 own
    obtain rfl := List.mem_singleton.1 inside
    obtain ⟨token, -, mark, -, tied⟩ := own_tied hangs fits among plain
    exact (tied outer).widen (by simpa using mark) (fun _ _ => id) fun _ _ => id
  · obtain ⟨child, listed, here⟩ := List.mem_filterMap.1 below
    have tied := (children child listed).tied cell
    rw [childPart_eq here] at tied
    exact (tied (mem_visible.2 ⟨inside, plain⟩)).widen
      (fun mark own => mem_marks.2 (.inr ⟨child, listed, own⟩))
      (fun mark own => (reach child listed mark own).1) fun mark own => (reach child listed mark own).2

omit hangs fits in
/-- Each place of a node is met in one of its parts. -/
theorem exists_part {place : Nat} (own : place ∈ node.places) :
    ∃ part ∈ commentedParts plan inner node, part.1 ≤ place := by
  rw [Node.places_eq, List.mem_append] at own
  rcases own with here | below
  · obtain ⟨cell, listed, rfl⟩ := List.mem_map.1 here
    exact ⟨_, List.mem_append_left _ (List.mem_map.2 ⟨cell, List.mem_append_left _ listed, rfl⟩),
      Nat.le_refl _⟩
  · obtain ⟨child, listed, inside⟩ := List.mem_flatMap.1 below
    have least := (children child listed).least
    cases first : (child.commented plan inner).written.1 with
    | none =>
      have nothing : child.places = [] := by simpa [first, Least] using least
      simp [nothing] at inside
    | some least' =>
      rw [first] at least
      refine ⟨(least', (child.commented plan inner).written.2), List.mem_append_right _ ?_,
        least.2 place inside⟩
      exact List.mem_filterMap.2 ⟨child, listed, by simp [childPart, first]⟩

/-- A node begins with a token and not with a comment, if nodes start where the markings says so. -/
theorem least_parts (starts : ∀ bounds, node.bounds = some bounds → markings.starts bounds.first) :
    Least node.places ((byPlace (commentedParts plan inner node)).head?.map Prod.fst) := by
  have sorted := pairwise_byPlace (commentedParts plan inner node)
  have same : ∀ part, part ∈ byPlace (commentedParts plan inner node) ↔
      part ∈ commentedParts plan inner node := fun part => (List.mergeSort_perm _ _).mem_iff
  cases list : byPlace (commentedParts plan inner node) with
  | nil =>
    refine List.eq_nil_iff_forall_not_mem.2 fun place own => ?_
    obtain ⟨part, listed, -⟩ := exists_part children own
    have := (same part).2 listed
    simp [list] at this
  | cons first rest =>
    rw [list] at sorted
    have least : ∀ place ∈ node.places, first.1 ≤ place := by
      intro place own
      obtain ⟨part, listed, le⟩ := exists_part children own
      have among := (same part).2 listed
      rw [list, List.mem_cons] at among
      rcases among with rfl | later
      · exact le
      · exact Nat.le_trans ((List.pairwise_cons.1 sorted).1 part later) le
    refine ⟨?_, least⟩
    have listed : first ∈ commentedParts plan inner node := (same first).1 (list ▸ List.mem_cons_self)
    rcases List.mem_append.1 listed with own | below
    · obtain ⟨cell, among, rfl⟩ := List.mem_map.1 own
      rcases List.mem_append.1 among with token | comment
      · exact List.mem_map_of_mem (Node.owned_of_mem token)
      · -- before the comment stands the token with which the node starts
        obtain ⟨token, owned, inside⟩ := mem_insideOf.1 comment
        have fresh := hangs.fresh _ cell inside
        cases hangs.goes _ cell inside with
        | inside next notStarting =>
          have mark := fits.mark_of_visible (Node.owned_of_mem owned)
            (fits.consistent token (Node.owned_of_mem owned) next.listed)
          have bound := node.bound
          cases bounds : node.bounds with
          | none =>
            rw [bounds] at bound
            rw [show node.marks = [] from bound] at mark
            cases mark
          | some bounds' =>
            rw [bounds] at bound
            have starting := starts bounds' bounds
            have differs : bounds'.first ≠ token.index := fun same => by
              simp [same, notStarting] at starting
            have := (bound.2.2 _ mark).1
            have := next.le_of_mark fresh (fits.within bound.1) (by omega)
            have := least _ (places_of_marks bound.1)
            exact absurd (show cell.index ≤ bounds'.first from this) (by omega)
    · obtain ⟨child, member, here⟩ := List.mem_filterMap.1 below
      have least := (children child member).least
      rw [childPart_eq here] at least
      rw [Node.places_eq]
      exact List.mem_append_right _ (List.mem_flatMap.2 ⟨child, member, least.1⟩)

omit hangs fits children

/-- What is tied to a node, but not in front of it, lies between its ends. -/
theorem Tied.between {own : List Nat} {bounds : Bounds} {place : Nat}
    (tied : Tied markings (some bounds) own place) (bound : Bound own (some bounds))
    (within : own ⊆ markings.marks) (starts : markings.starts bounds.first) :
    bounds.first ≤ place ∧ place ≤ bounds.last := by
  have first := within bound.1
  have last := within bound.2.1
  cases tied with
  | on here => exact bound.2.2 place here
  | before here fresh next _ free =>
    have between := bound.2.2 _ here
    have := free bounds rfl
    exact ⟨Nat.le_of_lt (next.le_of_mark fresh first (by omega)),
      Nat.le_trans (Nat.le_of_lt next.behind) between.2⟩
  | @inside mark _ here fresh next notStarting =>
    have between := bound.2.2 _ here
    have : bounds.first ≠ mark := fun same => by simp [← same, starts] at notStarting
    exact ⟨Nat.le_of_lt (next.le_of_mark fresh first (by omega)),
      Nat.le_trans (Nat.le_of_lt next.behind) between.2⟩
  | after here fresh found _ _ free =>
    have between := bound.2.2 _ here
    have := free bounds rfl
    exact ⟨Nat.le_trans between.1 (Nat.le_of_lt found.before),
      Nat.le_of_lt (found.le_of_mark fresh last (by omega))⟩

theorem ordered_commentsAt (comments : Array (List Cell)) (side : Bounds → Nat) (bounds : Option Bounds)
    (ordered : ∀ mark, (comments.getD mark []).Pairwise (·.index < ·.index)) :
    (commentsAt comments side around bounds).Pairwise (·.index < ·.index) := by
  unfold commentsAt
  split
  · exact List.Pairwise.nil
  · split
    · exact List.Pairwise.nil
    · exact ordered _

theorem mem_commentsAt {comments : Array (List Cell)} {side : Bounds → Nat} {bounds : Option Bounds}
    {cell : Cell} (member : cell ∈ commentsAt comments side around bounds) :
    ∃ own, bounds = some own ∧ Frees side around (side own) ∧ cell ∈ comments.getD (side own) [] := by
  rw [commentsAt_eq, List.mem_flatMap] at member
  obtain ⟨mark, found, listed⟩ := member
  obtain ⟨⟨own, here, rfl⟩, free⟩ := mem_taken.1 found
  exact ⟨own, here, free, listed⟩

theorem prints_commented (hangs : Hangs markings plan) {node : Node} (fits : Fits markings node)
    (sided : Sided markings node) {around : Option Bounds} (outside : Around around node) :
    Prints markings plan around node := by
  induction node using Node.of_children generalizing around with
  | step node ih =>
    have children := fun child member =>
      ih child member (fits.below member) (sided.below member) (around_bounds member)
    have bare := fits.bare node (Node.mem_listed.2 (.inl rfl))
    have written : (node.commented plan around).written =
        ((byPlace (commentedParts plan node.bounds node)).head?.map Prod.fst,
          commentsAt plan.before Bounds.first around node.bounds ++
            (byPlace (commentedParts plan node.bounds node)).flatMap Prod.snd ++
          commentsAt plan.after Bounds.last around node.bounds) := by
      rw [Node.written_eq, parts_commented, Node.before_commented, Node.after_commented, bare.1, bare.2,
        List.nil_append, List.nil_append]
    have bound : ∀ bounds, node.bounds = some bounds → Bound node.marks (some bounds) :=
      fun bounds here => here ▸ node.bound
    have tiedInside := tied_parts hangs fits children node.bounds fun _ _ _ _ => ⟨id, id⟩
    have front : ∀ cell ∈ visible (commentsAt plan.before Bounds.first around node.bounds),
        Tied markings around node.marks cell.index ∧
          ∀ bounds, node.bounds = some bounds → cell.index < bounds.first := by
      intro cell seen
      obtain ⟨bounds, here, free, listed⟩ := mem_commentsAt (mem_visible.1 seen).1
      cases hangs.goes (.before bounds.first) cell listed with
      | before next starts =>
        refine ⟨.before (bound bounds here).1 (hangs.fresh (.before _) cell listed) next starts free, ?_⟩
        rintro other same
        obtain rfl := Option.some.inj (here.symm.trans same)
        exact next.behind
    have back : ∀ cell ∈ visible (commentsAt plan.after Bounds.last around node.bounds),
        Tied markings around node.marks cell.index ∧
          ∃ bounds, node.bounds = some bounds ∧ bounds.last < cell.index := by
      intro cell seen
      obtain ⟨bounds, here, free, listed⟩ := mem_commentsAt (mem_visible.1 seen).1
      cases hangs.goes (.after bounds.last) cell listed with
      | after last ends notStarting =>
        exact ⟨.after (bound bounds here).2.1 (hangs.fresh (.after _) cell listed) last ends notStarting free,
          bounds, here, last.before⟩
    have between : ∀ cell ∈ visible ((byPlace (commentedParts plan node.bounds node)).flatMap Prod.snd),
        ∀ bounds, node.bounds = some bounds → bounds.first ≤ cell.index ∧ cell.index ≤ bounds.last := by
      intro cell seen bounds here
      have tied := tiedInside cell seen
      rw [here] at tied
      exact tied.between (bound bounds here) fits.within (sided.own here).1
    refine ⟨?_, ?_, ?_⟩
    · rw [written]
      exact least_parts hangs fits children fun bounds here => (sided.own here).1
    · rw [written]
      intro cell seen
      simp only [visible_append, List.mem_append] at seen
      rcases seen with (before | body) | after
      · exact (front cell before).1
      · refine tied_parts hangs fits children around (fun child member mark own => ?_) cell body
        have mine := mem_marks.2 (.inr ⟨child, member, own⟩)
        exact ⟨fun free => free.outer isEnd_first outside mine, fun free =>
          free.outer isEnd_last outside mine⟩
      · exact (back cell after).1
    · rw [written]
      simp only [visible_append, List.pairwise_append, List.mem_append]
      refine ⟨⟨?_, ordered_parts hangs fits children, fun cell before other body => ?_⟩, ?_,
        fun cell early other after => ?_⟩
      · exact (ordered_commentsAt _ _ _ fun mark => hangs.ordered (.before mark)).sublist List.filter_sublist
      · obtain ⟨bounds, here, -, -⟩ := mem_commentsAt (mem_visible.1 before).1
        exact Nat.lt_of_lt_of_le ((front cell before).2 bounds here) (between other body bounds here).1
      · exact (ordered_commentsAt _ _ _ fun mark => hangs.ordered (.after mark)).sublist List.filter_sublist
      · obtain ⟨-, bounds, here, behind⟩ := back other after
        refine Nat.lt_of_le_of_lt ?_ behind
        rcases early with before | body
        · exact Nat.le_trans (Nat.le_of_lt ((front cell before).2 bounds here)) ((bound bounds here).2.2 _
            (bound bounds here).1).2
        · exact (between cell body bounds here).2

end TolerantParser
