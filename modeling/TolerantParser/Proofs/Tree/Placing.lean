import Mathlib.Data.List.Nodup
import TolerantParser.Proofs.Tree.Bounds

/-!
Where a walk through a document puts its comments. What decides is the mark before a comment and the mark
behind it, that is the next places of tokens that some node owns and that are no layout, and whether nodes
end and start there (`Goes`). The walk puts each comment in the spot that is right for it, and keeps their
order in each spot.
-/

namespace TolerantParser

/-! ### Spots -/

/-- The first mark behind a place. -/
structure NextMark (marks : List Nat) (place mark : Nat) : Prop where
  listed : mark ∈ marks
  behind : place < mark
  first : ∀ other ∈ marks, place < other → mark ≤ other

/-- The last mark before a place. -/
structure LastMark (marks : List Nat) (place mark : Nat) : Prop where
  listed : mark ∈ marks
  before : mark < place
  last : ∀ other ∈ marks, other < place → other ≤ mark

/-- Where a comment can go: to the outermost node that starts at a mark or that ends at one, to the one
that owns it, or before the document. -/
inductive Spot where
  | before (mark : Nat)
  | after (mark : Nat)
  | inside (mark : Nat)
  | top
  deriving DecidableEq

/-- The mark of a spot is within the document. -/
def Spot.Below (size : Nat) : Spot → Prop
  | .before mark | .after mark | .inside mark => mark < size
  | .top => True

/-- The spot for a comment at a place. -/
inductive Goes (marks : List Nat) (starts ends : Nat → Bool) (place : Nat) : Spot → Prop
  | before {mark : Nat} : NextMark marks place mark → starts mark →
      Goes marks starts ends place (.before mark)
  | after {mark : Nat} : LastMark marks place mark → ends mark →
      (∀ next, NextMark marks place next → starts next = false) → Goes marks starts ends place (.after mark)
  | inside {mark last : Nat} : NextMark marks place mark → starts mark = false →
      LastMark marks place last → ends last = false → Goes marks starts ends place (.inside mark)
  | top : (∀ mark ∈ marks, place < mark) → (∀ next, NextMark marks place next → starts next = false) →
      Goes marks starts ends place .top

namespace CommentPlan

/-- The comments in a spot. -/
def commentsIn (plan : CommentPlan) : Spot → List Cell
  | .before mark => plan.before.getD mark []
  | .after mark => plan.after.getD mark []
  | .inside mark => plan.inside.getD mark []
  | .top => plan.document

/-- More comments for a spot. -/
def add (plan : CommentPlan) (comments : List Cell) : Spot → CommentPlan
  | .before mark => { plan with before := plan.before.modify mark (· ++ comments) }
  | .after mark => { plan with after := plan.after.modify mark (· ++ comments) }
  | .inside mark => { plan with inside := plan.inside.modify mark (· ++ comments) }
  | .top => { plan with document := plan.document ++ comments }

/-- All comments that have been placed. -/
def contents (plan : CommentPlan) : List Cell :=
  plan.document ++ plan.before.toList.flatten ++ plan.after.toList.flatten ++ plan.inside.toList.flatten

/-- The plan has room for so many places. -/
structure Sized (plan : CommentPlan) (size : Nat) : Prop where
  before : plan.before.size = size
  after : plan.after.size = size
  inside : plan.inside.size = size

variable {plan : CommentPlan} {size : Nat}

theorem Sized.add (sized : plan.Sized size) (comments : List Cell) (spot : Spot) :
    (plan.add comments spot).Sized size := by
  obtain ⟨before, after, inside⟩ := sized
  cases spot <;> constructor <;> simp [CommentPlan.add, before, after, inside]

theorem getD_modify (lists : Array (List Cell)) (mark other : Nat) (comments : List Cell) :
    (lists.modify mark (· ++ comments)).getD other [] =
      lists.getD other [] ++ (if mark = other ∧ other < lists.size then comments else []) := by
  simp only [Array.getD_eq_getD_getElem?, Array.getElem?_modify]
  by_cases same : mark = other
  · by_cases inside : other < lists.size <;> simp [same, inside]
  · simp [same]

/-- A spot has got the comments, the others have what they had. -/
theorem commentsIn_add (plan : CommentPlan) (comments : List Cell) (spot other : Spot) :
    (plan.add comments spot).commentsIn other = plan.commentsIn other ∨
      other = spot ∧ (plan.add comments spot).commentsIn other = plan.commentsIn other ++ comments := by
  cases spot <;> cases other <;> try exact .inl rfl
  case top.top => exact .inr ⟨rfl, rfl⟩
  all_goals
    rw [add, commentsIn, commentsIn, getD_modify]
    split
    next same => exact .inr ⟨by rw [same.1], rfl⟩
    next => exact .inl (List.append_nil _)

theorem flatten_modify (lists : List (List Cell)) {mark : Nat} (comments : List Cell)
    (inside : mark < lists.length) :
    (lists.modify mark (· ++ comments)).flatten.Perm (lists.flatten ++ comments) := by
  induction lists generalizing mark with
  | nil => cases inside
  | cons first rest ih =>
    cases mark with
    | zero =>
      simp only [List.modify_zero_cons, List.flatten_cons, List.append_assoc]
      exact List.perm_append_comm.append_left first
    | succ mark =>
      simp only [List.modify_succ_cons, List.flatten_cons, List.append_assoc]
      exact (ih (Nat.lt_of_succ_lt_succ inside)).append_left first

theorem contents_add (sized : plan.Sized size) (comments : List Cell) {spot : Spot}
    (below : spot.Below size) : (plan.add comments spot).contents.Perm (plan.contents ++ comments) := by
  rw [List.perm_iff_count]
  intro cell
  have modified : ∀ (lists : Array (List Cell)) (mark : Nat), mark < lists.size →
      (lists.modify mark (· ++ comments)).toList.flatten.count cell =
        lists.toList.flatten.count cell + comments.count cell := by
    intro lists mark inside
    rw [Array.toList_modify, (flatten_modify lists.toList comments inside).count_eq cell,
      List.count_append]
  cases spot with
  | before mark =>
    have moved := modified plan.before mark (sized.before ▸ below)
    simp only [contents, add, List.count_append, moved]
    omega
  | after mark =>
    have moved := modified plan.after mark (sized.after ▸ below)
    simp only [contents, add, List.count_append, moved]
    omega
  | inside mark =>
    have moved := modified plan.inside mark (sized.inside ▸ below)
    simp only [contents, add, List.count_append, moved]
    omega
  | top =>
    simp only [contents, add, List.count_append]
    omega

/-! ### The walk -/

/-- What a walk has come to that has gone over the first `reached` tokens. -/
structure Walked (marks : List Nat) (starts ends : Nat → Bool) (size : Nat) (seen : List Cell)
    (walk : Walk) : Prop where
  sized : walk.plan.Sized size
  goes : ∀ spot, ∀ cell ∈ walk.plan.commentsIn spot, Goes marks starts ends cell.index spot
  ordered : ∀ spot, (walk.plan.commentsIn spot ++ walk.pending).Pairwise (·.index < ·.index)
  since : ∀ cell ∈ walk.pending, ∀ mark ∈ marks, mark < seen.length → mark < cell.index
  below : ∀ spot, ∀ cell ∈ walk.plan.commentsIn spot ++ walk.pending, cell.index < seen.length
  previous : match walk.previous with
    | none => ∀ mark ∈ marks, seen.length ≤ mark
    | some last => last ∈ marks ∧ last < seen.length ∧ ∀ mark ∈ marks, mark < seen.length → mark ≤ last
  whole : (walk.plan.contents ++ walk.pending).Perm (seen.filter Cell.isComment)

variable {marks : List Nat} {starts ends : Nat → Bool} {seen : List Cell} {walk : Walk}

/-- The spot for the comments between two marks. -/
def spotOf (starts ends : Nat → Bool) (previous : Option Nat) (following : Nat) : Spot :=
  if starts following then .before following
  else match previous with
    | none => .top
    | some previous => if ends previous then .after previous else .inside following

theorem place_eq (plan : CommentPlan) (starts ends : Nat → Bool) (previous : Option Nat)
    (following : Nat) (comments : List Cell) : plan.place starts ends previous following comments =
      plan.add comments (spotOf starts ends previous following) := by
  unfold place spotOf
  split
  · rfl
  · cases previous with
    | none => rfl
    | some previous =>
      dsimp only
      split <;> rfl

theorem Walked.goes_spotOf (walked : Walked marks starts ends size seen walk)
    (mark : seen.length ∈ marks) {cell : Cell} (pending : cell ∈ walk.pending) :
    Goes marks starts ends cell.index (spotOf starts ends walk.previous seen.length) := by
  have early := walked.below .top cell (List.mem_append_right _ pending)
  have next : NextMark marks cell.index seen.length := by
    refine ⟨mark, early, fun other listed behind => Nat.le_of_not_lt fun seen => ?_⟩
    have := walked.since cell pending other listed seen
    omega
  have only : ∀ other, NextMark marks cell.index other → other = seen.length := fun other found =>
    Nat.le_antisymm (found.first _ mark early) (next.first other found.listed found.behind)
  have previous := walked.previous
  unfold spotOf
  split
  next starting => exact .before next starting
  next notStarting =>
    have notStarting : ∀ other, NextMark marks cell.index other → starts other = false := by
      intro other found
      rw [only other found]
      simpa using notStarting
    split at previous
    next =>
      refine .top (fun other listed => ?_) notStarting
      exact Nat.lt_of_lt_of_le early (previous other listed)
    next last _ =>
      have before : LastMark marks cell.index last :=
        ⟨previous.1, walked.since cell pending last previous.1 previous.2.1, fun other listed less =>
          previous.2.2 other listed (Nat.lt_trans less early)⟩
      split
      next ending => exact .after before ending notStarting
      next notEnding => exact .inside next (notStarting _ next) before (by simpa using notEnding)

theorem spotOf_below (walked : Walked marks starts ends size seen walk) (inside : seen.length < size) :
    (spotOf starts ends walk.previous seen.length).Below size := by
  have previous := walked.previous
  unfold spotOf
  split
  · exact inside
  · split at previous
    next => trivial
    next last _ =>
      split
      · exact Nat.lt_trans previous.2.1 inside
      · exact inside

/-- At a mark the comments before it are placed. -/
theorem Walked.reach (walked : Walked marks starts ends size seen walk) {cell : Cell}
    (plain : cell.isComment = false) (mark : seen.length ∈ marks) {plan : CommentPlan}
    (sized : plan.Sized size)
    (goes : ∀ spot, ∀ cell ∈ plan.commentsIn spot, Goes marks starts ends cell.index spot)
    (same : ∀ spot, plan.commentsIn spot <+: walk.plan.commentsIn spot ++ walk.pending)
    (whole : plan.contents.Perm (walk.plan.contents ++ walk.pending)) :
    Walked marks starts ends size (seen ++ [cell])
      { plan, previous := some seen.length, pending := [] } where
  sized := sized
  goes := goes
  ordered spot := by
    rw [List.append_nil]
    exact (walked.ordered spot).sublist (same spot).sublist
  since := List.forall_mem_nil _
  below spot other member := by
    rw [List.append_nil] at member
    have := walked.below spot other ((same spot).subset member)
    simp only [List.length_append, List.length_singleton]
    omega
  previous := ⟨mark, by simp, fun other _ less => by
    simp only [List.length_append, List.length_singleton] at less
    omega⟩
  whole := by
    rw [List.append_nil, List.filter_append, List.filter_cons_of_neg (by simp [plain]), List.filter_nil,
      List.append_nil]
    exact whole.trans walked.whole

/-- Where nothing is placed all but the comments that wait is as before. -/
theorem Walked.pass (walked : Walked marks starts ends size seen walk) {cell : Cell} (here : cell.index = seen.length)
    (unmarked : seen.length ∉ marks) {pending : List Cell}
    (ordered : ∀ spot, (walk.plan.commentsIn spot ++ pending).Pairwise (·.index < ·.index))
    (among : ∀ other ∈ pending, other ∈ walk.pending ∨ other = cell)
    (whole : (walk.plan.contents ++ pending).Perm ((seen ++ [cell]).filter Cell.isComment)) :
    Walked marks starts ends size (seen ++ [cell]) { walk with pending } := by
  have later : ∀ mark ∈ marks, mark < (seen ++ [cell]).length → mark < seen.length := by
    intro mark listed less
    have : mark ≠ seen.length := fun same => unmarked (same ▸ listed)
    simp only [List.length_append, List.length_singleton] at less
    omega
  refine ⟨walked.sized, walked.goes, ordered, ?_, ?_, ?_, whole⟩
  · intro other member mark listed less
    rcases among other member with old | rfl
    · exact walked.since other old mark listed (later mark listed less)
    · exact here ▸ later mark listed less
  · intro spot other member
    have old := walked.below spot other
    simp only [List.mem_append, List.length_append, List.length_singleton] at old member ⊢
    rcases member with placed | waiting
    · have := old (.inl placed)
      omega
    · rcases among other waiting with known | rfl
      · have := old (.inr known)
        omega
      · omega
  · have previous := walked.previous
    split
    next none =>
      rw [none] at previous
      intro mark listed
      have := previous mark listed
      have : mark ≠ seen.length := fun same => unmarked (same ▸ listed)
      simp only [List.length_append, List.length_singleton]
      omega
    next last found =>
      rw [found] at previous
      refine ⟨previous.1, ?_, fun mark listed less => previous.2.2 mark listed (later mark listed less)⟩
      simp only [List.length_append, List.length_singleton]
      omega

/-- At a mark the comments that wait go to the spot between it and the mark before it. -/
theorem Walked.place (walked : Walked marks starts ends size seen walk) {cell : Cell}
    (plain : cell.isComment = false) (mark : seen.length ∈ marks) (inside : seen.length < size) :
    Walked marks starts ends size (seen ++ [cell])
      { plan := walk.plan.add walk.pending (spotOf starts ends walk.previous seen.length)
        previous := some seen.length, pending := [] } := by
  have added := commentsIn_add walk.plan walk.pending (spotOf starts ends walk.previous seen.length)
  refine walked.reach plain mark (walked.sized.add _ _) (fun spot other member => ?_) (fun spot => ?_)
    (contents_add walked.sized _ (spotOf_below walked inside))
  · rcases added spot with same | ⟨rfl, grown⟩
    · exact walked.goes spot other (same ▸ member)
    · rw [grown, List.mem_append] at member
      exact member.elim (walked.goes _ other) (walked.goes_spotOf mark)
  · rcases added spot with same | ⟨rfl, grown⟩
    · exact same ▸ List.prefix_append ..
    · exact grown ▸ List.prefix_refl _

theorem Walked.visit {owned : Nat → Bool} {cell : Cell} (walked : Walked marks starts ends size seen walk)
    (here : cell.index = seen.length) (inside : seen.length < size)
    (counts : seen.length ∈ marks ↔ cell.kind.isInsignificant = false ∧ owned seen.length = true) :
    Walked marks starts ends size (seen ++ [cell]) (CommentPlan.visit owned starts ends walk cell) := by
  unfold CommentPlan.visit
  rw [here]
  split
  next comment =>
    have unmarked : seen.length ∉ marks := fun listed => by
      have mark := (counts.1 listed).1
      rw [Cell.isComment, beq_iff_eq] at comment
      simp [comment, TokenKind.isInsignificant] at mark
    refine walked.pass here unmarked (fun spot => ?_) (by simp) ?_
    · rw [← List.append_assoc, List.pairwise_append]
      refine ⟨walked.ordered spot, List.pairwise_singleton _ _, fun other member last single => ?_⟩
      rw [List.mem_singleton.1 single, here]
      exact walked.below spot other member
    · rw [← List.append_assoc, List.filter_append, List.filter_cons_of_pos comment, List.filter_nil]
      exact walked.whole.append_right [cell]
  next plain =>
  have plain : cell.isComment = false := by simpa using plain
  split
  next passed =>
    have unmarked : seen.length ∉ marks := fun listed => by
      obtain ⟨mark, own⟩ := counts.1 listed
      simp [mark, own] at passed
    refine walked.pass here unmarked walked.ordered (fun other member => .inl member) ?_
    rw [List.filter_append, List.filter_cons_of_neg (by simp [plain]), List.filter_nil, List.append_nil]
    exact walked.whole
  next counted =>
    have mark : seen.length ∈ marks := counts.2 (by simpa using counted)
    split
    next nothing =>
      have none : walk.pending = [] := by simpa using nothing
      refine walked.reach plain mark walked.sized walked.goes (fun spot => ?_) ?_
      · exact List.prefix_append ..
      · simp [none]
    next =>
      rw [place_eq]
      exact walked.place plain mark inside

theorem walked_empty (marks : List Nat) (starts ends : Nat → Bool) (size : Nat) :
    Walked marks starts ends size [] ⟨empty size, none, []⟩ := by
  have nothing : ∀ spot, (empty size).commentsIn spot = [] := by
    intro spot
    cases spot with
    | top => rfl
    | _ mark =>
      simp only [commentsIn, empty, Array.getD_eq_getD_getElem?, Array.getElem?_replicate]
      split <;> rfl
  refine ⟨⟨by simp [empty], by simp [empty], by simp [empty]⟩, ?_, ?_, List.forall_mem_nil _, ?_, by simp, ?_⟩
  · simp [nothing]
  · simp [nothing]
  · simp [nothing]
  · simp [contents, empty]

theorem Walked.visits {owned : Nat → Bool} {tokens : List Cell} (walked : Walked marks starts ends size seen walk)
    (numbered : tokens.map Cell.index = List.range' seen.length tokens.length)
    (inside : seen.length + tokens.length ≤ size)
    (counts : ∀ cell ∈ tokens, cell.index ∈ marks ↔ cell.kind.isInsignificant = false ∧ owned cell.index = true) :
    Walked marks starts ends size (seen ++ tokens) (tokens.foldl (CommentPlan.visit owned starts ends) walk) := by
  induction tokens generalizing seen walk with
  | nil => simpa using walked
  | cons cell rest ih =>
    rw [List.map_cons, List.length_cons, List.range'_succ, List.cons.injEq] at numbered
    rw [List.length_cons] at inside
    have visited := walked.visit numbered.1 (by omega) (numbered.1 ▸ counts cell (by simp))
    have later := ih visited (by simpa using numbered.2)
      (by simp only [List.length_append, List.length_singleton]; omega)
      fun other member => counts other (by simp [member])
    rwa [List.append_assoc] at later

theorem getD_marked {size : Nat} {places : List Nat} {place : Nat} :
    (marked size places).getD place false = true ↔ place < size ∧ place ∈ places := by
  have upTo : ∀ (places : List Nat) (marks : Array Bool), ((places.foldl
      (fun marks place => marks.setIfInBounds place true) marks).getD place false = true ↔
        marks.getD place false = true ∨ place < marks.size ∧ place ∈ places) := by
    intro places
    induction places with
    | nil => simp
    | cons first rest ih =>
      intro marks
      rw [List.foldl_cons, ih, Array.size_setIfInBounds, List.mem_cons]
      simp only [Array.getD_eq_getD_getElem?, Array.getElem?_setIfInBounds]
      by_cases same : first = place
      · subst same
        by_cases inside : first < marks.size <;> simp [inside]
      · simp [same, Ne.symm same]
  rw [marked, upTo, Array.size_replicate, Array.getD_eq_getD_getElem?, Array.getElem?_replicate]
  split <;> simp

/-- A plan in which each comment is in the spot that is right for it, in document order. -/
structure Planned (marks : List Nat) (starts ends : Nat → Bool) (size : Nat) (plan : CommentPlan)
    (comments : List Cell) : Prop where
  sized : plan.Sized size
  goes : ∀ spot, ∀ cell ∈ plan.commentsIn spot, Goes marks starts ends cell.index spot
  ordered : ∀ spot, (plan.commentsIn spot).Pairwise (·.index < ·.index)
  whole : plan.contents.Perm comments

theorem eq_of_index {tokens : List Cell} (numbered : tokens.map Cell.index = List.range tokens.length)
    {cell other : Cell} (member : cell ∈ tokens) (listed : other ∈ tokens)
    (same : cell.index = other.index) : cell = other :=
  List.inj_on_of_nodup_map (numbered ▸ List.nodup_range) member listed same

/-- The comments of a document that ends with a token of the tree are all placed. -/
theorem ofDocument_planned {tree : Node} {tokens : List Cell} (outlines : Outlines)
    (numbered : tokens.map Cell.index = List.range tokens.length)
    (owned : ∀ cell ∈ tree.ownedTokens, cell ∈ tokens)
    (ended : ∀ last ∈ tokens.getLast?, last.index ∈ tree.marks) :
    Planned tree.marks
      ((marked tokens.length (outlines.all.map (·.first))).getD · false)
      ((marked tokens.length (outlines.all.map (·.last))).getD · false)
      tokens.length (ofDocument tree outlines tokens) (tokens.filter Cell.isComment) := by
  have below : ∀ cell ∈ tokens, cell.index < tokens.length := fun cell member => by
    have listed := List.mem_map_of_mem (f := Cell.index) member
    rwa [numbered, List.mem_range] at listed
  let owns : Nat → Bool := ((marked tokens.length (tree.ownedTokens.map (·.index))).getD · false)
  have counts : ∀ cell ∈ tokens, cell.index ∈ tree.marks ↔
      cell.kind.isInsignificant = false ∧ owns cell.index = true := by
    intro cell member
    rw [Node.marks, mem_marksOf, show owns cell.index = true ↔ _ from getD_marked, List.mem_map]
    constructor
    · rintro ⟨other, listed, mark, same⟩
      obtain rfl := eq_of_index numbered (owned other listed) member same
      exact ⟨mark, below other member, other, listed, rfl⟩
    · rintro ⟨mark, -, other, listed, same⟩
      obtain rfl := eq_of_index numbered (owned other listed) member same
      exact ⟨other, listed, mark, rfl⟩
  show Planned _ _ _ _ (ofPlaces owns _ _ tokens) _
  generalize ((marked tokens.length (outlines.all.map (·.first))).getD · false) = starts
  generalize ((marked tokens.length (outlines.all.map (·.last))).getD · false) = ends
  clear_value owns
  rw [ofPlaces]
  have walked := (walked_empty tree.marks starts ends tokens.length).visits
    (by simpa [List.range_eq_range'] using numbered) (by simp) counts
  rw [List.nil_append] at walked
  -- the last token is a mark, and what was pending has been placed there
  have nothing : (tokens.foldl (visit owns starts ends) ⟨empty tokens.length, none, []⟩).pending = [] := by
    rw [List.eq_nil_iff_forall_not_mem]
    intro comment pending
    have early := walked.below .top comment (List.mem_append_right _ pending)
    have some : tokens ≠ [] := fun none => by simp [none] at early
    have last := ended _ (List.getLast?_eq_getLast_of_ne_nil some)
    have place : (tokens.getLast some).index = tokens.length - 1 := by
      have same := congrArg List.getLast? numbered
      rw [List.getLast?_map, List.getLast?_eq_getLast_of_ne_nil some, List.getLast?_range] at same
      simpa [some] using same
    have behind := walked.since comment pending _ last (by omega)
    omega
  rw [nothing, List.append_nil]
  refine ⟨walked.sized, walked.goes, fun spot => ?_, ?_⟩
  · simpa [nothing] using walked.ordered spot
  · simpa [nothing] using walked.whole

end CommentPlan

end TolerantParser
