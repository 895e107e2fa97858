import Mathlib.Data.List.Nodup
import TolerantParser.Diagnostic.Basic
import TolerantParser.Proofs.Stream.Repairing
import TolerantParser.Proofs.Tree.Alike

/-!
Streams at corresponding tokens. Two documents have a part in common, as far as a parse can see it, and what else they
have in front of that part and behind it is their `Frame`. The cursors of two streams over them are equally far in that
part (`SameRank`), or they stand at tokens of it that answer to each other (`SameToken`): those of the same rank among
all tokens that are not comments. They still do so when both move on, when both go back, and when a name is put in on
both sides; and tokens that answered to each other still do. Whether the tokens behind the cursor have been read makes
no difference, nor do their numbers.
-/

namespace TolerantParser

/-! ### Places -/

namespace Position

variable {p p' q q' : Position}

theorem min_congr (first : p = p') (second : q = q') : p.min q = p'.min q' := by rw [first, second]

theorem max_congr (first : p = p') (second : q = q') : p.max q = p'.max q' := by rw [first, second]

end Position

/-! ### Frames -/

/-- What a parse sees of a token, and where it stands. -/
structure TokenView where
  gist : Gist
  text : String
  first : Position
  last : Position
  deriving DecidableEq, Repr

def Token.view (token : Token) : TokenView := ⟨token.gist, token.text, token.first, token.last⟩

def TokenView.kind (view : TokenView) : TokenKind := view.gist.kind

/-- Every token of a line is followed by another one that the cursor may stand at. -/
def Linked (firm : TokenKind → Prop) : List TokenKind → Prop
  | [] => True
  | kind :: rest => (kind.isInline → ∃ next ∈ rest.head?, firm next) ∧ Linked firm rest

theorem Linked.append_right {firm : TokenKind → Prop} {before rest : List TokenKind}
    (linked : Linked firm (before ++ rest)) : Linked firm rest := by
  induction before with
  | nil => exact linked
  | cons kind before ih => exact ih linked.2

/-- Another token of a line may stand between two tokens. -/
theorem Linked.insert {firm : TokenKind → Prop} {before rest : List TokenKind} {kind next : TokenKind}
    (linked : Linked firm (before ++ next :: rest)) (here : firm kind) (there : firm next) :
    Linked firm (before ++ kind :: next :: rest) := by
  induction before with
  | nil => exact ⟨fun _ => ⟨next, rfl, there⟩, linked⟩
  | cons first before ih =>
    refine ⟨fun inline => ?_, ih linked.2⟩
    obtain ⟨second, follows, isFirm⟩ := linked.1 inline
    cases before with
    | nil => exact ⟨kind, rfl, here⟩
    | cons other before => exact ⟨second, follows, isFirm⟩

/-- Tokens of a line are followed by another one. -/
theorem Linked.length_lt {firm : TokenKind → Prop} {line kinds back : List TokenKind} (linked : Linked firm kinds)
    (inline : ∀ kind ∈ line, kind.isInline) (room : 0 < kinds.length) (begins : line <+: kinds ++ back) :
    line.length < kinds.length := by
  induction line generalizing kinds with
  | nil => exact room
  | cons kind line ih =>
    cases kinds with
    | nil => cases room
    | cons first rest =>
      obtain ⟨rfl, later⟩ := List.cons_prefix_cons.1 (show kind :: line <+: first :: (rest ++ back) from begins)
      obtain ⟨next, follows, -⟩ := linked.1 (inline kind List.mem_cons_self)
      have more : 0 < rest.length := by
        cases rest with
        | nil => cases follows
        | cons => exact Nat.succ_pos _
      have := ih linked.2 (fun other member => inline other (List.mem_cons_of_mem _ member)) more later
      rw [List.length_cons, List.length_cons]
      omega

/-- One line and its end. -/
def Single (kinds : List TokenKind) : Prop := ∃ line, kinds = line ++ [.newline] ∧ ∀ kind ∈ line, kind.isInline

/-- Another token may stand in a line in front of its end. -/
theorem Single.insert {before rest : List TokenKind} {kind next : TokenKind} (single : Single (before ++ next :: rest))
    (inline : kind.isInline) : Single (before ++ kind :: next :: rest) := by
  obtain ⟨line, same, online⟩ := single
  obtain ⟨others, last, split⟩ : ∃ others last, next :: rest = others ++ [last] :=
    ⟨_, _, (List.dropLast_append_getLast (List.cons_ne_nil next rest)).symm⟩
  rw [split, ← List.append_assoc] at same
  obtain ⟨rfl, ends⟩ := List.append_inj' same rfl
  refine ⟨before ++ kind :: others, by rw [split, ← ends]; simp, fun other member => ?_⟩
  simp only [List.mem_append, List.mem_cons] at member online
  rcases member with early | rfl | late
  · exact online other (.inl early)
  · exact inline
  · exact online other (.inr late)

/-- What two documents have besides a part in common, and what a parse of the second has done before it comes to
that part. `front` and `back` are the tokens around the part, `numbers` those of the second front, `places` tells
which places answer to each other, and the tokens `held`, the `errors` and the way `gone` are what the second parse
has over the first. The `floor` is how many of the nodes under construction are not to be ended. In a `lined` frame
the part is met line by line, and layout may stand elsewhere in the two documents; in a `clean` one only parses
without errors are compared, while one that is lined but not clean is about a single line; in a `literal` one lines
end alike. In a `thrifty` one the parses may search the ends of blocks at different lengths, and only those that keep
to the layout and give up no statement are compared. -/
structure Frame where
  front : List TokenView × List TokenView
  back : List TokenView × List TokenView
  numbers : List Nat
  places : Position → Position → Prop
  lined : Prop
  clean : Prop
  literal : Prop
  thrifty : Prop
  held : List Cell
  errors : List ParseError
  gone : Nat
  floor : Nat
  min {p p' q q' : Position} : places p p' → places q q' → places (p.min q) (p'.min q')
  max {p p' q q' : Position} : places p p' → places q q' → places (p.max q) (p'.max q')
  closed : lined ∨ back = ([], [])
  lined_of_clean : clean → lined
  floor_pos : 0 < floor

namespace Frame

theorem nothing_behind {lined : Prop} : lined ∨ (([], []) : List TokenView × List TokenView) = ([], []) := .inr rfl

/-- The frame of two documents that are nothing but what they have in common. -/
def whole : Frame where
  front := ([], [])
  back := ([], [])
  numbers := []
  places _ _ := True
  lined := False
  clean := False
  literal := False
  thrifty := False
  held := []
  errors := []
  gone := 0
  floor := 1
  min _ _ := trivial
  max _ _ := trivial
  closed := nothing_behind
  lined_of_clean := id
  floor_pos := Nat.one_pos

variable (c : Frame)

/-- What the cursor may stand at within a statement. -/
def Firm (kind : TokenKind) : Prop := c.lined → kind.isLayout = false

theorem firm_of_plain {kind : TokenKind} (plain : kind.isLayout = false) : c.Firm kind := fun _ => plain

/-- The pairing of a frame, with the tokens that answer to each other. -/
def pairing (tokens : Nat → Nat → Prop) : Pairing where
  tokens := tokens
  places := c.places
  layout p q := c.lined ∨ c.places p q
  progress here there := there = here + c.gone
  depths depth other := depth = other ∧ c.floor ≤ depth

theorem pairing_monotone (tokens : Nat → Nat → Prop) : (c.pairing tokens).Monotone := ⟨c.min, c.max⟩

theorem pairing_le {tokens tokens' : Nat → Nat → Prop} (le : ∀ i j, tokens i j → tokens' i j) :
    c.pairing tokens ≤ c.pairing tokens' :=
  ⟨le, le_refl (c.pairing tokens).places, le_refl (c.pairing tokens).layout, le_refl (c.pairing tokens).progress,
    le_refl (c.pairing tokens).depths⟩

/-- Tokens of the common part that are seen as one and the same. -/
structure Sees (a b : TokenView) : Prop where
  gist : a.gist = b.gist
  text : c.literal → a.text = b.text
  first : (c.pairing fun _ _ => False).spots a.kind a.first b.first
  last : (c.pairing fun _ _ => False).spots a.kind a.last b.last

theorem Sees.kind {c : Frame} {a b : TokenView} (sees : c.Sees a b) : a.kind = b.kind :=
  congrArg Gist.kind sees.gist

theorem sees_kinds {c : Frame} {shared other : List TokenView} (sees : List.Forall₂ c.Sees shared other) :
    shared.map TokenView.kind = other.map TokenView.kind := by
  induction sees with
  | nil => rfl
  | cons first _ ih => rw [List.map_cons, List.map_cons, first.kind, ih]

/-- A token that stands firm has its place in both documents. -/
theorem places_of_firm {kind : TokenKind} {p q : Position} (spots : (c.pairing fun _ _ => False).spots kind p q)
    (firm : c.Firm kind) : c.places p q := by
  rw [Pairing.spots] at spots
  split at spots
  next layout =>
    refine spots.resolve_left fun lined => ?_
    rw [firm lined] at layout
    cases layout
  next => exact spots

end Frame

namespace TokenStream

/-- All tokens that are not comments, as they can be seen. -/
def views (s : TokenStream) : List TokenView := (s.tokens.filter (·.kind != .comment)).map Token.view

/-- How many tokens that are not comments stand in front of the cursor. -/
def rank (s : TokenStream) : Nat := (significant s.behind).length

/-- The token with the number has so many tokens before it that are not comments, and is none itself. -/
def Ranked (s : TokenStream) (number rank : Nat) : Prop :=
  ((significant s.document).map Cell.index)[rank]? = some number

end TokenStream

open TokenStream

namespace Frame

variable (c : Frame)

/-- How many tokens of the common part are still to be met. -/
def room (s : TokenStream) : Nat := s.views.length - (s.rank + c.back.1.length)

/-- What answers to what when the parses have come to two streams. -/
def pairs (s t : TokenStream) : Pairing := c.pairing fun number other =>
  ∃ rank, c.front.1.length + rank + c.back.1.length < s.views.length ∧
    s.Ranked number (c.front.1.length + rank) ∧ t.Ranked other (c.front.2.length + rank)

/-- Both documents hold the common part, and so much of it is behind both cursors. -/
structure Shares (s t : TokenStream) (shared other : List TokenView) (past : Nat) : Prop where
  left : s.views = c.front.1 ++ shared ++ c.back.1
  right : t.views = c.front.2 ++ other ++ c.back.2
  sees : List.Forall₂ c.Sees shared other
  linked : Linked c.Firm (shared.map TokenView.kind)
  single : c.lined → ¬ c.clean → Single (shared.map TokenView.kind)
  here : s.rank = c.front.1.length + past
  there : t.rank = c.front.2.length + past
  within : past ≤ shared.length
  numbers : ((significant t.document).map Cell.index).take c.front.2.length = c.numbers

/-- The cursors are equally far in the common part or both directly behind it. -/
structure SameRank (s t : TokenStream) : Prop where
  sound : s.Sound ∧ t.Sound
  rests : s.Rests ∧ t.Rests
  dialect : s.dialect = t.dialect
  shares : ∃ shared other past, c.Shares s t shared other past

/-- The cursors are at tokens of the common part that answer to each other. -/
structure SameToken (s t : TokenStream) : Prop extends c.SameRank s t where
  room : 0 < c.room s
  firm : c.Firm s.current.kind

end Frame

namespace TokenStream

variable {s t s' t' : TokenStream}

/-! ### What can be seen -/

theorem views_eq (s : TokenStream) : s.views =
    ((significant s.behind).map fun cell => cell.view).reverse ++
      (s.upcoming.filter (·.kind != .comment)).map Token.view := by
  rw [views, tokens_eq, List.filter_append, List.map_append, List.filter_map, List.map_map, List.filter_reverse,
    List.map_reverse]
  rfl

theorem upcoming_cons (rests : s.Rests) : s.upcoming.filter (·.kind != .comment) = s.current.toToken ::
    (s.ahead.map Cell.toToken ++ s.unread).filter (·.kind != .comment) := by
  have met : (s.current.kind != .comment) = true := bne_iff_ne.2 rests
  simp [upcoming, met]

theorem drop_views (s : TokenStream) : s.views.drop s.rank =
    (s.upcoming.filter (·.kind != .comment)).map Token.view := by
  rw [views_eq]
  exact List.drop_left' (by simp [rank])

theorem kinds_eq_drop (s : TokenStream) : s.kinds = (s.views.drop s.rank).map TokenView.kind := by
  rw [drop_views, kinds, List.filter_map, List.map_map]
  rfl

theorem views_at_rank (rests : s.Rests) : s.views[s.rank]? = some s.current.view := by
  have front := congrArg List.head? s.drop_views
  rw [upcoming_cons rests, List.map_cons, List.head?_cons, List.head?_drop] at front
  exact front

theorem rank_lt (rests : s.Rests) : s.rank < s.views.length :=
  (List.getElem?_eq_some_iff.1 (views_at_rank rests)).1

/-! ### Ranks -/

theorem significant_document (rests : s.Rests) : significant s.document =
    (significant s.behind).reverse ++ s.current :: significant s.ahead := by
  have met : (s.current.kind != .comment) = true := bne_iff_ne.2 rests
  simp [document, significant, met]

theorem ranked_current (rests : s.Rests) : s.Ranked s.current.index s.rank := by
  rw [Ranked, significant_document rests]
  simp [rank]

theorem Ranked.grown {number rank : Nat} (ranked : s.Ranked number rank) (grown : s.document <+: s'.document) :
    s'.Ranked number rank := by
  obtain ⟨rest, same⟩ := grown
  have within := (List.getElem?_eq_some_iff.1 ranked).1
  rw [Ranked, ← same, significant_append, List.map_append, List.getElem?_append_left within]
  exact ranked

theorem Ranked.split {number rank : Nat} (ranked : s.Ranked number rank) :
    ∃ before cell after, s.document = before ++ cell :: after ∧ cell.index = number ∧
      cell.kind ≠ .comment ∧ (significant before).length = rank := by
  rw [Ranked, List.getElem?_map, Option.map_eq_some_iff] at ranked
  obtain ⟨cell, there, same⟩ := ranked
  obtain ⟨within, this⟩ := List.getElem?_eq_some_iff.1 there
  have parts := List.take_append_drop rank (significant s.document)
  rw [List.drop_eq_getElem_cons within, this] at parts
  obtain ⟨before, rest, split, first, second⟩ := List.filter_eq_append_iff.1 parts.symm
  obtain ⟨between, after, rfl, comments, met, -⟩ := List.filter_eq_cons_iff.1 second
  refine ⟨before ++ between, cell, after, by rw [split, List.append_assoc], same, by simpa using met, ?_⟩
  have none : significant between = [] := significant_eq_nil fun other member => by
    simpa using comments other member
  rw [significant_append, none, List.append_nil, significant, first, List.length_take]
  exact Nat.min_eq_left (Nat.le_of_lt within)

/-- The cursor goes to the token of a rank. -/
theorem Sound.seek_ranked (sound : s.Sound) {number rank : Nat} (ranked : s.Ranked number rank) :
    (s.seek number).Rests ∧ (s.seek number).rank = rank := by
  obtain ⟨before, cell, after, split, rfl, met, length⟩ := ranked.split
  rw [seek_eq sound.nodup split]
  refine ⟨met, ?_⟩
  rw [← length]
  simp [TokenStream.rank, significant]

/-! ### Moving -/

theorem Keeps.views (keeps : Keeps s t) : t.views = s.views := by
  rw [TokenStream.views, keeps.tokens, TokenStream.views]

theorem Steps.rank {passed : List Cell} (steps : Steps s passed t) :
    t.rank = s.rank + (significant passed).length := by
  rw [TokenStream.rank, steps.behind, significant_append, List.length_append, Nat.add_comm, TokenStream.rank]
  simp [significant]

theorem Steps.room {passed : List Cell} (c : Frame) (steps : Steps s passed t) :
    c.room t = c.room s - (significant passed).length := by
  rw [Frame.room, Frame.room, steps.rank, steps.keeps.views]
  omega

end TokenStream

namespace Frame

variable {c : Frame} {s t s' t' : TokenStream} {shared other : List TokenView} {past : Nat}

/-! ### The common part -/

theorem Shares.room (shares : c.Shares s t shared other past) : c.room s = shared.length - past := by
  rw [Frame.room, shares.left, shares.here]
  simp only [List.length_append]
  omega

theorem take_middle {α : Type} {front middle : List α} {past : Nat} (within : past ≤ middle.length) (back : List α) :
    (front ++ middle ++ back).take (front.length + past) = front ++ middle.take past := by
  rw [List.append_assoc, List.take_append, List.take_of_length_le (Nat.le_add_right ..), Nat.add_sub_cancel_left,
    List.take_append_of_le_length within]

theorem drop_middle {α : Type} {front middle : List α} {past : Nat} (within : past ≤ middle.length) (back : List α) :
    (front ++ middle ++ back).drop (front.length + past) = middle.drop past ++ back := by
  rw [List.append_assoc, List.drop_append, List.drop_of_length_le (Nat.le_add_right ..), Nat.add_sub_cancel_left,
    List.drop_append_of_le_length within, List.nil_append]

/-- Tokens that are added at the end leave the front as it is. -/
theorem Shares.numbers_grown (shares : c.Shares s t shared other past) (grown : t.document <+: t'.document) :
    ((significant t'.document).map Cell.index).take c.front.2.length = c.numbers := by
  obtain ⟨rest, same⟩ := grown
  have within : c.front.2.length ≤ ((significant t.document).map Cell.index).length := by
    have behind : t.rank ≤ (significant t.document).length := by
      rw [rank, TokenStream.document, significant_append, List.length_append]
      simp [significant]
    rw [shares.there] at behind
    rw [List.length_map]
    exact Nat.le_trans (Nat.le_add_right ..) behind
  rw [← shares.numbers, ← same, significant_append, List.map_append, List.take_append_of_le_length within]

theorem Shares.length_eq (shares : c.Shares s t shared other past) : shared.length = other.length :=
  shares.sees.length_eq

/-- The kinds of the tokens to come, first those of the common part. -/
theorem SameRank.kinds (atRank : c.SameRank s t) : ∃ kinds, s.kinds = kinds ++ c.back.1.map TokenView.kind ∧
    t.kinds = kinds ++ c.back.2.map TokenView.kind ∧ Linked c.Firm kinds ∧ kinds.length = c.room s := by
  obtain ⟨shared, other, past, shares⟩ := atRank.shares
  have within := shares.within
  refine ⟨(shared.drop past).map TokenView.kind, ?_, ?_, ?_, ?_⟩
  · rw [kinds_eq_drop, shares.left, shares.here, drop_middle within, List.map_append]
  · rw [kinds_eq_drop, shares.right, shares.there, drop_middle (shares.length_eq ▸ within), List.map_append,
      List.map_drop, List.map_drop, sees_kinds shares.sees]
  · have linked := shares.linked
    rw [← List.take_append_drop past shared, List.map_append] at linked
    exact linked.append_right
  · rw [List.length_map, List.length_drop, shares.room]

/-- Where the common part is a single line, its end is behind all else that is left of it. -/
theorem SameRank.single (atRank : c.SameRank s t) (lined : c.lined) (dirty : ¬ c.clean) (room : 0 < c.room s) :
    ∃ line, s.kinds = line ++ .newline :: c.back.1.map TokenView.kind ∧ (∀ kind ∈ line, kind.isInline) ∧
      c.room s = line.length + 1 := by
  obtain ⟨shared, other, past, shares⟩ := atRank.shares
  obtain ⟨line, split, inline⟩ := shares.single lined dirty
  have length := congrArg List.length split
  simp only [List.length_map, List.length_append, List.length_singleton] at length
  have remains := shares.room
  have within : past ≤ line.length := by omega
  refine ⟨line.drop past, ?_, fun kind member => inline kind (List.mem_of_mem_drop member), ?_⟩
  · rw [kinds_eq_drop, shares.left, shares.here, drop_middle shares.within, List.map_append, List.map_drop, split,
      List.drop_append_of_le_length within, List.append_assoc]
    rfl
  · rw [List.length_drop]
    omega

/-- A token of the common part is seen as the same in both documents. -/
theorem Shares.sees_at (shares : c.Shares s t shared other past) {rank : Nat} (inside : rank < shared.length) :
    ∃ a b, s.views[c.front.1.length + rank]? = some a ∧ t.views[c.front.2.length + rank]? = some b ∧
      c.Sees a b := by
  have inside' : rank < other.length := shares.length_eq ▸ inside
  refine ⟨shared[rank], other[rank], ?_, ?_, shares.sees.get inside inside'⟩
  · rw [shares.left, List.append_assoc, List.getElem?_append_right (Nat.le_add_right ..), Nat.add_sub_cancel_left,
      List.getElem?_append_left inside, List.getElem?_eq_getElem inside]
  · rw [shares.right, List.append_assoc, List.getElem?_append_right (Nat.le_add_right ..), Nat.add_sub_cancel_left,
      List.getElem?_append_left inside', List.getElem?_eq_getElem inside']

/-- The tokens at the cursors, as long as these are in the common part. -/
theorem SameRank.sees (atRank : c.SameRank s t) (room : 0 < c.room s) : c.Sees s.current.view t.current.view := by
  obtain ⟨shared, other, past, shares⟩ := atRank.shares
  have inside : past < shared.length := by
    have := shares.room
    omega
  obtain ⟨a, b, left, right, sees⟩ := shares.sees_at inside
  rw [← shares.here, views_at_rank atRank.rests.1] at left
  rw [← shares.there, views_at_rank atRank.rests.2] at right
  rwa [Option.some.inj left, Option.some.inj right]

theorem SameRank.kind (atRank : c.SameRank s t) (room : 0 < c.room s) : s.current.kind = t.current.kind :=
  (atRank.sees room).kind

theorem SameToken.kind (atToken : c.SameToken s t) : s.current.kind = t.current.kind :=
  atToken.toSameRank.kind atToken.room

theorem SameRank.pairs_current (atRank : c.SameRank s t) (room : 0 < c.room s) :
    (c.pairs s t).tokens s.current.index t.current.index := by
  obtain ⟨shared, other, past, shares⟩ := atRank.shares
  refine ⟨past, ?_, shares.here ▸ ranked_current atRank.rests.1, shares.there ▸ ranked_current atRank.rests.2⟩
  rw [Frame.room, shares.here] at room
  omega

theorem SameRank.current (atRank : c.SameRank s t) (room : 0 < c.room s) : Alike (c.pairs s t) s.current t.current :=
  have sees := atRank.sees room
  ⟨sees.gist, atRank.pairs_current room, sees.first, sees.last⟩

theorem SameToken.current (atToken : c.SameToken s t) : Alike (c.pairs s t) s.current t.current :=
  atToken.toSameRank.current atToken.room

/-- A node that is begun at the cursors is begun at places that answer to each other. -/
theorem SameToken.places (atToken : c.SameToken s t) : c.places s.current.first t.current.first :=
  c.places_of_firm (atToken.sees atToken.room).first atToken.firm

/-! ### Both streams move -/

theorem pairs_keeps (left : Keeps s s') (right : Keeps t t') : c.pairs s t ≤ c.pairs s' t' :=
  c.pairing_le fun _ _ ⟨rank, within, here, there⟩ =>
    ⟨rank, left.views ▸ within, here.grown left.document, there.grown right.document⟩

theorem SameRank.keeps (atRank : c.SameRank s t) (left : Keeps s s') (right : Keeps t t') (rests : s'.Rests ∧ t'.Rests)
    {past : Nat} (here : s'.rank = c.front.1.length + past) (there : t'.rank = c.front.2.length + past)
    (within : c.front.1.length + past + c.back.1.length ≤ s.views.length) : c.SameRank s' t' := by
  obtain ⟨shared, other, _, shares⟩ := atRank.shares
  refine ⟨⟨left.sound, right.sound⟩, rests, left.dialect.trans (atRank.dialect.trans right.dialect.symm),
    shared, other, past, ?_⟩
  have lengths := congrArg List.length shares.left
  simp only [List.length_append] at lengths
  exact ⟨left.views.trans shares.left, right.views.trans shares.right, shares.sees, shares.linked,
    shares.single, here, there, by omega, shares.numbers_grown right.document⟩

/-- Both streams go over equally many tokens of the common part. -/
theorem SameRank.move (atRank : c.SameRank s t) {passed passed' : List Cell} (left : Steps s passed s')
    (right : Steps t passed' t') (rests : s'.Rests ∧ t'.Rests)
    (equally : (significant passed).length = (significant passed').length)
    (room : (significant passed).length ≤ c.room s) : c.SameRank s' t' ∧ c.pairs s t ≤ c.pairs s' t' := by
  refine ⟨?_, pairs_keeps left.keeps right.keeps⟩
  obtain ⟨shared, other, past, shares⟩ := atRank.shares
  have here : s'.rank = c.front.1.length + (past + (significant passed).length) := by
    rw [left.rank, shares.here, Nat.add_assoc]
  refine atRank.keeps left.keeps right.keeps rests here ?_ ?_
  · rw [right.rank, shares.there, Nat.add_assoc, equally]
  · have remains := shares.room
    have within := shares.within
    have lengths := congrArg List.length shares.left
    simp only [List.length_append] at lengths
    omega

/-- Streams that have only read, without moving. -/
theorem SameRank.read (atRank : c.SameRank s t) (left : Steps s [] s') (right : Steps t [] t') :
    c.SameRank s' t' ∧ c.pairs s t ≤ c.pairs s' t' := by
  refine atRank.move left right ?_ rfl (Nat.zero_le _)
  rw [Rests, left.current_eq, Rests, right.current_eq]
  exact atRank.rests

theorem SameToken.read (atToken : c.SameToken s t) (left : Steps s [] s') (right : Steps t [] t') :
    c.SameToken s' t' ∧ c.pairs s t ≤ c.pairs s' t' := by
  obtain ⟨atRank, kept⟩ := atToken.toSameRank.read left right
  refine ⟨⟨atRank, ?_, left.current_eq ▸ atToken.firm⟩, kept⟩
  rw [left.room]
  exact atToken.room

/-- Both streams go over the tokens at the cursors and the comments behind them. -/
theorem SameRank.step (atRank : c.SameRank s t) (room : 0 < c.room s) {comments comments' : List Cell}
    (left : Steps s (s.current :: comments) s') (others : ∀ cell ∈ comments, cell.kind = .comment)
    (right : Steps t (t.current :: comments') t') (others' : ∀ cell ∈ comments', cell.kind = .comment)
    (rests : s'.Rests ∧ t'.Rests) : c.SameRank s' t' ∧ c.pairs s t ≤ c.pairs s' t' := by
  have met := significant_cons_comments atRank.rests.1 others
  have met' := significant_cons_comments atRank.rests.2 others'
  exact atRank.move left right rests (by rw [met, met']; rfl) (by rw [met]; exact room)

/-- The common part goes on behind a token of a line, and the cursor may stand there. -/
theorem SameToken.room_behind (atToken : c.SameToken s t) (inside : c.lined → s.current.kind ≠ .newline)
    (more : s.current.kind ≠ .endOfFile) :
    1 < c.room s ∧ ∀ next ∈ s.kinds.tail.head?, c.Firm next := by
  obtain ⟨kinds, left, -, linked, length⟩ := atToken.kinds
  obtain ⟨rest, same⟩ := kinds_eq_cons atToken.rests.1
  have room := atToken.room
  cases kinds with
  | nil =>
    rw [List.length_nil] at length
    omega
  | cons kind kinds =>
    obtain ⟨rfl, rfl⟩ := List.cons.inj (same.symm.trans left)
    rw [left]
    by_cases lined : c.lined
    · have inline : s.current.kind.isInline := by
        have plain := atToken.firm lined
        have rests : s.current.kind ≠ .comment := atToken.rests.1
        have online := inside lined
        revert plain online more rests
        generalize s.current.kind = kind
        cases kind <;> simp [TokenKind.isLayout, TokenKind.isInline, TokenKind.isLineEnd]
      obtain ⟨next, follows, firm⟩ := linked.1 inline
      cases kinds with
      | nil => cases follows
      | cons other kinds =>
        obtain rfl := Option.some.inj follows
        refine ⟨by rw [← length, List.length_cons, List.length_cons]; omega, fun after found => ?_⟩
        obtain rfl := Option.some.inj found
        exact firm
    · refine ⟨?_, fun _ _ => fun lines => absurd lines lined⟩
      have through : c.back.1 = [] := congrArg Prod.fst (c.closed.resolve_left lined)
      have ended := atToken.sound.1.upcoming_ended
      rw [← length]
      cases kinds with
      | cons other kinds => simp
      | nil =>
        have only : s.kinds = [s.current.kind] := by rw [left, through]; rfl
        obtain ⟨before, split, -⟩ := ended
        have last : s.kinds = before.filter (· != .comment) ++ [.endOfFile] := by
          rw [TokenStream.kinds, split, List.filter_append]
          rfl
        rw [only] at last
        have single := congrArg List.getLast? last
        rw [List.getLast?_concat] at single
        exact absurd (Option.some.inj single) more

/-- Both streams go over a token of a line. -/
theorem SameToken.step (atToken : c.SameToken s t) (inside : c.lined → s.current.kind ≠ .newline)
    (more : s.current.kind ≠ .endOfFile) {comments comments' : List Cell}
    (left : Steps s (s.current :: comments) s') (others : ∀ cell ∈ comments, cell.kind = .comment)
    (right : Steps t (t.current :: comments') t') (others' : ∀ cell ∈ comments', cell.kind = .comment)
    (rests : s'.Rests ∧ t'.Rests) : c.SameToken s' t' ∧ c.pairs s t ≤ c.pairs s' t' := by
  obtain ⟨room, firm⟩ := atToken.room_behind inside more
  obtain ⟨atRank, kept⟩ := atToken.toSameRank.step atToken.room left others right others' rests
  refine ⟨⟨atRank, ?_, firm _ ?_⟩, kept⟩
  · rw [left.room, significant_cons_comments atToken.rests.1 others, List.length_singleton]
    omega
  · rw [left.kinds_cons atToken.rests.1 others]
    obtain ⟨rest, kinds⟩ := kinds_eq_cons rests.1
    rw [List.tail_cons, kinds]
    rfl

/-! ### Going to a token -/

/-- Both streams go to tokens that answer to each other. -/
theorem SameRank.seek (atRank : c.SameRank s t) {number number' : Nat} (pair : (c.pairs s t).tokens number number') :
    c.SameRank (s.seek number) (t.seek number') ∧ c.pairs s t ≤ c.pairs (s.seek number) (t.seek number') ∧
      0 < c.room (s.seek number) := by
  obtain ⟨rank, within, here, there⟩ := pair
  have left := atRank.sound.1.seek number
  have right := atRank.sound.2.seek number'
  obtain ⟨rests, arrived⟩ := atRank.sound.1.seek_ranked here
  obtain ⟨rests', arrived'⟩ := atRank.sound.2.seek_ranked there
  refine ⟨atRank.keeps left right ⟨rests, rests'⟩ arrived arrived' (Nat.le_of_lt within),
    pairs_keeps left right, ?_⟩
  rw [Frame.room, arrived, left.views]
  omega

end Frame

/-! ### Putting a name in -/

namespace TokenStream

variable {s t : TokenStream}

/-- A name has been put in at the cursor. -/
def named (s : TokenStream) : TokenStream :=
  { s with
    behind := placeholder s.current .name missingName s.size :: s.behind
    current := { s.current with lead := "" }, size := s.size + 1 }

theorem insertMissingName_named (sound : s.Sound) (rests : s.Rests) (defined : s.dialect.defines .name) :
    insertMissingName s = .ok (placeholder s.current .name missingName s.size) s.named ∧ s.named.Sound := by
  have accepted : s.dialect.require .name = .ok () := by simp [Dialect.require, defined]
  have inserts : insertMissingName s = .ok (placeholder s.current .name missingName s.size) s.named := by
    rw [insertMissingName, insertHere, accepted]
    rfl
  obtain ⟨cell, t, same, -, -, sound, -⟩ := insertMissingName_eq sound rests defined
  rw [inserts] at same
  obtain ⟨-, rfl⟩ := EStateM.Result.ok.inj same
  exact ⟨inserts, sound⟩

theorem significant_named (rests : s.Rests) : significant s.named.document =
    (significant s.behind).reverse ++
      placeholder s.current .name missingName s.size :: s.named.current :: significant s.ahead := by
  have rests' : s.named.Rests := rests
  have behind : significant s.named.behind =
      placeholder s.current .name missingName s.size :: significant s.behind := rfl
  rw [significant_document rests', behind, List.reverse_cons, List.append_assoc]
  rfl

theorem rank_named (s : TokenStream) : s.named.rank = s.rank + 1 := rfl

/-- What is seen of a name that was put in. -/
def placeholderView (following : Position) : TokenView :=
    ⟨⟨.name, missingName, true⟩, missingName, following, following⟩

theorem views_named (rests : s.Rests) : s.named.views =
    s.views.take s.rank ++ placeholderView s.current.first :: s.views.drop s.rank := by
  have rests' : s.named.Rests := rests
  have front : s.views.take s.rank = ((significant s.behind).map fun cell => cell.view).reverse := by
    rw [views_eq]
    exact List.take_left' (by simp [rank])
  have behind : significant s.named.behind =
      placeholder s.current .name missingName s.size :: significant s.behind := rfl
  rw [front, drop_views, views_eq, upcoming_cons rests', upcoming_cons rests, behind, List.map_cons,
    List.reverse_cons, List.append_assoc]
  rfl

/-- Tokens behind the one put in move on by one rank. -/
theorem Ranked.named {number rank : Nat} (rests : s.Rests) (ranked : s.Ranked number rank) :
    s.named.Ranked number (if rank < s.rank then rank else rank + 1) := by
  rw [Ranked, significant_document rests, List.map_append] at ranked
  rw [Ranked, significant_named rests, List.map_append]
  have length : (significant s.behind).length = s.rank := rfl
  split
  next early =>
    rw [List.getElem?_append_left (by simpa [length] using early)] at ranked ⊢
    exact ranked
  next late =>
    have late : s.rank ≤ rank := Nat.le_of_not_lt late
    rw [List.getElem?_append_right (by simpa [length] using late)] at ranked
    rw [List.getElem?_append_right (by simpa [length] using Nat.le_succ_of_le late)]
    rw [List.length_map, List.length_reverse, length] at ranked ⊢
    rw [Nat.succ_sub late]
    exact ranked

theorem ranked_placeholder (rests : s.Rests) : s.named.Ranked s.size s.rank := by
  rw [Ranked, significant_named rests]
  simp [placeholder, rank]

end TokenStream

namespace Frame

variable {c : Frame} {s t : TokenStream}

/-- Both streams get a name put in, and the two names answer to each other. -/
theorem SameToken.named (atToken : c.SameToken s t) (sound : s.named.Sound ∧ t.named.Sound) :
    c.SameToken s.named t.named ∧ c.pairs s t ≤ c.pairs s.named t.named ∧
      Alike (c.pairs s.named t.named) (placeholder s.current .name missingName s.size)
        (placeholder t.current .name missingName t.size) := by
  obtain ⟨shared, other, past, shares⟩ := atToken.shares
  have placed := atToken.places
  have inside : past < shared.length := by
    have := atToken.room
    rw [shares.room] at this
    omega
  have inside' : past < other.length := shares.length_eq ▸ inside
  have left : s.named.views =
      c.front.1 ++ (shared.take past ++ placeholderView s.current.first :: shared.drop past) ++ c.back.1 := by
    rw [views_named atToken.rests.1, shares.left, shares.here, take_middle (Nat.le_of_lt inside),
      drop_middle (Nat.le_of_lt inside)]
    simp
  have right : t.named.views =
      c.front.2 ++ (other.take past ++ placeholderView t.current.first :: other.drop past) ++ c.back.2 := by
    rw [views_named atToken.rests.2, shares.right, shares.there, take_middle (Nat.le_of_lt inside'),
      drop_middle (Nat.le_of_lt inside')]
    simp
  have name : c.Sees (placeholderView s.current.first) (placeholderView t.current.first) :=
    ⟨rfl, fun _ => rfl, placed, placed⟩
  have current : s.current.kind = shared[past].kind := by
    have at' := views_at_rank atToken.rests.1
    rw [shares.left, shares.here, List.append_assoc, List.getElem?_append_right (Nat.le_add_right ..),
      Nat.add_sub_cancel_left, List.getElem?_append_left inside, List.getElem?_eq_getElem inside, Option.some.injEq]
      at at'
    rw [at']
    rfl
  have shares' : c.Shares s.named t.named (shared.take past ++ placeholderView s.current.first :: shared.drop past)
      (other.take past ++ placeholderView t.current.first :: other.drop past) (past + 1) := by
    refine ⟨left, right, ?_, ?_, fun lined dirty => ?_, ?_, ?_, ?_, ?_⟩
    · exact List.rel_append (List.forall₂_take past shares.sees) (.cons name (List.forall₂_drop past shares.sees))
    · have linked := shares.linked
      rw [← List.take_append_drop past shared, List.map_append, List.drop_eq_getElem_cons inside, List.map_cons]
        at linked
      rw [List.map_append, List.map_cons, List.drop_eq_getElem_cons inside, List.map_cons]
      exact linked.insert (c.firm_of_plain rfl) (current ▸ atToken.firm)
    · have single := shares.single lined dirty
      rw [← List.take_append_drop past shared, List.map_append, List.drop_eq_getElem_cons inside, List.map_cons]
        at single
      rw [List.map_append, List.map_cons, List.drop_eq_getElem_cons inside, List.map_cons]
      exact single.insert rfl
    · rw [rank_named, shares.here, Nat.add_assoc]
    · rw [rank_named, shares.there, Nat.add_assoc]
    · rw [List.length_append, List.length_take, List.length_cons]
      omega
    · have within : c.front.2.length ≤ ((significant t.behind).reverse.map Cell.index).length := by
        rw [List.length_map, List.length_reverse, show (significant t.behind).length = t.rank from rfl, shares.there]
        exact Nat.le_add_right ..
      have numbers := shares.numbers
      rw [significant_document atToken.rests.2, List.map_append, List.take_append_of_le_length within] at numbers
      rw [significant_named atToken.rests.2, List.map_append, List.take_append_of_le_length within, numbers]
  have grown : s.named.views.length = s.views.length + 1 := by
    rw [left, shares.left]
    simp only [List.length_append, List.length_take, List.length_cons, List.length_drop]
    omega
  refine ⟨⟨⟨sound, atToken.rests, atToken.dialect, _, _, _, shares'⟩, ?_, atToken.firm⟩, ?_, rfl, ?_, placed, placed⟩
  · have := atToken.room
    rw [Frame.room] at this ⊢
    rw [rank_named, grown]
    omega
  · refine c.pairing_le fun number number' ⟨rank, within, here, there⟩ => ?_
    have here := here.named atToken.rests.1
    have there := there.named atToken.rests.2
    simp only [shares.here, Nat.add_lt_add_iff_left] at here
    simp only [shares.there, Nat.add_lt_add_iff_left] at there
    by_cases early : rank < past
    · rw [if_pos early] at here there
      exact ⟨rank, by omega, here, there⟩
    · rw [if_neg early] at here there
      exact ⟨rank + 1, by omega, here, there⟩
  · refine ⟨past, ?_, shares.here ▸ ranked_placeholder atToken.rests.1,
      shares.there ▸ ranked_placeholder atToken.rests.2⟩
    have := congrArg List.length shares.left
    simp only [List.length_append] at this
    omega

end Frame

end TolerantParser
