import TolerantParser.Proofs.Parser.Repair

/-!
Tokens that a production asks for: taken if they are there, handed to a node that has been made, looked
for further on, or passed over up to the end of the line.
-/

namespace TolerantParser.Parser

variable {α β : Type} {laid lead : Prop} {mode mode' wider : Mode} {level deep deep' : Depth} {p q r o : Parser}
  {ps qs : List Piece}

theorem eat_eq (kind : TokenKind) :
    eat kind = at? kind >>= fun here => if here then bump >>= fun _ => pure true else pure false := by
  unfold eat eat?
  simp only [bind_assoc]
  congr 1
  funext here
  cases here <;> simp

/-- A token is taken if it is there, and leads to another depth. -/
theorem Moves.eatPasses {kind : TokenKind} {g : Bool → ParseM β} {post : Post β}
    (moves : Moves laid wider lead ps o q) (ready : Ready laid mode' deep q)
    (passes : deep.Passes kind deep')
    (eaten : ∀ cell r, cell.kind = kind → Moves laid wider lead (ps ++ [.token cell]) o r →
      Ready laid .line deep' r → (kind ≠ .name → r.weight < q.weight) →
        Completes laid mode lead level p (g true) r post)
    (missing : q.cell.kind ≠ kind → Completes laid mode lead level p (g false) q post)
    [inside : Inside p o] :
    Completes laid mode lead level p (eat kind >>= g) q post := by
  rw [eat_eq, bind_assoc, completes_at]
  split
  next here =>
    have here : q.cell.kind = kind := by simpa using here
    rw [bind_assoc]
    refine moves.bind (bump_passes ready (here ▸ passes)) fun cell qs r moves ready bumped => ?_
    rw [bumped.pieces] at moves
    exact eaten _ r here moves ready fun other => bumped.weight (here ▸ other)
  next here => exact missing (by simpa using here)

/-- A token other than a bracket is taken if it is there. -/
theorem Moves.eat {kind : TokenKind} {g : Bool → ParseM β} {post : Post β}
    (moves : Moves laid wider lead ps o q) (ready : Ready laid mode' deep q) (ordinary : kind.isOrdinary)
    (eaten : ∀ cell r, cell.kind = kind → Moves laid wider lead (ps ++ [.token cell]) o r →
      Ready laid .line deep r → (kind ≠ .name → r.weight < q.weight) →
        Completes laid mode lead level p (g true) r post)
    (missing : q.cell.kind ≠ kind → Completes laid mode lead level p (g false) q post)
    [inside : Inside p o] :
    Completes laid mode lead level p (eat kind >>= g) q post :=
  moves.eatPasses ready (deep.passes_ordinary ordinary) eaten missing

/-- A token that is known to be there is taken. -/
theorem Moves.bump {g : Cell → ParseM β} {post : Post β} (moves : Moves laid wider lead ps o q)
    (ready : Ready laid mode' deep q) (ordinary : q.cell.kind.isOrdinary)
    (next : ∀ cell r, cell = q.cell → Moves laid wider lead (ps ++ [.token cell]) o r →
      Ready laid .line deep r → (q.cell.kind ≠ .name → r.weight < q.weight) →
        Completes laid mode lead level p (g cell) r post)
    [inside : Inside p o] :
    Completes laid mode lead level p (bump >>= g) q post := by
  refine moves.bind (bump_ordinary ready ordinary) fun cell qs r moves ready bumped => ?_
  rw [bumped.pieces, ← bumped.cell] at moves
  exact next cell r bumped.cell moves ready bumped.weight

/-- The first token of a production is taken, and leads to another depth. -/
theorem Ready.bumpPasses {g : Cell → ParseM β} {post : Post β} (ready : Ready laid mode' deep o)
    (passes : deep.Passes o.cell.kind deep')
    (next : ∀ cell r, cell = o.cell → Moves laid .line lead [.token cell] o r →
      Ready laid .line deep' r → (o.cell.kind ≠ .name → r.weight < o.weight) →
        Completes laid mode lead level p (g cell) r post)
    [inside : Inside p o] :
    Completes laid mode lead level p (bump >>= g) o post := by
  refine Completes.bind ((bump_passes ready passes).weaken fun _ => trivial)
    fun cell qs r moves ready bumped => ?_
  rw [bumped.pieces, ← bumped.cell] at moves
  exact next cell r bumped.cell moves ready bumped.weight

theorem Ready.bump {g : Cell → ParseM β} {post : Post β} (ready : Ready laid mode' deep o)
    (ordinary : o.cell.kind.isOrdinary)
    (next : ∀ cell r, cell = o.cell → Moves laid .line lead [.token cell] o r →
      Ready laid .line deep r → (o.cell.kind ≠ .name → r.weight < o.weight) →
        Completes laid mode lead level p (g cell) r post)
    [inside : Inside p o] :
    Completes laid mode lead level p (bump >>= g) o post :=
  ready.bumpPasses (deep.passes_ordinary ordinary) next

/-- The production begins with an opening bracket. -/
theorem Ready.bumpOpening {g : Cell → ParseM β} {post : Post β} (ready : Ready laid mode' deep o)
    (closer : TokenKind) (opens : o.cell.kind.closer? = some closer)
    (next : ∀ cell r, cell = o.cell → Moves laid .line lead [.token cell] o r →
      Ready laid .line (deep.within closer) r → (o.cell.kind ≠ .name → r.weight < o.weight) →
        Completes laid mode lead level p (g cell) r post)
    [inside : Inside p o] :
    Completes laid mode lead level p (Parser.bump >>= g) o post :=
  ready.bumpPasses (deep.passes_opening opens) next

/-- The parse is where it was but for an error that was found. -/
structure Blamed (p q : Parser) : Prop extends Still p q where
  unclean : ¬ q.Clean

/-- An error is recorded on the way. -/
theorem Moves.complain {kind : ErrorKind} {message : String} {g : Unit → ParseM β} {post : Post β}
    (moves : Moves laid wider lead ps o q) (ready : Ready laid mode' deep q)
    (only : isRecordedOnly kind) (proper : q.Orderly laid → isBlockError kind = false)
    (next : ∀ r, Moves laid wider lead ps o r → Ready laid mode' deep r → Blamed q r →
      Completes laid mode lead level p (g ()) r post)
    [inside : Inside p o] :
    Completes laid mode lead level p (complain kind message >>= g) q post := by
  have free := (complain_takes ready message only proper).parses
  refine Ends.bind (Ends.imp free (fun _ _ holds => holds) fun _ broken =>
    (broken.after moves).inside inside) ?_
  rintro _ r ⟨qs, more, ready', rfl, still, errors⟩
  have still' : Moves laid wider False [] q r := .still still
  exact next r (by simpa using moves.trans still') ready' ⟨still, not_clean_of_push errors⟩

/-- Whether or not an error is recorded on the way, the parse goes on. -/
theorem Moves.complainIf {c : Prop} [Decidable c] {kind : ErrorKind} {message : String}
    {g : Unit → ParseM β} {post : Post β} (moves : Moves laid wider lead ps o q)
    (ready : Ready laid mode' deep q)
    (only : isRecordedOnly kind) (proper : isBlockError kind = false)
    (next : ∀ r, Moves laid wider lead ps o r → Ready laid mode' deep r → Still q r →
      Completes laid mode lead level p (g ()) r post)
    [inside : Inside p o] :
    Completes laid mode lead level p (if c then Parser.complain kind message >>= g else g ()) q post := by
  split
  · exact moves.complain ready only (fun _ => proper) fun r moves ready blamed => next r moves ready blamed.toStill
  · exact next q moves ready ⟨.refl ready.sound, finds_of_eq rfl, rfl, rfl⟩

theorem Moves.complainUnless {c : Prop} [Decidable c] {kind : ErrorKind} {message : String}
    {g : Unit → ParseM β} {post : Post β} (moves : Moves laid wider lead ps o q)
    (ready : Ready laid mode' deep q)
    (only : isRecordedOnly kind) (proper : isBlockError kind = false)
    (next : ∀ r, Moves laid wider lead ps o r → Ready laid mode' deep r → Still q r →
      Completes laid mode lead level p (g ()) r post)
    [inside : Inside p o] :
    Completes laid mode lead level p (if c then g () else Parser.complain kind message >>= g) q post := by
  rw [← ite_not]
  exact moves.complainIf ready only proper next

/-- Nothing but a token of the kind was gone over. -/
structure Expected (kind : TokenKind) (ps : List Piece) : Prop where
  nodes : nodesOf ps = []
  tokens : ∀ cell ∈ tokensOf ps, cell.kind = kind

/-- A token is taken if it is there, and otherwise an error is recorded. -/
theorem Moves.expect {kind : TokenKind} {errorKind : ErrorKind} {message : String}
    {g : Unit → ParseM β} {post : Post β} (moves : Moves laid wider lead ps o q)
    (ready : Ready laid .line deep q) (ordinary : kind.isOrdinary)
    (only : isRecordedOnly errorKind) (proper : isBlockError errorKind = false)
    (next : ∀ more r, Moves laid wider lead (ps ++ more) o r → Ready laid .line deep r →
      Expected kind more → Completes laid mode lead level p (g ()) r post)
    [inside : Inside p o] :
    Completes laid mode lead level p (Parser.eat kind >>= fun there =>
      if there = true then g () else Parser.complain errorKind message >>= g) q post := by
  refine moves.eat ready ordinary (fun cell r same moves ready _ => ?_) (fun _ => ?_)
  · exact next _ r moves ready ⟨rfl, by simpa using same⟩
  · exact moves.complain ready only (fun _ => proper) fun r moves ready _ =>
      next [] r (by simpa using moves) ready ⟨rfl, by simp⟩

/-- The kind of a token further on is looked at. -/
theorem Moves.nth {count : Nat} {g : TokenKind → ParseM β} {post : Post β}
    (moves : Moves laid wider lead ps o q) (ready : Ready laid mode' deep q)
    (next : ∀ r, Moves laid wider lead ps o r → Ready laid mode' deep r → Still q r →
      r.errors = q.errors →
        Completes laid mode lead level p (g (q.kinds[count]?.getD .endOfFile)) r post) :
    Completes laid mode lead level p (nth count >>= g) q post := by
  obtain ⟨cell, t, looks, steps, kind⟩ := TokenStream.peek_eq count ready.sound ready.rests
  have looked : Parser.nth count q = .ok cell.kind { q with engine := { q.engine with stream := t } } :=
    TokenStream.bind_ok (onStream_ok looks) _
  rw [completes_iff, ends_bind_ok looked, kind]
  have still : Still q { q with engine := { q.engine with stream := t } } :=
    ⟨steps, finds_of_eq rfl, rfl, rfl⟩
  have still' : Moves laid wider False [] q { q with engine := { q.engine with stream := t } } :=
    .still still
  refine next _ (by simpa using moves.trans still') (ready.still still fun _ proper => proper) still rfl

/-- A token behind a node goes to the node, if it is there. -/
theorem Moves.eatInto {kind : TokenKind} {node : Node} {run : List Cell}
    {g : Node × Option Cell → ParseM β} {post : Post β}
    (moves : Moves laid wider lead (ps ++ [.node node run]) o q) (around : o.collectors ≠ [])
    (ready : Ready laid mode' deep q) (firm : node.kind.isFirm) (plain : kind.isLayout = false)
    (bumps : q.cell.kind = kind → Parses laid mode' True deep Parser.bump q (Bumped q))
    (within : mode'.Within wider)
    (next : ∀ node' run' cell? r, Moves laid wider lead (ps ++ [.node node' run']) o r →
      Ready laid mode' deep r → node'.kind = node.kind → (run ≠ [] → run' ≠ []) →
      (q.cell.kind = kind → cell?.isSome ∧ (kind ≠ .name → r.weight < q.weight)) →
      (q.cell.kind ≠ kind → cell?.isSome = false ∧ r = q) →
        Completes laid mode lead level p (g (node', cell?)) r post)
    [inside : Inside p o] :
    Completes laid mode lead level p (eatInto node kind >>= g) q post := by
  rw [Parser.eatInto, bind_assoc, completes_at]
  split
  next here =>
    have here : q.cell.kind = kind := by simpa using here
    rw [bind_assoc]
    refine moves.bind (bumps here) fun cell qs r moves ready bumped => ?_
    rw [bumped.pieces, ← bumped.cell] at moves
    have same : cell.kind = kind := by rw [bumped.cell, here]
    obtain ⟨s, attaches, engine, filled, moves⟩ := moves.attach around (fun _ => same ▸ plain)
      firm
    rw [bind_assoc, completes_iff, ends_bind_ok attaches]
    refine next _ _ (some cell) s moves (ready.ofEngine engine filled) rfl (by simp)
      (fun _ => ⟨rfl, fun other => ?_⟩) fun other => absurd here other
    rw [weight, Parser.stream, engine]
    exact bumped.weight (here ▸ other)
  next here =>
    have here : q.cell.kind ≠ kind := by simpa using here
    exact next node run none q moves ready rfl id (fun same => absurd same here) fun _ => ⟨rfl, rfl⟩

theorem kinds_head (ready : Ready laid mode level p) : p.kinds[0]? = some p.cell.kind := by
  obtain ⟨rest, kinds⟩ := TokenStream.kinds_eq_cons ready.rests
  rw [show p.kinds = _ from kinds]
  rfl

/-! ### To the end of the line -/

theorem isInline_of_goesOn {kind : TokenKind} (stands : Mode.line.Stands kind)
    (goesOn : kind.isLineEnd = false) : kind.isInline := by
  rcases stands with inline | rfl
  · exact inline
  · cases goesOn

/-- Once an error has been found, a token of the line is gone over whichever it is. -/
theorem bump_goesOn (ready : Ready laid .line level p) (goesOn : p.cell.kind.isLineEnd = false)
    (unclean : ¬ p.Clean) : Takes laid .line True level bump p (Bumped p) := by
  have more : p.cell.kind ≠ .endOfFile := fun ends => by
    rw [ends] at goesOn
    cases goesOn
  refine bump_takes ready more (fun orderly stands next rest layout => ?_) fun clean => absurd clean unclean
  have inline := isInline_of_goesOn stands goesOn
  exact ⟨by simpa [Mode.Allows] using inline, layout.next inline⟩

theorem kinds_length_le (sound : p.stream.Sound) : p.kinds.length < 2 * (p.stream.total + 1) := by
  have := sound.kinds_length_le
  unfold kinds
  omega

theorem Bumped.shorter {cell : Cell} (bumped : Bumped p cell ps q) : q.kinds.length < p.kinds.length := by
  rw [bumped.kinds]
  exact Nat.lt_succ_self _

/-- At the end of a line there is nothing to be skipped. -/
theorem skipToLineEnd_stays (ends : p.cell.kind.isLineEnd) : skipToLineEnd p = .ok () p := by
  have here : atSet? TokenKind.isLineEnd p = .ok true p := congrArg (EStateM.Result.ok · p) ends
  have start : (get : ParseM Parser) p = .ok p p := rfl
  rw [skipToLineEnd, loop, TokenStream.bind_ok start,
    show 2 * (p.stream.total + 1) = 2 * p.stream.total + 1 + 1 by omega, iterate,
    bind_assoc, TokenStream.bind_ok here]
  rfl

theorem skipToLineEnd_takes (ready : Ready laid .line level p) (unclean : ¬ p.Clean) :
    Takes laid .line (p.cell.kind.isLineEnd = false) level skipToLineEnd p fun _ qs q =>
      nodesOf qs = [] ∧ q.cell.kind.isLineEnd := by
  -- tokens have been gone over since `p`, or the cursor is still there
  let inv : Unit → Parser → Prop := fun _ r => r = p ∨ ∃ qs,
    Moves laid .line (p.cell.kind.isLineEnd = false) qs p r ∧ nodesOf qs = [] ∧
      p.cell.kind.isLineEnd = false ∧ Ready laid .line level r
  refine takes_of_ends (Ends.loop (fun _ r => r.kinds.length) inv (.inl rfl)
    (kinds_length_le ready.sound) ?_)
  intro _ r holds
  have ready' : Ready laid .line level r := by
    rcases holds with rfl | ⟨qs, -, -, -, ready⟩
    · exact ready
    · exact ready
  show Ends (atSet? TokenKind.isLineEnd >>= _) r _ _
  rw [ends_bind_ok (show atSet? TokenKind.isLineEnd r = .ok r.cell.kind.isLineEnd r from rfl)]
  split
  next ends =>
    rcases holds with rfl | ⟨qs, moves, none, goesOn, -⟩
    · refine ⟨[], (Moves.refl laid .line r).weaken fun goesOn => ?_, ready, rfl, ends⟩
      rw [ends] at goesOn
      cases goesOn
    · exact ⟨qs, moves, ready', none, ends⟩
  next goesOn =>
    have goesOn : r.cell.kind.isLineEnd = false := by simpa using goesOn
    rw [discard_bind]
    rcases holds with rfl | ⟨qs, moves, nothing, began, -⟩
    · obtain ⟨cell, s, qs, bumps, moves, ready, bumped⟩ := bump_goesOn ready goesOn unclean
      rw [ends_bind_ok bumps]
      have moves := moves.weaken fun _ : r.cell.kind.isLineEnd = false => trivial
      refine ⟨.inr ⟨qs, moves, ?_, goesOn, ready⟩, bumped.shorter⟩
      rw [bumped.pieces]
      rfl
    · obtain ⟨cell, s, more, bumps, moved, ready, bumped⟩ := bump_goesOn ready' goesOn
        fun clean => unclean (moves.toGrows.clean clean)
      rw [ends_bind_ok bumps]
      refine ⟨.inr ⟨qs ++ more, moves.trans moved, ?_, began, ready⟩, bumped.shorter⟩
      rw [bumped.pieces, nodesOf_append, nothing]
      rfl

end TolerantParser.Parser
