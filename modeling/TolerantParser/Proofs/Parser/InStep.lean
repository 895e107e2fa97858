import TolerantParser.Parser.Expression.Nested
import TolerantParser.Proofs.Parser.Parallel
import TolerantParser.Proofs.Parser.Words

/-!
The steps that productions are made of, taken by two parses in step: looking at tokens, going over them, beginning
and ending nodes, and repeating. Each keeps the parses in step, or tells what is needed for that.
-/

namespace TolerantParser

open TokenStream (Steps significant)
open TolerantParser.Parser (after Retains)

namespace Parser

variable {α β : Type}

/-! ### Errors are kept -/

theorem retains_of_eq {f : ParseM α} (keeps : ∀ p, (after (f p)).engine = p.engine) : Retains f := fun p => by
  have errors : (after (f p)).errors = p.errors := congrArg Engine.errors (keeps p)
  exact ⟨errors ▸ List.prefix_refl _, congrArg Engine.options (keeps p)⟩

theorem retains_modify {change : Parser → Parser} (keeps : ∀ p, (change p).engine = p.engine) :
    Retains (modify change : ParseM PUnit) := retains_of_eq keeps

theorem retains_get_bind {k : Parser → ParseM β} (next : ∀ p, Retains (k p)) : Retains (get >>= k) :=
  retains_get.bind next

theorem Retains.discard {f : ParseM α} (retains : Retains f) : Retains (discard f : ParseM PUnit) := by
  rw [discard_eq]
  exact retains.bind fun _ => retains_pure _

theorem Retains.ite {c : Prop} [Decidable c] {f g : ParseM α} (first : Retains f) (second : Retains g) :
    Retains (if c then f else g) := by
  split
  · exact first
  · exact second

theorem retains_collect (cells : List Cell) : Retains (collect cells) := retains_of_eq fun p => by
  rw [collect_eq]
  rfl

theorem retains_bump : Retains bump := by
  refine retains_get_bind fun p => .ite (retains_pure _) ((retains_onStream _).discard.bind fun _ => ?_)
  exact (retains_collect _).bind fun _ => Retains.bind (retains_modify fun _ => rfl) fun _ => retains_pure _

theorem retains_eat (kind : TokenKind) : Retains (eat kind) := by
  rw [eat_eq]
  exact Retains.bind (retains_of_eq fun _ => rfl) fun _ => .ite (retains_bump.bind fun _ => retains_pure _)
    (retains_pure _)

theorem retains_start : Retains start := retains_of_eq fun _ => rfl

theorem retains_close (marker : Marker) : Retains (close marker) := retains_of_eq fun p => by
  have start : (get : ParseM Parser) p = .ok p p := rfl
  rw [close, TokenStream.bind_ok start]
  cases collectors : p.collectors with
  | nil => rfl
  | cons innermost outer =>
    by_cases wrong : (marker.depth != outer.length) = true
    · simp only [wrong]
      rfl
    · simp only [wrong]
      rfl

theorem retains_attach (node : Node) (cell : Cell) : Retains (attach node cell) := retains_of_eq fun p => by
  have start : (get : ParseM Parser) p = .ok p p := rfl
  have released : (release cell p = .error .notCollected p) ∨
      ∃ collectors, release cell p = .ok () { p with collectors } := by
    rw [release, TokenStream.bind_ok start]
    cases p.collectors with
    | nil => exact .inl rfl
    | cons innermost outer =>
      cases uncollected : uncollect cell innermost with
      | none => simp only [uncollected]; exact .inl rfl
      | some rest => simp only [uncollected]; exact .inr ⟨_, rfl⟩
  rcases released with refused | ⟨collectors, released⟩
  · simp [attach, bind, EStateM.bind, refused, after]
  · rw [attach, TokenStream.bind_ok released]
    rfl

theorem Retains.iterate {body : α → ParseM (ForInStep α)} (retains : ∀ value, Retains (body value)) (bound : Nat)
    (value : α) : Retains (Parser.iterate body bound value) := by
  induction bound generalizing value with
  | zero => exact retains_throw _
  | succ bound ih =>
    refine (retains value).bind fun outcome => ?_
    cases outcome with
    | done value => exact retains_pure value
    | yield value => exact ih value

theorem Retains.loop {body : α → ParseM (ForInStep α)} (retains : ∀ value, Retains (body value)) (init : α) :
    Retains (Parser.loop init body) := retains_get_bind fun _ => .iterate retains _ _

end Parser

namespace Frame

variable {c : Frame} {p q : Parser} {here : TokenKind → Prop}

/-! ### Relations between parses -/

/-- The parses are in step. -/
abbrev Stepped (c : Frame) : Parser → Parser → Prop := c.At fun _ => True

/-- The parses are in step in front of tokens of these kinds. -/
abbrev Coming (c : Frame) (kinds : List TokenKind) (p q : Parser) : Prop := c.InStep p q ∧ kinds <+: p.kinds

/-- The relation does not depend on which tokens the nodes under construction have, as long as these are alike. -/
class Impartial (c : Frame) (rel : Parser → Parser → Prop) : Prop where
  along {p q : Parser} : rel p q → c.Along p q
  rehold {p q : Parser} {held held' : List (Array Cell)} : rel p q → c.Holds (c.paired p q) held held' →
    c.floor ≤ held.length →
    rel { p with collectors := held } { q with collectors := held' }

instance : c.Impartial c.Along where
  along along := along
  rehold along holds deep := ⟨along.stream, along.budget, along.errors, holds, deep, along.position⟩

instance : c.Impartial c.InStep where
  along inStep := inStep.toAlong
  rehold inStep holds deep := ⟨Impartial.rehold inStep.toAlong holds deep, inStep.room, inStep.firm⟩

instance : c.Impartial (c.At here) where
  along holds := holds.1.toAlong
  rehold holds held deep := ⟨Impartial.rehold holds.1 held deep, holds.2⟩

instance {kinds : List TokenKind} : c.Impartial (c.Coming kinds) where
  along holds := holds.1.toAlong
  rehold holds held deep := ⟨Impartial.rehold holds.1 held deep, holds.2⟩

/-- From parses in step at some token on, two productions keep in step. -/
abbrev Follows (c : Frame) {α : Type} [Likeness α] (here : TokenKind → Prop) (W : Pairing) (f g : ParseM α) : Prop :=
  Parallel c (c.At here) (fun _ => c.Stepped) W f g

theorem At.imp {here there : TokenKind → Prop} (weaker : ∀ kind, here kind → there kind) (p q : Parser)
    (holds : c.At here p q) : c.At there p q := ⟨holds.1, weaker _ holds.2⟩

theorem At.stepped (p q : Parser) (holds : c.At here p q) : c.Stepped p q := ⟨holds.1, trivial⟩

theorem At.there {kind : TokenKind} {there : Bool} (eaten : there = true) (p q : Parser)
    (holds : c.At (fun other => here other ∧ (other == kind) = there) p q) : c.At (· = kind) p q :=
  ⟨holds.1, eq_of_beq (holds.2.2.trans eaten)⟩

theorem At.coming {kind : TokenKind} (p q : Parser) (holds : c.At (· = kind) p q) : c.Coming [kind] p q := by
  obtain ⟨rest, kinds⟩ := TokenStream.kinds_eq_cons holds.1.stream.rests.1
  refine ⟨holds.1, rest, ?_⟩
  rw [← holds.2]
  exact kinds.symm

theorem Coming.at {kind : TokenKind} {kinds : List TokenKind} (p q : Parser) (holds : c.Coming (kind :: kinds) p q) :
    c.At (· = kind) p q := by
  obtain ⟨rest, same⟩ := TokenStream.kinds_eq_cons holds.1.stream.rests.1
  obtain ⟨more, coming⟩ := holds.2
  exact ⟨holds.1, (List.cons.inj (coming.trans same)).1.symm⟩

theorem Coming.stepped {kinds : List TokenKind} (p q : Parser) (holds : c.Coming kinds p q) : c.Stepped p q :=
  ⟨holds.1, trivial⟩

/-- Outside of lines that are met one by one, the cursors are always at tokens of the common part. -/
theorem Along.inStep (along : c.Along p q) (through : ¬ c.lined) : c.InStep p q := by
  refine ⟨along, ?_, fun lined => absurd lined through⟩
  have all : c.back.1 = [] := congrArg Prod.fst (c.closed.resolve_left through)
  rw [room, all, List.length_nil, Nat.add_zero]
  exact Nat.sub_pos_of_lt (TokenStream.rank_lt along.stream.rests.1)

/-! ### Going over tokens -/

/-- Both parses go over the tokens at their cursors. -/
theorem Along.bumped (along : c.Along p q) (room : 0 < c.room p.stream) (more : p.cell.kind ≠ .endOfFile) :
    ∃ s t, Parser.bump p = .ok p.cell (p.bumped s) ∧ Parser.bump q = .ok q.cell (q.bumped t) ∧
      c.Along (p.bumped s) (q.bumped t) ∧ c.paired p q ≤ c.pairs s t ∧ p.kinds = p.cell.kind :: s.kinds ∧
      (c.Firm p.cell.kind → (c.lined → p.cell.kind ≠ .newline) → 0 < c.room s ∧ c.Firm s.current.kind) := by
  have kind : p.cell.kind = q.cell.kind := along.stream.kind room
  obtain ⟨comments, s, bumps, steps, others, rests⟩ := Parser.bump_eq along.stream.sound.1 more
  obtain ⟨comments', t, bumps', steps', others', rests'⟩ := Parser.bump_eq along.stream.sound.2 (kind ▸ more)
  obtain ⟨atRank, kept⟩ := along.stream.step room steps others steps' others' ⟨rests, rests'⟩
  have cells : Alike (c.pairs s t) [p.cell] [q.cell] := .cons ((along.stream.current room).mono kept) .nil
  refine ⟨s, t, bumps, bumps', ?_, kept, steps.kinds_cons along.stream.rests.1 others, fun firm inside => ?_⟩
  · exact along.restream atRank kept cells ⟨rfl, rfl⟩ ⟨rfl, rfl⟩ ⟨rfl, rfl⟩ ⟨rfl, rfl⟩
      (by simp only [Parser.bumped]; rw [along.position]; omega)
  · have atToken : c.SameToken p.stream q.stream := ⟨along.stream, room, firm⟩
    obtain ⟨atToken, -⟩ := atToken.step inside more steps others steps' others' ⟨rests, rests'⟩
    exact ⟨atToken.room, atToken.firm⟩

end Frame

namespace Parallel

variable {α β : Type} [Likeness α] [Likeness β] {c : Frame} {W : Pairing} {here : TokenKind → Prop}
  {pre : Parser → Parser → Prop} {post : α → Parser → Parser → Prop}

/-- Both parses take the same branch. -/
protected theorem ite {known : Prop} [Decidable known] {f f' g g' : ParseM α} (first : Parallel c pre post W f f')
    (second : Parallel c pre post W g g') : Parallel c pre post W (if known then f else g)
    (if known then f' else g') := by
  split
  · exact first
  · exact second

/-- From either of two sorts of states. -/
theorem either {f g : ParseM α} {pre' : Parser → Parser → Prop} (first : Parallel c pre post W f g)
    (second : Parallel c pre' post W f g) : Parallel c (fun p q => pre p q ∨ pre' p q) post W f g where
  runs p q before kept := before.elim (fun holds => first.runs p q holds kept) fun holds => second.runs p q holds kept
  retains := first.retains

/-- There are no such states. -/
theorem never {f g : ParseM α} (never : ∀ p q, ¬ pre p q) (retains : Retains f) : Parallel c pre post W f g where
  runs p q before _ := absurd before (never p q)
  retains := retains

/-! ### Looking -/

/-- Steps that only look at the states. -/
theorem look {f g : ParseM α} (see see' : Parser → α) (looks : ∀ p, f p = .ok (see p) p)
    (looks' : ∀ p, g p = .ok (see' p) p) (alike : ∀ p q, pre p q → Alike (c.paired p q) (see p) (see' q))
    (holds : ∀ p q, pre p q → post (see p) p q) : Parallel c pre post W f g where
  runs p q before kept := by
    rw [looks, looks']
    exact .ok (holds p q before) kept (alike p q before)
  retains := Parser.retains_of_eq fun p => by
    rw [looks]
    rfl

theorem at? (kind : TokenKind) : Parallel c (c.At here) (fun there => c.At fun other => here other ∧
    (other == kind) = there) W (Parser.at? kind) (Parser.at? kind) :=
  look (·.cell.kind == kind) _ (fun _ => rfl) (fun _ => rfl) (fun _ _ holds => congrArg (· == kind) holds.1.kind)
    fun _ _ holds => ⟨holds.1, holds.2, rfl⟩

theorem atSet? (accept : TokenKind → Bool) : Parallel c (c.At here) (fun there => c.At fun kind => here kind ∧
    accept kind = there) W (Parser.atSet? accept) (Parser.atSet? accept) :=
  look (accept ·.cell.kind) _ (fun _ => rfl) (fun _ => rfl) (fun _ _ holds => congrArg accept holds.1.kind)
    fun _ _ holds => ⟨holds.1, holds.2, rfl⟩

theorem current : Parallel c (c.At here) (fun kind => c.At fun other => here other ∧ other = kind) W
    Parser.current Parser.current :=
  look (·.cell.kind) _ (fun _ => rfl) (fun _ => rfl) (fun _ _ holds => holds.1.kind)
    fun _ _ holds => ⟨holds.1, holds.2, rfl⟩

theorem features [along : c.Impartial pre] : Parallel c pre (fun _ => pre) W Parser.features Parser.features :=
  look (·.dialect.features) _ (fun _ => rfl) (fun _ => rfl)
    (fun _ _ holds => congrArg Dialect.features (along.along holds).dialect) fun _ _ holds => holds

omit [Likeness α] in
/-- The states are looked at, and what is seen of them is the same. -/
theorem seen {γ : Type} {k l : Parser → ParseM β} {post : β → Parser → Parser → Prop} (see : Parser → γ)
    (same : ∀ p q, pre p q → see p = see q)
    (next : ∀ p q, see p = see q → Parallel c (fun p' q' => pre p' q' ∧ p' = p) post W (k p) (l q)) :
    Parallel c pre post W (get >>= k) (get >>= l) where
  runs p q before kept := (next p q (same p q before)).runs p q ⟨before, rfl⟩ kept
  retains := Parser.retains_get_bind fun p => (next p p rfl).retains

omit [Likeness α] in
/-- How far the parses have come is looked at. -/
theorem position [along : c.Impartial pre] {k l : Parser → ParseM β} {post : β → Parser → Parser → Prop}
    (next : ∀ {W'} p q, W ≤ W' → Alike W' (some p.position) (some q.position) → Parallel c pre post W' (k p) (l q)) :
    Parallel c pre post W (get >>= k) (get >>= l) where
  runs p q before kept := by
    have equally : Alike (c.paired p q) (some p.position) (some q.position) :=
      .some (along.along before).position
    exact ((next p q kept equally).runs p q before (le_refl _)).weaken kept fun _ _ _ holds => holds
  retains := Parser.retains_get_bind fun p => (next p p W.le_all (Likeness.all _)).retains

theorem hasProgressed [along : c.Impartial pre] {last last' : Option Nat} (alike : Alike W last last') :
    Parallel c pre (fun _ => pre) W (Parser.hasProgressed last) (Parser.hasProgressed last') where
  runs p q before kept := by
    refine .ok before kept ?_
    cases alike with
    | none => rfl
    | @some here there shifted =>
      have shifted : there = here + c.gone := kept.2.2.2.1 _ _ shifted
      have position := (along.along before).position
      show (some here).all _ = (some there).all _
      simp only [Option.all_some, shifted, position, Nat.add_lt_add_iff_right]
  retains := Parser.retains_of_eq fun _ => rfl

/-- The token behind tokens of the line is looked at. -/
theorem nth {kinds : List TokenKind} (inline : ∀ kind ∈ kinds, kind.isInline) :
    Parallel c (c.Coming kinds) (fun kind => c.Coming (kinds ++ [kind])) W (Parser.nth kinds.length)
      (Parser.nth kinds.length) where
  runs p q before kept := by
    obtain ⟨inStep, coming⟩ := before
    obtain ⟨common, left, right, linked, length⟩ := inStep.stream.kinds
    have room : 0 < common.length := length ▸ inStep.room
    obtain ⟨cell, s, looks, steps, kind⟩ :=
      TokenStream.peek_eq kinds.length inStep.stream.sound.1 inStep.stream.rests.1
    obtain ⟨cell', t, looks', steps', kind'⟩ :=
      TokenStream.peek_eq kinds.length inStep.stream.sound.2 inStep.stream.rests.2
    have within := linked.length_lt inline room
      (show kinds <+: common ++ _ from left ▸ show kinds <+: p.stream.kinds from coming)
    have looked : Parser.nth kinds.length p = .ok cell.kind { p with engine := { p.engine with stream := s } } :=
      TokenStream.bind_ok (Parser.onStream_ok looks) _
    have looked' : Parser.nth kinds.length q = .ok cell'.kind { q with engine := { q.engine with stream := t } } :=
      TokenStream.bind_ok (Parser.onStream_ok looks') _
    have here : p.kinds[kinds.length]? = some common[kinds.length] := by
      rw [show p.kinds = _ from left, List.getElem?_append_left within, List.getElem?_eq_getElem within]
    have there : q.kinds[kinds.length]? = some common[kinds.length] := by
      rw [show q.kinds = _ from right, List.getElem?_append_left within, List.getElem?_eq_getElem within]
    obtain ⟨atToken, grows⟩ := inStep.atToken.read steps steps'
    have along : c.Along { p with engine := { p.engine with stream := s } }
      { q with engine := { q.engine with stream := t } } :=
      inStep.toAlong.restream atToken.toSameRank grows .nil ⟨rfl, rfl⟩ ⟨rfl, rfl⟩ ⟨rfl, rfl⟩
        ⟨(Parser.grow_nil _).symm, (Parser.grow_nil _).symm⟩ inStep.position
    rw [looked, looked', kind, kind', show p.stream.kinds = p.kinds from rfl, show q.stream.kinds = q.kinds from rfl,
      here, there]
    refine .ok ⟨⟨along, atToken.room, atToken.firm⟩, ?_⟩ (kept.trans grows) rfl
    rw [show Parser.kinds { p with engine := { p.engine with stream := s } } = p.kinds from steps.kinds.symm]
    obtain ⟨more, same⟩ := coming
    rw [← same, List.getElem?_append_right (Nat.le_refl _), Nat.sub_self] at here
    obtain ⟨rest, rfl⟩ := List.head?_eq_some_iff.1 (List.head?_eq_getElem?.trans here)
    exact ⟨rest, by rw [← same, List.append_assoc]; rfl⟩
  retains := (Parser.retains_onStream _).bind fun _ => Parser.retains_pure _

/-! ### Going over tokens -/

/-- Tokens that the cursor goes over without leaving the line. -/
abbrev Within (c : Frame) (kind : TokenKind) : Prop := (c.lined → kind ≠ .newline) ∧ kind ≠ .endOfFile

theorem within_of_isInline {kind : TokenKind} (inline : kind.isInline) : Within c kind := by
  constructor
  · rintro - rfl
    cases inline
  · rintro rfl
    cases inline

/-- Both parses go over a token of the common part, and perhaps out of it. -/
theorem bumpOver {mid : Parser → Parser → Prop}
    (goes : ∀ p q, pre p q → c.Along p q ∧ 0 < c.room p.stream ∧ p.cell.kind ≠ .endOfFile)
    (behind : ∀ p q s t, pre p q → c.Along (p.bumped s) (q.bumped t) → p.kinds = p.cell.kind :: s.kinds →
      mid (p.bumped s) (q.bumped t)) :
    Parallel c pre (fun _ => mid) W Parser.bump Parser.bump where
  runs p q before kept := by
    obtain ⟨along, room, more⟩ := goes p q before
    obtain ⟨s, t, bumps, bumps', along', grows, kinds, -⟩ := along.bumped room more
    rw [bumps, bumps']
    exact .ok (behind p q s t before along' kinds) (kept.trans grows) ((along.stream.current room).mono grows)
  retains := Parser.retains_bump

theorem bump (within : ∀ kind, here kind → Within c kind) :
    Parallel c (c.At here) (fun _ => c.Stepped) W Parser.bump Parser.bump where
  runs p q before kept := by
    obtain ⟨inside, more⟩ := within _ before.2
    obtain ⟨s, t, bumps, bumps', along, grows, -, stays⟩ := before.1.toAlong.bumped before.1.room more
    obtain ⟨room, firm⟩ := stays before.1.firm inside
    rw [bumps, bumps']
    exact .ok ⟨⟨along, room, firm⟩, trivial⟩ (kept.trans grows) ((before.1.stream.current before.1.room).mono grows)
  retains := Parser.retains_bump

theorem bump_at {kind : TokenKind} (inline : kind.isInline) :
    Parallel c (c.At (· = kind)) (fun _ => c.Stepped) W Parser.bump Parser.bump :=
  bump fun _ same => same ▸ within_of_isInline inline

theorem bump_there {kind : TokenKind} {there : Bool} (eaten : there = true) (inline : kind.isInline) :
    Parallel c (c.At fun other => here other ∧ (other == kind) = there) (fun _ => c.Stepped) W Parser.bump
      Parser.bump :=
  (bump_at inline).before (Frame.At.there eaten)

theorem at_follows (kind : TokenKind) : c.Follows here W (Parser.at? kind) (Parser.at? kind) :=
  (at? kind).weaken (fun _ _ holds => holds) fun _ _ _ holds => holds.stepped

/-- A token of a line is gone over, and its text is looked at. -/
theorem bumpThen {mid : Cell → Parser → Parser → Prop} {post : β → Parser → Parser → Prop} {k l : Cell → ParseM β}
    (inline : ∀ p q, pre p q → c.InStep p q ∧ p.cell.kind.isInline)
    (behind : ∀ p q s t, pre p q → c.InStep (p.bumped s) (q.bumped t) → p.kinds = p.cell.kind :: s.kinds →
      mid p.cell (p.bumped s) (q.bumped t))
    (next : ∀ {W'} cell cell', W ≤ W' → Alike W' cell cell' → cell.text = cell'.text →
      Parallel c (mid cell) post W' (k cell) (l cell')) :
    Parallel c pre post W (Parser.bump >>= k) (Parser.bump >>= l) where
  runs p q before kept := by
    obtain ⟨inStep, online⟩ := inline p q before
    obtain ⟨inside, more⟩ : Within c p.cell.kind := within_of_isInline online
    obtain ⟨s, t, bumps, bumps', along, grows, kinds, stays⟩ := inStep.toAlong.bumped inStep.room more
    obtain ⟨room, firm⟩ := stays inStep.firm inside
    have alike := inStep.stream.current inStep.room
    have texts : p.cell.text = q.cell.text := Token.text_of_gist alike.gist fun ends => by
      rw [show p.cell.kind = .newline from ends] at online
      cases online
    rw [TokenStream.bind_ok bumps, TokenStream.bind_ok bumps']
    exact ((next _ _ (kept.trans grows) (alike.mono grows) texts).runs _ _
      (behind p q s t before ⟨along, room, firm⟩ kinds) (le_refl _)).weaken (kept.trans grows) fun _ _ _ holds => holds
  retains := Parser.retains_bump.bind fun cell => (next cell cell W.le_all (Likeness.all cell) rfl).retains

theorem bumpText {post : β → Parser → Parser → Prop} {k l : Cell → ParseM β}
    (inline : ∀ kind, here kind → kind.isInline)
    (next : ∀ {W'} cell cell', W ≤ W' → Alike W' cell cell' → cell.text = cell'.text →
      Parallel c (c.At fun _ => here cell.kind) post W' (k cell) (l cell')) :
    Parallel c (c.At here) post W (Parser.bump >>= k) (Parser.bump >>= l) :=
  bumpThen (fun _ _ holds => ⟨holds.1, inline _ holds.2⟩) (fun _ _ _ _ holds inStep _ => ⟨inStep, holds.2⟩) next

theorem bumpText_coming {kind : TokenKind} {kinds : List TokenKind} {post : β → Parser → Parser → Prop}
    {k l : Cell → ParseM β} (inline : kind.isInline)
    (next : ∀ {W'} cell cell', W ≤ W' → Alike W' cell cell' → cell.text = cell'.text →
      Parallel c (fun p q => c.Coming kinds p q ∧ cell.kind = kind) post W' (k cell) (l cell')) :
    Parallel c (c.Coming (kind :: kinds)) post W (Parser.bump >>= k) (Parser.bump >>= l) :=
  bumpThen (fun p q holds => ⟨holds.1, (Frame.Coming.at p q holds).2 ▸ inline⟩)
    (fun p q _ _ holds inStep behind => ⟨⟨inStep, (List.cons_prefix_cons.1 (behind ▸ holds.2)).2⟩,
      (Frame.Coming.at p q holds).2⟩) next

theorem bump_coming {kind : TokenKind} {kinds : List TokenKind} (inline : kind.isInline) :
    Parallel c (c.Coming (kind :: kinds)) (fun _ => c.Coming kinds) W Parser.bump Parser.bump := by
  rw [← bind_pure Parser.bump]
  exact bumpText_coming inline fun _ _ _ cells _ => .pure cells fun _ _ holds => holds.1

/-- A token that is known to be there is found. -/
theorem at_coming {kind : TokenKind} {kinds : List TokenKind} : Parallel c (c.Coming (kind :: kinds))
    (fun there p q => c.Coming (kind :: kinds) p q ∧ there = true) W (Parser.at? kind) (Parser.at? kind) :=
  look (·.cell.kind == kind) _ (fun _ => rfl) (fun _ => rfl) (fun _ _ holds => congrArg (· == kind) holds.1.kind)
    fun p q holds => ⟨holds, beq_iff_eq.2 (Frame.Coming.at p q holds).2⟩

theorem eat {kind : TokenKind} (within : Within c kind) :
    Parallel c (c.At here) (fun _ => c.Stepped) W (Parser.eat kind) (Parser.eat kind) := by
  rw [Parser.eat_eq]
  refine (at? kind).same fun there _ => ?_
  split
  next eaten =>
    refine Parallel.bind ((bump fun other holds => ?_).before (Frame.At.imp fun _ holds => holds)) fun _ _ _ _ =>
      .pure rfl fun _ _ holds => holds
    obtain rfl : other = kind := by simpa [eaten] using holds.2
    exact within
  next => exact .pure rfl Frame.At.stepped

theorem eat_inline {kind : TokenKind} (inline : kind.isInline) :
    Parallel c (c.At here) (fun _ => c.Stepped) W (Parser.eat kind) (Parser.eat kind) :=
  eat (within_of_isInline inline)

/-! ### Nodes under construction -/

theorem start [impartial : c.Impartial pre] (inStep : ∀ p q, pre p q → c.InStep p q) :
    Parallel c pre (fun _ => pre) W Parser.start Parser.start where
  runs p q before kept := by
    have holds := (inStep p q before).holds
    have deep := (inStep p q before).deep
    exact .ok (impartial.rehold before (.inner .nil holds) (Nat.le_succ_of_le deep)) kept
      ⟨⟨holds.length_eq, deep⟩, (inStep p q before).atToken.places⟩
  retains := Parser.retains_start

theorem close [impartial : c.Impartial pre] {marker marker' : Marker} (alike : Alike W marker marker') :
    Parallel c pre (fun _ => pre) W (Parser.close marker) (Parser.close marker') where
  runs p q before kept := by
    have depths : marker.depth = marker'.depth ∧ c.floor ≤ marker.depth := kept.2.2.2.2 _ _ alike.1
    have holds := (impartial.along before).holds
    have begin' : ∀ r, (get : ParseM Parser) r = .ok r r := fun _ => rfl
    rw [Parser.close, Parser.close, TokenStream.bind_ok (begin' p), TokenStream.bind_ok (begin' q)]
    cases left : p.collectors with
    | nil => exact absurd left holds.ne_nil.1
    | cons innermost outer =>
      cases right : q.collectors with
      | nil => exact absurd right holds.ne_nil.2
      | cons innermost' outer' =>
        rw [left, right] at holds
        by_cases own : marker.depth = outer.length
        · have own' : marker'.depth = outer'.length := by
            have lengths := holds.length_eq
            simp only [List.length_cons] at lengths
            omega
          simp only [own, own', bne_self_eq_false, Bool.false_eq_true, if_false]
          cases holds with
          | outermost =>
            have := Nat.lt_of_lt_of_le c.floor_pos depths.2
            rw [own] at this
            cases this
          | inner cells around => exact .ok (impartial.rehold before around (own ▸ depths.2)) kept cells
        · have wrong : (marker.depth != outer.length) = true := bne_iff_ne.2 own
          simp only [wrong, if_true]
          exact .misuse (by simp)
  retains := Parser.retains_close marker

/-- What is made of the value of steps. -/
protected theorem map {f g : ParseM α} {mid : α → Parser → Parser → Prop} {post : β → Parser → Parser → Prop}
  {h h' : α → β}
    (first : Parallel c pre mid W f g) (holds : ∀ a p q, mid a p q → post (h a) p q)
    (alike : ∀ p q a b, W ≤ c.paired p q → Alike (c.paired p q) a b → Alike (c.paired p q) (h a) (h' b)) :
    Parallel c pre post W (f >>= fun a => pure (h a)) (g >>= fun b => pure (h' b)) where
  runs p q before kept := by
    have both := first.runs p q before kept
    show Together c post W (EStateM.bind f _ p) (EStateM.bind g _ q)
    unfold EStateM.bind
    generalize f p = r at both
    generalize g q = r' at both
    cases both with
    | ok held grows values => exact .ok (holds _ _ _ held) grows (alike _ _ _ _ grows values)
    | tooDeep along grows => exact .tooDeep along grows
    | spoilt unfair => exact .spoilt (by cases r <;> exact unfair)
    | misuse other => exact .misuse other
    | misuse' other =>
      cases r <;> exact .misuse' other
  retains := first.retains.bind fun _ => Parser.retains_pure _

theorem complete [impartial : c.Impartial pre] {marker marker' : Marker} {kind : NodeKind} {detail detail' : Detail}
    {children children' : List (Label × Option Node)} (begun : Alike W marker marker')
    (made : Alike W (detail, children) (detail', children')) :
    Parallel c pre (fun _ => pre) W (Parser.complete marker kind detail children)
      (Parser.complete marker' kind detail' children') :=
  (close begun).map (fun _ _ _ holds => holds) fun _ _ _ _ grows tokens =>
    Node.Alike.make kind (c.pairing_monotone _) (grows.2.1 _ _ begun.2) tokens (made.mono grows)

theorem mergeInto [impartial : c.Impartial pre] {marker marker' : Marker} {node node' : Node}
    (begun : Alike W marker marker') (alike : Alike W node node') :
    Parallel c pre (fun _ => pre) W (Parser.mergeInto marker node) (Parser.mergeInto marker' node') :=
  (close begun).map (fun _ _ _ holds => holds) fun _ _ _ _ grows tokens =>
    Node.Alike.addTokens (alike.mono grows) tokens

theorem collect [impartial : c.Impartial pre] {cells cells' : List Cell} (alike : Alike W cells cells') :
    Parallel c pre (fun _ => pre) W (Parser.collect cells) (Parser.collect cells') where
  runs p q before kept := by
    rw [Parser.collect_eq, Parser.collect_eq]
    have along := impartial.along before
    refine .ok (impartial.rehold before (along.holds.grow (alike.mono kept)) ?_) kept rfl
    rw [Parser.grow_length]
    exact along.deep
  retains := Parser.retains_collect cells

theorem abandon [impartial : c.Impartial pre] {marker marker' : Marker} (begun : Alike W marker marker') :
    Parallel c pre (fun _ => pre) W (Parser.abandon marker) (Parser.abandon marker') :=
  (close begun).bind fun _ _ _ tokens => collect tokens

theorem build {mid : Parser → Parser → Prop} [impartial : c.Impartial pre] [c.Impartial mid] {kind : NodeKind}
    {body body' : ParseM (Detail × List (Label × Option Node))}
    (inStep : ∀ p q, pre p q → c.InStep p q)
    (parallel : ∀ {W'}, W ≤ W' → Parallel c pre (fun _ => mid) W' body body') :
    Parallel c pre (fun _ => mid) W (Parser.build kind body) (Parser.build kind body') :=
  (start inStep).bind fun _ _ le begun => (parallel le).bind fun _ _ more made =>
    complete (begun.mono more) made

/-- A token is gone over and handed to a node that has been made. -/
theorem bumpInto {post : β → Parser → Parser → Prop} (mid : Parser → Parser → Prop) [impartial : c.Impartial mid]
    {k l : Node → Cell → ParseM β} {node node' : Node} (alike : Alike W node node')
    (more : ∀ kind, here kind → kind ≠ .endOfFile)
    (behind : ∀ p q s t, c.At here p q → c.Along (p.bumped s) (q.bumped t) → p.kinds = p.cell.kind :: s.kinds →
      (c.Firm p.cell.kind → (c.lined → p.cell.kind ≠ .newline) → 0 < c.room s ∧ c.Firm s.current.kind) →
        mid (p.bumped s) (q.bumped t))
    (next : ∀ {W'} made made' cell cell', W ≤ W' → Alike W' made made' → Alike W' cell cell' →
      Parallel c mid post W' (k made cell) (l made' cell')) :
    Parallel c (c.At here) post W (Parser.bump >>= fun cell => Parser.attach node cell >>= fun made => k made cell)
      (Parser.bump >>= fun cell => Parser.attach node' cell >>= fun made => l made cell) where
  runs p q before kept := by
    have holds := before.1.holds
    obtain ⟨s, t, bumps, bumps', along, grows, kinds, stays⟩ :=
      before.1.toAlong.bumped before.1.room (more _ before.2)
    have there := behind p q s t before along kinds stays
    have attaches := Parser.attach_ok (q := p.bumped s) node rfl holds.ne_nil.1
    have attaches' := Parser.attach_ok (q := q.bumped t) node' rfl holds.ne_nil.2
    rw [TokenStream.bind_ok bumps, TokenStream.bind_ok bumps', TokenStream.bind_ok attaches,
      TokenStream.bind_ok attaches']
    have cells := (before.1.stream.current before.1.room).mono grows
    refine ((next _ _ _ _ (kept.trans grows)
      (Node.Alike.addTokens (alike.mono (kept.trans grows)) (.cons cells .nil)) cells).runs _ _
      (impartial.rehold there (holds.mono grows) before.1.deep) (le_refl _)).weaken (kept.trans grows)
        fun _ _ _ holds => holds
  retains := Parser.retains_bump.bind fun cell => (Parser.retains_attach node cell).bind fun made =>
    (next made made cell cell W.le_all (Likeness.all made) (Likeness.all cell)).retains

/-- A token behind a node goes to the node, if it is there. -/
theorem eatInto {kind : TokenKind} {node node' : Node} (alike : Alike W node node') (within : Within c kind) :
    Parallel c (c.At here) (fun _ => c.Stepped) W (Parser.eatInto node kind) (Parser.eatInto node' kind) := by
  refine (at? kind).same fun there le => ?_
  split
  next eaten =>
    have same : ∀ other, here other ∧ (other == kind) = there → other = kind := fun other holds => by
      simpa [eaten] using holds.2
    have behind : ∀ p q s t, c.At (fun other => here other ∧ (other == kind) = there) p q →
        c.Along (p.bumped s) (q.bumped t) → p.kinds = p.cell.kind :: s.kinds →
        (c.Firm p.cell.kind → (c.lined → p.cell.kind ≠ .newline) → 0 < c.room s ∧ c.Firm s.current.kind) →
          c.Stepped (p.bumped s) (q.bumped t) := by
      intro p q s t before along _ stays
      obtain ⟨room, firm⟩ := stays before.1.firm (same _ before.2 ▸ within.1)
      exact ⟨⟨along, room, firm⟩, trivial⟩
    exact bumpInto c.Stepped (alike.mono le) (fun other holds => same other holds ▸ within.2) behind
      fun _ _ _ _ _ made cell => .pure ⟨made, .some cell⟩ fun _ _ holds => holds
  next => exact .pure ⟨alike.mono le, .none⟩ Frame.At.stepped

/-! ### Repeating -/

instance : Likeness (ForInStep α) where
  Alike W
    | .done a, .done b => Alike W a b
    | .yield a, .yield b => Alike W a b
    | _, _ => False
  mono {_ _ a b} le alike := by
    cases a <;> cases b <;> first | exact Likeness.mono le alike | exact alike
  all a := by
    cases a <;> exact Likeness.all _

/-- What holds after a round of a loop. -/
def round (inv post : α → Parser → Parser → Prop) : ForInStep α → Parser → Parser → Prop
  | .done a => post a
  | .yield a => inv a

theorem iterate {body body' : α → ParseM (ForInStep α)} (inv : α → Parser → Parser → Prop)
    (step : ∀ {W'} a b, W ≤ W' → Alike W' a b → Parallel c (inv a) (round inv post) W' (body a) (body' b))
    (bound bound' : Nat) {a b : α} (alike : Alike W a b) :
    Parallel c (inv a) post W (Parser.iterate body bound a) (Parser.iterate body' bound' b) := by
  have retains : ∀ value, Retains (body value) := fun value => (step value value W.le_all (Likeness.all value)).retains
  refine ⟨fun p q before kept => ?_, .iterate retains bound a⟩
  induction bound generalizing W bound' a b p q with
  | zero => exact .misuse nofun
  | succ bound ih =>
    cases bound' with
    | zero => exact .misuse' nofun
    | succ bound' =>
      refine (Parallel.bind (step a b (le_refl W) alike) fun {W'} outcome outcome' le values => ?_).runs p q before kept
      cases outcome with
      | done value =>
        cases outcome' with
        | done value' => exact .pure values fun _ _ holds => holds
        | yield value' => exact values.elim
      | yield value =>
        cases outcome' with
        | done value' => exact values.elim
        | yield value' =>
          exact ⟨fun p q before kept => ih (fun a b more => step a b (le.trans more)) bound' values p q before kept,
            .iterate retains bound value⟩

theorem loop {body body' : α → ParseM (ForInStep α)} {init init' : α} (inv post : α → Parser → Parser → Prop)
    (alike : Alike W init init')
    (step : ∀ {W'} a b, W ≤ W' → Alike W' a b → Parallel c (inv a) (round inv post) W' (body a) (body' b)) :
    Parallel c (inv init) post W (Parser.loop init body) (Parser.loop init' body') where
  runs p q before kept := (iterate inv step _ _ alike).runs p q before kept
  retains := .loop (fun value => (step value value W.le_all (Likeness.all value)).retains) init

/-- A loop whose rounds keep the parses in step. -/
theorem repeated {body body' : α → ParseM (ForInStep α)} {init init' : α} (alike : Alike W init init')
    (step : ∀ {W'} a b, W ≤ W' → Alike W' a b → c.Follows (fun _ => True) W' (body a) (body' b)) :
    c.Follows here W (Parser.loop init body) (Parser.loop init' body') :=
  (loop (fun _ => c.Stepped) (fun _ => c.Stepped) alike fun a b le alike => (step a b le alike).weaken
  (fun _ _ holds => holds)
    fun outcome _ _ holds => by cases outcome <;> exact holds).before Frame.At.stepped

end Parallel

end TolerantParser
