import TolerantParser.Proofs.Statement.InStep
import TolerantParser.Proofs.Statement.Suite

/-!
Blocks keep two parses in step. Where the common part ends inside of lines that are met one by one, the first document
ends as well, and what comes next in the second neither belongs to a block nor goes on with a statement. A block that
the first parse leaves open there is an error, so that only documents with errors are affected.
-/

namespace TolerantParser

open TokenStream (significant)
open TolerantParser.Parser (after isClauseWord isBlockEnd endsUnindented)

instance : Likeness Parsed where
  Alike W parsed other := parsed.present = other.present ∧ Alike W parsed.nodes other.nodes
  mono le alike := ⟨alike.1, alike.2.mono le⟩
  all parsed := ⟨rfl, Likeness.all parsed.nodes⟩

instance : Likeness Suite where
  Alike W suite other := Alike W suite.body other.body ∧ suite.failed = other.failed
  mono le alike := ⟨alike.1.mono le, alike.2⟩
  all suite := ⟨Likeness.all suite.body, rfl⟩

namespace Parser

theorem eat_missing {kind : TokenKind} {p : Parser} (other : p.cell.kind ≠ kind) : eat kind p = .ok false p := by
  have here : at? kind p = .ok false p := congrArg (EStateM.Result.ok · p) (beq_eq_false_iff_ne.2 other)
  rw [eat_eq, TokenStream.bind_ok here]
  rfl

end Parser


open TolerantParser.Parser (Blaming)

namespace Frame

variable {c : Frame} {p q : Parser} {here : TokenKind → Prop}

/-- The parses are at tokens of the common part that answer to each other, layout or not. -/
abbrev Near (c : Frame) (here : TokenKind → Prop) (p q : Parser) : Prop :=
  c.Along p q ∧ 0 < c.room p.stream ∧ here p.cell.kind

instance : c.Impartial (c.Near here) where
  along holds := holds.1
  rehold holds held deep := ⟨Impartial.rehold holds.1 held deep, holds.2⟩

/-- The parses are in step in front of so many tokens of a line. -/
def Ahead (c : Frame) (count : Nat) (p q : Parser) : Prop :=
  ∃ kinds : List TokenKind, kinds.length = count ∧ (∀ kind ∈ kinds, kind.isInline) ∧ c.Coming kinds p q

theorem Ahead.stepped {count : Nat} (ahead : c.Ahead count p q) : c.Stepped p q := by
  obtain ⟨kinds, -, -, coming⟩ := ahead
  exact ⟨coming.1, trivial⟩

/-- What comes behind the common part leads no production astray that is in order so far. -/
structure Guided (c : Frame) : Prop where
  clean : c.lined → c.clean
  ends : c.lined → (c.back.1.map TokenView.kind).head? = some .endOfFile
  others : c.lined → ∀ kind ∈ (c.back.2.map TokenView.kind).head?, isClauseWord kind = false ∧ kind.isLayout = false

/-- Where the common part ends, the first document does and the second goes on with something new. -/
theorem Along.apart (along : c.Along p q) (guided : c.Guided) (behind : ¬ 0 < c.room p.stream) :
    c.clean ∧ p.cell.kind = .endOfFile ∧ isClauseWord q.cell.kind = false ∧ q.cell.kind.isLayout = false := by
  have lined : c.lined := by
    by_contra through
    exact behind (along.inStep through).room
  obtain ⟨kinds, left, right, -, length⟩ := along.stream.kinds
  obtain rfl : kinds = [] := List.eq_nil_of_length_eq_zero (by omega)
  obtain ⟨rest, here⟩ := TokenStream.kinds_eq_cons along.stream.rests.1
  obtain ⟨rest', there⟩ := TokenStream.kinds_eq_cons along.stream.rests.2
  have first := guided.ends lined
  rw [← List.nil_append (List.map _ c.back.1), ← left, here] at first
  have second := guided.others lined q.stream.current.kind
  rw [← List.nil_append (List.map _ c.back.2), ← right, there] at second
  exact ⟨guided.clean lined, Option.some.inj first, second rfl⟩

theorem Near.kind (near : c.Near here p q) : p.cell.kind = q.cell.kind := near.1.stream.kind near.2.1

theorem Near.at (near : c.Near here p q) (inline : ∀ kind, here kind → kind.isInline) : c.At here p q :=
  ⟨⟨near.1, near.2.1, c.firm_of_plain (TokenKind.plain_of_isInline (inline _ near.2.2))⟩, near.2.2⟩

theorem Near.there {kind : TokenKind} {there : Bool} (found : there = true) (inline : kind.isInline) (p q : Parser)
    (near : c.Near (fun other => here other ∧ (other == kind) = there) p q) : c.At (· = kind) p q := by
  have this : c.Near (· = kind) p q := ⟨near.1, near.2.1, eq_of_beq (near.2.2.2.trans found)⟩
  exact this.at fun _ same => same ▸ inline

end Frame

/-- Tokens that are looked for where the common part may have ended. -/
def Joint (kind : TokenKind) : Prop := isClauseWord kind ∨ kind.isLayout

theorem isInline_of_isClauseWord {kind : TokenKind} (clause : isClauseWord kind) : kind.isInline := by
  cases kind <;> first | rfl | cases clause

/-- Expressions and statements further in keep two parses in step. -/
structure Inner.InStep (c : Frame) (inner : Inner) : Prop where
  e : inner.e.InStep c
  statement {W : Pairing} : Parallel c (c.Near fun _ => True)
    (fun parsed p q => c.Along p q ∧ (parsed.present = false → 0 < c.room p.stream)) W inner.statement inner.statement

/-- Two runs have come to the same, or the first one to the end of its document in a clean frame. -/
def Reached {α : Type} [Likeness α] (c : Frame) (post : α → Parser → Parser → Prop) (W : Pairing)
    (r r' : EStateM.Result Fault Parser α) : Prop :=
  Together c post W r r' ∨ c.clean ∧ ∃ a p, r = .ok a p ∧ p.cell.kind = .endOfFile

/-- Steps that keep two parses in step, or take the first one to the end of its document. -/
structure Reaches {α : Type} [Likeness α] (c : Frame) (pre : Parser → Parser → Prop)
    (post : α → Parser → Parser → Prop) (W : Pairing) (f g : ParseM α) : Prop where
  runs : ∀ p q, pre p q → W ≤ c.paired p q → Reached c post W (f p) (g q)
  retains : Parser.Retains f

namespace Parallel

variable {α β : Type} [Likeness α] [Likeness β] {c : Frame} {W : Pairing} {here : TokenKind → Prop}
  {pre : Parser → Parser → Prop} {post : α → Parser → Parser → Prop} {inner : TolerantParser.Inner}

/-! ### Errors where the frame is guided -/

/-- Steps that find an error have something to keep in step only outside of lines that are met one by one. -/
theorem blamed (guided : c.Guided) {f g : ParseM α} (retains : Parser.Retains f) (found : Blaming f)
    (works : ¬ c.lined → Parallel c c.Stepped post W f g) : Parallel c c.Along post W f g := by
  by_cases lined : c.lined
  · exact spoils (guided.clean lined) retains found
  · exact (works lined).before fun _ _ along => ⟨along.inStep lined, trivial⟩

theorem complainAlong (guided : c.Guided) {kind : ErrorKind} (message : String)
    (only : Parser.isRecordedOnly kind) :
    Parallel c c.Along (fun _ => c.Along) W (Parser.complain kind message) (Parser.complain kind message) :=
  blamed guided (Parser.retains_complain _ _) (Parser.blaming_complain _ _) fun _ =>
    (complain message only).weaken (fun _ _ holds => holds) fun _ _ _ holds => holds.1.toAlong

theorem complainAlongIf (guided : c.Guided) {known : Prop} [Decidable known] {kind : ErrorKind} {message : String}
    {f f' : ParseM α} (only : Parser.isRecordedOnly kind)
    (next : ∀ {W'}, W ≤ W' → Parallel c c.Along post W' f f') :
    Parallel c c.Along post W (if known then Parser.complain kind message >>= fun _ => f else f)
      (if known then Parser.complain kind message >>= fun _ => f' else f') :=
  .ite ((complainAlong guided message only).bind fun _ _ le _ => next le) (next (le_refl W))

/-! ### Looking across the end of the common part -/

theorem atNear (kind : TokenKind) : Parallel c (c.Near here)
    (fun there => c.Near fun other => here other ∧ (other == kind) = there) W (Parser.at? kind) (Parser.at? kind) :=
  look (·.cell.kind == kind) _ (fun _ => rfl) (fun _ => rfl) (fun _ _ near => congrArg (· == kind) near.kind)
    fun _ _ near => ⟨near.1, near.2.1, near.2.2, rfl⟩

theorem atSetNear (accept : TokenKind → Bool) : Parallel c (c.Near here)
    (fun there => c.Near fun kind => here kind ∧ accept kind = there) W (Parser.atSet? accept)
      (Parser.atSet? accept) :=
  look (accept ·.cell.kind) _ (fun _ => rfl) (fun _ => rfl) (fun _ _ near => congrArg accept near.kind)
    fun _ _ near => ⟨near.1, near.2.1, near.2.2, rfl⟩

theorem atJoint (guided : c.Guided) {kind : TokenKind} (joint : Joint kind) : Parallel c c.Along
    (fun there p q => c.Along p q ∧ (there = true → c.Near (· = kind) p q)) W (Parser.at? kind) (Parser.at? kind) := by
  have same : ∀ p q, c.Along p q → (p.cell.kind == kind) = (q.cell.kind == kind) ∧
      ((p.cell.kind == kind) = true → 0 < c.room p.stream) := by
    intro p q along
    by_cases room : 0 < c.room p.stream
    · exact ⟨congrArg (· == kind) (along.stream.kind room), fun _ => room⟩
    · obtain ⟨-, ends, word, layout⟩ := along.apart guided room
      have left : p.cell.kind ≠ kind := by
        rw [ends]
        rintro rfl
        rcases joint with clause | layout
        · cases clause
        · cases layout
      have right : q.cell.kind ≠ kind := by
        rintro rfl
        rcases joint with clause | opens
        · simp [word] at clause
        · simp [layout] at opens
      rw [beq_false_of_ne left, beq_false_of_ne right]
      exact ⟨rfl, nofun⟩
  exact look (·.cell.kind == kind) _ (fun _ => rfl) (fun _ => rfl) (fun p q along => (same p q along).1)
    fun p q along => ⟨along, fun there => ⟨along, (same p q along).2 there, eq_of_beq there⟩⟩

/-- A word that goes on with a statement is gone over, if it is there. -/
theorem eatWord (guided : c.Guided) {kind : TokenKind} (clause : isClauseWord kind) :
    Parallel c c.Along (fun eaten p q => c.Along p q ∧ (eaten = true → c.Stepped p q)) W (Parser.eat kind)
      (Parser.eat kind) := by
  rw [Parser.eat_eq]
  have inline : ∀ other, other = kind → other.isInline := fun _ same => same ▸ isInline_of_isClauseWord clause
  refine (atJoint guided (.inl clause)).same fun there _ => ?_
  split
  next eaten =>
    refine Parallel.bind ((bump fun other same => within_of_isInline (inline other same)).before fun _ _ holds =>
      (holds.2 eaten).at inline) fun _ _ _ _ => .pure rfl fun _ _ holds => ⟨holds.1.toAlong, fun _ => holds⟩
  next missing => exact .pure rfl fun _ _ holds => ⟨holds.1, nofun⟩

/-- Layout is gone over, if it is there. -/
theorem eatLayout (guided : c.Guided) {kind : TokenKind} (layout : kind.isLayout) :
    Parallel c c.Along (fun _ => c.Along) W (Parser.eat kind) (Parser.eat kind) := by
  rw [Parser.eat_eq]
  refine (atJoint guided (.inr layout)).same fun there _ => ?_
  split
  next eaten =>
    refine Parallel.bind (bumpOver (fun p q holds => ⟨holds.1, (holds.2 eaten).2.1, ?_⟩) fun _ _ _ _ _ along _ => along)
      fun _ _ _ _ => .pure rfl fun _ _ along => along
    rw [(holds.2 eaten).2.2]
    rintro rfl
    cases layout
  next => exact .pure rfl fun _ _ holds => holds.1

end Parallel

/-! ### Lists of statements -/

namespace Reaches

variable {α β : Type} [Likeness α] [Likeness β] {c : Frame} {W : Pairing} {pre : Parser → Parser → Prop}
  {mid : α → Parser → Parser → Prop} {post : β → Parser → Parser → Prop}

/-- What comes behind finds an error at the end of the document. -/
theorem bind {f g : ParseM α} {k l : α → ParseM β} (first : Reaches c pre mid W f g)
    (next : ∀ {W'} a b, W ≤ W' → Alike W' a b → Parallel c (mid a) post W' (k a) (l b))
    (ends : ∀ a p, p.cell.kind = .endOfFile → ¬ (after (k a p)).Clean) :
    Parallel c pre post W (f >>= k) (g >>= l) := by
  have retains : ∀ a, Parser.Retains (k a) := fun a => (next a a W.le_all (Likeness.all a)).retains
  refine ⟨fun p q before kept => ?_, first.retains.bind retains⟩
  rcases first.runs p q before kept with together | ⟨clean, a, p', steps, ended⟩
  · have parallel : Parallel c (fun p' q' => p' = p ∧ q' = q) mid W f g :=
      ⟨fun p' q' same _ => by rw [same.1, same.2]; exact together, first.retains⟩
    exact (parallel.bind next).runs p q ⟨rfl, rfl⟩ kept
  · refine .unclean clean ?_
    rw [TokenStream.bind_ok steps]
    exact ends a p' ended

/-- What is made of the value of steps. -/
protected theorem map {f g : ParseM α} {h : α → β} (first : Reaches c pre mid W f g)
    (holds : ∀ a p q, mid a p q → post (h a) p q)
    (alike : ∀ {W'} {a b : α}, Alike W' a b → Alike W' (h a) (h b)) :
    Reaches c pre post W (f >>= fun a => pure (h a)) (g >>= fun a => pure (h a)) := by
  refine ⟨fun p q before kept => ?_, first.retains.bind fun _ => Parser.retains_pure _⟩
  rcases first.runs p q before kept with together | ⟨clean, a, p', steps, ended⟩
  · exact together.andThen (Reached c post W) (fun _ => Parser.retains_pure _) (fun a b p' q' there kept values =>
      .inl (.ok (holds a p' q' there) kept (alike values))) fun _ _ both => .inl both
  · exact .inr ⟨clean, h a, p', by rw [TokenStream.bind_ok steps]; rfl, ended⟩

theorem parallel {f g : ParseM α} (reaches : Reaches c pre mid W f g) (through : ¬ c.lined) :
    Parallel c pre mid W f g where
  runs p q before kept := (reaches.runs p q before kept).resolve_right fun ended =>
    through (c.lined_of_clean ended.1)
  retains := reaches.retains

/-- A loop that ends where the document does. -/
theorem loop (guided : c.Guided) {body body' : α → ParseM (ForInStep α)} {init init' : α} (alike : Alike W init init')
    (step : ∀ {W'} a b, W ≤ W' → Alike W' a b → Parallel c (c.Near fun _ => True)
      (Parallel.round (fun _ => c.Along) fun _ => c.Near fun _ => True) W' (body a) (body' b))
    (ends : ∀ a p, p.cell.kind = .endOfFile → body a p = .ok (.done a) p) :
    Reaches c c.Along (fun _ => c.Near fun _ => True) W (Parser.loop init body) (Parser.loop init' body') := by
  have retains : ∀ value, Parser.Retains (body value) :=
    fun value => (step value value W.le_all (Likeness.all value)).retains
  have iterate : ∀ bound bound' {W'} a b p q, W ≤ W' → Alike W' a b → c.Along p q → W' ≤ c.paired p q →
      Reached c (fun _ => c.Near fun _ => True) W' (Parser.iterate body bound a p)
        (Parser.iterate body' bound' b q) := by
    intro bound
    induction bound with
    | zero => exact fun _ _ _ _ _ _ _ _ _ _ => .inl (.misuse nofun)
    | succ bound ih =>
      intro bound' W' a b p q le alike along kept
      by_cases room : 0 < c.room p.stream
      · cases bound' with
        | zero => exact .inl (.misuse' nofun)
        | succ bound' =>
          refine ((step a b le alike).runs p q ⟨along, room, trivial⟩ kept).andThen
            (Reached c (fun _ => c.Near fun _ => True) W') ?_ ?_
            fun _ _ both => .inl both
          · rintro (value | value)
            · exact Parser.retains_pure value
            · exact .iterate retains bound value
          · rintro (value | value) (value' | value') p' q' holds kept alike
            · exact .inl (.ok holds kept alike)
            · exact alike.elim
            · exact alike.elim
            · exact (ih bound' value value' p' q' (le.trans kept) alike holds (le_refl _)).imp_left fun both =>
                both.weaken kept fun _ _ _ holds => holds
      · obtain ⟨clean, ended, -⟩ := along.apart guided room
        exact .inr ⟨clean, a, p, by rw [Parser.iterate, TokenStream.bind_ok (ends a p ended)]; rfl, ended⟩
  exact ⟨fun p q along kept => iterate _ _ _ _ p q (le_refl W) alike along kept, .loop retains init⟩

end Reaches

namespace Parallel

variable {α β : Type} [Likeness α] [Likeness β] {c : Frame} {W : Pairing} {here : TokenKind → Prop}
  {inner : TolerantParser.Inner}

/-- A line that starts no statement is passed over. -/
theorem recoverStatement_at {parsed parsed' : Parsed} (alike : Alike W parsed parsed') :
    Parallel c (c.At here) (fun goesOn p q => c.Along p q ∧ (goesOn = false → c.Near (isBlockEnd ·) p q) ∧
      (parsed.present = false → goesOn = true → c.Past p q)) W (Parser.recoverStatement parsed)
      (Parser.recoverStatement parsed') := by
  unfold Parser.recoverStatement
  rw [← alike.1]
  split
  next present => exact .pure rfl fun _ _ holds => ⟨holds.1.toAlong, nofun, fun missing => by simp [missing] at present⟩
  refine (atSet? _).same fun ends _ => ?_
  split
  next there =>
    exact .pure rfl fun _ _ holds =>
      ⟨holds.1.toAlong, fun _ => ⟨holds.1.toAlong, holds.1.room, holds.2.2.trans there⟩, nofun⟩
  refine (atSet? _).same fun clause _ => describeCurrent.same fun found _ =>
    (complain _ (by split <;> rfl)).bind fun _ _ _ _ => skipLine.bind fun _ _ _ _ => ?_
  exact .pure rfl fun _ _ past => ⟨past.1, nofun, fun _ _ => past⟩

theorem recoverStatement (guided : c.Guided) {parsed parsed' : Parsed} (alike : Alike W parsed parsed') :
    Parallel c (fun p q => c.Along p q ∧ (parsed.present = false → 0 < c.room p.stream))
      (fun goesOn p q => c.Along p q ∧ (goesOn = false → 0 < c.room p.stream)) W (Parser.recoverStatement parsed)
      (Parser.recoverStatement parsed') := by
  by_cases lined : c.lined
  swap
  · exact (recoverStatement_at alike).weaken (fun p q holds => show c.Stepped p q from ⟨holds.1.inStep lined, trivial⟩)
      fun _ _ _ holds => ⟨holds.1, fun stuck => (holds.2.1 stuck).2.1⟩
  unfold Parser.recoverStatement
  rw [← alike.1]
  split
  next present => exact .pure rfl fun _ _ holds => ⟨holds.1, nofun⟩
  next missing =>
    have near : ∀ p q, c.Along p q ∧ (parsed.present = false → 0 < c.room p.stream) → c.Near (fun _ => True) p q :=
      fun _ _ holds => ⟨holds.1, holds.2 (by simpa using missing), trivial⟩
    refine ((atSetNear _).before near).same fun ends _ => ?_
    split
    next => exact .pure rfl fun _ _ near => ⟨near.1, fun _ => near.2.1⟩
    next =>
      -- a clean document has no such line
      have described : Parallel c c.Stepped _ W _ _ := describeCurrent
      have skipped : Parallel c c.Stepped _ W _ _ := skipLine
      have retains : ∀ kind message, Parser.Retains (do Parser.complain kind message; Parser.skipLine; pure true) :=
        fun _ _ => (Parser.retains_complain _ _).bind fun _ => skipped.retains.bind fun _ => Parser.retains_pure _
      refine spoils (guided.clean lined) ?_ ?_
      · exact (Parser.retains_atSet _).bind fun _ => described.retains.bind fun _ => retains _ _
      · exact Parser.blaming_atSet fun _ p => (Parser.blaming_complain _ _).bind
          (fun _ => skipped.retains.bind fun _ => Parser.retains_pure _) p

theorem statementRound (guided : c.Guided) (works : inner.InStep c) (stop : TokenKind → Bool)
    {made made' : Option Nat × Array Node} (alike : Alike W made made') :
    Parallel c (c.Near fun _ => True) (round (fun _ => c.Along) fun _ => c.Near fun _ => True) W
      (Parser.statementRound inner stop made) (Parser.statementRound inner stop made') := by
  refine (atNear _).same fun ends first => (atSetNear _).same fun stops second => ?_
  have alike := alike.mono (first.trans second)
  split
  · exact .pure alike fun _ _ near => ⟨near.1, near.2.1, trivial⟩
  refine (hasProgressed alike.1).same fun progressed third => ?_
  split
  swap
  · exact .pure (alike.mono third) fun _ _ near => ⟨near.1, near.2.1, trivial⟩
  refine position fun p q fourth here => .before (works.statement.bind fun parsed parsed' fifth both => ?_)
    fun _ _ near => ⟨near.1, near.2.1, trivial⟩
  have nodes : Alike _ (made.2 ++ parsed.nodes.toArray) (made'.2 ++ parsed'.nodes.toArray) :=
    Likeness.Alike.appendList (alike.2.mono (third.trans (fourth.trans fifth))) both.2
  refine (recoverStatement guided both).same fun goesOn sixth => ?_
  split
  next => exact .pure ⟨here.mono (fifth.trans sixth), nodes.mono sixth⟩ fun _ _ holds => holds.1
  next stuck =>
    refine .pure ⟨here.mono (fifth.trans sixth), nodes.mono sixth⟩ fun _ _ holds => ?_
    exact ⟨holds.1, holds.2 (by simpa using stuck), trivial⟩

theorem statementList (guided : c.Guided) (works : inner.InStep c) (stop : TokenKind → Bool) :
    Reaches c c.Along (fun _ => c.Near fun _ => True) W (Parser.statementList inner stop)
      (Parser.statementList inner stop) := by
  have nothing : Alike W ((none, #[]) : Option Nat × Array Node) (none, #[]) := ⟨.none, .empty⟩
  refine (Reaches.loop guided nothing (fun _ _ _ alike => statementRound guided works stop alike) ?_).map
    (fun _ _ _ near => near) fun alike => alike.2
  intro made p ended
  have here : Parser.at? .endOfFile p = .ok true p := congrArg (EStateM.Result.ok · p) (beq_iff_eq.2 ended)
  rw [Parser.statementRound, TokenStream.bind_ok here]
  rfl

/-! ### Blocks -/

theorem block (guided : c.Guided) (works : inner.InStep c) :
    Parallel c c.Along (fun _ => c.Along) W (Parser.block inner) (Parser.block inner) := by
  have bumped : Parser.Retains (discard Parser.bump : ParseM PUnit) := Parser.retains_bump.discard
  refine (statementList guided works (· == .dedent)).bind (fun body body' _ bodies => ?_) fun body p ended => ?_
  · refine ((eatLayout guided rfl).before fun _ _ near => near.1).same fun closed first => ?_
    have bodies := bodies.mono first
    split
    · exact .pure ⟨bodies, rfl⟩ fun _ _ along => along
    refine blamed guided ?_ ?_ fun through => ?_
    · refine (Parser.retains_recover _ _ _).bind fun outcome => .ite (Parser.retains_pure _) ?_
      exact .ite (bumped.bind fun _ => Parser.retains_pure _) (Parser.retains_pure _)
    · refine (Parser.blaming_recover _ _ _).bind fun outcome => .ite (Parser.retains_pure _) ?_
      exact .ite (bumped.bind fun _ => Parser.retains_pure _) (Parser.retains_pure _)
    · refine (recover_dedent through none).bind fun outcome outcome' second same => ?_
      have bodies := bodies.mono second
      rw [← show outcome.escalate = outcome'.escalate from same.escalate,
        ← show outcome.resumed = outcome'.resumed from same.resumed]
      split
      · exact .pure ⟨bodies, rfl⟩ fun _ _ holds => holds.1.toAlong
      dsimp only
      split
      next resumed =>
        have closes : ∀ {W}, c.Follows (· = .dedent) W Parser.bump Parser.bump := bump fun _ same =>
          ⟨fun lined => absurd lined through, by rw [same]; nofun⟩
        exact .before (closes.discard fun _ le => .pure ⟨bodies.mono le, rfl⟩ fun _ _ holds => holds.1.toAlong)
          fun _ _ holds => ⟨holds.1, holds.2 resumed⟩
      next => exact .pure ⟨bodies, rfl⟩ fun _ _ holds => holds.1.toAlong
  · rw [TokenStream.bind_ok (Parser.eat_missing (by rw [ended]; nofun))]
    refine (Parser.blaming_recover _ _ _).bind (fun outcome => .ite (Parser.retains_pure _) ?_) p
    exact .ite (bumped.bind fun _ => Parser.retains_pure _) (Parser.retains_pure _)

theorem unindentedBlock (guided : c.Guided) (works : inner.InStep c) :
    Parallel c c.Along (fun _ => c.Along) W (Parser.unindentedBlock inner) (Parser.unindentedBlock inner) := by
  have listed : ∀ {W}, Reaches c c.Along (fun _ => c.Near fun _ => True) W
      (Parser.statementList inner endsUnindented) (Parser.statementList inner endsUnindented) :=
    statementList guided works _
  have retains : Parser.Retains (Parser.statementList inner endsUnindented) := (listed (W := W)).retains
  have rest : ∀ outcome : Outcome, Parser.Retains (if outcome.emptySuite then pure ⟨[], false⟩
      else Parser.statementList inner endsUnindented >>= fun body => pure ⟨body, false⟩ : ParseM Suite) :=
    fun _ => .ite (Parser.retains_pure _) (retains.bind fun _ => Parser.retains_pure _)
  refine blamed guided ?_ ?_ fun through => ?_
  · exact (Parser.retains_atSet _).bind fun _ => (Parser.retains_recover _ _ _).bind rest
  · exact Parser.blaming_atSet fun _ => (Parser.blaming_recover _ _ _).bind rest
  · refine (atSet? _).same fun ends _ => ?_
    refine ((recorded none [] (by split <;> rfl)).weaken (fun _ _ holds => holds) fun outcome p q holds =>
      show c.Along p q from holds.1.1.toAlong).bind fun outcome outcome' _ same => ?_
    rw [← show outcome.emptySuite = outcome'.emptySuite from same.emptySuite]
    split
    · exact .pure ⟨.nil, rfl⟩ fun _ _ along => along
    · exact (listed.parallel through).bind fun _ _ _ body => .pure ⟨body, rfl⟩ fun _ _ near => near.1

/-- The block of a statement. -/
theorem suite (guided : c.Guided) (works : inner.InStep c) :
    Parallel c (c.At here) (fun _ => c.Along) W (Parser.suite inner) (Parser.suite inner) := by
  refine eatNewline.same fun line first => ?_
  split
  · refine ((eatLayout guided rfl).before fun _ _ holds => holds.1).same fun opened second => ?_
    split
    · exact block guided works
    · exact unindentedBlock guided works
  next inLine =>
    refine (canStartSimpleStatement.before fun _ _ holds => holds.2.2 (by simpa using inLine)).same
      fun starts second => ?_
    split
    · exact (simpleStatement works.e).bind fun _ _ _ body => .pure ⟨body, rfl⟩ fun _ _ past => past.1
    · exact describeCurrent.same fun found _ => (complain _ rfl).bind fun _ _ _ _ =>
        .pure ⟨.nil, rfl⟩ fun _ _ holds => holds.1.toAlong

/-! ### Headers -/

theorem nthAhead (count : Nat) : Parallel c (c.Ahead count) (fun kind p q => c.Ahead count p q ∧
    (kind.isLineEnd = false → kind ≠ .indent → c.Ahead (count + 1) p q)) W (Parser.nth count) (Parser.nth count) where
  runs p q before kept := by
    obtain ⟨kinds, rfl, inline, coming⟩ := before
    refine ((nth inline).runs p q coming kept).weaken (le_refl W) fun kind p q holds => ⟨⟨kinds, rfl, inline,
      holds.1, (List.prefix_append ..).trans holds.2⟩, fun goesOn notIndent => ⟨_, by simp, ?_, holds⟩⟩
    intro other member
    rcases List.mem_append.1 member with earlier | last
    · exact inline other earlier
    · obtain rfl := List.mem_singleton.1 last
      have met : other ∈ p.kinds := holds.2.subset (by simp)
      have kept : other ≠ .comment := by simpa using (List.mem_filter.1 met).2
      simp [TokenKind.isInline, goesOn, notIndent, kept]
  retains := (Parser.retains_onStream _).bind fun _ => Parser.retains_pure _

theorem bumpCome {kinds : List TokenKind} (inline : ∀ kind ∈ kinds, kind.isInline) :
    Parallel c (c.Coming kinds) (fun _ => c.Stepped) W (Parser.bumpMany kinds.length)
      (Parser.bumpMany kinds.length) := by
  induction kinds generalizing W with
  | nil => exact .pure rfl Frame.Coming.stepped
  | cons kind kinds ih =>
    exact (bump_coming (inline kind List.mem_cons_self)).discard fun _ _ =>
      ih fun other member => inline other (List.mem_cons_of_mem _ member)

theorem bumpMany (count : Nat) :
    Parallel c (c.Ahead count) (fun _ => c.Stepped) W (Parser.bumpMany count) (Parser.bumpMany count) := by
  have retains : Parser.Retains (Parser.bumpMany count) := by
    induction count with
    | zero => exact Parser.retains_pure _
    | succ count ih => exact Parser.retains_bump.discard.bind fun _ => ih
  refine ⟨fun p q ⟨kinds, length, inline, coming⟩ kept => ?_, retains⟩
  subst length
  exact (bumpCome inline).runs p q coming kept

/-- The colon behind a header is looked for within the line. -/
theorem expectColon (construct : String) :
    c.Follows here W (Parser.expectColon construct) (Parser.expectColon construct) := by
  refine (eat_inline rfl).same fun there _ => ?_
  split
  · exact .pure rfl fun _ _ holds => holds
  refine (complain _ rfl).bind fun {W'} _ _ _ _ => ?_
  unfold Parser.colonDistance
  rw [bind_assoc]
  have nothing : Alike W' (false, 0) (false, 0) := ⟨rfl, rfl⟩
  refine Parallel.bind
    ((loop (fun made => c.Ahead made.2) (fun made p q => c.Stepped p q ∧ (made.1 → c.Ahead (made.2 + 1) p q))
      nothing fun made made' _ same => ?_).before ?_)
    fun made made' _ same => ?_
  · obtain ⟨found, distance⟩ := made
    obtain rfl : (found, distance) = made' := Prod.ext same.1 same.2
    refine (nthAhead distance).same fun kind _ => ?_
    split
    next colon =>
      rw [eq_of_beq colon]
      exact .pure ⟨rfl, rfl⟩ fun _ _ holds => ⟨holds.1.stepped, fun _ => holds.2 rfl nofun⟩
    split
    next => exact .pure ⟨rfl, rfl⟩ fun _ _ holds => ⟨holds.1.stepped, nofun⟩
    next goesOn =>
      simp only [Bool.or_eq_true, not_or, beq_iff_eq, Bool.not_eq_true] at goesOn
      exact .pure ⟨rfl, rfl⟩ fun _ _ holds => holds.2 goesOn.1 goesOn.2
  · exact fun p q holds => ⟨[], rfl, nofun, holds.1, List.nil_prefix⟩
  · obtain ⟨found, distance⟩ := made
    obtain rfl : (found, distance) = made' := Prod.ext same.1 same.2
    rw [pure_bind]
    cases found with
    | false => exact .pure rfl fun _ _ holds => holds.1
    | true => exact (bumpMany _).before fun _ _ holds => holds.2 rfl

theorem elseClause (guided : c.Guided) (works : inner.InStep c) (construct : String) (failed : Bool) :
    Parallel c c.Along (fun _ => c.Along) W (Parser.elseClause inner construct failed)
      (Parser.elseClause inner construct failed) := by
  unfold Parser.elseClause
  split
  · exact .pure .nil fun _ _ along => along
  refine (eatWord guided rfl).same fun there _ => ?_
  split
  next eaten =>
    refine .before ((expectColon _).bind fun _ _ _ _ => (suite guided works).bind fun _ _ _ block => ?_)
      fun _ _ holds => holds.2 eaten
    exact .pure block.1 fun _ _ along => along
  next => exact .pure .nil fun _ _ holds => holds.1

end Parallel

end TolerantParser
