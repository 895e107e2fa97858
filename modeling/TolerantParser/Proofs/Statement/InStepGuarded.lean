import TolerantParser.Proofs.Statement.Basic
import TolerantParser.Proofs.Statement.InStepCompound

/-!
Statements of any form keep two parses in step, also where they nest too deeply and are given up: both parses then go
back to tokens that answer to each other and skip their lines. Until then neither has ended a node that it had begun
before, for which the floor of the frame is raised.
-/

namespace TolerantParser

open TolerantParser.Parser (after Blaming)

/-! ### Raising the floor -/

namespace Frame

variable {c : Frame} {p q p' q' : Parser} {here : TokenKind → Prop} {floor : Nat} {more : 0 < floor}

/-- The frame in which no fewer nodes stay open. -/
def raised (c : Frame) (floor : Nat) (more : 0 < floor) : Frame := { c with floor, floor_pos := more }

theorem Guided.raised (guided : c.Guided) : (c.raised floor more).Guided :=
  ⟨guided.clean, guided.ends, guided.others⟩

theorem Fair.raise (fair : c.Fair p) : (c.raised floor more).Fair p := ⟨fair.clean, fair.thrifty⟩

theorem Shares.raise {s t : TokenStream} {shared other : List TokenView} {past : Nat}
    (shares : c.Shares s t shared other past) : (c.raised floor more).Shares s t shared other past :=
  ⟨shares.left, shares.right, shares.sees.imp fun _ _ sees => ⟨sees.gist, sees.text, sees.first, sees.last⟩,
    shares.linked, shares.single, shares.here, shares.there, shares.within, shares.numbers⟩

theorem Shares.lower {s t : TokenStream} {shared other : List TokenView} {past : Nat}
    (shares : (c.raised floor more).Shares s t shared other past) : c.Shares s t shared other past :=
  ⟨shares.left, shares.right, shares.sees.imp fun _ _ sees => ⟨sees.gist, sees.text, sees.first, sees.last⟩,
    shares.linked, shares.single, shares.here, shares.there, shares.within, shares.numbers⟩

theorem SameRank.raise {s t : TokenStream} (atRank : c.SameRank s t) : (c.raised floor more).SameRank s t := by
  obtain ⟨shared, other, past, shares⟩ := atRank.shares
  exact ⟨atRank.sound, atRank.rests, atRank.dialect, shared, other, past, shares.raise⟩

theorem SameRank.lower {s t : TokenStream} (atRank : (c.raised floor more).SameRank s t) : c.SameRank s t := by
  obtain ⟨shared, other, past, shares⟩ := atRank.shares
  exact ⟨atRank.sound, atRank.rests, atRank.dialect, shared, other, past, shares.lower⟩

theorem pairs_lower (le : c.floor ≤ floor) (s t : TokenStream) : (c.raised floor more).pairs s t ≤ c.pairs s t :=
  ⟨fun _ _ paired => paired, fun _ _ same => same, fun _ _ same => same, fun _ _ same => same,
    fun _ _ same => ⟨same.1, Nat.le_trans le same.2⟩⟩

/-- What was paired is so still, also with the floor back where it was. -/
theorem pairs_grow {s t s' t' : TokenStream}
    (grows : (c.raised floor more).pairs s t ≤ (c.raised floor more).pairs s' t') : c.pairs s t ≤ c.pairs s' t' :=
  ⟨grows.1, grows.2.1, grows.2.2.1, grows.2.2.2.1, fun _ _ same => same⟩

/-- Which nodes are under construction makes no difference to tokens. -/
theorem cell_raise {s t : TokenStream} {cell cell' : Cell} (alike : cell.Alike (c.pairs s t) cell') :
    cell.Alike ((c.raised floor more).pairs s t) cell' :=
  ⟨alike.gist, alike.paired, alike.first, alike.last⟩

theorem cells_raise {s t : TokenStream} {cells cells' : List Cell} (alike : Alike (c.pairs s t) cells cells') :
    Alike ((c.raised floor more).pairs s t) cells cells' :=
  List.Forall₂.imp (fun _ _ => cell_raise) alike

theorem Holds.raise {s t : TokenStream} {held held' : List (Array Cell)} (holds : c.Holds (c.pairs s t) held held') :
    (c.raised floor more).Holds ((c.raised floor more).pairs s t) held held' := by
  induction holds with
  | outermost split alike => exact .outermost split (cells_raise alike)
  | inner alike _ ih => exact .inner (cells_raise alike) ih

theorem Holds.lower {W : Pairing} {held held' : List (Array Cell)} (holds : (c.raised floor more).Holds W held held') :
    c.Holds W held held' := by
  induction holds with
  | outermost split alike => exact .outermost split alike
  | inner alike _ ih => exact .inner alike ih

theorem Along.raise (along : c.Along p q) (deep : floor ≤ p.collectors.length) : (c.raised floor more).Along p q := by
  obtain ⟨found, split, alike⟩ := along.errors
  refine ⟨along.stream.raise, along.budget, ⟨found, split, ?_⟩, along.holds.raise, deep, along.position⟩
  exact List.Forall₂.imp (fun _ _ same => ⟨same.1, same.2.1, cell_raise same.2.2⟩) alike

theorem Along.lower (along : (c.raised floor more).Along p q) (le : c.floor ≤ floor) : c.Along p q := by
  obtain ⟨found, split, alike⟩ := along.errors
  exact ⟨along.stream.lower, along.budget, ⟨found, split, alike.mono (pairs_lower le _ _)⟩,
    along.holds.lower.mono (pairs_lower le _ _), Nat.le_trans le along.deep, along.position⟩

/-! ### Going back -/

theorem Holds.drop {W : Pairing} {now now' : List (Array Cell)} (holds : c.Holds W now now') {count : Nat}
    (few : count < now.length) : c.Holds W (now.drop count) (now'.drop count) := by
  induction holds generalizing count with
  | outermost split alike =>
    obtain rfl : count = 0 := Nat.lt_one_iff.1 few
    exact .outermost split alike
  | inner alike around ih =>
    cases count with
    | zero => exact .inner alike around
    | succ count => exact ih (Nat.lt_of_succ_lt_succ few)

theorem length_kept {held now : List (Array Cell)} (filled : held ≠ []) (deep : held.length ≤ now.length) :
    (Parser.kept held now).length = held.length := by
  have length : (now.drop (now.length - held.length)).length = held.length := by
    rw [List.length_drop]
    omega
  rw [Parser.kept]
  cases rest : now.drop (now.length - held.length) with
  | nil => exact absurd (by rw [← length, rest]; rfl) (fun none => filled (List.length_eq_zero_iff.1 none))
  | cons innermost outer =>
    rw [rest] at length
    exact length

theorem Holds.kept {W W' : Pairing} {held held' now now' : List (Array Cell)} (before : c.Holds W held held')
    (later : c.Holds W' now now') (deep : held.length ≤ now.length) :
    c.Holds W' (Parser.kept held now) (Parser.kept held' now') := by
  have filled := List.length_pos_iff.2 before.ne_nil.1
  have dropped := later.drop (show now.length - held.length < now.length by omega)
  have length : (now.drop (now.length - held.length)).length = held.length := by
    rw [List.length_drop]
    omega
  rw [Parser.kept, Parser.kept, ← later.length_eq, ← before.length_eq]
  generalize now.drop (now.length - held.length) = rest at *
  generalize now'.drop (now.length - held.length) = rest' at *
  have list : ∀ (cells : Array Cell) (count : Nat), (cells.take count).toList = cells.toList.take count := by
    simp
  have size : ∀ {W : Pairing} {cells cells' : List Cell}, Alike W cells cells' → cells.length = cells'.length :=
    fun alike => List.Forall₂.length_eq alike
  cases before with
  | @outermost cells others begun split alike =>
    cases dropped with
    | @outermost now now' more split' alike' =>
      have sizes : others.size = c.held.length + cells.size := by
        rw [← Array.length_toList, ← Array.length_toList, split, List.length_append, size alike]
      have left : (now'.take others.size).toList = c.held ++ more.take cells.size := by
        rw [list, split', sizes, List.take_length_add_append]
      refine .outermost left ?_
      rw [list]
      exact List.forall₂_take _ alike'
    | inner _ around' =>
      have := List.length_pos_iff.2 around'.ne_nil.1
      simp only [List.length_cons, List.length_nil] at length
      omega
  | @inner cells others _ _ alike around =>
    have sizes : cells.size = others.size := by
      rw [← Array.length_toList, ← Array.length_toList, size alike]
    cases dropped with
    | outermost =>
      have := List.length_pos_iff.2 around.ne_nil.1
      simp only [List.length_cons, List.length_nil] at length
      omega
    | @inner now now' _ _ alike' around' =>
      refine .inner ?_ around'
      show Alike W' (now.take cells.size).toList (now'.take others.size).toList
      rw [list, list, sizes]
      exact List.forall₂_take _ alike'

end Frame

namespace Parser

theorem retains_skipLine : Retains skipLine := by
  refine Retains.bind (.loop (fun _ => ?_) _) fun _ => (retains_eat _).discard
  exact (retains_atSet _).bind fun _ => .ite (retains_pure _) (retains_bump.discard.bind fun _ => retains_pure _)

/-- What follows when a parse has gone back. -/
def abandonLine : ParseM Parsed := do
  complain .statementMalformed tooDeepMessage
  skipLine
  return ⟨true, []⟩

theorem abandonStatement_eq (start held : Parser) :
    abandonStatement start.here held = abandonLine (rewound start held) := by
  rw [abandonStatement, TokenStream.bind_ok (rewind_eq start held)]
  rfl

theorem retains_abandonLine : Retains abandonLine :=
  (retains_complain _ _).bind fun _ => retains_skipLine.bind fun _ => retains_pure _

theorem blaming_abandonLine : Blaming abandonLine :=
  (blaming_complain _ _).bind fun _ => retains_skipLine.bind fun _ => retains_pure _

/-- That a statement was given up is not forgotten. -/
theorem not_calm_abandonLine (p : Parser) : ¬ (after (abandonLine p)).Calm := fun calm => by
  have added := (recover_after .statementMalformed (some tooDeepMessage) [] p).1
  have kept : (after (recover .statementMalformed (some tooDeepMessage) [] p)).errors.toList <+:
      (after (abandonLine p)).errors.toList := by
    rw [abandonLine, complain, discard_bind]
    show _ <+: (after (EStateM.bind _ _ p)).errors.toList
    unfold EStateM.bind
    cases recover .statementMalformed (some tooDeepMessage) [] p with
    | ok outcome q => exact ((retains_skipLine.bind fun _ => retains_pure _) q).errors
    | error fault q => exact List.prefix_refl _
  refine calm (p.errorHere .statementMalformed (some tooDeepMessage)) (kept.subset ?_) rfl
  rw [added, Array.toList_push]
  simp

theorem retains_guarded {inner : Inner} (retains : Retains (anyStatement inner)) :
    Retains (guardedStatement inner) := by
  intro p
  have added := retains p
  show Retained p (after (orTooDeep (anyStatement inner) (abandonStatement p.here) p))
  rw [orTooDeep]
  cases steps : anyStatement inner p with
  | ok parsed q =>
    rw [steps] at added
    exact added
  | error fault q =>
    rw [steps] at added
    cases fault with
    | tooDeep =>
      simp only [abandonStatement_eq]
      have again := retains_abandonLine (p.rewound q)
      have back : (p.rewound q).errors = p.errors := errors_rewound added.errors
      exact ⟨back ▸ again.errors, again.options.trans added.options⟩
    | _ => exact added

end Parser

namespace Frame

variable {c : Frame} {p q p' q' : Parser}

/-- Both parses go back to tokens that answer to each other. -/
theorem Along.rewound (begun : c.Along p q) (room : 0 < c.room p.stream) (later : c.Along p' q')
    (grows : c.paired p q ≤ c.paired p' q') (deep : p.collectors.length ≤ p'.collectors.length)
    (retains : p.errors.toList <+: p'.errors.toList) (retains' : q.errors.toList <+: q'.errors.toList) :
    c.Along (p.rewound p') (q.rewound q') ∧ c.paired p q ≤ c.paired (p.rewound p') (q.rewound q') ∧
      0 < c.room (p.rewound p').stream := by
  have here : (c.paired p' q').tokens p.cell.index q.cell.index :=
    Cell.Alike.paired ((begun.stream.current room).mono grows)
  obtain ⟨atRank, grows', more⟩ := later.stream.seek here
  obtain ⟨found, split, alike⟩ := begun.errors
  have kept := grows.trans grows'
  refine ⟨⟨atRank, later.budget, ⟨found, ?_, ?_⟩, ?_, ?_, begun.position⟩, kept, more⟩
  · rw [Parser.errors_rewound retains', split]
  · rw [Parser.errors_rewound retains]
    exact alike.mono kept
  · exact (begun.holds.kept later.holds deep).mono (grows')
  · exact Nat.le_trans begun.deep (Nat.le_of_eq (length_kept begun.holds.ne_nil.1 deep).symm)

end Frame

/-! ### Statements -/

namespace Parallel

variable {c : Frame} {W : Pairing} {here : TokenKind → Prop} {inner : TolerantParser.Inner}

/-- What holds behind a statement that was looked for. -/
abbrev Passed (c : Frame) (parsed : Parsed) (p q : Parser) : Prop :=
  c.Along p q ∧ (parsed.present = false → 0 < c.room p.stream)

theorem unexpectedBlock (guided : c.Guided) (works : inner.InStep c) :
    Parallel c (c.Near (· = .indent)) (Passed c) W (Parser.unexpectedBlock inner)
      (Parser.unexpectedBlock inner) := by
  have listed : ∀ {W}, Reaches c c.Along (fun _ => c.Near fun _ => True) W
      (Parser.statementList inner (· == .dedent)) (Parser.statementList inner (· == .dedent)) :=
    statementList guided works _
  by_cases lined : c.lined
  · refine spoils (guided.clean lined) ?_ ?_
    · exact (Parser.retains_complain _ _).bind fun _ => Parser.retains_bump.discard.bind fun _ =>
        (listed (W := W)).retains.bind
        fun _ => (Parser.retains_eat _).discard.bind fun _ => Parser.retains_pure _
    · exact (Parser.blaming_complain _ _).bind fun _ => Parser.retains_bump.discard.bind fun _ =>
        (listed (W := W)).retains.bind fun _ => (Parser.retains_eat _).discard.bind fun _ => Parser.retains_pure _
  · have opened : ∀ {W}, c.Follows (· = .indent) W Parser.bump Parser.bump := bump fun _ same =>
      ⟨fun lines => absurd lines lined, by rw [same]; nofun⟩
    have closed : ∀ {W}, c.Follows (fun _ => True) W (Parser.eat .dedent) (Parser.eat .dedent) :=
      eat ⟨fun lines => absurd lines lined, nofun⟩
    refine .before ((complain _ rfl).bind fun _ _ _ _ => opened.discard fun _ _ => ?_) fun p q near =>
      ⟨near.1.inStep lined, near.2.2⟩
    exact ((listed.parallel lined).before fun _ _ holds => holds.1.toAlong).bind fun _ _ _ nodes =>
      (closed.before fun _ _ near => ⟨near.1.inStep lined, trivial⟩).discard fun _ le =>
        .pure ⟨rfl, nodes.mono le⟩ fun _ _ holds => ⟨holds.1.toAlong, nofun⟩

theorem startsNear : Parallel c (c.Near here) (fun starts p q => c.Near here p q ∧ p.startsSimple = starts) W
    Parser.canStartSimpleStatement Parser.canStartSimpleStatement :=
  look Parser.startsSimple _ (fun _ => rfl) (fun _ => rfl)
    (fun p q near => by
      show p.startsSimple = q.startsSimple
      rw [Parser.startsSimple, Parser.startsSimple, near.1.dialect, near.kind]) fun _ _ near => ⟨near, rfl⟩

theorem anyStatement (guided : c.Guided) (works : inner.InStep c) : Parallel c (c.Near fun _ => True) (Passed c) W
    (Parser.anyStatement inner) (Parser.anyStatement inner) := by
  refine (atNear _).same fun indent _ => ?_
  split
  next indent =>
    exact (unexpectedBlock guided works).before fun p q near => ⟨near.1, near.2.1, eq_of_beq (near.2.2.2.trans indent)⟩
  refine seen (fun p => p.dialect.compoundForm? p.cell.kind)
    (fun p q near => by rw [near.1.dialect, near.kind]) fun p q same => ?_
  rw [← same]
  split
  next form found =>
    have word := Parser.compoundForm_word found
    have inline := TokenKind.isInline_of_isOrdinary word.1
    have formed : ∀ {W}, Parallel c (c.At (· = p.cell.kind)) (fun _ => c.Along) W
        (Parser.compoundForm inner form) (Parser.compoundForm inner form) :=
      compoundForm guided works form (by rintro _ rfl; exact inline) fun decorates _ same =>
        same.trans (word.2.2 decorates)
    refine .before (formed.bind fun _ _ _ node => .pure ⟨rfl, .cons node .nil⟩ fun _ _ along => ⟨along, nofun⟩) ?_
    rintro p' q' ⟨near, rfl⟩
    exact Frame.Near.at ⟨near.1, near.2.1, rfl⟩ (by rintro _ rfl; exact inline)
  next =>
    refine (startsNear.before fun p q near => show c.Near (fun _ => True) p q from ⟨near.1.1, near.1.2.1, trivial⟩).same
      fun starts _ => ?_
    split
    next starts =>
      refine .before ((simpleStatement works.e).bind fun _ _ _ nodes => .pure ⟨rfl, nodes⟩ fun _ _ past =>
        ⟨past.1, nofun⟩) fun p q near => show c.Stepped p q from ?_
      have inline := Parser.inline_of_startsSimple (near.2.trans starts)
      exact ⟨⟨near.1.1, near.1.2.1, c.firm_of_plain (TokenKind.plain_of_isInline inline)⟩, trivial⟩
    next => exact .pure ⟨rfl, .nil⟩ fun _ _ near => ⟨near.1.1, fun _ => near.1.2.1⟩

theorem abandonLine : Parallel c c.Stepped (fun parsed p q => c.Past p q ∧ parsed.present = true) W Parser.abandonLine
    Parser.abandonLine :=
  (complain _ rfl).bind fun _ _ _ _ => skipLine.bind fun _ _ _ _ => .pure ⟨rfl, .nil⟩ fun _ _ past => ⟨past, rfl⟩

/-- What is given up in one parse is so in the other. -/
theorem rescued {steps : ParseM Parsed} {p q : Parser} {mid post : Parsed → Parser → Parser → Prop}
    (begun : c.Along p q) (kept : W ≤ c.paired p q) (deep : 0 < p.collectors.length)
    (both : Together (c.raised p.collectors.length deep) mid ((c.raised p.collectors.length deep).paired p q) (steps p)
      (steps q))
    (passes : ∀ parsed p' q', mid parsed p' q' → post parsed p' q')
    (gives : ∀ p' q', (c.raised p.collectors.length deep).Along p' q' → c.paired p q ≤ c.paired p' q' →
      steps p = .error .tooDeep p' → steps q = .error .tooDeep q' →
        Together c post W (Parser.abandonLine (p.rewound p')) (Parser.abandonLine (q.rewound q'))) :
    Together c post W (Parser.orTooDeep steps (Parser.abandonStatement p.here) p)
      (Parser.orTooDeep steps (Parser.abandonStatement q.here) q) := by
  rw [Parser.orTooDeep, Parser.orTooDeep]
  generalize steps p = r at both gives
  generalize steps q = r' at both gives
  cases both with
  | ok passed grows alike =>
    exact .ok (passes _ _ _ passed) (kept.trans (Frame.pairs_grow grows))
      (alike.mono (Frame.pairs_lower begun.deep _ _))
  | @tooDeep p' q' along grows =>
    simp only [Parser.abandonStatement_eq]
    exact gives p' q' along (Frame.pairs_grow grows) rfl rfl
  | spoilt unfair =>
    refine .spoilt ?_
    cases r with
    | ok parsed p' => exact fun fair => unfair fair.raise
    | error fault p' =>
      cases fault with
      | tooDeep =>
        simp only [Parser.abandonStatement_eq]
        refine fun fair => unfair ⟨fun clean => ?_, fun thrifty => ?_⟩
        · exact absurd (fair.clean clean) (Parser.blaming_abandonLine _)
        · exact absurd (fair.thrifty thrifty).1 (Parser.not_calm_abandonLine _)
      | _ => exact fun fair => unfair fair.raise
  | @misuse fault p' _ other =>
    cases fault with
    | tooDeep => exact absurd rfl other
    | _ => exact .misuse (by simp)
  | @misuse' fault q' _ other =>
    cases fault with
    | tooDeep => exact absurd rfl other
    | _ => exact .misuse' (by simp)

/-- A statement that nests too deeply is given up in both parses. -/
theorem guardedStatement (guided : c.Guided) (works : ∀ floor more, inner.InStep (c.raised floor more)) :
    Parallel c (c.Near fun _ => True) (Passed c) W (Parser.guardedStatement inner) (Parser.guardedStatement inner) := by
  have tried : ∀ floor more {W}, Parallel (c.raised floor more) ((c.raised floor more).Near fun _ => True)
      (Passed (c.raised floor more)) W (Parser.anyStatement inner) (Parser.anyStatement inner) :=
    fun floor more => anyStatement guided.raised (works floor more)
  have retains : Parser.Retains (Parser.anyStatement inner) := (tried c.floor c.floor_pos (W := W)).retains
  refine ⟨fun p q near kept => ?_, Parser.retains_guarded retains⟩
  have deep := Nat.lt_of_lt_of_le c.floor_pos near.1.deep
  have both := (tried p.collectors.length deep).runs p q ⟨near.1.raise (Nat.le_refl _), near.2⟩ (le_refl _)
  refine rescued near.1 kept deep both (fun _ _ _ passed => ⟨passed.1.lower near.1.deep, passed.2⟩) ?_
  intro p' q' along grows left right
  have retained := retains p
  have retained' := retains q
  rw [left] at retained
  rw [right] at retained'
  obtain ⟨again, grows, -⟩ := near.1.rewound near.2.1
    (along.lower near.1.deep) grows along.deep retained.errors retained'.errors
  by_cases lined : c.lined
  · exact .unclean (guided.clean lined) (Parser.blaming_abandonLine _)
  · exact (abandonLine.runs _ _ ⟨again.inStep lined, trivial⟩ (kept.trans grows)).weaken (le_refl W)
      fun _ _ _ holds => ⟨holds.1.1, fun missing => by rw [holds.2] at missing; cases missing⟩

theorem statementAt (e : Nested) (works : ∀ c, e.InStep c) (depth : Nat) (guided : c.Guided) :
    Parallel c (c.Near fun _ => True) (Passed c) W (Parser.statementAt e depth) (Parser.statementAt e depth) := by
  induction depth generalizing c W with
  | zero => exact .throw _ fun _ _ near => near.1
  | succ depth ih => exact guardedStatement guided fun floor more => ⟨works _, ih guided.raised⟩

end Parallel

theorem Parser.full_inStep (limits : Limits) {c : Frame} (guided : c.Guided) : (Parser.full limits).InStep c :=
  ⟨Nested.inStep_full limits c, Parallel.statementAt _ (Nested.inStep_full limits) _ guided⟩

theorem Frame.guided_whole : whole.Guided := ⟨False.elim, False.elim, False.elim⟩

/-- Statements forget no error. -/
theorem Parser.retains_anyStatement (limits : Limits) (depth : Nat) :
    Retains (anyStatement ⟨.full limits, statementAt (.full limits) depth⟩) := by
  have works : (⟨.full limits, statementAt (.full limits) depth⟩ : Inner).InStep Frame.whole :=
    ⟨Nested.inStep_full limits _, Parallel.statementAt _ (Nested.inStep_full limits) depth Frame.guided_whole⟩
  exact (Parallel.anyStatement Frame.guided_whole works (W := .all)).retains

/-! ### A single line -/

/-- What a statement is that begins neither with an indent nor with the word of a compound one. -/
def Parser.plainStatement (inner : Inner) : ParseM Parsed := do
  if ← canStartSimpleStatement then return ⟨true, ← simpleStatement inner.e⟩
  return ⟨false, []⟩

theorem Parser.anyStatement_plain {inner : Inner} {p : Parser} (notIndent : p.cell.kind ≠ .indent)
    (plain : p.dialect.compoundForm? p.cell.kind = none) : anyStatement inner p = plainStatement inner p := by
  have indent : at? .indent p = .ok false p := congrArg (EStateM.Result.ok · p) (beq_eq_false_iff_ne.2 notIndent)
  have start : (get : ParseM Parser) p = .ok p p := rfl
  rw [anyStatement, TokenStream.bind_ok indent, if_neg Bool.false_ne_true, TokenStream.bind_ok start, plain]
  rfl

/-- A first round that is not at the end of the file. -/
theorem Parser.statementRound_more {inner : Inner} {p : Parser} (more : p.cell.kind ≠ .endOfFile) :
    statementRound inner (· == .endOfFile) (none, #[]) p = (inner.statement >>= fun parsed =>
      recoverStatement parsed >>= fun goesOn => if goesOn then pure
        (.yield (some p.position, #[] ++ parsed.nodes.toArray))
        else pure (.done (some p.position, #[] ++ parsed.nodes.toArray))) p := by
  have ends : (p.cell.kind == .endOfFile) = false := beq_eq_false_iff_ne.2 more
  have here : at? .endOfFile p = .ok false p := congrArg (EStateM.Result.ok · p) ends
  have stops : atSet? (· == .endOfFile) p = .ok false p := congrArg (EStateM.Result.ok · p) ends
  have goes : hasProgressed none p = .ok true p := rfl
  have place : (get : ParseM Parser) p = .ok p p := rfl
  rw [statementRound, TokenStream.bind_ok here, TokenStream.bind_ok stops, if_neg (by decide), TokenStream.bind_ok goes,
    if_pos rfl, TokenStream.bind_ok place]

theorem Parser.not_isBlockEnd_of_isInline {kind : TokenKind} (inline : kind.isInline) : ¬ isBlockEnd kind := by
  cases kind <;> first | exact Bool.false_ne_true | cases inline

namespace Parallel

variable {c : Frame} {W : Pairing} {inner : TolerantParser.Inner} {p q : Parser}

/-- What is left of a single line is tokens of the line and its end. -/
theorem single_kind (along : c.Along p q) (lined : c.lined) (dirty : ¬ c.clean) (room : 0 < c.room p.stream) :
    p.cell.kind.isInline ∨ p.cell.kind = .newline := by
  obtain ⟨line, left, inline, -⟩ := along.stream.single lined dirty room
  obtain ⟨rest, kinds⟩ := TokenStream.kinds_eq_cons along.stream.rests.1
  rw [kinds] at left
  cases line with
  | nil => exact .inr (List.cons.inj left).1
  | cons kind line => exact .inl ((List.cons.inj left).1 ▸ inline kind List.mem_cons_self)

theorem single_stepped (along : c.Along p q) (lined : c.lined) (dirty : ¬ c.clean) (room : 0 < c.room p.stream) :
    c.Stepped p q := by
  refine ⟨⟨along, room, c.firm_of_plain ?_⟩, trivial⟩
  rcases single_kind along lined dirty room with inline | ends
  · exact TokenKind.plain_of_isInline inline
  · rw [ends]
    rfl

/-- What holds behind the statement of a single line: nothing of the line is left, unless it starts no statement. -/
abbrev PassedLine (c : Frame) (parsed : Parsed) (p q : Parser) : Prop :=
  c.Along p q ∧ (parsed.present = true → c.Past p q) ∧ (parsed.present = false → 0 < c.room p.stream)

theorem plainStatement (works : inner.e.InStep c) :
    Parallel c c.Stepped (PassedLine c) W (Parser.plainStatement inner) (Parser.plainStatement inner) := by
  refine canStartSimpleStatement.same fun starts _ => ?_
  split
  · exact (simpleStatement works).bind fun _ _ _ nodes =>
      .pure ⟨rfl, nodes⟩ fun _ _ past => ⟨past.1, fun _ => past, nofun⟩
  · exact .pure ⟨rfl, .nil⟩ fun _ _ holds => ⟨holds.1.toAlong, nofun, fun _ => holds.1.room⟩

/-- A line that begins with no word of a compound statement is a simple statement or none. -/
theorem anyLine (works : inner.e.InStep c) (lined : c.lined) (dirty : ¬ c.clean) (along : c.Along p q)
    (room : 0 < c.room p.stream) (plain : p.dialect.compoundForm? p.cell.kind = none) :
    Together c (PassedLine c) (c.paired p q) (Parser.anyStatement inner p) (Parser.anyStatement inner q) := by
  have kinds : p.cell.kind = q.cell.kind := along.stream.kind room
  have notIndent : p.cell.kind ≠ .indent := fun opens => by
    rcases single_kind along lined dirty room with inline | ends
    · rw [opens] at inline
      cases inline
    · rw [opens] at ends
      cases ends
  have form' : q.dialect.compoundForm? q.cell.kind = none := by
    rw [← along.dialect, ← kinds, plain]
  rw [Parser.anyStatement_plain notIndent plain, Parser.anyStatement_plain (kinds ▸ notIndent) form']
  exact (plainStatement works).runs p q (single_stepped along lined dirty room) (le_refl _)

theorem guardedLine (works : ∀ floor more, inner.e.InStep (c.raised floor more))
    (retains : Parser.Retains (Parser.anyStatement inner)) (lined : c.lined) (dirty : ¬ c.clean) (along : c.Along p q)
    (room : 0 < c.room p.stream) (plain : p.dialect.compoundForm? p.cell.kind = none) :
    Together c (PassedLine c) (c.paired p q) (Parser.guardedStatement inner p) (Parser.guardedStatement inner q) := by
  have deep := Nat.lt_of_lt_of_le c.floor_pos along.deep
  have both := anyLine (works p.collectors.length deep) lined dirty (along.raise (Nat.le_refl _)) room plain
  refine rescued along (le_refl _) deep both ?_ ?_
  · exact fun parsed p' q' passed => ⟨passed.1.lower along.deep,
      fun present => ⟨passed.1.lower along.deep, (passed.2.1 present).2⟩, passed.2.2⟩
  · intro p' q' later grows left right
    have retained := retains p
    have retained' := retains q
    rw [left] at retained
    rw [right] at retained'
    obtain ⟨again, grows, room⟩ :=
      along.rewound room (later.lower along.deep) grows later.deep retained.errors retained'.errors
    exact (abandonLine.runs _ _ (single_stepped again lined dirty room) grows).weaken (le_refl _)
      fun _ _ _ holds => ⟨holds.1.1, fun _ => holds.1, fun missing => by rw [holds.2] at missing; cases missing⟩

/-- The first round over a document that begins with a single line takes all of the line. -/
theorem lineRound (limits : Limits) (lined : c.lined) (dirty : ¬ c.clean) (along : c.Along p q)
    (room : 0 < c.room p.stream) (plain : p.dialect.compoundForm? p.cell.kind = none) :
    Together c (round (fun _ => c.Past) fun _ _ _ => False) (c.paired p q)
      (Parser.statementRound (Parser.full limits) (· == .endOfFile) (none, #[]) p)
      (Parser.statementRound (Parser.full limits) (· == .endOfFile) (none, #[]) q) := by
  have kinds : p.cell.kind = q.cell.kind := along.stream.kind room
  have more : p.cell.kind ≠ .endOfFile := fun ends => by
    rcases single_kind along lined dirty room with inline | newline
    · rw [ends] at inline
      cases inline
    · rw [ends] at newline
      cases newline
  let inner : Inner := ⟨.full limits, Parser.statementAt (.full limits) limits.block⟩
  have works : ∀ floor more, inner.e.InStep (c.raised floor more) := fun _ _ => Nested.inStep_full limits _
  have statement := guardedLine works (Parser.retains_anyStatement limits _) lined dirty along room plain
  rw [Parser.statementRound_more more, Parser.statementRound_more (kinds ▸ more)]
  refine statement.andThen (Together c (round (fun _ => c.Past) fun _ _ _ => False) (c.paired p q))
    (fun parsed => ?_) ?_
    fun _ _ both => both
  · have recovers : Parallel c c.Stepped _ .all (Parser.recoverStatement parsed) _ :=
      recoverStatement_at (Likeness.all parsed)
    exact recovers.retains.bind fun _ => .ite (Parser.retains_pure _) (Parser.retains_pure _)
  intro parsed parsed' p' q' passed grows both
  have equally : Alike (c.paired p' q') (some p.position) (some q.position) := .some along.position
  have nodes : Alike (c.paired p' q') (#[] ++ parsed.nodes.toArray) (#[] ++ parsed'.nodes.toArray) :=
    Likeness.Alike.appendList .empty both.2
  have taken : Parallel c (PassedLine c parsed) (fun goesOn p q => if goesOn then c.Past p q else False)
    (c.paired p' q')
      (Parser.recoverStatement parsed) (Parser.recoverStatement parsed') := by
    by_cases present : parsed.present = true
    · have goesOn : ∀ parsed : Parsed, parsed.present = true → Parser.recoverStatement parsed = pure true :=
        fun parsed present => by rw [Parser.recoverStatement, if_pos present]
      rw [goesOn parsed present, goesOn parsed' (both.1.symm.trans present)]
      exact .pure rfl fun _ _ passed => passed.2.1 present
    · have missing := Bool.eq_false_iff.2 present
      refine (recoverStatement_at both).weaken
        (fun _ _ passed => single_stepped passed.1 lined dirty (passed.2.2 missing)) fun goesOn p q holds => ?_
      cases goesOn with
      | true => exact holds.2.2 missing rfl
      | false =>
        obtain ⟨along, room, ends⟩ := holds.2.1 rfl
        rcases single_kind along lined dirty room with inline | newline
        · exact absurd ends (Parser.not_isBlockEnd_of_isInline inline)
        · rw [newline] at ends
          cases ends
  refine ((taken.same fun goesOn le => ?_).runs p' q' passed (le_refl _)).weaken grows fun _ _ _ holds => holds
  split
  · exact .pure ⟨equally.mono le, nodes.mono le⟩ fun _ _ past => past
  · exact .pure ⟨equally.mono le, nodes.mono le⟩ fun _ _ past => past

end Parallel

end TolerantParser
