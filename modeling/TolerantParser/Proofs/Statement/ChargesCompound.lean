import TolerantParser.Proofs.Statement.Charges

/-!
What blocks and the statements that hold them spend. The word that a statement begins with pays for the colon and the
block behind it, whatever is wrong with these, and so does each word that goes on with the statement. A statement that
is given up takes its errors back but not the names put in for it; it is complained of, and nothing is said any more of
what was spent.
-/

namespace TolerantParser.Parser

open TokenStream (bind_ok bind_eq_ok)

variable {d : Dialect} {here : TokenKind → Prop} {e : Nested} {inner : Inner} {p held : Parser}

/-! ### Blocks -/

/-- A line on which nothing starts pays for the error. -/
theorem costs_recoverStatement (parsed : Parsed) : Costs d here 0 (recoverStatement parsed) := by
  refine .ite (fun _ => .nothing) fun _ => .ifAtSet .nothing ?_
  refine .look (fun _ => ⟨_, rfl⟩) fun clause => .describeCurrent fun found one => ?_
  have recorded : isRecordedOnly (if clause = true then .compoundMalformed else .statementMalformed) := by
    cases clause <;> rfl
  have message : OneLine s!"Unexpected {found}".toList := oneLine_append (by decide) one
  refine (stays_complain recorded message).bind fun _ => ?_
  exact (costs_skipLine.weaken (fun _ => And.right) fun _ => le_refl _).bind fun _ => .pure (by decide)

theorem costs_statementList (works : inner.Charged d) (stop : TokenKind → Bool) :
    Costs d here 0 (statementList inner stop) := by
  rw [statementList_eq]
  refine (Spends.repeated _ fun made => ?_).andThen fun made => .nothing
  refine .look (fun _ => ⟨_, rfl⟩) fun ends => .look (fun _ => ⟨_, rfl⟩) fun stops => ?_
  refine .ite (fun _ => .nothing) fun _ => ?_
  refine .look (fun _ => ⟨_, rfl⟩) fun further => .ite (fun _ => ?_) fun _ => .nothing
  refine .seen fun p _ _ => works.statement.there.andThen fun parsed => ?_
  refine (costs_recoverStatement parsed).andThen fun goesOn => ?_
  exact .ite (fun _ => .nothing) fun _ => .nothing

theorem costs_block (works : inner.Charged d) : Costs d here (0, 1) (block inner) := by
  refine (costs_statementList works _).bind fun body => .ifEat (.pure (by decide)) ?_
  refine (costs_recover (by decide) []).bind fun outcome => .ite (fun _ => .pure (by decide)) fun _ => ?_
  exact .ite (fun _ => costs_bumpOver.discard.bind fun _ => .pure (by decide)) fun _ => .pure (by decide)

theorem costs_unindentedBlock (works : inner.Charged d) : Costs d here (0, 1) (unindentedBlock inner) := by
  refine .look (fun _ => ⟨_, rfl⟩) fun empty => ?_
  have missing : fine (if empty = true then .emptySuite else .indentExpected) = (0, 1) := by
    cases empty <;> rfl
  refine Spends.bind (missing ▸ costs_recover (by decide) []) fun outcome => ?_
  refine .ite (fun _ => .pure (by decide)) fun _ => ?_
  exact (costs_statementList works _).bind fun _ => .pure (by decide)

theorem costs_suite (works : inner.Charged d) : Costs d here (0, 1) (suite inner) := by
  refine .ifEat (.ifEat ?_ ?_) (.ifCanStart ?_ (.describeCurrent fun found one => ?_))
  · exact (costs_block works).within (by decide)
  · exact (costs_unindentedBlock works).within (by decide)
  · exact (costs_simpleStatement works.e).bind fun _ => .pure (by decide)
  · have message : OneLine s!"Expected a statement or an indented block, found {found}".toList :=
      oneLine_append (by decide) one
    exact (stays_complain rfl message).bind fun _ => .pure (by decide)

theorem costs_colonDistance : Costs d here 0 colonDistance := by
  refine (Spends.repeated _ fun made => ?_).andThen fun made => .nothing
  obtain ⟨found, distance⟩ := made
  refine .stay (stays_nth distance) fun kind => .ite (fun _ => .nothing) fun _ => ?_
  exact .ite (fun _ => .nothing) fun _ => .nothing

theorem costs_bumpMany (count : Nat) : Costs d here 0 (bumpMany count) := by
  induction count generalizing here with
  | zero => exact .nothing
  | succ count ih => exact costs_bumpOver.discard.andThen fun _ => ih

theorem costs_expectColon {construct : String} (oneLine : OneLine construct.toList) :
    Costs d here (0, 1) (expectColon construct) := by
  have message : OneLine s!"Expected ':' after {construct}".toList := oneLine_append (by decide) oneLine
  refine .ifEat (.pure (by decide)) ((stays_complain rfl message).bind fun _ => ?_)
  refine costs_colonDistance.there.bind fun distance => ?_
  cases distance with
  | none => exact .pure (by decide)
  | some distance => exact (costs_bumpMany (distance + 1)).within (by decide)

/-- A colon and a block cost an error each. -/
theorem Spends.headed {α : Type} {k : Suite → ParseM α} {cost : α → Cost} {construct : String} (works : inner.Charged d)
    (oneLine : OneLine construct.toList)
    (next : ∀ block, Spends d Anywhere (fun value => cost value - (0, 1) - (0, 1)) (k block)) :
    Spends d here cost (expectColon construct >>= fun _ => suite inner >>= k) :=
  (costs_expectColon oneLine).bind fun _ => (costs_suite works).bind next

theorem costs_elseClause (works : inner.Charged d) {construct : String} (oneLine : OneLine construct.toList)
    (failed : Bool) : Costs d here 0 (elseClause inner construct failed) := by
  have message : OneLine s!"'else' in {construct}".toList := oneLine_append (by decide) oneLine
  exact .ite (fun _ => .nothing) fun _ =>
    .ifEat (.headed works message fun _ => .pure (by decide)) .nothing

/-! ### Conditions and loops -/

theorem costs_openClause (works : inner.Charged d) (outer : List OpenClause) {kind : TokenKind}
    (word : kind = .kwIf ∨ kind = .kwElif) : Costs d (· = kind) (-1, -3) (openClause inner outer) := by
  have pays : toll kind = (2, 6) := by
    rcases word with rfl | rfl <;> rfl
  refine .stay stays_start fun marker => .bumpWord word fun cell one => ?_
  have message : OneLine s!"'{cell.text}' condition".toList :=
    oneLine_append (oneLine_append (by decide) one) (by decide)
  rw [pays]
  exact (works.e.test true).anywhere.bind fun _ => .headed works message fun _ => .pure (by decide)

theorem costs_closeLadder (node : Node) (clauses : List OpenClause) : Costs d here 0 (closeLadder node clauses) := by
  induction clauses generalizing here node with
  | nil => exact .nothing
  | cons clause outer ih => exact (costs_complete ..).andThen fun node => ih node

theorem costs_conditional (works : inner.Charged d) : Costs d (· = .kwIf) 0 (conditional inner) := by
  refine (costs_openClause works [] (.inl rfl)).bind fun first => ?_
  refine Spends.bind (Spends.repeated _ fun ladder => ?_) fun ladder => ?_
  · exact .unlessAt .nothing ((costs_openClause works _ (.inr rfl)).bind fun _ => .pure (by decide))
  · exact (costs_elseClause works (by decide) _).bind fun _ => (costs_complete ..).bind fun node =>
      (costs_closeLadder node _).within (by decide)

theorem costs_whileLoop (works : inner.Charged d) : Costs d (· ≠ .endOfFile) 0 (whileLoop inner) :=
  costs_build ((costs_bumpAt fun _ => id).discard.bind fun _ => (works.e.test true).anywhere.bind fun _ =>
    .headed works (by decide) fun _ => (costs_elseClause works (by decide) _).bind fun _ => .pure (by decide))

theorem costs_forLoop (works : inner.Charged d) : Costs d (· ≠ .endOfFile) 0 (forLoop inner) := by
  refine costs_build ((costs_bumpAt fun _ => id).discard.bind fun _ => ?_)
  refine (costs_testList (solvent_expr works.e).anywhere (solvent_expr works.e).anywhere).bind fun target => ?_
  refine .expect rfl (by decide) ((works.e.test true).testList.anywhere.bind fun iterable => ?_)
  exact .headed works (by decide) fun _ => (costs_elseClause works (by decide) _).bind fun _ => .pure (by decide)

/-! ### Try and with -/

theorem costs_caught (exprs : e.Charged d) : Costs d here 0 (caught e) := by
  refine .look (fun _ => ⟨_, rfl⟩) fun f => (costs_optional (exprs.test true)).andThen fun type => ?_
  cases type with
  | none => exact .nothing
  | some type =>
    refine .ifAt (fun _ => ?_) (.ifAt (fun _ => ?_) .nothing)
    · refine .complaintUnless rfl (by decide) (costs_bump.discard.bind fun _ => .ite (fun _ => ?_) fun _ => ?_)
      · exact (exprs.test true).anywhere.bind fun _ => .pure (by decide)
      · exact (costs_name (by decide)).bind fun _ => .pure (by decide)
    · refine .complaintUnless rfl (by decide) (costs_bump.discard.bind fun _ => ?_)
      exact (exprs.test true).anywhere.bind fun _ => .pure (by decide)

theorem costs_handler (works : inner.Charged d) : Costs d (· = .kwExcept) 0 (handler inner) := by
  refine .stay stays_start fun marker => costs_bump.discard.bind fun _ => (costs_caught works.e).bind fun _ => ?_
  exact .headed works (by decide) fun _ => (costs_complete ..).bind fun _ => .pure (by decide)

theorem costs_handlers (works : inner.Charged d) (failed : Bool) : Costs d here 0 (handlers inner failed) := by
  refine (Spends.repeated _ fun made => ?_).andThen fun made => .nothing
  obtain ⟨nodes, failed⟩ := made
  exact .unlessAt .nothing ((costs_handler works).andThen fun _ => .nothing)

theorem costs_tryElse (works : inner.Charged d) (handled failed : Bool) :
    Costs d here 0 (tryElse inner handled failed) :=
  .unlessAt .nothing <| .complaintUnless rfl (by decide) <| costs_bump.discard.bind fun _ =>
    (costs_expectColon (by decide)).bind fun _ => (costs_suite works).within (by decide)

theorem costs_finalClause (works : inner.Charged d) (handled : Bool) :
    Costs d (· = .kwFinally) 0 (finalClause inner handled) :=
  .look (fun _ => ⟨_, rfl⟩) fun f => .complaintIf rfl (by decide) <| costs_bump.discard.bind fun _ =>
    .headed works (by decide) fun _ => .pure (by decide)

theorem costs_tryBlock (works : inner.Charged d) : Costs d (· ≠ .endOfFile) 0 (tryBlock inner) := by
  refine costs_build ((costs_bumpAt fun _ => id).discard.bind fun _ => .headed works (by decide) fun body =>
    (costs_handlers works body.failed).bind fun made => ?_)
  obtain ⟨handlers, failed⟩ := made
  have without {here : TokenKind → Prop} : Costs d here 0 (pure [] : ParseM (List Node)) := .nothing
  refine (costs_tryElse works _ _).bind fun orElse => .byWord fun kind _ => .ite (fun ends => ?_) fun _ => ?_
  · rw [Bool.and_eq_true, beq_iff_eq] at ends
    rw [ends.2]
    exact (costs_finalClause works _).bind fun final => .complaintIf rfl (by decide) (.pure (by decide))
  · exact without.bind fun final => .complaintIf rfl (by decide) (.pure (by decide))

theorem costs_withBlock (works : inner.Charged d) : Costs d (· ≠ .endOfFile) 0 (withBlock inner) :=
  costs_build ((costs_bumpAt fun _ => id).discard.bind fun _ => (works.e.test true).anywhere.bind fun _ =>
    (costs_announced rfl (solvent_expr works.e).anywhere).bind fun _ =>
      .headed works (by decide) fun _ => .pure (by decide))

/-! ### Functions and classes -/

theorem costs_signature (exprs : e.Charged d) : Costs d here (0, 1) (signature e) := by
  refine costs_build (.ifEat ?_ ((stays_complain rfl (by decide)).bind fun _ => .pure (by decide)))
  refine .look (fun _ => ⟨_, rfl⟩) fun f => (costs_parameterList exprs _ _).bind fun list => ?_
  exact (costs_expectCloser _ (by decide)).discard.bind fun _ => .pure (by decide)

theorem costs_function (works : inner.Charged d) (marker : Marker) (decorators : List Node) :
    Costs d (· ≠ .endOfFile) (-1, -2) (function inner marker decorators) := by
  refine (costs_bumpAt fun _ => id).discard.bind fun _ => (costs_name (by decide)).bind fun name =>
    (costs_signature works.e).bind fun parameters => .look (fun _ => ⟨_, rfl⟩) fun f => ?_
  have returns : Costs d Anywhere 0 (if f.annotations then announced .arrow (inner.e.test true) else pure none) :=
    .ite (fun _ => costs_announced rfl (works.e.test true).anywhere) fun _ => .nothing
  rw [ite_bind]
  exact returns.bind fun returns => .headed works (by decide) fun _ => (costs_complete ..).within (by decide)

theorem costs_baseClasses (exprs : e.Charged d) : Costs d here 0 (baseClasses e) := by
  refine .ifEat ?_ .nothing
  refine (costs_at _).bind fun ends => .look (fun _ => ⟨_, rfl⟩) fun f => .complaintIf rfl (by decide) ?_
  refine Spends.bind (Spends.repeated _ fun bases => ?_) fun bases => ?_
  · refine .ifAtSet ((exprs.test true).started.bind fun base => ?_) .nothing
    exact .ifEat (.pure (by decide)) (.pure (by decide))
  · exact (costs_expectCloser _ (by decide)).discard.bind fun _ => .pure (by decide)

theorem costs_classBody (works : inner.Charged d) (marker : Marker) (decorators : List Node) :
    Costs d (· ≠ .endOfFile) (-1, -3) (classBody inner marker decorators) :=
  (costs_bumpAt fun _ => id).discard.bind fun _ => (costs_name (by decide)).bind fun name =>
    (costs_baseClasses works.e).bind fun bases =>
      .headed works (by decide) fun _ => (costs_complete ..).within (by decide)

theorem costs_decoratorTarget (exprs : e.Charged d) : Costs d here (1, 1) (decoratorTarget e) := by
  refine (costs_name (by decide)).bind fun first => Spends.bind (Spends.repeated _ fun target => ?_) fun target => ?_
  · exact .ifAt (fun _ => (costs_member target).bind fun _ => .pure (by decide)) .nothing
  · exact .ifAt (fun _ => (costs_call exprs target).within (by decide)) (.pure (by decide))

theorem costs_decorator (exprs : e.Charged d) : Costs d (· = .at) (-1, -4) (decorator e) := by
  have node : Costs d (· = .at) (-1, -5) (build .decorator do
      discard bump
      return (.none, child .function (← decoratorTarget e))) :=
    costs_build (costs_bump.discard.bind fun _ => (costs_decoratorTarget exprs).bind fun _ => .pure (by decide))
  exact node.bind fun node => (costs_endLine _ node (by decide)).within (by decide)

theorem costs_missingFunction (marker : Marker) (decorators : List Node) :
    Costs d here (1, 1) (missingFunction marker decorators) := by
  have name : Costs d here (1, 1) (build .name do
      discard <| takeMissingName (some "Expected 'def' or 'class' after decorator")
      return (.name missingName, [])) :=
    costs_build ((costs_takeMissingName (by decide)).discard.andThen fun _ => .nothing)
  have parameters : Costs d Anywhere 0 (build .parameters do return (.none, [])) := costs_build .nothing
  exact name.andThen fun _ => parameters.andThen fun _ => costs_complete ..

/-- Decorators are there, and pay for a function that is not. -/
theorem costs_decorated (works : inner.Charged d) : Costs d (· = .at) 0 (decorated inner) := by
  have listed : Costs d (· = .at) (-1, -4) (loop #[] fun decorators => do
      if ← at? .at then return .yield (decorators.push (← decorator inner.e))
      return .done decorators) := by
    refine .loopPaid (.ifAt (fun _ => ?_) (.never (by simp))) fun decorators => .ifAt (fun _ => ?_) .nothing
    · exact (costs_decorator works.e).bind fun _ => .pure (by decide)
    · exact (costs_decorator works.e).bind fun _ => .pure (by decide)
  refine .stay stays_start fun marker => listed.bind fun decorators => .ifAt (fun _ => ?_) (.ifAt (fun _ => ?_) ?_)
  · exact (costs_function works marker _).weaken (by rintro _ rfl; decide) fun _ => by decide
  · refine .look (fun _ => ⟨_, rfl⟩) fun f => .complaintUnless rfl (by decide) ?_
    exact (costs_classBody works marker _).weaken (by rintro _ rfl; decide) fun _ => by decide
  · exact (costs_missingFunction marker _).within (by decide)

/-- No compound statement begins with the end of the file, and a condition begins with its word. -/
theorem compoundForm_begins {kind : TokenKind} {form : CompoundForm} (found : d.compoundForm? kind = some form) :
    kind ≠ .endOfFile ∧ (form = .conditional → kind = .kwIf) ∧ (form = .decorated → kind = .at) := by
  have all : ∀ pair ∈ d.compoundForms, pair.1 ≠ .endOfFile ∧ (pair.2 = .conditional → pair.1 = .kwIf) ∧
      (pair.2 = .decorated → pair.1 = .at) := by
    cases d <;> decide
  obtain ⟨before, after, split, -⟩ := List.lookup_eq_some_iff.1 found
  exact all (kind, form) (by simp [split])

theorem costs_compoundForm (works : inner.Charged d) {kind : TokenKind} {form : CompoundForm}
    (found : d.compoundForm? kind = some form) : Costs d (· = kind) 0 (compoundForm inner form) := by
  obtain ⟨more, conditional, decorates⟩ := compoundForm_begins found
  have begun {form : ParseM Node} {c : Cost} (least : c ≤ 0) (costs : Costs d (· ≠ .endOfFile) c form) :
      Costs d (· = kind) 0 form := costs.weaken (by rintro _ rfl; exact more) fun _ => least
  cases form with
  | conditional => exact conditional rfl ▸ costs_conditional works
  | whileLoop => exact begun (le_refl _) (costs_whileLoop works)
  | forLoop => exact begun (le_refl _) (costs_forLoop works)
  | tryBlock => exact begun (le_refl _) (costs_tryBlock works)
  | withBlock => exact begun (le_refl _) (costs_withBlock works)
  | function => exact .stay stays_start fun marker => begun (by decide) (costs_function works marker [])
  | classBody => exact .stay stays_start fun marker => begun (by decide) (costs_classBody works marker [])
  | decorated => exact decorates rfl ▸ costs_decorated works

/-! ### Statements of any form -/

theorem costs_unexpectedBlock (works : inner.Charged d) : Costs d (· = .indent) 0 (unexpectedBlock inner) :=
  (stays_complain rfl (by decide)).bind fun _ => costs_bump.discard.bind fun _ =>
    (costs_statementList works _).bind fun _ => (costs_eat _).discard.bind fun _ => .pure (by decide)

theorem costs_anyStatement (works : inner.Charged d) : Costs d Anywhere 0 (anyStatement inner) := by
  refine .ifAt (fun _ => costs_unexpectedBlock works) (.seen fun p steady starts => ?_)
  rw [steady.dialect]
  split
  next form found => exact (costs_compoundForm works found).andThen fun _ => .nothing
  next => exact .ifCanStart ((costs_simpleStatement works.e).bind fun _ => .pure (by decide)) .nothing

/-! ### Giving up -/

/-- Where a parse goes back to a place it has come from, no token is lost, and the errors are those known before. -/
theorem Onward.rewound (begun : Onward d p held) (steady : p.Steady d) : Onward d p (p.rewound held) := by
  obtain ⟨same, listed, index, kind⟩ := begun.known p.cell (by simp [TokenStream.document, Parser.cell])
  obtain ⟨before, after, split⟩ := List.append_of_mem listed
  have keeps := begun.steady.sound.seek p.cell.index
  have seeks := TokenStream.seek_eq begun.steady.sound.nodup split
  have errors := errors_rewound begun.errors
  have known : (held.stream.seek p.cell.index).document = held.stream.document := held.stream.document_seek _
  refine ⟨⟨keeps.dialect.trans begun.steady.dialect, keeps.sound, ?_, ?_, ?_⟩, fun cell there => ?_, ?_⟩
  · show (held.stream.seek p.cell.index).current.kind ≠ .comment
    rw [← index, seeks, kind]
    exact steady.rests
  · show Worded (held.stream.seek p.cell.index).tokens
    rw [keeps.tokens]
    exact begun.steady.worded
  · rw [errors]
    exact steady.oneLine
  · show ∃ same ∈ (held.stream.seek p.cell.index).document, _
    rw [known]
    exact begun.known cell there
  · exact errors.symm ▸ List.prefix_refl _

/-- A statement that is given up is reported, so the parse is not calm. -/
theorem costs_abandonLine : Costs d Anywhere 0 abandonLine where
  onward steady _ := by
    have skipped : Costs d Anywhere (0, 1) abandonLine :=
      (stays_complain rfl (by decide)).bind fun _ => skipLine_anywhere.bind fun _ => .pure (by decide)
    exact skipped.onward steady trivial
  pays {p _ _} _ _ done calm := absurd (after_ok done ▸ calm) (not_calm_abandonLine p)

/-- Steps that may be given up spend no more than if they may not. When they are given up the names that were put in for
them stay, but then the parse is not calm. -/
theorem costs_orTooDeep {steps : ParseM Parsed} (works : Costs d Anywhere 0 steps) :
    Costs d Anywhere 0 (get >>= fun start => orTooDeep steps (abandonStatement start.here)) where
  onward {p} steady _ := by
    have begun := works.onward steady trivial
    show Onward d p (after (orTooDeep steps (abandonStatement p.here) p))
    rw [orTooDeep]
    cases taken : steps p with
    | ok parsed held =>
      rw [taken] at begun
      exact begun
    | error fault held =>
      rw [taken] at begun
      cases fault with
      | tooDeep =>
        -- the line is skipped from where the steps began, so nothing is asked of where they came to
        have back := Onward.rewound begun steady
        simp only [abandonStatement_eq]
        exact back.trans (costs_abandonLine.onward back.steady trivial)
      | _ => exact begun
  pays {p q parsed} steady _ done calm := by
    replace done : orTooDeep steps (abandonStatement p.here) p = .ok parsed q := done
    rw [orTooDeep] at done
    cases taken : steps p with
    | ok parsed held =>
      rw [taken] at done
      cases done
      exact works.pays steady trivial taken calm
    | error fault held =>
      rw [taken] at done
      cases fault with
      | tooDeep =>
        replace done : abandonStatement p.here held = .ok parsed q := done
        rw [abandonStatement_eq] at done
        exact absurd (after_ok done ▸ calm) (not_calm_abandonLine _)
      | _ => cases done

theorem costs_guardedStatement (works : inner.Charged d) : Costs d Anywhere 0 (guardedStatement inner) :=
  costs_orTooDeep (costs_anyStatement works)

theorem costs_statementAt (exprs : e.Charged d) (depth : Nat) : Costs d Anywhere 0 (statementAt e depth) := by
  induction depth with
  | zero => exact .throw _
  | succ depth ih => exact costs_guardedStatement ⟨exprs, ih⟩

theorem charged_full (limits : Limits) (d : Dialect) : (full limits).Charged d :=
  ⟨charged_levels d _, costs_statementAt (charged_levels d _) _⟩

/-! ### Documents -/

/-- The statements of a document are paid for by its tokens. -/
theorem costs_documentBody (works : inner.Charged d) : Costs d here 0 (documentBody inner) := by
  refine (Spends.repeated _ fun body => ?_).andThen fun body => .nothing
  refine (costs_statementList works _).bind fun nodes => .ifAt (fun _ => .pure (by decide)) ?_
  refine .describeCurrent fun found one => ?_
  have message : OneLine s!"Unexpected {found} at module level".toList :=
    oneLine_append (oneLine_append (by decide) one) (by decide)
  refine (stays_complain rfl message).bind fun _ => ?_
  exact (costs_bumpAt fun _ => And.right).discard.bind fun _ => .pure (by decide)

/-- The statements of any document. -/
theorem costs_full (limits : Limits) (d : Dialect) : Costs d Anywhere 0 (documentBody (full limits)) :=
  costs_documentBody (charged_full limits d)

end TolerantParser.Parser
