import TolerantParser.Parser.Core
import TolerantParser.Proofs.Parser.Core
import TolerantParser.Proofs.Stream.Corresponding

/-!
Parses in parallel. Two parses are in step if their streams are at corresponding tokens and all else
that they hold is alike.
`Parallel c pre post W f g`: from states that are related by `pre`, with `W` paired among them, the steps `f` and
`g` come to states related by `post` and to values that are alike, and what was paired is so still. Either both
give up because something nests too deeply or neither does. Nothing is claimed of misuse: no parse of a text comes
to that. In a clean frame nothing is claimed either once the first parse has found an error, nor in a thrifty one once
it has lost the layout or given up a statement. That it keeps what errors it found is part of the relation, so that
such an error is not forgotten.
-/

namespace TolerantParser

open TokenStream (Steps significant)

instance : Likeness ParseError where
  Alike W error other := error.kind = other.kind ∧ error.message = other.message ∧ Alike W error.cell other.cell
  mono le alike := ⟨alike.1, alike.2.1, alike.2.2.mono le⟩
  all error := ⟨rfl, rfl, Likeness.all error.cell⟩

/-- What is alike in what two repairs did. -/
structure Outcome.Alike (W : Pairing) (outcome other : Outcome) : Prop where
  skipped : Likeness.Alike W outcome.skipped other.skipped
  synthetic : Likeness.Alike W outcome.synthetic other.synthetic
  emptySuite : outcome.emptySuite = other.emptySuite
  escalate : outcome.escalate = other.escalate
  resumed : outcome.resumed = other.resumed

instance : Likeness Outcome where
  Alike := Outcome.Alike
  mono le alike := ⟨alike.skipped.mono le, alike.synthetic.mono le, alike.emptySuite, alike.escalate, alike.resumed⟩
  all _ := ⟨Likeness.all _, Likeness.all _, rfl, rfl, rfl⟩

instance : Likeness Marker where
  Alike W marker other := W.depths marker.depth other.depth ∧ W.places marker.anchor.first other.anchor.first
  mono le alike := ⟨le.2.2.2.2 _ _ alike.1, le.2.1 _ _ alike.2⟩
  all _ := ⟨trivial, trivial⟩

namespace Frame

variable (c : Frame)

/-! ### Parses in step -/

/-- The nodes under construction hold tokens that are alike. The outermost one of the second parse may have held
some before. -/
inductive Holds (W : Pairing) : List (Array Cell) → List (Array Cell) → Prop
  | outermost {cells others : Array Cell} {more : List Cell} (held : others.toList = c.held ++ more)
      (alike : Alike W cells.toList more) : Holds W [cells] [others]
  | inner {cells others : Array Cell} {outer outer' : List (Array Cell)} (alike : Alike W cells others)
      (around : Holds W outer outer') : Holds W (cells :: outer) (others :: outer')

/-- The parses have come equally far in the common part or are both directly behind it. -/
structure Along (p q : Parser) : Prop where
  stream : c.SameRank p.stream q.stream
  budget : c.thrifty ∨ p.engine.options.dedentBudget = q.engine.options.dedentBudget
  errors : ∃ found, q.errors.toList = c.errors ++ found ∧ Alike (c.pairs p.stream q.stream) p.errors.toList found
  holds : c.Holds (c.pairs p.stream q.stream) p.collectors q.collectors
  deep : c.floor ≤ p.collectors.length
  position : q.position = p.position + c.gone

/-- The frame compares the parse. -/
structure Fair (p : Parser) : Prop where
  clean : c.clean → p.Clean
  thrifty : c.thrifty → p.Calm ∧ p.Proper

/-- The parses are at tokens of the common part that answer to each other. -/
structure InStep (p q : Parser) : Prop extends c.Along p q where
  room : 0 < c.room p.stream
  firm : c.Firm p.cell.kind

/-- The parses are in step at a token of some sort. -/
abbrev At (here : TokenKind → Prop) (p q : Parser) : Prop := c.InStep p q ∧ here p.cell.kind

/-- The tokens that answer to each other in two parses. -/
abbrev paired (p q : Parser) : Pairing := c.pairs p.stream q.stream

variable {c}

theorem Holds.mono {W W' : Pairing} (le : W ≤ W') {held held' : List (Array Cell)} (holds : c.Holds W held held') :
    c.Holds W' held held' := by
  induction holds with
  | outermost held alike => exact .outermost held (alike.mono le)
  | inner alike _ ih => exact .inner (alike.mono le) ih

theorem Holds.length_eq {W : Pairing} {held held' : List (Array Cell)} (holds : c.Holds W held held') :
    held.length = held'.length := by
  induction holds with
  | outermost => rfl
  | inner _ _ ih => rw [List.length_cons, List.length_cons, ih]

theorem Holds.ne_nil {W : Pairing} {held held' : List (Array Cell)} (holds : c.Holds W held held') :
    held ≠ [] ∧ held' ≠ [] := by
  cases holds <;> exact ⟨nofun, nofun⟩

/-- Tokens that are alike are handed to the innermost nodes. -/
theorem Holds.grow {W : Pairing} {held held' : List (Array Cell)} (holds : c.Holds W held held')
    {cells cells' : List Cell} (more : Alike W cells cells') :
    c.Holds W (Parser.grow cells held) (Parser.grow cells' held') := by
  have list : ∀ (before : Array Cell) (more : List Cell), (before.appendList more).toList = before.toList ++ more := by
    simp
  cases holds with
  | @outermost _ others before held alike =>
    have all : (others.appendList cells').toList = c.held ++ (before ++ cells') := by
      rw [list, held, List.append_assoc]
    refine .outermost all ?_
    rw [list]
    exact alike.append more
  | @inner innermost innermost' _ _ alike around =>
    refine .inner ?_ around
    show Alike W (innermost.appendList cells).toList (innermost'.appendList cells').toList
    rw [list, list]
    exact Likeness.Alike.append alike more

variable {p q : Parser}

theorem InStep.kind (inStep : c.InStep p q) : p.cell.kind = q.cell.kind :=
  inStep.stream.kind inStep.room

theorem InStep.atToken (inStep : c.InStep p q) : c.SameToken p.stream q.stream :=
  ⟨inStep.stream, inStep.room, inStep.firm⟩

theorem Along.dialect (along : c.Along p q) : p.dialect = q.dialect := along.stream.dialect

/-- Parses whose streams have changed while the rest stayed as it was. -/
theorem Along.restream (along : c.Along p q) {s t : TokenStream} (atRank : c.SameRank s t)
    (kept : c.pairs p.stream q.stream ≤ c.pairs s t) {cells cells' : List Cell}
    (more : Alike (c.pairs s t) cells cells') {p' q' : Parser} (streams : p'.stream = s ∧ q'.stream = t)
    (options : p'.engine.options = p.engine.options ∧ q'.engine.options = q.engine.options)
    (errors : p'.errors = p.errors ∧ q'.errors = q.errors)
    (collectors : p'.collectors = Parser.grow cells p.collectors ∧ q'.collectors = Parser.grow cells' q.collectors)
    (position : q'.position = p'.position + c.gone) : c.Along p' q' := by
  obtain ⟨rfl, rfl⟩ := streams
  obtain ⟨found, split, alike⟩ := along.errors
  refine ⟨atRank, ?_, ⟨found, errors.2 ▸ split, errors.1 ▸ alike.mono kept⟩, ?_, ?_, position⟩
  · rw [options.1, options.2]
    exact along.budget
  · rw [collectors.1, collectors.2]
    exact (along.holds.mono kept).grow more
  · rw [collectors.1, Parser.grow_length]
    exact along.deep

end Frame

/-! ### What two runs come to -/

namespace Parser

variable {α β : Type}

/-- Later in a parse no error has been forgotten and no option changed. -/
structure Retained (p q : Parser) : Prop where
  errors : p.errors.toList <+: q.errors.toList
  options : q.engine.options = p.engine.options

theorem Retained.refl (p : Parser) : Retained p p := ⟨List.prefix_refl _, rfl⟩

theorem Retained.trans {p q r : Parser} (first : Retained p q) (second : Retained q r) : Retained p r :=
  ⟨first.errors.trans second.errors, second.options.trans first.options⟩

/-- The steps forget no error and change no options. -/
def Retains (f : ParseM α) : Prop := ∀ p, Retained p (after (f p))

theorem clean_of_retained {p q : Parser} (retained : Retained p q) (clean : q.Clean) : p.Clean := by
  have none : q.errors.toList = [] := congrArg Array.toList clean
  exact Array.toList_inj.1 (List.prefix_nil.1 (none ▸ retained.errors))

/-- What a frame does not compare it does not compare later on. -/
theorem fair_of_retained {c : Frame} {p q : Parser} (retained : Retained p q) (fair : c.Fair q) : c.Fair p :=
  ⟨fun clean => clean_of_retained retained (fair.clean clean), fun thrifty =>
    ⟨fun error member => (fair.thrifty thrifty).1 error (retained.errors.subset member),
      fun error member => (fair.thrifty thrifty).2 error (retained.errors.subset member)⟩⟩

theorem retains_pure (a : α) : Retains (pure a : ParseM α) := .refl

theorem retains_throw (fault : Fault) : Retains (throw fault : ParseM α) := .refl

theorem retains_get : Retains (get : ParseM Parser) := .refl

theorem Retains.bind {f : ParseM α} {k : α → ParseM β} (first : Retains f) (next : ∀ a, Retains (k a)) :
    Retains (f >>= k) := by
  intro p
  show Retained p (after (EStateM.bind f k p))
  have begun := first p
  unfold EStateM.bind
  cases steps : f p with
  | ok a q =>
    rw [steps] at begun
    exact begun.trans (next a q)
  | error fault q =>
    rw [steps] at begun
    exact begun

/-- Steps on the stream find no errors. -/
theorem retains_onStream (steps : StreamM α) : Retains (onStream steps) := by
  intro p
  simp only [onStream, onEngine, Engine.onStream]
  cases steps p.engine.stream <;> exact ⟨List.prefix_refl _, rfl⟩

end Parser

open TolerantParser.Parser (after Retains)

section

variable {α β : Type} [Likeness α] [Likeness β] (c : Frame)

/-- What two runs come to. -/
inductive Together (post : α → Parser → Parser → Prop) (W : Pairing) :
    EStateM.Result Fault Parser α → EStateM.Result Fault Parser α → Prop
  | ok {a b : α} {p q : Parser} : post a p q → W ≤ c.paired p q → Alike (c.paired p q) a b →
      Together post W (.ok a p) (.ok b q)
  | tooDeep {p q : Parser} : c.Along p q → W ≤ c.paired p q →
      Together post W (.error .tooDeep p) (.error .tooDeep q)
  | spoilt {r r' : EStateM.Result Fault Parser α} : ¬ c.Fair (after r) → Together post W r r'
  | misuse {fault : Fault} {p : Parser} {r' : EStateM.Result Fault Parser α} : fault ≠ .tooDeep →
      Together post W (.error fault p) r'
  | misuse' {fault : Fault} {q : Parser} {r : EStateM.Result Fault Parser α} : fault ≠ .tooDeep →
      Together post W r (.error fault q)

structure Parallel (pre : Parser → Parser → Prop) (post : α → Parser → Parser → Prop) (W : Pairing)
    (f g : ParseM α) : Prop where
  runs : ∀ p q, pre p q → W ≤ c.paired p q → Together c post W (f p) (g q)
  retains : Retains f

end

variable {α β : Type} [Likeness α] [Likeness β] {c : Frame} {W W' : Pairing}

/-- Once an error has been found, there is nothing to compare in a clean frame. -/
theorem Together.unclean {post : α → Parser → Parser → Prop} {r r' : EStateM.Result Fault Parser α} (clean : c.clean)
    (found : ¬ (after r).Clean) : Together c post W r r' :=
  .spoilt fun fair => found (fair.clean clean)

theorem Together.weaken {post post' : α → Parser → Parser → Prop} {r r' : EStateM.Result Fault Parser α}
    (together : Together c post W' r r') (le : W ≤ W') (weaker : ∀ a p q, post a p q → post' a p q) :
    Together c post' W r r' := by
  cases together with
  | ok holds kept alike => exact .ok (weaker _ _ _ holds) (le.trans kept) alike
  | tooDeep along kept => exact .tooDeep along (le.trans kept)
  | spoilt unfair => exact .spoilt unfair
  | misuse other => exact .misuse other
  | misuse' other => exact .misuse' other

/-- What holds of two runs that go on alike, and of any two that stand together, holds of two runs that begin so. -/
theorem Together.andThen {f g : ParseM α} {k l : α → ParseM β} {p q : Parser} {mid : α → Parser → Parser → Prop}
    {post : β → Parser → Parser → Prop} (goal : EStateM.Result Fault Parser β → EStateM.Result Fault Parser β → Prop)
    (both : Together c mid W (f p) (g q)) (retains : ∀ a, Retains (k a))
    (next : ∀ a b p' q', mid a p' q' → W ≤ c.paired p' q' → Alike (c.paired p' q') a b → goal (k a p') (l b q'))
    (ended : ∀ r r', Together c post W r r' → goal r r') : goal ((f >>= k) p) ((g >>= l) q) := by
  show goal (EStateM.bind f k p) (EStateM.bind g l q)
  unfold EStateM.bind
  cases left : f p with
  | ok a p' =>
    rw [left] at both
    cases right : g q with
    | ok b q' =>
      rw [right] at both
      cases both with
      | ok holds kept alike => exact next a b p' q' holds kept alike
      | spoilt unfair => exact ended _ _ (.spoilt fun fair => unfair (Parser.fair_of_retained (retains a p') fair))
    | error fault q' =>
      rw [right] at both
      cases both with
      | misuse' other => exact ended _ _ (.misuse' other)
      | spoilt unfair => exact ended _ _ (.spoilt fun fair => unfair (Parser.fair_of_retained (retains a p') fair))
  | error fault p' =>
    rw [left] at both
    cases right : g q with
    | ok b q' =>
      rw [right] at both
      cases both with
      | misuse other => exact ended _ _ (.misuse other)
      | spoilt unfair => exact ended _ _ (.spoilt unfair)
    | error fault' q' =>
      rw [right] at both
      cases both with
      | tooDeep along kept => exact ended _ _ (.tooDeep along kept)
      | misuse other => exact ended _ _ (.misuse other)
      | misuse' other => exact ended _ _ (.misuse' other)
      | spoilt unfair => exact ended _ _ (.spoilt unfair)

namespace Parallel

variable {pre pre' : Parser → Parser → Prop} {f g : ParseM α} {k l : α → ParseM β}
  {mid post' : α → Parser → Parser → Prop} {post : β → Parser → Parser → Prop}

theorem weaken (parallel : Parallel c pre' mid W f g) (stronger : ∀ p q, pre p q → pre' p q)
    (weaker : ∀ a p q, mid a p q → post' a p q) : Parallel c pre post' W f g where
  runs p q holds kept := (parallel.runs p q (stronger p q holds) kept).weaken (le_refl W) weaker
  retains := parallel.retains

theorem before (parallel : Parallel c pre' mid W f g) (stronger : ∀ p q, pre p q → pre' p q) :
    Parallel c pre mid W f g := parallel.weaken stronger fun _ _ _ holds => holds

protected theorem pure {a b : α} (alike : Alike W a b) (holds : ∀ p q, pre p q → mid a p q) :
    Parallel c pre mid W (pure a) (pure b) where
  runs p q before kept := .ok (holds p q before) kept (alike.mono kept)
  retains := Parser.retains_pure a

protected theorem throw (fault : Fault) (along : ∀ p q, pre p q → c.Along p q) :
    Parallel c pre mid W (throw fault) (throw fault) where
  runs p q before kept := by
    by_cases deep : fault = .tooDeep
    · subst deep
      exact .tooDeep (along p q before) kept
    · exact .misuse deep
  retains := Parser.retains_throw fault

protected theorem bind (first : Parallel c pre mid W f g)
    (next : ∀ {W'} a b, W ≤ W' → Alike W' a b → Parallel c (mid a) post W' (k a) (l b)) :
    Parallel c pre post W (f >>= k) (g >>= l) := by
  -- where everything is paired, whatever the first steps come to is like itself
  have retains : ∀ a, Retains (k a) := fun a => (next a a W.le_all (Likeness.all a)).retains
  refine ⟨fun p q holds kept => (first.runs p q holds kept).andThen (Together c post W) retains ?_ fun _ _ both => both,
    first.retains.bind retains⟩
  intro a b p' q' holds kept alike
  exact ((next a b kept alike).runs p' q' holds (le_refl _)).weaken kept fun _ _ _ holds => holds

/-- Values that are alike only if they are equal need not be told apart. -/
protected theorem same [Exact α] (first : Parallel c pre mid W f g)
    (next : ∀ {W'} a, W ≤ W' → Parallel c (mid a) post W' (k a) (l a)) : Parallel c pre post W (f >>= k) (g >>= l) :=
  first.bind fun a b le alike => by
    obtain rfl := Exact.eq alike
    exact next a le

/-- Steps whose values are not looked at. -/
protected theorem discard {k l : PUnit → ParseM β} (first : Parallel c pre mid W f g)
    (next : ∀ {W'} a, W ≤ W' → Parallel c (mid a) post W' (k ⟨⟩) (l ⟨⟩)) :
    Parallel c pre post W (discard f >>= k) (discard g >>= l) := by
  rw [Parser.discard_bind, Parser.discard_bind]
  exact first.bind fun a _ le _ => next a le

end Parallel

end TolerantParser
