import TolerantParser.Proofs.Parser.InStepRepair
import TolerantParser.Proofs.Stream.Recast

/-!
Parses that a later dialect repeats. Where an earlier dialect of the 2.x series finds no error, a later one does the
same, step by step, but for expressions: what it has gained may go on behind one, or stand in place of one. In either
case the cursor is on one of two words. So steps are told apart by whether they may begin at such a word, and then stay
there or find an error, and by whether they may end at one, and then promise nothing. Put together, the statements
promise everything, since no line of the earlier dialect goes on with such a word.
-/

namespace TolerantParser

/-- The words with which a later dialect goes on behind an expression or begins one, where an earlier one does not. -/
def TokenKind.isGained : TokenKind → Bool
  | .kwIf | .kwYield => true
  | _ => false

namespace Parser

open TokenStream (bind_ok bind_eq_ok)

variable {α β : Type} {later : Dialect} {before between : Bool} {p q : Parser}

/-- The parse, as it is in another dialect. -/
def recast (p : Parser) (d : Dialect) : Parser := { p with engine := { p.engine with stream := p.stream.recast d } }

def AtGained (p : Parser) : Prop := p.cell.kind.isGained

/-- How steps are taken in a later dialect. From a gained word they come only to one, and if they come to none they are
the same. -/
structure Replayed (later : Dialect) (before behind : Bool) (f : ParseM α) (p : Parser) (value : α) (q : Parser) :
    Prop where
  fits : q.stream.Fits later
  same : (behind = true → ¬ q.AtGained) → f (p.recast later) = .ok value (q.recast later)
  stays : before = true → p.AtGained → behind = true ∧ q.AtGained

/-- The later dialect repeats the steps if they find no error. `before` tells whether they may begin at a gained word
and `behind` with which values they may end at one. -/
structure ReplaysTo (later : Dialect) (before : Bool) (behind : α → Bool) (f : ParseM α) : Prop where
  retains : Retains f
  runs {p q : Parser} {value : α} : p.stream.Fits later → f p = .ok value q → q.Clean →
    Replayed later before (behind value) f p value q

/-- The later dialect repeats the steps, whatever their value. -/
abbrev Replays (later : Dialect) (before behind : Bool) (f : ParseM α) : Prop :=
    ReplaysTo later before (fun _ => behind) f

theorem Retains.clean {f : ParseM α} (retains : Retains f) {value : α} (done : f p = .ok value q) (clean : q.Clean) :
    p.Clean := by
  have kept := retains p
  rw [done] at kept
  exact clean_of_retained kept clean

/-! ### Putting steps together -/

namespace ReplaysTo

variable {f : ParseM α} {k : α → ParseM β} {mid : α → Bool} {behind : β → Bool}

theorem weaken {before' : Bool} {mid' : α → Bool} (replays : ReplaysTo later before' mid' f)
    (begins : before = true → before' = true) (ends : ∀ value, mid' value = true → mid value = true) :
    ReplaysTo later before mid f where
  retains := replays.retains
  runs fits done clean := by
    obtain ⟨after, same, stays⟩ := replays.runs fits done clean
    refine ⟨after, fun settled => same fun loose => settled (ends _ loose), fun begun gained => ?_⟩
    exact (stays (begins begun) gained).imp_left (ends _)

/-- What may begin at any word may begin where it does. -/
theorem anywhere (replays : ReplaysTo later true mid f) : ReplaysTo later before mid f :=
  replays.weaken (fun _ => rfl) fun _ => id

/-- Away from a gained word steps may begin in any case. -/
theorem settled (replays : ReplaysTo later before mid f) : ReplaysTo later false mid f :=
  replays.weaken nofun fun _ => id

/-- What never stops at a gained word promises more than what may. -/
theorem loosen (replays : Replays later before false f) : ReplaysTo later before mid f := replays.weaken id nofun

protected theorem pure {value : α} (ends : before = true → mid value = true) :
    ReplaysTo later before mid (pure value) where
  retains := retains_pure value
  runs fits done clean := by
    cases done
    exact ⟨fits, fun _ => rfl, fun begun gained => ⟨ends begun, gained⟩⟩

protected theorem throw (fault : Fault) : ReplaysTo later before mid (throw fault) where
  retains := retains_throw fault
  runs _ done _ := nomatch done

protected theorem bind (first : ReplaysTo later before mid f)
    (next : ∀ value, ReplaysTo later (mid value) behind (k value)) : ReplaysTo later before behind (f >>= k) where
  retains := first.retains.bind fun value => (next value).retains
  runs fits done clean := by
    obtain ⟨value, q, begins, goesOn⟩ := bind_eq_ok done
    obtain ⟨fits, same, stays⟩ := first.runs fits begins ((next value).retains.clean goesOn clean)
    obtain ⟨fits, same', stays'⟩ := (next value).runs fits goesOn clean
    refine ⟨fits, fun settled => ?_, fun begun gained => ?_⟩
    · rw [bind_ok (same fun loose gained => settled (stays' loose gained).1 (stays' loose gained).2)]
      exact same' settled
    · obtain ⟨loose, there⟩ := stays begun gained
      exact stays' loose there

protected theorem ite {c : Prop} [Decidable c] {g : ParseM α} (first : ReplaysTo later before mid f)
    (second : ReplaysTo later before mid g) : ReplaysTo later before mid (if c then f else g) := by
  split
  · exact first
  · exact second

/-- Steps that always find an error have nothing to repeat. -/
theorem ofBlaming (blaming : Blaming f) (retains : Retains f) : ReplaysTo later before mid f where
  retains := retains
  runs {p q value} _ done clean := by
    have found := blaming p
    rw [done] at found
    exact absurd clean found

theorem discard (replays : Replays later before between f) :
    Replays later before between (discard f : ParseM PUnit) := by
  rw [discard_eq]
  exact replays.bind fun _ => .pure id

/-! ### Repeating -/

/-- Where a loop stops it is at what it was to stop at. -/
def rounds (before : Bool) (behind : α → Bool) : ForInStep α → Bool
  | .done value => behind value
  | .yield _ => before

theorem iterate {body : α → ParseM (ForInStep α)}
    (round : ∀ value, ReplaysTo later before (rounds before mid) (body value)) (bound : Nat) (value : α) :
    ReplaysTo later before mid (iterate body bound value) := by
  induction bound generalizing value with
  | zero => exact .throw _
  | succ bound ih =>
    refine (round value).bind fun outcome => ?_
    cases outcome with
    | done value => exact .pure id
    | yield value => exact ih value

/-- What goes on alike after a look at a parse of another dialect. -/
theorem seen {k : Parser → ParseM β} (blind : ∀ p : Parser, p.stream.Fits later → k (p.recast later) = k p)
    (next : ∀ p, ReplaysTo later before behind (k p)) : ReplaysTo later before behind (get >>= k) where
  retains := retains_get_bind fun p => (next p).retains
  runs {p q value} fits done clean := by
    obtain ⟨after, same, stays⟩ := (next p).runs fits done clean
    refine ⟨after, fun settled => ?_, stays⟩
    show k (p.recast later) (p.recast later) = _
    rw [blind p fits]
    exact same settled

theorem loop {body : α → ParseM (ForInStep α)} (init : α)
    (round : ∀ value, ReplaysTo later before (rounds before mid) (body value)) :
    ReplaysTo later before mid (loop init body) :=
  seen (fun _ _ => rfl) fun _ => iterate round _ _

/-- A loop whose rounds all end as they may begin. -/
theorem repeated {body : α → ParseM (ForInStep α)} (init : α)
    (round : ∀ value, Replays later before before (body value)) :
    Replays later before before (Parser.loop init body) :=
  loop init fun value => (round value).weaken id fun outcome => by cases outcome <;> exact id

end ReplaysTo

/-! ### Looking -/

section

variable {f g : ParseM α} {k : α → ParseM β} {behind : α → Bool}

/-- Steps that only look at what is the same in every dialect. -/
theorem replays_look (see : Parser → α) (looks : ∀ p, f p = .ok (see p) p) (blind : ∀ p, see (p.recast later) = see p) :
    Replays later before before f where
  retains := retains_of_eq fun p => by rw [looks]; rfl
  runs {p q value} fits done clean := by
    rw [looks] at done
    cases done
    exact ⟨fits, fun _ => by rw [looks, blind], fun begun gained => ⟨begun, gained⟩⟩

theorem replays_atSet (accept : TokenKind → Bool) : Replays later before before (atSet? accept) :=
  replays_look (fun p => accept p.cell.kind) (fun _ => rfl) fun _ => rfl

theorem replays_at (kind : TokenKind) : Replays later before before (at? kind) := replays_atSet (· == kind)

theorem replays_current : Replays later before before current :=
  replays_look (fun p => p.cell.kind) (fun _ => rfl) fun _ => rfl

theorem replays_hasProgressed (last : Option Nat) : Replays later before before (hasProgressed last) :=
  replays_look (fun p => last.all (· < p.position)) (fun _ => rfl) fun _ => rfl

/-- What comes after a look at the token at the cursor, which is a gained word only where steps may begin at one. -/
theorem replays_byKind {k : TokenKind → ParseM α}
    (gained : ∀ kind, kind.isGained → ReplaysTo later before behind (k kind))
    (others : ∀ kind, ReplaysTo later false behind (k kind)) : ReplaysTo later before behind (current >>= k) where
  retains := Retains.bind (retains_of_eq fun _ => rfl) fun kind => (others kind).retains
  runs {p q value} fits done clean := by
    obtain ⟨after, same, -⟩ := (others p.cell.kind).runs fits done clean
    exact ⟨after, same, fun begun here => ((gained _ here).runs fits done clean).stays begun here⟩

/-- A choice by the token at the cursor. The first way is not taken from a gained word. -/
theorem replays_ifAtSet {accept : TokenKind → Bool} (others : accept .kwIf = false ∧ accept .kwYield = false)
    (yes : ReplaysTo later false behind f) (no : ReplaysTo later before behind g) :
    ReplaysTo later before behind (atSet? accept >>= fun there => if there = true then f else g) := by
  refine replays_byKind (k := fun kind => if accept kind = true then f else g) (fun kind here => ?_)
    fun kind => .ite yes no.settled
  have passed : accept kind = false := by
    revert here
    cases kind <;> simp [TokenKind.isGained, others]
  rw [if_neg (by simp [passed])]
  exact no

theorem replays_ifAt {kind : TokenKind} (other : kind.isGained = false) (yes : ReplaysTo later false behind f)
    (no : ReplaysTo later before behind g) :
    ReplaysTo later before behind (at? kind >>= fun there => if there = true then f else g) := by
  have others : (TokenKind.kwIf == kind) = false ∧ (TokenKind.kwYield == kind) = false := by
    cases kind <;> first | exact ⟨rfl, rfl⟩ | cases other
  show ReplaysTo later before behind (atSet? (· == kind) >>= _)
  exact replays_ifAtSet others yes no

end

/-! ### Errors -/

section

theorem replays_recover (kind : ErrorKind) (message : Option String) (closers : List TokenKind) :
    Replays later before between (recover kind message closers) :=
  .ofBlaming (blaming_recover _ _ _) (retains_recover _ _ _)

theorem replays_complain (kind : ErrorKind) (message : String) : Replays later before between (complain kind message) :=
  .ofBlaming (blaming_complain _ _) (retains_complain _ _)

theorem replays_takeMissingName (message : Option String) : Replays later before between (takeMissingName message) := by
  refine .ofBlaming ((blaming_recover _ _ _).bind fun outcome => ?_) (retains_takeMissingName message)
  split
  · exact (retains_collect _).bind fun _ => retains_pure _
  · exact retains_throw _

end

/-! ### What a later dialect has gained -/

/-- What the first steps do without an error the second do too, where the first do not stop at a gained word. -/
def Widens (behind : α → Bool) (f g : ParseM α) : Prop :=
  ∀ p q value, f p = .ok value q → q.Clean → (behind value = true → ¬ q.AtGained) → g p = .ok value q

section

variable {f g : ParseM α} {k l : α → ParseM β} {behind : α → Bool} {last : β → Bool}

theorem widens_refl (f : ParseM α) : Widens behind f f := fun _ _ _ done _ _ => done

theorem Widens.bind (next : ∀ value, Widens last (k value) (l value)) : Widens last (f >>= k) (f >>= l) := by
  intro p q value done clean settled
  obtain ⟨first, r, begins, goesOn⟩ := bind_eq_ok done
  rw [bind_ok begins]
  exact next first r q value goesOn clean settled

theorem widens_ofBlaming (blaming : Blaming f) : Widens behind f g := fun p q value done clean _ => by
  have found := blaming p
  rw [done] at found
  exact absurd clean found

theorem replays_features {k : Features → ParseM α} (each : ∀ f, ReplaysTo later before behind (k f))
    (widens : ∀ f g : Features, f.Gains g → Widens behind (k f) (k g)) :
    ReplaysTo later before behind (features >>= k) where
  retains := Retains.bind (retains_of_eq fun _ => rfl) fun f => (each f).retains
  runs {p q value} fits done clean := by
    obtain ⟨after, same, stays⟩ := (each p.dialect.features).runs fits done clean
    refine ⟨after, fun settled => ?_, stays⟩
    exact widens _ _ fits.newer.gains _ _ _ (same settled) clean settled

/-- Where steps depend on no more than what all dialects of the series share. -/
theorem replays_shared {k : Features → ParseM α} (each : ∀ f, ReplaysTo later before behind (k f))
    (shared : ∀ f g : Features, f.Gains g → k g = k f) : ReplaysTo later before behind (features >>= k) :=
  replays_features each fun f g gains => shared f g gains ▸ widens_refl _

/-- A complaint that the first steps make wherever the second ones do. -/
theorem widens_complaint {c c' : Prop} [Decidable c] [Decidable c'] {kind : ErrorKind} {message : String}
    {k : PUnit → ParseM α} (retains : Retains (k ⟨⟩)) (gains : c' → c) :
    Widens behind (if c then complain kind message >>= k else k ⟨⟩)
      (if c' then complain kind message >>= k else k ⟨⟩) := by
  split
  · exact widens_ofBlaming ((blaming_complain _ _).bind fun _ => retains)
  next without =>
    rw [if_neg fun c' => without (gains c')]
    exact widens_refl _

/-- A complaint that is made where something is missing. -/
theorem widens_complaintUnless {c c' : Prop} [Decidable c] [Decidable c'] {kind : ErrorKind} {message : String}
    {k : PUnit → ParseM α} (retains : Retains (k ⟨⟩)) (gains : c → c') :
    Widens behind (if c then k ⟨⟩ else complain kind message >>= k)
      (if c' then k ⟨⟩ else complain kind message >>= k) := by
  rw [← ite_not, ← ite_not (p := c')]
  exact widens_complaint retains fun without had => without (gains had)

/-- A complaint that later dialects may spare. -/
theorem replays_complaint {c : Features → Prop} [∀ f, Decidable (c f)] {kind : ErrorKind} {message : String}
    {k : PUnit → ParseM α} (next : ReplaysTo later false behind (k ⟨⟩))
    (gains : ∀ f g : Features, f.Gains g → c g → c f) :
    ReplaysTo later false behind (features >>= fun f => if c f then complain kind message >>= k else k ⟨⟩) :=
  replays_features (fun _ => .ite ((replays_complain _ _).bind fun _ => next) next) fun f g gained =>
    widens_complaint next.retains (gains f g gained)

theorem replays_complaintUnless {c : Features → Prop} [∀ f, Decidable (c f)] {kind : ErrorKind} {message : String}
    {k : PUnit → ParseM α} (next : ReplaysTo later false behind (k ⟨⟩))
    (gains : ∀ f g : Features, f.Gains g → c f → c g) :
    ReplaysTo later false behind (features >>= fun f => if c f then k ⟨⟩ else complain kind message >>= k) :=
  replays_features (fun _ => .ite next ((replays_complain _ _).bind fun _ => next)) fun f g gained =>
    widens_complaintUnless next.retains (gains f g gained)

end

/-! ### Going over tokens -/

section

variable {f g : ParseM α} {behind : α → Bool} {kind : TokenKind}

theorem replays_onStream {steps : StreamM α} (replays : TokenStream.Replays later steps) :
    Replays later false false (onStream steps) where
  retains := retains_onStream steps
  runs {p q value} fits done clean := by
    cases moves : steps p.engine.stream with
    | error fault stream =>
      simp only [onStream, onEngine, Engine.onStream, moves] at done
      cases done
    | ok value stream =>
      rw [onStream_ok moves] at done
      cases done
      obtain ⟨again, after⟩ := replays.runs fits moves
      exact ⟨after, fun _ => onStream_ok again, fun between => by cases between⟩

/-- Steps on what has been collected. -/
def Local (f : ParseM α) : Prop :=
  ∀ p q value, f p = .ok value q → q.engine = p.engine ∧ ∀ d, f (p.recast d) = .ok value (q.recast d)

theorem Local.replays (steps : Local f) (retains : Retains f) : Replays later before before f where
  retains := retains
  runs {p q value} fits done clean := by
    obtain ⟨engine, again⟩ := steps p q value done
    have stream : q.stream = p.stream := congrArg Engine.stream engine
    have cell : q.cell = p.cell := congrArg TokenStream.current stream
    exact ⟨stream ▸ fits, fun _ => again later, fun begun gained => ⟨begun, by rwa [AtGained, cell]⟩⟩

theorem replays_collect (cells : List Cell) : Replays later before before (collect cells) := by
  refine Local.replays (fun p q value done => ?_) (retains_collect cells)
  rw [collect_eq] at done
  cases done
  exact ⟨rfl, fun d => collect_eq cells _⟩

theorem replays_modify {change : Parser → Parser} (engine : ∀ p, (change p).engine = p.engine)
    (blind : ∀ p d, change (p.recast d) = (change p).recast d) :
    Replays later before before (modify change : ParseM PUnit) := by
  refine Local.replays (fun p q value done => ?_) (retains_modify engine)
  cases done
  refine ⟨engine p, fun d => ?_⟩
  show EStateM.Result.ok _ (change (p.recast d)) = _
  rw [blind]

theorem replays_bump : Replays later false false bump := by
  refine .seen (fun _ _ => rfl) fun p => .ite (.pure id) ?_
  refine (replays_onStream TokenStream.replays_advance).discard.bind fun _ => (replays_collect _).bind fun _ => ?_
  exact ReplaysTo.bind (replays_modify (fun _ => rfl) fun _ _ => rfl) fun _ => .pure id

theorem replays_nth (count : Nat) : Replays later false false (nth count) :=
  (replays_onStream (TokenStream.replays_peek count)).bind fun _ => .pure id

/-- A token that is gone over if it is there; there it is no gained word. -/
theorem replays_ifEat (other : kind.isGained = false) (yes : ReplaysTo later false behind f)
    (no : ReplaysTo later before behind g) :
    ReplaysTo later before behind (eat kind >>= fun eaten => if eaten = true then f else g) := by
  have whole : (eat kind >>= fun eaten => if eaten = true then f else g) =
      at? kind >>= fun there => if there = true then bump >>= fun _ => f else g := by
    rw [eat_eq, bind_assoc]
    congr 1
    funext there
    cases there <;> simp
  rw [whole]
  exact replays_ifAt other (replays_bump.bind fun _ => yes) no

theorem replays_eat (kind : TokenKind) : Replays later false false (eat kind) := by
  rw [eat_eq]
  exact (replays_at kind).bind fun _ => .ite (replays_bump.bind fun _ => .pure id) (.pure id)

/-- No gained word closes a bracket. -/
theorem replays_expectCloser (other : kind.isGained = false) (message : Option String) :
    Replays later before false (expectCloser kind message) := by
  refine replays_ifAt other (replays_bump.bind fun _ => .pure id) ?_
  exact (replays_recover _ _ _).bind fun outcome => .ite (replays_bump.bind fun _ => .pure nofun) (.pure nofun)

end

/-! ### Nodes -/

section

variable {kind : NodeKind} {node : Node} {marker : Marker}

theorem replays_start : Replays later before before start :=
  Local.replays (fun p q value done => by cases done; exact ⟨rfl, fun _ => rfl⟩) retains_start

theorem replays_close (marker : Marker) : Replays later before before (close marker) := by
  refine Local.replays (fun p q value done => ?_) (retains_close marker)
  have start : ∀ p, (get : ParseM Parser) p = .ok p p := fun _ => rfl
  have held : ∀ d, (p.recast d).collectors = p.collectors := fun _ => rfl
  simp only [close, bind_ok (start _), held] at done ⊢
  cases collectors : p.collectors with
  | nil =>
    rw [collectors] at done
    cases done
  | cons innermost outer =>
    rw [collectors] at done
    by_cases wrong : (marker.depth != outer.length) = true
    · simp only [wrong] at done
      cases done
    · simp only [wrong] at done ⊢
      cases done
      exact ⟨rfl, fun _ => rfl⟩

theorem replays_complete (marker : Marker) (kind : NodeKind) (detail : Detail) (children : List (Label × Option Node)) :
    Replays later before before (complete marker kind detail children) :=
  (replays_close marker).bind fun _ => .pure id

theorem replays_mergeInto (marker : Marker) (node : Node) : Replays later before before (mergeInto marker node) :=
  (replays_close marker).bind fun _ => .pure id

theorem replays_abandon (marker : Marker) : Replays later before before (abandon marker) :=
  (replays_close marker).bind fun _ => replays_collect _

theorem replays_take (cell : Cell) : Replays later before before (take cell) :=
  (replays_collect _).bind fun _ => .pure id

theorem replays_attach (node : Node) (cell : Cell) : Replays later before before (attach node cell) := by
  refine Local.replays (fun p q value done => ?_) (retains_attach node cell)
  have start : ∀ p, (get : ParseM Parser) p = .ok p p := fun _ => rfl
  obtain ⟨_, r, releases, rfl, rfl⟩ : ∃ u r, release cell p = .ok u r ∧ value = node.addTokens [cell] ∧ q = r := by
    obtain ⟨u, r, releases, gives⟩ := bind_eq_ok done
    cases gives
    exact ⟨u, _, releases, rfl, rfl⟩
  have again : q.engine = p.engine ∧ ∀ d, release cell (p.recast d) = .ok ⟨⟩ (q.recast d) := by
    have held : ∀ d, (p.recast d).collectors = p.collectors := fun _ => rfl
    simp only [release, bind_ok (start _), held] at releases ⊢
    cases collectors : p.collectors with
    | nil =>
      rw [collectors] at releases
      cases releases
    | cons innermost outer =>
      rw [collectors] at releases
      cases uncollected : uncollect cell innermost with
      | none =>
        simp only [uncollected] at releases
        cases releases
      | some rest =>
        simp only [uncollected] at releases ⊢
        cases releases
        exact ⟨rfl, fun _ => rfl⟩
  exact ⟨again.1, fun d => by rw [attach, bind_ok (again.2 d)]; rfl⟩

theorem replays_build {body : ParseM (Detail × List (Label × Option Node))}
    (replays : Replays later before between body) :
    Replays later before between (build kind body) :=
  replays_start.bind fun _ => replays.bind fun _ => replays_complete ..

/-- Behind a token that was handed to the node the cursor is no longer where it was. -/
theorem replays_eatInto {kind : TokenKind} (other : kind.isGained = false) (node : Node) :
    ReplaysTo later before (fun made => made.2.isNone && before) (eatInto node kind) := by
  refine replays_ifAt other (replays_bump.bind fun cell => (replays_attach node cell).bind fun made => ?_) ?_
  · exact .pure nofun
  · exact .pure fun begun => by simpa using begun

end

end Parser

end TolerantParser
