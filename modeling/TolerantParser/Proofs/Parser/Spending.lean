import Mathlib
import TolerantParser.Proofs.Parser.CoreSteps
import TolerantParser.Proofs.Text.OneLine

/-!
What a parse puts in and finds wrong is charged to the tokens it goes over. Each token pays for two names and six
errors (`toll`), and a parse that has met all of its tokens has spent no more than that (`Parser.bill`), if every
production spends no more than the tokens it consumes bring in. Productions may run into debt: one that finds nothing
of its own puts a name in. Those that lead to it have then gone over a token, so what is kept account of is how much
steps spend from tokens of some sort (`Parser.Spends`). With that goes what all steps keep, also where they give up: no
token is lost, no error is forgotten, and every error is told on one line (`Parser.Onward`).
-/

namespace TolerantParser

open TokenStream (Steps bind_ok bind_eq_ok)

/-- How many names are put in and how many errors are found, less what tokens have paid for. -/
abbrev Cost := Int × Int

/-- What a token pays for when it is gone over. The end of the file never is. -/
def toll (kind : TokenKind) : Cost := if kind = .endOfFile then 0 else (2, 6)

/-- The words in front of conditions are on one line each. -/
def Worded (tokens : List Token) : Prop :=
  ∀ token ∈ tokens, token.kind = .kwIf ∨ token.kind = .kwElif → OneLine token.text.toList

/-- Names that are put in are no such words. -/
theorem Mends.worded {tokens mended : List Token} (mends : Mends tokens mended) (worded : Worded tokens) :
    Worded mended :=
  mends.forall_mem (fun kind text => kind = .kwIf ∨ kind = .kwElif → OneLine text.toList) worded (by simp)

namespace Parser

variable {α β : Type} {d : Dialect} {p q r : Parser} {moved : List Cell} {here : TokenKind → Prop}

/-! ### What all steps keep -/

/-- The names put in and the errors found, and what tokens that are yet to be met will pay for. -/
def bill (p : Parser) : Cost :=
  (Mends.puts p.stream.tokens + 2 * p.kinds.length, p.errors.toList.length + 6 * p.kinds.length)

/-- What holds of a parse between any two steps. -/
structure Steady (d : Dialect) (p : Parser) : Prop where
  dialect : p.dialect = d
  sound : p.stream.Sound
  rests : p.stream.Rests
  worded : Worded p.stream.tokens
  oneLine : ∀ error ∈ p.errors.toList, OneLine error.message.toList

/-- The parse has gone on: no token was lost and no error forgotten. -/
structure Onward (d : Dialect) (p q : Parser) : Prop where
  steady : q.Steady d
  known : ∀ cell ∈ p.stream.document, ∃ same ∈ q.stream.document, same.index = cell.index ∧ same.kind = cell.kind
  errors : p.errors.toList <+: q.errors.toList

namespace Onward

theorem refl (steady : p.Steady d) : Onward d p p :=
  ⟨steady, fun cell listed => ⟨cell, listed, rfl, rfl⟩, List.prefix_refl _⟩

theorem trans (first : Onward d p q) (second : Onward d q r) : Onward d p r where
  steady := second.steady
  known cell listed := by
    obtain ⟨same, there, index, kind⟩ := first.known cell listed
    obtain ⟨again, here, index', kind'⟩ := second.known same there
    exact ⟨again, here, index'.trans index, kind'.trans kind⟩
  errors := first.errors.trans second.errors

/-- Which nodes are under construction makes no difference. -/
theorem ofEngine (steady : p.Steady d) (engine : q.engine = p.engine) : Onward d p q := by
  obtain ⟨_, collectors, position⟩ := q
  dsimp only at engine
  subst engine
  exact ⟨⟨steady.dialect, steady.sound, steady.rests, steady.worded, steady.oneLine⟩, (refl steady).known,
    (refl steady).errors⟩

theorem calm (onward : Onward d p q) (calm : q.Calm) : p.Calm :=
  fun error member => calm error (onward.errors.subset member)

end Onward

theorem bill_ofEngine (engine : q.engine = p.engine) : q.bill = p.bill := by
  obtain ⟨_, collectors, position⟩ := q
  dsimp only at engine
  subst engine
  rfl

/-- From `p` to `q` tokens were gone over, and errors may have been found. -/
structure Went (p : Parser) (moved : List Cell) (found : List ParseError) (q : Parser) : Prop where
  steps : Steps p.stream moved q.stream
  rests : q.stream.Rests
  errors : q.errors.toList = p.errors.toList ++ found
  oneLine : ∀ error ∈ found, OneLine error.message.toList

namespace Went

variable {found : List ParseError}

/-- Nothing was gone over. -/
theorem still (steady : p.Steady d) (steps : Steps p.stream [] q.stream)
    (errors : q.errors.toList = p.errors.toList ++ found)
    (oneLine : ∀ error ∈ found, OneLine error.message.toList) : Went p [] found q where
  steps := steps
  rests := by
    rw [TokenStream.Rests, steps.current_eq]
    exact steady.rests
  errors := errors
  oneLine := oneLine

theorem onward (went : Went p moved found q) (steady : p.Steady d) : Onward d p q where
  steady :=
    { dialect := went.steps.dialect.trans steady.dialect
      sound := went.steps.sound
      rests := went.rests
      worded := by
        rw [went.steps.tokens]
        exact steady.worded
      oneLine := by
        rw [went.errors]
        exact List.forall_mem_append.2 ⟨steady.oneLine, went.oneLine⟩ }
  known cell listed := ⟨cell, went.steps.document.subset listed, rfl, rfl⟩
  errors := by
    rw [went.errors]
    exact List.prefix_append ..

/-- What the tokens gone over pay for is spent, and so is what the errors cost. -/
theorem bill (went : Went p moved found q) (count : Nat) (fewer : q.kinds.length + count ≤ p.kinds.length) :
    q.bill ≤ p.bill + (-2 * (count : Int), found.length - 6 * (count : Int)) := by
  simp only [Parser.bill, went.steps.tokens, went.errors, List.length_append, Prod.mk_add_mk, Prod.mk_le_mk]
  omega

theorem bill_le (went : Went p moved found q) : q.bill ≤ p.bill + (0, (found.length : Int)) := by
  have fewer : q.kinds.length ≤ p.kinds.length := by
    have kinds : p.kinds = _ ++ q.kinds := went.steps.kinds
    rw [kinds, List.length_append]
    exact Nat.le_add_left ..
  simpa using went.bill 0 fewer

end Went

/-! ### Spending -/

/-- Anywhere. -/
abbrev Anywhere : TokenKind → Prop := fun _ => True

/-- Taken from a token of the sort `here` the steps keep what all steps keep, and they spend no more than `cost`, if
no statement was given up. -/
structure Spends (d : Dialect) (here : TokenKind → Prop) (cost : α → Cost) (f : ParseM α) : Prop where
  onward {p : Parser} : p.Steady d → here p.cell.kind → Onward d p (after (f p))
  pays {p q : Parser} {value : α} : p.Steady d → here p.cell.kind → f p = .ok value q → q.Calm →
    q.bill ≤ p.bill + cost value

/-- The steps spend no more than so much, whatever their value. -/
abbrev Costs (d : Dialect) (here : TokenKind → Prop) (cost : Cost) (f : ParseM α) : Prop :=
  Spends d here (fun _ => cost) f

namespace Spends

variable {f : ParseM α} {k : α → ParseM β} {mid : α → Cost} {cost : β → Cost} {c : Cost}

theorem weaken {here' : TokenKind → Prop} {mid' : α → Cost} (spends : Spends d here' mid' f)
    (begins : ∀ kind, here kind → here' kind) (least : ∀ value, mid' value ≤ mid value) : Spends d here mid f where
  onward steady starts := spends.onward steady (begins _ starts)
  pays {p _ value} steady starts done calm :=
    (spends.pays steady (begins _ starts) done calm).trans (add_le_add_right (least value) p.bill)

/-- What may begin anywhere may begin there. -/
theorem there (spends : Spends d Anywhere mid f) : Spends d here mid f :=
  spends.weaken (fun _ _ => trivial) fun _ => le_refl _

/-- What spends less may spend more. -/
theorem within {c' : Cost} (costs : Costs d here c' f) (least : c' ≤ c) : Costs d here c f :=
  costs.weaken (fun _ => id) fun _ => least

/-- There is no such token. -/
theorem never (never : ∀ kind, ¬ here kind) : Spends d here mid f :=
  ⟨fun _ starts => absurd starts (never _), fun _ starts => absurd starts (never _)⟩

/-- Steps that come to the same where they are taken. -/
theorem congr {g : ParseM α} (spends : Spends d here mid g) (same : ∀ p, here p.cell.kind → f p = g p) :
    Spends d here mid f :=
  ⟨fun steady starts => same _ starts ▸ spends.onward steady starts,
    fun steady starts done => spends.pays steady starts (same _ starts ▸ done)⟩

/-- Tokens are told apart. -/
theorem apart (sort : TokenKind → Prop) (some : Spends d (fun kind => here kind ∧ sort kind) mid f)
    (others : Spends d (fun kind => here kind ∧ ¬ sort kind) mid f) : Spends d here mid f where
  onward {p} steady starts := (em (sort p.cell.kind)).elim (fun holds => some.onward steady ⟨starts, holds⟩)
    fun fails => others.onward steady ⟨starts, fails⟩
  pays {p _ _} steady starts := (em (sort p.cell.kind)).elim (fun holds => some.pays steady ⟨starts, holds⟩)
    fun fails => others.pays steady ⟨starts, fails⟩

protected theorem pure {value : α} (least : 0 ≤ mid value) : Spends d here mid (pure value) where
  onward steady _ := .refl steady
  pays _ _ done _ := by
    cases done
    exact le_add_of_nonneg_right least

theorem nothing {value : α} : Costs d here 0 (Pure.pure value) := .pure (le_refl _)

protected theorem throw (fault : Fault) : Spends d here mid (throw fault) where
  onward steady _ := .refl steady
  pays _ _ done _ := nomatch done

/-- What the first steps have spent the next ones cannot spend. `there` says where these begin. -/
theorem bindAt (first : Spends d here mid f) (there : α → TokenKind → Prop)
    (arrives : ∀ {p q value}, p.Steady d → here p.cell.kind → f p = .ok value q → there value q.cell.kind)
    (next : ∀ value, Spends d (there value) (fun last => cost last - mid value) (k value)) :
    Spends d here cost (f >>= k) where
  onward {p} steady starts := by
    have begun := first.onward steady starts
    show Onward d p (after (EStateM.bind f k p))
    unfold EStateM.bind
    cases steps : f p with
    | ok value q =>
      rw [steps] at begun
      exact begun.trans ((next value).onward begun.steady (arrives steady starts steps))
    | error fault q =>
      rw [steps] at begun
      exact begun
  pays {p r last} steady starts done calm := by
    obtain ⟨value, q, begins, goesOn⟩ := bind_eq_ok done
    have begun : Onward d p q := after_ok begins ▸ first.onward steady starts
    have arrived := arrives steady starts begins
    have later : Onward d q r := after_ok goesOn ▸ (next value).onward begun.steady arrived
    calc r.bill ≤ q.bill + (cost last - mid value) := (next value).pays begun.steady arrived goesOn calm
      _ ≤ p.bill + mid value + (cost last - mid value) :=
        add_le_add_left (first.pays steady starts begins (later.calm calm)) _
      _ = p.bill + cost last := by rw [add_assoc, add_sub_cancel]

protected theorem bind (first : Spends d here mid f)
    (next : ∀ value, Spends d Anywhere (fun last => cost last - mid value) (k value)) : Spends d here cost (f >>= k) :=
  first.bindAt (fun _ => Anywhere) (fun _ _ _ => trivial) next

/-- Steps behind others that spend nothing. -/
theorem andThen (first : Costs d here c f) (next : ∀ value, Costs d Anywhere 0 (k value)) : Costs d here c (f >>= k) :=
  first.bind fun value => (next value).within (sub_self c).ge

protected theorem ite {known : Prop} [Decidable known] {g : ParseM α} (first : known → Spends d here mid f)
    (second : ¬ known → Spends d here mid g) : Spends d here mid (if known then f else g) := by
  split
  next holds => exact first holds
  next fails => exact second fails

theorem discard (costs : Costs d here c f) : Costs d here c (discard f : ParseM PUnit) := by
  rw [discard_eq]
  exact costs.andThen fun _ => .pure (le_refl _)

/-! ### Looking -/

/-- The parse is looked at. -/
theorem seen {k : Parser → ParseM β}
    (next : ∀ p, p.Steady d → here p.cell.kind → Spends d (· = p.cell.kind) cost (k p)) :
    Spends d here cost (get >>= k) where
  onward {p} steady starts := (next p steady starts).onward steady rfl
  pays {p _ _} steady starts done calm := (next p steady starts).pays steady rfl done calm

/-- What comes of looking does not depend on it. -/
theorem look (looks : ∀ p, ∃ value, f p = .ok value p) (next : ∀ value, Spends d here cost (k value)) :
    Spends d here cost (f >>= k) where
  onward {p} steady starts := by
    obtain ⟨value, looked⟩ := looks p
    rw [bind_ok looked]
    exact (next value).onward steady starts
  pays {p _ _} steady starts done calm := by
    obtain ⟨value, looked⟩ := looks p
    rw [bind_ok looked] at done
    exact (next value).pays steady starts done calm

/-- The kind at the cursor is looked at. -/
theorem byKind {k : TokenKind → ParseM β} (next : ∀ kind, here kind → Spends d (· = kind) cost (k kind)) :
    Spends d here cost (current >>= k) :=
  seen fun p _ starts => next p.cell.kind starts

theorem bySet {accept : TokenKind → Bool} {k : Bool → ParseM β}
    (next : ∀ kind, here kind → Spends d (· = kind) cost (k (accept kind))) :
    Spends d here cost (atSet? accept >>= k) :=
  byKind (k := fun kind => k (accept kind)) next

theorem byWord {word : TokenKind} {k : Bool → ParseM β}
    (next : ∀ kind, here kind → Spends d (· = kind) cost (k (kind == word))) : Spends d here cost (at? word >>= k) :=
  byKind (k := fun kind => k (kind == word)) next

/-- A choice by the kind at the cursor. -/
theorem ifAtSet {accept : TokenKind → Bool} {g : ParseM α} (yes : Spends d (accept ·) mid f)
    (no : Spends d (fun kind => here kind ∧ accept kind = false) mid g) :
    Spends d here mid (atSet? accept >>= fun there => if there = true then f else g) :=
  bySet fun kind starts =>
    .ite (fun passed => yes.weaken (by rintro _ rfl; exact passed) fun _ => le_refl _)
      fun failed => no.weaken (by rintro _ rfl; exact ⟨starts, Bool.eq_false_iff.2 failed⟩) fun _ => le_refl _

theorem ifAt {kind : TokenKind} {g : ParseM α} (yes : here kind → Spends d (· = kind) mid f)
    (no : Spends d (fun other => here other ∧ other ≠ kind) mid g) :
    Spends d here mid (at? kind >>= fun there => if there = true then f else g) :=
  byWord fun other starts => .ite
    (fun same => by rw [eq_of_beq same] at starts ⊢; exact yes starts)
    fun different => no.weaken (by rintro _ rfl; exact ⟨starts, by simpa using different⟩) fun _ => le_refl _

/-- A token of one of two kinds is looked for. -/
theorem ifAtEither {word other : TokenKind} {g : ParseM α}
    (yes : ∀ kind, kind = word ∨ kind = other → Spends d (· = kind) mid f) (no : Spends d here mid g) :
    Spends d here mid (at? word >>= fun first => at? other >>= fun second =>
      if (first || second) = true then f else g) := by
  refine byWord fun _ starts => byWord ?_
  rintro kind rfl
  refine .ite (fun either => yes kind ?_) fun _ => no.weaken (by rintro _ rfl; exact starts) fun _ => le_refl _
  simpa using either

/-- Nothing is done if something else has said so or the token is not there. -/
theorem unlessAt {stopped : Bool} {word : TokenKind} {g : ParseM α} (yes : Spends d here mid f)
    (no : Spends d (· = word) mid g) :
    Spends d here mid (at? word >>= fun there => if (stopped || !there) = true then f else g) := by
  refine byWord fun kind starts => .ite (fun _ => ?_) fun goesOn => ?_
  · exact yes.weaken (by rintro _ rfl; exact starts) fun _ => le_refl _
  obtain rfl : kind = word := by
    simp only [Bool.or_eq_true, Bool.not_eq_true', not_or, Bool.not_eq_false] at goesOn
    exact eq_of_beq goesOn.2
  exact no

/-! ### Repeating -/

/-- The last round of a loop may spend something else than the others. -/
def rounds (last further : Cost) : ForInStep α → Cost
  | .done _ => last
  | .yield _ => further

variable {body : α → ParseM (ForInStep α)}

theorem iterate (round : ∀ value, Spends d Anywhere (rounds c 0) (body value)) (bound : Nat) (value : α) :
    Costs d Anywhere c (iterate body bound value) := by
  induction bound generalizing value with
  | zero => exact .throw _
  | succ bound ih =>
    refine (round value).bind fun outcome => ?_
    cases outcome with
    | done value => exact .pure (sub_self c).ge
    | yield value => exact (ih value).within (sub_zero c).ge

/-- A loop whose first round begins at a token of some sort. -/
theorem loopFrom (later : Cost) {init : α} (first : Spends d here (rounds c (c - later)) (body init))
    (round : ∀ value, Spends d Anywhere (rounds later 0) (body value)) : Costs d here c (loop init body) := by
  refine seen fun p _ starts => ?_
  refine Spends.bind (first.weaken (by rintro _ rfl; exact starts) fun _ => le_refl _) fun outcome => ?_
  cases outcome with
  | done value => exact .pure (sub_self c).ge
  | yield value => exact (iterate round _ value).within (sub_sub_cancel c later).ge

theorem loop {init : α} (round : ∀ value, Spends d Anywhere (rounds c 0) (body value)) :
    Costs d Anywhere c (loop init body) :=
  seen fun _ _ _ => (iterate round _ init).there

/-- What any round spends, the last one and the others spend. -/
theorem rounds_const {further : ParseM (ForInStep α)} (costs : Costs d here c further) :
    Spends d here (rounds c c) further :=
  costs.weaken (fun _ => id) fun outcome => by cases outcome <;> exact le_refl _

/-- A loop whose rounds spend nothing. -/
theorem repeated (init : α) (round : ∀ value, Costs d Anywhere 0 (body value)) :
    Costs d here 0 (Parser.loop init body) :=
  (loop fun value => (round value).rounds_const).there

/-- A loop whose rounds spend nothing but for the first one. -/
theorem loopPaid {init : α} (first : Costs d here c (body init)) (round : ∀ value, Costs d Anywhere 0 (body value)) :
    Costs d here c (Parser.loop init body) :=
  loopFrom 0 (by simpa only [sub_zero] using first.rounds_const) fun value => (round value).rounds_const

end Spends

/-! ### Steps that stay -/

/-- Steps that leave the cursor at a token of the same kind. -/
structure Stays (d : Dialect) (cost : Cost) (f : ParseM α) : Prop where
  costs : Costs d Anywhere cost f
  kind {p q : Parser} {value : α} : p.Steady d → f p = .ok value q → q.cell.kind = p.cell.kind

section

variable {f : ParseM α} {k : α → ParseM β} {cost : β → Cost} {c : Cost}

theorem Stays.bind (stays : Stays d c f) (next : ∀ value, Spends d here (fun last => cost last - c) (k value)) :
    Spends d here cost (f >>= k) :=
  stays.costs.there.bindAt (fun _ => here) (fun steady starts done => stays.kind steady done ▸ starts) next

theorem Stays.discard (stays : Stays d c f) : Stays d c (discard f : ParseM PUnit) where
  costs := stays.costs.discard
  kind {p q _} steady done := by
    rw [discard_eq] at done
    obtain ⟨value, _, begins, rest⟩ := bind_eq_ok done
    cases rest
    exact stays.kind steady begins

/-- Steps that spend nothing and stay where they are. -/
theorem Spends.stay (stays : Stays d 0 f) (next : ∀ value, Spends d here cost (k value)) :
    Spends d here cost (f >>= k) :=
  stays.bind fun value => by simpa using next value

end

end Parser

end TolerantParser
