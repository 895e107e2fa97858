import TolerantParser.Proofs.Parser.Moves

/-!
What a production does, as a statement to be proved by going through it step by step. `Completes p f q
post`: a parse that began at `p` and has come to `q` can take the steps `f`, and then a run from `p` is
complete of which `post` holds; or it is left off because something nests too deeply. No other fault
occurs. `Parses f p post` is the same for steps taken from the beginning.
-/

namespace TolerantParser.Parser

/-- Steps succeed in one way or are given up, as too deep, in another. -/
def Ends {α : Type} (f : ParseM α) (p : Parser) (succeeds : α → Parser → Prop)
    (breaks : Parser → Prop) : Prop :=
  match f p with
  | .ok value q => succeeds value q
  | .error fault q => fault = .tooDeep ∧ breaks q

theorem Ends.bind {α β : Type} {f : ParseM α} {g : α → ParseM β} {p : Parser}
    {between : α → Parser → Prop} {succeeds : β → Parser → Prop} {breaks : Parser → Prop}
    (first : Ends f p between breaks) (next : ∀ value q, between value q → Ends (g value) q succeeds breaks) :
    Ends (f >>= g) p succeeds breaks := by
  unfold Ends at first ⊢
  simp only [Bind.bind, EStateM.bind]
  cases steps : f p with
  | ok value q =>
    rw [steps] at first
    exact next value q first
  | error fault q =>
    rw [steps] at first
    exact first

theorem Ends.imp {α : Type} {f : ParseM α} {p : Parser} {succeeds succeeds' : α → Parser → Prop}
    {breaks breaks' : Parser → Prop} (ends : Ends f p succeeds breaks)
    (weaker : ∀ value q, succeeds value q → succeeds' value q)
    (broken : ∀ q, breaks q → breaks' q) : Ends f p succeeds' breaks' := by
  unfold Ends at ends ⊢
  cases steps : f p with
  | ok value q =>
    rw [steps] at ends
    exact weaker value q ends
  | error fault q =>
    rw [steps] at ends
    exact ⟨ends.1, broken q ends.2⟩

/-- How steps end depends only on what they come to. -/
theorem ends_congr {α : Type} {f g : ParseM α} {p : Parser} (same : f p = g p) {succeeds : α → Parser → Prop}
    {breaks : Parser → Prop} : Ends f p succeeds breaks ↔ Ends g p succeeds breaks := by
  simp only [Ends, same]

theorem ends_ok {α : Type} {f : ParseM α} {p q : Parser} {value : α} (steps : f p = .ok value q)
    {succeeds : α → Parser → Prop} {breaks : Parser → Prop} :
    Ends f p succeeds breaks ↔ succeeds value q := by
  simp [Ends, steps]

/-- Steps that cannot break succeed. -/
theorem Ends.runs {α : Type} {f : ParseM α} {p : Parser} {succeeds : α → Parser → Prop} {breaks : Parser → Prop}
    (ends : Ends f p succeeds breaks) (holds : ∀ q, ¬ breaks q) : ∃ value q, f p = .ok value q ∧ succeeds value q := by
  unfold Ends at ends
  cases steps : f p with
  | ok value q =>
    rw [steps] at ends
    exact ⟨value, q, rfl, ends⟩
  | error fault q =>
    rw [steps] at ends
    exact absurd ends.2 (holds q)

/-- Steps that succeed need not be looked at again. -/
theorem ends_bind_ok {α β : Type} {f : ParseM α} {g : α → ParseM β} {p q : Parser} {value : α}
    (steps : f p = .ok value q) {succeeds : β → Parser → Prop} {breaks : Parser → Prop} :
    Ends (f >>= g) p succeeds breaks ↔ Ends (g value) q succeeds breaks := by
  simp only [Ends, TokenStream.bind_ok steps]

theorem discard_eq {α : Type} (f : ParseM α) : discard f = f >>= fun _ => pure ⟨⟩ := by
  funext p
  simp only [discard, Functor.discard, Functor.mapConst, EStateM.map, Bind.bind, EStateM.bind,
    Function.comp]
  cases f p <;> rfl

theorem discard_bind {α β : Type} (f : ParseM α) (g : PUnit → ParseM β) :
    discard f >>= g = f >>= fun _ => g ⟨⟩ := by
  funext p
  simp only [discard, Functor.discard, Functor.mapConst, EStateM.map, Bind.bind, EStateM.bind,
    Function.comp]
  cases f p <;> rfl

/-- What follows either of two branches follows both. -/
theorem ite_bind {α β : Type} {c : Prop} [Decidable c] (f f' : ParseM α) (g : α → ParseM β) :
    (if c then f >>= g else f' >>= g) = (if c then f else f') >>= g := by
  split <;> rfl

/-- What holds of the value of a production, the pieces it went over and the state after it. -/
abbrev Post (α : Type) := α → List Piece → Parser → Prop

section

variable {α β : Type} (laid : Prop) (mode : Mode) (lead : Prop) (level : Depth)

def Completes (p : Parser) (f : ParseM α) (q : Parser) (post : Post α) : Prop :=
  Ends f q
    (fun value r => ∃ ps, Moves laid mode lead ps p r ∧ Ready laid mode level r ∧ post value ps r)
    (Broken lead p)

abbrev Parses (f : ParseM α) (p : Parser) (post : Post α) : Prop :=
  Completes laid mode lead level p f p post

/-- The same for steps that are never left off. -/
def Takes (f : ParseM α) (p : Parser) (post : Post α) : Prop :=
  ∃ value q ps, f p = .ok value q ∧ Moves laid mode lead ps p q ∧ Ready laid mode level q ∧ post value ps q

end

section

variable {α β : Type} {laid lead lead' : Prop} {mode mode' : Mode} {level level' : Depth}
  {p q r : Parser} {ps qs : List Piece} {f : ParseM α} {g : α → ParseM β}

/-- A production begins where the parse stands. -/
theorem parses_iff {post : Post α} : Parses laid mode lead level f p post ↔ Completes laid mode lead level p f p post :=
  .rfl

theorem completes_iff {post : Post α} :
    Completes laid mode lead level p f q post ↔
      Ends f q (fun value r => ∃ ps, Moves laid mode lead ps p r ∧ Ready laid mode level r ∧ post value ps r)
        (Broken lead p) := .rfl

/-- The steps may be inside a node that is begun where the run begins. -/
class inductive Inside (p : Parser) : Parser → Prop
  | same : Inside p p
  | opened : Inside p p.opened

attribute [instance] Inside.same Inside.opened

theorem Broken.inside {o : Parser} (broken : Broken lead o q) (inside : Inside p o) : Broken lead p q := by
  cases inside with
  | same => exact broken
  | opened => exact broken.closed

theorem Takes.ends {post : Post α} {breaks : Parser → Prop} (takes : Takes laid mode lead level f p post) :
    Ends f p (fun value q => ∃ ps, Moves laid mode lead ps p q ∧ Ready laid mode level q ∧ post value ps q) breaks := by
  obtain ⟨value, q, ps, steps, moves, ready, holds⟩ := takes
  exact (ends_ok steps).2 ⟨ps, moves, ready, holds⟩

theorem Takes.parses {post : Post α} (takes : Takes laid mode lead level f p post) :
    Parses laid mode lead level f p post :=
  takes.ends

theorem takes_of_ends {post : Post α} (ends : Ends f p (fun value q => ∃ ps,
    Moves laid mode lead ps p q ∧ Ready laid mode level q ∧ post value ps q) fun _ => False) :
    Takes laid mode lead level f p post := by
  obtain ⟨value, q, steps, ps, moves, ready, holds⟩ := ends.runs fun _ => id
  exact ⟨value, q, ps, steps, moves, ready, holds⟩

/-- The run is complete. -/
theorem Moves.done {post : Post α} (moves : Moves laid mode lead ps p q) (ready : Ready laid mode level q)
    {value : α} (holds : post value ps q) : Completes laid mode lead level p (pure value) q post :=
  ⟨ps, moves, ready, holds⟩

theorem Completes.imp {post post' : Post α} (completes : Completes laid mode lead level p f q post)
    (weaker : ∀ value ps r, Moves laid mode lead ps p r → post value ps r → post' value ps r) :
    Completes laid mode lead level p f q post' :=
  Ends.imp completes
    (fun value r ⟨ps, moves, ready, holds⟩ => ⟨ps, moves, ready, weaker value ps r moves holds⟩)
    fun _ broken => broken

theorem Completes.weaken {post : Post α} (completes : Completes laid mode lead level p f q post)
    (weaker : lead' → lead) : Completes laid mode lead' level p f q post :=
  Ends.imp completes
    (fun _ _ ⟨ps, moves, ready, holds⟩ => ⟨ps, moves.weaken weaker, ready, holds⟩)
    fun _ broken => broken.weaken weaker

/-- That the run begins with a token need not be known. -/
theorem Completes.forget {post : Post α} (completes : Completes laid mode True level p f q post) :
    Completes laid mode lead level p f q post :=
  completes.weaken fun _ => trivial

/-- A production that begins with a token other than a name leaves less to meet. -/
theorem Completes.lighter {post : Post α} (parses : Parses laid mode True level f p post)
    (rests : p.stream.Rests) (other : p.cell.kind ≠ .name) :
    Parses laid mode True level f p fun value ps q => post value ps q ∧ q.weight < p.weight :=
  parses.imp fun _ _ _ moves holds => ⟨holds, moves.weight_lt trivial rests other⟩

/-- A production that begins with a token gets on. -/
theorem Completes.led {post : Post α} (parses : Parses laid mode lead level f p post) (leads : lead) :
    Parses laid mode True level f p fun value ps q => post value ps q ∧ p.position < q.position :=
  (parses.weaken fun _ => leads).imp fun _ _ _ moves holds => ⟨holds, (moves.leads trivial).2⟩

/-- A production changes what any steps do and no more. -/
theorem Completes.grown {post : Post α} (parses : Parses laid mode lead level f p post) :
    Parses laid mode lead level f p fun value ps q => post value ps q ∧ Grows p q :=
  parses.imp fun _ _ _ moves holds => ⟨holds, moves.toGrows⟩

/-- First some steps from the beginning of the run, then others. -/
theorem Completes.bind {o : Parser} {mid : Post α} {post : Post β}
    (first : Completes laid mode' lead level' o f q mid)
    (next : ∀ value ps r, Moves laid mode' lead ps o r → Ready laid mode' level' r →
      mid value ps r → Completes laid mode lead level p (g value) r post)
    [inside : Inside p o] :
    Completes laid mode lead level p (f >>= g) q post :=
  Ends.bind (Ends.imp first (fun _ _ holds => holds) fun _ broken => broken.inside inside)
    fun value r ⟨ps, moves, ready, holds⟩ => next value ps r moves ready holds

/-- First a production on the way, then other steps. -/
theorem Moves.bind {o : Parser} {wider : Mode} {mid : Post α} {post : Post β}
    (moves : Moves laid wider lead ps o q) (first : Parses laid mode' lead' level' f q mid)
    (next : ∀ value qs r, Moves laid wider lead (ps ++ qs) o r → Ready laid mode' level' r →
      mid value qs r → Completes laid mode lead level p (g value) r post)
    [within : mode'.Within wider]
    [inside : Inside p o] :
    Completes laid mode lead level p (f >>= g) q post := by
  refine Ends.bind (Ends.imp first (fun _ _ holds => holds) fun _ broken =>
    (broken.after moves).inside inside) ?_
  rintro value r ⟨qs, more, ready, holds⟩
  exact next value qs r (moves.trans (more.within within)) ready holds

/-- A production on the way that completes the run. -/
theorem Moves.last {mid post : Post α} (moves : Moves laid mode lead ps p q)
    (first : Parses laid mode' lead' level f q mid)
    (holds : ∀ value qs r, Moves laid mode lead (ps ++ qs) p r → mid value qs r →
      post value (ps ++ qs) r)
    [within : mode'.Within mode] :
    Completes laid mode lead level p f q post :=
  Ends.imp first
    (fun value r ⟨qs, more, ready, made⟩ =>
      ⟨ps ++ qs, moves.trans (more.within within), ready.within within,
        holds value qs r (moves.trans (more.within within)) made⟩)
    fun _ broken => broken.after moves

/-- What was done before has only looked around. -/
theorem Moves.parses {post : Post α} (moves : Moves laid mode lead [] p q)
    (parses : Parses laid mode False level f q post) : Completes laid mode lead level p f q post :=
  moves.last parses fun _ _ _ _ holds => holds

/-! ### Looking at the state -/

@[simp] theorem completes_at {kind : TokenKind} {g : Bool → ParseM β} {post : Post β} :
    Completes laid mode lead level p (at? kind >>= g) q post ↔
      Completes laid mode lead level p (g (q.cell.kind == kind)) q post := Iff.rfl

@[simp] theorem completes_atSet {accept : TokenKind → Bool} {g : Bool → ParseM β} {post : Post β} :
    Completes laid mode lead level p (atSet? accept >>= g) q post ↔
      Completes laid mode lead level p (g (accept q.cell.kind)) q post := Iff.rfl

@[simp] theorem completes_current {g : TokenKind → ParseM β} {post : Post β} :
    Completes laid mode lead level p (current >>= g) q post ↔
      Completes laid mode lead level p (g q.cell.kind) q post := Iff.rfl

@[simp] theorem completes_features {g : Features → ParseM β} {post : Post β} :
    Completes laid mode lead level p (features >>= g) q post ↔
      Completes laid mode lead level p (g q.dialect.features) q post := Iff.rfl

@[simp] theorem completes_get {g : Parser → ParseM β} {post : Post β} :
    Completes laid mode lead level p (get >>= g) q post ↔
      Completes laid mode lead level p (g q) q post := Iff.rfl

@[simp] theorem completes_pure {value : α} {post : Post β} :
    Completes laid mode lead level p (pure value >>= g) q post ↔
      Completes laid mode lead level p (g value) q post := Iff.rfl

/-! ### Repeating -/

theorem Ends.iterate {body : α → ParseM (ForInStep α)} {succeeds : α → Parser → Prop}
    {breaks : Parser → Prop} (measure : α → Parser → Nat) (inv : α → Parser → Prop)
    (step : ∀ value q, inv value q → Ends (body value) q
      (fun outcome r => match outcome with
        | .done value => succeeds value r
        | .yield next => inv next r ∧ measure next r < measure value q) breaks)
    (bound : Nat) (value : α) (q : Parser) (start : inv value q) (room : measure value q < bound) :
    Ends (iterate body bound value) q succeeds breaks := by
  induction bound generalizing value q with
  | zero => omega
  | succ bound ih =>
    refine (step value q start).bind fun outcome r holds => ?_
    cases outcome with
    | done value => exact holds
    | yield next => exact ih next r holds.1 (by omega)

/-- A loop ends if every round that is not the last lowers a measure. -/
theorem Ends.loop {init : α} {body : α → ParseM (ForInStep α)} {succeeds : α → Parser → Prop}
    {breaks : Parser → Prop} (measure : α → Parser → Nat) (inv : α → Parser → Prop)
    (start : inv init q) (room : measure init q < 2 * (q.stream.total + 1))
    (step : ∀ value q, inv value q → Ends (body value) q
      (fun outcome r => match outcome with
        | .done value => succeeds value r
        | .yield next => inv next r ∧ measure next r < measure value q) breaks) :
    Ends (Parser.loop init body) q succeeds breaks :=
  Ends.iterate measure inv step _ init q start room

theorem weight_le_total (sound : p.stream.Sound) : p.weight ≤ p.stream.total := by
  refine Nat.le_trans ?_ sound.kinds_length_le
  have part : skeletonOf p.stream.upcoming = p.stream.kinds.filter (· != .name) := by
    simp [skeletonOf, TokenStream.kinds, List.filter_filter, Bool.and_comm]
  rw [weight, part]
  exact List.length_filter_le ..

/-- What one round of a loop is to do, if it lowers a measure unless it is the last. -/
def roundBy (measure : α → Parser → Nat) (before : Nat) (inv post : Post α) : Post (ForInStep α) :=
  fun outcome ps r => match outcome with
    | .done value => post value ps r
    | .yield next => inv next ps r ∧ measure next r < before

@[simp] theorem roundBy_done {measure : α → Parser → Nat} {before : Nat} {inv post : Post α} {value : α} :
    roundBy measure before inv post (.done value) ps r ↔ post value ps r := .rfl

/-- A loop within a run. -/
theorem Moves.loopBy {init : α} {body : α → ParseM (ForInStep α)} (measure : α → Parser → Nat)
    (moves : Moves laid mode lead ps p q) (inv post : Post α) (ready : Ready laid mode level q)
    (start : inv init ps q) (room : measure init q < 2 * (q.stream.total + 1))
    (step : ∀ value ps r, Moves laid mode lead ps p r → Ready laid mode level r → inv value ps r →
      Completes laid mode lead level p (body value) r (roundBy measure (measure value r) inv post)) :
    Completes laid mode lead level p (Parser.loop init body) q post := by
  refine Ends.loop measure
    (fun value r => ∃ ps, Moves laid mode lead ps p r ∧ Ready laid mode level r ∧ inv value ps r)
    ⟨ps, moves, ready, start⟩ room ?_
  rintro value r ⟨ps, moves, ready, holds⟩
  refine Ends.imp (step value ps r moves ready holds) ?_ fun _ broken => broken
  rintro outcome s ⟨qs, moves, ready, holds⟩
  cases outcome with
  | done value => exact ⟨qs, moves, ready, holds⟩
  | yield next => exact ⟨⟨qs, moves, ready, holds.1⟩, holds.2⟩

/-- What one round is to do of a loop that goes over tokens other than names. -/
abbrev round (weight : Nat) (inv post : Post α) : Post (ForInStep α) :=
  roundBy (fun _ r => r.weight) weight inv post

/-- A loop of which every round but the last goes over some token other than a name. -/
theorem Moves.loop {init : α} {body : α → ParseM (ForInStep α)}
    (moves : Moves laid mode lead ps p q) (inv post : Post α) (ready : Ready laid mode level q)
    (start : inv init ps q)
    (step : ∀ value ps r, Moves laid mode lead ps p r → Ready laid mode level r → inv value ps r →
      Completes laid mode lead level p (body value) r (round r.weight inv post)) :
    Completes laid mode lead level p (Parser.loop init body) q post := by
  refine moves.loopBy (fun _ r => r.weight) inv post ready start ?_ step
  have := weight_le_total ready.sound
  omega

/-- A loop that begins the run: the first round tells how. -/
theorem Ready.loop {init : α} {body : α → ParseM (ForInStep α)} (ready : Ready laid mode' level p)
    (inv post : Post α)
    (first : Parses laid mode lead level (body init) p fun outcome ps r => match outcome with
      | .done value => post value ps r
      | .yield next => inv next ps r)
    (step : ∀ value ps r, Moves laid mode lead ps p r → Ready laid mode level r → inv value ps r →
      Completes laid mode lead level p (body value) r (round r.weight inv post)) :
    Parses laid mode lead level (Parser.loop init body) p post := by
  have room := weight_le_total ready.sound
  show Ends (iterate body (2 * (p.stream.total + 1)) init) p _ _
  rw [show 2 * (p.stream.total + 1) = 2 * p.stream.total + 1 + 1 by omega]
  refine Ends.bind first ?_
  rintro outcome r ⟨ps, moves, ready, holds⟩
  cases outcome with
  | done value => exact ⟨ps, moves, ready, holds⟩
  | yield next =>
    refine Ends.iterate (fun _ r => r.weight)
      (fun value r => ∃ ps, Moves laid mode lead ps p r ∧ Ready laid mode level r ∧ inv value ps r)
      ?_ _ next r ⟨ps, moves, ready, holds⟩ ?_
    · rintro value r ⟨ps, moves, ready, holds⟩
      refine Ends.imp (step value ps r moves ready holds) ?_ fun _ broken => broken
      rintro outcome s ⟨qs, moves, ready, holds⟩
      cases outcome with
      | done value => exact ⟨qs, moves, ready, holds⟩
      | yield next => exact ⟨⟨qs, moves, ready, holds.1⟩, holds.2⟩
    · have := moves.weight_le
      omega

end

end TolerantParser.Parser
