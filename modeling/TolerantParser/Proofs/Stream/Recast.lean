import Mathlib.Data.List.TakeWhile
import TolerantParser.Dialect.Features
import TolerantParser.Proofs.Stream.Moving

/-!
Moves of a stream under a later dialect. A later dialect of the 2.x series defines all that an earlier one does, so
whatever move an earlier one allows, a later one does too, and it leads to the same place.
-/

namespace TolerantParser

variable {α β : Type} {later d : Dialect}

/-! ### Later dialects -/

/-- A dialect of the 2.x series that is not older than another one. -/
def Dialect.Extends (later d : Dialect) : Prop := later ≠ .v30 ∧ later.since d

instance : Decidable (later.Extends d) := inferInstanceAs (Decidable (_ ∧ _))

/-- What later constructs of the series do to the switches: some are turned on, the others stay. -/
structure Features.Gains (f g : Features) : Prop where
  conditionalExpressions : f.conditionalExpressions → g.conditionalExpressions
  unifiedTry : f.unifiedTry → g.unifiedTry
  relativeImports : f.relativeImports → g.relativeImports
  yieldExpressions : f.yieldExpressions → g.yieldExpressions
  emptyClassBases : f.emptyClassBases → g.emptyClassBases
  exceptAs : f.exceptAs → g.exceptAs
  classDecorators : f.classDecorators → g.classDecorators
  exceptComma : g.exceptComma = f.exceptComma
  tupleParameters : g.tupleParameters = f.tupleParameters
  tupleComprehensionIterables : g.tupleComprehensionIterables = f.tupleComprehensionIterables
  keywordOnlyArguments : g.keywordOnlyArguments = f.keywordOnlyArguments
  annotations : g.annotations = f.annotations
  raiseFrom : g.raiseFrom = f.raiseFrom
  raiseWithArguments : g.raiseWithArguments = f.raiseWithArguments
  setLiterals : g.setLiterals = f.setLiterals
  setDictComprehensions : g.setDictComprehensions = f.setDictComprehensions

/-- What a dialect accepts it defines. -/
theorem Dialect.defines_of_require {kind : TokenKind} {value : Unit} (accepted : d.require kind = .ok value) :
    d.defines kind := by
  unfold Dialect.require at accepted
  split at accepted
  next defined => exact defined
  next => cases accepted

namespace Dialect.Extends

/-- There are three dialects in the series. -/
theorem elim {motive : Dialect → Dialect → Prop} (newer : later.Extends d) (same : motive d d)
    (first : motive .v25 .v24) (second : motive .v26 .v25) (both : motive .v26 .v24) : motive later d := by
  obtain ⟨series, since⟩ := newer
  cases later <;> cases d <;> first | assumption | exact absurd rfl series | exact absurd since (by decide)

theorem gains (newer : later.Extends d) : d.features.Gains later.features := by
  refine newer.elim (motive := fun later d => d.features.Gains later.features) ?_ ?_ ?_ ?_
  · exact ⟨id, id, id, id, id, id, id, rfl, rfl, rfl, rfl, rfl, rfl, rfl, rfl, rfl⟩
  all_goals constructor <;> decide

theorem defines (newer : later.Extends d) {kind : TokenKind} (defined : d.defines kind) : later.defines kind := by
  have words : d.keywords.map Prod.snd ⊆ later.keywords.map Prod.snd ∧ later.operators = d.operators := by
    refine newer.elim (motive := fun later d => d.keywords.map Prod.snd ⊆ later.keywords.map Prod.snd ∧
      later.operators = d.operators) ⟨List.Subset.refl _, rfl⟩ ?_ ?_ ?_
    all_goals exact ⟨by decide, rfl⟩
  simp only [Dialect.defines, Bool.or_eq_true, List.contains_iff_mem, words.2] at defined ⊢
  exact defined.imp_left (.imp_right (words.1 ·))

theorem require (newer : later.Extends d) {kind : TokenKind} (accepted : d.require kind = .ok ()) :
    later.require kind = .ok () :=
  if_pos (newer.defines (defines_of_require accepted))

theorem simpleForms (newer : later.Extends d) : later.simpleForms = d.simpleForms :=
  newer.elim (motive := fun later d => later.simpleForms = d.simpleForms) rfl rfl rfl rfl

/-- The only word that begins a statement with a block in a later dialect alone is no word of an earlier one. -/
theorem compoundForm? (newer : later.Extends d) {kind : TokenKind} (defined : d.defines kind) :
    later.compoundForm? kind = d.compoundForm? kind := by
  have unknown : kind = .kwWith → Dialect.v24.defines kind = false := by
    rintro rfl
    decide
  refine newer.elim (motive := fun later d => d.defines kind → later.compoundForm? kind = d.compoundForm? kind)
    (fun _ => rfl) ?_ (fun _ => rfl) ?_ defined
  all_goals
    intro defined
    cases kind <;> first | rfl | exact absurd ((unknown rfl).symm.trans defined) nofun

end Dialect.Extends

namespace TokenStream

/-! ### Streams of a later dialect -/

/-- The stream, as it is in another dialect. -/
def recast (s : TokenStream) (d : Dialect) : TokenStream := { s with dialect := d }

/-- The stream is one of an earlier dialect, which defines what has been read. -/
structure Fits (later : Dialect) (s : TokenStream) : Prop where
  newer : later.Extends s.dialect
  known : ∀ cell ∈ s.document, s.dialect.defines cell.kind

/-- What the moves do under an earlier dialect they do under the later one. -/
structure Replays (later : Dialect) (f : StreamM α) : Prop where
  runs {s t : TokenStream} {value : α} : s.Fits later → f s = .ok value t →
    f (s.recast later) = .ok value (t.recast later) ∧ t.Fits later

variable {f : StreamM α} {k : α → StreamM β} {s t : TokenStream}

/-- The same tokens have been read. -/
theorem Fits.moved (fits : s.Fits later) (dialect : t.dialect = s.dialect) (document : t.document = s.document) :
    t.Fits later :=
  ⟨dialect ▸ fits.newer, by rw [dialect, document]; exact fits.known⟩

/-- A token that is read is one that the dialect defines. -/
theorem Fits.read (fits : s.Fits later) {token : Token} (index : Nat) (accepted : s.dialect.require token.kind = .ok ())
    (dialect : t.dialect = s.dialect) (document : t.document = s.document ++ [⟨token, index⟩]) : t.Fits later := by
  refine ⟨dialect ▸ fits.newer, fun cell member => ?_⟩
  rw [document] at member
  rw [dialect]
  rcases List.mem_append.1 member with old | new
  · exact fits.known cell old
  · rw [List.mem_singleton.1 new]
    exact Dialect.defines_of_require accepted

theorem replays_pure (value : α) : Replays later (pure value : StreamM α) where
  runs fits done := by
    cases done
    exact ⟨rfl, fits⟩

theorem Replays.bind (first : Replays later f) (next : ∀ value, Replays later (k value)) : Replays later (f >>= k) where
  runs fits done := by
    obtain ⟨mid, u, begins, goesOn⟩ := bind_eq_ok done
    obtain ⟨again, between⟩ := first.runs fits begins
    rw [bind_ok again]
    exact (next mid).runs between goesOn

/-- What goes on alike after a look at a stream of another dialect. -/
theorem replays_get {k : TokenStream → StreamM α} (blind : ∀ s : TokenStream, k (s.recast later) = k s)
    (next : ∀ s, Replays later (k s)) : Replays later (get >>= k) where
  runs {s t value} fits done := by
    show k (s.recast later) (s.recast later) = _ ∧ _
    rw [blind]
    exact (next s).runs fits done

theorem Replays.discard (replays : Replays later f) : Replays later (discard f : StreamM PUnit) := by
  have whole : (Functor.discard f : StreamM PUnit) = f >>= fun _ => pure ⟨⟩ := by
    funext s
    simp only [Functor.discard, Functor.mapConst, EStateM.map, Bind.bind, EStateM.bind, Function.comp]
    cases f s <;> rfl
  rw [whole]
  exact replays.bind fun _ => replays_pure _

theorem seek_recast (s : TokenStream) (index : Nat) : (s.recast d).seek index = (s.seek index).recast d := by
  unfold seek recast
  dsimp only
  split
  · rfl
  · split <;> rfl

theorem dialect_seek (s : TokenStream) (index : Nat) : (s.seek index).dialect = s.dialect := by
  unfold seek
  split
  · rfl
  · split <;> rfl

theorem Fits.seek (fits : s.Fits later) (index : Nat) : (s.seek index).Fits later :=
  fits.moved (dialect_seek s index) (document_seek s index)

theorem Replays.orReturn (replays : Replays later f) : Replays later (orReturn f) where
  runs {s t value} fits done := by
    unfold TokenStream.orReturn at done ⊢
    split at done
    next value u moves =>
      cases done
      obtain ⟨again, ends⟩ := replays.runs fits moves
      rw [again]
      exact ⟨rfl, ends⟩
    next => cases done

theorem Replays.lookAround (replays : Replays later f) : Replays later (lookAround f) where
  runs {s t value} fits done := by
    unfold TokenStream.lookAround at done ⊢
    split at done
    next value u moves =>
      cases done
      obtain ⟨again, ends⟩ := replays.runs fits moves
      rw [again]
      exact ⟨congrArg (EStateM.Result.ok value) (seek_recast u _), ends.seek _⟩
    next => cases done

/-! ### Moves -/

theorem replays_forward : Replays later forward where
  runs {s t value} fits done := by
    obtain ⟨serial, d, behind, current, ahead, unread, size⟩ := s
    cases ahead with
    | cons cell ahead =>
      cases done
      exact ⟨rfl, fits.moved rfl (by simp [document])⟩
    | nil =>
      cases unread with
      | nil =>
        cases done
        exact ⟨rfl, fits⟩
      | cons token unread =>
        simp only [forward] at done
        split at done
        next => cases done
        next accepted =>
          cases done
          simp only [forward, recast, fits.newer.require accepted]
          exact ⟨trivial, fits.read size accepted rfl (by simp [document])⟩

theorem document_passComments (behind : List Cell) (current : Cell) (ahead : List Cell) :
    (passComments behind current ahead).1.reverse ++
      (passComments behind current ahead).2.1 :: (passComments behind current ahead).2.2 =
        behind.reverse ++ current :: ahead := by
  induction ahead generalizing behind current with
  | nil => rfl
  | cons next ahead ih =>
    rw [passComments]
    split
    · rw [ih]
      simp
    · rfl

theorem replays_readPastComments (unread : List Token) {s t : TokenStream} (fits : s.Fits later) (atEnd : s.ahead = [])
    (done : s.readPastComments unread = .ok () t) :
    (s.recast later).readPastComments unread = .ok () (t.recast later) ∧ t.Fits later := by
  induction unread generalizing s with
  | nil =>
    cases done
    exact ⟨rfl, fits.moved rfl rfl⟩
  | cons token unread ih =>
    have same : (s.recast later).current = s.current := rfl
    rw [readPastComments] at done ⊢
    rw [same]
    split at done
    next comment =>
      rw [if_pos comment]
      split at done
      next => cases done
      next accepted =>
        have again : (s.recast later).dialect.require token.kind = .ok () := fits.newer.require accepted
        rw [again]
        have between := fits.read s.size accepted (t := { s with
          behind := s.current :: s.behind, current := ⟨token, s.size⟩, size := s.size + 1 }) rfl
          (by simp [document, atEnd])
        exact ih between atEnd done
    next other =>
      cases done
      rw [if_neg other]
      exact ⟨rfl, fits.moved rfl rfl⟩

theorem replays_settle : Replays later settle where
  runs {s t value} fits done := by
    have passed := document_passComments s.behind s.current s.ahead
    have same : passComments (s.recast later).behind (s.recast later).current (s.recast later).ahead =
      passComments s.behind s.current s.ahead := rfl
    unfold settle at done ⊢
    rw [same]
    generalize passComments s.behind s.current s.ahead = place at done passed
    obtain ⟨behind, current, ahead⟩ := place
    have between : TokenStream.Fits later { s with behind, current, ahead } := fits.moved rfl passed
    dsimp only at done ⊢
    split at done
    next atEnd =>
      rw [if_pos atEnd]
      exact replays_readPastComments _ between (List.isEmpty_iff.1 atEnd) done
    next more =>
      cases done
      rw [if_neg more]
      exact ⟨rfl, between⟩

theorem replays_forwardSignificant : Replays later forwardSignificant := by
  refine replays_forward.bind fun moved => ?_
  split
  · exact replays_settle.bind fun _ => replays_pure true
  · exact replays_pure false

theorem replays_advance : Replays later advance := by
  refine replays_get (fun _ => rfl) fun s => ?_
  dsimp only
  split
  · exact replays_pure _
  · exact replays_forwardSignificant.orReturn.discard.bind fun _ => replays_pure _

theorem replays_walk (count : Nat) : Replays later (peek.walk count) := by
  induction count with
  | zero => exact replays_get (fun _ => rfl) fun _ => replays_pure _
  | succ count ih =>
    refine replays_get (fun _ => rfl) fun s => ?_
    dsimp only
    split
    · exact replays_pure _
    · exact replays_forwardSignificant.discard.bind fun _ => ih

theorem replays_peek (count : Nat) : Replays later (peek count) := (replays_walk count).lookAround

/-! ### Whole streams -/

/-- The stream when all that is still to be read has been read. -/
def drained (s : TokenStream) : TokenStream :=
  let cells := (s.unread.zipIdx s.size).map fun (token, index) => (⟨token, index⟩ : Cell)
  { s with ahead := s.ahead ++ cells, size := s.size + cells.length, unread := [] }

theorem readAll_defined (defined : ∀ token ∈ s.unread, s.dialect.defines token.kind) :
    readAll s = .ok () s.drained := by
  have all : (s.unread.takeWhile fun token => s.dialect.defines token.kind) = s.unread :=
    List.takeWhile_eq_self_iff.2 defined
  unfold readAll
  simp only [all, List.drop_length]
  rfl

/-- Reading is refused where the dialect does not define all there is. -/
theorem defined_of_readAll {value : Unit} (done : readAll s = .ok value t) :
    ∀ token ∈ s.unread, s.dialect.defines token.kind := by
  unfold readAll at done
  dsimp only at done
  split at done
  next nothing =>
    have shorter := List.drop_eq_nil_iff.1 nothing
    exact List.takeWhile_eq_self_iff.1 ((List.takeWhile_prefix _).eq_of_length_le shorter)
  next => cases done

theorem replays_readAll : Replays later readAll where
  runs {s t value} fits done := by
    have defined := defined_of_readAll done
    rw [readAll_defined defined] at done
    cases done
    refine ⟨readAll_defined fun token member => fits.newer.defines (defined token member), fits.newer,
      fun cell member => ?_⟩
    have grown : s.drained.document = s.document ++ (s.unread.zipIdx s.size).map fun (token, index) =>
      ⟨token, index⟩ := by
      simp [drained, document]
    rw [grown] at member
    rcases List.mem_append.1 member with old | new
    · exact fits.known cell old
    · obtain ⟨⟨token, index⟩, listed, rfl⟩ := List.mem_map.1 new
      exact defined token (List.fst_mem_of_mem_zipIdx listed)

theorem replays_finish : Replays later finish :=
  replays_readAll.bind fun _ => replays_get (fun _ => rfl) fun _ => replays_pure _

end TokenStream

end TolerantParser
