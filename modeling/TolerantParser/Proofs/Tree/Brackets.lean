import TolerantParser.Proofs.Tree.Pieces

/-!
Brackets in a run of tokens. `awaitedAfter` goes over the tokens and keeps the closing brackets that are
still to come, the innermost first; it comes to nothing at a bracket that closes something else, and at a
token that is no token of the language. Where it begins and ends with no bracket open, the run is properly
nested (`Nests`).
-/

namespace TolerantParser

namespace TokenKind

/-- The bracket that closes an opening one. -/
def closer? : TokenKind → Option TokenKind
  | .leftParen => some .rightParen
  | .leftBracket => some .rightBracket
  | .leftBrace => some .rightBrace
  | _ => none

/-- The tokens of a line other than brackets and those that are no tokens of the language. -/
def isOrdinary (kind : TokenKind) : Bool :=
  kind.isInline && !kind.isOpening && !kind.isClosing && kind != .error

theorem isInline_of_isOrdinary {kind : TokenKind} (ordinary : kind.isOrdinary) : kind.isInline := by
  simp only [isOrdinary, Bool.and_eq_true] at ordinary
  exact ordinary.1.1.1

theorem ne_leftParen_of_isOrdinary {kind : TokenKind} (ordinary : kind.isOrdinary) : kind ≠ .leftParen := by
  rintro rfl
  cases ordinary

theorem isInline_of_closer? {kind closer : TokenKind} (opens : kind.closer? = some closer) :
    kind.isInline := by
  cases kind <;> first | rfl | cases opens

theorem isInline_of_isClosing {kind : TokenKind} (closes : kind.isClosing) : kind.isInline := by
  cases kind <;> first | rfl | cases closes

theorem isStar_of_isClosing {kind : TokenKind} (closes : kind.isClosing) : kind.isStar = false := by
  cases kind <;> first | rfl | cases closes

end TokenKind

/-- Every bracket is closed by one of its own sort, and what stands between the two nests as well. -/
inductive Nests : List TokenKind → Prop
  | nil : Nests []
  | other {kind : TokenKind} {rest : List TokenKind} : kind.isOpening = false → kind.isClosing = false →
      Nests rest → Nests (kind :: rest)
  | pair {opening closing : TokenKind} {inside rest : List TokenKind} : opening.closer? = some closing →
      Nests inside → Nests rest → Nests (opening :: (inside ++ closing :: rest))

/-- The closing brackets awaited behind a token. -/
def awaitedBehind (awaited : List TokenKind) (kind : TokenKind) : Option (List TokenKind) :=
  match kind with
  | .leftParen => some (.rightParen :: awaited)
  | .leftBracket => some (.rightBracket :: awaited)
  | .leftBrace => some (.rightBrace :: awaited)
  | .rightParen | .rightBracket | .rightBrace =>
    match awaited with
    | [] => none
    | closer :: outer => if closer = kind then some outer else none
  | .error => none
  | _ => some awaited

/-- The closing brackets awaited behind tokens. -/
def awaitedAfter (awaited : List TokenKind) (kinds : List TokenKind) : Option (List TokenKind) :=
  kinds.foldlM awaitedBehind awaited

@[simp] theorem awaitedAfter_nil (awaited : List TokenKind) : awaitedAfter awaited [] = some awaited := rfl

theorem awaitedAfter_cons (awaited : List TokenKind) (kind : TokenKind) (rest : List TokenKind) :
    awaitedAfter awaited (kind :: rest) = (awaitedBehind awaited kind).bind (awaitedAfter · rest) := rfl

theorem awaitedAfter_append (awaited : List TokenKind) (kinds more : List TokenKind) :
    awaitedAfter awaited (kinds ++ more) = (awaitedAfter awaited kinds).bind (awaitedAfter · more) :=
  List.foldlM_append ..

theorem awaitedBehind_ordinary (awaited : List TokenKind) {kind : TokenKind} (ordinary : kind.isOrdinary) :
    awaitedBehind awaited kind = some awaited := by
  cases kind <;> first | rfl | cases ordinary

theorem awaitedBehind_layout (awaited : List TokenKind) {kind : TokenKind}
    (layout : kind.isLayout ∨ kind = .newline) : awaitedBehind awaited kind = some awaited := by
  rcases layout with layout | rfl
  · cases kind <;> first | rfl | cases layout
  · rfl

theorem awaitedBehind_closer? (awaited : List TokenKind) {kind closer : TokenKind}
    (opens : kind.closer? = some closer) : awaitedBehind awaited kind = some (closer :: awaited) := by
  cases kind <;> first | exact congrArg _ (congrArg (· :: awaited) (Option.some.inj opens)) | cases opens

theorem awaitedBehind_isClosing (outer : List TokenKind) {kind : TokenKind} (closes : kind.isClosing) :
    awaitedBehind (kind :: outer) kind = some outer := by
  cases kind <;> first | rfl | cases closes

/-- Comments open and close nothing. -/
theorem awaitedAfter_filter (awaited kinds : List TokenKind) :
    awaitedAfter awaited (kinds.filter (· != .comment)) = awaitedAfter awaited kinds := by
  induction kinds generalizing awaited with
  | nil => rfl
  | cons kind rest ih =>
    by_cases comment : kind = .comment
    · subst comment
      exact ih awaited
    · rw [List.filter_cons_of_pos (by simpa using comment), awaitedAfter_cons, awaitedAfter_cons]
      exact congrArg _ (funext ih)

/-- What a token does to the brackets. -/
theorem awaitedBehind_cases {awaited after : List TokenKind} {kind : TokenKind}
    (leads : awaitedBehind awaited kind = some after) : kind ≠ .error ∧
      ((kind.isOpening = false ∧ kind.isClosing = false ∧ after = awaited) ∨
        (∃ closer, kind.closer? = some closer ∧ after = closer :: awaited) ∨ awaited = kind :: after) := by
  cases kind with
  | error => cases leads
  | leftParen | leftBracket | leftBrace =>
    obtain rfl := Option.some.inj leads
    exact ⟨nofun, .inr (.inl ⟨_, rfl, rfl⟩)⟩
  | rightParen | rightBracket | rightBrace =>
    cases awaited with
    | nil => cases leads
    | cons closer outer =>
      simp only [awaitedBehind, Option.ite_none_right_eq_some, Option.some.injEq] at leads
      obtain ⟨rfl, rfl⟩ := leads
      exact ⟨nofun, .inr (.inr rfl)⟩
  | _ =>
    obtain rfl := Option.some.inj leads
    exact ⟨nofun, .inl ⟨rfl, rfl, rfl⟩⟩

/-- No token of a run that nests is an error. -/
theorem error_notMem_of_awaitedAfter {awaited after kinds : List TokenKind}
    (leads : awaitedAfter awaited kinds = some after) : .error ∉ kinds := by
  induction kinds generalizing awaited with
  | nil => simp
  | cons kind rest ih =>
    obtain ⟨next, step, later⟩ := Option.bind_eq_some_iff.1 (awaitedAfter_cons .. ▸ leads)
    rw [List.mem_cons, not_or]
    exact ⟨(awaitedBehind_cases step).1.symm, ih later⟩

/-- A run up to the end of all brackets: what is inside of the innermost one nests, and so on outwards. -/
inductive NestsIn : List TokenKind → List TokenKind → Prop
  | all {kinds : List TokenKind} : Nests kinds → NestsIn [] kinds
  | within {closer : TokenKind} {outer inside rest : List TokenKind} : Nests inside →
      NestsIn outer rest → NestsIn (closer :: outer) (inside ++ closer :: rest)

/-- What stands in front of a run that nests can be added to the innermost run. -/
theorem NestsIn.prepend {awaited kinds : List TokenKind} (before : List TokenKind)
    (grow : ∀ inside, Nests inside → Nests (before ++ inside)) (nests : NestsIn awaited kinds) :
    NestsIn awaited (before ++ kinds) := by
  cases nests with
  | all nests => exact .all (grow _ nests)
  | within inside rest =>
    rw [← List.append_assoc]
    exact .within (grow _ inside) rest

theorem nestsIn_of_awaitedAfter {awaited kinds : List TokenKind}
    (leads : awaitedAfter awaited kinds = some []) : NestsIn awaited kinds := by
  induction kinds generalizing awaited with
  | nil =>
    obtain rfl := Option.some.inj leads
    exact .all .nil
  | cons kind rest ih =>
    obtain ⟨after, step, later⟩ := Option.bind_eq_some_iff.1 (awaitedAfter_cons .. ▸ leads)
    rcases (awaitedBehind_cases step).2 with ⟨notOpening, notClosing, rfl⟩ | ⟨closer, opens, rfl⟩ | rfl
    · exact (ih later).prepend [kind] fun _ nests => .other notOpening notClosing nests
    · cases ih later with
      | @within _ _ inside behind nests outside =>
        have whole := outside.prepend (kind :: (inside ++ [closer])) fun _ more => by
          simpa using Nests.pair opens nests more
        simpa using whole
    · exact .within .nil (ih later)

theorem nests_of_awaitedAfter {kinds : List TokenKind} (leads : awaitedAfter [] kinds = some []) :
    Nests kinds := by
  cases nestsIn_of_awaitedAfter leads with
  | all nests => exact nests

end TolerantParser
