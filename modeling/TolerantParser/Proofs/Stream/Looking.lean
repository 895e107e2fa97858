import TolerantParser.Proofs.Stream.Moving

/-!
Looking ahead and searching. A look around reads what it needs and leaves the cursor where it was; a
search stays where it found what it looked for, and else leaves the cursor where it was too. What a
search has passed over are the significant tokens between the two places.
-/

namespace TolerantParser.TokenStream

theorem kinds_eq_cons {s : TokenStream} (rests : s.Rests) :
    ∃ rest, s.kinds = s.current.kind :: rest := by
  refine ⟨((s.ahead.map Cell.toToken ++ s.unread).map (·.kind)).filter (· != .comment), ?_⟩
  have met : (s.current.kind != .comment) = true := bne_iff_ne.2 rests
  simp [kinds, upcoming, met]

/-- A step over a significant token and the comments behind it takes one kind off. -/
theorem Steps.kinds_cons {s t : TokenStream} {comments : List Cell} (rests : s.Rests)
    (others : ∀ cell ∈ comments, cell.kind = .comment) (steps : Steps s (s.current :: comments) t) :
    s.kinds = s.current.kind :: t.kinds := by
  have met : (s.current.kind != .comment) = true := bne_iff_ne.2 rests
  have nothing : (comments.map (·.kind)).filter (· != .comment) = [] := by
    rw [List.filter_eq_nil_iff]
    intro kind member
    obtain ⟨cell, listed, rfl⟩ := List.mem_map.1 member
    simp [others cell listed]
  rw [steps.kinds]
  simp [met, nothing]

theorem kinds_at_end {s : TokenStream} (sound : s.Sound) (ends : s.current.kind = .endOfFile) :
    s.kinds = [.endOfFile] := by
  obtain ⟨ahead, unread⟩ := sound.at_end ends
  simp [kinds, upcoming, ahead, unread, ends]

/-- Going back to the token where the cursor was. -/
theorem Keeps.seek_back {s t : TokenStream} (keeps : Keeps s t) : Steps s [] (t.seek s.current.index) := by
  obtain ⟨rest, read⟩ := keeps.document
  have parts : t.document = s.behind.reverse ++ s.current :: (s.ahead ++ rest) := by
    rw [← read]
    simp [TokenStream.document]
  have back := keeps.sound.seek s.current.index
  have whole := seek_eq keeps.sound.nodup parts
  refine ⟨?_, ?_, ?_, ?_, back.sound⟩
  · rw [whole]
    exact keeps.dialect
  · have same := back.tokens.trans keeps.tokens
    rw [tokens_eq, tokens_eq s, whole] at same
    simp only [List.reverse_reverse, List.append_cancel_left_eq] at same
    simp [whole, same]
  · simp [whole]
  · rw [whole]
    simp [TokenStream.document]

theorem lookAround_eq {α : Type} {s t : TokenStream} {look : StreamM α} {value : α}
    (looks : look s = .ok value t) (keeps : Keeps s t) :
    ∃ u, lookAround look s = .ok value u ∧ Steps s [] u :=
  ⟨t.seek s.current.index, by simp [lookAround, looks], keeps.seek_back⟩

theorem walk_eq (count : Nat) {s : TokenStream} (sound : s.Sound) (rests : s.Rests) :
    ∃ t passed, peek.walk count s = .ok t.current t ∧ Steps s passed t ∧
      t.current.kind = s.kinds[count]?.getD .endOfFile := by
  induction count generalizing s with
  | zero =>
    obtain ⟨rest, kinds⟩ := kinds_eq_cons rests
    exact ⟨s, [], rfl, .refl sound, by simp [kinds]⟩
  | succ count ih =>
    by_cases ends : s.current.kind = .endOfFile
    · refine ⟨s, [], ?_, .refl sound, by simp [kinds_at_end sound ends, ends]⟩
      simp [peek.walk, bind, EStateM.bind, get_ok, ends, pure, EStateM.pure]
    · obtain ⟨comments, t, moves, steps, others, rests'⟩ := forwardSignificant_eq sound ends
      obtain ⟨u, passed, walks, later, kind⟩ := ih steps.sound rests'
      refine ⟨u, _, ?_, steps.trans later, ?_⟩
      · simp [peek.walk, bind, EStateM.bind, get_ok, ends, discard, Functor.discard, Functor.mapConst, EStateM.map,
          moves, walks]
      · rw [kind, steps.kinds_cons rests others]
        simp

/-- The token so many places on is the one of that kind in the list of kinds, or the end of the
file. -/
theorem peek_eq (count : Nat) {s : TokenStream} (sound : s.Sound) (rests : s.Rests) :
    ∃ cell t, peek count s = .ok cell t ∧ Steps s [] t ∧
      cell.kind = s.kinds[count]?.getD .endOfFile := by
  obtain ⟨t, passed, walks, steps, kind⟩ := walk_eq count sound rests
  obtain ⟨u, looks, still⟩ := lookAround_eq walks steps.keeps
  exact ⟨t.current, u, looks, still, kind⟩

/-- Looking for the token behind another one, wherever that stands. -/
theorem following?_eq (index : Nat) {s : TokenStream} (sound : s.Sound) :
    ∃ cell t, following? index s = .ok cell t ∧ Steps s [] t := by
  have away := sound.seek index
  suffices looks : ∃ cell t, (do
      modify (·.seek index)
      if ← forwardSignificant then return some (← get).current
      return none : StreamM (Option Cell)) s = .ok cell t ∧ Keeps s t by
    obtain ⟨cell, t, looks, keeps⟩ := looks
    obtain ⟨u, around, still⟩ := lookAround_eq looks keeps
    exact ⟨cell, u, around, still⟩
  by_cases ends : (s.seek index).current.kind = .endOfFile
  · have stays : forwardSignificant (s.seek index) = .ok false (s.seek index) := by
      simp [forwardSignificant, bind, EStateM.bind, forward_end away.sound ends, pure, EStateM.pure]
    refine ⟨none, _, ?_, away⟩
    simp [bind, EStateM.bind, modify_ok, stays, pure, EStateM.pure]
  · obtain ⟨comments, t, moves, steps, -, -⟩ := forwardSignificant_eq away.sound ends
    refine ⟨some t.current, t, ?_, away.trans steps.keeps⟩
    simp [bind, EStateM.bind, modify_ok, moves, get_ok, pure, EStateM.pure]

end TolerantParser.TokenStream
