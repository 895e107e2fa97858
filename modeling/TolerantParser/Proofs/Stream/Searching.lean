import TolerantParser.Proofs.Stream.Corresponding

/-!
Searches by two streams from corresponding tokens. Both searches end alike: at tokens that answer to each other, having
gone over tokens that are alike, or with both cursors back where they were.
-/

namespace TolerantParser.Frame

open TokenStream

variable {c : Frame} {goal : TokenKind → Prop} {s t : TokenStream}

/-- Two searches for a token of some sort that begin at `s` and `t` have ended alike at `u` and `v`. -/
structure Searched (c : Frame) (goal : TokenKind → Prop) (s t : TokenStream) (found found' : Option (List Cell))
    (u v : TokenStream) : Prop where
  moves : ∃ moved, Steps s moved u
  moves' : ∃ moved, Steps t moved v
  atToken : c.SameToken u v
  kept : c.pairs s t ≤ c.pairs u v
  alike : Alike (c.pairs u v) found found'
  arrived : found.isSome → goal u.current.kind

theorem SameToken.searched (atToken : c.SameToken s t) {found found' : Option (List Cell)}
    (alike : Alike (c.pairs s t) found found') (arrived : found.isSome → goal s.current.kind) :
    c.Searched goal s t found found' s t :=
  ⟨⟨[], .refl atToken.sound.1⟩, ⟨[], .refl atToken.sound.2⟩, atToken, le_refl _, alike, arrived⟩

theorem Searched.after {s' t' u v : TokenStream} {passed passed' : List Cell} {found found' : Option (List Cell)}
    (searched : c.Searched goal s' t' found found' u v) (left : Steps s passed s') (right : Steps t passed' t')
    (kept : c.pairs s t ≤ c.pairs s' t') : c.Searched goal s t found found' u v := by
  obtain ⟨⟨moved, moves⟩, ⟨moved', moves'⟩, atToken, later, alike, arrived⟩ := searched
  exact ⟨⟨_, left.trans moves⟩, ⟨_, right.trans moves'⟩, atToken, kept.trans later, alike, arrived⟩

/-- Both streams go one token on, and what was gone over is still alike with that token. -/
theorem SameToken.forward (atToken : c.SameToken s t) (inside : c.lined → s.current.kind ≠ .newline)
    (more : s.current.kind ≠ .endOfFile) {passed passed' : List Cell} (alike : Alike (c.pairs s t) passed passed') :
    ∃ s' t' moved moved', discard forwardSignificant s = .ok ⟨⟩ s' ∧ discard forwardSignificant t = .ok ⟨⟩ t' ∧
      Steps s moved s' ∧ Steps t moved' t' ∧ c.SameToken s' t' ∧ c.pairs s t ≤ c.pairs s' t' ∧
      Alike (c.pairs s' t') (s.current :: passed) (t.current :: passed') ∧ s.kinds = s.current.kind :: s'.kinds ∧
      t.kinds = t.current.kind :: t'.kinds := by
  obtain ⟨comments, s', moves, steps, others, rests⟩ := forwardSignificant_eq atToken.sound.1 more
  obtain ⟨comments', t', moves', steps', others', rests'⟩ :=
    forwardSignificant_eq atToken.sound.2 (atToken.kind ▸ more)
  obtain ⟨atToken', kept⟩ := atToken.step inside more steps others steps' others' ⟨rests, rests'⟩
  exact ⟨s', t', _, _, discard_ok moves, discard_ok moves', steps, steps', atToken', kept,
    .cons (atToken.current.mono kept) (alike.mono kept), steps.kinds_cons atToken.rests.1 others,
    steps'.kinds_cons atToken.rests.2 others'⟩

theorem alike_reverse {W : Pairing} {cells cells' : List Cell} (alike : Alike W cells cells') :
    Alike W cells.reverse cells'.reverse := List.rel_reverse alike

/-- The search for a closing bracket goes on within the line only. -/
theorem SameToken.searchCloser (atToken : c.SameToken s t) (wanted : List TokenKind) (bound bound' depth : Nat)
    {passed passed' : List Cell} (alike : Alike (c.pairs s t) passed passed') (room : s.kinds.length ≤ bound)
    (room' : t.kinds.length ≤ bound') :
    ∃ found found' u v, TokenStream.searchCloser wanted depth passed bound s = .ok found u ∧
      TokenStream.searchCloser wanted depth passed' bound' t = .ok found' v ∧
      c.Searched (· ∈ wanted) s t found found' u v := by
  induction bound generalizing bound' depth passed passed' s t with
  | zero =>
    obtain ⟨rest, kinds⟩ := kinds_eq_cons atToken.rests.1
    simp [kinds] at room
  | succ bound ih =>
    cases bound' with
    | zero =>
      obtain ⟨rest, kinds⟩ := kinds_eq_cons atToken.rests.2
      simp [kinds] at room'
    | succ bound' =>
      rw [TokenStream.searchCloser, TokenStream.searchCloser]
      simp only [bind, EStateM.bind, get_ok, ← atToken.kind]
      split
      · exact ⟨none, none, s, t, rfl, rfl, atToken.searched .none (by simp)⟩
      next inLine =>
        simp only [Bool.or_eq_true, beq_iff_eq, not_or] at inLine
        split
        next arrived =>
          simp only [Bool.and_eq_true, List.contains_iff_mem] at arrived
          exact ⟨_, _, s, t, rfl, rfl, atToken.searched (.some (alike_reverse alike)) fun _ => arrived.2⟩
        next =>
          obtain ⟨s', t', _, _, moves, moves', steps, steps', atToken', kept, alike', kinds, kinds'⟩ :=
            atToken.forward (fun _ => inLine.1) inLine.2 alike
          rw [kinds, List.length_cons] at room
          rw [kinds', List.length_cons] at room'
          obtain ⟨found, found', u, v, searches, searches', searched⟩ :=
            ih atToken' bound' _ alike' (by omega) (by omega)
          exact ⟨found, found', u, v, (bind_ok moves _).trans searches, (bind_ok moves' _).trans searches',
            searched.after steps steps' kept⟩

/-- The search for the end of a block goes on over lines and blocks. -/
theorem SameToken.searchDedent (atToken : c.SameToken s t) (through : ¬ c.lined) (budget level : Nat)
    {passed passed' : List Cell} (alike : Alike (c.pairs s t) passed passed') :
    ∃ found found' u v, TokenStream.searchDedent level passed budget s = .ok found u ∧
      TokenStream.searchDedent level passed' budget t = .ok found' v ∧
      c.Searched (· = .dedent) s t found found' u v := by
  induction budget generalizing level passed passed' s t with
  | zero => exact ⟨none, none, s, t, rfl, rfl, atToken.searched .none nofun⟩
  | succ budget ih =>
    -- every case but the two in which the search ends goes one token on
    have goesOn : ∀ next, s.current.kind ≠ .endOfFile → ∃ found found' u v,
        (do discard forwardSignificant
            TokenStream.searchDedent next (s.current :: passed) budget : StreamM _) s = .ok found u ∧
        (do discard forwardSignificant
            TokenStream.searchDedent next (t.current :: passed') budget : StreamM _) t = .ok found' v ∧
          c.Searched (· = .dedent) s t found found' u v := by
      intro next more
      obtain ⟨s', t', _, _, moves, moves', steps, steps', atToken', kept, alike', -, -⟩ :=
        atToken.forward (fun lined => absurd lined through) more alike
      obtain ⟨found, found', u, v, searches, searches', searched⟩ := ih atToken' next alike'
      exact ⟨found, found', u, v, (bind_ok moves _).trans searches, (bind_ok moves' _).trans searches',
        searched.after steps steps' kept⟩
    rw [TokenStream.searchDedent, TokenStream.searchDedent]
    simp only [bind, EStateM.bind, get_ok, ← atToken.kind]
    cases kind : s.current.kind with
    | endOfFile => exact ⟨none, none, s, t, rfl, rfl, atToken.searched .none nofun⟩
    | dedent =>
      by_cases outermost : level = 0
      · simp only [outermost, if_true]
        exact ⟨_, _, s, t, rfl, rfl, atToken.searched (.some (alike_reverse alike)) fun _ => kind⟩
      · simpa [outermost, bind, EStateM.bind] using goesOn (level - 1) (by simp [kind])
    | indent => exact goesOn (level + 1) (by simp [kind])
    | _ => exact goesOn level (by simp [kind])

/-- Where nothing was found, both cursors go back. -/
theorem SameToken.search (atToken : c.SameToken s t) {steps steps' : StreamM (Option (List Cell))}
    {found found' : Option (List Cell)} {u v : TokenStream} (searches : steps s = .ok found u)
    (searches' : steps' t = .ok found' v) (searched : c.Searched goal s t found found' u v) :
    ∃ u' v', TokenStream.search steps s = .ok found u' ∧ TokenStream.search steps' t = .ok found' v' ∧
      c.Searched goal s t found found' u' v' := by
  obtain ⟨⟨moved, moves⟩, ⟨moved', moves'⟩, there, kept, alike, arrived⟩ := searched
  cases alike with
  | none =>
    have back := moves.keeps.seek_back
    have back' := moves'.keeps.seek_back
    obtain ⟨again, kept⟩ := atToken.read back back'
    exact ⟨_, _, search_missed searches, search_missed searches', ⟨_, back⟩, ⟨_, back'⟩, again, kept, .none, nofun⟩
  | some cells =>
    exact ⟨u, v, search_found searches, search_found searches', ⟨moved, moves⟩, ⟨moved', moves'⟩, there, kept,
      .some cells, arrived⟩

end TolerantParser.Frame
