import TolerantParser.Proofs.Stream.Looking
import TolerantParser.Proofs.Stream.Places

/-!
Making a stream and reading it to its end. Of tokens that the dialect defines, the last of which is the
only one to end the file, a stream can always be made, whether they are read at once or on demand.
-/

namespace TolerantParser.TokenStream

theorem throughEnd_eq {tokens : List Token} (ended : EndsOnce (tokens.map (·.kind))) :
    throughEnd tokens = tokens := by
  induction tokens with
  | nil => rfl
  | cons token rest ih =>
    rw [throughEnd]
    by_cases last : rest = []
    · simp [last, throughEnd]
    · rw [List.map_cons, endsOnce_cons (by simpa using last)] at ended
      rw [if_neg (by simpa using ended.1), ih ended.2]

theorem Sound.toNumbered {s : TokenStream} (sound : s.Sound) : s.Numbered :=
  ⟨sound.nodup, sound.below, sound.defined⟩

/-- Reading without moving. -/
theorem Reads.steps {s t : TokenStream} (reads : Reads s t) (sound : s.Sound) (stays : t.place = s.place) :
    Steps s [] t where
  dialect := reads.dialect
  behind := by
    obtain ⟨rest, grown⟩ := reads.document
    have within : s.place ≤ s.document.length := by
      rw [TokenStream.document, TokenStream.place, List.length_append, List.length_reverse]
      omega
    rw [← List.reverse_inj, behind_reverse, stays, ← grown, List.take_append_of_le_length within,
      ← behind_reverse]
    rfl
  upcoming := by
    rw [upcoming_eq_drop, upcoming_eq_drop, reads.tokens, stays]
    rfl
  document := reads.document
  sound := ⟨reads.numbered.nodup, reads.numbered.below, reads.numbered.defined, by
    rw [reads.tokens]
    exact sound.ended⟩

/-- Reading everything leaves the cursor where it is. -/
theorem readAll_eq {s : TokenStream} (sound : s.Sound) :
    ∃ t, readAll s = .ok () t ∧ Steps s [] t ∧ t.unread = [] := by
  obtain ⟨t, reads, later, stays, unread⟩ := sound.toNumbered.readAll
  exact ⟨t, reads, later.steps sound stays, unread⟩

theorem finish_eq {s : TokenStream} (sound : s.Sound) :
    ∃ t, finish s = .ok t.document t ∧ Steps s [] t ∧ t.unread = [] := by
  obtain ⟨t, reads, steps, unread⟩ := readAll_eq sound
  exact ⟨t, bind_ok reads _, steps, unread⟩

/-- A fresh stream has its cursor on the first token that is not a comment. -/
theorem ofTokens_eq (serial : Nat) {d : Dialect} (onDemand : Bool) {tokens : List Token}
    (defined : ∀ token ∈ tokens, d.defines token.kind) (ended : EndsOnce (tokens.map (·.kind))) :
    ∃ s, ofTokens serial d onDemand tokens = .ok s ∧ s.Sound ∧ s.Rests ∧ s.dialect = d ∧
      s.tokens = tokens ∧ significant s.behind = [] := by
  cases tokens with
  | nil =>
    obtain ⟨before, split, -⟩ := ended
    simp at split
  | cons token unread =>
    have whole := throughEnd_eq ended
    let first : TokenStream :=
      { serial, dialect := d, behind := [], current := ⟨token, 0⟩, ahead := [], unread, size := 1 }
    have sound : first.Sound := by
      refine ⟨by simp [first, document], by simp [first, document], ?_, ?_⟩
      · exact fun other member => defined other (by simp [show other ∈ unread from member])
      · simpa [first, TokenStream.tokens, document] using ended
    have reads : ∃ s passed, (do unless onDemand do readAll
                                 settle : StreamM Unit) first = .ok () s ∧ Steps first passed s ∧
        (∀ cell ∈ passed, cell.kind = .comment) ∧ s.Rests := by
      cases onDemand with
      | true =>
        obtain ⟨passed, s, settles, steps, comments, rests⟩ := settle_eq sound
        exact ⟨s, passed, settles, steps, comments, rests⟩
      | false =>
        obtain ⟨s, reads, steps, -⟩ := readAll_eq sound
        obtain ⟨passed, t, settles, more, comments, rests⟩ := settle_eq steps.sound
        exact ⟨t, passed, (bind_ok reads _).trans settles, steps.trans more, comments, rests⟩
    obtain ⟨s, passed, reads, all, comments, rests⟩ := reads
    refine ⟨s, ofTokens_ok whole (defined token (by simp)) reads, all.sound, rests, all.dialect, ?_, ?_⟩
    · rw [all.tokens]
      simp [first, TokenStream.tokens, document]
    · rw [all.behind]
      exact significant_eq_nil (by simpa [first] using comments)

/-! ### Steps over comments, one by one -/

variable {s t : TokenStream}

theorem readPastComments_unread (s : TokenStream) (unread waiting : List Token) :
    TokenStream.readPastComments { s with unread } waiting = s.readPastComments waiting := by
  induction waiting generalizing s with
  | nil => rfl
  | cons token waiting ih =>
    rw [readPastComments, readPastComments]
    dsimp only
    split
    · cases s.dialect.require token.kind with
      | error fault => rfl
      | ok _ => exact ih { s with
          behind := s.current :: s.behind, current := ⟨token, s.size⟩, size := s.size + 1 }
    · rfl

theorem settle_of_other (other : s.current.isComment = false) : settle s = .ok () s := by
  have passes : passComments s.behind s.current s.ahead = (s.behind, s.current, s.ahead) := by
    cases s.ahead <;> simp [passComments, other]
  unfold settle
  rw [passes]
  dsimp only
  split
  · cases waiting : s.unread with
    | nil => rw [readPastComments, ← waiting]
    | cons token unread => rw [readPastComments, if_neg (by simp [other]), ← waiting]
  · rfl

theorem settle_at_end (ahead : s.ahead = []) (unread : s.unread = []) : settle s = .ok () s := by
  unfold settle
  rw [ahead, passComments]
  dsimp only
  rw [unread, readPastComments, List.isEmpty_nil, if_pos rfl, ← ahead, ← unread]

/-- A cursor on a comment goes on to where it would go on from the token behind. -/
theorem settle_of_comment (comment : s.current.isComment) (moves : forward s = .ok true t) : settle s = settle t := by
  unfold forward at moves
  split at moves
  next cell ahead next =>
    cases moves
    unfold settle
    rw [next, passComments, if_pos comment]
  next atEnd =>
    split at moves
    next => cases moves
    next token unread waiting =>
      split at moves
      next => cases moves
      next accepted =>
        cases moves
        unfold settle
        rw [atEnd, passComments, passComments]
        dsimp only
        rw [List.isEmpty_nil, if_pos rfl, if_pos rfl, waiting, readPastComments, if_pos comment, accepted]
        dsimp only
        rw [← readPastComments_unread _ unread]

end TolerantParser.TokenStream
