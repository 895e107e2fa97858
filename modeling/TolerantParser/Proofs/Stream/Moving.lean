import TolerantParser.Proofs.Stream.Seeking

/-!
Moving over a token stream. What a stream says of its text is in `tokens`: the tokens read and put in
and those not read yet. Looking and moving leave them alone, whether or not a move has to read. What
the parser meets from the cursor on is `kinds`: those of the tokens that are not comments.

`Steps s passed t`: the cursor has moved from `s` to `t` over the tokens `passed` and nothing else has
changed, except that more may have been read.
-/

namespace TolerantParser

/-- The last kind ends the file and no other one does. -/
def EndsOnce (kinds : List TokenKind) : Prop :=
  ∃ before, kinds = before ++ [.endOfFile] ∧ .endOfFile ∉ before

theorem endsOnce_append {before rest : List TokenKind} (nonempty : rest ≠ []) :
    EndsOnce (before ++ rest) ↔ .endOfFile ∉ before ∧ EndsOnce rest := by
  obtain ⟨front, last, rfl⟩ := (List.eq_nil_or_concat rest).resolve_left nonempty
  constructor
  · rintro ⟨all, split, none⟩
    rw [List.concat_eq_append, ← List.append_assoc] at split
    obtain ⟨rfl, same⟩ := List.append_inj' split rfl
    rw [List.mem_append, not_or] at none
    exact ⟨none.1, front, by rw [List.concat_eq_append, same], none.2⟩
  · rintro ⟨none, all, split, others⟩
    exact ⟨before ++ all, by rw [split, List.append_assoc], by simp [none, others]⟩

theorem endsOnce_cons {kind : TokenKind} {rest : List TokenKind} (nonempty : rest ≠ []) :
    EndsOnce (kind :: rest) ↔ kind ≠ .endOfFile ∧ EndsOnce rest := by
  have split : EndsOnce ([kind] ++ rest) ↔ _ := endsOnce_append nonempty
  simpa [eq_comm] using split

@[simp] theorem endsOnce_single {kind : TokenKind} : EndsOnce [kind] ↔ kind = .endOfFile := by
  constructor
  · rintro ⟨before, split, -⟩
    rw [← List.nil_append [kind]] at split
    exact List.singleton_inj.1 (List.append_inj' split rfl).2
  · rintro rfl
    exact ⟨[], rfl, by simp⟩

namespace TokenStream

/-- The tokens from the cursor on, whether they have been read or not. -/
def upcoming (s : TokenStream) : List Token := s.current.toToken :: (s.ahead.map Cell.toToken ++ s.unread)

/-- All tokens in document order, whether they have been read or not. -/
def tokens (s : TokenStream) : List Token := s.document.map Cell.toToken ++ s.unread

/-- The kinds of the tokens from the cursor on that are not comments. -/
def kinds (s : TokenStream) : List TokenKind := (s.upcoming.map (·.kind)).filter (· != .comment)

/-- The numbers of the tokens up to and with the one at the cursor. -/
def trail (s : TokenStream) : List Nat := (s.behind.reverse ++ [s.current]).map Cell.index

theorem tokens_eq (s : TokenStream) : s.tokens = s.behind.reverse.map Cell.toToken ++ s.upcoming := by
  simp [tokens, document, upcoming]

/-- A stream that can be parsed: no two tokens have one number, numbers stay below the next one to
be given, the dialect defines what is still to be read, and only the last token ends the file. -/
structure Sound (s : TokenStream) : Prop where
  nodup : (s.document.map Cell.index).Nodup
  below : ∀ cell ∈ s.document, cell.index < s.size
  defined : ∀ token ∈ s.unread, s.dialect.defines token.kind = true
  ended : EndsOnce (s.tokens.map (·.kind))

/-- The cursor is on a token that the parser meets. -/
def Rests (s : TokenStream) : Prop := s.current.kind ≠ .comment

/-- The cursor may be anywhere and more may have been read; nothing else has changed. -/
structure Keeps (s t : TokenStream) : Prop where
  dialect : t.dialect = s.dialect
  tokens : t.tokens = s.tokens
  document : s.document <+: t.document
  sound : t.Sound

theorem Keeps.trans {s t u : TokenStream} (first : Keeps s t) (second : Keeps t u) : Keeps s u :=
  ⟨second.dialect.trans first.dialect, second.tokens.trans first.tokens,
    first.document.trans second.document, second.sound⟩

structure Steps (s : TokenStream) (passed : List Cell) (t : TokenStream) : Prop where
  dialect : t.dialect = s.dialect
  upcoming : s.upcoming = passed.map Cell.toToken ++ t.upcoming
  behind : t.behind = passed.reverse ++ s.behind
  document : s.document <+: t.document
  sound : t.Sound

namespace Steps

theorem refl {s : TokenStream} (sound : s.Sound) : Steps s [] s :=
  ⟨rfl, rfl, rfl, List.prefix_refl _, sound⟩

theorem trans {s t u : TokenStream} {passed more : List Cell} (first : Steps s passed t)
    (second : Steps t more u) : Steps s (passed ++ more) u where
  dialect := second.dialect.trans first.dialect
  upcoming := by rw [first.upcoming, second.upcoming]; simp
  behind := by rw [second.behind, first.behind]; simp
  document := first.document.trans second.document
  sound := second.sound

theorem tokens {s t : TokenStream} {passed : List Cell} (steps : Steps s passed t) :
    t.tokens = s.tokens := by
  rw [tokens_eq, tokens_eq, steps.behind, steps.upcoming]
  simp

theorem keeps {s t : TokenStream} {passed : List Cell} (steps : Steps s passed t) : Keeps s t :=
  ⟨steps.dialect, steps.tokens, steps.document, steps.sound⟩

/-- The tokens passed over are those at and behind the cursor that have been read. -/
theorem passed_append {s t : TokenStream} {passed : List Cell} (steps : Steps s passed t) :
    s.current :: s.ahead <+: passed ++ t.current :: t.ahead := by
  have read := steps.document
  simp only [TokenStream.document, steps.behind, List.reverse_append, List.reverse_reverse,
    List.append_assoc] at read
  exact (List.prefix_append_right_inj _).1 read

/-- A stream that has not moved has its cursor on the same token. -/
theorem current_eq {s t : TokenStream} (steps : Steps s [] t) : t.current = s.current := by
  have read := steps.passed_append
  simp only [List.nil_append] at read
  exact ((List.cons_prefix_cons.1 read).1).symm

theorem head_passed {s t : TokenStream} {cell : Cell} {passed : List Cell}
    (steps : Steps s (cell :: passed) t) : cell = s.current :=
  ((List.cons_prefix_cons.1 steps.passed_append).1).symm

theorem kinds {s t : TokenStream} {passed : List Cell} (steps : Steps s passed t) :
    s.kinds = (passed.map (·.kind)).filter (· != .comment) ++ t.kinds := by
  simp [TokenStream.kinds, steps.upcoming, Function.comp_def]

/-- The cursor goes on only. -/
theorem trail {s t : TokenStream} {passed : List Cell} (steps : Steps s passed t) : s.trail.Sublist t.trail := by
  rw [TokenStream.trail, TokenStream.trail, steps.behind, List.reverse_append, List.reverse_reverse]
  refine List.Sublist.map _ ?_
  cases passed with
  | nil => simp [steps.current_eq]
  | cons cell passed =>
    obtain rfl := steps.head_passed
    rw [List.append_assoc, List.cons_append]
    exact List.Sublist.append_left (List.Sublist.cons_cons _ (List.nil_sublist _)) _

end Steps

theorem Sound.seek {s : TokenStream} (sound : s.Sound) (index : Nat) : Keeps s (s.seek index) := by
  obtain ⟨dialect, unread, size⟩ := s.seek_frame index
  have document := s.document_seek index
  have same : (s.seek index).tokens = s.tokens := by simp [TokenStream.tokens, document, unread]
  refine ⟨dialect, same, ⟨[], by simp [document]⟩, by rw [document]; exact sound.nodup, ?_, ?_, ?_⟩
  · rw [document, size]
    exact sound.below
  · rw [dialect, unread]
    exact sound.defined
  · rw [same]
    exact sound.ended

/-! ### Single steps -/

/-- A step that is not refused hands its value and state on. -/
theorem bind_ok {σ α β : Type} {s t : σ} {step : EStateM Fault σ α} {value : α}
    (steps : step s = .ok value t) (next : α → EStateM Fault σ β) : (step >>= next) s = next value t := by
  simp [bind, EStateM.bind, steps]

/-- Steps one after the other that are not refused are not refused one by one. -/
theorem bind_eq_ok {σ α β : Type} {steps : EStateM Fault σ α} {next : α → EStateM Fault σ β} {s t : σ} {value : β}
    (done : (steps >>= next) s = .ok value t) : ∃ first u, steps s = .ok first u ∧ next first u = .ok value t := by
  simp only [bind, EStateM.bind] at done
  split at done
  next first u met => exact ⟨first, u, met, done⟩
  next => cases done

theorem get_ok {σ : Type} (s : σ) : (get : EStateM Fault σ σ) s = .ok s s := rfl

theorem modify_ok {σ : Type} (change : σ → σ) (s : σ) :
    (modify change : EStateM Fault σ PUnit) s = .ok ⟨⟩ (change s) := rfl

theorem throw_error {σ α : Type} (fault : Fault) (s : σ) : (throw fault : EStateM Fault σ α) s = .error fault s := rfl

theorem discard_ok {σ α : Type} {s t : σ} {step : EStateM Fault σ α} {value : α}
    (steps : step s = .ok value t) : discard step s = .ok ⟨⟩ t := by
  simp [discard, Functor.discard, Functor.mapConst, EStateM.map, steps]

theorem Sound.unread_defined {s : TokenStream} (sound : s.Sound) {token : Token} {unread : List Token}
    (waiting : s.unread = token :: unread) : s.dialect.require token.kind = .ok () := by
  have defined := sound.defined token (by simp [waiting])
  simp [Dialect.require, defined]

/-- Reading one more token keeps a stream sound. -/
theorem Sound.read {s : TokenStream} (sound : s.Sound) {token : Token} {unread : List Token}
    (waiting : s.unread = token :: unread) (atEnd : s.ahead = []) :
    Steps s [s.current] { s with
      behind := s.current :: s.behind, current := ⟨token, s.size⟩, unread, size := s.size + 1 } where
  dialect := rfl
  upcoming := by simp [TokenStream.upcoming, waiting, atEnd]
  behind := rfl
  document := by simp [document, atEnd]
  sound := by
    have grown : TokenStream.document { s with
        behind := s.current :: s.behind, current := ⟨token, s.size⟩, unread, size := s.size + 1 } =
          s.document ++ [⟨token, s.size⟩] := by simp [document, atEnd]
    refine ⟨?_, ?_, ?_, ?_⟩
    · rw [grown, List.map_append, List.nodup_append]
      refine ⟨sound.nodup, by simp, ?_⟩
      intro index member other last same
      obtain ⟨cell, listed, rfl⟩ := List.mem_map.1 member
      have := sound.below cell listed
      simp only [List.map_cons, List.map_nil, List.mem_singleton] at last
      omega
    · rw [grown]
      intro cell member
      rcases List.mem_append.1 member with old | new
      · exact Nat.lt_succ_of_lt (sound.below cell old)
      · rw [List.mem_singleton.1 new]
        exact Nat.lt_succ_self _
    · exact fun other member => sound.defined other (by simp [waiting, member])
    · have same := sound.ended
      simpa [tokens, grown, waiting] using same

/-- Goes over one token that has been read. -/
theorem Sound.pass {s : TokenStream} (sound : s.Sound) {cell : Cell} {ahead : List Cell}
    (next : s.ahead = cell :: ahead) :
    Steps s [s.current] { s with behind := s.current :: s.behind, current := cell, ahead } where
  dialect := rfl
  upcoming := by simp [TokenStream.upcoming, next]
  behind := rfl
  document := by simp [document, next]
  sound := by
    have same : TokenStream.document { s with behind := s.current :: s.behind, current := cell, ahead } =
        s.document := by simp [document, next]
    exact ⟨by rw [same]; exact sound.nodup, by rw [same]; exact sound.below, sound.defined, by
      simpa [tokens, same] using sound.ended⟩

/-- Every token but the last has another one behind it, and the last ends the file. -/
theorem Sound.upcoming_ended {s : TokenStream} (sound : s.Sound) :
    EndsOnce (s.upcoming.map (·.kind)) := by
  have all := sound.ended
  rw [tokens_eq, List.map_append, endsOnce_append (by simp [TokenStream.upcoming])] at all
  exact all.2

theorem Sound.last_ends {s : TokenStream} (sound : s.Sound) (atEnd : s.ahead = [])
    (nothing : s.unread = []) : s.current.kind = .endOfFile := by
  simpa [TokenStream.upcoming, atEnd, nothing] using sound.upcoming_ended

theorem forward_eq {s : TokenStream} (sound : s.Sound) (more : s.current.kind ≠ .endOfFile) :
    ∃ t, forward s = .ok true t ∧ Steps s [s.current] t := by
  unfold forward
  split
  next cell ahead next => exact ⟨_, rfl, sound.pass next⟩
  next atEnd =>
    split
    next nothing => exact absurd (sound.last_ends atEnd nothing) more
    next token unread waiting =>
      rw [sound.unread_defined waiting]
      exact ⟨_, rfl, sound.read waiting atEnd⟩

/-- At the end of the file there is nowhere to go. -/
theorem Sound.at_end {s : TokenStream} (sound : s.Sound) (ends : s.current.kind = .endOfFile) :
    s.ahead = [] ∧ s.unread = [] := by
  have all := sound.upcoming_ended
  rw [TokenStream.upcoming, List.map_cons] at all
  by_cases more : s.ahead.map Cell.toToken ++ s.unread = []
  · simpa using more
  · exact absurd ends ((endsOnce_cons (by simpa using more)).1 all).1

theorem forward_end {s : TokenStream} (sound : s.Sound) (ends : s.current.kind = .endOfFile) :
    forward s = .ok false s := by
  have ⟨ahead, unread⟩ := sound.at_end ends
  simp [forward, ahead, unread]

/-! ### Comments -/

/-- Comments that have been read are passed over. -/
theorem passComments_steps {ahead : List Cell} {s : TokenStream} (sound : s.Sound)
    (listed : s.ahead = ahead) :
    ∃ passed t, passComments s.behind s.current ahead = (t.behind, t.current, t.ahead) ∧
      t = { s with behind := t.behind, current := t.current, ahead := t.ahead } ∧
      Steps s passed t ∧ (∀ cell ∈ passed, cell.kind = .comment) ∧ (t.ahead = [] ∨ t.Rests) := by
  induction ahead generalizing s with
  | nil =>
    exact ⟨[], s, by simp [passComments, listed], rfl, .refl sound, by simp, .inl listed⟩
  | cons next ahead ih =>
    rw [passComments]
    split
    next comment =>
      obtain ⟨passed, t, passes, shape, steps, comments, rests⟩ :=
        ih (sound.pass listed).sound rfl
      refine ⟨s.current :: passed, t, passes, shape, (sound.pass listed).trans steps, ?_, rests⟩
      intro cell member
      rcases List.mem_cons.1 member with rfl | later
      · exact eq_of_beq comment
      · exact comments cell later
    next other =>
      refine ⟨[], s, by rw [listed], rfl, .refl sound, by simp, .inr ?_⟩
      intro comment
      exact other (by simp [Cell.isComment, comment])

/-- Where everything has been read, reading on stops at the first token that is not a comment. The
end of the file is one. -/
theorem readPastComments_steps {unread : List Token} {s : TokenStream} (sound : s.Sound)
    (waiting : s.unread = unread) (atEnd : s.ahead = []) (any : TokenStream)
    (same : s = { any with unread }) :
    ∃ passed t, any.readPastComments unread = .ok () t ∧ Steps s passed t ∧
      (∀ cell ∈ passed, cell.kind = .comment) ∧ t.Rests := by
  induction unread generalizing s any with
  | nil =>
    refine ⟨[], s, by rw [readPastComments, same], .refl sound, by simp, ?_⟩
    intro comment
    have ends := sound.last_ends atEnd waiting
    simp [comment] at ends
  | cons token unread ih =>
    have current : any.current = s.current := by rw [same]
    have defined : any.dialect.require token.kind = .ok () := by
      have := sound.unread_defined waiting
      rwa [same] at this
    rw [readPastComments, current]
    split
    next comment =>
      rw [defined]
      have read := sound.read waiting atEnd
      obtain ⟨passed, t, reads, steps, comments, rests⟩ := ih read.sound rfl atEnd
        { any with
          behind := s.current :: any.behind, current := ⟨token, any.size⟩, size := any.size + 1 }
        (by rw [same])
      refine ⟨s.current :: passed, t, reads, read.trans steps, ?_, rests⟩
      intro cell member
      rcases List.mem_cons.1 member with rfl | later
      · exact eq_of_beq comment
      · exact comments cell later
    next other =>
      refine ⟨[], s, by rw [same], .refl sound, by simp, ?_⟩
      intro comment
      exact other (by simp [Cell.isComment, comment])

theorem settle_eq {s : TokenStream} (sound : s.Sound) :
    ∃ passed t, settle s = .ok () t ∧ Steps s passed t ∧ (∀ cell ∈ passed, cell.kind = .comment) ∧
      t.Rests := by
  obtain ⟨passed, t, passes, shape, steps, comments, rests⟩ := passComments_steps sound rfl
  unfold settle
  rw [passes]
  dsimp only
  rw [← shape]
  split
  next ahead =>
    have atEnd : t.ahead = [] := by simpa using ahead
    have unread : t.unread = s.unread := by rw [shape]
    obtain ⟨more, u, reads, later, others, rests⟩ :=
      readPastComments_steps steps.sound unread atEnd t (by rw [← unread])
    refine ⟨passed ++ more, u, reads, steps.trans later, ?_, rests⟩
    intro cell member
    rcases List.mem_append.1 member with early | late
    · exact comments cell early
    · exact others cell late
  next ahead =>
    refine ⟨passed, t, rfl, steps, comments, ?_⟩
    rcases rests with atEnd | rests
    · simp [atEnd] at ahead
    · exact rests

/-! ### Significant tokens -/

/-- The tokens of a list that are not comments. -/
def significant (cells : List Cell) : List Cell := cells.filter (·.kind != .comment)

@[simp] theorem significant_append (cells more : List Cell) :
    significant (cells ++ more) = significant cells ++ significant more := List.filter_append ..

theorem significant_cons_comment {cell : Cell} (comment : cell.kind = .comment) (cells : List Cell) :
    significant (cell :: cells) = significant cells := List.filter_cons_of_neg (by simp [comment])

theorem significant_cons_of_ne {cell : Cell} (other : cell.kind ≠ .comment) (cells : List Cell) :
    significant (cell :: cells) = cell :: significant cells := List.filter_cons_of_pos (by simpa using other)

theorem significant_eq_nil {cells : List Cell} (comments : ∀ cell ∈ cells, cell.kind = .comment) :
    significant cells = [] := by
  rw [significant, List.filter_eq_nil_iff]
  intro cell member
  simp [comments cell member]

theorem significant_cons_comments {cell : Cell} {comments : List Cell} (met : cell.kind ≠ .comment)
    (others : ∀ cell ∈ comments, cell.kind = .comment) : significant (cell :: comments) = [cell] := by
  rw [significant_cons_of_ne met, significant_eq_nil others]

/-- The next token that is not a comment is reached from every token but the last. -/
theorem forwardSignificant_eq {s : TokenStream} (sound : s.Sound) (more : s.current.kind ≠ .endOfFile) :
    ∃ comments t, forwardSignificant s = .ok true t ∧ Steps s (s.current :: comments) t ∧
      (∀ cell ∈ comments, cell.kind = .comment) ∧ t.Rests := by
  obtain ⟨t, moves, first⟩ := forward_eq sound more
  obtain ⟨comments, u, settles, second, others, rests⟩ := settle_eq first.sound
  refine ⟨comments, u, ?_, first.trans second, others, rests⟩
  simp [forwardSignificant, bind, EStateM.bind, moves, settles, pure, EStateM.pure]

theorem advance_eq {s : TokenStream} (sound : s.Sound) (more : s.current.kind ≠ .endOfFile) :
    ∃ comments t, advance s = .ok s.current t ∧ Steps s (s.current :: comments) t ∧
      (∀ cell ∈ comments, cell.kind = .comment) ∧ t.Rests := by
  obtain ⟨comments, t, moves, steps, others, rests⟩ := forwardSignificant_eq sound more
  refine ⟨comments, t, ?_, steps, others, rests⟩
  simp [advance, bind, EStateM.bind, get_ok, more, orReturn, moves, discard, Functor.discard, Functor.mapConst,
    EStateM.map, pure, EStateM.pure]

end TokenStream

end TolerantParser
