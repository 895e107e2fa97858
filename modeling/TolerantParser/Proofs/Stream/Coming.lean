import TolerantParser.Proofs.Stream.Sessions
import TolerantParser.Proofs.Stream.Recast

/-!
What is still to come in a stream. A token has its number before it is read, so a stream that reads on demand is a
whole document all along (`whole`), and whoever looks around in it or goes on changes no token of it (`Revisits`).
The tokens from the cursor on that are not comments are those that a search goes over (`coming`): each move to the next
one takes the first of them away.

Streams that end with the end of the file and have their cursor on a token that is no comment are closed under all of
this (`Usable`), and every use of a stream over the tokens of a text leads to one of them.
-/

namespace TolerantParser.TokenStream

variable {α β : Type} {s t u : TokenStream}

/-! ### The document as it is going to be -/

/-- All tokens in document order, those that have not been read yet with the numbers they are going to have. -/
def whole (s : TokenStream) : List Cell := s.drained.document

/-- The tokens from the cursor on that are not comments, whether they have been read or not. -/
def coming (s : TokenStream) : List Cell := significant (s.drained.current :: s.drained.ahead)

/-- Tokens may have been read and the cursor may have moved. No token has changed, none has come or gone, and each
stands where it stood. -/
structure Revisits (s t : TokenStream) : Prop where
  serial : t.serial = s.serial
  dialect : t.dialect = s.dialect
  document : s.document <+: t.document
  whole : t.whole = s.whole
  total : t.total = s.total

theorem whole_eq (s : TokenStream) :
    s.whole = s.document ++ (s.unread.zipIdx s.size).map fun (token, index) => (⟨token, index⟩ : Cell) := by
  simp [whole, drained, document]

theorem whole_tokens (s : TokenStream) : s.whole.map Cell.toToken = s.tokens := by
  rw [whole_eq, List.map_append, List.map_map, tokens]
  simp [Function.comp_def, ← List.unzip_fst]

theorem whole_at_place (s : TokenStream) : s.whole[s.place]? = some s.current := by
  have within := (List.getElem?_eq_some_iff.1 s.document_at_place).1
  rw [whole_eq, List.getElem?_append_left within, document_at_place]

theorem drop_whole (s : TokenStream) : s.whole.drop s.place = s.drained.current :: s.drained.ahead := by
  have length : s.place = s.drained.behind.reverse.length := by simp [place, drained]
  rw [whole, document, length, List.drop_left]

theorem coming_eq (s : TokenStream) : s.coming = significant (s.whole.drop s.place) := by
  rw [coming, drop_whole]

theorem total_drained (s : TokenStream) : s.drained.size = s.total := by
  simp [drained, total]

namespace Revisits

theorem refl (s : TokenStream) : Revisits s s := ⟨rfl, rfl, List.prefix_refl _, rfl, rfl⟩

theorem trans (first : Revisits s t) (second : Revisits t u) : Revisits s u :=
  ⟨second.serial.trans first.serial, second.dialect.trans first.dialect, first.document.trans second.document,
    second.whole.trans first.whole, second.total.trans first.total⟩

theorem tokens (revisits : Revisits s t) : t.tokens = s.tokens := by
  rw [← whole_tokens, ← whole_tokens, revisits.whole]

theorem reads (revisits : Revisits s t) (numbered : t.Numbered) : Reads s t :=
  ⟨revisits.dialect, revisits.tokens, revisits.document, revisits.total, numbered⟩

/-- A stream whose cursor is where it was is the same one, except that more may have been read. -/
theorem drained_eq (revisits : Revisits s t) (stays : t.place = s.place) : t.drained = s.drained := by
  have parts : t.drained.behind.reverse ++ t.drained.current :: t.drained.ahead =
      s.drained.behind.reverse ++ s.drained.current :: s.drained.ahead := revisits.whole
  have length : t.drained.behind.reverse.length = s.drained.behind.reverse.length := by
    simpa [place, drained] using stays
  obtain ⟨behind, rest⟩ := List.append_inj parts length
  obtain ⟨current, ahead⟩ := List.cons.inj rest
  have size : t.drained.size = s.drained.size := by rw [total_drained, total_drained, revisits.total]
  show (⟨t.serial, t.dialect, t.drained.behind, t.drained.current, t.drained.ahead, [], t.drained.size⟩ : TokenStream) =
    ⟨s.serial, s.dialect, s.drained.behind, s.drained.current, s.drained.ahead, [], s.drained.size⟩
  rw [revisits.serial, revisits.dialect, List.reverse_inj.1 behind, current, ahead, size]

end Revisits

/-! ### Looking around and moving -/

/-- The steps look around or move. Unless they are refused, they change no token. -/
structure Looks (f : StreamM α) : Prop where
  revisits {s t : TokenStream} {value : α} : f s = .ok value t → Revisits s t

variable {f : StreamM α} {k : α → StreamM β}

theorem looks_pure (value : α) : Looks (pure value : StreamM α) where
  revisits done := by
    cases done
    exact .refl _

theorem looks_get : Looks (get : StreamM TokenStream) where
  revisits done := by
    cases done
    exact .refl _

theorem Looks.bind (first : Looks f) (next : ∀ value, Looks (k value)) : Looks (f >>= k) where
  revisits done := by
    obtain ⟨value, u, begins, goesOn⟩ := bind_eq_ok done
    exact (first.revisits begins).trans ((next value).revisits goesOn)

theorem revisits_seek (s : TokenStream) (index : Nat) : Revisits s (s.seek index) := by
  obtain ⟨dialect, unread, size⟩ := s.seek_frame index
  have document := s.document_seek index
  refine ⟨?_, dialect, document ▸ List.prefix_refl _, by rw [whole_eq, whole_eq, document, unread, size], by
    rw [total, total, unread, size]⟩
  unfold seek
  split
  · rfl
  · split <;> rfl

theorem looks_seek (index : Nat) : Looks (modify (·.seek index) : StreamM PUnit) where
  revisits done := by
    cases done
    exact revisits_seek _ index

theorem Looks.lookAround (looks : Looks f) : Looks (lookAround f) where
  revisits {s t value} done := by
    unfold TokenStream.lookAround at done
    split at done
    next value u moves =>
      cases done
      exact (looks.revisits moves).trans (revisits_seek u s.current.index)
    next => cases done

/-- A token that is read has had its number before. -/
theorem revisits_read {token : Token} {unread : List Token} (waiting : s.unread = token :: unread)
    (atEnd : s.ahead = []) :
    Revisits s { s with
      behind := s.current :: s.behind, current := ⟨token, s.size⟩, unread, size := s.size + 1 } := by
  refine ⟨rfl, rfl, by simp [document, atEnd], ?_, ?_⟩
  · simp [whole_eq, document, atEnd, waiting]
  · rw [total, total, waiting, List.length_cons]
    exact Nat.add_right_comm ..

theorem revisits_pass {behind : List Cell} {current : Cell} {ahead : List Cell}
    (same : behind.reverse ++ current :: ahead = s.document) : Revisits s { s with behind, current, ahead } := by
  have document : TokenStream.document { s with behind, current, ahead } = s.document := same
  exact ⟨rfl, rfl, document ▸ List.prefix_refl _, by rw [whole_eq, whole_eq, document], rfl⟩

theorem looks_forward : Looks forward where
  revisits {s t value} done := by
    unfold forward at done
    split at done
    next cell ahead next =>
      cases done
      exact revisits_pass (by simp [document, next])
    next atEnd =>
      split at done
      next nothing =>
        cases done
        exact .refl s
      next token unread waiting =>
        split at done
        next => cases done
        next =>
          cases done
          exact revisits_read waiting atEnd

theorem revisits_readPastComments (unread : List Token) {s any t : TokenStream} (atEnd : s.ahead = [])
    (same : s = { any with unread }) (done : any.readPastComments unread = .ok () t) : Revisits s t := by
  induction unread generalizing s any with
  | nil =>
    cases done
    exact same ▸ .refl _
  | cons token unread ih =>
    have current : any.current = s.current := by rw [same]
    rw [readPastComments] at done
    split at done
    next comment =>
      split at done
      next => cases done
      next =>
        have read := revisits_read (s := s) (by rw [same]) atEnd
        exact read.trans (ih (by exact atEnd) (by rw [same]) done)
    next =>
      cases done
      exact same ▸ .refl _

theorem looks_settle : Looks settle where
  revisits {s t value} done := by
    have passed := document_passComments s.behind s.current s.ahead
    unfold settle at done
    generalize passComments s.behind s.current s.ahead = place at done passed
    obtain ⟨behind, current, ahead⟩ := place
    have between := revisits_pass (s := s) passed
    dsimp only at done
    split at done
    next atEnd => exact between.trans (revisits_readPastComments _ (List.isEmpty_iff.1 atEnd) rfl done)
    next =>
      cases done
      exact between

theorem looks_forwardSignificant : Looks forwardSignificant := by
  refine looks_forward.bind fun moved => ?_
  split
  · exact looks_settle.bind fun _ => looks_pure true
  · exact looks_pure false

theorem looks_following? (index : Nat) : Looks (following? index) := by
  refine Looks.lookAround ((looks_seek index).bind fun _ => looks_forwardSignificant.bind fun moved => ?_)
  split
  · exact looks_get.bind fun _ => looks_pure _
  · exact looks_pure none

/-! ### Streams that can be searched -/

/-- The numbers of the tokens are in order, the cursor is on a token that is no comment, and the last token ends the
file. -/
structure Usable (s : TokenStream) : Prop where
  numbered : s.Numbered
  rests : s.Rests
  ended : EndsFile s.tokens

theorem Sound.usable (sound : s.Sound) (rests : s.Rests) : s.Usable := by
  refine ⟨sound.toNumbered, rests, ?_⟩
  obtain ⟨before, kinds, -⟩ := sound.ended
  have last := congrArg List.getLast? kinds
  rw [List.getLast?_map, List.getLast?_concat, Option.map_eq_some_iff] at last
  exact last

/-- Comments in front of a token do not count. -/
theorem significant_drop_comments (cells : List Cell) :
    significant (cells.drop (commentsInFront (cells.map Cell.toToken))) = significant cells := by
  induction cells with
  | nil => rfl
  | cons cell rest ih =>
    cases rest with
    | nil => rfl
    | cons next rest =>
      rw [List.map_cons, List.map_cons, commentsInFront]
      split
      next comment =>
        have passed : significant (cell :: next :: rest) = significant (next :: rest) :=
          List.filter_cons_of_neg (by simpa using comment)
        rw [List.drop_succ_cons, passed]
        exact ih
      next => rfl

namespace Usable

theorem coming_cons (usable : s.Usable) : s.coming = s.current :: significant (s.whole.drop (s.place + 1)) := by
  obtain ⟨within, here⟩ := List.getElem?_eq_some_iff.1 s.whole_at_place
  rw [coming_eq, List.drop_eq_getElem_cons within, here]
  exact List.filter_cons_of_pos (bne_iff_ne.2 usable.rests)

/-- Only at the end of the file is there nowhere to go. -/
theorem more (usable : s.Usable) (inside : s.current.kind ≠ .endOfFile) : s.place + 1 < s.tokens.length := by
  by_contra last
  obtain ⟨token, listed, ends⟩ := usable.ended
  have here := s.tokens_at_place
  have within := (List.getElem?_eq_some_iff.1 here).1
  have final : s.tokens.length - 1 = s.place := by omega
  rw [Option.mem_def, List.getLast?_eq_getElem?, final, here] at listed
  obtain rfl := Option.some.inj listed
  exact inside ends

/-- Going to the next token that is no comment takes the first of the tokens to come away. -/
theorem forwardSignificant (usable : s.Usable) (inside : s.current.kind ≠ .endOfFile) :
    ∃ t, forwardSignificant s = .ok true t ∧ Revisits s t ∧ t.Usable ∧ s.coming = s.current :: t.coming := by
  obtain ⟨t, moves, reads, place⟩ := usable.numbered.forwardSignificant
  have more := usable.more inside
  have revisits := looks_forwardSignificant.revisits moves
  rw [decide_eq_true more] at moves
  rw [placeBehind, if_pos more, restingPlace] at place
  have ended : EndsFile t.tokens := by
    rw [reads.tokens]
    exact usable.ended
  have stands : Stands t.tokens t.place := by
    rw [reads.tokens, place]
    exact stands_restingPlace usable.ended more
  refine ⟨t, moves, revisits, ⟨reads.numbered, current_of_stands rfl stands, ended⟩, ?_⟩
  have skips : t.whole.drop t.place = (s.whole.drop (s.place + 1)).drop
      (commentsInFront ((s.whole.drop (s.place + 1)).map Cell.toToken)) := by
    rw [revisits.whole, place, List.drop_drop, List.map_drop, whole_tokens]
  rw [usable.coming_cons, coming_eq t, skips, significant_drop_comments]

/-- Consuming the token at the cursor. -/
theorem advance (usable : s.Usable) (inside : s.current.kind ≠ .endOfFile) :
    ∃ t, advance s = .ok s.current t ∧ Revisits s t ∧ t.Usable ∧ s.coming = s.current :: t.coming := by
  obtain ⟨t, moves, revisits, rested, coming⟩ := usable.forwardSignificant inside
  refine ⟨t, ?_, revisits, rested, coming⟩
  simp [TokenStream.advance, bind, EStateM.bind, get_ok, inside, TokenStream.orReturn, moves, discard,
    Functor.discard, Functor.mapConst, EStateM.map, pure, EStateM.pure]

/-- There is room for all tokens to come. -/
theorem coming_length_le (usable : s.Usable) : s.coming.length ≤ s.total := by
  calc s.coming.length ≤ s.whole.length := by
        rw [coming_eq]
        exact (List.length_filter_le ..).trans (by simp)
    _ = s.document.length + s.unread.length := by simp [whole_eq]
    _ ≤ s.total := Nat.add_le_add_right usable.numbered.document_length_le _

/-- What is done elsewhere in the document does not matter once the cursor is back. -/
theorem of_drained (usable : s.Usable) (numbered : t.Numbered) (same : t.drained = s.drained) : t.Usable := by
  have whole : t.whole = s.whole := congrArg TokenStream.document same
  refine ⟨numbered, ?_, ?_⟩
  · have here : t.drained.current = s.drained.current := by rw [same]
    rw [Rests, show t.current = s.current from here]
    exact usable.rests
  · rw [← whole_tokens, whole, whole_tokens]
    exact usable.ended

end Usable

/-- Looking for the token behind another one leaves the stream as it is. -/
theorem Usable.following? (usable : s.Usable) (index : Nat) :
    ∃ after t, following? index s = .ok after t ∧ Revisits s t ∧ t.Usable ∧ t.drained = s.drained := by
  have gone := usable.numbered.seek_reads index
  obtain ⟨t, moves, reads, -⟩ := gone.numbered.forwardSignificant
  have looked : ∃ after, (do
      modify (·.seek index)
      if ← TokenStream.forwardSignificant then return some (← get).current
      return none : StreamM (Option Cell)) s = .ok after t := by
    simp only [bind, EStateM.bind, modify_ok, moves]
    split <;> exact ⟨_, rfl⟩
  obtain ⟨after, looked⟩ := looked
  obtain ⟨u, looks, -, back, stays⟩ := (gone.trans reads).look looked
  have revisits := (looks_following? index).revisits looks
  have same := revisits.drained_eq stays
  exact ⟨after, u, looks, revisits, usable.of_drained back.numbered same, same⟩

/-! ### Any use of a stream -/

theorem usable_of_shows {lexed : List Token} {user : StreamUser} {reader : ListReader} (shows : Shows user reader)
    (kept : reader.Kept lexed) : user.stream.Usable := by
  refine ⟨shows.numbered, current_of_stands shows.tokens (shows.place ▸ kept.place), ?_⟩
  rw [shows.tokens]
  exact kept.ended.endsFile

/-- A stream over the tokens of a text can be searched, whatever use has been made of it. -/
theorem usable_after (serial : Nat) (d : Dialect) (onDemand : Bool) (text : String) :
    ∃ s, ofTokens serial d onDemand (lex d text) = .ok s ∧
      ∀ uses, ((StreamUser.start s).after uses).stream.Usable := by
  have genuine := genuine_lex d text
  have ended := endsOnce_lex d text
  have whole : throughEnd (lex d text) = lex d text := throughEnd_eq ended
  have nonempty : throughEnd (lex d text) ≠ [] := by
    rw [whole]
    exact fun nothing => ended.ne_nil (by rw [nothing]; rfl)
  obtain ⟨s, opens, numbered, full, dialect, tokens, fresh⟩ :=
    ofTokens_numbered serial onDemand (fun token member => (genuine token member).defined) nonempty
  have kept : (ListReader.start s.dialect s.tokens).Kept (lex d text) := by
    rw [tokens, whole]
    exact ListReader.kept_start ended fun token member => (genuine token member).real
  exact ⟨s, opens, fun uses => usable_of_shows ((shows_start numbered full fresh).after uses) (kept.after uses)⟩

end TolerantParser.TokenStream
