import TolerantParser.Proofs.Stream.Reading
import TolerantParser.Proofs.Token.Order
import TolerantParser.Recovery.Basic

/-!
Searching and putting tokens in. A search stays where it found what it looked for, and else leaves the
cursor where it was; what it hands over are the significant tokens between the two places. A token that
is put in takes over the lead of the token behind it, which is no comment (`Mends`). It has no text of its
own, so the text that the stream was cut from stays the same (`sourceOf`), and since only names are put in,
so do the kinds of the tokens that are neither names nor comments (`skeletonOf`).
-/

namespace TolerantParser

/-- The text that tokens were cut from, in which those put in have no part. -/
def sourceOf (tokens : List Token) : List Char :=
  tokens.flatMap fun token => token.lead.toList ++ if token.synthetic then [] else token.text.toList

/-- The kinds of the tokens that repair cannot put in and the parser meets. -/
def skeletonOf (tokens : List Token) : List TokenKind :=
  (tokens.map (·.kind)).filter fun kind => kind != .name && kind != .comment

/-- Block layout takes no room in the text. -/
def BareLayout (tokens : List Token) : Prop :=
  ∀ token ∈ tokens, token.kind.isLayout → token.text = "" ∧ token.lead = ""

theorem bareLayout_cons {token : Token} {tokens : List Token} : BareLayout (token :: tokens) ↔
    (token.kind.isLayout → token.text = "" ∧ token.lead = "") ∧ BareLayout tokens := List.forall_mem_cons

@[simp] theorem sourceOf_append (tokens more : List Token) :
    sourceOf (tokens ++ more) = sourceOf tokens ++ sourceOf more := by
  simp [sourceOf]

@[simp] theorem skeletonOf_append (tokens more : List Token) :
    skeletonOf (tokens ++ more) = skeletonOf tokens ++ skeletonOf more := by
  simp [skeletonOf]

/-! ### Tokens with names put in -/

/-- The name that is put in in front of a token. -/
def missingBefore (token : Token) : Token := (TokenStream.placeholder ⟨token, 0⟩ .name missingName 0).toToken

/-- Names have been put in, each in front of a token that is not a comment and whose lead it has taken over. -/
inductive Mends : List Token → List Token → Prop
  | nil : Mends [] []
  | keep (token : Token) {tokens mended : List Token} : Mends tokens mended → Mends (token :: tokens) (token :: mended)
  | mend {token : Token} {tokens mended : List Token} : token.kind ≠ .comment →
      Mends ({ token with lead := "" } :: tokens) mended → Mends (token :: tokens) (missingBefore token :: mended)

/-- A text in front of the first token. -/
def giveLead (lead : String) : List Token → List Token
  | [] => []
  | token :: rest => { token with lead := lead ++ token.lead } :: rest

/-- Tokens without those that were put in. What such a token leads with goes back to the one behind it. -/
def unmended : List Token → List Token
  | [] => []
  | token :: rest => if token.synthetic then giveLead token.lead (unmended rest) else token :: unmended rest

namespace Mends

variable {tokens mended more : List Token}

/-- What holds of the kinds and texts of the tokens and of a missing name holds when names have been put in. -/
theorem forall_mem (mends : Mends tokens mended) (holds : TokenKind → String → Prop)
    (all : ∀ token ∈ tokens, holds token.kind token.text) (missing : holds .name missingName) :
    ∀ token ∈ mended, holds token.kind token.text := by
  induction mends with
  | nil => exact List.forall_mem_nil _
  | keep token _ ih =>
    rw [List.forall_mem_cons] at all ⊢
    exact ⟨all.1, ih all.2⟩
  | mend _ _ ih =>
    rw [List.forall_mem_cons] at all ⊢
    exact ⟨missing, ih (List.forall_mem_cons.2 ⟨all.1, all.2⟩)⟩

theorem refl (tokens : List Token) : Mends tokens tokens := by
  induction tokens with
  | nil => exact .nil
  | cons token rest ih => exact .keep token ih

theorem insert (before : List Token) {token : Token} (met : token.kind ≠ .comment) (after : List Token) :
    Mends (before ++ token :: after) (before ++ missingBefore token :: { token with lead := "" } :: after) := by
  induction before with
  | nil => exact .mend met (.refl _)
  | cons first before ih => exact .keep first ih

/-- Names that are put in in front of others stand in front of the same token. -/
theorem trans (first : Mends tokens mended) (second : Mends mended more) : Mends tokens more := by
  induction second generalizing tokens with
  | nil => exact first
  | keep token _ ih =>
    cases first with
    | keep _ rest => exact .keep token (ih rest)
    | mend met rest => exact .mend met (ih rest)
  | mend met _ ih =>
    cases first with
    | keep token rest => exact .mend met (ih (.keep _ rest))
    | mend met' rest => exact .mend met' (ih (.mend met' rest))

theorem append_left (before : List Token) (mends : Mends tokens mended) :
    Mends (before ++ tokens) (before ++ mended) := by
  induction before with
  | nil => exact mends
  | cons token before ih => exact .keep token ih

/-- Without the names that were put in the tokens are those there have been. -/
theorem unmended_eq (mends : Mends tokens mended) (real : ∀ token ∈ tokens, token.synthetic = false) :
    unmended mended = tokens := by
  induction mends with
  | nil => rfl
  | keep token _ ih =>
    rw [List.forall_mem_cons] at real
    rw [unmended, if_neg (by simp [real.1]), ih real.2]
  | @mend token _ _ _ _ ih =>
    rw [unmended, if_pos (show (missingBefore token).synthetic from rfl),
      ih (List.forall_mem_cons.2 (List.forall_mem_cons.1 real))]
    show { token with lead := token.lead ++ "" } :: _ = _
    rw [String.append_empty]

theorem source (mends : Mends tokens mended) : sourceOf mended = sourceOf tokens := by
  induction mends with
  | nil => rfl
  | keep token _ ih => exact congrArg (_ ++ ·) ih
  | @mend token tokens mended met _ ih =>
    rw [sourceOf, List.flatMap_cons]
    rw [sourceOf, sourceOf, List.flatMap_cons] at ih
    rw [ih, sourceOf, List.flatMap_cons]
    simp [missingBefore, TokenStream.placeholder]

theorem skeleton (mends : Mends tokens mended) : skeletonOf mended = skeletonOf tokens := by
  induction mends with
  | nil => rfl
  | keep token _ ih =>
    show skeletonOf ([token] ++ _) = skeletonOf ([token] ++ _)
    rw [skeletonOf_append, skeletonOf_append, ih]
  | mend met _ ih => simpa [skeletonOf, missingBefore, TokenStream.placeholder, List.filter_cons] using ih

theorem bare (mends : Mends tokens mended) (bare : BareLayout tokens) : BareLayout mended := by
  induction mends with
  | nil => exact bare
  | keep token _ ih =>
    rw [bareLayout_cons] at bare ⊢
    exact ⟨bare.1, ih bare.2⟩
  | mend met _ ih =>
    rw [bareLayout_cons] at bare
    exact bareLayout_cons.2 ⟨nofun, ih (bareLayout_cons.2 ⟨fun layout => ⟨(bare.1 layout).1, rfl⟩, bare.2⟩)⟩

/-- What is put in takes the place of the token behind it. -/
theorem first_of_mem (mends : Mends tokens mended) : ∀ token ∈ mended, ∃ old ∈ tokens, old.first = token.first := by
  induction mends with
  | nil => exact List.forall_mem_nil _
  | keep token _ ih =>
    refine List.forall_mem_cons.2 ⟨⟨token, List.mem_cons_self, rfl⟩, fun other member => ?_⟩
    obtain ⟨old, listed, same⟩ := ih other member
    exact ⟨old, List.mem_cons_of_mem _ listed, same⟩
  | @mend token _ _ _ _ ih =>
    refine List.forall_mem_cons.2 ⟨⟨token, List.mem_cons_self, rfl⟩, fun other member => ?_⟩
    obtain ⟨old, listed, same⟩ := ih other member
    rcases List.mem_cons.1 listed with rfl | listed
    · exact ⟨token, List.mem_cons_self, same⟩
    · exact ⟨old, List.mem_cons_of_mem _ listed, same⟩

theorem spaced (mends : Mends tokens mended) (spaced : Spaced tokens) : Spaced mended := by
  induction mends with
  | nil => exact spaced
  | @keep token _ _ mends ih =>
    obtain ⟨apart, stretches⟩ := spaced
    rw [List.pairwise_cons] at apart
    rw [List.forall_mem_cons] at stretches
    have rest := ih ⟨apart.2, stretches.2⟩
    refine ⟨List.pairwise_cons.2 ⟨fun other member => ?_, rest.apart⟩,
      List.forall_mem_cons.2 ⟨stretches.1, rest.stretches⟩⟩
    obtain ⟨old, listed, same⟩ := mends.first_of_mem other member
    exact same ▸ apart.1 old listed
  | @mend token _ _ met mends ih =>
    obtain ⟨apart, stretches⟩ := spaced
    rw [List.pairwise_cons] at apart
    rw [List.forall_mem_cons] at stretches
    have rest := ih ⟨List.pairwise_cons.2 apart,
      List.forall_mem_cons.2 ⟨⟨stretches.1.le, stretches.1.lt⟩, stretches.2⟩⟩
    refine ⟨List.pairwise_cons.2 ⟨fun other member => ?_, rest.apart⟩,
      List.forall_mem_cons.2 ⟨⟨le_refl token.first, fun _ other => absurd rfl other⟩, rest.stretches⟩⟩
    obtain ⟨old, listed, same⟩ := mends.first_of_mem other member
    rw [← same]
    rcases List.mem_cons.1 listed with rfl | listed
    · exact le_refl token.first
    · exact stretches.1.le.trans (apart.1 old listed)

/-- What was put in are the names for missing ones. -/
theorem missing (mends : Mends tokens mended) (real : ∀ token ∈ tokens, token.synthetic = false) :
    ∀ token ∈ mended, token.synthetic → token.kind = .name ∧ token.text = missingName := by
  induction mends with
  | nil => exact List.forall_mem_nil _
  | keep token _ ih =>
    rw [List.forall_mem_cons] at real ⊢
    refine ⟨fun put => ?_, ih real.2⟩
    rw [real.1] at put
    cases put
  | mend _ _ ih =>
    rw [List.forall_mem_cons] at real ⊢
    exact ⟨fun _ => ⟨rfl, rfl⟩, ih (List.forall_mem_cons.2 ⟨real.1, real.2⟩)⟩

/-- How many tokens were put in. -/
def puts (tokens : List Token) : Nat := tokens.countP (·.synthetic)

end Mends

/-! ### Names in front of tokens -/

/-- The first token stands in front of the other one, and all that is between was put in. -/
def StandsBefore (cells : List Cell) (cell bearer : Cell) : Prop :=
  ∃ before between after, cells = before ++ cell :: (between ++ bearer :: after) ∧
    ∀ other ∈ between, other.synthetic

/-- A token that was put in stands in front of another one, by their numbers. If `calm` holds that one was read from a
text. -/
def StandsBeforeAt (calm : Prop) (cells : List Cell) (name place : Nat) : Prop :=
  ∃ cell bearer, StandsBefore cells cell bearer ∧ cell.index = name ∧ bearer.index = place ∧ cell.synthetic ∧
    (calm → bearer.synthetic = false)

section

variable {calm calmer : Prop} {cells before : List Cell} {cell placed now : Cell} {name place : Nat}

theorem StandsBefore.mem {bearer : Cell} (stands : StandsBefore cells cell bearer) : cell ∈ cells ∧ bearer ∈ cells := by
  obtain ⟨before, between, after, rfl, -⟩ := stands
  simp

/-- The tokens are exchanged for others, which were put in as well if they were. -/
theorem StandsBefore.map {bearer : Cell} {f : Cell → Cell} (stands : StandsBefore cells cell bearer)
    (same : ∀ cell ∈ cells, (f cell).synthetic = cell.synthetic) : StandsBefore (cells.map f) (f cell) (f bearer) := by
  obtain ⟨before, between, after, rfl, filled⟩ := stands
  refine ⟨before.map f, between.map f, after.map f, by simp, List.forall_mem_map.2 fun other member => ?_⟩
  rw [same other (by simp [member])]
  exact filled other member

theorem StandsBeforeAt.mono (stands : StandsBeforeAt calm cells name place) (weaker : calmer → calm) :
    StandsBeforeAt calmer cells name place := by
  obtain ⟨cell, bearer, stands, index, host, put, real⟩ := stands
  exact ⟨cell, bearer, stands, index, host, put, real ∘ weaker⟩

/-- Tokens further on make no difference. -/
theorem StandsBeforeAt.append (stands : StandsBeforeAt calm cells name place) (more : List Cell) :
    StandsBeforeAt calm (cells ++ more) name place := by
  obtain ⟨cell, bearer, ⟨before, between, after, split, filled⟩, others⟩ := stands
  exact ⟨cell, bearer, ⟨before, between, after ++ more, by simp [split], filled⟩, others⟩

/-- Where one more token is put in, it is between at most. -/
theorem StandsBeforeAt.insert (stands : StandsBeforeAt calm (before ++ [cell]) name place) (put : placed.synthetic)
    (index : now.index = cell.index) (same : now.synthetic = cell.synthetic) :
    StandsBeforeAt calm (before ++ [placed, now]) name place := by
  obtain ⟨first, bearer, ⟨front, between, after, split, filled⟩, number, host, named, real⟩ := stands
  rcases List.eq_nil_or_concat after with rfl | ⟨after, last, rfl⟩
  · have parts : before ++ [cell] = (front ++ first :: between) ++ [bearer] := by simpa using split
    obtain ⟨rfl, here⟩ := List.append_inj' parts rfl
    obtain rfl := List.singleton_inj.1 here
    refine ⟨first, now, ⟨front, between ++ [placed], [], by simp, ?_⟩, number, index.trans host, named, ?_⟩
    · exact List.forall_mem_append.2 ⟨filled, List.forall_mem_singleton.2 put⟩
    · exact fun calm => same.trans (real calm)
  · have parts : before ++ [cell] = (front ++ first :: (between ++ bearer :: after)) ++ [last] := by simpa using split
    obtain ⟨rfl, -⟩ := List.append_inj' parts rfl
    exact ⟨first, bearer, ⟨front, between, after ++ [placed, now], by simp, filled⟩, number, host, named, real⟩

/-- The token that is put in stands in front of the one that it was put in for. -/
theorem standsBeforeAt_insert (put : placed.synthetic) (real : calm → now.synthetic = false) :
    StandsBeforeAt calm (before ++ [placed, now]) placed.index now.index :=
  ⟨placed, now, ⟨before, [], [], rfl, List.forall_mem_nil _⟩, rfl, rfl, put, real⟩

end

namespace TokenStream

/-! ### Searching -/

/-- A search that finds something ends where it found it. -/
theorem search_found {s t : TokenStream} {steps : StreamM (Option (List Cell))} {cells : List Cell}
    (searches : steps s = .ok (some cells) t) : search steps s = .ok (some cells) t := by
  have looked : orReturn steps s = .ok (some cells) t := by simp [orReturn, searches]
  simp [search, bind, EStateM.bind, get_ok, looked, pure, EStateM.pure]

/-- A search in vain goes back. -/
theorem search_missed {s t : TokenStream} {steps : StreamM (Option (List Cell))} (searches : steps s = .ok none t) :
    search steps s = .ok none (t.seek s.current.index) := by
  have looked : orReturn steps s = .ok none t := by simp [orReturn, searches]
  simp [search, bind, EStateM.bind, get_ok, looked, modify_ok, pure, EStateM.pure]

/-- A search that ends somewhere, having gone over some tokens, leaves the cursor there or goes back. -/
theorem search_eq {s t : TokenStream} {steps : StreamM (Option (List Cell))}
    {found : Option (List Cell)} {moved : List Cell} (searches : steps s = .ok found t)
    (moves : Steps s moved t) (rests : s.Rests) (rested : t.Rests)
    (skipped : ∀ cells, found = some cells → cells = significant moved) :
    ∃ u passed, search steps s = .ok found u ∧ Steps s passed u ∧ u.Rests ∧
      significant passed = found.getD [] ∧ (found.isSome → u = t) := by
  cases found with
  | none =>
    have back := moves.keeps.seek_back
    refine ⟨t.seek s.current.index, [], search_missed searches, back, ?_, rfl, by simp⟩
    rw [Rests, back.current_eq]
    exact rests
  | some cells => exact ⟨t, moved, search_found searches, moves, rested, (skipped cells rfl).symm, fun _ => rfl⟩

/-- What one step of a search adds to the tokens gone over. -/
theorem significant_step {cell : Cell} {comments moved : List Cell} (met : cell.kind ≠ .comment)
    (others : ∀ other ∈ comments, other.kind = .comment) (passed : List Cell) :
    (cell :: passed).reverse ++ significant moved =
      passed.reverse ++ significant (cell :: comments ++ moved) := by
  rw [significant_append, significant_cons_comments met others]
  simp

theorem searchDedent_eq (budget level : Nat) (passed : List Cell) {s : TokenStream} (sound : s.Sound)
    (rests : s.Rests) :
    ∃ moved t found, searchDedent level passed budget s = .ok found t ∧ Steps s moved t ∧ t.Rests ∧
      ∀ skipped, found = some skipped →
        skipped = passed.reverse ++ significant moved ∧ t.current.kind = .dedent := by
  induction budget generalizing level passed s with
  | zero => exact ⟨[], s, none, rfl, .refl sound, rests, by simp⟩
  | succ budget ih =>
    -- every case but the two in which the search ends goes one token on
    have goesOn : ∀ next, s.current.kind ≠ .endOfFile →
        ∃ moved t found, (do
          discard forwardSignificant
          searchDedent next (s.current :: passed) budget : StreamM _) s = .ok found t ∧
          Steps s moved t ∧ t.Rests ∧ ∀ skipped, found = some skipped →
            skipped = passed.reverse ++ significant moved ∧ t.current.kind = .dedent := by
      intro next more
      obtain ⟨comments, t, moves, steps, others, rested⟩ := forwardSignificant_eq sound more
      obtain ⟨moved, u, found, searches, later, rested, parts⟩ :=
        ih next (s.current :: passed) steps.sound rested
      refine ⟨_, u, found, ?_, steps.trans later, rested, ?_⟩
      · exact (bind_ok (discard_ok moves) _).trans searches
      · intro skipped some
        obtain ⟨whole, arrived⟩ := parts skipped some
        exact ⟨whole.trans (significant_step rests others passed), arrived⟩
    rw [searchDedent]
    simp only [bind, EStateM.bind, get_ok]
    cases kind : s.current.kind with
    | endOfFile => exact ⟨[], s, none, rfl, .refl sound, rests, by simp⟩
    | dedent =>
      by_cases outermost : level = 0
      · refine ⟨[], s, some passed.reverse, by simp [outermost, pure, EStateM.pure], .refl sound,
          rests, ?_⟩
        intro skipped some
        obtain rfl := Option.some.inj some
        simp [significant, kind]
      · simpa [outermost, bind, EStateM.bind] using goesOn (level - 1) (by simp [kind])
    | indent => exact goesOn (level + 1) (by simp [kind])
    | _ => exact goesOn level (by simp [kind])

/-- The search for a closing bracket stays in the line and has enough room when it is allowed as many
tokens as are left. -/
theorem searchCloser_eq (wanted : List TokenKind) (bound depth : Nat) (passed : List Cell)
    {s : TokenStream} (sound : s.Sound) (rests : s.Rests) (room : s.kinds.length ≤ bound) :
    ∃ moved t found, searchCloser wanted depth passed bound s = .ok found t ∧ Steps s moved t ∧
      t.Rests ∧ ∀ skipped, found = some skipped →
        skipped = passed.reverse ++ significant moved ∧ t.current.kind ∈ wanted ∧
          ∀ cell ∈ significant moved, cell.kind ≠ .newline ∧ cell.kind ≠ .endOfFile := by
  induction bound generalizing depth passed s with
  | zero =>
    obtain ⟨rest, kinds⟩ := kinds_eq_cons rests
    simp [kinds] at room
  | succ bound ih =>
    rw [searchCloser]
    simp only [bind, EStateM.bind, get_ok]
    split
    · exact ⟨[], s, none, rfl, .refl sound, rests, by simp⟩
    next inLine =>
      simp only [Bool.or_eq_true, beq_iff_eq, not_or] at inLine
      split
      next arrived =>
        refine ⟨[], s, some passed.reverse, rfl, .refl sound, rests, ?_⟩
        intro skipped some
        obtain rfl := Option.some.inj some
        simp only [Bool.and_eq_true, List.contains_iff_mem] at arrived
        exact ⟨by simp [significant], arrived.2, by simp [significant]⟩
      next =>
        obtain ⟨comments, t, moves, steps, others, rested⟩ := forwardSignificant_eq sound inLine.2
        have fewer : t.kinds.length ≤ bound := by
          have := steps.kinds_cons rests others
          rw [this, List.length_cons] at room
          omega
        obtain ⟨moved, u, found, searches, later, rested, parts⟩ :=
          ih _ (s.current :: passed) steps.sound rested fewer
        refine ⟨_, u, found, ?_, steps.trans later, rested, ?_⟩
        · exact (bind_ok (discard_ok moves) _).trans searches
        · intro skipped some
          obtain ⟨whole, wantedKind, line⟩ := parts skipped some
          refine ⟨whole.trans (significant_step rests others passed), wantedKind, ?_⟩
          intro cell member
          rw [significant_append, significant_cons_comments rests others] at member
          rcases List.mem_append.1 member with first | later
          · rw [List.mem_singleton.1 first]
            exact inLine
          · exact line cell later

/-! ### How many tokens there are -/

theorem Sound.kinds_length_le {s : TokenStream} (sound : s.Sound) : s.kinds.length ≤ s.total := by
  have short : s.kinds.length ≤ s.upcoming.length := by
    rw [kinds]
    exact Nat.le_trans (List.length_filter_le ..) (by simp)
  have part : s.upcoming.length ≤ s.document.length + s.unread.length := by
    simp only [upcoming, document, List.length_cons, List.length_append, List.length_map,
      List.length_reverse]
    omega
  have := sound.toNumbered.document_length_le
  unfold total
  omega

/-! ### Putting a name in -/

theorem insertMissingName_eq {s : TokenStream} (sound : s.Sound) (rests : s.Rests) (defined : s.dialect.defines .name) :
    ∃ cell t, insertMissingName s = .ok cell t ∧ cell.kind = .name ∧
      t = { s with
        behind := cell :: s.behind, current := { s.current with lead := "" }, size := s.size + 1 } ∧
      t.Sound ∧ cell.synthetic = true ∧ (cell.first = s.current.first ∧ cell.last = s.current.first) ∧
      Mends s.tokens t.tokens ∧ cell.toToken = missingBefore s.current.toToken := by
  have accepted : s.dialect.require .name = .ok () := by simp [Dialect.require, defined]
  refine ⟨placeholder s.current .name missingName s.size, _, ?_, rfl, rfl, ?_, rfl, ⟨rfl, rfl⟩, ?_, rfl⟩
  · rw [insertMissingName, insertHere, accepted]
  · have indices : ∀ t : TokenStream, t = { s with
          behind := placeholder s.current .name missingName s.size :: s.behind
          current := { s.current with lead := "" }, size := s.size + 1 } →
        t.document.map Cell.index =
          s.behind.reverse.map Cell.index ++ s.size :: (s.current :: s.ahead).map Cell.index := by
      rintro t rfl
      simp [document, placeholder]
    have before : s.document.map Cell.index =
        s.behind.reverse.map Cell.index ++ (s.current :: s.ahead).map Cell.index := by
      simp [document]
    have fresh : s.size ∉ s.document.map Cell.index := by
      intro member
      obtain ⟨cell, listed, same⟩ := List.mem_map.1 member
      exact absurd (sound.below cell listed) (by omega)
    refine ⟨?_, ?_, sound.defined, ?_⟩
    · rw [indices _ rfl]
      have permuted : (s.behind.reverse.map Cell.index ++
          s.size :: (s.current :: s.ahead).map Cell.index).Perm (s.size :: s.document.map Cell.index) := by
        rw [before]
        exact List.perm_middle
      exact permuted.nodup_iff.2 (List.nodup_cons.2 ⟨fresh, sound.nodup⟩)
    · intro cell member
      have listed := List.mem_map_of_mem (f := Cell.index) member
      rw [indices _ rfl, List.mem_append, List.mem_cons, or_left_comm, ← List.mem_append, ← before] at listed
      rcases listed with same | old
      · exact same ▸ Nat.lt_succ_self _
      · obtain ⟨other, present, same⟩ := List.mem_map.1 old
        exact same ▸ Nat.lt_succ_of_lt (sound.below other present)
    · have all := sound.ended
      rw [tokens_eq, List.map_append, endsOnce_append (by simp [upcoming])] at all
      rw [tokens_eq, List.map_append, endsOnce_append (by simp [upcoming])]
      refine ⟨?_, all.2⟩
      simpa [placeholder] using all.1
  · rw [tokens_eq, tokens_eq]
    simpa [upcoming, missingBefore, placeholder] using Mends.insert (s.behind.reverse.map Cell.toToken) rests _

end TokenStream

end TolerantParser
