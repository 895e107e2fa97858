import TolerantParser.Proofs.Stream.Storing

/-!
Changes to an arena: a slot is linked in, the supply is read to its end, the slots are told their places, and a fresh
arena is made. Each is what the stream does (`Arena.Stores`).
-/

namespace TolerantParser.Arena

open TokenStream (Revisits Marks)

variable {ordered : List Nat} {a b c : Arena} {s t u : TokenStream}

/-- The arena once a slot has been linked in, in front of the one at the cursor of the stream. -/
def spliced (a : Arena) (s : TokenStream) (cell : Cell) : Arena :=
  linkAfter (s.behind.head?.map Cell.index) s.size (dropLead s.current.index { a with slots := a.slots.push { cell } })

theorem head?_map_ne {cells : List Cell} {index : Nat} (other : ∀ cell ∈ cells, cell.index ≠ index) :
    cells.head?.map Cell.index ≠ some index := by
  intro same
  obtain ⟨cell, first, number⟩ := Option.map_eq_some_iff.1 same
  exact other cell (List.mem_of_head? first) number

namespace Stores

/-! ### Putting a token in -/

/-- The numbers of the tokens at, before and behind the cursor are different. -/
theorem apart (stores : a.Stores ordered s) :
    (∀ cell ∈ s.behind, cell.index ≠ s.current.index) ∧ (∀ cell ∈ s.ahead, cell.index ≠ s.current.index) ∧
      ∀ before ∈ s.behind, ∀ cell ∈ s.ahead, cell.index ≠ before.index := by
  have nodup := stores.numbered.nodup
  rw [TokenStream.document, List.map_append, List.map_cons, List.nodup_append, List.nodup_cons] at nodup
  obtain ⟨-, ⟨notAhead, -⟩, different⟩ := nodup
  refine ⟨fun cell member => ?_, fun cell member same => ?_, fun before earlier cell later => ?_⟩
  · exact different _ (by simpa using ⟨cell, member, rfl⟩) _ (by simp)
  · exact notAhead (same ▸ List.mem_map_of_mem member)
  · have listed := List.mem_cons_of_mem s.current.index
      (List.mem_map_of_mem later : cell.index ∈ s.ahead.map Cell.index)
    exact (different _ (by simpa using ⟨before, earlier, rfl⟩) _ listed).symm

/-- The links that the new slot takes over. -/
theorem spliced_eq (stores : a.Stores ordered s) (cell : Cell) :
    spliced a s cell =
      { a with
        slots :=
          relink
            (relink
              (relink (dropLead s.current.index { a with slots := a.slots.push { cell } }).slots (some s.size)
                fun slot => { slot with prev := s.behind.head?.map Cell.index, next := some s.current.index })
              (some s.current.index) fun slot => { slot with prev := some s.size })
            (s.behind.head?.map Cell.index) fun slot => { slot with next := some s.size }
        head := if s.behind.isEmpty then some s.size else a.head } := by
  cases before : s.behind with
  | nil =>
    have head : a.head = some s.current.index := by
      rw [stores.head, TokenStream.document, before]
      rfl
    simp only [spliced, linkAfter, dropLead, before, List.head?_nil, Option.map_none, head]
    rfl
  | cons previous behind =>
    have parts : s.document = behind.reverse ++ previous :: s.current :: s.ahead := by
      simp [TokenStream.document, before]
    have here := (parts ▸ stores.segment).slot
    have other : s.current.index ≠ previous.index := (stores.apart.1 previous (by simp [before])).symm
    have below : previous.index ≠ a.slots.size := by
      rw [stores.size]
      exact (stores.numbered.below previous (by simp [parts])).ne
    simp [spliced, linkAfter, dropLead, before, other, Array.getElem?_push, below, here]

/-- Slots that are not next to the new one stay as they are. -/
theorem spliced_other (stores : a.Stores ordered s) (cell : Cell) {index : Nat} (older : index ≠ s.size)
    (other : index ≠ s.current.index) :
    (spliced a s cell).slots[index]? =
      (relink a.slots (s.behind.head?.map Cell.index) fun slot => { slot with next := some s.size })[index]? := by
  rw [← stores.size] at older
  simp [stores.spliced_eq, dropLead, Array.getElem?_push, older, other.symm, ← stores.size, older.symm]

/-- The slot in front of which the new one is put. -/
theorem spliced_current (stores : a.Stores ordered s) (cell : Cell) :
    (spliced a s cell).slots[s.current.index]? = some ⟨{ s.current with lead := "" }, some s.size,
      s.ahead.head?.map Cell.index, ordered.idxOf? s.current.index⟩ := by
  have segment : Segment a.slots ordered none (s.behind.reverse ++ s.current :: s.ahead) none := stores.segment
  have here := segment.slot
  rw [Option.or_none] at here
  have notBehind := head?_map_ne stores.apart.1
  have older : s.current.index ≠ a.slots.size := by
    rw [stores.size]
    exact (stores.numbered.below s.current (by simp [TokenStream.document])).ne
  simp [stores.spliced_eq, dropLead, Array.getElem?_push, ← stores.size, notBehind, older, older.symm, here]

/-- The new slot. -/
theorem spliced_new (stores : a.Stores ordered s) (cell : Cell) :
    (spliced a s cell).slots[s.size]? =
      some ⟨cell, s.behind.head?.map Cell.index, some s.current.index, ordered.idxOf? s.size⟩ := by
  have notBehind : s.behind.head?.map Cell.index ≠ some s.size := head?_map_ne fun cell member =>
    (stores.numbered.below cell (by simp [TokenStream.document, member])).ne
  have older : s.current.index ≠ s.size := (stores.numbered.below s.current (by simp [TokenStream.document])).ne
  rw [stores.spliced_eq, stores.fresh]
  simp only [dropLead, getElem?_relink, Array.getElem?_push, stores.size, notBehind, older, Option.some_inj, if_true,
    if_false, Option.map_some]

/-- The new slot is linked in behind the token before the cursor and in front of the token at the cursor. -/
theorem splice (stores : a.Stores ordered s) {cell : Cell} (number : cell.index = s.size) (numbered : t.Numbered)
    (shape : t = { s with
      behind := cell :: s.behind, current := { s.current with lead := "" }, size := s.size + 1 }) :
    Stores ordered (spliced a s cell) t := by
  obtain ⟨before, ahead, crossed⟩ := stores.apart
  obtain ⟨front, -, back⟩ := segment_append.1 stores.segment
  rw [List.head?_cons, Option.map_some, Option.some_or] at front
  have below : ∀ cell ∈ s.document, cell.index ≠ s.size := fun cell member => (stores.numbered.below cell member).ne
  have document : t.document = s.behind.reverse ++ cell :: { s.current with lead := "" } :: s.ahead := by
    simp [shape, TokenStream.document]
  have segment : Segment (spliced a s cell).slots ordered none t.document none := by
    rw [document, segment_append, List.head?_cons, Option.map_some, Option.some_or, Option.or_none,
      List.getLast?_reverse, number]
    refine ⟨?_, ?_, ?_, ?_⟩
    · have nodup : (s.behind.reverse.map Cell.index).Nodup := by
        have nodup := stores.numbered.nodup
        rw [TokenStream.document, List.map_append, List.nodup_append] at nodup
        exact nodup.1
      refine (List.getLast?_reverse (l := s.behind) ▸ front.redirect nodup (some s.size)).frame fun cell member => ?_
      exact stores.spliced_other _ (below cell (by simp [TokenStream.document, List.mem_reverse.1 member]))
        (before cell (List.mem_reverse.1 member))
    · rw [number]
      exact stores.spliced_new cell
    · rw [Option.or_none, number]
      exact stores.spliced_current cell
    · refine back.frame fun other member => ?_
      have notBehind : s.behind.head?.map Cell.index ≠ some other.index := head?_map_ne fun previous earlier =>
        (crossed previous earlier other member).symm
      rw [stores.spliced_other cell (below other (by simp [TokenStream.document, member])) (ahead other member),
        getElem?_relink, if_neg notBehind]
  have full : t.document.length = t.size := by
    have full := stores.full
    rw [TokenStream.document, List.length_append, List.length_cons] at full
    rw [document, List.length_append, List.length_cons, List.length_cons, ← Nat.add_assoc, full, shape]
  rw [stores.spliced_eq] at segment ⊢
  refine ⟨numbered, full, stores.serial.trans (by rw [shape]), stores.dialect.trans (by rw [shape]),
    stores.supply.trans (by rw [shape]), stores.exhausted.trans (by rw [shape]), by rw [shape]; exact stores.ended, ?_,
    segment, ?_, ?_, ?_⟩
  · simp [dropLead, stores.size, shape]
  · rw [document]
    cases first : s.behind with
    | nil => simp [number]
    | cons previous behind => simpa [TokenStream.document, first] using stores.head
  · have last := stores.last
    rw [TokenStream.document] at last
    rw [document]
    cases rest : s.ahead <;> simpa [rest] using last
  · rw [shape]
    exact fun index listed => Nat.lt_succ_of_lt (stores.below index listed)

theorem insertHere (stores : a.Stores ordered s) {kind : TokenKind} (defined : s.dialect.defines kind) (text : String) :
    ∃ cell t, TokenStream.insertHere kind text s = .ok cell t ∧
      (do let index ← synthetic kind text (← Arena.slot s.current.index).cell
          modify (dropLead s.current.index)
          modify (linkAfter (s.behind.head?.map Cell.index) index)
          return index : ArenaM Nat) a = .ok cell.index (spliced a s cell) ∧
      Stores ordered (spliced a s cell) t ∧ TokenStream.Inserted s s.place cell t := by
  have accepted : a.dialect.require kind = .ok () := by simp [Dialect.require, stores.dialect, defined]
  obtain ⟨cell, t, inserts, inserted, -⟩ := stores.numbered.insertHere defined text
  have shape := inserts
  simp only [TokenStream.insertHere, stores.dialect ▸ accepted, EStateM.Result.ok.injEq] at shape
  obtain ⟨same, shape⟩ := shape
  have number : cell.index = s.size := by
    rw [← same]
    rfl
  refine ⟨cell, t, inserts, ?_, stores.splice number inserted.numbered (by rw [← shape, same]), inserted⟩
  rw [number, ← same]
  simp [bind, EStateM.bind, stores.slot_current, synthetic, accepted, stores.size, TokenStream.modify_ok, spliced, pure,
    EStateM.pure]

/-- Where a token is to be put in, the arena finds the slot in front of which the stream has gone. -/
theorem followingIndex (stores : a.Stores ordered s) (after : Option Nat)
    (listed : ∀ number ∈ after, ∃ spot, s.Marks number spot) :
    (∃ t b, TokenStream.goAfter after s = .ok () t ∧ Arena.followingIndex after a = .ok (some t.current.index) b ∧
        Gone ordered a s b t ∧ t.behind.head?.map Cell.index = after) ∨
      ∃ t, TokenStream.goAfter after s = .error .pastEnd t ∧ Arena.followingIndex after a = .ok none a ∧
        Gone ordered a s a t := by
  cases after with
  | none =>
    obtain ⟨first, rest, -, goes, head, gone⟩ := stores.first
    exact .inl ⟨s.rewindToFirst, a, rfl, by rw [goes, ← head]; rfl, goes ▸ gone, by rw [goes]; rfl⟩
  | some number =>
    obtain ⟨spot, marks⟩ := listed number rfl
    have sought := stores.seek number
    rcases sought.stores.nextIndex with ⟨t, b, moves, next, behind, gone⟩ | ⟨stops, next, -⟩
    · rw [stores.current_seek marks] at next
      refine .inl ⟨t, b, ?_, next, sought.trans gone, ?_⟩
      · simp [TokenStream.goAfter, bind, EStateM.bind, TokenStream.modify_ok, moves, pure, EStateM.pure]
      · rw [behind, List.head?_cons, Option.map_some, stores.current_seek marks]
    · rw [stores.current_seek marks] at next
      refine .inr ⟨_, ?_, next, sought⟩
      simp [TokenStream.goAfter, bind, EStateM.bind, TokenStream.modify_ok, stops, TokenStream.throw_error]

/-- A token is put in, or refused, by the arena as by the stream. -/
theorem insert (stores : a.Stores ordered s) (after : Option Nat)
    (listed : ∀ number ∈ after, ∃ spot, s.Marks number spot) (kind : TokenKind) (text : String) :
    (∃ cell t b, TokenStream.insertAfter after kind text s = .ok cell t ∧
        Arena.insertSynthetic after kind text a = .ok cell.index b ∧ b.Stores ordered t ∧ b.current = a.current ∧
        t.current.index = s.current.index ∧ cell ∈ t.document) ∨
      ∃ fault t b, TokenStream.insertAfter after kind text s = .error fault t ∧
        Arena.insertSynthetic after kind text a = .error fault b ∧ Gone ordered a s b t ∧ t.current = s.current := by
  rw [TokenStream.insertAfter_eq]
  rcases stores.followingIndex after listed with ⟨t, b, goes, finds, gone, behind⟩ | ⟨t, goes, finds, gone⟩
  · by_cases defined : t.dialect.defines kind
    · obtain ⟨cell, u, inserts, links, stored, inserted⟩ := gone.stores.insertHere defined text
      have marks := inserted.marks (gone.reads.marks s.marks_current)
      refine .inl ⟨cell, u.seek s.current.index, _, ?_, ?_, (stored.seek _).stores, ?_, stored.current_seek marks, ?_⟩
      · simp [TokenStream.lookAround, bind, EStateM.bind, goes, inserts]
      · rw [behind] at links
        simpa [insertSynthetic, bind, EStateM.bind, finds] using links
      · exact gone.stays
      · rw [TokenStream.document_seek]
        exact List.mem_of_getElem? inserted.here
    · have refused : t.dialect.require kind = .error (.undefinedKind kind t.dialect) := by
        simp [Dialect.require, defined]
      obtain ⟨back, here⟩ := gone.back
      refine .inr ⟨.undefinedKind kind t.dialect, _, b, ?_, ?_, back, here⟩
      · simp [TokenStream.lookAround, bind, EStateM.bind, goes, TokenStream.insertHere_undefined refused]
      · simp [insertSynthetic, bind, EStateM.bind, finds, gone.stores.slot_current, synthetic, gone.stores.dialect,
          refused]
  · obtain ⟨back, here⟩ := gone.back
    refine .inr ⟨.pastEnd, _, a, ?_, ?_, back, here⟩
    · simp [TokenStream.lookAround, bind, EStateM.bind, goes]
    · simp [insertSynthetic, bind, EStateM.bind, finds, TokenStream.throw_error]

/-! ### The whole document -/

/-- The walk along the links from the slot at the cursor meets what stands from there on, all of it read. -/
theorem walkTokens {bound : Nat} (stores : a.Stores ordered s) (enough : s.ahead.length + s.unread.length < bound) :
    ∃ t b, iterTokens.walk bound (some s.current.index) a = .ok ((s.whole.drop s.place).map Cell.index) b ∧
      Gone ordered a s b t ∧ t.unread = [] := by
  induction bound generalizing a s with
  | zero => omega
  | succ bound ih =>
    obtain ⟨within, here⟩ := List.getElem?_eq_some_iff.1 s.whole_at_place
    rw [List.drop_eq_getElem_cons within, here]
    rcases stores.nextIndex with ⟨t, b, moves, next, behind, gone⟩ | ⟨-, next, ahead, unread⟩
    · have length := s.tokens_length
      have length' := t.tokens_length
      have place : t.place = s.place + 1 := congrArg List.length behind
      rw [gone.revisits.tokens, place] at length'
      obtain ⟨u, c, walks, later, done⟩ := ih gone.stores (by omega)
      refine ⟨u, c, ?_, gone.trans later, done⟩
      rw [gone.revisits.whole, place] at walks
      simp [iterTokens.walk, bind, EStateM.bind, next, walks, pure, EStateM.pure]
    · have rest : s.whole.drop (s.place + 1) = [] := by
        simp [TokenStream.whole_eq, TokenStream.document, TokenStream.place, ahead, unread]
      refine ⟨s, a, ?_, stores.gone, unread⟩
      rw [rest]
      cases bound <;> simp [iterTokens.walk, bind, EStateM.bind, next, pure, EStateM.pure]

/-- An arena that has been read to its end stores the stream that has been read to its end. -/
theorem drained (stores : a.Stores ordered s) (gone : Gone ordered a s b t) (done : t.unread = []) :
    TokenStream.readAll s = .ok () s.drained ∧ Gone ordered a s b s.drained := by
  have reads := TokenStream.readAll_defined stores.numbered.defined
  obtain ⟨u, reads', later, -⟩ := stores.numbered.readAll
  rw [reads, EStateM.Result.ok.injEq] at reads'
  have numbered : s.drained.Numbered := reads'.2 ▸ later.numbered
  have read : t.document = s.whole := by
    rw [← gone.revisits.whole, TokenStream.whole_eq, done]
    simp
  have whole : s.drained.whole = s.whole := by simp [TokenStream.drained, TokenStream.whole]
  have total : s.drained.total = s.total := by rw [← s.total_drained]; rfl
  have between : Revisits t s.drained :=
    ⟨gone.revisits.serial.symm, gone.revisits.dialect.symm, by rw [read]; exact List.prefix_refl _,
      whole.trans gone.revisits.whole.symm, total.trans gone.revisits.total.symm⟩
  exact ⟨reads, gone.stores.moved numbered between done.symm b.current, gone.revisits.trans between, gone.stays⟩

theorem iterTokens (stores : a.Stores ordered s) :
    ∃ t b, TokenStream.finish s = .ok t.document t ∧ Arena.iterTokens a = .ok (t.document.map Cell.index) b ∧
      Gone ordered a s b t ∧ t.current = s.current ∧ t.unread = [] := by
  obtain ⟨first, rest, parts, -, head, gone⟩ := stores.first
  obtain ⟨u, b, walks, later, done⟩ := gone.stores.walkTokens gone.stores.remaining
  obtain ⟨reads, read⟩ := stores.drained (gone.trans later) done
  refine ⟨s.drained, b, TokenStream.bind_ok reads _, ?_, read, rfl, rfl⟩
  have meets := TokenStream.bind_ok (TokenStream.get_ok a) fun a => iterTokens.walk a.bound a.head
  rw [head] at meets
  rw [gone.revisits.whole] at walks
  exact meets.trans walks

/-- The whole supply is taken. -/
theorem pullAll {bound : Nat} (stores : a.Stores ordered s) (atEnd : s.ahead = []) (enough : s.unread.length < bound) :
    ∃ t b, Arena.pullAll bound a = .ok () b ∧ Gone ordered a s b t ∧ t.unread = [] := by
  induction bound generalizing a s with
  | zero => omega
  | succ bound ih =>
    cases waiting : s.unread with
    | nil =>
      have pulls : Arena.pull a = .ok false a := by
        rw [Arena.pull, stores.exhausted, waiting]
        rfl
      refine ⟨s, a, ?_, stores.gone, waiting⟩
      simp [Arena.pullAll, bind, EStateM.bind, pulls, pure, EStateM.pure]
    | cons token unread =>
      have numbered := (stores.numbered.read waiting atEnd).numbered
      obtain ⟨b, pulls, gone⟩ := stores.pull waiting (by simp [TokenStream.document, atEnd]) numbered
        (TokenStream.revisits_read waiting atEnd) rfl rfl
      obtain ⟨t, c, pullsAll, later, done⟩ := ih gone.stores atEnd (by
        rw [waiting, List.length_cons] at enough
        exact Nat.lt_of_succ_lt_succ enough)
      refine ⟨t, c, ?_, gone.trans later, done⟩
      simp [Arena.pullAll, bind, EStateM.bind, pulls, pullsAll]

/-- Once put in order, every token knows its place. -/
theorem finish (stores : a.Stores ordered s) :
    ∃ t b, TokenStream.finish s = .ok t.document t ∧ Arena.finish a = .ok (t.document.map Cell.index) b ∧
      Gone (t.document.map Cell.index) a s b t ∧ t.current = s.current ∧ t.unread = [] := by
  obtain ⟨t, b, finishes, meets, gone, current, done⟩ := stores.iterTokens
  have stored := gone.stores
  refine ⟨t, { b with slots := noteOrder b.slots 0 (t.document.map Cell.index) }, finishes, ?_,
    ⟨?_, gone.revisits, gone.stays⟩, current, done⟩
  · simp [Arena.finish, bind, EStateM.bind, meets, TokenStream.modify_ok, pure, EStateM.pure]
  · refine { stored with size := ?_, segment := stored.segment.reorder fun cell member => ?_, below := ?_ }
    · exact (size_noteOrder ..).trans stored.size
    · have listed : cell.index ∈ t.document.map Cell.index := List.mem_map_of_mem member
      obtain ⟨spot, found⟩ := Option.ne_none_iff_exists'.1 (mt List.idxOf?_eq_none_iff.1 (not_not.2 listed))
      rw [getElem?_noteOrder _ _ stored.numbered.nodup, found]
      simp
    · exact List.forall_mem_map.2 stored.numbered.below

end Stores

/-! ### A fresh arena -/

theorem pull_empty (serial : Nat) {d : Dialect} {token : Token} {unread : List Token}
    (defined : ∀ other ∈ token :: unread, d.defines other.kind) (ended : EndsOnce ((token :: unread).map (·.kind))) :
    ∃ a, pull (empty serial d (token :: unread)) = .ok true a ∧
      a.Stores [] { serial, dialect := d, behind := [], current := ⟨token, 0⟩, ahead := [], unread, size := 1 } := by
  have accepted : d.require token.kind = .ok () := by simp [Dialect.require, defined token (by simp)]
  refine ⟨{ empty serial d unread with
    slots := #[{ cell := ⟨token, 0⟩ }], head := some 0, last := some 0, exhausted := token.kind == .endOfFile }, ?_, ?_⟩
  · simp [pull, empty, accepted, relink]
  · have ends := isEmpty_of_endsOnce ended
    refine ⟨⟨?_, ?_, ?_⟩, rfl, rfl, rfl, rfl, ends.1, ends.2, rfl, ⟨rfl, trivial⟩, rfl, rfl, by simp⟩
    · simp [TokenStream.document]
    · simp [TokenStream.document]
    · exact fun other member => defined other (List.mem_cons_of_mem _ member)

/-- An arena over the tokens of a text stores the stream over them. -/
theorem ofTokens_stores (serial : Nat) (onDemand : Bool) {d : Dialect} {tokens : List Token}
    (defined : ∀ token ∈ tokens, d.defines token.kind) (ended : EndsOnce (tokens.map (·.kind))) :
    ∃ a s, ofTokens serial d onDemand tokens = .ok a ∧ TokenStream.ofTokens serial d onDemand tokens = .ok s ∧
      a.Stores [] s ∧ a.current = s.current.index := by
  cases tokens with
  | nil => simp [EndsOnce] at ended
  | cons token unread =>
    obtain ⟨a, pulls, stores⟩ := pull_empty serial defined ended
    have primes : ∃ s b, prime onDemand (empty serial d (token :: unread)) = .ok () b ∧
        (∀ t, TokenStream.settle s = .ok () t →
          (do unless onDemand do TokenStream.readAll
              TokenStream.settle : StreamM Unit)
            { serial, dialect := d, behind := [], current := ⟨token, 0⟩, ahead := [], unread, size := 1 } = .ok () t) ∧
        b.Stores [] s ∧ s.current = ⟨token, 0⟩ ∧ s.document.head? = some ⟨token, 0⟩ := by
      cases onDemand with
      | true =>
        refine ⟨_, a, ?_, ?_, stores, rfl, rfl⟩
        · simp [prime, TokenStream.discard_ok pulls]
        · exact fun _ settles => settles
      | false =>
        obtain ⟨t, b, pullsAll, gone, done⟩ := stores.pullAll rfl (Nat.lt_succ_self _)
        obtain ⟨reads, read⟩ := stores.drained gone done
        refine ⟨_, b, ?_, fun t settles => (TokenStream.bind_ok reads _).trans settles, read.stores, rfl, rfl⟩
        have bound : (empty serial d (token :: unread)).bound = unread.length + 1 + 1 := by
          simp only [Arena.bound, empty, List.length_cons, List.size_toArray, List.length_nil]
          omega
        have pullsOn : pullAll (unread.length + 1 + 1) (empty serial d (token :: unread)) = .ok () b :=
          (TokenStream.bind_ok pulls _).trans (by simpa using pullsAll)
        simp [prime, bind, EStateM.bind, TokenStream.get_ok, bound, pullsOn]
    obtain ⟨s, b, primes, reads, stored, current, first⟩ := primes
    obtain ⟨t, c, settles, skips, gone⟩ := stored.skipComments
    have head : b.head = some 0 := by
      rw [stored.head, first]
      rfl
    have accepted : d.defines token.kind := defined token (List.mem_cons_self ..)
    refine ⟨{ c with current := t.current.index }, t, ?_, ?_, gone.stores.moveTo _, rfl⟩
    · rw [current] at skips
      simp [ofTokens, bind, EStateM.bind, primes, TokenStream.get_ok, head, skips, moveTo, TokenStream.modify_ok]
    · exact TokenStream.ofTokens_ok (TokenStream.throughEnd_eq ended) accepted (reads t settles)

end TolerantParser.Arena
