import TolerantParser.Proofs.Stream.Coming
import TolerantParser.Stream.Arena

/-!
The arena of a stream. `Segment slots ordered prev cells next` says which list of cells the links stand for: the slots
of the cells are linked one to the next and back, from `prev` to `next`. An arena stores a stream (`Arena.Stores`) if
its links stand for the document from end to end; then each step of the arena is the step of the stream.
-/

namespace TolerantParser

/-! ### Chains of slots -/

@[simp] theorem getElem?_relink (slots : Array Slot) (index? : Option Nat) (change : Slot → Slot) (index : Nat) :
    (relink slots index? change)[index]? = if index? = some index then slots[index]?.map change else slots[index]? := by
  cases index? with
  | none => rfl
  | some other => simp [relink, Array.getElem?_modify]

@[simp] theorem size_relink (slots : Array Slot) (index? : Option Nat) (change : Slot → Slot) :
    (relink slots index? change).size = slots.size := by
  cases index? <;> simp [relink]

/-- The slots of the cells are linked one to the next and back. The first is linked back to `prev` and the last goes on
to `next`, and each knows its place in `ordered`. -/
def Segment (slots : Array Slot) (ordered : List Nat) : Option Nat → List Cell → Option Nat → Prop
  | _, [], _ => True
  | prev, cell :: rest, next =>
    slots[cell.index]? = some ⟨cell, prev, (rest.head?.map Cell.index).or next, ordered.idxOf? cell.index⟩ ∧
      Segment slots ordered (some cell.index) rest next

theorem segment_append {slots : Array Slot} {ordered : List Nat} {prev next : Option Nat} {front back : List Cell} :
    Segment slots ordered prev (front ++ back) next ↔
      Segment slots ordered prev front ((back.head?.map Cell.index).or next) ∧
        Segment slots ordered ((front.getLast?.map Cell.index).or prev) back next := by
  induction front generalizing prev with
  | nil => simp [Segment]
  | cons cell front ih =>
    have goesOn : ((front ++ back).head?.map Cell.index).or next =
        (front.head?.map Cell.index).or ((back.head?.map Cell.index).or next) := by
      rw [List.head?_append, Option.map_or, Option.or_assoc]
    have last : ((cell :: front).getLast?.map Cell.index).or prev =
        (front.getLast?.map Cell.index).or (some cell.index) := by
      rw [List.getLast?_cons]
      cases front.getLast? <;> rfl
    rw [List.cons_append, Segment, Segment, goesOn, last, ih, and_assoc]

namespace Segment

variable {slots other : Array Slot} {ordered : List Nat} {prev next : Option Nat} {cells : List Cell}

/-- What stands in the slots of a chain. -/
theorem slot {before after : List Cell} {cell : Cell}
    (segment : Segment slots ordered prev (before ++ cell :: after) next) :
    slots[cell.index]? = some ⟨cell, (before.getLast?.map Cell.index).or prev, (after.head?.map Cell.index).or next,
      ordered.idxOf? cell.index⟩ :=
  (segment_append.1 segment).2.1

/-- Slots that are not on a chain may change. -/
theorem frame (segment : Segment slots ordered prev cells next)
    (same : ∀ cell ∈ cells, other[cell.index]? = slots[cell.index]?) : Segment other ordered prev cells next := by
  induction cells generalizing prev with
  | nil => trivial
  | cons cell rest ih =>
    refine ⟨(same cell (List.mem_cons_self ..)).trans segment.1, ih segment.2 fun cell member => ?_⟩
    exact same cell (List.mem_cons_of_mem _ member)

/-- A chain goes on elsewhere once the link of its last slot is changed. -/
theorem redirect (segment : Segment slots ordered prev cells next) (nodup : (cells.map Cell.index).Nodup)
    (elsewhere : Option Nat) :
    Segment (relink slots (cells.getLast?.map Cell.index) fun slot => { slot with next := elsewhere }) ordered prev
      cells elsewhere := by
  rcases cells.eq_nil_or_concat with rfl | ⟨front, last, rfl⟩
  · trivial
  · rw [List.concat_eq_append] at segment nodup ⊢
    obtain ⟨before, here, -⟩ := segment_append.1 segment
    have apart : ∀ cell ∈ front, last.index ≠ cell.index := by
      rw [List.map_append, List.nodup_append] at nodup
      exact fun cell member same => nodup.2.2 _ (List.mem_map_of_mem member) _ (by simp) same.symm
    rw [segment_append, List.getLast?_concat, Option.map_some]
    refine ⟨before.frame fun cell member => ?_, ?_, trivial⟩
    · rw [getElem?_relink, if_neg (by simpa using apart cell member)]
    · rw [getElem?_relink, if_pos rfl, here]
      rfl

/-- Slots of a chain may be told other places. -/
theorem reorder {settled : List Nat} (segment : Segment slots ordered prev cells next)
    (told : ∀ cell ∈ cells, other[cell.index]? =
      slots[cell.index]?.map fun slot => { slot with order := settled.idxOf? cell.index }) :
    Segment other settled prev cells next := by
  induction cells generalizing prev with
  | nil => trivial
  | cons cell rest ih =>
    refine ⟨?_, ih segment.2 fun cell member => told cell (List.mem_cons_of_mem _ member)⟩
    rw [told cell (List.mem_cons_self ..), segment.1]
    rfl

end Segment

/-- Each slot on a path is told where on it it is. -/
theorem getElem?_noteOrder (slots : Array Slot) (place : Nat) {path : List Nat} (nodup : path.Nodup) (index : Nat) :
    (Arena.noteOrder slots place path)[index]? = slots[index]?.map fun slot =>
      { slot with order := ((path.idxOf? index).map (place + ·)).or slot.order } := by
  induction path generalizing slots place with
  | nil => simp [Arena.noteOrder]
  | cons first path ih =>
    obtain ⟨once, nodup⟩ := List.nodup_cons.1 nodup
    rw [Arena.noteOrder, ih _ _ nodup, Array.getElem?_modify, List.idxOf?_cons]
    by_cases here : first = index
    · subst here
      have later : path.idxOf? first = none := List.idxOf?_eq_none_iff.2 once
      cases slots[first]? <;> simp [later]
    · have shift : ((path.idxOf? index).map (· + 1)).map (place + ·) = (path.idxOf? index).map (place + 1 + ·) := by
        rw [Option.map_map]
        congr 1
        funext spot
        simp only [Function.comp_apply]
        omega
      simp [here, shift]

theorem size_noteOrder (slots : Array Slot) (place : Nat) (path : List Nat) :
    (Arena.noteOrder slots place path).size = slots.size := by
  induction path generalizing slots place with
  | nil => rfl
  | cons first path ih => rw [Arena.noteOrder, ih, Array.size_modify]

theorem isEmpty_of_endsOnce {token : Token} {rest : List Token} (ended : EndsOnce ((token :: rest).map (·.kind))) :
    (token.kind == .endOfFile) = rest.isEmpty ∧ (rest = [] ∨ EndsOnce (rest.map (·.kind))) := by
  cases rest with
  | nil => exact ⟨by simpa using ended, .inl rfl⟩
  | cons next rest =>
    obtain ⟨other, ended⟩ := (endsOnce_cons (by simp)).1 ended
    exact ⟨by simpa using other, .inr ended⟩

namespace Arena

open TokenStream (Revisits Marks)

variable {ordered : List Nat} {a b c : Arena} {s t u : TokenStream}

/-! ### An arena that stores a stream -/

/-- The links of the arena stand for the document of the stream from end to end, and every slot is on them. What is
still to be read is the same, and `ordered` are the numbers of the tokens that have been put in order. -/
structure Stores (ordered : List Nat) (a : Arena) (s : TokenStream) : Prop where
  numbered : s.Numbered
  full : s.document.length = s.size
  serial : a.serial = s.serial
  dialect : a.dialect = s.dialect
  supply : a.supply = s.unread
  exhausted : a.exhausted = s.unread.isEmpty
  ended : s.unread = [] ∨ EndsOnce (s.unread.map (·.kind))
  size : a.slots.size = s.size
  segment : Segment a.slots ordered none s.document none
  head : a.head = s.document.head?.map Cell.index
  last : a.last = s.document.getLast?.map Cell.index
  below : ∀ index ∈ ordered, index < s.size

/-- The arena and the stream have gone on, and the cursor of the arena has stayed. -/
structure Gone (ordered : List Nat) (a : Arena) (s : TokenStream) (b : Arena) (t : TokenStream) : Prop where
  stores : b.Stores ordered t
  revisits : Revisits s t
  stays : b.current = a.current

theorem Gone.trans (first : Gone ordered a s b t) (second : Gone ordered b t c u) : Gone ordered a s c u :=
  ⟨second.stores, first.revisits.trans second.revisits, second.stays.trans first.stays⟩

theorem Gone.reads (gone : Gone ordered a s b t) : TokenStream.Reads s t := gone.revisits.reads gone.stores.numbered

/-- The cursors have no part in it. -/
theorem Stores.moved (stores : a.Stores ordered s) (numbered : t.Numbered) (revisits : Revisits s t)
    (unread : t.unread = s.unread) (current : Nat) : Stores ordered { a with current } t := by
  have size : t.size = s.size := by
    have total := revisits.total
    rwa [TokenStream.total, TokenStream.total, unread, Nat.add_right_cancel_iff] at total
  have document : t.document = s.document := by
    have whole := revisits.whole
    rwa [TokenStream.whole_eq, TokenStream.whole_eq, unread, size, List.append_cancel_right_eq] at whole
  exact {
    numbered, full := by rw [document, size, stores.full]
    serial := stores.serial.trans revisits.serial.symm
    dialect := stores.dialect.trans revisits.dialect.symm
    supply := stores.supply.trans unread.symm
    exhausted := by rw [unread, stores.exhausted]
    ended := unread ▸ stores.ended
    size := stores.size.trans size.symm
    segment := document ▸ stores.segment
    head := document ▸ stores.head
    last := document ▸ stores.last
    below := size ▸ stores.below }

/-- Having looked around, the stream goes back to where it was. -/
theorem Gone.back (gone : Gone ordered a s b t) :
    Gone ordered a s b (t.seek s.current.index) ∧ (t.seek s.current.index).current = s.current := by
  obtain ⟨reads, place⟩ := gone.reads.seek_back
  have revisits := TokenStream.revisits_seek t s.current.index
  have stores := gone.stores.moved reads.numbered revisits (t.seek_frame _).2.1 b.current
  exact ⟨⟨stores, gone.revisits.trans revisits, gone.stays⟩, reads.current_eq place⟩

namespace Stores

theorem gone (stores : a.Stores ordered s) : Gone ordered a s a s := ⟨stores, .refl s, rfl⟩

theorem moveTo (stores : a.Stores ordered s) (current : Nat) : Stores ordered { a with current } s :=
  stores.moved stores.numbered (.refl s) rfl current

theorem seek (stores : a.Stores ordered s) (index : Nat) : Gone ordered a s a (s.seek index) :=
  have revisits := TokenStream.revisits_seek s index
  ⟨stores.moved (stores.numbered.seek_reads index).numbered revisits (s.seek_frame index).2.1 a.current, revisits, rfl⟩

/-- What stands in a slot, and where its links lead. -/
theorem slot_eq (stores : a.Stores ordered s) {before after : List Cell} {cell : Cell}
    (parts : s.document = before ++ cell :: after) :
    Arena.slot cell.index a = .ok ⟨cell, before.getLast?.map Cell.index, after.head?.map Cell.index,
      ordered.idxOf? cell.index⟩ a := by
  have here := (parts ▸ stores.segment).slot
  rw [Option.or_none, Option.or_none] at here
  rw [Arena.slot, here]

theorem slot_current (stores : a.Stores ordered s) :
    Arena.slot s.current.index a = .ok ⟨s.current, s.behind.head?.map Cell.index, s.ahead.head?.map Cell.index,
      ordered.idxOf? s.current.index⟩ a := by
  rw [stores.slot_eq rfl, List.getLast?_reverse]

/-! ### Reading -/

/-- The next number has not been put in order. -/
theorem fresh (stores : a.Stores ordered s) : ordered.idxOf? s.size = none :=
  List.idxOf?_eq_none_iff.2 fun listed => lt_irrefl _ (stores.below _ listed)

/-- Only the last token of the supply ends the file. -/
theorem supply_ends (stores : a.Stores ordered s) {token : Token} {unread : List Token}
    (waiting : s.unread = token :: unread) :
    (token.kind == .endOfFile) = unread.isEmpty ∧ (unread = [] ∨ EndsOnce (unread.map (·.kind))) := by
  have ended := stores.ended.resolve_left (by simp [waiting])
  rw [waiting] at ended
  exact isEmpty_of_endsOnce ended

/-- The next token of the supply is linked in behind the last one. -/
theorem pull (stores : a.Stores ordered s) {token : Token} {unread : List Token} (waiting : s.unread = token :: unread)
    (document : t.document = s.document ++ [⟨token, s.size⟩]) (numbered : t.Numbered) (revisits : Revisits s t)
    (rest : t.unread = unread) (size : t.size = s.size + 1) :
    ∃ b, Arena.pull a = .ok true b ∧ Gone ordered a s b t := by
  have accepted : a.dialect.require token.kind = .ok () := stores.dialect ▸ stores.numbered.accepts waiting
  have more : a.exhausted = false := by rw [stores.exhausted, waiting]; rfl
  have supply : a.supply = token :: unread := stores.supply.trans waiting
  have nonempty : a.last.isNone = false := by
    rw [stores.last, TokenStream.document]
    simp
  have pulls : Arena.pull a = .ok true { a with
      supply := unread
      slots := (relink a.slots a.last fun slot => { slot with next := some s.size }).push
        { cell := ⟨token, s.size⟩, prev := a.last }
      last := some s.size, exhausted := token.kind == .endOfFile } := by
    simp only [Arena.pull, more, supply, accepted, stores.size, nonempty]
    rfl
  refine ⟨_, pulls, ⟨⟨numbered, ?_, ?_, ?_, rest.symm, ?_, ?_, ?_, ?_, ?_, ?_, ?_⟩, revisits, rfl⟩⟩
  · rw [document, size, List.length_append, stores.full]
    rfl
  · exact stores.serial.trans revisits.serial.symm
  · exact stores.dialect.trans revisits.dialect.symm
  · rw [rest]
    exact (stores.supply_ends waiting).1
  · rw [rest]
    exact (stores.supply_ends waiting).2
  · simp [size, stores.size]
  · -- the old document now goes on to the new slot
    have below := stores.numbered.below
    rw [document, segment_append, stores.last]
    refine ⟨(stores.segment.redirect stores.numbered.nodup (some s.size)).frame fun cell member => ?_, ?_, trivial⟩
    · rw [Array.getElem?_push, if_neg (by simpa [stores.size] using (below cell member).ne)]
    · rw [Array.getElem?_push, if_pos (by simp [stores.size]), stores.fresh]
      simp
  · rw [document, List.head?_append_of_ne_nil _ (by simp [TokenStream.document])]
    exact stores.head
  · rw [document, List.getLast?_concat]
    rfl
  · rw [size]
    exact fun index listed => Nat.lt_succ_of_lt (stores.below index listed)

/-- The arena goes from slot to slot as the stream goes from token to token. -/
theorem nextIndex (stores : a.Stores ordered s) :
    (∃ t b, TokenStream.forward s = .ok true t ∧ Arena.nextIndex s.current.index a = .ok (some t.current.index) b ∧
        t.behind = s.current :: s.behind ∧ Gone ordered a s b t) ∨
      TokenStream.forward s = .ok false s ∧ Arena.nextIndex s.current.index a = .ok none a ∧ s.ahead = [] ∧
        s.unread = [] := by
  cases next : s.ahead with
  | cons cell ahead =>
    have moves : TokenStream.forward s =
        .ok true { s with behind := s.current :: s.behind, current := cell, ahead } := by
      simp only [TokenStream.forward, next]
    have revisits := TokenStream.looks_forward.revisits moves
    refine .inl ⟨_, a, moves, ?_, rfl, stores.moved (stores.numbered.pass next).numbered revisits rfl _, revisits, rfl⟩
    have here := stores.slot_current
    rw [next] at here
    simp [Arena.nextIndex, bind, EStateM.bind, here, TokenStream.get_ok, pure, EStateM.pure]
  | nil =>
    have here := stores.slot_current
    rw [next] at here
    have last : a.last = some s.current.index := by
      rw [stores.last, TokenStream.document, next, List.getLast?_concat]
      rfl
    cases waiting : s.unread with
    | nil =>
      refine .inr ⟨by simp only [TokenStream.forward, next, waiting], ?_, rfl, rfl⟩
      have done : a.exhausted = true := by rw [stores.exhausted, waiting]; rfl
      simp [Arena.nextIndex, bind, EStateM.bind, here, done, TokenStream.get_ok, pure, EStateM.pure]
    | cons token unread =>
      have accepted := stores.numbered.accepts waiting
      have moves : TokenStream.forward s = .ok true { s with
          behind := s.current :: s.behind, current := ⟨token, s.size⟩, unread, size := s.size + 1 } := by
        simp only [TokenStream.forward, next, waiting, accepted]
      have numbered := (stores.numbered.read waiting next).numbered
      obtain ⟨b, pulls, gone⟩ := stores.pull waiting (by simp [TokenStream.document, next]) numbered
        (TokenStream.looks_forward.revisits moves) rfl rfl
      refine .inl ⟨_, b, moves, ?_, rfl, gone⟩
      have more : a.exhausted = false := by rw [stores.exhausted, waiting]; rfl
      have parts : TokenStream.document { s with
          behind := s.current :: s.behind, current := ⟨token, s.size⟩, unread, size := s.size + 1 } =
            s.behind.reverse ++ s.current :: [⟨token, s.size⟩] := by
        simp [TokenStream.document, next]
      have linked := gone.stores.slot_eq parts
      simp [Arena.nextIndex, bind, EStateM.bind, here, more, last, TokenStream.discard_ok pulls, linked,
        TokenStream.get_ok, pure, EStateM.pure]

/-! ### Comments -/

/-- How many tokens the cursor has still in front of it. -/
theorem remaining (stores : a.Stores ordered s) : s.ahead.length + s.unread.length < a.bound := by
  have full := stores.full
  rw [TokenStream.document, List.length_append, List.length_cons] at full
  rw [Arena.bound, stores.size, stores.supply]
  omega

theorem walkComments {bound : Nat} (stores : a.Stores ordered s) (enough : s.ahead.length + s.unread.length < bound) :
    ∃ t b, TokenStream.settle s = .ok () t ∧ skipComments.walk bound s.current.index a = .ok t.current.index b ∧
      Gone ordered a s b t := by
  induction bound generalizing a s with
  | zero => omega
  | succ bound ih =>
    have here := stores.slot_current
    cases comment : s.current.isComment with
    | false =>
      refine ⟨s, a, TokenStream.settle_of_other comment, ?_, stores.gone⟩
      simp [skipComments.walk, bind, EStateM.bind, here, comment, pure, EStateM.pure]
    | true =>
      rcases stores.nextIndex with ⟨t, b, moves, next, behind, gone⟩ | ⟨-, next, ahead, unread⟩
      · have length := s.tokens_length
        have length' := t.tokens_length
        have place : t.place = s.place + 1 := congrArg List.length behind
        rw [gone.reads.tokens, place] at length'
        obtain ⟨u, c, settles, walks, later⟩ := ih gone.stores (by omega)
        refine ⟨u, c, (TokenStream.settle_of_comment comment moves).trans settles, ?_, gone.trans later⟩
        simp [skipComments.walk, bind, EStateM.bind, here, comment, next, walks]
      · refine ⟨s, a, TokenStream.settle_at_end ahead unread, ?_, stores.gone⟩
        simp [skipComments.walk, bind, EStateM.bind, here, comment, next, pure, EStateM.pure]

theorem skipComments (stores : a.Stores ordered s) :
    ∃ t b, TokenStream.settle s = .ok () t ∧ Arena.skipComments s.current.index a = .ok t.current.index b ∧
      Gone ordered a s b t := by
  obtain ⟨t, b, settles, walks, gone⟩ := stores.walkComments stores.remaining
  exact ⟨t, b, settles, (TokenStream.bind_ok (TokenStream.get_ok a) _).trans walks, gone⟩

theorem nextSignificant (stores : a.Stores ordered s) :
    ∃ more t b, TokenStream.forwardSignificant s = .ok more t ∧
      Arena.nextSignificant s.current.index a = .ok t.current.index b ∧ Gone ordered a s b t := by
  rcases stores.nextIndex with ⟨t, b, moves, next, -, gone⟩ | ⟨stops, next, -⟩
  · obtain ⟨u, c, settles, skips, later⟩ := gone.stores.skipComments
    refine ⟨true, u, c, ?_, ?_, gone.trans later⟩
    · simp [TokenStream.forwardSignificant, bind, EStateM.bind, moves, settles, pure, EStateM.pure]
    · simp [Arena.nextSignificant, bind, EStateM.bind, next, skips]
  · refine ⟨false, s, a, ?_, ?_, stores.gone⟩
    · simp [TokenStream.forwardSignificant, bind, EStateM.bind, stops, pure, EStateM.pure]
    · simp [Arena.nextSignificant, bind, EStateM.bind, next, pure, EStateM.pure]

/-! ### The cursor -/

theorem advance (stores : a.Stores ordered s) (current : a.current = s.current.index) :
    ∃ t b, TokenStream.advance s = .ok s.current t ∧ Arena.advance a = .ok s.current.index b ∧ b.Stores ordered t ∧
      b.current = t.current.index := by
  have here := stores.slot_current
  by_cases ends : s.current.kind = .endOfFile
  · refine ⟨s, a, ?_, ?_, stores, current⟩
    · simp [TokenStream.advance, bind, EStateM.bind, TokenStream.get_ok, ends, pure, EStateM.pure]
    · simp [Arena.advance, bind, EStateM.bind, TokenStream.get_ok, current, here, ends, pure, EStateM.pure]
  · obtain ⟨more, t, b, moves, next, gone⟩ := stores.nextSignificant
    refine ⟨t, { b with current := t.current.index }, ?_, ?_, gone.stores.moveTo _, rfl⟩
    · have returns : TokenStream.orReturn TokenStream.forwardSignificant s = .ok more t := by
        simp [TokenStream.orReturn, moves]
      simp [TokenStream.advance, bind, EStateM.bind, TokenStream.get_ok, ends, TokenStream.discard_ok returns, pure,
        EStateM.pure]
    · simp [Arena.advance, bind, EStateM.bind, TokenStream.get_ok, current, here, ends, next, Arena.moveTo,
        TokenStream.modify_ok, pure, EStateM.pure]

theorem walk (stores : a.Stores ordered s) (count : Nat) :
    ∃ t b, TokenStream.peek.walk count s = .ok t.current t ∧ peek.walk count s.current.index a = .ok t.current.index b ∧
      Gone ordered a s b t := by
  induction count generalizing a s with
  | zero => exact ⟨s, a, rfl, rfl, stores.gone⟩
  | succ count ih =>
    have here := stores.slot_current
    by_cases ends : s.current.kind = .endOfFile
    · refine ⟨s, a, ?_, ?_, stores.gone⟩
      · simp [TokenStream.peek.walk, bind, EStateM.bind, TokenStream.get_ok, ends, pure, EStateM.pure]
      · simp [peek.walk, bind, EStateM.bind, here, ends, pure, EStateM.pure]
    · obtain ⟨more, t, b, moves, next, gone⟩ := stores.nextSignificant
      obtain ⟨u, c, walks, walks', later⟩ := ih gone.stores
      refine ⟨u, c, ?_, ?_, gone.trans later⟩
      · simp [TokenStream.peek.walk, bind, EStateM.bind, TokenStream.get_ok, ends, TokenStream.discard_ok moves, walks]
      · simp [peek.walk, bind, EStateM.bind, here, ends, next, walks']

theorem peek (stores : a.Stores ordered s) (current : a.current = s.current.index) (count : Nat) :
    ∃ cell t b, TokenStream.peek count s = .ok cell t ∧ Arena.peek count a = .ok cell.index b ∧ Gone ordered a s b t ∧
      t.current = s.current ∧ cell ∈ t.document := by
  obtain ⟨t, b, walks, walks', gone⟩ := stores.walk count
  obtain ⟨back, here⟩ := gone.back
  refine ⟨t.current, _, b, by simp [TokenStream.peek, TokenStream.lookAround, walks], ?_, back, here, ?_⟩
  · rw [← current] at walks'
    exact (TokenStream.bind_ok (TokenStream.get_ok a) _).trans walks'
  · rw [TokenStream.document_seek]
    exact List.mem_of_getElem? t.document_at_place

/-- The head is where the stream begins. -/
theorem first (stores : a.Stores ordered s) :
    ∃ first rest, s.document = first :: rest ∧
      s.rewindToFirst = { s with behind := [], current := first, ahead := rest } ∧ a.head = some first.index ∧
      Gone ordered a s a { s with behind := [], current := first, ahead := rest } := by
  have nonempty : s.document ≠ [] := by simp [TokenStream.document]
  obtain ⟨first, rest, parts⟩ := List.exists_cons_of_ne_nil nonempty
  have goes : s.rewindToFirst = { s with behind := [], current := first, ahead := rest } := by
    simp only [TokenStream.rewindToFirst, parts]
  obtain ⟨t, moves, reads, -⟩ := stores.numbered.goAfter_none
  obtain rfl : s.rewindToFirst = t := by
    simpa [TokenStream.goAfter, TokenStream.modify_ok] using moves
  rw [goes] at reads
  have revisits : TokenStream.Revisits s { s with behind := [], current := first, ahead := rest } :=
    TokenStream.revisits_pass parts.symm
  refine ⟨first, rest, parts, goes, ?_, ⟨stores.moved reads.numbered revisits rfl _, revisits, rfl⟩⟩
  rw [stores.head, parts]
  rfl

/-- A stream that has gone to a token is on it. -/
theorem current_seek (stores : a.Stores ordered s) {number spot : Nat} (marks : s.Marks number spot) :
    (s.seek number).current.index = number := by
  obtain ⟨-, place⟩ := stores.numbered.seek marks
  have here := (s.seek number).marks_current
  rw [place, Marks, TokenStream.document_seek] at here
  exact Option.some.inj (here.symm.trans marks)

theorem rewindTo (stores : a.Stores ordered s) {cell : Cell} {spot : Nat} (here : s.document[spot]? = some cell) :
    ∃ t b, TokenStream.rewindTo s.serial cell s = .ok () t ∧ Arena.rewindTo a.serial cell a = .ok () b ∧
      b.Stores ordered t ∧ b.current = t.current.index := by
  have below : ¬ s.size ≤ cell.index := by
    have := stores.numbered.below cell (List.mem_of_getElem? here)
    omega
  obtain ⟨t, b, settles, skips, gone⟩ := (stores.seek cell.index).stores.skipComments
  rw [stores.current_seek (TokenStream.marks_of_document here)] at skips
  refine ⟨t, { b with current := t.current.index }, ?_, ?_, gone.stores.moveTo _, rfl⟩
  · simp [TokenStream.rewindTo, bind, EStateM.bind, TokenStream.get_ok, below, TokenStream.orReturn,
      TokenStream.modify_ok, settles]
  · simp [Arena.rewindTo, bind, EStateM.bind, TokenStream.get_ok, stores.size, below, skips, Arena.moveTo,
      TokenStream.modify_ok]

theorem next (stores : a.Stores ordered s) {number spot : Nat} (marks : s.Marks number spot) :
    ∃ cell? t b, TokenStream.next? number s = .ok cell? t ∧
      Arena.nextIndex number a = .ok (cell?.map Cell.index) b ∧ Gone ordered a s b t ∧ t.current = s.current ∧
      ∀ cell ∈ cell?, cell ∈ t.document := by
  have sought := stores.seek number
  rcases sought.stores.nextIndex with ⟨t, b, moves, next, -, gone⟩ | ⟨stops, next, -⟩
  · obtain ⟨back, here⟩ := (sought.trans gone).back
    rw [stores.current_seek marks] at next
    refine ⟨some t.current, _, b, ?_, next, back, here, ?_⟩
    · simp [TokenStream.next?, TokenStream.lookAround, bind, EStateM.bind, TokenStream.modify_ok, moves,
        TokenStream.get_ok, pure, EStateM.pure]
    · rintro cell ⟨⟩
      rw [TokenStream.document_seek]
      exact List.mem_of_getElem? t.document_at_place
  · obtain ⟨back, here⟩ := sought.back
    rw [stores.current_seek marks] at next
    refine ⟨none, _, a, ?_, next, back, here, by simp⟩
    simp [TokenStream.next?, TokenStream.lookAround, bind, EStateM.bind, TokenStream.modify_ok, stops, pure,
      EStateM.pure]

theorem previousIndex (stores : a.Stores ordered s) {number spot : Nat} (marks : s.Marks number spot) :
    Arena.previousIndex number a = .ok ((s.previous? number).map Cell.index) a := by
  have here := (stores.seek number).stores.slot_current
  rw [stores.current_seek marks] at here
  exact TokenStream.bind_ok here _

end Stores

end Arena

end TolerantParser
