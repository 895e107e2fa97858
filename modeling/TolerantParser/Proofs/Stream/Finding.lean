import Mathlib.Order.Bounds.Basic
import TolerantParser.Lexer.Basic
import TolerantParser.Proofs.Stream.Coming
import TolerantParser.Recovery.Basic

/-!
What the searches find. A search is for the first of the tokens to come that is a goal (`Sought`), and what is a goal
is said of the list of these tokens alone: for a closing bracket the depth in brackets behind the tokens in front of it
(`ClosesAt`), for the end of a block the numbers of blocks begun and ended in front of it (`EndsBlockAt`). Neither
speaks of the counter that the search keeps as it goes. That the two agree is an induction on how far the search may
go, in which the counter stands for what the tokens gone over have left open.
-/

namespace TolerantParser.TokenStream

variable {s t u : TokenStream} {goal later : Nat → Prop} {passed : List Cell} {found : Option (List Cell)}

/-! ### The first goal -/

/-- A search that had gone over some tokens has ended: on the first of the tokens to come that is a goal, having gone
over those in front of it, or somewhere, there being no goal. -/
inductive Sought (goal : Nat → Prop) (passed : List Cell) (s : TokenStream) : Option (List Cell) → TokenStream → Prop
  | found {i : Nat} {t : TokenStream} (first : IsLeast {i | goal i} i) (arrived : t.coming = s.coming.drop i) :
      Sought goal passed s (some (passed.reverse ++ s.coming.take i)) t
  | missed {t : TokenStream} (never : ∀ i, ¬ goal i) : Sought goal passed s none t

namespace Sought

/-- The token at the cursor is a goal. -/
theorem here (reached : goal 0) : Sought goal passed s (some passed.reverse) s := by
  have first : IsLeast {i | goal i} 0 := ⟨reached, fun _ _ => Nat.zero_le _⟩
  have sought : Sought goal passed s (some (passed.reverse ++ s.coming.take 0)) s := .found first rfl
  rwa [List.take_zero, List.append_nil] at sought

/-- The token at the cursor is no goal, and the search goes on behind it. -/
theorem cons (sought : Sought later (s.current :: passed) t found u) (coming : s.coming = s.current :: t.coming)
    (other : ¬ goal 0) (shift : ∀ i, goal (i + 1) ↔ later i) : Sought goal passed s found u := by
  cases sought with
  | @found i _ first arrived =>
    have whole : (s.current :: passed).reverse ++ t.coming.take i = passed.reverse ++ s.coming.take (i + 1) := by
      simp [coming]
    rw [whole]
    refine .found ⟨(shift i).2 first.1, fun j reached => ?_⟩ (by rw [arrived, coming, List.drop_succ_cons])
    cases j with
    | zero => exact absurd reached other
    | succ j => exact Nat.succ_le_succ (first.2 ((shift j).1 reached))
  | missed never =>
    refine .missed fun i reached => ?_
    cases i with
    | zero => exact other reached
    | succ i => exact never i ((shift i).1 reached)

theorem drained (sought : Sought goal passed s found t) (same : u.drained = t.drained) :
    Sought goal passed s found u := by
  have coming : u.coming = t.coming := by rw [TokenStream.coming, same, TokenStream.coming]
  cases sought with
  | found first arrived => exact .found first (coming.trans arrived)
  | missed never => exact .missed never

theorem isSome_iff (sought : Sought goal passed s found t) : found.isSome ↔ ∃ i, goal i := by
  cases sought with
  | found first arrived => exact iff_of_true rfl ⟨_, first.1⟩
  | missed never => exact iff_of_false nofun fun ⟨i, reached⟩ => never i reached

theorem eq_none (sought : Sought goal passed s found t) (never : ∀ i, ¬ goal i) : found = none := by
  cases sought with
  | found first arrived => exact absurd first.1 (never _)
  | missed => rfl

theorem exists_first (sought : Sought goal passed s found t) (some : found.isSome) : ∃ i, IsLeast {i | goal i} i := by
  cases sought with
  | found first arrived => exact ⟨_, first⟩
  | missed => cases some

/-- Where a search for one of certain tokens ends that are the next to come. -/
theorem resumes {cells : List Cell} {i : Nat} (sought : Sought goal [] s found t) (usable : t.Usable)
    (ahead : cells <+: s.coming) (first : IsLeast {i | goal i} i) (within : i < cells.length) :
    found = some (cells.take i) ∧ cells[i]? = some t.current ∧ t.coming = s.coming.drop i := by
  obtain ⟨rest, whole⟩ := ahead
  cases sought with
  | missed never => exact absurd first.1 (never i)
  | @found j _ earliest arrived =>
    have same : i = j := first.unique earliest
    subst same
    have here : s.coming[i]? = some t.current := by
      have head := congrArg List.head? arrived
      rwa [usable.coming_cons, List.head?_cons, List.head?_drop, eq_comm] at head
    refine ⟨?_, ?_, arrived⟩
    · rw [← whole, List.take_append_of_le_length within.le]
      rfl
    · rwa [← whole, List.getElem?_append_left within] at here

end Sought

/-- A search stays where it found what it is for. Else the cursor goes back, and the stream is as it was. -/
theorem Usable.search (usable : s.Usable) {steps : StreamM (Option (List Cell))} (searches : steps s = .ok found t)
    (revisits : Revisits s t) (rested : t.Usable) (sought : Sought goal [] s found t) :
    ∃ u, search steps s = .ok found u ∧ Revisits s u ∧ u.Usable ∧ Sought goal [] s found u ∧
      (found = none → u.drained = s.drained) := by
  cases sought with
  | found first arrived => exact ⟨t, search_found searches, revisits, rested, .found first arrived, nofun⟩
  | missed never =>
    have returns := revisits.trans (revisits_seek t s.current.index)
    obtain ⟨back, place⟩ := (revisits.reads rested.numbered).seek_back
    have same := returns.drained_eq place
    exact ⟨t.seek s.current.index, search_missed searches, returns, usable.of_drained back.numbered same, .missed never,
      fun _ => same⟩

/-! ### Closing brackets -/

/-- The tokens to come in the logical line, without its end. -/
def lineAhead (s : TokenStream) : List Cell :=
  s.coming.takeWhile fun cell => cell.kind != .newline && cell.kind != .endOfFile

theorem lineAhead_coming (s : TokenStream) : s.lineAhead <+: s.coming := List.takeWhile_prefix _

/-- How deep in brackets one is behind some tokens. Where no bracket is open, a closing one changes nothing. -/
def depthBehind (depth : Nat) (cells : List Cell) : Nat :=
  cells.foldl (fun depth cell => Scan.depthAfter depth cell.kind) depth

/-- The token is of a kind that is wanted, and no bracket in front of it is open there. -/
def ClosesAt (wanted : List TokenKind) (depth : Nat) (cells : List Cell) (i : Nat) : Prop :=
  ∃ cell ∈ cells[i]?, cell.kind ∈ wanted ∧ depthBehind depth (cells.take i) = 0

section ClosesAt

variable {wanted : List TokenKind} {depth : Nat} {cell : Cell} {cells : List Cell}

theorem not_closesAt_nil (i : Nat) : ¬ ClosesAt wanted depth [] i := by
  simp [ClosesAt]

@[simp] theorem closesAt_zero : ClosesAt wanted depth (cell :: cells) 0 ↔ cell.kind ∈ wanted ∧ depth = 0 := by
  simp [ClosesAt, depthBehind]

@[simp] theorem closesAt_succ (i : Nat) :
    ClosesAt wanted depth (cell :: cells) (i + 1) ↔ ClosesAt wanted (Scan.depthAfter depth cell.kind) cells i := by
  simp [ClosesAt, depthBehind]

theorem ClosesAt.lt {i : Nat} (closes : ClosesAt wanted depth cells i) : i < cells.length := by
  obtain ⟨cell, here, -⟩ := closes
  exact (List.getElem?_eq_some_iff.1 here).1

end ClosesAt

theorem Usable.lineAhead_nil (usable : s.Usable) (ends : s.current.kind = .newline ∨ s.current.kind = .endOfFile) :
    s.lineAhead = [] := by
  rw [lineAhead, usable.coming_cons, List.takeWhile_cons_of_neg]
  rcases ends with kind | kind <;> simp [kind]

theorem Usable.lineAhead_head (usable : s.Usable)
    (inLine : ¬ (s.current.kind = .newline ∨ s.current.kind = .endOfFile)) :
      ∃ rest, s.lineAhead = s.current :: rest := by
  rw [not_or] at inLine
  rw [lineAhead, usable.coming_cons, List.takeWhile_cons_of_pos (by simp [inLine])]
  exact ⟨_, rfl⟩

theorem lineAhead_cons (coming : s.coming = s.current :: t.coming)
    (inLine : ¬ (s.current.kind = .newline ∨ s.current.kind = .endOfFile)) :
    s.lineAhead = s.current :: t.lineAhead := by
  rw [not_or] at inLine
  rw [lineAhead, coming, List.takeWhile_cons_of_pos (by simp [inLine])]
  rfl

/-- The search for a closing bracket finds the first one that is wanted and not inside of others. The counter is how
deep in brackets the tokens gone over have led. -/
theorem Usable.searchCloser (wanted : List TokenKind) (bound depth : Nat) (passed : List Cell) (usable : s.Usable)
    (room : s.coming.length ≤ bound) :
    ∃ found t, searchCloser wanted depth passed bound s = .ok found t ∧ Revisits s t ∧ t.Usable ∧
      Sought (ClosesAt wanted depth s.lineAhead) passed s found t := by
  induction bound generalizing depth passed s with
  | zero => simp [usable.coming_cons] at room
  | succ bound ih =>
    rw [TokenStream.searchCloser]
    simp only [bind, EStateM.bind, get_ok, Bool.or_eq_true, beq_iff_eq]
    split
    next ends =>
      refine ⟨none, s, rfl, .refl s, usable, .missed ?_⟩
      rw [usable.lineAhead_nil ends]
      exact not_closesAt_nil
    next inLine =>
      obtain ⟨t, moves, revisits, rested, coming⟩ := usable.forwardSignificant fun ends => inLine (.inr ends)
      have line := lineAhead_cons coming inLine
      rw [line]
      split
      next arrived =>
        simp only [Bool.and_eq_true, decide_eq_true_eq, List.contains_iff_mem] at arrived
        exact ⟨some passed.reverse, s, rfl, .refl s, usable, .here (closesAt_zero.2 arrived.symm)⟩
      next other =>
        simp only [Bool.and_eq_true, decide_eq_true_eq, List.contains_iff_mem] at other
        have fewer : t.coming.length ≤ bound := by
          rw [coming, List.length_cons] at room
          omega
        obtain ⟨found, u, searches, further, rested, sought⟩ :=
          ih (Scan.depthAfter depth s.current.kind) (s.current :: passed) rested fewer
        refine ⟨found, u, (bind_ok (discard_ok moves) _).trans searches, revisits.trans further, rested, ?_⟩
        exact sought.cons coming (fun reached => other (closesAt_zero.1 reached).symm) closesAt_succ

/-! ### The ends of blocks -/

/-- The tokens to come, without the end of the file. -/
def fileAhead (s : TokenStream) : List Cell := s.coming.takeWhile (·.kind != .endOfFile)

theorem fileAhead_coming (s : TokenStream) : s.fileAhead <+: s.coming := List.takeWhile_prefix _

/-- At the token a block ends, and as many have ended in front of it as have begun there, those that were open
before not counted. -/
def EndsBlockAt (level : Nat) (cells : List Cell) (i : Nat) : Prop :=
  (∃ cell ∈ cells[i]?, cell.kind = .dedent) ∧
    level + (cells.take i).countP (·.kind == .indent) = (cells.take i).countP (·.kind == .dedent)

section EndsBlockAt

variable {level : Nat} {cell : Cell} {cells : List Cell}

theorem not_endsBlockAt_nil (i : Nat) : ¬ EndsBlockAt level [] i := by
  simp [EndsBlockAt]

@[simp] theorem endsBlockAt_zero : EndsBlockAt level (cell :: cells) 0 ↔ cell.kind = .dedent ∧ level = 0 := by
  simp [EndsBlockAt]

theorem endsBlockAt_indent (begins : cell.kind = .indent) (i : Nat) :
    EndsBlockAt level (cell :: cells) (i + 1) ↔ EndsBlockAt (level + 1) cells i := by
  refine and_congr Iff.rfl ?_
  rw [List.take_succ_cons, List.countP_cons_of_pos (by simp [begins]), List.countP_cons_of_neg (by simp [begins])]
  omega

theorem endsBlockAt_dedent (ends : cell.kind = .dedent) (i : Nat) :
    EndsBlockAt (level + 1) (cell :: cells) (i + 1) ↔ EndsBlockAt level cells i := by
  refine and_congr Iff.rfl ?_
  rw [List.take_succ_cons, List.countP_cons_of_neg (by simp [ends]), List.countP_cons_of_pos (by simp [ends])]
  omega

theorem endsBlockAt_other (begins : cell.kind ≠ .indent) (ends : cell.kind ≠ .dedent) (i : Nat) :
    EndsBlockAt level (cell :: cells) (i + 1) ↔ EndsBlockAt level cells i := by
  simp [EndsBlockAt, begins, ends]

theorem EndsBlockAt.lt {i : Nat} (block : EndsBlockAt level cells i) : i < cells.length := by
  obtain ⟨⟨cell, here, -⟩, -⟩ := block
  exact (List.getElem?_eq_some_iff.1 here).1

end EndsBlockAt

theorem Usable.fileAhead_nil (usable : s.Usable) (ends : s.current.kind = .endOfFile) : s.fileAhead = [] := by
  rw [fileAhead, usable.coming_cons, List.takeWhile_cons_of_neg (by simp [ends])]

theorem fileAhead_cons (coming : s.coming = s.current :: t.coming) (inside : s.current.kind ≠ .endOfFile) :
    s.fileAhead = s.current :: t.fileAhead := by
  rw [fileAhead, coming, List.takeWhile_cons_of_pos (by simp [inside])]
  rfl

/-- The search for the end of a block finds the first one in front of which blocks begin and end in pairs, if it may
look so far. The counter is how many blocks the tokens gone over have left open. -/
theorem Usable.searchDedent (budget level : Nat) (passed : List Cell) (usable : s.Usable) :
    ∃ found t, searchDedent level passed budget s = .ok found t ∧ Revisits s t ∧ t.Usable ∧
      Sought (fun i => i < budget ∧ EndsBlockAt level s.fileAhead i) passed s found t := by
  induction budget generalizing level passed s with
  | zero => exact ⟨none, s, rfl, .refl s, usable, .missed fun i reached => absurd reached.1 (Nat.not_lt_zero i)⟩
  | succ budget ih =>
    -- every case but the two in which the search ends goes one token on, with another counter
    have goesOn : ∀ next, s.current.kind ≠ .endOfFile → ¬ (s.current.kind = .dedent ∧ level = 0) →
        (∀ cells i, EndsBlockAt level (s.current :: cells) (i + 1) ↔ EndsBlockAt next cells i) →
        ∃ found t, (do
          discard TokenStream.forwardSignificant
          TokenStream.searchDedent next (s.current :: passed) budget : StreamM _) s = .ok found t ∧ Revisits s t ∧
          t.Usable ∧ Sought (fun i => i < budget + 1 ∧ EndsBlockAt level s.fileAhead i) passed s found t := by
      intro next inside other shift
      obtain ⟨t, moves, revisits, rested, coming⟩ := usable.forwardSignificant inside
      obtain ⟨found, u, searches, further, rested, sought⟩ := ih next (s.current :: passed) rested
      refine ⟨found, u, (bind_ok (discard_ok moves) _).trans searches, revisits.trans further, rested, ?_⟩
      rw [fileAhead_cons coming inside]
      refine sought.cons coming (fun reached => other (endsBlockAt_zero.1 reached.2)) fun i => ?_
      rw [Nat.add_lt_add_iff_right, shift]
    rw [TokenStream.searchDedent]
    simp only [bind, EStateM.bind, get_ok]
    cases kind : s.current.kind with
    | endOfFile =>
      refine ⟨none, s, rfl, .refl s, usable, .missed fun i reached => ?_⟩
      rw [usable.fileAhead_nil kind] at reached
      exact not_endsBlockAt_nil i reached.2
    | dedent =>
      obtain ⟨t, -, -, -, coming⟩ := usable.forwardSignificant (by simp [kind])
      cases level with
      | zero =>
        refine ⟨some passed.reverse, s, rfl, .refl s, usable, .here ⟨Nat.succ_pos budget, ?_⟩⟩
        rw [fileAhead_cons coming (by simp [kind])]
        exact endsBlockAt_zero.2 ⟨kind, rfl⟩
      | succ level =>
        exact goesOn level (by simp [kind]) (by simp) fun cells => endsBlockAt_dedent kind
    | indent => exact goesOn (level + 1) (by simp [kind]) (by simp [kind]) fun cells => endsBlockAt_indent kind
    | _ => exact goesOn level (by simp [kind]) (by simp [kind]) fun cells =>
        endsBlockAt_other (by simp [kind]) (by simp [kind])

/-! ### Looking ahead -/

/-- As far as the file goes, a walk comes to the token that is so many places on. -/
theorem Usable.walk (count : Nat) (usable : s.Usable) (within : count ≤ s.fileAhead.length) :
    ∃ t, peek.walk count s = .ok t.current t ∧ Revisits s t ∧ t.Usable ∧ t.coming = s.coming.drop count := by
  induction count generalizing s with
  | zero => exact ⟨s, rfl, .refl s, usable, rfl⟩
  | succ count ih =>
    have inside : s.current.kind ≠ .endOfFile := by
      intro ends
      rw [usable.fileAhead_nil ends] at within
      exact Nat.not_succ_le_zero count within
    obtain ⟨t, moves, revisits, rested, coming⟩ := usable.forwardSignificant inside
    rw [fileAhead_cons coming inside, List.length_cons, Nat.add_le_add_iff_right] at within
    obtain ⟨u, walks, further, rested, arrived⟩ := ih rested within
    refine ⟨u, ?_, revisits.trans further, rested, by rw [arrived, coming, List.drop_succ_cons]⟩
    have here : (get : StreamM TokenStream) s = .ok s s := rfl
    rw [peek.walk, bind_ok here, if_neg (by simpa using inside)]
    exact (bind_ok (discard_ok moves) _).trans walks

/-- Looking at a token so many places on leaves the stream as it is. -/
theorem Usable.peek {count : Nat} (usable : s.Usable) (within : count ≤ s.fileAhead.length) :
    ∃ cell t, TokenStream.peek count s = .ok cell t ∧ Revisits s t ∧ t.Usable ∧ t.drained = s.drained ∧
      s.coming[count]? = some cell := by
  obtain ⟨t, walks, revisits, rested, arrived⟩ := usable.walk count within
  have returns := revisits.trans (revisits_seek t s.current.index)
  obtain ⟨back, place⟩ := (revisits.reads rested.numbered).seek_back
  have same := returns.drained_eq place
  have looks : TokenStream.peek count s = .ok t.current (t.seek s.current.index) := by
    simp [TokenStream.peek, TokenStream.lookAround, walks]
  refine ⟨t.current, _, looks, returns, usable.of_drained back.numbered same, same, ?_⟩
  rw [← List.head?_drop, ← arrived, rested.coming_cons, List.head?_cons]

end TolerantParser.TokenStream
