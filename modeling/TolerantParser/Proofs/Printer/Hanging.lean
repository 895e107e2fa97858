import TolerantParser.Proofs.Tree.Attaching

/-!
The order of what hangs on nodes. A token or a comment is tied to a mark: a token to its own place, a
comment to the mark behind it or before it (`Tied`). When all marks that some are tied to lie before those
that others are tied to, the first lie before the second; this is all that printing needs to know of the
spots for comments (`Tied.lt`).
-/

namespace TolerantParser

/-- What is known of a document: its marks and whether nodes start and end there. -/
structure Markings where
  marks : List Nat
  starts : Nat → Bool
  ends : Nat → Bool

/-- A place is tied to one of some marks. A mark that is an end of the node around takes no comment
there. -/
inductive Tied (markings : Markings) (around : Option Bounds) (own : List Nat) (place : Nat) : Prop
  | on : place ∈ own → Tied markings around own place
  | before {mark : Nat} : mark ∈ own → place ∉ markings.marks → NextMark markings.marks place mark →
      markings.starts mark → Frees Bounds.first around mark → Tied markings around own place
  | inside {mark last : Nat} : mark ∈ own → place ∉ markings.marks → NextMark markings.marks place mark →
      markings.starts mark = false → LastMark markings.marks place last → markings.ends last = false →
      Tied markings around own place
  | after {mark : Nat} : mark ∈ own → place ∉ markings.marks → LastMark markings.marks place mark →
      markings.ends mark → (∀ next, NextMark markings.marks place next → markings.starts next = false) →
      Frees Bounds.last around mark → Tied markings around own place

section

variable {markings : Markings} {around outer : Option Bounds} {own more : List Nat} {place other mark : Nat}

theorem NextMark.unique (next : NextMark markings.marks place mark) (also : NextMark markings.marks place other) :
    mark = other :=
  Nat.le_antisymm (next.first other also.listed also.behind) (also.first mark next.listed next.behind)

theorem NextMark.le_of_mark (next : NextMark markings.marks place mark) (fresh : place ∉ markings.marks)
    (listed : other ∈ markings.marks) (before : other < mark) : other < place := by
  have := next.first other listed
  have : other ≠ place := fun same => fresh (same ▸ listed)
  omega

theorem LastMark.le_of_mark (last : LastMark markings.marks place mark) (fresh : place ∉ markings.marks)
    (listed : other ∈ markings.marks) (behind : mark < other) : place < other := by
  have := last.last other listed
  have : other ≠ place := fun same => fresh (same ▸ listed)
  omega

/-- What is tied to a mark and not behind it lies before what is tied to later ones. -/
theorem Tied.lt_of_le (listed : mark ∈ markings.marks) (early : place ≤ mark)
    (second : Tied markings outer more other) (apart : ∀ next ∈ more, mark < next) : place < other := by
  refine Nat.lt_of_le_of_lt early ?_
  cases second with
  | on here => exact apart other here
  | before here fresh next => exact next.le_of_mark fresh listed (apart _ here)
  | inside here fresh next => exact next.le_of_mark fresh listed (apart _ here)
  | after here _ last => exact Nat.lt_trans (apart _ here) last.before

/-- What is tied to earlier marks lies before what is tied to later ones. -/
theorem Tied.lt (first : Tied markings around own place) (second : Tied markings outer more other)
    (listed : own ⊆ markings.marks) (among : more ⊆ markings.marks)
    (apart : ∀ mark ∈ own, ∀ next ∈ more, mark < next) : place < other := by
  cases first with
  | on here => exact second.lt_of_le (listed here) (Nat.le_refl _) (apart _ here)
  | before here _ next => exact second.lt_of_le (listed here) (Nat.le_of_lt next.behind) (apart _ here)
  | inside here _ next => exact second.lt_of_le (listed here) (Nat.le_of_lt next.behind) (apart _ here)
  | @after mark here fresh last ending notStarting =>
    have upTo : ∀ next ∈ more, place < next := fun next there =>
      last.le_of_mark fresh (among there) (apart mark here next there)
    -- comments of one gap all go to the same spot
    have gap : ∀ next ∈ more, NextMark markings.marks other next → other ≤ place →
        NextMark markings.marks place next := fun next there found early =>
      ⟨among there, upTo next there, fun mark listed behind =>
        found.first mark listed (Nat.lt_of_le_of_lt early behind)⟩
    cases second with
    | on there => exact upTo other there
    | after there _ found => exact Nat.lt_trans (upTo _ there) found.before
    | before there _ found starting =>
      by_contra early
      have same := gap _ there found (Nat.le_of_not_lt early)
      simp [notStarting _ same] at starting
    | @inside next before there otherFresh found _ previous notEnding =>
      by_contra early
      have behind := found.le_of_mark otherFresh (listed here) (apart mark here next there)
      have same : before = mark := Nat.le_antisymm
        (last.last before previous.listed (Nat.lt_of_lt_of_le previous.before (Nat.le_of_not_lt early)))
        (previous.last mark (listed here) behind)
      simp [same, ending] at notEnding

end

end TolerantParser
