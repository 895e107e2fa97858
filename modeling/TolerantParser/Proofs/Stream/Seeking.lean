import TolerantParser.Stream.Basic

/-!
Where the cursor goes. No two tokens of a stream have one number, so the number of a token says where
in the document it stands, and going to it parts the document there (`seek_eq`). Nothing else of the
stream changes.
-/

namespace TolerantParser.TokenStream

/-- Tokens before the cursor that do not have the number are walked over. -/
theorem seekBehind_none (index : Nat) (behind : List Cell) (absent : ∀ cell ∈ behind, cell.index ≠ index)
    (current : Cell) (ahead : List Cell) : seekBehind index current ahead behind = none := by
  induction behind generalizing current ahead with
  | nil => rfl
  | cons cell behind ih =>
    rw [seekBehind, if_neg (absent cell (by simp))]
    exact ih (fun other member => absent other (by simp [member])) _ _

theorem seekBehind_append (cell : Cell) (between before : List Cell)
    (absent : ∀ other ∈ between, other.index ≠ cell.index) (current : Cell) (ahead : List Cell) :
    seekBehind cell.index current ahead (between ++ cell :: before) =
      some (before, cell, between.reverse ++ current :: ahead) := by
  induction between generalizing current ahead with
  | nil => simp [seekBehind]
  | cons other between ih =>
    rw [List.cons_append, seekBehind, if_neg (absent other (by simp)),
      ih (fun next member => absent next (by simp [member]))]
    simp

theorem seekAhead_append (cell : Cell) (between after : List Cell)
    (absent : ∀ other ∈ between, other.index ≠ cell.index) (behind : List Cell) (current : Cell) :
    seekAhead cell.index behind current (between ++ cell :: after) =
      some (between.reverse ++ current :: behind, cell, after) := by
  induction between generalizing current behind with
  | nil => simp [seekAhead]
  | cons other between ih =>
    rw [List.cons_append, seekAhead, if_neg (absent other (by simp)),
      ih (fun next member => absent next (by simp [member]))]
    simp

/-- The cursor goes to the token wherever in the document it stands: before the cursor, at it, or
behind it. -/
theorem seek_eq {s : TokenStream} (nodup : (s.document.map Cell.index).Nodup) {before after : List Cell}
    {cell : Cell} (parts : s.document = before ++ cell :: after) :
    s.seek cell.index = { s with behind := before.reverse, current := cell, ahead := after } := by
  have distinct := nodup
  rw [parts, List.map_append, List.map_cons, List.nodup_append] at distinct
  obtain ⟨-, afterNodup, apart⟩ := distinct
  have notBefore : ∀ other ∈ before, other.index ≠ cell.index := fun other member =>
    apart _ (List.mem_map_of_mem member) _ (by simp)
  have notAfter : ∀ other ∈ after, other.index ≠ cell.index := fun other member same =>
    (List.nodup_cons.mp afterNodup).1 (List.mem_map.2 ⟨other, member, same⟩)
  unfold document at parts
  rw [seek]
  rcases List.append_eq_append_iff.1 parts with ⟨rest, split, tail⟩ | ⟨rest, split, tail⟩
  · cases rest with
    | nil =>
      -- the token is the one at the cursor
      simp only [List.append_nil, List.nil_append, List.cons.injEq] at split tail
      obtain ⟨rfl, rfl⟩ := tail
      subst split
      simp
    | cons head rest =>
      simp only [List.cons_append, List.cons.injEq] at tail
      obtain ⟨rfl, tail⟩ := tail
      subst split
      have elsewhere : s.current.index ≠ cell.index := notBefore _ (by simp)
      have absent : ∀ other ∈ s.behind, other.index ≠ cell.index := fun other member =>
        notBefore other (by simp [member])
      rw [if_neg elsewhere, seekBehind_none _ _ absent, tail, Option.none_or,
        seekAhead_append cell rest after fun other member => notBefore other (by simp [member])]
      simp
  · cases rest with
    | nil =>
      simp only [List.append_nil, List.nil_append, List.cons.injEq] at split tail
      obtain ⟨rfl, rfl⟩ := tail
      rw [if_pos rfl, ← split, List.reverse_reverse]
    | cons head rest =>
      simp only [List.cons_append, List.cons.injEq] at tail
      obtain ⟨rfl, rfl⟩ := tail
      have elsewhere : s.current.index ≠ cell.index := notAfter _ (by simp)
      have behind : s.behind = rest.reverse ++ cell :: before.reverse := by
        rw [← List.reverse_reverse s.behind, split]
        simp
      rw [if_neg elsewhere, behind, seekBehind_append cell rest.reverse before.reverse
        fun other member => notAfter other (by simp [List.mem_reverse.1 member])]
      simp

/-! ### Wherever the cursor goes, the document stays -/

theorem seekBehind_document {index : Nat} {behind : List Cell} {current : Cell} {ahead : List Cell}
    {before after : List Cell} {cell : Cell}
    (found : seekBehind index current ahead behind = some (before, cell, after)) :
    before.reverse ++ cell :: after = behind.reverse ++ current :: ahead := by
  induction behind generalizing current ahead with
  | nil => cases found
  | cons other behind ih =>
    rw [seekBehind] at found
    split at found
    · simp only [Option.some.injEq, Prod.mk.injEq] at found
      obtain ⟨rfl, rfl, rfl⟩ := found
      simp
    · rw [ih found]
      simp

theorem seekAhead_document {index : Nat} {behind : List Cell} {current : Cell} {ahead : List Cell}
    {before after : List Cell} {cell : Cell}
    (found : seekAhead index behind current ahead = some (before, cell, after)) :
    before.reverse ++ cell :: after = behind.reverse ++ current :: ahead := by
  induction ahead generalizing current behind with
  | nil => cases found
  | cons other ahead ih =>
    rw [seekAhead] at found
    split at found
    · simp only [Option.some.injEq, Prod.mk.injEq] at found
      obtain ⟨rfl, rfl, rfl⟩ := found
      simp
    · rw [ih found]
      simp

theorem document_seek (s : TokenStream) (index : Nat) : (s.seek index).document = s.document := by
  rw [seek]
  split
  · rfl
  · split
    next before cell after found =>
      rcases Option.or_eq_some_iff.1 found with behind | ⟨-, ahead⟩
      · exact seekBehind_document behind
      · exact seekAhead_document ahead
    · rfl

theorem seek_frame (s : TokenStream) (index : Nat) :
    (s.seek index).dialect = s.dialect ∧ (s.seek index).unread = s.unread ∧
      (s.seek index).size = s.size := by
  rw [seek]
  split
  · exact ⟨rfl, rfl, rfl⟩
  · split <;> exact ⟨rfl, rfl, rfl⟩

end TolerantParser.TokenStream
