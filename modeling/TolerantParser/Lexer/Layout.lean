/-!
Blocks by indentation: the columns of the open blocks, innermost first, and what a new line's column
does to them.

Embeds `_queue_indentation`.
-/

namespace TolerantParser

/-- What the column of a line changes: how many blocks end, and whether one begins. `columns` are
those of the blocks open afterwards. -/
structure LayoutChange where
  dedents : Nat
  opens : Bool
  columns : List Nat
  deriving DecidableEq, Repr

/-- Blocks to the right of the column end. If the line still stands to the right of the innermost
block left, it begins a block of its own, also when it has just ended others. -/
def layoutAt (column : Nat) (columns : List Nat) : LayoutChange :=
  let kept := columns.dropWhile (column < ·)
  let opens := kept.headD 0 < column
  ⟨columns.length - kept.length, opens, if opens then column :: kept else kept⟩

/-- Every open block ends or is kept. -/
theorem dedents_layoutAt (column : Nat) (columns : List Nat) :
    (layoutAt column columns).dedents + (columns.dropWhile (column < ·)).length = columns.length :=
  Nat.sub_add_cancel (List.dropWhile_suffix _).length_le

/-- A block that begins is the innermost one. -/
theorem columns_layoutAt (column : Nat) (columns : List Nat) :
    (layoutAt column columns).columns = if (layoutAt column columns).opens
      then column :: columns.dropWhile (column < ·) else columns.dropWhile (column < ·) := by
  simp [layoutAt]

end TolerantParser
