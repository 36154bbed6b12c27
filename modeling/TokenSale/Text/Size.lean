/-!
# The size of text

How many bytes characters take up in UTF-8.
-/

namespace TokenSale.Text

/-- The number of bytes that encode characters. -/
def byteLength : List Char → Nat
  | [] => 0
  | c :: cs => c.utf8Size + byteLength cs

theorem byteLength_append (first rest : List Char) :
    byteLength (first ++ rest) = byteLength first + byteLength rest := by
  induction first with
  | nil => exact (Nat.zero_add _).symm
  | cons c first ih => rw [List.cons_append, byteLength, byteLength, ih, Nat.add_assoc]

theorem byteLength_le_of_sublist {few many : List Char} (h : few.Sublist many) :
    byteLength few ≤ byteLength many := by
  induction h with
  | slnil => exact Nat.le_refl _
  | cons c h ih => exact Nat.le_add_left_of_le ih
  | cons_cons c h ih => exact Nat.add_le_add_left ih _

end TokenSale.Text
