import NotIo.Core.ImplsAlloc

/-!
# `read_until`

* `readUntil_appends`: whatever the reader does, the vector is only appended to.
-/

namespace NotIo

variable [Target] [Alloc] {E R : Type}

omit [Target] [Alloc] in
/-- No more is used up than is available. -/
theorem doneUsed_le (byte : UInt8) (available : List UInt8) :
    (doneUsed byte available).2 ≤ available.length := by
  unfold doneUsed
  split
  · rename_i n hn
    exact (List.idxOf?_eq_some_iff.mp hn).1
  · exact le_refl _

/-- The vector after a turn of the loop, whether it goes round or leaves it. -/
def vecOfTurn : Loop.Step (R × Vec × ℕ) (R × Vec × Outcome E ℕ) → Vec
  | .next s => s.2.1
  | .done res => res.2.1

/-- A chunk is appended up to the delimiter, or it is not appended at all. -/
theorem readUntilChunk_vec [BufRead E R] (byte : UInt8) (r : R) (buf : Vec) (read : ℕ)
    (available : List UInt8) :
    vecOfTurn (readUntilChunk E byte r buf read available) = buf ∨
      buf.extendFromSlice (available.take (doneUsed byte available).2)
        = some (vecOfTurn (readUntilChunk E byte r buf read available)) := by
  simp only [readUntilChunk]
  cases hv : buf.extendFromSlice (available.take (doneUsed byte available).2) with
  | none => exact Or.inl rfl
  | some buf' =>
    apply Or.inr
    cases BufRead.consume E r (doneUsed byte available).2 with
    | none => rfl
    | some r' =>
      cases usizeAdd read (doneUsed byte available).2 with
      | none => rfl
      | some read' =>
        dsimp only
        split <;> rfl

theorem readUntilBody_vec [ErrorImpl E] [BufRead E R] (byte : UInt8) (r : R) (buf : Vec)
    (read : ℕ) :
    ∃ A, (vecOfTurn (readUntilBody (E := E) byte (r, buf, read))).bytes = buf.bytes ++ A := by
  rcases hf : BufRead.fillBuf (E := E) r with ⟨r', available | e | _⟩
  · simp only [readUntilBody, hf]
    rcases readUntilChunk_vec (E := E) byte r' buf read available.bytes with h | h
    · exact ⟨[], by rw [h, List.append_nil]⟩
    · exact ⟨_, Vec.extendFromSlice_spec h⟩
  · refine ⟨[], ?_⟩
    simp only [readUntilBody, hf, List.append_nil]
    split <;> rfl
  · exact ⟨[], by simp only [readUntilBody, hf, List.append_nil, vecOfTurn]⟩

/-- **`read_until` only appends**, on every way out. -/
theorem readUntil_appends [ErrorImpl E] [BufRead E R] {fuel : ℕ} {r r' : R} {byte : UInt8}
    {v v' : Vec} {out : Outcome E ℕ} (h : readUntil fuel r byte v = some (r', v', out)) :
    ∃ A, v'.bytes = v.bytes ++ A := by
  refine Loop.loop_invariant (fun s => ∃ A, s.2.1.bytes = v.bytes ++ A)
    (fun res => ∃ A, res.2.1.bytes = v.bytes ++ A) ?_ ?_ ⟨[], (List.append_nil _).symm⟩ h
  · intro a s' h' hb
    obtain ⟨r, buf, read⟩ := a
    obtain ⟨A, hA⟩ := h'
    obtain ⟨B, hB⟩ := readUntilBody_vec (E := E) byte r buf read
    rw [hb, hA, List.append_assoc] at hB
    exact ⟨_, hB⟩
  · intro a res h' hb
    obtain ⟨r, buf, read⟩ := a
    obtain ⟨A, hA⟩ := h'
    obtain ⟨B, hB⟩ := readUntilBody_vec (E := E) byte r buf read
    rw [hb, hA, List.append_assoc] at hB
    exact ⟨_, hB⟩

end NotIo
