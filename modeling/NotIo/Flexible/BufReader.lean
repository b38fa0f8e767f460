import NotIo.FileReader

/-!
# `std::io::BufReader`

A `BufReader` reads ahead of what it has given.

* `BufReader.chunked`: it shows the stream of the reader inside.
-/

namespace NotIo.Flexible

section

variable [Target] {E R : Type}

/-- `std::io::BufReader`: `unread` is the part of its buffer that it has still to give. -/
structure BufReader (R : Type) where
  inner : R
  unread : Slice
  capacity : ℕ
  capacity_pos : 0 < capacity
  capacity_le : capacity ≤ isizeMax

namespace BufReader

/-- `BufReader::new`, which allocates 8 KiB. -/
def new (inner : R) : BufReader R :=
  ⟨inner, Slice.empty, 8192, by decide, le_isizeMax_of_le (by decide)⟩

/-- The buffer after a read that was answered with `n`. -/
def filled (buf : List UInt8) (n : ℕ) (h : buf.length ≤ isizeMax) : Slice :=
  ⟨buf.take n, le_trans (List.length_take_le' _ _) h⟩

/-- `fill_buf`: an empty buffer is filled up by one read. -/
def fillBuf [Read E R] (self : BufReader R) : BufReader R × Outcome E Slice :=
  if self.unread.bytes.isEmpty then
    match h : Read.read (E := E) self.inner (List.replicate self.capacity 0) with
    | (inner, buf, .ok n) =>
      if n ≤ buf.length then
        let unread := filled buf n (by
          rw [read_length_of_eq h, List.length_replicate]
          exact self.capacity_le)
        ({ self with inner, unread }, .ok unread)
      else ({ self with inner }, .panic)
    | (inner, _, .err e) => ({ self with inner }, .err e)
    | (inner, _, .panic) => ({ self with inner }, .panic)
  else (self, .ok self.unread)

def consume (self : BufReader R) (amt : ℕ) : BufReader R :=
  { self with unread := self.unread.drop amt }

/-- `read`: a large buffer is filled by the reader inside when there is nothing to give. -/
def read [Read E R] (self : BufReader R) (buf : List UInt8) :
    BufReader R × List UInt8 × Outcome E ℕ :=
  if self.unread.bytes.isEmpty ∧ self.capacity ≤ buf.length then
    match Read.read (E := E) self.inner buf with
    | (inner, buf, n) => ({ self with inner }, buf, n)
  else
    match self.fillBuf (E := E) with
    | (self, .ok s) =>
      let n := min s.bytes.length buf.length
      (self.consume n, s.bytes.take n ++ buf.drop n, .ok n)
    | (self, .err e) => (self, buf, .err e)
    | (self, .panic) => (self, buf, .panic)

instance [Read E R] : Read E (BufReader R) where
  read := read
  read_length self buf := by
    unfold read
    split
    · exact Read.read_length (E := E) self.inner buf
    · rcases self.fillBuf (E := E) with ⟨self', s | e | _⟩
      · simp only [List.length_append, List.length_take, List.length_drop]
        omega
      · rfl
      · rfl

instance [Read E R] : BufRead E (BufReader R) where
  fillBuf := fillBuf
  consume self amt := some (self.consume amt)

/-- What `fill_buf` does: it shows what there is, or reads. -/
theorem fillBuf_cases [Read E R] {b b' : BufReader R} {o : Outcome E Slice}
    (h : BufRead.fillBuf b = (b', o)) :
    (b.unread.bytes ≠ [] ∧ b' = b ∧ o = .ok b.unread) ∨
    (b.unread.bytes = [] ∧ b'.capacity = b.capacity ∧
      ∃ buf o', Read.read (E := E) b.inner (List.replicate b.capacity 0) = (b'.inner, buf, o') ∧
        match o' with
        | .ok n => (n ≤ buf.length ∧ b'.unread.bytes = buf.take n ∧ o = .ok b'.unread) ∨
            (buf.length < n ∧ o = .panic)
        | .err e => b'.unread = b.unread ∧ o = .err e
        | .panic => o = .panic) := by
  have hdef : BufRead.fillBuf (E := E) b = b.fillBuf := rfl
  rw [hdef, fillBuf] at h
  by_cases hempty : b.unread.bytes = []
  · rw [if_pos (by rw [hempty, List.isEmpty_nil])] at h
    refine Or.inr ⟨hempty, ?_⟩
    split at h
    · rename_i inner buf n hread
      split at h
      · cases h
        exact ⟨rfl, buf, .ok n, hread, Or.inl ⟨‹_›, rfl, rfl⟩⟩
      · cases h
        exact ⟨rfl, buf, .ok n, hread, Or.inr ⟨by omega, rfl⟩⟩
    · rename_i inner buf e hread
      cases h
      exact ⟨rfl, buf, .err e, hread, rfl, rfl⟩
    · rename_i inner buf hread
      cases h
      exact ⟨rfl, buf, .panic, hread, rfl⟩
  · rw [if_neg (by rwa [List.isEmpty_iff])] at h
    cases h
    exact Or.inl ⟨hempty, rfl, rfl⟩

theorem replicate_le (b : BufReader R) : (List.replicate b.capacity (0 : UInt8)).length ≤ isizeMax := by
  rw [List.length_replicate]
  exact b.capacity_le

/-- What a `BufReader` has still to give. -/
def rest [Read E R] (s : Source E R) (b : BufReader R) : ℕ → Option UInt8 :=
  prepend b.unread.bytes (s.rest b.inner)

theorem rest_of_nil [Read E R] (s : Source E R) {b : BufReader R} (h : b.unread.bytes = []) :
    b.rest s = s.rest b.inner := by
  rw [rest, h, prepend_nil]

/-- What is shown is in the buffer, and nothing is lost when it is filled. -/
theorem fillBuf_ok [Read E R] (s : Source E R) {b b' : BufReader R} {shown : Slice}
    (h : BufRead.fillBuf (E := E) b = (b', .ok shown)) :
    b'.unread = shown ∧ b'.rest s = b.rest s ∧ (shown.bytes = [] → Ended (b'.rest s)) := by
  rcases fillBuf_cases h with ⟨hne, rfl, ho⟩ | ⟨hnil, -, buf, o', hread, ho⟩
  · cases ho
    exact ⟨rfl, rfl, fun hempty => absurd hempty hne⟩
  · rcases o' with n | e | _
    · rcases ho with ⟨hn, hunread, ho⟩ | ⟨-, ho⟩
      · cases ho
        obtain ⟨-, hpass, hend⟩ := s.read_ok b.replicate_le hread
        refine ⟨rfl, ?_, ?_⟩
        · rw [rest, hunread, hpass.eq_prepend, rest_of_nil s hnil]
        · intro hempty
          rw [rest_of_nil s hempty]
          have hbuf := read_length_of_eq hread
          rw [List.length_replicate] at hbuf
          have hpos := b.capacity_pos
          refine hend ?_ ?_
          · rw [hempty, eq_comm, List.take_eq_nil_iff] at hunread
            rcases hunread with hzero | hbufnil
            · exact hzero
            · rw [hbufnil, List.length_nil] at hbuf
              omega
          · exact List.ne_nil_of_length_pos (by rw [List.length_replicate]; exact hpos)
      · cases ho
    · cases ho.2
    · cases ho

theorem fillBuf_err [Read E R] (s : Source E R) {b b' : BufReader R} {e : E}
    (h : BufRead.fillBuf b = (b', .err e)) :
    b'.rest s = b.rest s ∧ FailedWith (fun _ : R => True) b'.inner e := by
  rcases fillBuf_cases h with ⟨-, -, ho⟩ | ⟨hnil, -, buf, o', hread, ho⟩
  · cases ho
  · rcases o' with n | e' | _
    · rcases ho with ⟨-, -, ho⟩ | ⟨-, ho⟩ <;> cases ho
    · obtain ⟨hunread, ho⟩ := ho
      cases ho
      refine ⟨?_, b.inner, _, buf, trivial, b.replicate_le, hread⟩
      rw [rest, hunread, s.read_err b.replicate_le hread]
      rfl
    · cases ho

theorem fillBuf_ne_panic [Read E R] (s : Source E R) (b : BufReader R) :
    (BufRead.fillBuf (E := E) b).2 ≠ .panic := by
  rcases h : BufRead.fillBuf (E := E) b with ⟨b', o⟩
  rcases fillBuf_cases h with ⟨-, -, rfl⟩ | ⟨-, -, buf, o', hread, ho⟩
  · exact Outcome.ok_ne_panic
  · rcases o' with n | e' | _
    · rcases ho with ⟨-, -, rfl⟩ | ⟨hlt, -⟩
      · exact Outcome.ok_ne_panic
      · obtain ⟨hn, -, -⟩ := s.read_ok b.replicate_le hread
        rw [← read_length_of_eq hread] at hn
        omega
    · rw [ho.2]
      exact Outcome.err_ne_panic
    · exact absurd (by rw [hread]) (s.read_ne_panic b.inner _ b.replicate_le)

/-- **A `BufReader` shows the stream of the reader inside.** -/
def chunked [Read E R] (s : Source E R) : Chunked E (BufReader R) where
  rest := rest s
  fillBuf_ok {b b' shown} h := by
    obtain ⟨hunread, hrest, hend⟩ := fillBuf_ok s h
    refine ⟨hrest, hend, ?_⟩
    intro amt hamt
    refine ⟨b'.consume amt, rfl, ?_⟩
    rw [← hunread]
    show Passes (prepend b'.unread.bytes _) (b'.unread.bytes.take amt)
      (prepend (b'.unread.bytes.drop amt) (s.rest b'.inner))
    conv => arg 1; rw [← List.take_append_drop amt b'.unread.bytes, prepend_append]
    exact .prepend _ _
  fillBuf_err h := (fillBuf_err s h).1
  fillBuf_ne_panic := fillBuf_ne_panic s

end BufReader

end

end NotIo.Flexible
