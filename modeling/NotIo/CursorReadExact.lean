import NotIo.Cursors
import NotIo.TwoViews

/-!
# The cursor's own `read_exact`

A cursor fills the buffer from a copy of what is left of its bytes, and passes over them
only when all went well.  The provided loop moves the cursor along while it reads.  They
differ in the position after a failure, and in nothing else (`readExact_agrees`).
-/

namespace NotIo

section

variable [Target] {E T : Type} [ErrorImpl E] [AsRef T]

namespace Cursor

/-- What the cursor's own `read_exact` comes to: it moves on only when it succeeds. -/
theorem readExact_own (c : Cursor T) (buf : List UInt8) :
    Loop.Returns (fun n => c.readExact (E := E) n buf)
      (if buf.length ≤ c.remaining.bytes.length then
        ({ c with pos := c.pos + U64.ofUsize buf.length }, c.remaining.bytes.take buf.length, .ok ())
      else (c, c.remaining.bytes ++ buf.drop c.remaining.bytes.length,
        .err (Error.ofErrorKind .unexpectedEof))) := by
  obtain ⟨n, hn⟩ := readExact_slice (E := E) c.remaining buf
  refine ⟨n, ?_⟩
  by_cases h : buf.length ≤ c.remaining.bytes.length
  · have htake : (c.remaining.bytes.take buf.length).length = buf.length := by
      rw [List.length_take]
      omega
    rw [if_pos h] at hn ⊢
    simp only [readExact, fillBuf_eq, hn, htake, consume_of_le h]
  · rw [if_neg h] at hn ⊢
    simp only [readExact, fillBuf_eq, hn]

/-- What the provided `read_exact` comes to on a cursor: it moves on over all that it has read. -/
theorem readExact_provided (c : Cursor T) {buf : List UInt8} (hlen : buf.length ≤ isizeMax) :
    Loop.Returns (fun n => NotIo.readExact (E := E) n c buf)
      ({ c with pos := c.pos + U64.ofUsize (min c.remaining.bytes.length buf.length) },
        c.remaining.bytes.take buf.length ++ buf.drop c.remaining.bytes.length,
        if buf.length ≤ c.remaining.bytes.length then .ok ()
        else .err (Error.ofErrorKind .unexpectedEof)) := by
  obtain ⟨c', hc, hret⟩ := (Settled.cursor (E := E) (T := T)).readExact c.fillBuf_eq hlen
  have hc' := (consume_of_le (Nat.min_le_left _ _)).symm.trans hc
  rw [Option.some.injEq] at hc'
  rw [hc']
  exact hret

/-- The one way in which the two differ. -/
structure ReadExactAgrees (E : Type) [ErrorImpl E] (c : Cursor T) (buf : List UInt8) : Prop where
  succeeds_iff :
    (∃ c' buf', Loop.Returns (fun n => c.readExact (E := E) n buf) (c', buf', .ok ())) ↔
      ∃ c' buf', Loop.Returns (fun n => NotIo.readExact (E := E) n c buf) (c', buf', .ok ())
  success : buf.length ≤ c.remaining.bytes.length → ∃ c',
    Loop.Returns (fun n => c.readExact (E := E) n buf)
      (c', c.remaining.bytes.take buf.length, .ok ()) ∧
    Loop.Returns (fun n => NotIo.readExact (E := E) n c buf)
      (c', c.remaining.bytes.take buf.length, .ok ())
  failure : c.remaining.bytes.length < buf.length → ∃ c',
    Loop.Returns (fun n => c.readExact (E := E) n buf)
      (c, c.remaining.bytes ++ buf.drop c.remaining.bytes.length,
        .err (Error.ofErrorKind .unexpectedEof)) ∧
    Loop.Returns (fun n => NotIo.readExact (E := E) n c buf)
      (c', c.remaining.bytes ++ buf.drop c.remaining.bytes.length,
        .err (Error.ofErrorKind .unexpectedEof))

/-- Calls to the cursor's own `read_exact`, all of which fail. -/
inductive FailingReads (E : Type) [ErrorImpl E] : Cursor T → List (List UInt8) → Cursor T → Prop
  | nil (c : Cursor T) : FailingReads E c [] c
  | cons {c c₁ c' : Cursor T} {buf buf' : List UInt8} {bufs : List (List UInt8)} {e : E} :
      Loop.Returns (fun n => c.readExact (E := E) n buf) (c₁, buf', .err e) →
      FailingReads E c₁ bufs c' → FailingReads E c (buf :: bufs) c'

/-- A failing call leaves the cursor as it was. -/
theorem eq_of_readExact_err {c c' : Cursor T} {buf buf' : List UInt8} {e : E}
    (h : Loop.Returns (fun n => c.readExact (E := E) n buf) (c', buf', .err e)) : c' = c := by
  have he := h.unique (readExact_mono c buf) (readExact_own c buf)
  by_cases hle : buf.length ≤ c.remaining.bytes.length
  · rw [if_pos hle] at he
    simp at he
  · rw [if_neg hle] at he
    exact congrArg Prod.fst he

/-- **Failing calls leave the cursor as it was.** -/
theorem eq_of_failingReads {c c' : Cursor T} {bufs : List (List UInt8)}
    (h : FailingReads E c bufs c') : c' = c := by
  induction h with
  | nil c => rfl
  | cons hfail _ ih => rw [ih, eq_of_readExact_err hfail]

theorem readExactAgrees (c : Cursor T) {buf : List UInt8} (hlen : buf.length ≤ isizeMax) :
    ReadExactAgrees E c buf := by
  have hown := readExact_own (E := E) c buf
  have hprov := readExact_provided (E := E) c hlen
  by_cases hle : buf.length ≤ c.remaining.bytes.length
  · have hbytes : c.remaining.bytes.take buf.length ++ buf.drop c.remaining.bytes.length
        = c.remaining.bytes.take buf.length := by
      rw [List.drop_of_length_le hle, List.append_nil]
    rw [if_pos hle] at hown
    rw [if_pos hle, Nat.min_eq_right hle, hbytes] at hprov
    exact ⟨⟨fun _ => ⟨_, _, hprov⟩, fun _ => ⟨_, _, hown⟩⟩, fun _ => ⟨_, hown, hprov⟩,
      fun h => absurd hle (not_le.mpr h)⟩
  · have hbytes : c.remaining.bytes.take buf.length = c.remaining.bytes :=
      List.take_of_length_le (by omega)
    rw [if_neg hle] at hown hprov
    rw [hbytes] at hprov
    refine ⟨⟨?_, ?_⟩, fun h => absurd h hle, fun _ => ⟨_, hown, hprov⟩⟩
    · intro h
      obtain ⟨c', buf', hok⟩ := h
      have he := hok.unique (readExact_mono c buf) hown
      simp at he
    · intro h
      obtain ⟨c', buf', hok⟩ := h
      have he := hok.unique (NotIo.readExact_mono c buf) hprov
      simp at he

end Cursor

/-- **The cursor's own `read_exact` is the provided one, except that failure keeps the
position**: whatever comes after failing calls comes as if they had not been made. -/
theorem readExact_agrees (c : Cursor T) :
    (∀ buf : Slice, c.ReadExactAgrees E buf.bytes) ∧
    ∀ (bufs : List (List UInt8)) (c' : Cursor T), Cursor.FailingReads E c bufs c' →
      c'.position = c.position ∧
      (∀ buf, Read.read (E := E) c' buf = Read.read c buf) ∧
      BufRead.fillBuf (E := E) c' = BufRead.fillBuf c ∧
      (∀ offset, Seek.seek (E := E) c' (.fromCurrent offset) = Seek.seek c (.fromCurrent offset)) := by
  refine ⟨fun buf => c.readExactAgrees buf.length_le, ?_⟩
  intro bufs c' h
  rw [Cursor.eq_of_failingReads h]
  exact ⟨rfl, fun _ => rfl, rfl, fun _ => rfl⟩

end

end NotIo
