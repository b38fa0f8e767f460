import NotIo.Lib.Streams
import NotIo.ReadToEnd
import NotIo.ReadUntil

/-!
# Readers of one stream

`Views E R` says that the two interfaces of a `BufRead` are views of one stream of bytes:
`rest r` is the stream from where the reader stands, and what it delivers is what stands
there.  `Delivers Adv` is the part of it that the loops of the crate need: `Adv r D r'` says
that on the way from `r` to `r'` the bytes `D` were delivered.

* `readExact_delivers`, `readUntil_delivers`, `readToEnd_delivers`: what the loops hand on
  is what was delivered.
-/

namespace NotIo

variable [Target]

/-- **A `BufRead` whose two interfaces view one stream**: `rest r` is the stream from where
`r` stands, and `window r` bytes of it may be passed over by `consume`.  What a read leaves in
the buffer behind the bytes that it reports is not restricted. -/
structure Views (E R : Type) [BufRead E R] where
  rest : R → ℕ → Option UInt8
  window : R → ℕ
  window_le : ∀ r, window r ≤ isizeMax
  read_ok : ∀ {r r' : R} {buf buf' : List UInt8} {n : ℕ},
    Read.read r buf = (r', buf', (.ok n : Outcome E ℕ)) →
      n ≤ buf.length ∧ Passes (rest r) (buf'.take n) (rest r')
  read_err : ∀ {r r' : R} {buf buf' : List UInt8} {e : E},
    Read.read r buf = (r', buf', .err e) → Passes (rest r) [] (rest r')
  read_ne_panic : ∀ (r : R) (buf : List UInt8), (Read.read (E := E) r buf).2.2 ≠ .panic
  fillBuf_ok : ∀ {r r' : R} {s : Slice}, BufRead.fillBuf (E := E) r = (r', .ok s) →
    Passes (rest r) [] (rest r') ∧ (∃ rest', Passes (rest r') s.bytes rest') ∧
      window r' = s.bytes.length
  fillBuf_err : ∀ {r r' : R} {e : E}, BufRead.fillBuf r = (r', .err e) →
    Passes (rest r) [] (rest r')
  fillBuf_ne_panic : ∀ r : R, (BufRead.fillBuf (E := E) r).2 ≠ .panic
  consume : ∀ (r : R) (amt : ℕ), amt ≤ window r →
    ∃ r' D, BufRead.consume E r amt = some r' ∧ D.length = amt ∧ Passes (rest r) D (rest r')

/-- **The calls to a reader deliver bytes**, as `Adv` counts them. -/
structure Delivers (E : Type) {R : Type} [BufRead E R] (Adv : R → List UInt8 → R → Prop) : Prop where
  refl : ∀ r, Adv r [] r
  trans : ∀ {r r' r'' D D'}, Adv r D r' → Adv r' D' r'' → Adv r (D ++ D') r''
  read_ok : ∀ {r r' : R} {buf buf' : List UInt8} {n : ℕ}, buf.length ≤ isizeMax →
    Read.read r buf = (r', buf', (.ok n : Outcome E ℕ)) → n ≤ buf.length ∧ Adv r (buf'.take n) r'
  read_err : ∀ {r r' : R} {buf buf' : List UInt8} {e : E}, buf.length ≤ isizeMax →
    Read.read r buf = (r', buf', .err e) → Adv r [] r'
  read_ne_panic : ∀ (r : R) (buf : List UInt8), (Read.read (E := E) r buf).2.2 ≠ .panic
  fillBuf_ok : ∀ {r r' : R} {s : Slice}, BufRead.fillBuf (E := E) r = (r', .ok s) →
    Adv r [] r' ∧ ∀ amt, amt ≤ s.bytes.length →
      ∃ r'', BufRead.consume E r' amt = some r'' ∧ Adv r' (s.bytes.take amt) r''
  fillBuf_err : ∀ {r r' : R} {e : E}, BufRead.fillBuf r = (r', .err e) → Adv r [] r'
  fillBuf_ne_panic : ∀ r : R, (BufRead.fillBuf (E := E) r).2 ≠ .panic

/-! ### The loops -/

namespace Delivers

variable {E R : Type} [BufRead E R] {Adv : R → List UInt8 → R → Prop} (h : Delivers E Adv)

include h

theorem append_nil {r r' r'' : R} {D : List UInt8} (h₁ : Adv r D r') (h₂ : Adv r' [] r'') :
    Adv r D r'' := by
  have := h.trans h₁ h₂
  rwa [List.append_nil] at this

/-- What a turn of `read_exact` comes to, `r` being the reader that the call began with. -/
def ExactTurn (Adv : R → List UInt8 → R → Prop) (r : R) :
    Loop.Step (R × List UInt8 × List UInt8) (R × List UInt8 × Outcome E Unit) → Prop
  | .next (r', filled, rest) => Adv r filled r' ∧ rest.length ≤ isizeMax
  | .done (r', buf, out) => ∃ D, Adv r D r' ∧ D <+: buf ∧ (out = .ok () → D = buf)

theorem readExactBody_delivers [ErrorImpl E] {r r₁ : R} {filled rest : List UInt8}
    (hadv : Adv r filled r₁) (hsize : rest.length ≤ isizeMax) :
    ExactTurn Adv r (readExactBody (E := E) (r₁, filled, rest)) := by
  by_cases he : rest.isEmpty = true
  · simp only [readExactBody, he, if_true]
    rw [List.isEmpty_iff.mp he, List.append_nil]
    exact ⟨filled, hadv, List.prefix_rfl, fun _ => rfl⟩
  · rcases hread : Read.read (E := E) r₁ rest with ⟨r₂, rest', (_ | k) | e | _⟩ <;>
      simp only [readExactBody, he, hread, Bool.false_eq_true, if_false]
    · obtain ⟨-, hstep⟩ := h.read_ok hsize hread
      exact ⟨filled, h.append_nil hadv hstep, List.prefix_append _ _,
        fun heq => absurd heq Outcome.err_ne_ok⟩
    · have hlen := read_length_of_eq hread
      obtain ⟨hk, hstep⟩ := h.read_ok hsize hread
      rw [if_pos (by omega)]
      refine ⟨h.trans hadv hstep, ?_⟩
      rw [List.length_drop]
      omega
    · have hlen := read_length_of_eq hread
      have hnone := h.append_nil hadv (h.read_err hsize hread)
      split
      · exact ⟨hnone, by omega⟩
      · exact ⟨filled, hnone, List.prefix_append _ _, fun heq => absurd heq Outcome.err_ne_ok⟩
    · exact absurd (by rw [hread]) (h.read_ne_panic r₁ rest)

/-- **`read_exact` fills the buffer with what was delivered.** -/
theorem readExact_delivers [ErrorImpl E] {n : ℕ} {r r' : R} {buf buf' : List UInt8}
    {out : Outcome E Unit} (hlen : buf.length ≤ isizeMax)
    (hrun : readExact n r buf = some (r', buf', out)) :
    ∃ D, Adv r D r' ∧ D <+: buf' ∧ (out = .ok () → D = buf') := by
  have hstart : ExactTurn (E := E) Adv r (.next (r, [], buf)) := ⟨h.refl r, hlen⟩
  exact Loop.loop_spec (ExactTurn Adv r) (fun _ hs => h.readExactBody_delivers hs.1 hs.2) hstart hrun

variable [Alloc]

/-- What a turn of `read_until` comes to: the vector has what was delivered. -/
def UntilTurn (Adv : R → List UInt8 → R → Prop) (r : R) (old : List UInt8) :
    Loop.Step (R × Vec × ℕ) (R × Vec × Outcome E ℕ) → Prop
  | .next (r', v, _) => ∃ D, Adv r D r' ∧ v.bytes = old ++ D
  | .done (r', v, _) => ∃ D, Adv r D r' ∧ v.bytes = old ++ D

theorem readUntilBody_delivers [ErrorImpl E] {r r₁ : R} {old D : List UInt8} {byte : UInt8} {v : Vec}
    {read : ℕ} (hadv : Adv r D r₁) (hv : v.bytes = old ++ D) :
    UntilTurn Adv r old (readUntilBody (E := E) byte (r₁, v, read)) := by
  rcases hfill : BufRead.fillBuf (E := E) r₁ with ⟨r₂, s | e | _⟩
  · obtain ⟨hnone, hconsume⟩ := h.fillBuf_ok hfill
    have hadv₂ := h.append_nil hadv hnone
    simp only [readUntilBody, hfill, readUntilChunk]
    cases hext : v.extendFromSlice (s.bytes.take (doneUsed byte s.bytes).2) with
    | none => exact ⟨D, hadv₂, hv⟩
    | some v' =>
      obtain ⟨r₃, hc, hstep⟩ := hconsume _ (doneUsed_le byte s.bytes)
      have hspec : ∃ D', Adv r D' r₃ ∧ v'.bytes = old ++ D' :=
        ⟨_, h.trans hadv₂ hstep, by rw [Vec.extendFromSlice_spec hext, hv, List.append_assoc]⟩
      simp only [hc]
      cases usizeAdd read (doneUsed byte s.bytes).2 with
      | none => exact hspec
      | some read' =>
        dsimp only
        split <;> exact hspec
  · have hnone := h.append_nil hadv (h.fillBuf_err hfill)
    simp only [readUntilBody, hfill]
    split <;> exact ⟨D, hnone, hv⟩
  · exact absurd (by rw [hfill]) (h.fillBuf_ne_panic r₁)

/-- **`read_until` appends what was delivered.** -/
theorem readUntil_delivers [ErrorImpl E] {n : ℕ} {r r' : R} {byte : UInt8} {v v' : Vec}
    {out : Outcome E ℕ} (hrun : readUntil n r byte v = some (r', v', out)) :
    ∃ D, Adv r D r' ∧ v'.bytes = v.bytes ++ D := by
  have hstart : UntilTurn (E := E) Adv r v.bytes (.next (r, v, 0)) :=
    ⟨[], h.refl r, (List.append_nil _).symm⟩
  refine Loop.loop_spec (UntilTurn Adv r v.bytes) ?_ hstart hrun
  intro s hs
  obtain ⟨r₁, v₁, read⟩ := s
  obtain ⟨D, hadv, hv⟩ := hs
  exact h.readUntilBody_delivers hadv hv

/-- What the calls of `read_to_end` delivered was delivered on the way. -/
theorem readToEnd_log [ErrorImpl E] {n : ℕ} {r r' : R} {v v' : Vec} {out : Outcome E ℕ}
    {log : List (ReadCall E)}
    (hrun : readToEnd n (⟨r, []⟩ : Logged (ReadCall E) R) v = some (⟨r', log⟩, v', out)) :
    Adv r (delivered log) r' := by
  let I : Logged (ReadCall E) R → Prop := fun l => Adv r (delivered l.log) l.inner
  have hstart : I ⟨r, []⟩ := h.refl r
  refine readToEnd_reader I ?_ hstart hrun
  intro s buf hsize hadv
  obtain ⟨r₁, log₁⟩ := s
  rcases hread : Read.read (E := E) r₁ buf with ⟨r₂, buf', k | e | _⟩
  · obtain ⟨hk, hstep⟩ := h.read_ok hsize hread
    simp only [I, Read.read, hread, delivered_concat, delivered_ok hk]
    exact h.trans hadv hstep
  · simp only [I, Read.read, hread, delivered_concat, ReadCall.delivered]
    exact h.trans hadv (h.read_err hsize hread)
  · exact absurd (by rw [hread]) (h.read_ne_panic r₁ buf)

/-- **`read_to_end` appends what was delivered.** -/
theorem readToEnd_delivers [ErrorImpl E] {n : ℕ} {r r' : R} {v v' : Vec} {out : Outcome E ℕ}
    (hrun : readToEnd n r v = some (r', v', out)) :
    ∃ D, Adv r D r' ∧ v'.bytes = v.bytes ++ D := by
  obtain ⟨log, hlog, hspec⟩ := readToEnd_exit hrun
  exact ⟨delivered log, h.readToEnd_log hlog, hspec.bytes⟩

end Delivers

end NotIo
