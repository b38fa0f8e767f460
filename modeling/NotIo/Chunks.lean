import Mathlib.Order.RelClasses
import NotIo.Coherent
import NotIo.TwoViews

/-!
# `read_until` and chunks

`Chunked E R` says that the `fill_buf` of a `BufRead` shows a stream of bytes in chunks, which
may be of any lengths and may come with errors between them.

* `readUntil_chunks`: `read_until` sees the stream only.
* `Settled.chunked`, `Script.chunked`: the buffered readers of the crate show their bytes in one
  chunk; a script shows them in whatever chunks it says.
-/

namespace NotIo

section

variable [Target] {E R : Type}

/-- **A `BufRead` that shows a stream chunk by chunk**: `rest r` is the stream from where `r`
stands.  A chunk is empty only at the end of the stream. -/
structure Chunked (E R : Type) [BufRead E R] where
  rest : R → ℕ → Option UInt8
  fillBuf_ok : ∀ {r r' : R} {s : Slice}, BufRead.fillBuf (E := E) r = (r', .ok s) →
    rest r' = rest r ∧ (s.bytes = [] → Ended (rest r')) ∧ ∀ amt, amt ≤ s.bytes.length →
      ∃ r'', BufRead.consume E r' amt = some r'' ∧ Passes (rest r') (s.bytes.take amt) (rest r'')
  fillBuf_err : ∀ {r r' : R} {e : E}, BufRead.fillBuf r = (r', .err e) → rest r' = rest r
  fillBuf_ne_panic : ∀ r : R, (BufRead.fillBuf (E := E) r).2 ≠ .panic

/-! ### A turn of the loop -/

omit [Target] in
theorem doneUsed_cases (byte : UInt8) (available : List UInt8) :
    (∃ Q, doneUsed byte available = (true, Q.length + 1) ∧
      available.take (Q.length + 1) = Q ++ [byte] ∧ byte ∉ Q) ∨
    (doneUsed byte available = (false, available.length) ∧ byte ∉ available) := by
  unfold doneUsed
  cases hidx : available.idxOf? byte with
  | none => exact Or.inr ⟨rfl, List.idxOf?_eq_none_iff.mp hidx⟩
  | some n =>
    obtain ⟨hn, hbyte, hbefore⟩ := List.idxOf?_eq_some_iff.mp hidx
    have hlen : (available.take n).length = n := List.length_take_of_le (Nat.le_of_lt hn)
    refine Or.inl ⟨available.take n, by rw [hlen], ?_, ?_⟩
    · rw [hlen, List.take_succ_eq_append_getElem hn, hbyte]
    · intro hmem
      obtain ⟨j, hj, hjb⟩ := List.mem_take_iff_getElem.mp hmem
      exact hbefore j (by omega) hjb

omit [Target] in
/-- The delimiter is not in what is used up, or it is the last byte of it. -/
theorem not_mem_dropLast_used (byte : UInt8) (available : List UInt8) :
    byte ∉ (available.take (doneUsed byte available).2).dropLast := by
  rcases doneUsed_cases byte available with ⟨Q, hdone, htake, hQ⟩ | ⟨hdone, hnone⟩
  · rwa [hdone, htake, List.dropLast_concat]
  · rw [hdone, List.take_length]
    exact fun hmem => hnone (List.dropLast_subset _ hmem)

/-- A turn in which the vector has room: neither `consume` nor the count can go wrong. -/
theorem readUntilChunk_eq [BufRead E R] [Alloc] {byte : UInt8} {r r' : R} {v v' : Vec} {read : ℕ}
    {available : List UInt8}
    (hext : v.extendFromSlice (available.take (doneUsed byte available).2) = some v')
    (hc : BufRead.consume E r (doneUsed byte available).2 = some r')
    (hread : read + (doneUsed byte available).2 ≤ v'.bytes.length) :
    readUntilChunk E byte r v read available =
      if (doneUsed byte available).1 || (doneUsed byte available).2 = 0 then
        .done (r', v', .ok (read + (doneUsed byte available).2))
      else .next (r', v', read + (doneUsed byte available).2) := by
  have hadd : usizeAdd read (doneUsed byte available).2 = some (read + (doneUsed byte available).2) :=
    if_pos (lt_of_le_isizeMax (le_trans hread v'.len_le_isizeMax))
  simp only [readUntilChunk, hext, hc, hadd]

section

variable [BufRead E R] [ErrorImpl E]

/-- The way of a reader from `r` on which `D` is consumed, chunk by chunk, and which meets no
errors but interruptions. -/
inductive Way (E : Type) {R : Type} [BufRead E R] [ErrorImpl E] (r : R) : List UInt8 → R → Prop
  | refl : Way E r [] r
  | chunk {D : List UInt8} {r₁ r₂ r₃ : R} {s : Slice} {amt : ℕ} : Way E r D r₁ →
      BufRead.fillBuf (E := E) r₁ = (r₂, .ok s) → amt ≤ s.bytes.length →
      BufRead.consume E r₂ amt = some r₃ → Way E r (D ++ s.bytes.take amt) r₃
  | interruption {D : List UInt8} {r₁ r₂ : R} {e : E} : Way E r D r₁ →
      BufRead.fillBuf r₁ = (r₂, .err e) → Error.isInterrupted e = true → Way E r D r₂

/-- `r'` is `r` after an interruption. -/
def Interrupts (E : Type) {R : Type} [BufRead E R] [ErrorImpl E] (r' r : R) : Prop :=
  ∃ e, BufRead.fillBuf (E := E) r = (r', .err e) ∧ Error.isInterrupted e = true

/-- On the way from `r` no interruptions follow one another for ever. -/
def InterruptedFinitely (E : Type) {R : Type} [BufRead E R] [ErrorImpl E] (r : R) : Prop :=
  ∀ D r', Way E r D r' → Acc (Interrupts E) r'

/-- On the way from `r` there are no errors but interruptions. -/
def OnlyInterrupted (E : Type) {R : Type} [BufRead E R] [ErrorImpl E] (r : R) : Prop :=
  ∀ D r₁ r' (e : E), Way E r D r₁ → BufRead.fillBuf r₁ = (r', .err e) → Error.isInterrupted e = true

namespace Chunked

variable (c : Chunked E R)

theorem passes_of_way {r r' : R} {D : List UInt8} (h : Way E r D r') :
    Passes (c.rest r) D (c.rest r') := by
  induction h with
  | refl => exact .refl _
  | chunk _ hfill hle hc ih =>
    obtain ⟨hrest, -, hconsume⟩ := c.fillBuf_ok hfill
    obtain ⟨r₃, hc', hstep⟩ := hconsume _ hle
    obtain rfl := Option.some.inj (hc'.symm.trans hc)
    exact (hrest ▸ ih).trans hstep
  | interruption _ hfill _ ih => exact c.fillBuf_err hfill ▸ ih

variable [Alloc]

/-- How `read_until` may end that was begun at `r` with the bytes `old`: what was consumed has
been appended, on every way out.  It panics where the vector is refused the room for what comes
next. -/
def UntilExit (byte : UInt8) (r : R) (old : List UInt8) (r' : R) (new : Vec)
    (out : Outcome E ℕ) : Prop :=
  ∃ P, new.bytes = old ++ P ∧ Passes (c.rest r) P (c.rest r') ∧
    match out with
    | .ok k => k = P.length ∧ UpTo byte (c.rest r) P (c.rest r') ∧ Way E r P r'
    | .err e => byte ∉ P ∧ Error.isInterrupted e = false ∧
        ∃ r₁, Way E r P r₁ ∧ BufRead.fillBuf r₁ = (r', .err e)
    | .panic => byte ∉ P ∧ ∃ A stop, Passes (c.rest r) (P ++ A) stop ∧ byte ∉ (P ++ A).dropLast ∧
        new.Refused A.length

/-- Between two turns: what was consumed has been appended and counted, and the delimiter was
not in it. -/
structure Skimming (byte : UInt8) (r : R) (old D : List UInt8) (s : R × Vec × ℕ) : Prop where
  way : Way E r D s.1
  bytes : s.2.1.bytes = old ++ D
  count : s.2.2 = D.length
  not_mem : byte ∉ D

/-- What a turn comes to. -/
def UntilTurn (byte : UInt8) (r : R) (old : List UInt8) :
    Loop.Step (R × Vec × ℕ) (R × Vec × Outcome E ℕ) → Prop
  | .next s => ∃ D, Skimming (E := E) byte r old D s
  | .done (r', v, out) => c.UntilExit byte r old r' v out

omit [Alloc] in
theorem Skimming.not_mem_used {byte : UInt8} {r : R} {old D : List UInt8} {s : R × Vec × ℕ}
    (hs : Skimming (E := E) byte r old D s) (available : List UInt8) :
    byte ∉ (D ++ available.take (doneUsed byte available).2).dropLast := by
  intro hmem
  rcases mem_dropLast_append hmem with h | h
  · exact hs.not_mem h
  · exact not_mem_dropLast_used byte available h

/-- What the vector and the count come to when `A` is appended. -/
theorem Skimming.appended {byte : UInt8} {r : R} {old D A : List UInt8} {s : R × Vec × ℕ} {v : Vec}
    (hs : Skimming (E := E) byte r old D s) (hext : s.2.1.extendFromSlice A = some v) :
    v.bytes = old ++ (D ++ A) ∧ s.2.2 + A.length = (D ++ A).length ∧
      s.2.2 + A.length ≤ v.bytes.length := by
  have hbytes : v.bytes = old ++ (D ++ A) := by
    rw [Vec.extendFromSlice_spec hext, hs.bytes, List.append_assoc]
  have hcount : s.2.2 + A.length = (D ++ A).length := by rw [hs.count, List.length_append]
  refine ⟨hbytes, hcount, ?_⟩
  rw [hbytes, hcount]
  exact (List.suffix_append old _).length_le

/-- The allocator refuses the room for what is to be used up. -/
theorem untilExit_refused {byte : UInt8} {r r₁ r₂ : R} {old D : List UInt8} {v : Vec} {read : ℕ}
    {s : Slice} (hs : Skimming (E := E) byte r old D (r₁, v, read))
    (hfill : BufRead.fillBuf (E := E) r₁ = (r₂, .ok s))
    (hext : v.extendFromSlice (s.bytes.take (doneUsed byte s.bytes).2) = none) :
    c.UntilExit byte r old r₂ v .panic := by
  obtain ⟨hrest, -, hconsume⟩ := c.fillBuf_ok hfill
  obtain ⟨r₃, hc, -⟩ := hconsume _ (doneUsed_le byte s.bytes)
  have hway := hs.way.chunk hfill (doneUsed_le byte s.bytes) hc
  exact ⟨D, hs.bytes, hrest ▸ c.passes_of_way hs.way, hs.not_mem, _, _, c.passes_of_way hway,
    hs.not_mem_used s.bytes, Vec.extendFromSlice_eq_none_iff.mp hext⟩

theorem readUntilChunk_turn {byte : UInt8} {r r₁ r₂ : R} {old D : List UInt8} {v : Vec} {read : ℕ}
    {s : Slice} (hs : Skimming (E := E) byte r old D (r₁, v, read))
    (hfill : BufRead.fillBuf (E := E) r₁ = (r₂, .ok s)) :
    c.UntilTurn byte r old (readUntilChunk E byte r₂ v read s.bytes) := by
  obtain ⟨-, hend, hconsume⟩ := c.fillBuf_ok hfill
  obtain ⟨r₃, hc, hstep⟩ := hconsume _ (doneUsed_le byte s.bytes)
  have hway := hs.way.chunk hfill (doneUsed_le byte s.bytes) hc
  have hpass := c.passes_of_way hway
  cases hext : v.extendFromSlice (s.bytes.take (doneUsed byte s.bytes).2) with
  | none =>
    simp only [readUntilChunk, hext]
    exact c.untilExit_refused hs hfill hext
  | some v' =>
    obtain ⟨hbytes, hcount, hroom⟩ := hs.appended hext
    rw [List.length_take_of_le (doneUsed_le byte s.bytes)] at hcount hroom
    rw [readUntilChunk_eq hext hc hroom, hcount]
    rcases doneUsed_cases byte s.bytes with ⟨Q, hdone, htake, hQ⟩ | ⟨hdone, hnone⟩
    · -- the delimiter is in the chunk
      rw [hdone] at hbytes hway hpass ⊢
      rw [if_pos (Bool.true_or _)]
      refine ⟨_, hbytes, hpass, rfl, ⟨hpass, Or.inl ⟨D ++ Q, ?_, ?_⟩⟩, hway⟩
      · rw [htake, List.append_assoc]
      · exact fun hmem => (List.mem_append.mp hmem).elim hs.not_mem hQ
    · have hall : byte ∉ D ++ s.bytes.take s.bytes.length := by
        rw [List.take_length]
        exact fun hmem => (List.mem_append.mp hmem).elim hs.not_mem hnone
      rw [hdone] at hbytes hway hpass hstep ⊢
      by_cases hzero : s.bytes.length = 0
      · -- the stream has ended
        rw [if_pos (by simp [hzero])]
        refine ⟨_, hbytes, hpass, rfl, ⟨hpass, Or.inr ⟨hall, ?_⟩⟩, hway⟩
        intro i
        rw [hstep.follows]
        exact hend (List.eq_nil_of_length_eq_zero hzero) _
      · rw [if_neg (by simp [hzero])]
        exact ⟨_, hway, hbytes, rfl, hall⟩

theorem readUntilBody_turn {byte : UInt8} {r : R} {old D : List UInt8} {s : R × Vec × ℕ}
    (hs : Skimming (E := E) byte r old D s) :
    c.UntilTurn byte r old (readUntilBody (E := E) byte s) := by
  obtain ⟨r₁, v, read⟩ := s
  rcases hfill : BufRead.fillBuf (E := E) r₁ with ⟨r₂, s | e | _⟩
  · simp only [readUntilBody, hfill]
    exact c.readUntilChunk_turn hs hfill
  · simp only [readUntilBody, hfill]
    by_cases hint : Error.isInterrupted e = true
    · rw [if_pos hint]
      exact ⟨D, hs.way.interruption hfill hint, hs.bytes, hs.count, hs.not_mem⟩
    · rw [if_neg hint]
      exact ⟨D, hs.bytes, c.fillBuf_err hfill ▸ c.passes_of_way hs.way, hs.not_mem,
        Bool.not_eq_true _ ▸ hint, r₁, hs.way, hfill⟩
  · exact absurd (by rw [hfill]) (c.fillBuf_ne_panic r₁)

/-! ### Runs -/

/-- What was consumed has been appended, on every way out. -/
theorem readUntil_exit {byte : UInt8} {fuel : ℕ} {r r' : R} {v v' : Vec} {out : Outcome E ℕ}
    (h : readUntil fuel r byte v = some (r', v', out)) :
    c.UntilExit byte r v.bytes r' v' out := by
  have hstart : c.UntilTurn byte r v.bytes (.next (r, v, 0)) :=
    ⟨[], .refl, (List.append_nil _).symm, rfl, List.not_mem_nil⟩
  refine Loop.loop_spec (c.UntilTurn byte r v.bytes) ?_ hstart h
  intro s hs
  obtain ⟨D, hD⟩ := hs
  exact c.readUntilBody_turn hD

include c in
/-- A turn that goes round has been interrupted, or it has used up a chunk. -/
theorem readUntilBody_next {byte : UInt8} {s s' : R × Vec × ℕ}
    (hread : s.2.2 ≤ s.2.1.bytes.length) (h : readUntilBody (E := E) byte s = .next s') :
    (Interrupts E s'.1 s.1 ∧ s'.2.2 = s.2.2) ∨ s.2.2 < s'.2.2 := by
  obtain ⟨r, v, read⟩ := s
  rcases hfill : BufRead.fillBuf (E := E) r with ⟨r₁, s | e | _⟩
  · right
    obtain ⟨-, -, hconsume⟩ := c.fillBuf_ok hfill
    obtain ⟨r₂, hc, -⟩ := hconsume _ (doneUsed_le byte s.bytes)
    simp only [readUntilBody, hfill] at h
    cases hext : v.extendFromSlice (s.bytes.take (doneUsed byte s.bytes).2) with
    | none => simp [readUntilChunk, hext] at h
    | some v' =>
      have hroom : read + (doneUsed byte s.bytes).2 ≤ v'.bytes.length := by
        rw [Vec.extendFromSlice_spec hext, List.length_append,
          List.length_take_of_le (doneUsed_le byte s.bytes)]
        exact Nat.add_le_add_right hread _
      rw [readUntilChunk_eq hext hc hroom] at h
      split at h
      · cases h
      · rename_i hgo
        cases h
        have hused : (doneUsed byte s.bytes).2 ≠ 0 := fun h0 => hgo (by simp [h0])
        show read < read + (doneUsed byte s.bytes).2
        omega
  · left
    simp only [readUntilBody, hfill] at h
    split at h
    · rename_i hint
      cases h
      exact ⟨⟨e, hfill, hint⟩, rfl⟩
    · cases h
  · simp [readUntilBody, hfill] at h

/-- **`read_until` comes to its end** when there is an end or a delimiter ahead and the reader is
not interrupted for ever. -/
theorem readUntil_ends {byte : UInt8} {r : R}
    (hfin : InterruptedFinitely E r) {P : List UInt8} {stop : ℕ → Option UInt8}
    (hup : UpTo byte (c.rest r) P stop) (v : Vec) :
    ∃ res, Loop.Returns (fun n => readUntil (E := E) n r byte v) res := by
  -- a chunk brings the end nearer, an interruption uses up interruptions
  let Reached := {r' : R // ∃ D, Way E r D r'}
  have hwf : WellFounded (InvImage (Interrupts E) (Subtype.val : Reached → R)) :=
    ⟨fun r' => InvImage.accessible _ (r'.2.elim fun D hD => hfin D r' hD)⟩
  let Ahead : ℕ × Reached → R × Vec × ℕ → Prop := fun g s =>
    g.1 + s.2.2 = P.length ∧ g.2.val = s.1 ∧ ∃ D, Skimming (E := E) byte r v.bytes D s
  have hstart : Ahead (P.length, ⟨r, [], .refl⟩) (r, v, 0) :=
    ⟨rfl, rfl, [], .refl, (List.append_nil _).symm, rfl, List.not_mem_nil⟩
  refine Loop.loop_terminates (WellFounded.prod_lex Nat.lt_wfRel.wf hwf) Ahead ?_ hstart
  intro g s s' hs hnext
  obtain ⟨n, r₁⟩ := g
  obtain ⟨hn, hr₁, D, hD⟩ := hs
  have hturn : c.UntilTurn byte r v.bytes (.next s') := hnext ▸ c.readUntilBody_turn hD
  obtain ⟨D', hD'⟩ := hturn
  have hle : s'.2.2 ≤ P.length := by
    rw [hD'.count]
    exact hup.length_le (c.passes_of_way hD'.way) fun hmem =>
      hD'.not_mem (List.dropLast_subset D' hmem)
  have hread : s.2.2 ≤ s.2.1.bytes.length := by
    rw [hD.count, hD.bytes]
    exact (List.suffix_append _ D).length_le
  refine ⟨(P.length - s'.2.2, ⟨s'.1, D', hD'.way⟩), ?_, Nat.sub_add_cancel hle, rfl, D', hD'⟩
  rcases c.readUntilBody_next hread hnext with ⟨hi, hsame⟩ | hmore
  · rw [hsame, ← hn, Nat.add_sub_cancel]
    exact .right _ (show Interrupts E s'.1 r₁.val from hr₁ ▸ hi)
  · exact .left _ _ (show P.length - s'.2.2 < n by omega)

/-- Nothing but interruptions, and no refusal of the allocator: what comes up to the delimiter
is consumed, appended and counted. -/
theorem readUntil_total {byte : UInt8} {r : R}
    (hfin : InterruptedFinitely E r) (honly : OnlyInterrupted E r) {P : List UInt8}
    {stop : ℕ → Option UInt8} (hup : UpTo byte (c.rest r) P stop) {v : Vec}
    (hgrant : ¬ RefusesWithin (v.bytes ++ P).length) :
    ∃ r' v', Loop.Returns (fun n => readUntil (E := E) n r byte v) (r', v', .ok P.length) ∧
      v'.bytes = v.bytes ++ P ∧ c.rest r' = stop := by
  obtain ⟨⟨r', v', out⟩, n, hrun⟩ := c.readUntil_ends hfin hup v
  obtain ⟨P', hbytes, hpass, hexit⟩ := c.readUntil_exit hrun
  cases out with
  | ok k =>
    obtain ⟨rfl, hup', -⟩ := hexit
    obtain ⟨rfl, rfl⟩ := hup'.unique hup
    exact ⟨r', v', ⟨n, hrun⟩, hbytes, rfl⟩
  | err e =>
    obtain ⟨-, hnot, r₁, hway, hfill⟩ := hexit
    rw [honly P' r₁ r' e hway hfill] at hnot
    cases hnot
  | panic =>
    obtain ⟨-, A, stop', hA, hlast, hrefused⟩ := hexit
    have hle := hup.length_le hA hlast
    refine absurd ⟨v', A.length, ?_, hrefused⟩ hgrant
    rw [hbytes]
    simp only [List.length_append] at hle ⊢
    omega

end Chunked

/-- **`read_until` sees the stream only**: every exit of every run, the same result for every
other chunking of the same stream, and the end of the loop on every stream that ends. -/
theorem readUntil_chunks [Alloc] {E' R' : Type} [ErrorImpl E'] [BufRead E' R'] (c : Chunked E R)
    (c' : Chunked E' R') (byte : UInt8) (r : R) (v : Vec) :
    (∀ fuel r' v' out, readUntil fuel r byte v = some (r', v', out) →
      c.UntilExit byte r v.bytes r' v' out) ∧
    (∀ fuel r₁ v₁ k (s : R') (w : Vec) fuel' s₁ w₁ k', c'.rest s = c.rest r →
      readUntil (E := E) fuel r byte v = some (r₁, v₁, .ok k) →
      readUntil (E := E') fuel' s byte w = some (s₁, w₁, .ok k') →
      k = k' ∧ c'.rest s₁ = c.rest r₁ ∧ ∃ P, v₁.bytes = v.bytes ++ P ∧ w₁.bytes = w.bytes ++ P) ∧
    (InterruptedFinitely E r → ∀ l : List UInt8, (c.rest r = fun i => l[i]?) →
      ∃ P l', l = P ++ l' ∧ UpTo byte (c.rest r) P (fun i => l'[i]?) ∧
        ∃ res, Loop.Returns (fun n => readUntil (E := E) n r byte v) res) ∧
    (InterruptedFinitely E r → OnlyInterrupted E r →
      ∀ P stop, UpTo byte (c.rest r) P stop → ¬ RefusesWithin (v.bytes ++ P).length →
        ∃ r' v', Loop.Returns (fun n => readUntil (E := E) n r byte v) (r', v', .ok P.length) ∧
          v'.bytes = v.bytes ++ P ∧ c.rest r' = stop) := by
  refine ⟨fun _ _ _ _ h => c.readUntil_exit h, ?_, ?_, ?_⟩
  · intro fuel r₁ v₁ k s w fuel' s₁ w₁ k' hsame h h'
    obtain ⟨P, hbytes, -, rfl, hup, -⟩ := c.readUntil_exit h
    obtain ⟨P', hbytes', -, rfl, hup', -⟩ := c'.readUntil_exit h'
    obtain ⟨rfl, hrest⟩ := (hsame ▸ hup').unique hup
    exact ⟨rfl, hrest, _, hbytes, hbytes'⟩
  · intro hfin l hl
    obtain ⟨P, l', rfl, hup⟩ := UpTo.exists_of_list byte l
    rw [← hl] at hup
    exact ⟨P, l', rfl, hup, c.readUntil_ends hfin hup v⟩
  · intro hfin honly P stop hup hgrant
    exact c.readUntil_total hfin honly hup hgrant

end

/-! ### The readers of the crate -/

/-- The bytes that a reader shows. -/
def shown (E : Type) {R : Type} [BufRead E R] (r : R) : List UInt8 :=
  match (BufRead.fillBuf (E := E) r).2 with
  | .ok s => s.bytes
  | _ => []

theorem shown_eq [BufRead E R] {r r' : R} {s : Slice} (h : BufRead.fillBuf (E := E) r = (r', .ok s)) :
    shown E r = s.bytes := by
  rw [shown, h]

/-- **A settled reader shows all that it has in one chunk.** -/
def Settled.chunked [BufRead E R] (h : Settled E R) : Chunked E R where
  rest r i := (shown E r)[i]?
  fillBuf_ok {r r' s} hfill := by
    obtain ⟨s', hs⟩ := h.fillBuf r
    rw [hs, Prod.mk.injEq, Outcome.ok.injEq] at hfill
    obtain ⟨rfl, rfl⟩ := hfill
    refine ⟨rfl, ?_, ?_⟩
    · intro hnil i
      rw [shown_eq hs, hnil]
      exact List.getElem?_nil
    · intro amt hamt
      obtain ⟨r', hc⟩ := h.consume r s' amt hs hamt
      refine ⟨r', hc, ?_⟩
      rw [shown_eq hs, shown_eq (h.next r r' s' amt hs hamt hc)]
      conv => arg 1; rw [← List.take_append_drop amt s'.bytes]
      exact .list _ _
  fillBuf_err {r r' e} hfill := by
    obtain ⟨s', hs⟩ := h.fillBuf r
    rw [hs] at hfill
    cases hfill
  fillBuf_ne_panic r := by
    obtain ⟨s', hs⟩ := h.fillBuf r
    rw [hs]
    exact Outcome.ok_ne_panic

/-! ### Scripts -/

namespace Script

theorem events_of_fillBuf_err {r r' : Script E} {e : E} (h : BufRead.fillBuf r = (r', .err e)) :
    r.events = .error e :: r'.events := by
  obtain ⟨events⟩ := r
  rcases events with _ | ⟨⟨s, hs⟩ | e', events⟩ <;> cases h
  rfl

/-- **Every script is a chunking of its bytes.** -/
def chunked (E : Type) : Chunked E (Script E) where
  rest self i := (bytes self.events)[i]?
  fillBuf_ok {r r' s} h := by
    obtain ⟨events⟩ := r
    rcases events with _ | ⟨⟨s', hs⟩ | e, events⟩
    · cases h
      refine ⟨rfl, fun _ _ => rfl, fun amt hamt => ⟨⟨[]⟩, if_pos (Nat.le_zero.mp hamt), ?_⟩⟩
      rw [show Slice.empty.bytes = [] from rfl, List.take_nil]
      exact .refl _
    · cases h
      refine ⟨rfl, fun hnil => absurd hnil hs, fun amt hamt => ⟨_, if_pos hamt, ?_⟩⟩
      have hsplit : bytes (.chunk s hs :: events)
          = s.bytes.take amt ++ bytes (behind s amt events).events := by
        rw [bytes_behind hamt, ← List.append_assoc, List.take_append_drop]
        rfl
      rw [hsplit]
      exact .list _ _
    · cases h
  fillBuf_err {r r' e} h := by
    rw [events_of_fillBuf_err h]
    rfl
  fillBuf_ne_panic r := by
    obtain ⟨events⟩ := r
    rcases events with _ | ⟨⟨s', hs⟩ | e', events⟩ <;> nofun

/-- A script interrupts no more often than it says. -/
theorem interruptedFinitely [ErrorImpl E] (r : Script E) : InterruptedFinitely E r := by
  intro D r₁ _
  refine Subrelation.accessible ?_ ((measure fun self : Script E => self.events.length).wf.apply r₁)
  intro r' r h
  obtain ⟨e, hfill, -⟩ := h
  show r'.events.length < r.events.length
  rw [events_of_fillBuf_err hfill]
  exact Nat.lt_succ_self _

theorem mem_behind {s : Slice} {amt : ℕ} {events : List (Event E)} {e : E}
    (h : .error e ∈ (behind s amt events).events) : .error e ∈ events := by
  unfold behind at h
  split at h
  · exact (List.mem_cons.mp h).resolve_left (by simp)
  · exact h

/-- On the way through a script there are no errors but its own. -/
theorem mem_of_way [ErrorImpl E] {r r' : Script E} {D : List UInt8} (h : Way E r D r') {e : E}
    (he : .error e ∈ r'.events) : .error e ∈ r.events := by
  induction h with
  | refl => exact he
  | @chunk _ r₁ _ _ _ _ _ hfill _ hc ih =>
    obtain ⟨events⟩ := r₁
    rcases events with _ | ⟨⟨s', hs⟩ | e', events⟩ <;> cases hfill
    · obtain rfl := Option.some.inj (Option.ite_none_right_eq_some.mp hc).2
      exact ih he
    · obtain rfl := Option.some.inj (Option.ite_none_right_eq_some.mp hc).2
      exact ih (List.mem_cons_of_mem _ (mem_behind he))
  | interruption _ hfill _ ih =>
    apply ih
    rw [events_of_fillBuf_err hfill]
    exact List.mem_cons_of_mem _ he

theorem mem_of_fillBuf {r r' : Script E} {e : E} (h : BufRead.fillBuf r = (r', .err e)) :
    .error e ∈ r.events := by
  rw [events_of_fillBuf_err h]
  exact List.mem_cons_self

theorem onlyInterrupted [ErrorImpl E] {r : Script E}
    (h : ∀ e : E, .error e ∈ r.events → Error.isInterrupted e = true) : OnlyInterrupted E r := by
  intro D r₁ r' e hway hfill
  exact h e (mem_of_way hway (mem_of_fillBuf hfill))

end Script

end

open Machine64 in
/-- An interruption between two chunks, the second of which goes on behind the delimiter. -/
theorem readUntil_chunks_script :
    ∃ r' v', Loop.Returns
        (fun n => readUntil (E := Features.Error StdIo.plain .std) n
          (⟨[.chunk ⟨[1, 2], by decide⟩ (by decide), .error (Error.ofErrorKind .interrupted),
            .chunk ⟨[10, 4], by decide⟩ (by decide)]⟩ : Script (Features.Error StdIo.plain .std))
          10 Vec.new) (r', v', .ok 3) ∧
      v'.bytes = [1, 2, 10] ∧ (Script.chunked _).rest r' = fun i => [4][i]? := by
  refine (readUntil_chunks (Script.chunked (Features.Error StdIo.plain .std))
    (Script.chunked ImplsNostd.Error) 10 _ Vec.new).2.2.2 (Script.interruptedFinitely _) ?_
    [1, 2, 10] _ ⟨.list [1, 2, 10] [4], Or.inl ⟨[1, 2], rfl, by decide⟩⟩ ?_
  · refine Script.onlyInterrupted fun e he => ?_
    obtain rfl : e = (Error.ofErrorKind .interrupted : Features.Error StdIo.plain .std) := by
      simpa using he
    exact (isInterrupted_fromKind StdIo.plain StdIo.plain_lawful .std .interrupted).mpr ⟨rfl, rfl⟩
  · exact not_refusesWithin_exact (by decide)

end NotIo
