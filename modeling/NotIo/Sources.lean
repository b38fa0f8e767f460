import NotIo.Chunks
import NotIo.Interrupts

/-!
# Reading a stream to its end

`Source E R` says that a `Read` hands out a stream of bytes in pieces, which may be of any
lengths and may come with errors between them, only not for ever.  `Steady` readers fail with
nothing but interruptions.

* `readExact_exit`, `readToEnd_exit`: what is taken off the stream, on every way out.
* `readExact_source`, `readToEnd_source`: the loops come to their end and see the stream only.
-/

namespace NotIo

section

variable [Target] {E R : Type}

/-- `r'` is `r` after a read that has failed. -/
def Fails (E : Type) {R : Type} [Read E R] (r' r : R) : Prop :=
  ∃ buf buf' e, buf.length ≤ isizeMax ∧ Read.read (E := E) r buf = (r', buf', .err e)

/-- **A `Read` that hands out a stream piece by piece**: `rest r` is the stream from where `r`
stands.  Nothing is handed out only at the end of the stream. -/
structure Source (E R : Type) [Read E R] where
  rest : R → ℕ → Option UInt8
  read_ok : ∀ {r r' : R} {buf buf' : List UInt8} {n : ℕ}, buf.length ≤ isizeMax →
    Read.read r buf = (r', buf', (.ok n : Outcome E ℕ)) →
      n ≤ buf.length ∧ Passes (rest r) (buf'.take n) (rest r') ∧
        (n = 0 → buf ≠ [] → Ended (rest r'))
  read_err : ∀ {r r' : R} {buf buf' : List UInt8} {e : E}, buf.length ≤ isizeMax →
    Read.read r buf = (r', buf', .err e) → rest r' = rest r
  read_ne_panic : ∀ (r : R) (buf : List UInt8), buf.length ≤ isizeMax →
    (Read.read (E := E) r buf).2.2 ≠ .panic
  fails : WellFounded (Fails E (R := R))

/-- What every read keeps. -/
def Kept (E : Type) {R : Type} [Read E R] (I : R → Prop) : Prop :=
  ∀ (r : R) (buf : List UInt8), buf.length ≤ isizeMax → I r → I (Read.read (E := E) r buf).1

/-- The readers with `I` fail with nothing but interruptions. -/
structure Steady (E : Type) {R : Type} [Read E R] [ErrorImpl E] (I : R → Prop) : Prop where
  kept : Kept E I
  err : ∀ {r r' : R} {buf buf' : List UInt8} {e : E}, I r → buf.length ≤ isizeMax →
    Read.read r buf = (r', buf', .err e) → Error.isInterrupted e = true

theorem Kept.read [Read E R] {I : R → Prop} (h : Kept E I) {r r' : R} {buf buf' : List UInt8}
    {o : Outcome E ℕ} (hr : I r) (hlen : buf.length ≤ isizeMax)
    (hread : Read.read r buf = (r', buf', o)) : I r' := by
  have hI := h r buf hlen hr
  rwa [hread] at hI

theorem kept_true [Read E R] : Kept E fun _ : R => True := fun _ _ _ _ => trivial

theorem Steady.and [ErrorImpl E] [Read E R] {I J : R → Prop} (h : Steady E I) (hJ : Kept E J) :
    Steady E fun r => I r ∧ J r where
  kept r buf hlen hr := ⟨h.kept r buf hlen hr.1, hJ r buf hlen hr.2⟩
  err hr hlen hread := h.err hr.1 hlen hread

/-- `r'` is left by a read that has failed with `e`, where `I` was the case. -/
def FailedWith [Read E R] (I : R → Prop) (r' : R) (e : E) : Prop :=
  ∃ r buf buf', I r ∧ buf.length ≤ isizeMax ∧ Read.read (E := E) r buf = (r', buf', .err e)

theorem Steady.interrupted_of_failedWith [ErrorImpl E] [Read E R] {I : R → Prop}
    (h : Steady E I) {r : R} {e : E} (hr : FailedWith I r e) : Error.isInterrupted e = true := by
  obtain ⟨r₀, buf, buf', hI, hlen, hread⟩ := hr
  exact h.err hI hlen hread

namespace Source

variable [ErrorImpl E] [Read E R] (s : Source E R) {I : R → Prop}

/-! ### `read_exact` -/

/-- How `read_exact` may end that was begun at `r` with a buffer of the length `size`. -/
def ExactExit (I : R → Prop) (r : R) (size : ℕ) (r' : R) (buf : List UInt8)
    (out : Outcome E Unit) : Prop :=
  I r' ∧ ∃ D, Passes (s.rest r) D (s.rest r') ∧ D <+: buf ∧
    match out with
    | .ok () => D = buf ∧ D.length = size
    | .err e => D.length < size ∧ ((e = Error.ofErrorKind .unexpectedEof ∧ Ended (s.rest r')) ∨
        (Error.isInterrupted e = false ∧ FailedWith I r' e))
    | .panic => False

/-- What a turn of `read_exact` comes to. -/
def ExactTurn (I : R → Prop) (r : R) (size : ℕ) :
    Loop.Step (R × List UInt8 × List UInt8) (R × List UInt8 × Outcome E Unit) → Prop
  | .next (r', filled, rest) => I r' ∧ Passes (s.rest r) filled (s.rest r') ∧
      filled.length + rest.length = size ∧ rest.length ≤ isizeMax
  | .done (r', buf, out) => s.ExactExit I r size r' buf out

theorem readExactBody_turn (hI : Kept E I) {r r₁ : R} {filled rest : List UInt8} {size : ℕ}
    (h : s.ExactTurn I r size (.next (r₁, filled, rest))) :
    s.ExactTurn I r size (readExactBody (r₁, filled, rest)) := by
  obtain ⟨hr₁, hpass, hsize, hlen⟩ := h
  by_cases hnil : rest = []
  · subst hnil
    simp only [readExactBody, List.isEmpty_nil, if_true, List.append_nil]
    exact ⟨hr₁, filled, hpass, List.prefix_rfl, rfl, by simpa using hsize⟩
  · have hpos := List.length_pos_of_ne_nil hnil
    rcases hread : Read.read (E := E) r₁ rest with ⟨r₂, rest', (_ | n) | e | _⟩ <;>
      simp only [readExactBody, List.isEmpty_iff, if_neg hnil, hread]
    · obtain ⟨-, hstep, hend⟩ := s.read_ok hlen hread
      have hsame : Passes (s.rest r) (filled ++ []) (s.rest r₂) := hpass.trans hstep
      rw [List.append_nil] at hsame
      refine ⟨hI.read hr₁ hlen hread, filled, hsame, List.prefix_append _ _, by omega, Or.inl ?_⟩
      exact ⟨rfl, hend rfl hnil⟩
    · have hrest' := read_length_of_eq hread
      obtain ⟨hn, hstep, -⟩ := s.read_ok hlen hread
      rw [if_pos (by omega)]
      refine ⟨hI.read hr₁ hlen hread, hpass.trans hstep, ?_, ?_⟩
      · rw [List.length_append, List.length_take, List.length_drop]
        omega
      · rw [List.length_drop]
        omega
    · have hrest' := read_length_of_eq hread
      have hsame := s.read_err hlen hread
      by_cases hint : Error.isInterrupted e = true
      · rw [if_pos hint]
        exact ⟨hI.read hr₁ hlen hread, by rwa [hsame], by omega, by omega⟩
      · rw [if_neg hint]
        refine ⟨hI.read hr₁ hlen hread, filled, by rwa [hsame], List.prefix_append _ _, by omega,
          Or.inr ⟨by simpa using hint, r₁, rest, rest', hr₁, hlen, hread⟩⟩
    · exact absurd (by rw [hread]) (s.read_ne_panic r₁ rest hlen)

/-- What `read_exact` has taken off the stream, on every way out. -/
theorem readExact_exit (hI : Kept E I) {fuel : ℕ} {r r' : R} {buf buf' : List UInt8}
    {out : Outcome E Unit} (hr : I r) (hlen : buf.length ≤ isizeMax)
    (h : readExact fuel r buf = some (r', buf', out)) :
    s.ExactExit I r buf.length r' buf' out := by
  have hstart : s.ExactTurn I r buf.length (.next (r, [], buf)) :=
    ⟨hr, .refl _, by simp, hlen⟩
  refine Loop.loop_spec (s.ExactTurn I r buf.length) ?_ hstart h
  intro a ha
  obtain ⟨r₁, filled, rest⟩ := a
  exact s.readExactBody_turn hI ha

/-- A turn that goes round has left less to fill, or has been interrupted. -/
theorem readExactBody_next {a a' : R × List UInt8 × List UInt8} (hlen : a.2.2.length ≤ isizeMax)
    (h : readExactBody (E := E) a = .next a') :
    a'.2.2.length ≤ isizeMax ∧ Prod.Lex (· < ·) (Fails E) (a'.2.2.length, a'.1) (a.2.2.length, a.1) := by
  obtain ⟨r, filled, rest⟩ := a
  by_cases hnil : rest = []
  · simp [readExactBody, hnil] at h
  · rcases hread : Read.read (E := E) r rest with ⟨r₁, rest', (_ | n) | e | _⟩ <;>
      simp only [readExactBody, List.isEmpty_iff, if_neg hnil, hread] at h
    · cases h
    · split at h <;> cases h
      have hrest' := read_length_of_eq hread
      have hpos := List.length_pos_of_ne_nil hnil
      have hlt : (rest'.drop (n + 1)).length < rest.length := by
        rw [List.length_drop]
        omega
      exact ⟨le_trans (Nat.le_of_lt hlt) hlen, .left _ _ hlt⟩
    · split at h <;> cases h
      have hrest' := read_length_of_eq hread
      refine ⟨by simpa only [hrest'] using hlen, ?_⟩
      simp only [hrest']
      exact .right _ ⟨rest, rest', e, hlen, hread⟩
    · cases h

include s in
/-- `read_exact` comes to its end, on every stream. -/
theorem readExact_ends (r : R) {buf : List UInt8} (hlen : buf.length ≤ isizeMax) :
    ∃ res, Loop.Returns (fun n => readExact (E := E) n r buf) res := by
  have hstart : ((buf.length, r) : ℕ × R) = (buf.length, r) ∧ buf.length ≤ isizeMax := ⟨rfl, hlen⟩
  refine Loop.loop_terminates (WellFounded.prod_lex Nat.lt_wfRel.wf s.fails)
    (fun g a => g = (a.2.2.length, a.1) ∧ a.2.2.length ≤ isizeMax) ?_
    (s := (r, [], buf)) hstart
  intro g a a' ha hnext
  obtain ⟨rfl, hsize⟩ := ha
  obtain ⟨hsize', hlt⟩ := readExactBody_next hsize hnext
  exact ⟨_, hlt, rfl, hsize'⟩

section

variable [Alloc]

/-- How `read_to_end` may end that was begun at `r` with the bytes `old`. -/
def EndExit (I : R → Prop) (r : R) (old : List UInt8) (r' : R) (new : List UInt8)
    (out : Outcome E ℕ) : Prop :=
  I r' ∧ ∃ P, new = old ++ P ∧ Passes (s.rest r) P (s.rest r') ∧
    match out with
    | .ok k => k = P.length ∧ Ended (s.rest r')
    | .err e => Error.isInterrupted e = false ∧ FailedWith I r' e
    | .panic => ∃ v : Vec, v.bytes = new ∧ v.Refused 32

/-- What a turn of `read_to_end` comes to. -/
def EndTurn (I : R → Prop) (r : R) (old : List UInt8) :
    Loop.Step (R × Guard) (R × Vec × Outcome E ℕ) → Prop
  | .next (r', guard) =>
    I r' ∧ ∃ P, guard.contents = old ++ P ∧ Passes (s.rest r) P (s.rest r')
  | .done (r', v, out) => s.EndExit I r old r' v.bytes out

theorem readToEndBody_turn (hI : Kept E I) {r r₁ : R} {guard : Guard} {old : List UInt8}
    (h : s.EndTurn I r old (.next (r₁, guard))) :
    s.EndTurn I r old (readToEndBody old.length (r₁, guard)) := by
  obtain ⟨hr₁, P, hcont, hpass⟩ := h
  cases hroom : guard.ensureRoom with
  | none =>
    obtain ⟨hb, href⟩ := Guard.ensureRoom_none hroom
    simp only [readToEndBody, hroom]
    exact ⟨hr₁, P, hcont, hpass, guard.buf, hb, Vec.reserve_eq_none_iff.mp href⟩
  | some g =>
    obtain ⟨-, hcont', hlt⟩ := Guard.ensureRoom_some hroom
    rw [hcont] at hcont'
    rcases hread : g.readInto (E := E) r₁ with ⟨r₂, g', o⟩
    obtain ⟨tail, hr, hlen, hbytes⟩ := Guard.readInto_spec hread
    have hsize : (g.buf.bytes.drop g.len).length ≤ isizeMax := by
      rw [List.length_drop]
      exact le_trans (Nat.sub_le _ _) g.buf.len_le_isizeMax
    have htail := read_length_of_eq hr
    have hsame : g'.contents = old ++ P := by
      rw [Guard.contents, hbytes, hlen, List.take_left' (Guard.contents_length g), hcont']
    have hr₂ := hI.read hr₁ hsize hr
    have hP : g'.len - old.length = P.length := by
      have hl := congrArg List.length hsame
      rw [Guard.contents_length, List.length_append] at hl
      omega
    simp only [readToEndBody, hroom, hread]
    rcases o with (_ | n) | e | _
    · obtain ⟨-, hstep, hend⟩ := s.read_ok hsize hr
      have hpass' := hpass.trans hstep
      rw [List.take_zero, List.append_nil] at hpass'
      refine ⟨hr₂, P, hsame, hpass', hP, hend rfl ?_⟩
      rw [Ne, List.drop_eq_nil_iff]
      omega
    · obtain ⟨hn, hstep, -⟩ := s.read_ok hsize hr
      have hsize' : g'.buf.bytes.length = g'.len + tail.length := by
        rw [hbytes, List.length_append, Guard.contents_length, hlen]
      rw [readToEndAnswer_succ, dif_pos (by omega)]
      refine ⟨hr₂, P ++ tail.take (n + 1), ?_, hpass.trans hstep⟩
      show g'.buf.bytes.take (g'.len + (n + 1)) = _
      rw [hbytes, hlen, List.take_append, Guard.contents_length,
        List.take_of_length_le (by rw [Guard.contents_length]; omega), hcont', List.append_assoc]
      congr 3
      omega
    · have hpass' : Passes (s.rest r) P (s.rest r₂) := by rwa [s.read_err hsize hr]
      simp only [readToEndAnswer]
      by_cases hint : Error.isInterrupted e = true
      · rw [if_pos hint]
        exact ⟨hr₂, P, hsame, hpass'⟩
      · rw [if_neg hint]
        exact ⟨hr₂, P, hsame, hpass', by simpa using hint, r₁, _, tail, hr₁, hsize, hr⟩
    · exact absurd (by rw [hr]) (s.read_ne_panic r₁ _ hsize)

/-- What `read_to_end` has taken off the stream and appended, on every way out. -/
theorem readToEnd_exit (hI : Kept E I) {fuel : ℕ} {r r' : R} {v v' : Vec} {out : Outcome E ℕ}
    (hr : I r) (h : readToEnd fuel r v = some (r', v', out)) :
    s.EndExit I r v.bytes r' v'.bytes out := by
  have hstart : s.EndTurn I r v.bytes (.next (r, Guard.new v)) :=
    ⟨hr, [], by simp, .refl _⟩
  refine Loop.loop_spec (s.EndTurn I r v.bytes) ?_ hstart h
  intro a ha
  obtain ⟨r₁, guard⟩ := a
  exact s.readToEndBody_turn hI ha

/-- A turn that goes round has passed something, or has been interrupted. -/
theorem readToEndBody_next {k : ℕ} {a a' : R × Guard} {l : List UInt8}
    (hl : s.rest a.1 = fun i => l[i]?) (h : readToEndBody (E := E) k a = .next a') :
    ∃ l' : List UInt8, (s.rest a'.1 = fun i => l'[i]?) ∧
      Prod.Lex (· < ·) (Fails E) (l'.length, a'.1) (l.length, a.1) := by
  obtain ⟨r, guard⟩ := a
  cases hroom : guard.ensureRoom with
  | none => simp [readToEndBody, hroom] at h
  | some g =>
    rcases hread : g.readInto (E := E) r with ⟨r₂, g', o⟩
    obtain ⟨tail, hr, -, -⟩ := Guard.readInto_spec hread
    have hsize : (g.buf.bytes.drop g.len).length ≤ isizeMax := by
      rw [List.length_drop]
      exact le_trans (Nat.sub_le _ _) g.buf.len_le_isizeMax
    have htail := read_length_of_eq hr
    simp only [readToEndBody, hroom, hread] at h
    rcases o with (_ | n) | e | _
    · cases h
    · obtain ⟨hn, hstep, -⟩ := s.read_ok hsize hr
      rw [readToEndAnswer_succ] at h
      split at h <;> cases h
      rw [hl] at hstep
      obtain ⟨l', rfl, hl'⟩ := hstep.of_list
      refine ⟨l', hl', .left _ _ ?_⟩
      rw [List.length_append, List.length_take]
      omega
    · simp only [readToEndAnswer] at h
      split at h <;> cases h
      exact ⟨l, (s.read_err hsize hr).trans hl, .right _ ⟨_, tail, e, hsize, hr⟩⟩
    · cases h

/-- `read_to_end` comes to its end on every stream that ends. -/
theorem readToEnd_ends {r : R} {l : List UInt8} (hl : s.rest r = fun i => l[i]?) (v : Vec) :
    ∃ res, Loop.Returns (fun n => readToEnd (E := E) n r v) res := by
  refine Loop.loop_terminates (WellFounded.prod_lex Nat.lt_wfRel.wf s.fails)
    (fun g a => g.2 = a.1 ∧ ∃ l', (s.rest a.1 = fun i => l'[i]?) ∧ l'.length = g.1) ?_
    (g := (l.length, r)) (s := (r, Guard.new v)) ⟨rfl, l, hl, rfl⟩
  intro g a a' ha hnext
  obtain ⟨n, r₁⟩ := g
  obtain ⟨rfl, l₁, hl₁, rfl⟩ := ha
  obtain ⟨l', hl', hlt⟩ := s.readToEndBody_next hl₁ hnext
  exact ⟨(l'.length, a'.1), hlt, rfl, l', hl', rfl⟩

omit s in
/-- Over a steady reader nothing but a refusal is in the way of `Ok`. -/
theorem EndExit.of_steady {s : Source E R} (hI : Steady E I) {r r' : R} {l : List UInt8}
    (hl : s.rest r = fun i => l[i]?) {old new : List UInt8} {out : Outcome E ℕ}
    (hgrant : ¬ RefusesWithin ((old ++ l).length + 32)) (h : s.EndExit I r old r' new out) :
    out = .ok l.length ∧ new = old ++ l ∧ Ended (s.rest r') ∧ I r' := by
  obtain ⟨hr', P, hbytes, hpass, hout⟩ := h
  rw [hl] at hpass
  obtain ⟨l', rfl, hl'⟩ := hpass.of_list
  rcases out with k | e | _
  · obtain ⟨rfl, hend⟩ := hout
    obtain rfl : l' = [] := Ended.eq_nil (hl' ▸ hend)
    rw [List.append_nil]
    exact ⟨rfl, hbytes, hend, hr'⟩
  · obtain ⟨hint, hfail⟩ := hout
    rw [hI.interrupted_of_failedWith hfail] at hint
    cases hint
  · obtain ⟨u, hu, href⟩ := hout
    refine absurd ⟨u, 32, ?_, href⟩ hgrant
    rw [hu, hbytes]
    simp only [List.length_append]
    omega

end

end Source

/-! ### The readers of the crate -/

/-- A settled reader reads what fits of what it shows. -/
theorem Settled.read_shown [BufRead E R] (h : Settled E R) (r : R) {buf : List UInt8}
    (hlen : buf.length ≤ isizeMax) :
    ∃ r', Read.read (E := E) r buf = (r',
        (shown E r).take (min (shown E r).length buf.length)
          ++ buf.drop (min (shown E r).length buf.length),
        .ok (min (shown E r).length buf.length)) ∧
      shown E r' = (shown E r).drop (min (shown E r).length buf.length) := by
  obtain ⟨s, hs⟩ := h.fillBuf r
  obtain ⟨r', hc⟩ := h.consume r s _ hs (Nat.min_le_left _ buf.length)
  rw [shown_eq hs]
  refine ⟨r', ?_, shown_eq (h.next r r' s _ hs (Nat.min_le_left _ _) hc)⟩
  rw [h.read r buf hlen, readViaBuf_eq hs rfl hc]

/-- **A settled reader hands out all that it shows.** -/
def Settled.source [BufRead E R] (h : Settled E R) : Source E R where
  rest r i := (shown E r)[i]?
  read_ok {r r' buf buf' n} hlen hread := by
    obtain ⟨r₁, hr, hshow⟩ := h.read_shown r hlen
    rw [hr, Prod.mk.injEq, Prod.mk.injEq, Outcome.ok.injEq] at hread
    obtain ⟨rfl, rfl, rfl⟩ := hread
    have htake : ((shown E r).take (min (shown E r).length buf.length)).length
        = min (shown E r).length buf.length := by
      rw [List.length_take]
      omega
    rw [List.take_left' htake, hshow]
    refine ⟨Nat.min_le_right _ _, ?_, ?_⟩
    · conv => arg 1; rw [← List.take_append_drop (min (shown E r).length buf.length) (shown E r)]
      exact .list _ _
    · intro hzero hne i
      have hpos := List.length_pos_of_ne_nil hne
      rw [List.drop_of_length_le (by omega)]
      exact List.getElem?_nil
  read_err {r r' buf buf' e} hlen hread := by
    obtain ⟨r₁, hr, -⟩ := h.read_shown r hlen
    rw [hr] at hread
    cases hread
  read_ne_panic r buf hlen := by
    obtain ⟨r₁, hr, -⟩ := h.read_shown r hlen
    rw [hr]
    exact Outcome.ok_ne_panic
  fails := by
    refine ⟨fun r => ⟨r, ?_⟩⟩
    intro r' h'
    obtain ⟨buf, buf', e, hlen, hread⟩ := h'
    obtain ⟨r₁, hr, -⟩ := h.read_shown r hlen
    rw [hr] at hread
    cases hread

theorem Settled.steady [ErrorImpl E] [BufRead E R] (h : Settled E R) :
    Steady E fun _ : R => True where
  kept := kept_true
  err {r r' buf buf' e} _ hlen hread := by
    obtain ⟨r₁, hr, -⟩ := h.read_shown r hlen
    rw [hr] at hread
    cases hread

/-- `Repeat` hands out its byte for ever. -/
def Repeat.source (E : Type) : Source E Repeat where
  rest self _ := some self.byte
  read_ok {r r' buf buf' n} _ hread := by
    cases hread
    refine ⟨le_refl _, ⟨?_, fun _ => rfl⟩,
      fun hzero hne => absurd (List.eq_nil_of_length_eq_zero hzero) hne⟩
    intro i hi
    rw [List.length_take, List.length_map, Nat.min_self] at hi
    rw [List.getElem?_take_of_lt hi, List.getElem?_map, List.getElem?_eq_getElem hi, Option.map_some]
  read_err _ hread := by cases hread
  read_ne_panic _ _ _ := Outcome.ok_ne_panic
  fails := by
    refine ⟨fun r => ⟨r, ?_⟩⟩
    intro r' h'
    obtain ⟨buf, buf', e, -, hread⟩ := h'
    cases hread

theorem Repeat.steady [ErrorImpl E] : Steady E fun _ : Repeat => True where
  kept := kept_true
  err _ _ hread := by cases hread

/-! ### Interruptions on the way -/

section

variable [ErrorImpl E] [Read E R]

/-- A reader that is interrupted now and then hands out what the reader behind it does. -/
def Source.interrupting (s : Source E R) : Source E (Interrupting R) where
  rest r := s.rest r.inner
  read_ok {r r' buf buf' n} hlen hread := by
    cases hi : interruption r.schedule with
    | some rest =>
      simp only [Read.read, hi, Prod.mk.injEq] at hread
      cases hread.2.2
    | none =>
      rcases hinner : Read.read (E := E) r.inner buf with ⟨inner, buf₁, o⟩
      simp only [Read.read, hi, hinner, Prod.mk.injEq] at hread
      obtain ⟨rfl, rfl, rfl⟩ := hread
      exact s.read_ok hlen hinner
  read_err {r r' buf buf' e} hlen hread := by
    cases hi : interruption r.schedule with
    | some rest =>
      simp only [Read.read, hi, Prod.mk.injEq] at hread
      obtain ⟨rfl, -⟩ := hread
      rfl
    | none =>
      rcases hinner : Read.read (E := E) r.inner buf with ⟨inner, buf₁, o⟩
      simp only [Read.read, hi, hinner, Prod.mk.injEq] at hread
      obtain ⟨rfl, rfl, rfl⟩ := hread
      exact s.read_err hlen hinner
  read_ne_panic r buf hlen := by
    cases hi : interruption r.schedule with
    | some rest =>
      simp only [Read.read, hi]
      exact Outcome.err_ne_panic
    | none =>
      simp only [Read.read, hi]
      exact s.read_ne_panic r.inner buf hlen
  fails := by
    refine Subrelation.wf ?_ (InvImage.wf (fun r : Interrupting R => (r.inner, r.schedule.sum))
      (WellFounded.prod_lex s.fails Nat.lt_wfRel.wf))
    intro r' r hr'
    obtain ⟨buf, buf', e, hlen, hread⟩ := hr'
    obtain ⟨inner, schedule⟩ := r
    rcases schedule with _ | ⟨_ | k, ks⟩
    all_goals
      rcases hinner : Read.read (E := E) inner buf with ⟨inner', buf₁, o⟩
      simp only [Read.read, interruption, hinner, Prod.mk.injEq] at hread
    · obtain ⟨rfl, rfl, rfl⟩ := hread
      exact .left _ _ ⟨buf, buf₁, e, hlen, hinner⟩
    · obtain ⟨rfl, rfl, rfl⟩ := hread
      exact .left _ _ ⟨buf, buf₁, e, hlen, hinner⟩
    · obtain ⟨rfl, -, -⟩ := hread
      have hlt : (k :: ks).sum < ((k + 1) :: ks).sum := by simp
      exact .right _ hlt

/-- Quiet interruptions leave a steady reader steady. -/
theorem Steady.interrupting {I : R → Prop} (h : Steady E I) :
    Steady E fun r : Interrupting R => Quiet E r.schedule ∧ I r.inner where
  kept r buf hlen hr := by
    obtain ⟨hq, hI⟩ := hr
    rcases hq.next with ⟨rest, hi, -, hrest, -⟩ | ⟨hi, hrest⟩
    · simp only [Read.read, hi]
      exact ⟨hrest, hI⟩
    · simp only [Read.read, hi]
      exact ⟨hrest, h.kept r.inner buf hlen hI⟩
  err {r r' buf buf' e} hr hlen hread := by
    obtain ⟨hq, hI⟩ := hr
    rcases hq.next with ⟨rest, hi, hknown, -, -⟩ | ⟨hi, -⟩
    · simp only [Read.read, hi, Prod.mk.injEq, Outcome.err.injEq] at hread
      rw [← hread.2.2]
      exact hknown
    · rcases hinner : Read.read (E := E) r.inner buf with ⟨inner, buf₁, o⟩
      simp only [Read.read, hi, hinner, Prod.mk.injEq] at hread
      obtain ⟨-, -, rfl⟩ := hread
      exact h.err hI hlen hinner

end

/-! ### Scripts -/

namespace Script

theorem read_cases {r r' : Script E} {buf buf' : List UInt8} {o : Outcome E ℕ}
    (h : Read.read r buf = (r', buf', o)) :
    (r.events = [] ∧ r' = r ∧ o = .ok 0) ∨
    (∃ s hs events, r.events = .chunk s hs :: events ∧
      r' = behind s (min s.bytes.length buf.length) events ∧
      buf' = s.bytes.take (min s.bytes.length buf.length)
        ++ buf.drop (min s.bytes.length buf.length) ∧
      o = .ok (min s.bytes.length buf.length)) ∨
    (∃ e events, r.events = .error e :: events ∧ r'.events = events ∧ o = .err e) := by
  obtain ⟨events⟩ := r
  rcases events with _ | ⟨⟨s, hs⟩ | e, events⟩
  · cases h
    exact Or.inl ⟨rfl, rfl, rfl⟩
  · cases h
    exact Or.inr (Or.inl ⟨s, hs, events, rfl, rfl, rfl, rfl⟩)
  · cases h
    exact Or.inr (Or.inr ⟨e, events, rfl, rfl, rfl⟩)

/-- **Every script hands out its bytes.** -/
def source (E : Type) : Source E (Script E) where
  rest self i := (bytes self.events)[i]?
  read_ok {r r' buf buf' n} _ hread := by
    rcases read_cases hread with ⟨hr, rfl, ho⟩ | ⟨s, hs, events, hr, rfl, rfl, ho⟩ | ⟨e, _, -, -, ho⟩
    · cases ho
      rw [List.take_zero, hr]
      exact ⟨Nat.zero_le _, .refl _, fun _ _ _ => List.getElem?_nil⟩
    · cases ho
      have htake : (s.bytes.take (min s.bytes.length buf.length)).length
          = min s.bytes.length buf.length := by
        rw [List.length_take]
        omega
      have hsplit : bytes r.events = s.bytes.take (min s.bytes.length buf.length)
          ++ bytes (behind s (min s.bytes.length buf.length) events).events := by
        rw [bytes_behind (Nat.min_le_left _ _), ← List.append_assoc, List.take_append_drop, hr]
        rfl
      rw [List.take_left' htake, hsplit]
      refine ⟨Nat.min_le_right _ _, .list _ _, ?_⟩
      intro hzero hne
      have hpos := List.length_pos_of_ne_nil hne
      have hspos := List.length_pos_of_ne_nil hs
      omega
    · cases ho
  read_err {r r' buf buf' e} _ hread := by
    rcases read_cases hread with ⟨-, -, ho⟩ | ⟨s, hs, events, -, -, -, ho⟩ | ⟨e', events, hr, hr', -⟩
    · cases ho
    · cases ho
    · rw [hr, hr']
      rfl
  read_ne_panic r buf _ := by
    rcases hread : Read.read (E := E) r buf with ⟨r', buf', o⟩
    rcases read_cases hread with ⟨-, -, rfl⟩ | ⟨_, _, _, -, -, -, rfl⟩ | ⟨_, _, -, -, rfl⟩
    · exact Outcome.ok_ne_panic
    · exact Outcome.ok_ne_panic
    · exact Outcome.err_ne_panic
  fails := by
    refine Subrelation.wf ?_ (measure fun self : Script E => self.events.length).wf
    intro r' r h
    obtain ⟨buf, buf', e, -, hread⟩ := h
    rcases read_cases hread with ⟨-, -, ho⟩ | ⟨_, _, _, -, -, -, ho⟩ | ⟨e', events, hr, hr', -⟩
    · cases ho
    · cases ho
    · show r'.events.length < r.events.length
      rw [hr, hr']
      exact Nat.lt_succ_self _

/-- A script of chunks and interruptions is steady. -/
theorem steady [ErrorImpl E] :
    Steady E fun r : Script E => ∀ e : E, .error e ∈ r.events → Error.isInterrupted e = true where
  kept r buf _ hr e he := by
    rcases hread : Read.read (E := E) r buf with ⟨r', buf', o⟩
    rw [hread] at he
    rcases read_cases hread with ⟨-, rfl, -⟩ | ⟨s, hs, events, hev, rfl, -, -⟩ |
      ⟨e', events, hev, hr', -⟩
    · exact hr e he
    · exact hr e (hev ▸ List.mem_cons_of_mem _ (mem_behind he))
    · rw [hr'] at he
      exact hr e (hev ▸ List.mem_cons_of_mem _ he)
  err {r r' buf buf' e} hr _ hread := by
    rcases read_cases hread with ⟨-, -, ho⟩ | ⟨_, _, _, -, -, -, ho⟩ | ⟨e', events, hev, -, ho⟩
    · cases ho
    · cases ho
    · cases ho
      exact hr e (hev ▸ List.mem_cons_self)

end Script

end

/-! ### In pieces -/

open Machine64

end NotIo
