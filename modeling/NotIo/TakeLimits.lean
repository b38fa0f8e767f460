import NotIo.Lib.Mealy
import NotIo.Trace

/-!
# The limits of `Take`

A `BufRead` is a machine that answers `read`, `fill_buf` and `consume` (`bufStep`), whatever it
answers.  `Logged BufCall R` is the reader `R` with a record of what it was asked for.

* `nested_limits_collapse`: two limits, one around the other, are the smaller one.  An overlarge
  `consume` lowers them by different amounts, but their minimum stays the same
  (`Collapses.consume`).
* `take_limit_holds`: the limit is never raised, and no more than it is passed on.
-/

namespace NotIo

/-- A call that a reader gets: the length of the buffer that it is to read into, or the amount
that it is to pass over. -/
inductive BufCall where
  | read (len : ℕ)
  | fillBuf
  | consume (amt : ℕ)
  deriving DecidableEq

/-- What the call asks for. -/
def BufCall.size : BufCall → ℕ
  | .read len => len
  | .fillBuf => 0
  | .consume amt => amt

/-- What the call passes over. -/
def BufCall.advance : BufCall → ℕ
  | .consume amt => amt
  | _ => 0

/-- The sum of all that has been passed over. -/
def forwarded (log : List BufCall) : ℕ := (log.map BufCall.advance).sum

theorem forwarded_append (log calls : List BufCall) :
    forwarded (log ++ calls) = forwarded log + forwarded calls := by
  rw [forwarded, List.map_append, List.sum_append, ← forwarded, ← forwarded]

/-! ### Limits -/

variable {E R : Type}

theorem toNat_eq_zero_iff (n : UInt64) : n.toNat = 0 ↔ n = 0 := by
  rw [← UInt64.toNat_inj]
  rfl

/-- What an answer takes off the limit. -/
def taken : Outcome E ℕ → ℕ
  | .ok n => (U64.ofUsize n).toNat
  | _ => 0

theorem toNat_limitAfter (limit : UInt64) (o : Outcome E ℕ) :
    (Take.limitAfter limit o).toNat = limit.toNat - taken o := by
  cases o with
  | ok n => exact U64.toNat_saturatingSub _ _
  | err e => rfl
  | panic => rfl

/-! ### The machine -/

section

variable [Target]

/-- The calls to a `BufRead`; what is consumed is a `usize`. -/
inductive BufOp where
  | read (buf : Slice)
  | fillBuf
  | consume (amt : Fin (2 ^ usizeBits))

/-- What a call gives back: a read also the buffer that it leaves. -/
inductive BufAnswer (E : Type) where
  | read (buf : List UInt8) (out : Outcome E ℕ)
  | fillBuf (out : Outcome E Slice)
  | consume (out : Outcome E Unit)
  deriving DecidableEq

/-- What a call does to a reader.  A reader that panics in `consume` is not used again. -/
def bufStep [BufRead E R] (r : R) : BufOp → BufAnswer E × Option R
  | .read buf =>
    let (r, buf, out) := Read.read r buf.bytes
    (.read buf out, some r)
  | .fillBuf =>
    let (r, out) := BufRead.fillBuf r
    (.fillBuf out, some r)
  | .consume amt =>
    match BufRead.consume E r amt.val with
    | some r => (.consume (.ok ()), some r)
    | none => (.consume .panic, none)

section

variable [BufRead E R] {r r' : R}

theorem bufStep_read {buf : Slice} {buf' : List UInt8} {o : Outcome E ℕ}
    (h : Read.read r buf.bytes = (r', buf', o)) :
    bufStep r (.read buf) = (.read buf' o, some r') := by
  rw [bufStep, h]

theorem bufStep_fillBuf {o : Outcome E Slice} (h : BufRead.fillBuf r = (r', o)) :
    bufStep r .fillBuf = (.fillBuf o, some r') := by
  rw [bufStep, h]

theorem bufStep_consume_some {amt : Fin (2 ^ usizeBits)} (h : BufRead.consume E r amt.val = some r') :
    bufStep (E := E) r (.consume amt) = (.consume (.ok ()), some r') := by
  rw [bufStep, h]

theorem bufStep_consume_none {amt : Fin (2 ^ usizeBits)} (h : BufRead.consume E r amt.val = none) :
    bufStep (E := E) r (.consume amt) = (.consume .panic, none) := by
  rw [bufStep, h]

end

/-! ### Records -/

instance [BufRead E R] : BufRead E (Logged BufCall R) where
  read self buf :=
    let (inner, buf', out) := Read.read self.inner buf
    (⟨inner, self.log ++ [.read buf.length]⟩, buf', out)
  read_length self buf := Read.read_length self.inner buf
  fillBuf self :=
    let (inner, out) := BufRead.fillBuf self.inner
    (⟨inner, self.log ++ [.fillBuf]⟩, out)
  consume self amt :=
    match BufRead.consume E self.inner amt with
    | some inner => some ⟨inner, self.log ++ [.consume amt]⟩
    | none => none

theorem Logged.read_bufCall [BufRead E R] {self : Logged BufCall R} {r' : R}
    {buf buf' : List UInt8} {o : Outcome E ℕ} (h : Read.read self.inner buf = (r', buf', o)) :
    Read.read self buf = (⟨r', self.log ++ [.read buf.length]⟩, buf', o) := by
  have hself : Read.read (E := E) self buf = (⟨(Read.read (E := E) self.inner buf).1,
      self.log ++ [BufCall.read buf.length]⟩, (Read.read self.inner buf).2) := rfl
  rw [hself, h]

theorem Logged.fillBuf_bufCall [BufRead E R] {self : Logged BufCall R} {r' : R}
    {o : Outcome E Slice} (h : BufRead.fillBuf self.inner = (r', o)) :
    BufRead.fillBuf self = (⟨r', self.log ++ [.fillBuf]⟩, o) := by
  have hself : BufRead.fillBuf (E := E) self = (⟨(BufRead.fillBuf (E := E) self.inner).1,
      self.log ++ [BufCall.fillBuf]⟩, (BufRead.fillBuf self.inner).2) := rfl
  rw [hself, h]

theorem Logged.consume_bufCall [BufRead E R] {self self' : Logged BufCall R} {amt : ℕ}
    (h : BufRead.consume E self amt = some self') :
    ∃ r', self' = ⟨r', self.log ++ [.consume amt]⟩ := by
  change (match BufRead.consume E self.inner amt with | some inner => _ | none => _) = _ at h
  cases hc : BufRead.consume E self.inner amt with
  | none => rw [hc] at h; cases h
  | some r' => rw [hc] at h; exact ⟨r', (Option.some.inj h).symm⟩

/-! ### Two limits -/

variable [BufRead E R]

/-- The reader under two limits stands where the reader under one limit stands, and the smaller
of the two limits is the one. -/
structure Collapses (nested : Take (Take R)) (single : Take R) : Prop where
  inner : nested.inner.inner = single.inner
  limit : min nested.inner.limit.toNat nested.limit.toNat = single.limit.toNat

namespace Collapses

variable {nested : Take (Take R)} {single : Take R}

omit [Target] [BufRead E R] in
theorem limits (h : Collapses nested single) :
    single.limit = 0 ↔ nested.inner.limit = 0 ∨ nested.limit = 0 := by
  have hmin := h.limit
  rw [← toNat_eq_zero_iff, ← toNat_eq_zero_iff, ← toNat_eq_zero_iff]
  omega

omit [BufRead E R] in
/-- The inner reader gets the same amount to pass over. -/
theorem forwards (h : Collapses nested single) {amt : ℕ} (hamt : amt < 2 ^ usizeBits) :
    capMin nested.inner.limit (capMin nested.limit amt) = capMin single.limit amt := by
  have hmin := h.limit
  have hle := capMin_le nested.limit amt
  rw [capMin_eq single.limit hamt, capMin_eq nested.inner.limit (by omega),
    capMin_eq nested.limit hamt]
  omega

/-- A read above both limits asks the inner reader for the same. -/
theorem read_ne (h : Collapses nested single) (hne : single.limit ≠ 0) (buf : Slice) :
    ∃ nested' single' buf' o, Read.read (E := E) nested buf.bytes = (nested', buf', o) ∧
      Read.read (E := E) single buf.bytes = (single', buf', o) ∧ Collapses nested' single' := by
  have hmin := h.limit
  have hzero := (not_congr h.limits).mp hne
  rw [not_or] at hzero
  have hbuf := lt_of_le_isizeMax buf.length_le
  have hcap := capMin_eq nested.limit hbuf
  have hcap' := capMin_eq single.limit hbuf
  have hinner := capMin_eq nested.inner.limit
    (lt_of_le_of_lt (List.length_take_le (capMin nested.limit buf.bytes.length) buf.bytes)
      (by omega))
  have hsize : capMin nested.inner.limit
      (buf.bytes.take (capMin nested.limit buf.bytes.length)).length
        = capMin single.limit buf.bytes.length := by
    rw [hinner, List.length_take]
    omega
  rcases hread : Read.read (E := E) single.inner
    (buf.bytes.take (capMin single.limit buf.bytes.length)) with ⟨r', head, o⟩
  have hsame : Read.read (E := E) nested.inner.inner
      ((buf.bytes.take (capMin nested.limit buf.bytes.length)).take (capMin nested.inner.limit
        (buf.bytes.take (capMin nested.limit buf.bytes.length)).length)) = (r', head, o) := by
    rw [hsize, List.take_take, Nat.min_eq_left (by omega), h.inner]
    exact hread
  have hmiddle : Read.read (E := E) nested.inner _ = _ := Take.read_of_ne hzero.1 hsame
  have houter : Read.read (E := E) nested buf.bytes = _ := Take.read_of_ne hzero.2 hmiddle
  have hsingle : Read.read (E := E) single buf.bytes = _ := Take.read_of_ne hne hread
  refine ⟨_, ⟨r', Take.limitAfter single.limit o⟩, _, o, houter, ?_, rfl, ?_⟩
  · rw [hsingle, hsize, List.append_assoc, drop_take_append_drop (by rw [List.length_take]; omega)]
  · simp only [toNat_limitAfter]
    omega

/-- A read at the smaller limit asks the inner reader for nothing. -/
theorem read_zero (h : Collapses nested single) (hzero : single.limit = 0) (buf : List UInt8) :
    ∃ nested', Read.read (E := E) nested buf = (nested', buf, .ok 0) ∧
      Collapses nested' single := by
  by_cases hout : nested.limit = 0
  · exact ⟨nested, Take.read_of_zero hout buf, h⟩
  · have hin : nested.inner.limit = 0 := (h.limits.mp hzero).resolve_right hout
    have hmiddle : Read.read (E := E) nested.inner (buf.take (capMin nested.limit buf.length)) = _ :=
      Take.read_of_zero hin _
    have houter : Read.read (E := E) nested buf = _ := Take.read_of_ne hout hmiddle
    rw [List.take_append_drop] at houter
    refine ⟨_, houter, h.inner, ?_⟩
    rw [hin, hzero]
    exact Nat.zero_min _

theorem read (h : Collapses nested single) (buf : Slice) :
    ∃ nested' single' buf' o, Read.read (E := E) nested buf.bytes = (nested', buf', o) ∧
      Read.read (E := E) single buf.bytes = (single', buf', o) ∧ Collapses nested' single' := by
  by_cases hzero : single.limit = 0
  · obtain ⟨nested', hread, hrel⟩ := h.read_zero (E := E) hzero buf.bytes
    exact ⟨nested', single, _, _, hread, Take.read_of_zero hzero _, hrel⟩
  · exact h.read_ne hzero buf

/-- Both show the same. -/
theorem fillBuf (h : Collapses nested single) :
    ∃ nested' single' o, BufRead.fillBuf (E := E) nested = (nested', o) ∧
      BufRead.fillBuf (E := E) single = (single', o) ∧ Collapses nested' single' := by
  have hmin := h.limit
  by_cases hzero : single.limit = 0
  · have hsingle : BufRead.fillBuf (E := E) single = _ := Take.fillBuf_of_zero hzero
    by_cases hout : nested.limit = 0
    · exact ⟨_, _, _, Take.fillBuf_of_zero hout, hsingle, h⟩
    · have hin : nested.inner.limit = 0 := (h.limits.mp hzero).resolve_right hout
      have hmiddle : BufRead.fillBuf (E := E) nested.inner = _ := Take.fillBuf_of_zero hin
      have houter : BufRead.fillBuf (E := E) nested = _ := Take.fillBuf_of_ne hout hmiddle
      have hnil : ∀ n, Slice.empty.take n = Slice.empty := fun n => Slice.ext List.take_nil
      rw [Outcome.map, hnil] at houter
      exact ⟨_, _, _, houter, hsingle, h⟩
  · have hne := (not_congr h.limits).mp hzero
    rw [not_or] at hne
    rcases hfill : BufRead.fillBuf (E := E) single.inner with ⟨r', o⟩
    have hsingle : BufRead.fillBuf (E := E) single = _ := Take.fillBuf_of_ne hzero hfill
    have hmiddle : BufRead.fillBuf (E := E) nested.inner = _ :=
      Take.fillBuf_of_ne hne.1 (h.inner ▸ hfill)
    have houter : BufRead.fillBuf (E := E) nested = _ := Take.fillBuf_of_ne hne.2 hmiddle
    refine ⟨_, ⟨r', single.limit⟩, _, houter, ?_, rfl, hmin⟩
    rw [hsingle]
    cases o with
    | ok s =>
      have hs := lt_of_le_isizeMax s.length_le
      have hcap := capMin_eq single.limit hs
      have hcap₁ := capMin_eq nested.inner.limit hs
      have hcap₂ := capMin_eq nested.limit
        (lt_of_le_isizeMax (s.take (capMin nested.inner.limit s.bytes.length)).length_le)
      have hcut : (s.take (capMin nested.inner.limit s.bytes.length)).take (capMin nested.limit
          (s.take (capMin nested.inner.limit s.bytes.length)).bytes.length)
            = s.take (capMin single.limit s.bytes.length) := by
        apply Slice.ext
        rw [hcap₂]
        simp only [Slice.take_bytes, List.length_take, List.take_take, hcap, hcap₁]
        congr 1
        omega
      simp only [Outcome.map, hcut]
    | err e => rfl
    | panic => rfl

/-- **An overlarge `consume` lowers the two limits by different amounts**, and their minimum
by what the inner reader passes over. -/
theorem consume (h : Collapses nested single) {amt : ℕ} (hamt : amt < 2 ^ usizeBits) :
    (BufRead.consume E nested amt = none ∧ BufRead.consume E single amt = none) ∨
    ∃ nested' single', BufRead.consume E nested amt = some nested' ∧
      BufRead.consume E single amt = some single' ∧ Collapses nested' single' := by
  have hmin := h.limit
  have hin := nested.inner.limit.toNat_lt
  have hout := nested.limit.toNat_lt
  have hsame : min nested.inner.limit.toNat (min nested.limit.toNat amt)
      = min single.limit.toNat amt := by omega
  have hmiddle : BufRead.consume E nested.inner (min nested.limit.toNat amt) = _ :=
    Take.consume_eq nested.inner (show min nested.limit.toNat amt < 2 ^ usizeBits by omega)
  have houter : BufRead.consume E nested amt = _ := Take.consume_eq nested hamt
  have hsingle : BufRead.consume E single amt = _ := Take.consume_eq single hamt
  rw [hmiddle, hsame, h.inner] at houter
  cases hc : BufRead.consume E single.inner (min single.limit.toNat amt) with
  | none =>
    rw [hc] at houter hsingle
    exact Or.inl ⟨houter, hsingle⟩
  | some r' =>
    rw [hc] at houter hsingle
    refine Or.inr ⟨_, _, houter, hsingle, rfl, ?_⟩
    rw [U64.toNat_sub_ofUsize (by omega), U64.toNat_sub_ofUsize (by omega),
      U64.toNat_sub_ofUsize (by omega)]
    omega

end Collapses

/-- The two keep the answers and the relation, call by call. -/
theorem collapses_lockstep :
    Mealy.Lockstep (bufStep (E := E) (R := Take (Take R))) (bufStep (R := Take R)) Collapses := by
  intro nested single op h
  cases op with
  | read buf =>
    obtain ⟨nested', single', buf', o, hn, hs, hrel⟩ := h.read (E := E) buf
    rw [bufStep_read hn, bufStep_read hs]
    exact ⟨rfl, .some hrel⟩
  | fillBuf =>
    obtain ⟨nested', single', o, hn, hs, hrel⟩ := h.fillBuf (E := E)
    rw [bufStep_fillBuf hn, bufStep_fillBuf hs]
    exact ⟨rfl, .some hrel⟩
  | consume amt =>
    rcases h.consume (E := E) amt.isLt with ⟨hn, hs⟩ | ⟨nested', single', hn, hs, hrel⟩
    · rw [bufStep_consume_none hn, bufStep_consume_none hs]
      exact ⟨rfl, .none⟩
    · rw [bufStep_consume_some hn, bufStep_consume_some hs]
      exact ⟨rfl, .some hrel⟩

/-- Two limits around `r` are as the smaller one over `ops`: the answers are the same, and where
the reader is left the limits keep their minimum and would pass the same on. -/
structure CollapsesOver (E : Type) [BufRead E R] (r : R) (a b : UInt64) (ops : List BufOp) :
    Prop where
  answers : (Mealy.run (bufStep (E := E)) (take (take r a) b) ops).1
    = (Mealy.run bufStep (take r (min a b)) ops).1
  states : Option.Rel
    (fun nested single => Collapses nested single ∧ ∀ amt, amt < 2 ^ usizeBits →
      capMin nested.inner.limit (capMin nested.limit amt) = capMin single.limit amt)
    (Mealy.run (bufStep (E := E)) (take (take r a) b) ops).2
    (Mealy.run (bufStep (E := E)) (take r (min a b)) ops).2

theorem collapsesOver (r : R) (a b : UInt64) (ops : List BufOp) : CollapsesOver E r a b ops := by
  have hstart : Collapses (take (take r a) b) (take r (min a b)) :=
    ⟨rfl, (U64.toNat_min a b).symm⟩
  obtain ⟨hanswers, hstates⟩ := Mealy.run_rel (collapses_lockstep (E := E)) hstart ops
  exact ⟨hanswers, Mealy.rel_mono (fun _ _ h => ⟨h, fun _ hamt => h.forwards hamt⟩) hstates⟩

/-- **Nested limits collapse to the smaller one**, whatever the reader answers, and with them
all that the reader is asked for. -/
theorem nested_limits_collapse (r : R) (a b : UInt64) (ops : List BufOp) :
    CollapsesOver E r a b ops ∧ CollapsesOver E (⟨r, []⟩ : Logged BufCall R) a b ops :=
  ⟨collapsesOver r a b ops, collapsesOver _ a b ops⟩

/-! ### One limit -/

/-- The limit stands where it stood or lower, and what has been passed over is off it. -/
structure Within (limit : UInt64) (t : Take (Logged BufCall R)) : Prop where
  limit_le : t.limit.toNat ≤ limit.toNat
  forwarded_le : forwarded t.inner.log + t.limit.toNat ≤ limit.toNat

/-- From `t` to `t'` the limit is not raised, the inner reader is asked for no more than it, and
what is passed over is taken off it. -/
structure Lowers (t t' : Take (Logged BufCall R)) : Prop where
  limit_le : t'.limit.toNat ≤ t.limit.toNat
  calls : ∃ calls, t'.inner.log = t.inner.log ++ calls ∧ (∀ c ∈ calls, c.size ≤ t.limit.toNat) ∧
    forwarded calls + t'.limit.toNat ≤ t.limit.toNat

omit [Target] [BufRead E R] in
theorem Lowers.within {limit : UInt64} {t t' : Take (Logged BufCall R)} (h : Lowers t t')
    (ht : Within limit t) : Within limit t' := by
  obtain ⟨calls, hlog, -, hcalls⟩ := h.calls
  have hle := ht.forwarded_le
  refine ⟨le_trans h.limit_le ht.limit_le, ?_⟩
  rw [hlog, forwarded_append]
  omega

omit [Target] [BufRead E R] in
/-- One call: the inner reader is asked for no more than the limit. -/
theorem Lowers.of_call {t : Take (Logged BufCall R)} {r : R} {c : BufCall} {limit : UInt64}
    (hsize : c.size ≤ t.limit.toNat) (hadvance : c.advance + limit.toNat ≤ t.limit.toNat) :
    Lowers t ⟨⟨r, t.inner.log ++ [c]⟩, limit⟩ := by
  refine ⟨by dsimp only; omega, [c], rfl, ?_, ?_⟩
  · intro c' hc'
    rw [List.mem_singleton.mp hc']
    exact hsize
  · exact hadvance

omit [Target] [BufRead E R] in
theorem Lowers.refl (t : Take (Logged BufCall R)) : Lowers t t := by
  refine ⟨le_rfl, [], (List.append_nil _).symm, ?_, ?_⟩
  · intro c hc
    cases hc
  · exact Nat.le_of_eq (Nat.zero_add _)

theorem lowers_read {t t' : Take (Logged BufCall R)} {buf : Slice} {buf' : List UInt8}
    {o : Outcome E ℕ} (h : Read.read t buf.bytes = (t', buf', o)) : Lowers t t' := by
  by_cases hzero : t.limit = 0
  · obtain rfl : t = t' := congrArg Prod.fst ((Take.read_of_zero hzero buf.bytes).symm.trans h)
    exact Lowers.refl t
  · rcases hread : Read.read (E := E) t.inner.inner
      (buf.bytes.take (capMin t.limit buf.bytes.length)) with ⟨r', head, o'⟩
    have htake : Read.read (E := E) t buf.bytes = _ :=
      Take.read_of_ne hzero (Logged.read_bufCall hread)
    obtain rfl : _ = t' := congrArg Prod.fst (htake.symm.trans h)
    have hcap := capMin_eq t.limit (lt_of_le_isizeMax buf.length_le)
    refine Lowers.of_call ?_ ?_
    · simp only [BufCall.size, List.length_take]
      omega
    · rw [toNat_limitAfter]
      simp only [BufCall.advance]
      omega

theorem lowers_fillBuf {t t' : Take (Logged BufCall R)} {o : Outcome E Slice}
    (h : BufRead.fillBuf t = (t', o)) : Lowers t t' := by
  by_cases hzero : t.limit = 0
  · obtain rfl : t = t' := congrArg Prod.fst ((Take.fillBuf_of_zero hzero).symm.trans h)
    exact Lowers.refl t
  · rcases hfill : BufRead.fillBuf (E := E) t.inner.inner with ⟨r', o'⟩
    have htake : BufRead.fillBuf (E := E) t = _ :=
      Take.fillBuf_of_ne hzero (Logged.fillBuf_bufCall hfill)
    obtain rfl : _ = t' := congrArg Prod.fst (htake.symm.trans h)
    exact Lowers.of_call (Nat.zero_le _) (Nat.le_of_eq (Nat.zero_add _))

theorem lowers_consume {t t' : Take (Logged BufCall R)} {amt : ℕ} (hamt : amt < 2 ^ usizeBits)
    (h : BufRead.consume E t amt = some t') : Lowers t t' := by
  have hlt := t.limit.toNat_lt
  have htake : BufRead.consume E t amt = _ := Take.consume_eq t hamt
  rw [htake, Option.map_eq_some_iff] at h
  obtain ⟨inner, hinner, rfl⟩ := h
  obtain ⟨r', rfl⟩ := Logged.consume_bufCall hinner
  refine Lowers.of_call (Nat.min_le_left _ _) ?_
  rw [U64.toNat_sub_ofUsize (Nat.min_le_left _ _)]
  simp only [BufCall.advance]
  omega

theorem lowers_step {t t' : Take (Logged BufCall R)} {op : BufOp} {a : BufAnswer E}
    (h : bufStep t op = (a, some t')) : Lowers t t' := by
  cases op with
  | read buf =>
    simp only [bufStep, Prod.mk.injEq, Option.some.injEq] at h
    exact lowers_read (E := E) (o := (Read.read t buf.bytes).2.2) (Prod.ext h.2 rfl)
  | fillBuf =>
    simp only [bufStep, Prod.mk.injEq, Option.some.injEq] at h
    exact lowers_fillBuf (E := E) (o := (BufRead.fillBuf t).2) (Prod.ext h.2 rfl)
  | consume amt =>
    cases hc : BufRead.consume E t amt.val with
    | none =>
      rw [bufStep_consume_none hc] at h
      simp at h
    | some u =>
      rw [bufStep_consume_some hc, Prod.mk.injEq, Option.some.injEq] at h
      exact h.2 ▸ lowers_consume amt.isLt hc

/-- What the limit of `t` is good for at the next call: nothing overflows and no index is out of
range, so `Take` panics only where its inner reader does; the call lowers the limit and asks
for no more than it; and no more than it is shown. -/
structure LimitKept (E : Type) [BufRead E R] (t : Take (Logged BufCall R)) : Prop where
  sub : ∀ amt, amt < 2 ^ usizeBits → U64.sub t.limit (U64.ofUsize (capMin t.limit amt)) ≠ none
  split : ∀ buf : Slice, splitAt buf.bytes (capMin t.limit buf.bytes.length) ≠ none
  index : ∀ s : Slice, s.indexTo (capMin t.limit s.bytes.length) ≠ none
  read_panic : ∀ buf : Slice, (Read.read (E := E) t buf.bytes).2.2 = .panic →
    (Read.read (E := E) t.inner (buf.bytes.take (capMin t.limit buf.bytes.length))).2.2 = .panic
  fillBuf_panic : (BufRead.fillBuf (E := E) t).2 = .panic →
    (BufRead.fillBuf (E := E) t.inner).2 = .panic
  consume_panic : ∀ amt, amt < 2 ^ usizeBits → BufRead.consume E t amt = none →
    BufRead.consume E t.inner (capMin t.limit amt) = none
  lowers : ∀ op a t', bufStep (E := E) t op = (a, some t') → Lowers t t'
  shown : ∀ s, (BufRead.fillBuf (E := E) t).2 = .ok s → s.bytes.length ≤ t.limit.toNat

theorem take_read_answer (t : Take R) (buf : List UInt8) :
    (Read.read (E := E) t buf).2.2 = if t.limit = 0 then .ok 0 else
      (Read.read (E := E) t.inner (buf.take (capMin t.limit buf.length))).2.2 := by
  by_cases hzero : t.limit = 0
  · rw [if_pos hzero]
    exact congrArg (fun x => x.2.2) (Take.read_of_zero (E := E) hzero buf)
  · rw [if_neg hzero]
    exact congrArg (fun x => x.2.2) (Take.read_of_ne (E := E) hzero rfl)

theorem take_fillBuf_answer (t : Take R) :
    (BufRead.fillBuf (E := E) t).2 = if t.limit = 0 then .ok Slice.empty else
      (BufRead.fillBuf (E := E) t.inner).2.map fun s => s.take (capMin t.limit s.bytes.length) := by
  by_cases hzero : t.limit = 0
  · rw [if_pos hzero]
    exact congrArg Prod.snd (Take.fillBuf_of_zero (E := E) hzero)
  · rw [if_neg hzero]
    exact congrArg Prod.snd (Take.fillBuf_of_ne (E := E) hzero rfl)

theorem limitKept (t : Take (Logged BufCall R)) : LimitKept E t where
  sub amt hamt := by
    have hle : capMin t.limit amt ≤ t.limit.toNat :=
      (capMin_eq t.limit hamt).symm ▸ Nat.min_le_left _ _
    rw [U64.sub_of_le (by rw [U64.toNat_ofUsize (lt_of_le_of_lt hle t.limit.toNat_lt)]; exact hle)]
    exact Option.some_ne_none _
  split buf := by
    rw [splitAt_of_le (capMin_le _ _)]
    exact Option.some_ne_none _
  index s := by
    rw [Slice.indexTo_of_le (capMin_le _ _)]
    exact Option.some_ne_none _
  read_panic buf h := by
    rw [take_read_answer] at h
    split at h
    · cases h
    · exact h
  fillBuf_panic h := by
    rw [take_fillBuf_answer] at h
    split at h
    · cases h
    · cases hf : (BufRead.fillBuf (E := E) t.inner).2 with
      | panic => rfl
      | ok s => rw [hf] at h; cases h
      | err e => rw [hf] at h; cases h
  consume_panic amt hamt h := by
    have htake : BufRead.consume E t amt = _ := Take.consume_eq t hamt
    rw [htake, Option.map_eq_none_iff] at h
    rw [capMin_eq t.limit hamt]
    exact h
  lowers op a t' h := lowers_step h
  shown s h := by
    rw [take_fillBuf_answer] at h
    split at h
    · rw [← Outcome.ok.inj h]
      exact Nat.zero_le _
    · cases hf : (BufRead.fillBuf (E := E) t.inner).2 with
      | panic => rw [hf] at h; cases h
      | err e => rw [hf] at h; cases h
      | ok u =>
        rw [hf, Outcome.map, Outcome.ok.injEq] at h
        have hcap := capMin_eq t.limit (lt_of_le_isizeMax u.length_le)
        rw [← h, Slice.take_bytes, List.length_take]
        omega

/-- **The limit of a `Take` holds.**  Whatever the inner reader answers, and after whatever calls,
the limit is no higher than it was, and with what has been passed on, and with what the next
`consume` may pass on, it is no more than it was. -/
theorem take_limit_holds (r : R) (limit : UInt64) (ops : List BufOp) (answers : List (BufAnswer E))
    (t : Take (Logged BufCall R)) (h : Mealy.run bufStep (take ⟨r, []⟩ limit) ops = (answers, some t)) :
    Within limit t ∧ LimitKept E t ∧ ∀ amt, amt < 2 ^ usizeBits →
      forwarded (t.inner.log ++ [.consume (capMin t.limit amt)]) ≤ limit.toNat := by
  have hstart : Within limit (take (⟨r, []⟩ : Logged BufCall R) limit) :=
    ⟨le_rfl, Nat.le_of_eq (Nat.zero_add _)⟩
  have ht : Within limit t :=
    Mealy.run_invariant (Within limit) (fun _ _ _ _ hs hstep => (lowers_step hstep).within hs)
      hstart h
  refine ⟨ht, limitKept t, fun amt hamt => ?_⟩
  have hcap := capMin_eq t.limit hamt
  have hle := ht.forwarded_le
  rw [forwarded_append]
  simp only [forwarded, List.map_cons, List.map_nil, List.sum_singleton, BufCall.advance] at hle ⊢
  omega

end

open Machine64 in
/-- After a read of one byte, `consume(9)` passes the three bytes over that the limit leaves. -/
theorem take_limit_holds_slice :
    Within 4 (⟨⟨⟨[5], by decide⟩, [.read 1, .consume 3]⟩, 0⟩ : Take (Logged BufCall Slice)) ∧
      LimitKept ImplsNostd.Error
        (⟨⟨⟨[5], by decide⟩, [.read 1, .consume 3]⟩, 0⟩ : Take (Logged BufCall Slice)) ∧
      ∀ amt, amt < 2 ^ usizeBits →
        forwarded ([.read 1, .consume 3] ++ [.consume (capMin 0 amt)]) ≤ 4 :=
  take_limit_holds (E := ImplsNostd.Error) (⟨[1, 2, 3, 4, 5], by decide⟩ : Slice) 4
    [.read ⟨[0], by decide⟩, .consume 9] [.read [1] (.ok 1), .consume (.ok ())] _
    (by decide +kernel)

end NotIo
