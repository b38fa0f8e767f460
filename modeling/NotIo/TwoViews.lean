import NotIo.Core.ImplsAlways

/-!
# The two views of the buffered readers

A `BufRead` can be read from in two ways: by `read`, and by looking at what `fill_buf` shows,
copying it, and passing over it with `consume` (`readViaBuf`).  `Settled` says that the two
ways do the same, for a reader that shows its bytes without moving.  The readers of the crate
are settled, and `Take` of a settled reader is settled again (`Settled.take`).

* `two_views_coincide`: every reader built from the ones of the crate.
-/

namespace NotIo

section

variable [Target] {E R T : Type}

/-- A read by way of `fill_buf` and `consume`. -/
def readViaBuf [BufRead E R] (r : R) (buf : List UInt8) : R × List UInt8 × Outcome E ℕ :=
  match BufRead.fillBuf (E := E) r with
  | (r, .ok s) =>
    let n := min s.bytes.length buf.length
    match BufRead.consume E r n with
    | some r => (r, s.bytes.take n ++ buf.drop n, .ok n)
    | none => (r, s.bytes.take n ++ buf.drop n, .panic)
  | (r, .err e) => (r, buf, .err e)
  | (r, .panic) => (r, buf, .panic)

theorem readViaBuf_eq [BufRead E R] {r r₁ r₂ : R} {s : Slice} {buf : List UInt8} {n : ℕ}
    (hs : BufRead.fillBuf (E := E) r = (r₁, .ok s)) (hn : n = min s.bytes.length buf.length)
    (hc : BufRead.consume E r₁ n = some r₂) :
    readViaBuf (E := E) r buf = (r₂, s.bytes.take n ++ buf.drop n, .ok n) := by
  subst hn
  simp only [readViaBuf, hs, hc]

/-- **A reader whose two views coincide**, and which does not move when it is looked at. -/
structure Settled (E R : Type) [BufRead E R] : Prop where
  fillBuf : ∀ r : R, ∃ s, BufRead.fillBuf (E := E) r = (r, .ok s)
  consume : ∀ (r : R) (s : Slice) (n : ℕ), BufRead.fillBuf (E := E) r = (r, .ok s) →
    n ≤ s.bytes.length → ∃ r', BufRead.consume E r n = some r'
  consume_zero : ∀ r : R, BufRead.consume E r 0 = some r
  next : ∀ (r r' : R) (s : Slice) (n : ℕ), BufRead.fillBuf (E := E) r = (r, .ok s) →
    n ≤ s.bytes.length → BufRead.consume E r n = some r' →
      BufRead.fillBuf (E := E) r' = (r', .ok (s.drop n))
  read : ∀ (r : R) (buf : List UInt8), buf.length ≤ isizeMax →
    Read.read (E := E) r buf = readViaBuf r buf

namespace Settled

theorem slice : Settled E Slice where
  fillBuf r := ⟨r, rfl⟩
  consume r s n hs hn := by
    cases hs
    exact ⟨r.drop n, Slice.indexFrom_of_le hn⟩
  consume_zero r := by
    rw [Slice.consume_eq, Slice.indexFrom_of_le (Nat.zero_le _)]
    rfl
  next r r' s n hs hn hc := by
    cases hs
    rw [Slice.consume_eq, Slice.indexFrom_of_le hn, Option.some.injEq] at hc
    rw [hc, Slice.fillBuf_eq]
  read r buf _ := by
    rw [Slice.read_def, Slice.read_eq]
    exact (readViaBuf_eq (Slice.fillBuf_eq r) rfl (Slice.indexFrom_of_le (Nat.min_le_left _ _))).symm

/-- What a cursor shows after bytes have been passed over. -/
theorem cursor_remaining [AsRef T] (c : Cursor T) {n : ℕ} (hn : n ≤ c.remaining.bytes.length) :
    ({ c with pos := c.pos + U64.ofUsize n } : Cursor T).remaining = c.remaining.drop n := by
  have hlen := lt_u64_of_le_isizeMax (asRef c.inner).length_le
  have hpos := c.pos.toNat_lt
  rw [Cursor.remaining_length] at hn
  have hsmall : (U64.ofUsize n).toNat = n := U64.toNat_ofUsize (by omega)
  have hsum : (c.pos + U64.ofUsize n).toNat = c.pos.toNat + n := by
    rw [U64.toNat_add_of_lt (by omega), hsmall]
  apply Slice.ext
  simp only [Cursor.remaining, Cursor.start, Slice.drop_bytes, List.drop_drop, hsum]
  congr 1
  omega

theorem cursor [AsRef T] : Settled E (Cursor T) where
  fillBuf r := ⟨r.remaining, r.fillBuf_eq⟩
  consume r s n hs hn := by
    have h := (r.fillBuf_eq (E := E)).symm.trans hs
    simp only [Prod.mk.injEq, Outcome.ok.injEq, true_and] at h
    exact ⟨_, Cursor.consume_of_le (h ▸ hn)⟩
  consume_zero r := by
    have h : r.consume 0 = some { r with pos := r.pos + U64.ofUsize 0 } :=
      Cursor.consume_of_le (Nat.zero_le _)
    have hpos : r.pos + U64.ofUsize 0 = r.pos := UInt64.add_zero r.pos
    rw [hpos] at h
    exact h
  next r r' s n hs hn hc := by
    have h := (r.fillBuf_eq (E := E)).symm.trans hs
    simp only [Prod.mk.injEq, Outcome.ok.injEq, true_and] at h
    subst h
    have hc' := (Cursor.consume_of_le hn).symm.trans hc
    rw [Option.some.injEq] at hc'
    subst hc'
    rw [← cursor_remaining r hn]
    exact Cursor.fillBuf_eq _
  read r buf _ := by
    have hread : Read.read (E := E) r buf = r.read buf := rfl
    rw [hread, Cursor.read_eq, readViaBuf_eq r.fillBuf_eq rfl
      (Cursor.consume_of_le (Nat.min_le_left _ _))]
    rcases le_total r.remaining.bytes.length buf.length with h | h
    · rw [Nat.min_eq_left h, List.take_length, List.take_of_length_le h]
    · rw [Nat.min_eq_right h, List.drop_length, List.drop_of_length_le h]

theorem empty : Settled E Empty where
  fillBuf r := ⟨Slice.empty, rfl⟩
  consume r _ _ _ _ := ⟨r, rfl⟩
  consume_zero _ := rfl
  next r r' s n hs hn hc := by
    cases hs
    cases hc
    obtain rfl : n = 0 := Nat.le_zero.mp hn
    rfl
  read r buf _ := by
    have h : readViaBuf (E := E) r buf = (r, Slice.empty.bytes.take 0 ++ buf.drop 0, .ok 0) :=
      readViaBuf_eq rfl (Nat.zero_min _).symm rfl
    rw [h]
    rfl

theorem take_consume_zero [BufRead E R] (h : Settled E R) (t : Take R) :
    BufRead.consume E t 0 = some t := by
  have hsub : t.limit - U64.ofUsize 0 = t.limit := UInt64.sub_zero t.limit
  rw [Take.consume_of_le (Nat.zero_le _) (Nat.two_pow_pos _) (h.consume_zero t.inner), hsub]

/-- At the limit there is nothing to read. -/
theorem take_read_zero [BufRead E R] (h : Settled E R) {t : Take R} (hzero : t.limit = 0)
    (buf : List UInt8) : Read.read (E := E) t buf = readViaBuf t buf := by
  have hfill : BufRead.fillBuf (E := E) t = (t, .ok Slice.empty) := Take.fillBuf_of_zero hzero
  rw [readViaBuf_eq hfill (Nat.zero_min _).symm (h.take_consume_zero t)]
  exact Take.read_of_zero hzero buf

/-- Above the limit both views are those of the inner reader, cut to the limit. -/
theorem take_read_ne [BufRead E R] (h : Settled E R) {t : Take R} (hne : t.limit ≠ 0)
    {buf : List UInt8} (hlen : buf.length ≤ isizeMax) :
    Read.read (E := E) t buf = readViaBuf t buf := by
  obtain ⟨s, hs⟩ := h.fillBuf t.inner
  have hfill : BufRead.fillBuf (E := E) t = (t, .ok (s.take (capMin t.limit s.bytes.length))) :=
    Take.fillBuf_of_ne hne hs
  have hcap := capMin_eq t.limit (lt_of_le_isizeMax hlen)
  have hcap' := capMin_eq t.limit (lt_of_le_isizeMax s.length_le)
  have hsize : (buf.take (capMin t.limit buf.length)).length = min t.limit.toNat buf.length := by
    rw [List.length_take, hcap]
    omega
  -- both views take what fits into the buffer of what is there within the limit
  obtain ⟨n, hn⟩ : ∃ n, n = min s.bytes.length (min t.limit.toNat buf.length) := ⟨_, rfl⟩
  obtain ⟨inner, hc⟩ := h.consume t.inner s n hs (by omega)
  have hinner : Read.read (E := E) t.inner (buf.take (capMin t.limit buf.length))
      = (inner, s.bytes.take n ++ (buf.take (capMin t.limit buf.length)).drop n, .ok n) := by
    rw [h.read t.inner _ (by omega)]
    exact readViaBuf_eq hs (by rw [hsize, hn]) hc
  have hread : Read.read (E := E) t buf = _ := Take.read_of_ne hne hinner
  have hcount : n = min (s.take (capMin t.limit s.bytes.length)).bytes.length buf.length := by
    rw [Slice.take_bytes, List.length_take, hcap']
    omega
  have hview := readViaBuf_eq hfill hcount
    (Take.consume_of_le (by omega) (lt_of_le_isizeMax (by omega)) hc)
  rw [hread, hview]
  have hlim := t.limit.toNat_lt
  have hsub : Take.limitAfter (E := E) t.limit (.ok n) = t.limit - U64.ofUsize n := by
    rw [Take.limitAfter, U64.saturatingSub, if_pos]
    rw [U64.toNat_ofUsize (by omega)]
    omega
  have htake : (s.take (capMin t.limit s.bytes.length)).bytes.take n = s.bytes.take n := by
    rw [Slice.take_bytes, List.take_take, hcap', Nat.min_eq_left (by omega)]
  rw [hsub, htake, List.append_assoc, drop_take_append_drop (by omega)]

/-- What is shown within the limit after bytes have been passed over. -/
theorem take_next [BufRead E R] (h : Settled E R) {t t' : Take R} {s : Slice} {n : ℕ}
    (hs : BufRead.fillBuf (E := E) t.inner = (t.inner, .ok s))
    (hn : n ≤ (s.take (capMin t.limit s.bytes.length)).bytes.length)
    (hc : BufRead.consume E t n = some t') :
    BufRead.fillBuf (E := E) t' = (t', .ok ((s.take (capMin t.limit s.bytes.length)).drop n)) := by
  have hlen := s.length_le
  have hlim := t.limit.toNat_lt
  have hcap := capMin_eq t.limit (lt_of_le_isizeMax s.length_le)
  rw [Slice.take_bytes, List.length_take, hcap] at hn
  obtain ⟨inner, hc'⟩ := h.consume t.inner s n hs (by omega)
  rw [Take.consume_of_le (by omega) (lt_of_le_isizeMax (by omega)) hc', Option.some.injEq] at hc
  subst hc
  have hshow := h.next t.inner inner s n hs (by omega) hc'
  have hleft : (t.limit - U64.ofUsize n).toNat = t.limit.toNat - n :=
    U64.toNat_sub_ofUsize (by omega)
  by_cases hzero : t.limit - U64.ofUsize n = 0
  · have hend : t.limit.toNat - n = 0 := by
      rw [← hleft, hzero]
      rfl
    have hnone : (s.take (capMin t.limit s.bytes.length)).drop n = Slice.empty := by
      apply Slice.ext
      apply List.eq_nil_of_length_eq_zero
      rw [Slice.drop_bytes, Slice.take_bytes, List.length_drop, List.length_take, hcap]
      omega
    rw [hnone]
    exact Take.fillBuf_of_zero hzero
  · have hfill : BufRead.fillBuf (E := E) (⟨inner, t.limit - U64.ofUsize n⟩ : Take R) = _ :=
      Take.fillBuf_of_ne hzero hshow
    have hcut : (s.drop n).take (capMin (t.limit - U64.ofUsize n) (s.drop n).bytes.length)
        = (s.take (capMin t.limit s.bytes.length)).drop n := by
      have hdrop : (s.drop n).bytes.length = s.bytes.length - n := by
        rw [Slice.drop_bytes, List.length_drop]
      apply Slice.ext
      rw [capMin_eq _ (lt_of_le_isizeMax (s.drop n).length_le), hleft, hdrop, hcap]
      simp only [Slice.take_bytes, Slice.drop_bytes, List.drop_take]
      congr 1
      omega
    rw [← hcut]
    exact hfill

/-- **`Take` of a settled reader is settled.** -/
theorem take [BufRead E R] (h : Settled E R) : Settled E (Take R) where
  fillBuf t := by
    by_cases hzero : t.limit = 0
    · exact ⟨_, Take.fillBuf_of_zero hzero⟩
    · obtain ⟨s, hs⟩ := h.fillBuf t.inner
      exact ⟨_, Take.fillBuf_of_ne hzero hs⟩
  consume t s n hs hn := by
    by_cases hzero : t.limit = 0
    · have hfill : BufRead.fillBuf (E := E) t = (t, .ok Slice.empty) := Take.fillBuf_of_zero hzero
      rw [hfill] at hs
      cases hs
      obtain rfl : n = 0 := Nat.le_zero.mp hn
      exact ⟨t, h.take_consume_zero t⟩
    · obtain ⟨s₀, hs₀⟩ := h.fillBuf t.inner
      have hfill : BufRead.fillBuf (E := E) t = (t, .ok (s₀.take (capMin t.limit s₀.bytes.length))) :=
        Take.fillBuf_of_ne hzero hs₀
      rw [hfill] at hs
      cases hs
      have hlen := s₀.length_le
      rw [Slice.take_bytes, List.length_take, capMin_eq t.limit (lt_of_le_isizeMax hlen)] at hn
      obtain ⟨inner, hc⟩ := h.consume t.inner s₀ n hs₀ (by omega)
      exact ⟨_, Take.consume_of_le (by omega) (lt_of_le_isizeMax (by omega)) hc⟩
  consume_zero t := h.take_consume_zero t
  next t t' s n hs hn hc := by
    by_cases hzero : t.limit = 0
    · have hfill : BufRead.fillBuf (E := E) t = (t, .ok Slice.empty) := Take.fillBuf_of_zero hzero
      rw [hfill] at hs
      cases hs
      obtain rfl : n = 0 := Nat.le_zero.mp hn
      rw [h.take_consume_zero t, Option.some.injEq] at hc
      subst hc
      exact hfill
    · obtain ⟨s₀, hs₀⟩ := h.fillBuf t.inner
      have hfill : BufRead.fillBuf (E := E) t = (t, .ok (s₀.take (capMin t.limit s₀.bytes.length))) :=
        Take.fillBuf_of_ne hzero hs₀
      rw [hfill] at hs
      cases hs
      exact h.take_next hs₀ hn hc
  read t buf hlen := by
    by_cases hzero : t.limit = 0
    · exact h.take_read_zero hzero buf
    · exact h.take_read_ne hzero hlen

/-! ### `read_exact` -/

/-- A turn of `read_exact` takes what fits of what is shown, if anything is. -/
theorem readExactBody_next [ErrorImpl E] [BufRead E R] (h : Settled E R) {r r' : R} {s : Slice}
    {buf : List UInt8} (hs : BufRead.fillBuf (E := E) r = (r, .ok s)) (hne : s.bytes ≠ [])
    (hb : buf ≠ []) (hlen : buf.length ≤ isizeMax)
    (hc : BufRead.consume E r (min s.bytes.length buf.length) = some r') (filled : List UInt8) :
    readExactBody (E := E) (r, filled, buf) =
      .next (r', filled ++ s.bytes.take (min s.bytes.length buf.length),
        buf.drop (min s.bytes.length buf.length)) := by
  have hpos := List.length_pos_of_ne_nil hne
  have hbpos := List.length_pos_of_ne_nil hb
  obtain ⟨k, hk⟩ : ∃ k, min s.bytes.length buf.length = k + 1 :=
    Nat.exists_eq_succ_of_ne_zero (by omega)
  have hread : Read.read (E := E) r buf
      = (r', s.bytes.take (k + 1) ++ buf.drop (k + 1), .ok (k + 1)) := by
    rw [h.read r buf hlen, readViaBuf_eq hs rfl hc, hk]
  have htake : (s.bytes.take (k + 1)).length = k + 1 := by
    rw [List.length_take]
    omega
  have hle : k + 1 ≤ (s.bytes.take (k + 1) ++ buf.drop (k + 1)).length := by
    rw [List.length_append]
    omega
  simp only [readExactBody, List.isEmpty_iff, if_neg hb, hread, hk]
  rw [if_pos hle, List.take_left' htake, List.drop_left' htake]

/-- Where nothing is shown, `read_exact` has come to the end. -/
theorem readExactBody_end [ErrorImpl E] [BufRead E R] (h : Settled E R) {r : R} {s : Slice}
    {buf : List UInt8} (hs : BufRead.fillBuf (E := E) r = (r, .ok s)) (hnil : s.bytes = [])
    (hb : buf ≠ []) (hlen : buf.length ≤ isizeMax) (filled : List UInt8) :
    readExactBody (E := E) (r, filled, buf)
      = .done (r, filled ++ buf, .err (Error.ofErrorKind .unexpectedEof)) := by
  have hread : Read.read (E := E) r buf = (r, buf, .ok 0) := by
    rw [h.read r buf hlen, readViaBuf_eq hs (by rw [hnil]; exact (Nat.zero_min _).symm)
      (h.consume_zero r)]
    rfl
  simp only [readExactBody, List.isEmpty_iff, if_neg hb, hread]

/-- **`read_exact` takes what is shown**: as much as is asked for, or all of it. -/
theorem readExact [ErrorImpl E] [BufRead E R] (h : Settled E R) {r : R} {s : Slice}
    (hs : BufRead.fillBuf (E := E) r = (r, .ok s)) {buf : List UInt8}
    (hlen : buf.length ≤ isizeMax) :
    ∃ r', BufRead.consume E r (min s.bytes.length buf.length) = some r' ∧
      Loop.Returns (fun n => NotIo.readExact (E := E) n r buf)
        (r', s.bytes.take buf.length ++ buf.drop s.bytes.length,
          if buf.length ≤ s.bytes.length then .ok ()
          else .err (Error.ofErrorKind .unexpectedEof)) := by
  obtain ⟨r', hc⟩ := h.consume r s _ hs (Nat.min_le_left _ buf.length)
  refine ⟨r', hc, ?_⟩
  rw [show (fun n => NotIo.readExact (E := E) n r buf)
    = fun n => Loop.loop readExactBody n (r, [], buf) from rfl, Loop.returns_loop]
  have hnone := h.consume_zero r
  by_cases hb : buf = []
  · subst hb
    rw [List.length_nil, Nat.min_zero, hnone, Option.some.injEq] at hc
    subst hc
    refine .done ?_
    simp [readExactBody]
  by_cases hnil : s.bytes = []
  · rw [hnil, List.length_nil, Nat.zero_min, hnone, Option.some.injEq] at hc
    subst hc
    have hpos := List.length_pos_of_ne_nil hb
    refine .done ?_
    rw [h.readExactBody_end hs hnil hb hlen, hnil, if_neg (by simpa using hb)]
    simp
  refine .next (h.readExactBody_next hs hnil hb hlen hc []) (.done ?_)
  by_cases hle : buf.length ≤ s.bytes.length
  · rw [if_pos hle, Nat.min_eq_right hle, List.drop_length, List.drop_of_length_le hle]
    simp [readExactBody]
  · have hmin : min s.bytes.length buf.length = s.bytes.length := by omega
    have hshow := h.next r r' s _ hs (Nat.min_le_left _ _) hc
    have hrest : buf.drop (min s.bytes.length buf.length) ≠ [] := by
      rw [Ne, List.drop_eq_nil_iff]
      omega
    rw [h.readExactBody_end hshow (by simp [hmin]) hrest
      (by rw [List.length_drop]; exact le_trans (Nat.sub_le _ _) hlen), if_neg hle, hmin,
      List.take_length, List.take_of_length_le (by omega), List.nil_append]

end Settled

/-! ### The readers of the crate -/

/-- The buffered readers of the crate, under any number of limits. -/
inductive InCrate (E : Type) : (R : Type) → BufRead E R → Prop
  | slice : InCrate E Slice inferInstance
  | cursor (T : Type) [AsRef T] : InCrate E (Cursor T) inferInstance
  | empty : InCrate E Empty inferInstance
  | take {R : Type} [inst : BufRead E R] : InCrate E R inst → InCrate E (Take R) inferInstance

theorem settled_of_inCrate [inst : BufRead E R] (h : InCrate E R inst) : Settled E R := by
  induction h with
  | slice => exact .slice
  | cursor T => exact .cursor
  | empty => exact .empty
  | take _ ih => exact ih.take

/-- **The two views of every buffered reader of the crate coincide**: the count, the buffer and
the reader that is left, at every layer. -/
theorem two_views_coincide [inst : BufRead E R] (h : InCrate E R inst) (r : R) (buf : Slice) :
    Read.read (E := E) r buf.bytes = readViaBuf r buf.bytes :=
  (settled_of_inCrate h).read r buf.bytes buf.length_le

end

open Machine64 in
/-- A slice of three bytes under the limits 2 and 5, read into a buffer of four. -/
theorem two_views_coincide_take :
    Read.read (E := ImplsNostd.Error)
        (⟨⟨⟨[1, 2, 3], by decide⟩, 2⟩, 5⟩ : Take (Take Slice)) [7, 8, 9, 10]
      = readViaBuf ⟨⟨⟨[1, 2, 3], by decide⟩, 2⟩, 5⟩ [7, 8, 9, 10] :=
  two_views_coincide (.take (.take .slice)) _ ⟨[7, 8, 9, 10], by decide⟩

end NotIo
