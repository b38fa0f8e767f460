import NotIo.Transfer

/-!
# Streams that are cut off

A `Take` over a stream hands out the first bytes of it (`Take.source`), also when the stream itself
never ends: what is cut off is finite (`Source.exists_first`).  The reader inside stands right
behind what was handed out (`Taken`).

* `copy_take`, `readToEnd_take`: `copy` and `read_to_end` under a limit.
-/

namespace NotIo

section

variable [Target] {E R : Type} [Read E R]

/-! ### `Take` as a stream -/

/-- A read of a `Take` reads nothing, or is one of the reader inside into what the limit allows. -/
theorem Take.read_within {t t' : Take R} {buf buf' : List UInt8} {o : Outcome E ℕ}
    (hlen : buf.length ≤ isizeMax) (h : Read.read t buf = (t', buf', o)) :
    (t.limit.toNat = 0 ∧ t' = t ∧ o = .ok 0) ∨
    (t.limit.toNat ≠ 0 ∧ ∃ head, (buf.take (min t.limit.toNat buf.length)).length ≤ isizeMax ∧
      Read.read t.inner (buf.take (min t.limit.toNat buf.length)) = (t'.inner, head, o) ∧
      buf' = head ++ buf.drop (min t.limit.toNat buf.length) ∧ t'.limit = limitAfter t.limit o) := by
  rcases Take.read_cases h with ⟨hzero, ht, -, ho⟩ | ⟨hne, head, hinner, hbuf, hafter⟩
  · exact Or.inl ⟨hzero, ht, ho⟩
  · rw [capMin_eq t.limit (lt_of_le_isizeMax hlen)] at hinner hbuf
    exact Or.inr ⟨hne, head, le_trans (List.length_take_le' _ _) hlen, hinner, hbuf, hafter⟩

/-- What a `Take` has still to hand out. -/
def Take.rest (s : Source E R) (t : Take R) : ℕ → Option UInt8 :=
  first t.limit.toNat (s.rest t.inner)

theorem Take.passes (s : Source E R) {t t' : Take R} {buf buf' : List UInt8} {n : ℕ}
    (hlen : buf.length ≤ isizeMax) (hread : Read.read t buf = (t', buf', (.ok n : Outcome E ℕ))) :
    n ≤ buf.length ∧ Passes (t.rest s) (buf'.take n) (t'.rest s) ∧
      (n = 0 → buf ≠ [] → Ended (t'.rest s)) := by
  rcases Take.read_within hlen hread with ⟨hzero, rfl, ho⟩ | ⟨hne, head, hsize, hinner, rfl, hafter⟩
  · cases ho
    rw [Take.rest, hzero]
    exact ⟨Nat.zero_le _, .refl _, fun _ _ => ended_first_zero _⟩
  · obtain ⟨hn, hpass, hend⟩ := s.read_ok hsize hinner
    have hhead := read_length_of_eq hinner
    rw [List.length_take] at hn hhead
    have htake : (head ++ buf.drop (min t.limit.toNat buf.length)).take n = head.take n :=
      List.take_append_of_le_length (by omega)
    have hD : (head.take n).length = n := by
      rw [List.length_take]
      omega
    have hlim := t.limit.toNat_lt
    have hfirst := hpass.first (n := t.limit.toNat) (by omega)
    rw [hD] at hfirst
    rw [htake, Take.rest, Take.rest, hafter, Take.limitAfter, U64.toNat_saturatingSub,
      U64.toNat_ofUsize (by omega)]
    refine ⟨by omega, hfirst, ?_⟩
    intro hzero hbuf
    refine (hend hzero ?_).first _
    have hpos := List.length_pos_of_ne_nil hbuf
    exact List.ne_nil_of_length_pos (by rw [List.length_take]; omega)

theorem Take.fails (s : Source E R) : WellFounded (Fails E (R := Take R)) := by
  refine Subrelation.wf ?_ (InvImage.wf Take.inner s.fails)
  intro t' t ht
  obtain ⟨buf, buf', e, hlen, hread⟩ := ht
  rcases Take.read_within hlen hread with ⟨-, -, ho⟩ | ⟨-, head, hsize, hinner, -, -⟩
  · cases ho
  · exact ⟨_, head, e, hsize, hinner⟩

/-- **A `Take` hands out the first bytes of the stream.** -/
def Take.source (s : Source E R) : Source E (Take R) where
  rest := Take.rest s
  read_ok := Take.passes s
  read_err {t t' buf buf' e} hlen hread := by
    rcases Take.read_within hlen hread with ⟨-, -, ho⟩ | ⟨-, head, hsize, hinner, -, hafter⟩
    · cases ho
    · rw [Take.rest, Take.rest, hafter, s.read_err hsize hinner]
      rfl
  read_ne_panic t buf hlen := by
    rcases hread : Read.read (E := E) t buf with ⟨t', buf', o⟩
    rcases Take.read_within hlen hread with ⟨-, -, rfl⟩ | ⟨-, head, hsize, hinner, -, -⟩
    · exact Outcome.ok_ne_panic
    · have hne := s.read_ne_panic t.inner _ hsize
      rwa [hinner] at hne
  fails := Take.fails s

/-- On the way from `r` under the limit `limit` to `t` the bytes `D` were handed out, and the reader
inside has passed just them. -/
structure Taken (s : Source E R) (r : R) (limit : ℕ) (t : Take R) (D : List UInt8) : Prop where
  passes : Passes (s.rest r) D (s.rest t.inner)
  limit : D.length + t.limit.toNat = limit

/-- Every read keeps the reader inside right behind what was handed out. -/
theorem kept_taken (s : Source E R) {I : R → Prop} (hI : Kept E I) (r : R) (limit : ℕ) :
    Kept E fun t : Take R => I t.inner ∧ ∃ D, Taken s r limit t D := by
  intro t buf hlen ht
  obtain ⟨ht, D, hpass, hlimit⟩ := ht
  rcases hread : Read.read (E := E) t buf with ⟨t', buf', o⟩
  rcases Take.read_within hlen hread with ⟨-, rfl, -⟩ | ⟨-, head, hsize, hinner, -, hafter⟩
  · exact ⟨ht, D, hpass, hlimit⟩
  · refine ⟨hI.read ht hsize hinner, ?_⟩
    rcases o with n | e | _
    · obtain ⟨hn, hstep, -⟩ := s.read_ok hsize hinner
      have hhead := read_length_of_eq hinner
      have hlim := t.limit.toNat_lt
      rw [List.length_take] at hn hhead
      refine ⟨D ++ head.take n, hpass.trans hstep, ?_⟩
      rw [hafter, Take.limitAfter, U64.toNat_saturatingSub, U64.toNat_ofUsize (by omega),
        List.length_append, List.length_take]
      omega
    · refine ⟨D, ?_, ?_⟩
      · rwa [s.read_err hsize hinner]
      · rwa [hafter]
    · exact absurd (by rw [hinner]) (s.read_ne_panic t.inner _ hsize)

/-- A limit leaves a steady reader steady. -/
theorem Steady.take [ErrorImpl E] (s : Source E R) {I : R → Prop} (h : Steady E I) (r : R)
    (limit : ℕ) : Steady E fun t : Take R => I t.inner ∧ ∃ D, Taken s r limit t D where
  kept := kept_taken s h.kept r limit
  err {t t' buf buf' e} ht hlen hread := by
    rcases Take.read_within hlen hread with ⟨-, -, ho⟩ | ⟨-, head, hsize, hinner, -, -⟩
    · cases ho
    · exact h.err ht.1 hsize hinner

/-! ### What is cut off is finite -/

/-- A read of one byte. -/
theorem Source.read_one (s : Source E R) (r : R) :
    Ended (s.rest r) ∨ (∃ r' b, Passes (s.rest r) [b] (s.rest r')) ∨
      ∃ r', Fails E r' r ∧ s.rest r' = s.rest r := by
  have hlen : ([0] : List UInt8).length ≤ isizeMax := le_isizeMax_of_le (by decide)
  rcases hread : Read.read (E := E) r [0] with ⟨r', buf, (_ | n) | e | _⟩
  · obtain ⟨-, hpass, hend⟩ := s.read_ok hlen hread
    refine Or.inl fun i => ?_
    have hi := hpass.follows i
    rwa [hend rfl (List.cons_ne_nil _ _) i, List.take_zero, List.length_nil, Nat.zero_add,
      eq_comm] at hi
  · have hbuf := read_length_of_eq hread
    obtain ⟨-, hpass, -⟩ := s.read_ok hlen hread
    obtain ⟨b, rfl⟩ := List.length_eq_one_iff.mp hbuf
    rw [List.take_of_length_le (by rw [hbuf]; exact Nat.le_add_left 1 n)] at hpass
    exact Or.inr (Or.inl ⟨r', b, hpass⟩)
  · exact Or.inr (Or.inr ⟨r', ⟨[0], buf, e, hlen, hread⟩, s.read_err hlen hread⟩)
  · exact absurd (by rw [hread]) (s.read_ne_panic r [0] hlen)

/-- **The first bytes of every stream are a list.** -/
theorem Source.exists_first (s : Source E R) (n : ℕ) (r : R) :
    ∃ l : List UInt8, l.length ≤ n ∧ first n (s.rest r) = fun i => l[i]? := by
  induction n generalizing r with
  | zero =>
    refine ⟨[], le_refl _, ?_⟩
    funext i
    rw [ended_first_zero _ i, List.getElem?_nil]
  | succ n ih =>
    induction r using s.fails.induction with
    | h r ihr =>
      rcases s.read_one r with hend | ⟨r', b, hpass⟩ | ⟨r', hfail, hsame⟩
      · refine ⟨[], Nat.zero_le _, ?_⟩
        funext i
        rw [hend.first _ i, List.getElem?_nil]
      · obtain ⟨l, hl, hfirst⟩ := ih r'
        refine ⟨b :: l, Nat.succ_le_succ hl, ?_⟩
        have hcut := hpass.first (n := n + 1) (Nat.succ_le_succ (Nat.zero_le n))
        rw [show n + 1 - [b].length = n from rfl, hfirst] at hcut
        exact hcut.to_list
      · rw [← hsame]
        exact ihr r' hfail

/-- A stream that shows nothing has ended. -/
theorem Source.ended_of_none (s : Source E R) (r : R) (h : s.rest r 0 = none) : Ended (s.rest r) := by
  induction r using s.fails.induction with
  | h r ih =>
    rcases s.read_one r with hend | ⟨r', b, hpass⟩ | ⟨r', hfail, hsame⟩
    · exact hend
    · rw [hpass.shows 0 Nat.one_pos] at h
      cases h
    · rw [← hsame] at h ⊢
      exact ih r' hfail h

end

/-! ### Under a limit -/

section

variable [Target] {E R W : Type} [ErrorImpl E] [Read E R] [Write E W]

omit [ErrorImpl E] in
/-- When all that is cut off has been handed out, the reader inside stands right behind it. -/
theorem Taken.of_ended {s : Source E R} {r : R} {limit : ℕ} {t : Take R} {l : List UInt8}
    (hl : first limit (s.rest r) = fun i => l[i]?) (h : ∃ D, Taken s r limit t D)
    (hend : Ended (t.rest s)) :
    Taken s r limit t l ∧ (l.length < limit → Ended (s.rest t.inner)) := by
  obtain ⟨D, hpass, hlimit⟩ := h
  have hcut := hpass.first (n := limit) (by omega)
  rw [show limit - D.length = t.limit.toNat by omega, hl] at hcut
  obtain ⟨l', rfl, hl'⟩ := hcut.of_list
  obtain rfl : l' = [] := Ended.eq_nil (hl' ▸ hend)
  rw [List.append_nil]
  refine ⟨⟨hpass, hlimit⟩, ?_⟩
  intro hlt
  apply s.ended_of_none
  have hzero := hend 0
  rwa [Take.rest, first, if_pos (by omega)] at hzero

end

open Machine64

end NotIo
