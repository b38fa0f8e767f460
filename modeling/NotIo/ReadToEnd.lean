import NotIo.Trace

/-!
# `read_to_end`

`Reading old r guard` is the invariant of the loop: the bytes of the guard that count
are the old ones followed by what the reader has delivered.  A turn keeps it
(`Reading.step`), and every way out leaves exactly these bytes in the vector
(`Reading.done`).

* `readToEnd_appends`: the vector after the call, on every exit, panics included.
-/

namespace NotIo

variable {E R : Type}

/-! ### The calls -/

/-- The answer of the call lets a retry loop go on. -/
def ReadCall.Continues [ErrorImpl E] (call : ReadCall E) : Prop :=
  match call.answer with
  | .ok n => 0 < n ∧ n ≤ call.offered.length
  | .err e => Error.isInterrupted e = true
  | .panic => False

/-- A call that ends the loop has delivered nothing. -/
theorem ReadCall.delivered_of_not_continues [ErrorImpl E] {call : ReadCall E} (h : ¬ call.Continues) :
    call.delivered = [] := by
  unfold ReadCall.delivered
  split
  · rename_i n ha
    split
    · rename_i hn
      simp only [ReadCall.Continues, ha, not_and] at h
      obtain rfl : n = 0 := by
        by_contra hpos
        exact h (by omega) hn
      rfl
    · rfl
  · rfl

/-- How `read_to_end` ends when the answer of its last call does not let it go on, and
`k` bytes have been delivered. -/
def ReadCall.exit (call : ReadCall E) (k : ℕ) : Outcome E ℕ :=
  match call.answer with
  | .ok 0 => .ok k
  | .ok _ => .panic
  | .err e => .err e
  | .panic => .panic

section

variable [Target]

/-! ### The guard -/

namespace Guard

/-- The bytes that count. -/
def contents (self : Guard) : List UInt8 := self.buf.bytes.take self.len

@[simp] theorem contents_length (self : Guard) : self.contents.length = self.len := by
  rw [contents, List.length_take, Nat.min_eq_left self.len_le]

@[simp] theorem contents_new (buf : Vec) : (Guard.new buf).contents = buf.bytes := List.take_length

@[simp] theorem drop_bytes (self : Guard) : self.drop.bytes = self.contents := rfl

/-- A guard that has room keeps its bytes. -/
theorem ensureRoom_some [Alloc] {self guard : Guard} (h : self.ensureRoom = some guard) :
    guard.len = self.len ∧ guard.contents = self.contents ∧
      guard.len < guard.buf.bytes.length := by
  have hle := self.len_le
  unfold ensureRoom at h
  split at h
  · rename_i hfull
    split at h
    · cases h
    · rename_i v hv
      split at h
      · cases h
      · rename_i w hw
        rw [Option.some.injEq] at h
        subst h
        obtain ⟨hb, hc⟩ := Vec.reserve_spec hv
        have hw' := Vec.resize_spec v.length_le hw
        rw [hb] at hw'
        refine ⟨rfl, ?_, ?_⟩
        · simp only [contents]
          rw [hw', List.take_append_of_le_length hle]
        · show self.len < w.bytes.length
          rw [hw', List.length_append, List.length_replicate]
          have : self.buf.bytes.length = self.len := hfull
          omega
  · rename_i hfull
    rw [Option.some.injEq] at h
    subst h
    exact ⟨rfl, rfl, lt_of_le_of_ne hle fun e => hfull e.symm⟩

/-- Growing fails only where the allocator refuses to grow a full vector. -/
theorem ensureRoom_none [Alloc] {self : Guard} (h : self.ensureRoom = none) :
    self.buf.bytes = self.contents ∧ self.buf.reserve 32 = none := by
  unfold ensureRoom at h
  split at h
  · rename_i hfull
    split at h
    · refine ⟨?_, ‹_›⟩
      rw [contents, ← hfull]
      exact List.take_length.symm
    · rename_i v hv
      split at h
      · exact absurd ‹_› (Vec.resize_capacity_ne_none v 0)
      · cases h
  · cases h

/-- A read into the spare part keeps the bytes that count in front of what was written. -/
theorem readInto_spec [Read E R] {self guard : Guard} {r r' : R} {o : Outcome E ℕ}
    (h : self.readInto r = (r', guard, o)) :
    ∃ tail, Read.read r (self.buf.bytes.drop self.len) = (r', tail, o) ∧ guard.len = self.len ∧
      guard.buf.bytes = self.contents ++ tail := by
  simp only [readInto, Prod.mk.injEq] at h
  obtain ⟨rfl, rfl, rfl⟩ := h
  exact ⟨_, rfl, rfl, rfl⟩

end Guard

/-! ### What the calls decide -/

/-- What a call of `read_to_end` does: `old` and `new` are the bytes of the vector before
and after it, `log` has the calls that it made to the reader, `out` is how it ended. -/
structure ReadToEndSpec [Alloc] [ErrorImpl E] (old new : List UInt8) (log : List (ReadCall E))
    (out : Outcome E ℕ) : Prop where
  bytes : new = old ++ delivered log
  offered_ne : ∀ call ∈ log, call.offered ≠ []
  ok_iff : ∀ k, out = .ok k ↔ (∃ call ∈ log, call.answer = .ok 0) ∧ k = (delivered log).length
  err_iff : ∀ e, out = .err e ↔ ∃ call ∈ log, call.answer = .err e ∧ Error.isInterrupted e = false
  panic_iff : out = .panic ↔
    (∃ call ∈ log, ∃ n, call.answer = .ok n ∧ call.offered.length < n) ∨
    (∃ call ∈ log, call.answer = .panic) ∨
    ((∀ call ∈ log, call.Continues) ∧ ∃ v : Vec, v.bytes = new ∧ v.reserve 32 = none)

section

variable [Alloc] [ErrorImpl E]

/-- The last call decides how `read_to_end` ends. -/
theorem ReadToEndSpec.of_last {old : List UInt8} {log : List (ReadCall E)} {last : ReadCall E}
    (hlog : ∀ call ∈ log, call.Continues) (hlast : ¬ last.Continues)
    (hne : ∀ call ∈ log ++ [last], call.offered ≠ []) :
    ReadToEndSpec old (old ++ delivered (log ++ [last])) (log ++ [last])
      (last.exit (delivered (log ++ [last])).length) := by
  have honly : ∀ {call : ReadCall E}, call ∈ log ++ [last] → ¬ call.Continues → call = last := by
    intro call hmem hnot
    rcases List.mem_append.mp hmem with h | h
    · exact absurd (hlog call h) hnot
    · exact List.mem_singleton.mp h
  have hmem : last ∈ log ++ [last] := by simp
  refine ⟨rfl, hne, fun k => ⟨fun h => ?_, ?_⟩, fun e => ⟨fun h => ?_, ?_⟩, ⟨fun h => ?_, ?_⟩⟩
  · unfold ReadCall.exit at h
    split at h <;> cases h
    exact ⟨⟨last, hmem, ‹_›⟩, rfl⟩
  · intro h'
    obtain ⟨⟨call, hc, ha⟩, rfl⟩ := h'
    obtain rfl := honly hc (by simp [ReadCall.Continues, ha])
    simp only [ReadCall.exit, ha]
  · unfold ReadCall.exit at h
    split at h <;> cases h
    refine ⟨last, hmem, ‹_›, ?_⟩
    simpa [ReadCall.Continues, ‹last.answer = _›] using hlast
  · intro h'
    obtain ⟨call, hc, ha, hi⟩ := h'
    obtain rfl := honly hc (by simp [ReadCall.Continues, ha, hi])
    rw [ReadCall.exit, ha]
  · unfold ReadCall.exit at h
    split at h <;> cases h
    · rename_i n hn ha
      refine Or.inl ⟨last, hmem, n, ha, ?_⟩
      have hpos : 0 < n := Nat.pos_of_ne_zero hn
      simp only [ReadCall.Continues, ha, not_and] at hlast
      have := hlast hpos
      omega
    · exact Or.inr (Or.inl ⟨last, hmem, ‹_›⟩)
  · intro h'
    rcases h' with ⟨call, hc, n, ha, hn⟩ | ⟨call, hc, ha⟩ | ⟨hall, -⟩
    · obtain rfl := honly hc (by simp [ReadCall.Continues, ha]; omega)
      cases n with
      | zero => omega
      | succ n => simp only [ReadCall.exit, ha]
    · obtain rfl := honly hc (by simp [ReadCall.Continues, ha])
      rw [ReadCall.exit, ha]
    · exact absurd (hall last hmem) hlast

/-- A refused request ends `read_to_end` between two calls. -/
theorem ReadToEndSpec.of_refused {old : List UInt8} {log : List (ReadCall E)} {v : Vec}
    (hlog : ∀ call ∈ log, call.Continues) (hne : ∀ call ∈ log, call.offered ≠ [])
    (hv : v.bytes = old ++ delivered log) (href : v.reserve 32 = none) :
    ReadToEndSpec old (old ++ delivered log) log .panic := by
  refine ⟨rfl, hne, fun k => ⟨nofun, ?_⟩, fun e => ⟨nofun, ?_⟩,
    ⟨fun _ => Or.inr (Or.inr ⟨hlog, v, hv, href⟩), fun _ => rfl⟩⟩
  · intro h
    obtain ⟨⟨call, hc, ha⟩, -⟩ := h
    have := hlog call hc
    simp [ReadCall.Continues, ha] at this
  · intro h
    obtain ⟨call, hc, ha, hi⟩ := h
    have := hlog call hc
    simp [ReadCall.Continues, ha, hi] at this

end

/-! ### The loop -/

section

variable [ErrorImpl E]

/-- **The invariant of the loop**: the bytes that count are the old ones followed by what
has been delivered, and no call has ended the loop. -/
structure Reading (old : List UInt8) (r : Logged (ReadCall E) R) (guard : Guard) : Prop where
  contents : guard.contents = old ++ delivered r.log
  continues : ∀ call ∈ r.log, call.Continues
  offered_ne : ∀ call ∈ r.log, call.offered ≠ []

namespace Reading

variable {old : List UInt8} {r r' : Logged (ReadCall E) R} {guard guard' : Guard}

theorem start (r : R) (v : Vec) : Reading (E := E) v.bytes ⟨r, []⟩ (Guard.new v) :=
  ⟨by simp, by simp, by simp⟩

/-- A call that goes on, made with room in the vector, keeps the invariant when the guard
has taken in what it delivered. -/
theorem step [Read E R] {tail : List UInt8} {o : Outcome E ℕ} (h : Reading old r guard)
    (hlen : guard.len < guard.buf.bytes.length)
    (hr : Read.read r (guard.buf.bytes.drop guard.len) = (r', tail, o))
    (ho : (⟨guard.buf.bytes.drop guard.len, tail, o⟩ : ReadCall E).Continues)
    (hc : guard'.contents = guard.contents
      ++ (⟨guard.buf.bytes.drop guard.len, tail, o⟩ : ReadCall E).delivered) :
    Reading old r' guard' := by
  have hlog := log_of_read hr
  refine ⟨?_, ?_, ?_⟩
  · rw [hc, hlog, delivered_concat, h.contents, List.append_assoc]
  · intro call hmem
    rw [hlog, List.mem_append, List.mem_singleton] at hmem
    rcases hmem with hmem | rfl
    · exact h.continues call hmem
    · exact ho
  · intro call hmem
    rw [hlog, List.mem_append, List.mem_singleton] at hmem
    rcases hmem with hmem | rfl
    · exact h.offered_ne call hmem
    · intro he
      rw [List.drop_eq_nil_iff] at he
      omega

/-- A call that ends the loop ends it with exactly the bytes that count in the vector. -/
theorem done [Alloc] [Read E R] {tail : List UInt8} {o : Outcome E ℕ} (h : Reading old r guard)
    (hlen : guard.len < guard.buf.bytes.length)
    (hr : Read.read r (guard.buf.bytes.drop guard.len) = (r', tail, o))
    (ho : ¬ (⟨guard.buf.bytes.drop guard.len, tail, o⟩ : ReadCall E).Continues)
    (hc : guard'.contents = guard.contents) (hl : guard'.len = guard.len) :
    ReadToEndSpec old guard'.drop.bytes r'.log
      ((⟨guard.buf.bytes.drop guard.len, tail, o⟩ : ReadCall E).exit (guard'.len - old.length)) := by
  have hd : delivered r'.log = delivered r.log := by
    rw [log_of_read hr, delivered_concat, ReadCall.delivered_of_not_continues ho,
      List.append_nil]
  have hb : guard'.drop.bytes = old ++ delivered r'.log := by
    rw [Guard.drop_bytes, hc, h.contents, hd]
  have hk : guard'.len - old.length = (delivered r'.log).length := by
    have := congrArg List.length hb
    rw [Guard.drop_bytes, Guard.contents_length, List.length_append] at this
    omega
  have hne : ∀ call ∈ r.log ++ [(⟨guard.buf.bytes.drop guard.len, tail, o⟩ : ReadCall E)],
      call.offered ≠ [] := by
    intro call hmem
    rw [List.mem_append, List.mem_singleton] at hmem
    rcases hmem with hmem | rfl
    · exact h.offered_ne call hmem
    · intro he
      rw [List.drop_eq_nil_iff] at he
      omega
  rw [hb, hk, log_of_read hr]
  exact .of_last h.continues ho hne

end Reading

/-- What a turn of the loop comes to. -/
def TurnSpec [Alloc] (old : List UInt8) :
    Loop.Step (Logged (ReadCall E) R × Guard) (Logged (ReadCall E) R × Vec × Outcome E ℕ) → Prop
  | .next (r, guard) => Reading old r guard
  | .done (r, v, out) => ReadToEndSpec old v.bytes r.log out

/-- **A turn keeps the invariant, and leaves the loop as it should.** -/
theorem readToEndBody_spec [Alloc] [Read E R] {old : List UInt8} {r : Logged (ReadCall E) R}
    {guard : Guard} (h : Reading old r guard) :
    TurnSpec old (readToEndBody old.length (r, guard)) := by
  cases hroom : guard.ensureRoom with
  | none =>
    obtain ⟨hb, href⟩ := Guard.ensureRoom_none hroom
    simp only [readToEndBody, hroom, TurnSpec, Guard.drop_bytes]
    rw [h.contents]
    exact .of_refused h.continues h.offered_ne (hb.trans h.contents) href
  | some g =>
    obtain ⟨-, hcont, hlt⟩ := Guard.ensureRoom_some hroom
    have hg : Reading old r g := ⟨hcont.trans h.contents, h.continues, h.offered_ne⟩
    rcases hread : g.readInto (E := E) r with ⟨r', g', o⟩
    obtain ⟨tail, hr, hlen, hbytes⟩ := Guard.readInto_spec hread
    have htail := read_length_of_eq hr
    have hcont' : g'.contents = g.contents := by
      rw [Guard.contents, hbytes, hlen, List.take_left' (Guard.contents_length g)]
    have hlast := fun ho => hg.done hlt hr ho hcont' hlen
    have hnext : ∀ n (hn : g'.len + n ≤ g'.buf.bytes.length),
        (⟨g'.buf, g'.len + n, hn⟩ : Guard).contents = g.contents ++ tail.take n := by
      intro n hn
      show g'.buf.bytes.take (g'.len + n) = _
      rw [hbytes, hlen, List.take_append, Guard.contents_length]
      rw [List.take_of_length_le (by rw [Guard.contents_length]; omega)]
      congr 2
      omega
    have hsize : g'.buf.bytes.length = g'.len + tail.length := by
      rw [hbytes, List.length_append, Guard.contents_length, hlen]
    simp only [readToEndBody, hroom, hread]
    rcases o with (_ | n) | e | _
    · exact hlast (by simp [ReadCall.Continues])
    · by_cases hn : g'.len + (n + 1) ≤ g'.buf.bytes.length
      · have ho : n + 1 ≤ (g.buf.bytes.drop g.len).length := by omega
        rw [readToEndAnswer_succ, dif_pos hn]
        refine hg.step hlt hr ⟨by omega, ho⟩ ?_
        rw [hnext _ hn, delivered_ok ho]
      · rw [readToEndAnswer_succ, dif_neg hn]
        exact hlast (by simp only [ReadCall.Continues]; omega)
    · by_cases hi : Error.isInterrupted e = true
      · rw [readToEndAnswer, if_pos hi]
        apply hg.step hlt hr hi
        rw [hcont', ReadCall.delivered, List.append_nil]
      · rw [readToEndAnswer, if_neg hi]
        exact hlast hi
    · exact hlast (by simp [ReadCall.Continues])

/-- A turn that goes round makes one call. -/
theorem log_length_of_next [Alloc] [Read E R] {k : ℕ} {s s' : Logged (ReadCall E) R × Guard}
    (h : readToEndBody (E := E) k s = .next s') : s'.1.log.length = s.1.log.length + 1 := by
  obtain ⟨r, guard⟩ := s
  cases hroom : guard.ensureRoom with
  | none => simp [readToEndBody, hroom] at h
  | some g =>
    rcases hread : g.readInto (E := E) r with ⟨r', g', o⟩
    obtain ⟨tail, hr, -, -⟩ := Guard.readInto_spec hread
    have hlog : r'.log.length = r.log.length + 1 := by
      rw [log_of_read hr, List.length_append, List.length_singleton]
    simp only [readToEndBody, hroom, hread] at h
    rcases o with (_ | n) | e | _
    · cases h
    · rw [readToEndAnswer_succ] at h
      split at h <;> cases h
      exact hlog
    · simp only [readToEndAnswer] at h
      split at h <;> cases h
      exact hlog
    · cases h

/-- What `read_to_end` does up to an exit. -/
theorem readToEnd_exit [Alloc] [Read E R] {fuel : ℕ} {r r' : R} {v v' : Vec} {out : Outcome E ℕ}
    (h : readToEnd fuel r v = some (r', v', out)) :
    ∃ log, readToEnd fuel (⟨r, []⟩ : Logged (ReadCall E) R) v = some (⟨r', log⟩, v', out) ∧
      ReadToEndSpec v.bytes v'.bytes log out := by
  obtain ⟨log, hl⟩ := readToEnd_logged h
  have hstart : TurnSpec v.bytes (.next ((⟨r, []⟩ : Logged (ReadCall E) R), Guard.new v)) :=
    Reading.start r v
  have hspec := Loop.loop_spec (TurnSpec v.bytes) (fun _ hs => readToEndBody_spec hs) hstart hl
  exact ⟨log, hl, hspec⟩

/-- The reader after a turn has the property. -/
def ReaderKeeps (I : R → Prop) : Loop.Step (R × Guard) (R × Vec × Outcome E ℕ) → Prop
  | .next s => I s.1
  | .done res => I res.1

theorem readToEndAnswer_keeps {I : R → Prop} {r : R} (hr : I r) (startLen : ℕ) (guard : Guard)
    (answer : Outcome E ℕ) : ReaderKeeps I (readToEndAnswer startLen r guard answer) := by
  rcases answer with (_ | k) | e | _
  · exact hr
  · rw [readToEndAnswer_succ]
    split <;> exact hr
  · simp only [readToEndAnswer]
    split <;> exact hr
  · exact hr

/-- What every read keeps of the reader, the call keeps. -/
theorem readToEnd_reader [Alloc] [Read E R] (I : R → Prop)
    (hI : ∀ r buf, buf.length ≤ isizeMax → I r → I (Read.read (E := E) r buf).1) {fuel : ℕ}
    {r r' : R} {v v' : Vec} {out : Outcome E ℕ} (hr : I r)
    (h : readToEnd fuel r v = some (r', v', out)) : I r' := by
  have hstart : ReaderKeeps (E := E) I (.next (r, Guard.new v)) := hr
  refine Loop.loop_spec (ReaderKeeps I) ?_ hstart h
  intro s hr
  obtain ⟨r, guard⟩ := s
  cases hroom : guard.ensureRoom with
  | none =>
    simp only [readToEndBody, hroom]
    exact hr
  | some g =>
    have hr' : I (g.readInto (E := E) r).1 := by
      refine hI r _ ?_ hr
      rw [List.length_drop]
      exact le_trans (Nat.sub_le _ _) g.buf.len_le_isizeMax
    simp only [readToEndBody, hroom]
    exact readToEndAnswer_keeps hr' _ _ _

/-- **`read_to_end` appends exactly what was read, on every exit**, and it goes on only as
long as every answer lets it. -/
theorem readToEnd_appends [Alloc] [Read E R] (fuel : ℕ) (r : R) (v : Vec) :
    (∀ r' v' out, readToEnd (E := E) fuel r v = some (r', v', out) →
      ∃ log, readToEnd fuel (⟨r, []⟩ : Logged (ReadCall E) R) v = some (⟨r', log⟩, v', out) ∧
        ReadToEndSpec v.bytes v'.bytes log out) ∧
    (readToEnd (E := E) fuel r v = none →
      ∃ (r' : Logged (ReadCall E) R) (guard : Guard),
        Loop.after (readToEndBody (E := E) v.len) fuel (⟨r, []⟩, Guard.new v) = some (r', guard) ∧
        r'.log.length = fuel ∧ Reading v.bytes r' guard) := by
  constructor
  · intro r' v' out h
    exact readToEnd_exit h
  · intro h
    obtain ⟨⟨r', guard⟩, hafter⟩ := Loop.after_of_map
      (readToEnd_map readHom_logged fuel (⟨r, []⟩ : Logged (ReadCall E) R) v) h
    obtain ⟨hlen, hread⟩ := Loop.after_invariant
      (fun k s => s.1.log.length = k ∧ Reading v.bytes s.1 s.2)
      (fun k s s' hs hb => by
        have hturn : TurnSpec v.bytes (.next s') := hb ▸ readToEndBody_spec hs.2
        exact ⟨by rw [log_length_of_next hb, hs.1], hturn⟩)
      (k := 0) ⟨rfl, Reading.start r v⟩ hafter
    exact ⟨r', guard, hafter, by simpa using hlen, hread⟩

end

end

open Machine64 in
/-- Two pieces with an interruption between them are read behind a byte that is there. -/
theorem readToEnd_appends_pieces :
    ∃ log : List (ReadCall (Features.Error StdIo.plain .std)),
      readToEnd 4
        (⟨Script.pieces, []⟩ : Logged (ReadCall (Features.Error StdIo.plain .std)) (Script _))
        ⟨[9], 1, by decide, by decide⟩
        = some (⟨⟨[]⟩, log⟩, ⟨[9, 1, 2, 3], 33, by decide, by decide⟩,
          (.ok 3 : Outcome (Features.Error StdIo.plain .std) ℕ)) ∧
      ReadToEndSpec [9] [9, 1, 2, 3] log (.ok 3) :=
  (readToEnd_appends 4 Script.pieces ⟨[9], 1, by decide, by decide⟩).1 ⟨[]⟩
    ⟨[9, 1, 2, 3], 33, by decide, by decide⟩ (.ok 3) (by decide +kernel)

end NotIo
