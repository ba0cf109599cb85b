import Packio.Client.Writes
/-
  Packio.Client.Reading
  ─────────────────────
  **ONE READ CHAIN, STARTED ONCE, ENDED BY A FAILED READ OR AN EXCEPTION IN ITS HANDLER.**

  The constructor clears `reading_`, and `maybe_start_reading`, which every `async_call` and
  `async_notify` runs, sets it with `test_and_set`: only the caller that found it clear calls
  `async_read`.  The handler of a read dispatches the objects it read and then issues the next
  read; after a failed read it issues none.  So at most one `async_read_some` is outstanding, and
  none while the handler dispatches (`ReadInv`, `reachable_readInv`); the chain is started by
  the first call or notification and by no other (`asyncCall_starts_iff`); and after a failed
  read the client never reads again (`Run.ended`).

  A successful read issues its one next read only if `dispatch` returns for each object it read
  (`handler_issues_one_read`): `boost::asio::dispatch` runs `dispatch` inside the handler, and
  the `as<int>()` of a malformed response throws out of it before `async_read()`; so does
  `unpacker_.next` on malformed bytes (`unpackError_ended`).  Then, too, the client never reads
  again (`read_chain_at_most_one`, `Run.ended`).
-/

namespace Packio
namespace Client

/-! ## §1. What touches the read chain. -/

/-- `c'` has the read chain of `c`, and the same counts of calls and notifications. -/
def SameChain (c c' : Client) : Prop :=
  c'.reading = c.reading ∧ c'.reads = c.reads ∧ c'.inbox = c.inbox ∧ c'.calls = c.calls ∧
    c'.notifies = c.notifies

theorem claimEntry_sameChain (c : Client) (key : UInt32) (ec : ErrorCode) (value : Obj) :
    SameChain c (c.claimEntry key ec value) := by
  unfold claimEntry; split <;> exact ⟨rfl, rfl, rfl, rfl, rfl⟩

theorem perform_sameChain (c : Client) (a : Action) : SameChain c (c.perform a) := by
  cases a with
  | closeConnection => exact ⟨rfl, rfl, rfl, rfl, rfl⟩
  | maybeCallHandler id value ec => exact claimEntry_sameChain c _ ec value

section Chain

variable (message : ErrorCode → String)

/-- **What a step does to the read chain.**  Nothing, but for `async_call` and `async_notify`,
which run `maybe_start_reading`, a read completing, the handler dispatching, and the unpacker
throwing. -/
theorem step_chain_cases {c : Client} {e : Event} :
    SameChain c (step message c e) ∨ (∃ pack, e = .asyncCall pack) ∨
      (∃ buf, e = .asyncNotify buf) ∨ (∃ r, e = .readComplete r) ∨ e = .dispatchNext ∨
      e = .unpackError := by
  have same : SameChain c c := ⟨rfl, rfl, rfl, rfl, rfl⟩
  cases e with
  | asyncCall pack => exact .inr (.inl ⟨pack, rfl⟩)
  | asyncNotify buf => exact .inr (.inr (.inl ⟨buf, rfl⟩))
  | readComplete r => exact .inr (.inr (.inr (.inl ⟨r, rfl⟩)))
  | dispatchNext => exact .inr (.inr (.inr (.inr (.inl rfl))))
  | unpackError => exact .inr (.inr (.inr (.inr (.inr rfl))))
  | setTimeout d => exact .inl same
  | writeSome i n => simp only [step]; split <;> exact .inl same
  | writeComplete i ec =>
    refine .inl ?_
    simp only [step]
    split
    · split
      · unfold callWritten maybeCallHandler
        split_ifs
        exacts [claimEntry_sameChain _ _ _ _, same]
      · exact same
    · exact same
  | expire i => simp only [step]; split <;> exact .inl same
  | waitComplete i =>
    refine .inl ?_
    simp only [step]
    split
    · unfold timeoutFired
      split_ifs
      exacts [same, claimEntry_sameChain _ _ _ _]
    · exact same
  | deliver i => simp only [step]; split <;> exact .inl same

end Chain

/-! ## §2. At most one read. -/

/-- The read chain of a client: `reading_` is set exactly once a call or a notification has run
`maybe_start_reading`, nothing is read before, and at most one read is outstanding, none while
the handler of the last one dispatches. -/
structure ReadInv (c : Client) : Prop where
  reading_iff : c.reading = true ↔ 0 < c.calls + c.notifies
  idle : c.reading = false → c.reads = 0 ∧ c.inbox = none
  reads_le : c.reads ≤ 1
  handling : c.inbox ≠ none → c.reads = 0

theorem readInv_init : ReadInv init :=
  ⟨iff_of_false Bool.false_ne_true (Nat.lt_irrefl 0), fun _ => ⟨rfl, rfl⟩, Nat.zero_le 1,
    fun _ => rfl⟩

/-- Once `reading_` is set, the invariant is the bound on the chain. -/
theorem ReadInv.of_reading {c : Client} (hr : c.reading = true) (hn : 0 < c.calls + c.notifies)
    (hle : c.reads ≤ 1) (hh : c.inbox ≠ none → c.reads = 0) : ReadInv c :=
  ⟨iff_of_true hr hn, fun h => Bool.noConfusion (hr.symm.trans h), hle, hh⟩

theorem ReadInv.of_sameChain {c c' : Client} (hi : ReadInv c) (h : SameChain c c') :
    ReadInv c' := by
  obtain ⟨h₁, h₂, h₃, h₄, h₅⟩ := h
  refine ⟨?_, ?_, ?_, ?_⟩ <;> simp only [h₁, h₂, h₃, h₄, h₅]
  exacts [hi.reading_iff, hi.idle, hi.reads_le, hi.handling]

/-- A read outstanding, or a handler dispatching, means `reading_` is set. -/
theorem ReadInv.reading {c : Client} (hi : ReadInv c) (h : 0 < c.reads ∨ c.inbox ≠ none) :
    c.reading = true := by
  by_contra hr
  obtain ⟨h₀, hn⟩ := hi.idle (by simpa using hr)
  exact h.elim (fun h => absurd h₀ (Nat.pos_iff_ne_zero.mp h)) (absurd hn)

/-- `maybe_start_reading` in a call or a notification: `reading_` ends set, and a read is
started exactly when it was clear. -/
theorem ReadInv.start {c c' : Client} (hi : ReadInv c) (hr : c'.reading = true)
    (hreads : c'.reads = if c.reading then c.reads else c.reads + 1) (hin : c'.inbox = c.inbox)
    (hn : c'.calls + c'.notifies = c.calls + c.notifies + 1) : ReadInv c' := by
  refine .of_reading hr (by omega) ?_ ?_ <;> rw [hreads] <;> cases hc : c.reading
  · rw [(hi.idle hc).1]; exact le_rfl
  · exact hi.reads_le
  · rw [hin, (hi.idle hc).2]; exact fun h => absurd rfl h
  · rw [hin]; exact hi.handling

/-- An exception leaving the handler drops the objects it had left and issues no read. -/
theorem ReadInv.throw {c : Client} (hi : ReadInv c) (hne : c.inbox ≠ none) :
    ReadInv { c with inbox := none, thrown := true } :=
  have hr := hi.reading (.inr hne)
  .of_reading hr (hi.reading_iff.mp hr) hi.reads_le fun _ => hi.handling hne

theorem ReadInv.step {message : ErrorCode → String} {c : Client} {e : Event} (hi : ReadInv c)
    (he : Enabled c e) : ReadInv (step message c e) := by
  rcases step_chain_cases message (c := c) (e := e) with h | ⟨pack, rfl⟩ | ⟨buf, rfl⟩ |
      ⟨r, rfl⟩ | rfl | rfl
  · exact hi.of_sameChain h
  · exact hi.start rfl rfl rfl (by show c.calls + 1 + c.notifies = _; omega)
  · exact hi.start rfl rfl rfl (by show c.calls + (c.notifies + 1) = _; omega)
  · -- the read completes: the handler runs, or returns at once after an error
    have hr := hi.reading (.inl he)
    have hn := hi.reading_iff.mp hr
    have h₁ : c.reads - 1 = 0 := by have : 0 < c.reads := he; have := hi.reads_le; omega
    cases r <;> exact .of_reading hr hn (by show c.reads - 1 ≤ 1; omega) fun _ => h₁
  · -- the handler dispatches its next object, or issues the next read
    have hr := hi.reading (.inr he)
    have hn := hi.reading_iff.mp hr
    have h₀ := hi.handling he
    rcases h : c.inbox with _ | _ | ⟨o, os⟩
    · exact absurd h he
    · rw [step_dispatchNext_nil message h]
      exact .of_reading hr hn (by show c.reads + 1 ≤ 1; omega) fun h => absurd rfl h
    · cases hd : dispatch o with
      | error _ => rw [step_dispatchNext_error message h hd]; exact hi.throw he
      | ok a =>
        obtain ⟨h₁, h₂, -, h₄, h₅⟩ := perform_sameChain { c with inbox := some os } a
        rw [step_dispatchNext_ok message h hd]
        refine .of_reading (h₁.trans hr) (by rw [h₄, h₅]; exact hn) ?_
          fun _ => h₂.trans h₀
        rw [h₂]; exact hi.reads_le
  · -- the unpacker throws: the exception leaves the handler before its `async_read()`
    exact hi.throw fun h => Option.noConfusion (h.symm.trans he)

theorem reachable_readInv {message : ErrorCode → String} {c : Client}
    (hr : Reachable message c) : ReadInv c := by
  induction hr with
  | init => exact readInv_init
  | step _ hs ih => obtain ⟨he, rfl⟩ := hs; exact ih.step he

/-- **The first call or notification starts the chain, and no other.**  `maybe_start_reading`
issues a read exactly when no `async_call` or `async_notify` ran before. -/
theorem asyncCall_starts_iff {message : ErrorCode → String} {c : Client}
    (hr : Reachable message c) (pack : UInt32 → List UInt8) (buf : List UInt8) :
    ((step message c (.asyncCall pack)).reads = c.reads + 1 ↔ c.calls + c.notifies = 0) ∧
      ((step message c (.asyncNotify buf)).reads = c.reads + 1 ↔ c.calls + c.notifies = 0) := by
  have hi := reachable_readInv hr
  have h : (if c.reading then c.reads else c.reads + 1) = c.reads + 1 ↔
      c.calls + c.notifies = 0 := by
    cases hc : c.reading
    · have : ¬0 < c.calls + c.notifies := fun h =>
        Bool.noConfusion (hc.symm.trans (hi.reading_iff.mpr h))
      exact iff_of_true rfl (by omega)
    · exact iff_of_false (by simp) (by have := hi.reading_iff.mp hc; omega)
  exact ⟨h, h⟩

/-! ## §3. The end of the chain. -/

/-- A handler with objects left can dispatch. -/
theorem enabled_dispatchNext {c : Client} {objs : List Obj} (hin : c.inbox = some objs) :
    Enabled c .dispatchNext :=
  show c.inbox ≠ none by rw [hin]; exact Option.some_ne_none _

/-- The chain is over: `reading_` is set, no read is outstanding and no handler dispatches. -/
def Ended (c : Client) : Prop := c.reading = true ∧ c.reads = 0 ∧ c.inbox = none

/-- Nothing restarts an ended chain: `maybe_start_reading` finds `reading_` set, and no read
can complete. -/
theorem Ended.step {message : ErrorCode → String} {c : Client} {e : Event} (h : Ended c)
    (he : Enabled c e) : Ended (step message c e) := by
  obtain ⟨hr, h₀, hn⟩ := h
  have hstart : (if c.reading then c.reads else c.reads + 1) = 0 := by rw [hr, if_pos rfl, h₀]
  rcases step_chain_cases message (c := c) (e := e) with hs | ⟨pack, rfl⟩ | ⟨buf, rfl⟩ |
      ⟨r, rfl⟩ | rfl | rfl
  · obtain ⟨h₁, h₂, h₃, -, -⟩ := hs
    exact ⟨h₁.trans hr, h₂.trans h₀, h₃.trans hn⟩
  · exact ⟨rfl, hstart, hn⟩
  · exact ⟨rfl, hstart, hn⟩
  · exact absurd he (by show ¬0 < c.reads; omega)
  · exact absurd hn he
  · exact Option.noConfusion (hn.symm.trans he)

theorem Run.ended {message : ErrorCode → String} {c c' : Client} {es : List Event}
    (hrun : Run message c es c') (h : Ended c) : Ended c' := by
  induction hrun with
  | nil => exact h
  | cons hs _ ih => obtain ⟨he, rfl⟩ := hs; exact ih (h.step he)

/-- A failed read ends the chain: its handler issues no read. -/
theorem readComplete_error_ended {message : ErrorCode → String} {c : Client} (hi : ReadInv c)
    (hpos : 0 < c.reads) (ec : ErrorCode) : Ended (step message c (.readComplete (.error ec))) :=
  ⟨hi.reading (.inl hpos), by show c.reads - 1 = 0; have := hi.reads_le; omega,
    by_contra fun h => absurd (hi.handling h) (Nat.pos_iff_ne_zero.mp hpos)⟩

/-- A `dispatch` that throws ends the chain: the exception leaves the handler before its
`async_read()`. -/
theorem dispatch_error_ended {message : ErrorCode → String} {c : Client} (hi : ReadInv c)
    {o : Obj} {os : List Obj} (hin : c.inbox = some (o :: os)) {err : TypeError}
    (hd : dispatch o = .error err) : Ended (step message c .dispatchNext) := by
  have hne : c.inbox ≠ none := enabled_dispatchNext hin
  rw [step_dispatchNext_error message hin hd]
  exact ⟨hi.reading (.inr hne), hi.handling hne, rfl⟩

/-- `unpacker_.next` throwing on malformed bytes ends the chain: the exception leaves the
handler before its `async_read()`. -/
theorem unpackError_ended {message : ErrorCode → String} {c : Client} (hi : ReadInv c)
    (hin : c.inbox = some []) : Ended (step message c .unpackError) :=
  have hne : c.inbox ≠ none := enabled_dispatchNext hin
  ⟨hi.reading (.inr hne), hi.handling hne, rfl⟩

/-- **A handler that dispatches everything issues one read.**  From the handler of a read that
yielded `objs`, each of which `dispatch` returns on, one dispatch step per object and a last
step issue exactly one read. -/
theorem handler_issues_one_read {message : ErrorCode → String} :
    ∀ {objs : List Obj} {c : Client}, c.inbox = some objs →
      (∀ o ∈ objs, ∃ a, dispatch o = .ok a) →
      ∃ c', Run message c (List.replicate (objs.length + 1) .dispatchNext) c' ∧
        c'.reads = c.reads + 1 ∧ c'.inbox = none
  | [], c, hin, _ => by
    have hs := step_dispatchNext_nil message hin
    exact ⟨_, .cons_step (enabled_dispatchNext hin) (.nil _), by rw [hs],
      by rw [hs]⟩
  | o :: os, c, hin, hok => by
    obtain ⟨a, ha⟩ := hok o (.head _)
    have hs := step_dispatchNext_ok message hin ha
    obtain ⟨-, h₂, h₃, -, -⟩ := perform_sameChain { c with inbox := some os } a
    obtain ⟨c', hrun, hr, hn⟩ :=
      handler_issues_one_read h₃ fun o ho => hok o (.tail _ ho)
    refine ⟨c', .cons_step (enabled_dispatchNext hin) (hs ▸ hrun), ?_, hn⟩
    rw [hr, h₂]

/-- **At most one read chain, and where the code breaks it.**  In every reachable state at most
one read is outstanding, and none while the handler dispatches; a call or a notification issues
a read exactly when it is the first; after a failed read no read is issued again.  A successful
read whose objects `dispatch` all returns on issues exactly one read; one on which `dispatch`
throws issues none, now or later, and a client reaches it: one call made, its read yielding
`["x", 0, nil, nil]`. -/
theorem read_chain_at_most_one (message : ErrorCode → String) :
    (∀ c, Reachable message c → c.reads ≤ 1 ∧ (c.inbox ≠ none → c.reads = 0)) ∧
    (∀ c, Reachable message c → ∀ pack buf,
      ((step message c (.asyncCall pack)).reads = c.reads + 1 ↔ c.calls + c.notifies = 0) ∧
      ((step message c (.asyncNotify buf)).reads = c.reads + 1 ↔ c.calls + c.notifies = 0)) ∧
    (∀ c ec, Reachable message c → 0 < c.reads → ∀ es c',
      Run message (step message c (.readComplete (.error ec))) es c' →
        c'.reads = 0 ∧ c'.inbox = none) ∧
    (∀ c objs, Reachable message c → 0 < c.reads →
      (∀ o ∈ objs, ∃ a, dispatch o = .ok a) →
      ∃ c', Run message (step message c (.readComplete (.ok objs)))
        (List.replicate (objs.length + 1) .dispatchNext) c' ∧
        c'.reads = 1 ∧ c'.inbox = none) ∧
    (∀ c o os, Reachable message c → 0 < c.reads → (∃ err, dispatch o = .error err) →
      ∀ es c', Run message (step message (step message c (.readComplete (.ok (o :: os))))
        .dispatchNext) es c' → c'.reads = 0 ∧ c'.inbox = none) ∧
    (Reachable message (step message init (.asyncCall fun _ => [])) ∧
      0 < (step message init (.asyncCall fun _ => [])).reads ∧
      dispatch (.array [.str "x", .positiveInteger 0, .nil, .nil]) = .error .typeError) := by
  refine ⟨fun c hr => ?bound, fun c hr pack buf => asyncCall_starts_iff hr pack buf, ?failed,
    ?handled, ?thrown,
    ⟨.step (e := .asyncCall fun _ => []) .init ⟨trivial, rfl⟩, Nat.one_pos, rfl⟩⟩
  case bound => exact ⟨(reachable_readInv hr).reads_le, (reachable_readInv hr).handling⟩
  case failed =>
    intro c ec hr hpos es c' hrun
    obtain ⟨-, h₀, hn⟩ := hrun.ended (readComplete_error_ended (reachable_readInv hr) hpos ec)
    exact ⟨h₀, hn⟩
  case handled =>
    intro c objs hr hpos hok
    have h₀ : c.reads - 1 = 0 := by have := (reachable_readInv hr).reads_le; omega
    obtain ⟨c', hrun, hreads, hn⟩ :=
      handler_issues_one_read (c := step message c (.readComplete (.ok objs))) rfl hok
    exact ⟨c', hrun, hreads.trans (congrArg (· + 1) h₀), hn⟩
  case thrown =>
    rintro c o os hr hpos ⟨err, hd⟩ es c' hrun
    have hi : ReadInv (step message c (.readComplete (.ok (o :: os)))) :=
      (reachable_readInv hr).step hpos
    obtain ⟨-, h₀, hn⟩ := hrun.ended (dispatch_error_ended hi rfl hd)
    exact ⟨h₀, hn⟩

end Client
end Packio
