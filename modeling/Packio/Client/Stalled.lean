import Packio.Client.Reading
/-
  Packio.Client.Stalled
  ─────────────────────
  **AFTER THE READ CHAIN ENDS, NO CALL GETS ITS RESPONSE.**

  A failed read, a `dispatch` that throws, or `unpacker_.next` throwing on malformed bytes ends
  the read chain (`Ended`): `reading_` stays
  set, so no `maybe_start_reading` issues a read again, and no response is dispatched again.
  From then on a handler leaves `pending_` only through its call's timeout or the failure of its
  request's write, so every handler called afterwards, but for those already taken out when the
  chain ended, is called with `error::timeout` or a write error (`stalled_after_read_chain_ends`).

  `ended_step_handlers` says what a step of an ended client can do to the handlers taken out
  and called; `Stalled` is what a run from an ended client keeps, step by step.
-/

namespace Packio
namespace Client

/-! ## §1. One step of an ended client. -/

/-- A handler's error code that no response carries: `error::timeout`, or an error of the
socket. -/
def NoResponse (ec : ErrorCode) : Prop := ec = .timeout ∨ ∃ v, ec = .system v

/-- A critical section with an error code no response carries calls no handler, and takes out
at most one, with that code. -/
theorem claimEntry_noResponse {ec : ErrorCode} (hec : NoResponse ec) (c : Client) (key : UInt32)
    (value : Obj) :
    (c.claimEntry key ec value).invoked = c.invoked ∧
      ((c.claimEntry key ec value).delivering = c.delivering ∨
        ∃ d, (c.claimEntry key ec value).delivering = c.delivering ++ [d] ∧ NoResponse d.ec) := by
  unfold claimEntry
  split
  · exact ⟨rfl, .inl rfl⟩
  · exact ⟨rfl, .inr ⟨_, rfl, hec⟩⟩

section Steps

variable (message : ErrorCode → String)

/-- **What a step of an ended client does to the handlers.**  Nothing; or a critical section
takes one handler out, with a timeout or a write error; or a thread calls a handler it was
handed.  No read can complete and no handler dispatches, so no response is handed over. -/
theorem ended_step_handlers {c : Client} {e : Event} (hend : Ended c) (he : Enabled c e) :
    ((step message c e).invoked = c.invoked ∧
      ((step message c e).delivering = c.delivering ∨
        ∃ d, (step message c e).delivering = c.delivering ++ [d] ∧ NoResponse d.ec)) ∨
    ∃ i d, c.delivering[i]? = some d ∧ (step message c e).delivering = c.delivering.eraseIdx i ∧
      (step message c e).invoked = c.invoked ++ [⟨d.entry.call, d.ec, d.value⟩] := by
  obtain ⟨-, h₀, hn⟩ := hend
  have same : (c.invoked = c.invoked ∧ (c.delivering = c.delivering ∨
      ∃ d, c.delivering = c.delivering ++ [d] ∧ NoResponse d.ec)) := ⟨rfl, .inl rfl⟩
  cases e with
  | asyncCall pack => exact .inl same
  | asyncNotify buf => exact .inl same
  | setTimeout d => exact .inl same
  | writeSome i n => simp only [step]; split <;> exact .inl same
  | writeComplete i ec =>
    obtain ⟨w, hw, hec⟩ := he
    simp only [step, hw]
    split
    · unfold callWritten
      split_ifs with herr
      · -- the write failed: its handler is taken out with the socket's error
        rcases hec with ⟨v, rfl, -⟩ | ⟨rfl, -⟩
        · exact .inl (claimEntry_noResponse (.inr ⟨v, rfl⟩) _ _ _)
        · cases herr
      · exact .inl same
    · exact .inl same
  | expire i => simp only [step]; split <;> exact .inl same
  | waitComplete i =>
    obtain ⟨w, hw, -⟩ := he
    simp only [step, hw]
    unfold timeoutFired
    split_ifs
    · exact .inl same
    · exact .inl (claimEntry_noResponse (.inl rfl) _ _ _)
  | readComplete r => exact absurd he (by show ¬0 < c.reads; omega)
  | dispatchNext => exact absurd hn he
  | unpackError => exact Option.noConfusion (hn.symm.trans he)
  | deliver i =>
    have hi : i < c.delivering.length := he
    simp only [step, List.getElem?_eq_getElem hi]
    exact .inr ⟨i, _, List.getElem?_eq_getElem hi, rfl, rfl⟩

end Steps

/-! ## §2. Every run of an ended client. -/

/-- From the ended client `c₀` to `c`: the chain is still over; each handler called since was
called with a timeout or a write error, or had been taken out before `c₀`; and each handler
taken out and not called yet has such a code, or had been taken out before `c₀`. -/
def Stalled (c₀ c : Client) : Prop :=
  Ended c ∧
    (∃ new, c.invoked = c₀.invoked ++ new ∧ ∀ i ∈ new,
      NoResponse i.ec ∨ ∃ d ∈ c₀.delivering, i = ⟨d.entry.call, d.ec, d.value⟩) ∧
    ∀ d ∈ c.delivering, NoResponse d.ec ∨ d ∈ c₀.delivering

theorem stalled_refl {c₀ : Client} (hend : Ended c₀) : Stalled c₀ c₀ :=
  ⟨hend, ⟨[], (List.append_nil _).symm, nofun⟩, fun _ hd => .inr hd⟩

theorem Stalled.step {message : ErrorCode → String} {c₀ c : Client} {e : Event}
    (hs : Stalled c₀ c) (he : Enabled c e) : Stalled c₀ (step message c e) := by
  obtain ⟨hend, ⟨new, hinv, hnew⟩, hdel⟩ := hs
  refine ⟨hend.step he, ?_⟩
  rcases ended_step_handlers message hend he with ⟨hi, hd | ⟨d, hd, hec⟩⟩ | ⟨i, d, hget, hd, hi⟩
  · exact ⟨⟨new, hi.trans hinv, hnew⟩, by rw [hd]; exact hdel⟩
  · refine ⟨⟨new, hi.trans hinv, hnew⟩, fun d' hd' => ?_⟩
    rw [hd, List.mem_append, List.mem_singleton] at hd'
    rcases hd' with hd' | rfl
    exacts [hdel d' hd', .inl hec]
  · -- a thread calls the handler it was handed
    refine ⟨⟨new ++ [⟨d.entry.call, d.ec, d.value⟩], by rw [hi, hinv, List.append_assoc], ?_⟩,
      fun d' hd' => hdel d' (List.mem_of_mem_eraseIdx (hd ▸ hd'))⟩
    intro inv hinv'
    rcases List.mem_append.mp hinv' with hinv' | hinv'
    · exact hnew inv hinv'
    · rw [List.mem_singleton.mp hinv']
      rcases hdel d (List.mem_iff_getElem?.mpr ⟨i, hget⟩) with hec | hd₀
      exacts [.inl hec, .inr ⟨d, hd₀, rfl⟩]

theorem Run.stalled {message : ErrorCode → String} {c₀ c c' : Client} {es : List Event}
    (hrun : Run message c es c') (hs : Stalled c₀ c) : Stalled c₀ c' := by
  induction hrun with
  | nil => exact hs
  | cons hstep _ ih => obtain ⟨he, rfl⟩ := hstep; exact ih (hs.step he)

/-- **No response after the read chain ends.**  From a client whose read chain is over (after a
failed read, a `dispatch` that threw, or the unpacker throwing), along every run: every call handler called, but for
those already taken out of `pending_` when the chain ended, is called with `error::timeout` or
with an error of the socket.  No call receives its response again. -/
theorem stalled_after_read_chain_ends {message : ErrorCode → String} {c₀ c : Client}
    {es : List Event} (hend : Ended c₀) (hrun : Run message c₀ es c) :
    ∃ new, c.invoked = c₀.invoked ++ new ∧ ∀ i ∈ new,
      i.ec = .timeout ∨ (∃ v, i.ec = .system v) ∨
        ∃ d ∈ c₀.delivering, i = ⟨d.entry.call, d.ec, d.value⟩ := by
  obtain ⟨-, ⟨new, hinv, hnew⟩, -⟩ := hrun.stalled (stalled_refl hend)
  refine ⟨new, hinv, fun i hi => ?_⟩
  rcases hnew i hi with (h | h) | h
  exacts [.inl h, .inr (.inl h), .inr (.inr h)]

/-- A call made with `timeout_ = 1` whose read fails; then its deadline passes, its wait's
callback takes the entry out and the thread calls the handler: the one handler called after the
chain ended is called with `error::timeout`. -/
theorem stalled_after_failed_first_read :
    let m : ErrorCode → String := fun _ => ""
    let c₀ := step m (step m (step m init (.setTimeout 1)) (.asyncCall fun _ => []))
      (.readComplete (.error (.system 104)))
    let es : List Event := [.expire 0, .waitComplete 0, .deliver 0]
    let c := es.foldl (step m) c₀
    Ended c₀ ∧ Run m c₀ es c ∧ c.invoked = [⟨0, .timeout, .str ""⟩] ∧
    ∃ new, c.invoked = c₀.invoked ++ new ∧ ∀ i ∈ new,
      i.ec = .timeout ∨ (∃ v, i.ec = .system v) ∨
        ∃ d ∈ c₀.delivering, i = ⟨d.entry.call, d.ec, d.value⟩ := by
  refine ⟨?hend, ?hrun, rfl, stalled_after_read_chain_ends ?hend ?hrun⟩
  case hend => exact ⟨rfl, rfl, rfl⟩
  case hrun =>
    exact .cons_step ⟨_, rfl, rfl⟩ <| .cons_step ⟨_, rfl, nofun⟩ <| .cons_step Nat.one_pos (.nil _)

end Client
end Packio
