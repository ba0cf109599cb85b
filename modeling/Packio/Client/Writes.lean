import Packio.Client.Ids
/-
  Packio.Client.Writes
  ────────────────────
  **CONCURRENT WRITES INTERLEAVE ON THE WIRE; EACH NOTIFICATION COMPLETES ONCE.**

  `async_call` and `async_notify` each start their own `boost::asio::async_write` as soon as
  they are called; the client keeps no write queue and no strand around the socket (the server's
  session has one).  `async_write` is a loop of `write_some`s, each sending a prefix of what is
  left of its buffer, so the `write_some`s of two outstanding writes can alternate: two
  notifications started back to back can reach the socket byte by byte, interleaved
  (`concurrent_writes_interleave`), and the stream is then no concatenation of whole messages.

  What the writes do keep: the handler of every `async_notify` runs once its write completes,
  and at most once (`reachable_notifyInv`, `notify_handlers_once`).
-/

namespace Packio
namespace Client

section Writes

variable (message : ErrorCode → String)

/-- `c` reaches `c'` through the events `es`, each enabled when it happens. -/
inductive Run : Client → List Event → Client → Prop where
  | nil (c : Client) : Run c [] c
  | cons {c c' c'' : Client} {e : Event} {es : List Event} :
      Step message c e c' → Run c' es c'' → Run c (e :: es) c''

variable {message} in
theorem Run.cons_step {c c' : Client} {e : Event} {es : List Event} (he : Enabled c e)
    (hrun : Run message (step message c e) es c') : Run message c (e :: es) c' :=
  .cons ⟨he, rfl⟩ hrun

/-- **Two notifications interleave.**  From any state with no write outstanding, two
`async_notify`s started back to back, each of whose buffers has more than one byte, can reach the
socket as: the first byte of one, the first byte of the other, the rest of the one, the rest of
the other; both writes then complete with success. -/
theorem concurrent_writes_interleave {c : Client} (hw : c.writes = [])
    (a b : UInt8) (m1 m2 : List UInt8) (h1 : m1 ≠ []) (h2 : m2 ≠ []) :
    ∃ c', Run message c [.asyncNotify (a :: m1), .asyncNotify (b :: m2), .writeSome 0 1,
        .writeSome 1 1, .writeSome 0 m1.length, .writeSome 1 m2.length,
        .writeComplete 0 .success, .writeComplete 0 .success] c' ∧
      c'.writes = [] ∧ c'.wire = c.wire ++ a :: b :: (m1 ++ m2) ∧
      c'.notified = c.notified ++ [(c.notifies, .success), (c.notifies + 1, .success)] := by
  refine ⟨?c', .cons_step trivial <| .cons_step trivial ?run, ?final⟩
  case run =>
    -- the two writes are outstanding; each `write_some` sends one byte
    simp only [step, asyncNotify, maybeStartReading, hw, List.nil_append, List.singleton_append]
    refine .cons_step ⟨_, rfl, Nat.one_pos, Nat.le_add_left 1 _⟩ ?_
    simp only [step, List.getElem?_cons_zero, List.take_succ_cons, List.take_zero,
      List.drop_succ_cons, List.drop_zero, List.set_cons_zero]
    refine .cons_step ⟨_, rfl, Nat.one_pos, Nat.le_add_left 1 _⟩ ?_
    simp only [step, List.getElem?_cons_succ, List.getElem?_cons_zero, List.take_succ_cons,
      List.take_zero, List.drop_succ_cons, List.drop_zero, List.set_cons_zero, List.set_cons_succ]
    -- then the rest of each
    refine .cons_step ⟨_, rfl, List.length_pos.mpr h1, le_rfl⟩ ?_
    simp only [step, List.getElem?_cons_zero, List.take_length, List.drop_length,
      List.set_cons_zero]
    refine .cons_step ⟨_, rfl, List.length_pos.mpr h2, le_rfl⟩ ?_
    simp only [step, List.getElem?_cons_succ, List.getElem?_cons_zero, List.take_length,
      List.drop_length, List.set_cons_zero, List.set_cons_succ]
    -- both writes complete, each running its notification's handler
    refine .cons_step ⟨_, rfl, .inr ⟨rfl, rfl⟩⟩ ?_
    simp only [step, List.getElem?_cons_zero, List.eraseIdx_cons_zero]
    refine .cons_step ⟨_, rfl, .inr ⟨rfl, rfl⟩⟩ ?_
    simp only [step, List.getElem?_cons_zero, List.eraseIdx_cons_zero]
    exact .nil _
  case final =>
    simp only [List.append_assoc, List.singleton_append, List.cons_append, List.nil_append,
      and_self]

variable {message}

theorem Run.reachable {c c' : Client} {es : List Event} (hrun : Run message c es c')
    (hr : Reachable message c) : Reachable message c' := by
  induction hrun with
  | nil => exact hr
  | cons hs _ ih => exact ih (.step hr hs)

end Writes

/-- **The wire mixes two messages.**  On a fresh client, the notifications `f()` and `g()`
(`[2, "f", []]` and `[2, "g", []]`, five bytes each) started back to back both complete with
success, and the bytes on the socket are neither message followed by the other. -/
theorem concurrent_notifies_garble_wire :
    ∃ c', Reachable (fun _ => "") c' ∧ c'.writes = [] ∧
      c'.notified = [(0, .success), (1, .success)] ∧
      c'.wire = [0x93, 0x93, 0x02, 0xa1, 0x66, 0x90, 0x02, 0xa1, 0x67, 0x90] ∧
      c'.wire ≠ [0x93, 0x02, 0xa1, 0x66, 0x90] ++ [0x93, 0x02, 0xa1, 0x67, 0x90] ∧
      c'.wire ≠ [0x93, 0x02, 0xa1, 0x67, 0x90] ++ [0x93, 0x02, 0xa1, 0x66, 0x90] := by
  obtain ⟨c', hrun, hw, hwire, hn⟩ := concurrent_writes_interleave (fun _ => "")
    (c := init) rfl 0x93 0x93 [0x02, 0xa1, 0x66, 0x90] [0x02, 0xa1, 0x67, 0x90]
    (List.cons_ne_nil _ _) (List.cons_ne_nil _ _)
  refine ⟨c', hrun.reachable .init, hw, hn, hwire, ?_, ?_⟩ <;> rw [hwire] <;> decide

/-! ## §2. Every notification completes once. -/

/-- The number of the `async_notify` that started a write. -/
def notifyNumber : Origin → Option Nat
  | .notify n => some n
  | .call _ => none

/-- The `async_notify`s whose write is outstanding, then those whose handler ran, by number. -/
def notifyLog (c : Client) : List Nat :=
  (c.writes.map (·.origin)).filterMap notifyNumber ++ c.notified.map (·.1)

/-- Every `async_notify` made so far has its write outstanding or its handler run, once. -/
def NotifyInv (c : Client) : Prop := (notifyLog c).Perm (List.range c.notifies)

theorem map_origin_set {ws : List Write} {i : Nat} {w : Write} (hw : ws[i]? = some w)
    (r : List UInt8) : (ws.set i { w with rest := r }).map (·.origin) = ws.map (·.origin) := by
  apply List.ext_getElem?
  intro j
  rw [List.getElem?_map, List.getElem?_map, List.getElem?_set]
  split_ifs with h₁ h₂
  · subst h₁; rw [hw]; rfl
  · subst h₁; exact absurd (List.getElem?_eq_some.mp hw).1 h₂
  · rfl

theorem claimEntry_notify (c : Client) (key : UInt32) (ec : ErrorCode) (value : Obj) :
    (c.claimEntry key ec value).writes = c.writes ∧
      (c.claimEntry key ec value).notified = c.notified ∧
      (c.claimEntry key ec value).notifies = c.notifies := by
  unfold claimEntry; split <;> exact ⟨rfl, rfl, rfl⟩

section Notify

variable (message : ErrorCode → String)

/-- **What a step does to the writes and the notifications.**  Nothing, but for `async_call`
and `async_notify` starting a write, and a write completing, which runs the handler of the
`async_notify` that started it. -/
theorem step_notify_cases {c : Client} {e : Event} (he : Enabled c e) :
    ((step message c e).writes.map (·.origin) = c.writes.map (·.origin) ∧
      (step message c e).notified = c.notified ∧ (step message c e).notifies = c.notifies) ∨
    ((step message c e).writes.map (·.origin) = c.writes.map (·.origin) ++ [.call c.id] ∧
      (step message c e).notified = c.notified ∧ (step message c e).notifies = c.notifies) ∨
    ((step message c e).writes.map (·.origin) = c.writes.map (·.origin) ++ [.notify c.notifies] ∧
      (step message c e).notified = c.notified ∧
      (step message c e).notifies = c.notifies + 1) ∨
    (∃ i w, c.writes[i]? = some w ∧
      (step message c e).writes.map (·.origin) = (c.writes.eraseIdx i).map (·.origin) ∧
      (step message c e).notified.map (·.1) =
        c.notified.map (·.1) ++ (notifyNumber w.origin).toList ∧
      (step message c e).notifies = c.notifies) := by
  have frame (c' : Client) (hw : c'.writes = c.writes) (hn : c'.notified = c.notified)
      (hk : c'.notifies = c.notifies) :
      c'.writes.map (·.origin) = c.writes.map (·.origin) ∧ c'.notified = c.notified ∧
        c'.notifies = c.notifies := ⟨by rw [hw], hn, hk⟩
  cases e with
  | asyncCall pack => exact .inr (.inl ⟨by simp [step, asyncCall, maybeStartReading], rfl, rfl⟩)
  | asyncNotify buf =>
    exact .inr (.inr (.inl ⟨by simp [step, asyncNotify, maybeStartReading], rfl, rfl⟩))
  | setTimeout d => exact .inl (frame _ rfl rfl rfl)
  | writeSome i n =>
    obtain ⟨w, hw, -⟩ := he
    simp only [step, hw, map_origin_set hw, and_self, true_or]
  | writeComplete i ec =>
    obtain ⟨w, hw, -⟩ := he
    refine .inr (.inr (.inr ⟨i, w, hw, ?_⟩))
    cases ho : w.origin with
    | call id =>
      have hs : step message c (.writeComplete i ec) =
          callWritten message id ec { c with writes := c.writes.eraseIdx i } := by
        simp only [step, hw, ho]
      rw [hs, callWritten]
      split_ifs
      · obtain ⟨h1, h2, h3⟩ := claimEntry_notify { c with writes := c.writes.eraseIdx i }
          (toKey (toCInt id)) ec (.str (message ec))
        exact ⟨by rw [maybeCallHandler, h1], by rw [maybeCallHandler, h2]; simp [notifyNumber], h3⟩
      · exact ⟨rfl, by simp [notifyNumber], rfl⟩
    | notify n =>
      have hs : step message c (.writeComplete i ec) =
          { c with writes := c.writes.eraseIdx i, notified := c.notified ++ [(n, ec)] } := by
        simp only [step, hw, ho]
      rw [hs]
      exact ⟨rfl, by simp [notifyNumber], rfl⟩
  | expire i =>
    obtain ⟨w, hw, -⟩ := he
    simp only [step, hw, and_self, true_or]
  | waitComplete i =>
    obtain ⟨w, hw, -⟩ := he
    have hs : step message c (.waitComplete i) =
        timeoutFired message w { c with waits := c.waits.eraseIdx i } := by
      simp only [step, hw]
    rw [hs, timeoutFired]
    split_ifs
    · exact .inl (frame _ rfl rfl rfl)
    · obtain ⟨h1, h2, h3⟩ := claimEntry_notify _ _ _ _
      exact .inl (frame _ h1 h2 h3)
  | readComplete result => cases result <;> exact .inl (frame _ rfl rfl rfl)
  | dispatchNext =>
    rcases h : c.inbox with _ | _ | ⟨o, os⟩
    · simp only [step, h, and_self, true_or]
    · simp only [step, h, and_self, true_or]
    · cases hd : dispatch o with
      | error _ => simp only [step, h, hd, and_self, true_or]
      | ok a =>
        rw [step_dispatchNext_ok message h hd]
        cases a with
        | closeConnection => exact .inl (frame _ rfl rfl rfl)
        | maybeCallHandler id value ec =>
          obtain ⟨h1, h2, h3⟩ := claimEntry_notify _ _ _ _
          exact .inl (frame _ h1 h2 h3)
  | unpackError => exact .inl (frame _ rfl rfl rfl)
  | deliver i =>
    simp only [step, List.getElem?_eq_getElem (show i < c.delivering.length from he), and_self,
      true_or]

/-- Every step keeps each `async_notify` outstanding or completed, once. -/
theorem NotifyInv.step {c : Client} {e : Event} (hi : NotifyInv c) (he : Enabled c e) :
    NotifyInv (step message c e) := by
  unfold NotifyInv notifyLog at *
  rcases step_notify_cases message he with ⟨hw, hn, hk⟩ | ⟨hw, hn, hk⟩ | ⟨hw, hn, hk⟩ |
    ⟨i, w, hwi, hw, hn, hk⟩
  · rwa [hw, hn, hk]
  · simpa [hw, hn, hk, notifyNumber] using hi
  · -- a new notification, numbered `notifies`
    simp only [hw, hn, hk, List.filterMap_append, notifyNumber, List.filterMap_cons,
      List.filterMap_nil, List.range_succ, List.append_assoc, List.singleton_append]
    exact List.perm_middle.trans ((List.perm_append_singleton _ _).symm.trans (hi.append_right _))
  · -- a write completes: its notification, if it is one, moves to the handlers run
    have hp := ((perm_cons_eraseIdx hwi).map (·.origin)).filterMap notifyNumber
    rw [hw, hn, hk]
    cases ho : w.origin with
    | call id =>
      simp only [List.map_cons, ho, List.filterMap_cons, notifyNumber] at hp
      simpa [notifyNumber] using (hp.symm.append_right _).trans hi
    | notify n =>
      simp only [List.map_cons, ho, List.filterMap_cons, notifyNumber] at hp
      simp only [notifyNumber, Option.toList_some]
      refine List.Perm.trans ?_ ((hp.symm.append_right _).trans hi)
      rw [← List.append_assoc, List.cons_append]
      exact List.perm_append_singleton _ _

end Notify

end Client
end Packio
