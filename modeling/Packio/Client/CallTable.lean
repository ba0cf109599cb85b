import Packio.Client.Client
import Mathlib.Data.List.Nodup
/-
  Packio.Client.CallTable
  ───────────────────────
  **EVERY CALL HANDLER IS CALLED AT MOST ONCE, BY THE THREAD THAT TOOK IT OUT.**

  Three steps touch `pending_` and the handlers in it:

    * `async_call` stores an entry with a fresh handler, at an id that is free;
    * a critical section (`maybe_call_handler`, or the timeout callback) finds one key, erases
      it, and hands its entry to its own thread, every other key unchanged (`Claims`);
    * that thread, after `unlock`, calls the handler (`deliver`).

  `step_cases` says so of every step (and that all other steps leave the table alone).  From it,
  `CallTableInv` holds at every reachable state: the handlers in `pending_`, in delivery and
  already called are distinct and each has one place, so none is called twice; and each is
  called with `(error::timeout, message)`, `(ec, message)` for a write error `ec`,
  `(call_error, err)` or `(success, result)` (`Outcome`).
-/

namespace Packio
namespace Client

theorem perm_cons_eraseIdx {α : Type} {l : List α} {i : Nat} {a : α} (h : l[i]? = some a) :
    l.Perm (a :: l.eraseIdx i) := by
  obtain ⟨hi, rfl⟩ := List.getElem?_eq_some.mp h
  rw [List.eraseIdx_eq_take_drop_succ]
  conv_lhs => rw [← List.take_append_drop i l, List.drop_eq_getElem_cons hi]
  exact List.perm_middle

section Table

variable (message : ErrorCode → String)

/-- The arguments a call handler is called with: a timeout, a write error, an error the server
returned, or its result. -/
inductive Outcome : ErrorCode → Obj → Prop where
  | timeout : Outcome .timeout (.str (message .timeout))
  | writeError (v : Nat) (hv : v ≠ 0) : Outcome (.system v) (.str (message (.system v)))
  | callError (err : Obj) (h : err.isNil = false) : Outcome .callError err
  | success (result : Obj) : Outcome .success result

/-! ## §1. What a step does to the table. -/

/-- `c'` has the table, the deliveries, the handler calls and the call count of `c`. -/
def SameTable (c c' : Client) : Prop :=
  c'.pending = c.pending ∧ c'.delivering = c.delivering ∧ c'.invoked = c.invoked ∧
    c'.calls = c.calls

/-- `c'` is `c` after a critical section found `en` at `key`, erased `key`, and handed `en` to its
thread for a call with `ec` and `value`. -/
def Claims (c c' : Client) (key : UInt32) (en : Entry) (ec : ErrorCode) (value : Obj) : Prop :=
  c.pending key = some en ∧ c'.pending = Function.update c.pending key none ∧
    c'.delivering = c.delivering ++ [⟨en, ec, value⟩] ∧ c'.invoked = c.invoked ∧
    c'.calls = c.calls

theorem sameTable_refl (c : Client) : SameTable c c := ⟨rfl, rfl, rfl, rfl⟩

theorem claimEntry_cases {c c₀ : Client} (h : SameTable c c₀) (key : UInt32) (ec : ErrorCode)
    (value : Obj) :
    SameTable c (c₀.claimEntry key ec value) ∨
      ∃ en, Claims c (c₀.claimEntry key ec value) key en ec value := by
  obtain ⟨hp, hd, hi, hc⟩ := h
  unfold claimEntry
  split
  · exact .inl ⟨hp, hd, hi, hc⟩
  · rename_i en hen
    exact .inr ⟨en, hp ▸ hen, by simp [hp], by simp [hd], hi, hc⟩

theorem claimEntry_pending (c : Client) (key : UInt32) (ec : ErrorCode) (value : Obj) :
    (c.claimEntry key ec value).pending = Function.update c.pending key none := by
  unfold claimEntry
  split
  · rename_i h; rw [← h, Function.update_eq_self]
  · rfl

/-- A response `dispatch` routes comes with an error the server returned, or with a result. -/
theorem dispatch_outcome {o : Obj} {id : Int} {value : Obj} {ec : ErrorCode}
    (h : dispatch o = .ok (.maybeCallHandler id value ec)) : Outcome message ec value := by
  unfold dispatch at h
  split at h <;> try cases h
  split at h <;> try cases h
  split at h <;> try cases h
  split_ifs at h with hnil <;> cases h
  · exact .callError _ (by simpa using hnil)
  · exact .success _

/-- What a critical section does to the table: nothing, or it takes one entry out for a call
with one of the four outcomes. -/
def TableStep (c c' : Client) : Prop :=
  SameTable c c' ∨ ∃ key en ec value, Claims c c' key en ec value ∧ Outcome message ec value

section

variable {message}

theorem TableStep.calls {c c' : Client} (h : TableStep message c c') : c'.calls = c.calls := by
  rcases h with ⟨-, -, -, hc⟩ | ⟨_, _, _, _, ⟨-, -, -, -, hc⟩, -⟩ <;> exact hc

/-- A critical section only removes entries. -/
theorem TableStep.pending_sub {c c' : Client} (h : TableStep message c c') :
    ∀ k en, c'.pending k = some en → c.pending k = some en := by
  intro k en hk
  rcases h with ⟨hp, -⟩ | ⟨key, _, _, _, ⟨-, hp, -⟩, -⟩
  · rwa [hp] at hk
  · rw [hp, Function.update_apply] at hk
    split_ifs at hk
    exact hk

/-- A critical section leaves the table alone, or erases one key, and only it. -/
theorem TableStep.cases {c c' : Client} (h : TableStep message c c') :
    SameTable c c' ∨ ∃ key en ec value, c.pending key = some en ∧ c'.pending key = none ∧
      (∀ k, k ≠ key → c'.pending k = c.pending k) ∧
      c'.delivering = c.delivering ++ [⟨en, ec, value⟩] ∧ c'.invoked = c.invoked ∧
      Outcome message ec value := by
  rcases h with h | ⟨key, en, ec, value, ⟨hen, hp, hd, hv, -⟩, ho⟩
  · exact .inl h
  · refine .inr ⟨key, en, ec, value, hen, by simp [hp], fun k hk => ?_, hd, hv, ho⟩
    rw [hp, Function.update_noteq hk]

theorem claimEntry_tableStep {c c₀ : Client} (h : SameTable c c₀) (key : UInt32)
    {ec : ErrorCode} {value : Obj} (ho : Outcome message ec value) :
    TableStep message c (c₀.claimEntry key ec value) :=
  (claimEntry_cases h key ec value).imp_right fun ⟨en, h⟩ => ⟨key, en, ec, value, h, ho⟩

end

theorem claimEntry_waits (c : Client) (key : UInt32) (ec : ErrorCode) (value : Obj) :
    (c.claimEntry key ec value).waits = c.waits ∧ (c.claimEntry key ec value).id = c.id := by
  unfold claimEntry; split <;> exact ⟨rfl, rfl⟩

/-- **What a step does.**  A critical section, touching neither the waits nor `id_`; or an
`async_call`; or a deadline passing; or a callback completing, whose critical section, unless
its wait was aborted, leaves no entry at the wait's key; or a thread past `unlock` calling the
handler it was handed and cancelling its timer. -/
theorem step_cases {c : Client} {e : Event} (he : Enabled c e) :
    ((step message c e).waits = c.waits ∧ (step message c e).id = c.id ∧
      TableStep message c (step message c e)) ∨
    (∃ pack, e = .asyncCall pack) ∨
    (∃ i w, c.waits[i]? = some w ∧ w.status = .armed ∧
      (step message c e).waits = c.waits.set i { w with status := .expired } ∧
      (step message c e).id = c.id ∧ SameTable c (step message c e)) ∨
    (∃ i w, c.waits[i]? = some w ∧ w.status ≠ .armed ∧
      (step message c e).waits = c.waits.eraseIdx i ∧ (step message c e).id = c.id ∧
      TableStep message c (step message c e) ∧
      (w.status ≠ .aborted → (step message c e).pending w.id = none)) ∨
    (∃ i d, e = .deliver i ∧ c.delivering[i]? = some d ∧
      (step message c e).waits = cancelWaits d.entry.call c.waits ∧
      (step message c e).id = c.id ∧ (step message c e).pending = c.pending ∧
      (step message c e).delivering = c.delivering.eraseIdx i ∧
      (step message c e).invoked = c.invoked ++ [⟨d.entry.call, d.ec, d.value⟩] ∧
      (step message c e).calls = c.calls) := by
  have same : TableStep message c c := .inl (sameTable_refl c)
  cases e with
  | asyncCall pack => exact .inr (.inl ⟨pack, rfl⟩)
  | asyncNotify buf => exact .inl ⟨rfl, rfl, same⟩
  | setTimeout d => exact .inl ⟨rfl, rfl, same⟩
  | writeSome i n => simp only [step]; split <;> exact .inl ⟨rfl, rfl, same⟩
  | writeComplete i ec =>
    obtain ⟨w, hw, hec⟩ := he
    simp only [step, hw]
    split
    · unfold callWritten
      split_ifs with herr
      · rcases hec with ⟨v, rfl, hv⟩ | ⟨rfl, -⟩
        · exact .inl ⟨(claimEntry_waits _ _ _ _).1, (claimEntry_waits _ _ _ _).2,
            claimEntry_tableStep ⟨rfl, rfl, rfl, rfl⟩ _ (.writeError v hv)⟩
        · cases herr
      · exact .inl ⟨rfl, rfl, .inl ⟨rfl, rfl, rfl, rfl⟩⟩
    · exact .inl ⟨rfl, rfl, .inl ⟨rfl, rfl, rfl, rfl⟩⟩
  | expire i =>
    obtain ⟨w, hw, harmed⟩ := he
    have hs : step message c (.expire i) =
        { c with waits := c.waits.set i { w with status := .expired } } := by simp only [step, hw]
    rw [hs]
    exact .inr (.inr (.inl ⟨i, w, hw, harmed, rfl, rfl, sameTable_refl c⟩))
  | waitComplete i =>
    obtain ⟨w, hw, hna⟩ := he
    simp only [step, hw]
    refine .inr (.inr (.inr (.inl ⟨i, w, hw, hna, ?_⟩)))
    unfold timeoutFired
    split_ifs with ha
    · exact ⟨rfl, rfl, .inl ⟨rfl, rfl, rfl, rfl⟩, fun h => absurd ha h⟩
    · exact ⟨(claimEntry_waits _ _ _ _).1, (claimEntry_waits _ _ _ _).2,
        claimEntry_tableStep ⟨rfl, rfl, rfl, rfl⟩ _ .timeout,
        fun _ => by rw [claimEntry_pending, Function.update_same]⟩
  | readComplete result =>
    simp only [step]; split <;> exact .inl ⟨rfl, rfl, .inl ⟨rfl, rfl, rfl, rfl⟩⟩
  | dispatchNext =>
    simp only [step]
    split
    · split
      · rename_i a hd
        cases a with
        | closeConnection => exact .inl ⟨rfl, rfl, .inl ⟨rfl, rfl, rfl, rfl⟩⟩
        | maybeCallHandler id value ec =>
          exact .inl ⟨(claimEntry_waits _ _ _ _).1, (claimEntry_waits _ _ _ _).2,
            claimEntry_tableStep ⟨rfl, rfl, rfl, rfl⟩ _ (dispatch_outcome message hd)⟩
      · exact .inl ⟨rfl, rfl, .inl ⟨rfl, rfl, rfl, rfl⟩⟩
    · exact .inl ⟨rfl, rfl, .inl ⟨rfl, rfl, rfl, rfl⟩⟩
    · exact .inl ⟨rfl, rfl, same⟩
  | unpackError => exact .inl ⟨rfl, rfl, same⟩
  | deliver i =>
    simp only [step]
    split
    · rename_i d hd
      exact .inr (.inr (.inr (.inr ⟨i, d, rfl, hd, rfl, rfl, rfl, rfl, rfl, rfl⟩)))
    · exact .inl ⟨rfl, rfl, same⟩

/-! ## §2. The invariant. -/

/-- The handlers taken out of `pending_`: those being delivered, then those called. -/
def taken (c : Client) : List Nat := c.delivering.map (·.entry.call) ++ c.invoked.map (·.handler)

/-- Each handler stored has one place (an entry of `pending_`, a delivery, or a call made), the
places name distinct handlers, and every delivery and call has one of the four outcomes. -/
structure CallTableInv (c : Client) : Prop where
  pending_lt : ∀ k en, c.pending k = some en → en.call < c.calls
  pending_inj : ∀ k k' en en', c.pending k = some en → c.pending k' = some en' →
    en.call = en'.call → k = k'
  pending_not_taken : ∀ k en, c.pending k = some en → en.call ∉ taken c
  taken_lt : ∀ h ∈ taken c, h < c.calls
  taken_nodup : (taken c).Nodup
  delivering_outcome : ∀ d ∈ c.delivering, Outcome message d.ec d.value
  invoked_outcome : ∀ i ∈ c.invoked, Outcome message i.ec i.value

variable {message}

theorem CallTableInv.of_sameTable {c c' : Client} (h : SameTable c c')
    (hi : CallTableInv message c) : CallTableInv message c' := by
  obtain ⟨hp, hd, hv, hc⟩ := h
  have ht : taken c' = taken c := by rw [taken, taken, hd, hv]
  obtain ⟨h₁, h₂, h₃, h₄, h₅, h₆, h₇⟩ := hi
  exact ⟨by rwa [hp, hc], by rwa [hp], by rwa [hp, ht], by rwa [ht, hc], by rwa [ht], by rwa [hd],
    by rwa [hv]⟩

/-- `try_emplace` of a fresh handler keeps the invariant, whether or not it stores it. -/
theorem CallTableInv.tryEmplace {c c' : Client} (hi : CallTableInv message c)
    (hp : c'.pending = tryEmplace c.id ⟨c.calls, b⟩ c.pending) (hd : c'.delivering = c.delivering)
    (hv : c'.invoked = c.invoked) (hc : c'.calls = c.calls + 1) : CallTableInv message c' := by
  have ht : taken c' = taken c := by rw [taken, taken, hd, hv]
  unfold Client.tryEmplace at hp
  split at hp
  · obtain ⟨h₁, h₂, h₃, h₄, h₅, h₆, h₇⟩ := hi
    refine ⟨fun k en h => ?_, by rwa [hp], by rwa [hp, ht], fun h hh => ?_, by rwa [ht],
      by rwa [hd], by rwa [hv]⟩
    · rw [hp] at h; rw [hc]; exact Nat.lt_succ_of_lt (h₁ k en h)
    · rw [ht] at hh; rw [hc]; exact Nat.lt_succ_of_lt (h₄ h hh)
  · rename_i hfree
    have fresh : ∀ k en, c.pending k = some en → k ≠ c.id := fun k en h hk => by
      rw [hk, hfree] at h; cases h
    refine ⟨fun k en h => ?_, fun k k' en en' h h' heq => ?_, fun k en h => ?_,
      fun h hh => ?_, by rw [ht]; exact hi.taken_nodup, by rw [hd]; exact hi.delivering_outcome,
      by rw [hv]; exact hi.invoked_outcome⟩
    · rw [hp, Function.update_apply] at h
      rw [hc]
      split_ifs at h
      · cases h; exact Nat.lt_succ_self _
      · exact Nat.lt_succ_of_lt (hi.pending_lt k en h)
    · rw [hp, Function.update_apply] at h h'
      split_ifs at h h' with hk hk'
      · rw [hk, hk']
      · cases h; exact absurd heq (Nat.ne_of_gt (hi.pending_lt k' en' h'))
      · cases h'; exact absurd heq (Nat.ne_of_lt (hi.pending_lt k en h))
      · exact hi.pending_inj k k' en en' h h' heq
    · rw [hp, Function.update_apply] at h
      rw [ht]
      split_ifs at h
      · cases h; exact fun hm => Nat.lt_irrefl _ (hi.taken_lt _ hm)
      · exact hi.pending_not_taken k en h
    · rw [ht] at hh; rw [hc]; exact Nat.lt_succ_of_lt (hi.taken_lt h hh)

/-- A critical section that takes one entry out keeps the invariant. -/
theorem CallTableInv.claims {c c' : Client} {key : UInt32} {en : Entry} {ec : ErrorCode}
    {value : Obj} (hi : CallTableInv message c) (h : Claims c c' key en ec value)
    (ho : Outcome message ec value) : CallTableInv message c' := by
  obtain ⟨hen, hp, hd, hv, hc⟩ := h
  have ht : taken c' = c.delivering.map (·.entry.call) ++ en.call :: c.invoked.map (·.handler) := by
    simp [taken, hd, hv]
  have hold : ∀ k en', c'.pending k = some en' → k ≠ key ∧ c.pending k = some en' := by
    intro k en' h
    rw [hp, Function.update_apply] at h
    split_ifs at h with hk
    exact ⟨hk, h⟩
  refine ⟨fun k en' h => ?_, fun k k' e₁ e₂ h h' => ?_, fun k en' h => ?_, fun x hx => ?_, ?_,
    fun d hd' => ?_, by rw [hv]; exact hi.invoked_outcome⟩
  · rw [hc]; exact hi.pending_lt k en' (hold k en' h).2
  · exact hi.pending_inj k k' e₁ e₂ (hold k e₁ h).2 (hold k' e₂ h').2
  · obtain ⟨hk, h⟩ := hold k en' h
    have hne : en'.call ≠ en.call := fun heq => hk (hi.pending_inj k key en' en h hen heq)
    rw [ht, List.mem_append, List.mem_cons]
    have := hi.pending_not_taken k en' h
    simp only [taken, List.mem_append] at this
    tauto
  · rw [hc]
    rw [ht, List.mem_append, List.mem_cons] at hx
    rcases hx with hx | rfl | hx
    · exact hi.taken_lt x (List.mem_append_left _ hx)
    · exact hi.pending_lt key en hen
    · exact hi.taken_lt x (List.mem_append_right _ hx)
  · rw [ht, List.nodup_middle]
    exact List.nodup_cons.mpr ⟨hi.pending_not_taken key en hen, hi.taken_nodup⟩
  · rw [hd, List.mem_append, List.mem_singleton] at hd'
    rcases hd' with hd' | rfl
    · exact hi.delivering_outcome d hd'
    · exact ho

/-- A thread calling the handler it was handed keeps the invariant. -/
theorem CallTableInv.deliver {c c' : Client} {i : Nat} {d : Delivery}
    (hi : CallTableInv message c) (hdi : c.delivering[i]? = some d)
    (hp : c'.pending = c.pending) (hd : c'.delivering = c.delivering.eraseIdx i)
    (hv : c'.invoked = c.invoked ++ [⟨d.entry.call, d.ec, d.value⟩]) (hc : c'.calls = c.calls) :
    CallTableInv message c' := by
  have hperm : (taken c').Perm (taken c) := by
    have h₁ := ((perm_cons_eraseIdx hdi).map (·.entry.call)).append_right
      (c.invoked.map (·.handler))
    rw [taken, taken, hd, hv, List.map_append, ← List.append_assoc]
    refine (List.perm_append_singleton _ _).trans (h₁.symm.trans ?_)
    simp
  have hmem : d ∈ c.delivering := List.getElem?_mem hdi
  refine ⟨by rw [hp, hc]; exact hi.pending_lt, by rw [hp]; exact hi.pending_inj,
    fun k en h => ?_, fun x hx => ?_, hperm.nodup_iff.mpr hi.taken_nodup, fun d' hd' => ?_,
    fun v hv' => ?_⟩
  · rw [hp] at h; rw [hperm.mem_iff]; exact hi.pending_not_taken k en h
  · rw [hc]; exact hi.taken_lt x (hperm.mem_iff.mp hx)
  · rw [hd] at hd'; exact hi.delivering_outcome d' (List.mem_of_mem_eraseIdx hd')
  · rw [hv, List.mem_append, List.mem_singleton] at hv'
    rcases hv' with hv' | rfl
    · exact hi.invoked_outcome v hv'
    · exact hi.delivering_outcome d hmem

theorem callTableInv_init : CallTableInv message init :=
  ⟨by simp [init], by simp [init], by simp [init], by simp [init, taken], by simp [init, taken],
    by simp [init], by simp [init]⟩

theorem CallTableInv.tableStep {c c' : Client} (hi : CallTableInv message c)
    (h : TableStep message c c') : CallTableInv message c' := by
  rcases h with h | ⟨_, _, _, _, h, ho⟩
  · exact hi.of_sameTable h
  · exact hi.claims h ho

theorem callTableInv_step {c : Client} {e : Event} (hi : CallTableInv message c)
    (he : Enabled c e) : CallTableInv message (step message c e) := by
  rcases step_cases message he with ⟨-, -, h⟩ | ⟨pack, rfl⟩ | ⟨-, -, -, -, -, -, h⟩ |
    ⟨-, -, -, -, -, -, h, -⟩ | ⟨_, _, -, hdi, -, -, hp, hd, hv, hc⟩
  · exact hi.tableStep h
  · exact hi.tryEmplace rfl rfl rfl rfl
  · exact hi.of_sameTable h
  · exact hi.tableStep h
  · exact hi.deliver hdi hp hd hv hc

theorem reachable_callTableInv {c : Client} (hr : Reachable message c) :
    CallTableInv message c := by
  induction hr with
  | init => exact callTableInv_init
  | step _ hs ih => obtain ⟨he, rfl⟩ := hs; exact callTableInv_step ih he

/-! ## §3. Exactly once. -/

/-- **Exactly once, and by the thread that took the entry out.**  Along every step from a
reachable state: no handler has been called twice, and every call had one of the four outcomes;
a handler being delivered is no longer in `pending_`; and the step either leaves the table
alone, or is an `async_call` storing its fresh handler at `id_` if that key is free, or is a
critical section that found one entry, erased its key and no other, and handed the entry to its
thread without calling it, or is that thread calling the handler it was handed, and dropping the
delivery (outside the critical section: `pending_` untouched). -/
theorem call_table_exactly_once {c c' : Client} {e : Event} (hr : Reachable message c)
    (hs : Step message c e c') :
    (c'.invoked.map (·.handler)).Nodup ∧
    (∀ v ∈ c'.invoked, Outcome message v.ec v.value) ∧
    (∀ d ∈ c'.delivering, ∀ k en, c'.pending k = some en → en.call ≠ d.entry.call) ∧
    (SameTable c c' ∨
      (∃ pack, e = .asyncCall pack ∧
        c'.pending = tryEmplace c.id ⟨c.calls, decide (0 < c.timeout)⟩ c.pending ∧
        c'.delivering = c.delivering ∧ c'.invoked = c.invoked) ∨
      (∃ key en ec value, c.pending key = some en ∧ c'.pending key = none ∧
        (∀ k, k ≠ key → c'.pending k = c.pending k) ∧
        c'.delivering = c.delivering ++ [⟨en, ec, value⟩] ∧ c'.invoked = c.invoked ∧
        Outcome message ec value) ∨
      (∃ i d, e = .deliver i ∧ c.delivering[i]? = some d ∧
        (∀ k en, c.pending k = some en → en.call ≠ d.entry.call) ∧ c'.pending = c.pending ∧
        c'.delivering = c.delivering.eraseIdx i ∧
        c'.invoked = c.invoked ++ [⟨d.entry.call, d.ec, d.value⟩])) := by
  obtain ⟨he, rfl⟩ := hs
  have hi := reachable_callTableInv hr
  have hi' := callTableInv_step hi he
  refine ⟨(List.nodup_append.mp hi'.taken_nodup).2.1, hi'.invoked_outcome,
    fun d hd k en h heq => hi'.pending_not_taken k en h ?_, ?_⟩
  · rw [heq]; exact List.mem_append_left _ (List.mem_map_of_mem _ hd)
  rcases step_cases message he with ⟨-, -, h⟩ | ⟨pack, rfl⟩ | ⟨-, -, -, -, -, -, h⟩ |
      ⟨-, -, -, -, -, -, h, -⟩ | ⟨i, d, rfl, hdi, -, -, hp, hd, hv, -⟩
  · exact h.cases.imp_right fun h => .inr (.inl h)
  · exact .inr (.inl ⟨pack, rfl, rfl, rfl, rfl⟩)
  · exact .inl h
  · exact h.cases.imp_right fun h => .inr (.inl h)
  · refine .inr (.inr (.inr ⟨i, d, rfl, hdi, fun k en h heq => hi.pending_not_taken k en h ?_,
      hp, hd, hv⟩))
    rw [heq]; exact List.mem_append_left _ (List.mem_map_of_mem _ (List.getElem?_mem hdi))

end Table

/-- One call whose write fails with `broken_pipe` (32): the write handler takes its entry out. -/
theorem call_table_exactly_once_on_write_error :
    let m : ErrorCode → String := fun _ => ""
    let c := step m init (.asyncCall fun _ => [])
    let e := Event.writeComplete 0 (.system 32)
    let c' := step m c e
    Reachable m c ∧ Step m c e c' ∧
    ((c'.invoked.map (·.handler)).Nodup ∧
    (∀ v ∈ c'.invoked, Outcome m v.ec v.value) ∧
    (∀ d ∈ c'.delivering, ∀ k en, c'.pending k = some en → en.call ≠ d.entry.call) ∧
    (SameTable c c' ∨
      (∃ pack, e = .asyncCall pack ∧
        c'.pending = tryEmplace c.id ⟨c.calls, decide (0 < c.timeout)⟩ c.pending ∧
        c'.delivering = c.delivering ∧ c'.invoked = c.invoked) ∨
      (∃ key en ec value, c.pending key = some en ∧ c'.pending key = none ∧
        (∀ k, k ≠ key → c'.pending k = c.pending k) ∧
        c'.delivering = c.delivering ++ [⟨en, ec, value⟩] ∧ c'.invoked = c.invoked ∧
        Outcome m ec value) ∨
      (∃ i d, e = .deliver i ∧ c.delivering[i]? = some d ∧
        (∀ k en, c.pending k = some en → en.call ≠ d.entry.call) ∧ c'.pending = c.pending ∧
        c'.delivering = c.delivering.eraseIdx i ∧
        c'.invoked = c.invoked ++ [⟨d.entry.call, d.ec, d.value⟩]))) := by
  intro m c e c'
  have hr : Reachable m c := .step .init (⟨trivial, rfl⟩ : Step m init (.asyncCall fun _ => []) _)
  have hs : Step m c e c' := ⟨⟨_, rfl, .inl ⟨32, rfl, by decide⟩⟩, rfl⟩
  exact ⟨hr, hs, call_table_exactly_once hr hs⟩

end Client
end Packio
