import Packio.Client.CallTable
/-
  Packio.Client.Timers
  ────────────────────
  **A CALL MADE WITH A TIMEOUT STAYS GUARDED BY A LIVE WAIT.**

  `async_call` arms the entry's timer when `timeout_ > 0`.  A wait on it is aborted only by
  `timer.cancel()` (or the timer's destruction) in the thread that already erased the entry, or
  by `expires_after` when a later `async_call` with the same id re-arms the same timer, and that
  one adds a new wait.  So (`TimerInv`) every entry stored while `timeout_ > 0` keeps a wait
  that is not aborted, and every such wait looks up its entry's key: its callback, when it runs,
  erases that entry and hands it over with `error::timeout`.

  `step_cases` says once what a step does; `TimerInv` is preserved by each kind of step (with
  `CallTableInv`, whose injectivity and freshness it uses).
-/

namespace Packio
namespace Client

/-! ## §1. Lists of waits. -/

theorem mem_eraseIdx_or {α : Type} {l : List α} {i : Nat} {x : α} (hx : x ∈ l) :
    x ∈ l.eraseIdx i ∨ l[i]? = some x := by
  obtain ⟨j, hj⟩ := List.mem_iff_getElem?.mp hx
  by_cases hji : j = i
  · exact .inr (hji ▸ hj)
  · exact .inl (List.mem_eraseIdx_iff_getElem?.mpr ⟨j, hji, hj⟩)

theorem mem_set_or {α : Type} {l : List α} {i : Nat} {b x : α} (hx : x ∈ l) :
    x ∈ l.set i b ∨ l[i]? = some x := by
  obtain ⟨j, hj⟩ := List.mem_iff_getElem?.mp hx
  by_cases hij : i = j
  · exact .inr (hij ▸ hj)
  · exact .inl (List.getElem?_mem (by rw [List.getElem?_set_ne hij]; exact hj))

theorem mem_cancelWaits {t : Nat} {ws : List Wait} {w : Wait} (hw : w ∈ ws) (ht : w.timer ≠ t) :
    w ∈ cancelWaits t ws :=
  List.mem_map.mpr ⟨w, hw, by simp [ht]⟩

/-- A wait after `cancelWaits t` was there before, or is an armed wait on `t`, now aborted. -/
theorem mem_cancelWaits_cases {t : Nat} {ws : List Wait} {w : Wait} (hw : w ∈ cancelWaits t ws) :
    w ∈ ws ∨ ∃ w₀ ∈ ws, w₀.timer = t ∧ w₀.status = .armed ∧ w = { w₀ with status := .aborted } := by
  obtain ⟨w₀, hw₀, rfl⟩ := List.mem_map.mp hw
  split_ifs with h
  · exact .inr ⟨w₀, hw₀, h.1, h.2, rfl⟩
  · exact .inl hw₀

/-- `async_call`'s table: the entry at `id_` is the new one or the one already there. -/
theorem asyncCall_pending (c : Client) (pack : UInt32 → List UInt8) (k : UInt32) :
    (c.asyncCall pack).pending k =
      if k = c.id then some ((c.pending c.id).getD ⟨c.calls, decide (0 < c.timeout)⟩)
      else c.pending k := by
  show tryEmplace _ _ _ k = _
  unfold tryEmplace
  cases h : c.pending c.id with
  | none => by_cases hk : k = c.id <;> simp [hk, Function.update_apply]
  | some old => by_cases hk : k = c.id <;> simp [hk, h]

/-! ## §2. The invariant, and what each kind of step does to it. -/

/-- Every entry stored while `timeout_ > 0` has a wait on its timer that was not aborted; such a
wait looks up the key of the entry on its timer; and every wait is on the timer of a call made. -/
structure TimerInv (c : Client) : Prop where
  guarded : ∀ k en, c.pending k = some en → en.timed = true →
    ∃ w ∈ c.waits, w.timer = en.call ∧ w.status ≠ .aborted
  wait_key : ∀ w ∈ c.waits, w.status ≠ .aborted → ∀ k en, c.pending k = some en →
    en.call = w.timer → w.id = k
  wait_lt : ∀ w ∈ c.waits, w.timer < c.calls

theorem timerInv_init : TimerInv init :=
  ⟨fun _ _ h => (Option.noConfusion h), fun _ h => (List.not_mem_nil _ h).elim,
    fun _ h => (List.not_mem_nil _ h).elim⟩

/-- A step that keeps the waits and the calls and only removes entries. -/
theorem TimerInv.shrink {c c' : Client} (ht : TimerInv c) (hw : c'.waits = c.waits)
    (hc : c'.calls = c.calls) (hp : ∀ k en, c'.pending k = some en → c.pending k = some en) :
    TimerInv c' := by
  refine ⟨fun k en h hen => ?_, fun w hw' hna k en h => ?_, fun w hw' => ?_⟩
  · rw [hw]; exact ht.guarded k en (hp k en h) hen
  · rw [hw] at hw'; exact ht.wait_key w hw' hna k en (hp k en h)
  · rw [hw] at hw'; rw [hc]; exact ht.wait_lt w hw'

/-- A deadline passes: the wait stays, expired. -/
theorem TimerInv.expire {c c' : Client} {i : Nat} {w : Wait} (ht : TimerInv c)
    (hi : c.waits[i]? = some w) (harmed : w.status = .armed)
    (hw : c'.waits = c.waits.set i { w with status := .expired }) (hs : SameTable c c') :
    TimerInv c' := by
  obtain ⟨hp, -, -, hc⟩ := hs
  have hw₀ : w ∈ c.waits := List.getElem?_mem hi
  have hmem : ∀ w' ∈ c'.waits, w' ∈ c.waits ∨ w' = { w with status := .expired } := by
    rw [hw]; exact fun w' h => List.mem_or_eq_of_mem_set h
  refine ⟨fun k en h hen => ?_, fun w' hw' hna k en h => ?_, fun w' hw' => ?_⟩
  · rw [hp] at h
    obtain ⟨w', hw', htimer, hna⟩ := ht.guarded k en h hen
    rcases mem_set_or (b := { w with status := .expired }) hw' with h' | h'
    · exact ⟨w', by rw [hw]; exact h', htimer, hna⟩
    · obtain rfl : w = w' := Option.some.inj (hi.symm.trans h')
      refine ⟨{ w with status := .expired }, ?_, htimer, by simp⟩
      rw [hw]; exact List.mem_set _ _ (List.getElem?_eq_some_iff.mp hi).1 _
  · rw [hp] at h
    rcases hmem w' hw' with h' | rfl
    · exact ht.wait_key w' h' hna k en h
    · exact ht.wait_key w hw₀ (by rw [harmed]; decide) k en h
  · rw [hc]
    rcases hmem w' hw' with h' | rfl
    · exact ht.wait_lt w' h'
    · exact ht.wait_lt w hw₀

/-- A callback completes: its wait leaves, entries are only removed, and if its wait was not
aborted no entry is left at its key. -/
theorem TimerInv.complete {c c' : Client} {i : Nat} {w : Wait} (ht : TimerInv c)
    (hi : c.waits[i]? = some w) (hw : c'.waits = c.waits.eraseIdx i) (hc : c'.calls = c.calls)
    (hp : ∀ k en, c'.pending k = some en → c.pending k = some en)
    (hkey : w.status ≠ .aborted → c'.pending w.id = none) : TimerInv c' := by
  refine ⟨fun k en h hen => ?_, fun w' hw' hna k en h => ?_, fun w' hw' => ?_⟩
  · obtain ⟨w', hw', htimer, hna⟩ := ht.guarded k en (hp k en h) hen
    rcases mem_eraseIdx_or (i := i) hw' with h' | h'
    · exact ⟨w', by rw [hw]; exact h', htimer, hna⟩
    · obtain rfl : w = w' := Option.some.inj (hi.symm.trans h')
      rw [← ht.wait_key w hw' hna k en (hp k en h) htimer.symm, hkey hna] at h
      cases h
  · rw [hw] at hw'
    exact ht.wait_key w' (List.mem_of_mem_eraseIdx hw') hna k en (hp k en h)
  · rw [hw] at hw'; rw [hc]; exact ht.wait_lt w' (List.mem_of_mem_eraseIdx hw')

variable {message : ErrorCode → String}

/-- The thread past `unlock` cancels the timer of the entry it was handed: no entry still in
`pending_` is on that timer, so no guard is lost. -/
theorem TimerInv.deliver {c c' : Client} {i : Nat} {d : Delivery} (hi : CallTableInv message c)
    (ht : TimerInv c) (hd : c.delivering[i]? = some d)
    (hw : c'.waits = cancelWaits d.entry.call c.waits) (hp : c'.pending = c.pending)
    (hc : c'.calls = c.calls) : TimerInv c' := by
  have hdt : d.entry.call ∈ taken c :=
    List.mem_append_left _ (List.mem_map_of_mem _ (List.getElem?_mem hd))
  refine ⟨fun k en h hen => ?_, fun w' hw' hna k en h => ?_, fun w' hw' => ?_⟩
  · rw [hp] at h
    obtain ⟨w', hw', htimer, hna⟩ := ht.guarded k en h hen
    have hne : w'.timer ≠ d.entry.call := fun e =>
      hi.pending_not_taken k en h (by rw [← htimer, e]; exact hdt)
    exact ⟨w', by rw [hw]; exact mem_cancelWaits hw' hne, htimer, hna⟩
  · rw [hw] at hw'; rw [hp] at h
    rcases mem_cancelWaits_cases hw' with h' | ⟨_, -, -, -, rfl⟩
    · exact ht.wait_key w' h' hna k en h
    · exact absurd rfl hna
  · rw [hw] at hw'; rw [hc]
    rcases mem_cancelWaits_cases hw' with h' | ⟨w₀, hw₀, -, -, rfl⟩
    · exact ht.wait_lt w' h'
    · exact ht.wait_lt w₀ hw₀

/-- `async_call`'s waits: when `timeout_ > 0`, the waits on the timer of the entry at `id_` are
aborted by `expires_after` and one new wait is armed on it. -/
theorem asyncCall_waits (c : Client) (pack : UInt32 → List UInt8) :
    (c.asyncCall pack).waits =
      if 0 < c.timeout then
        cancelWaits ((c.pending c.id).getD ⟨c.calls, decide (0 < c.timeout)⟩).call c.waits ++
          [⟨((c.pending c.id).getD ⟨c.calls, decide (0 < c.timeout)⟩).call, c.id, .armed⟩]
      else c.waits := rfl

/-- A wait after `async_call` was there before; or `timeout_ > 0` and it is one on the timer of
the entry at `id_`, aborted by `expires_after`, or the new one armed on that timer. -/
theorem mem_asyncCall_waits {c : Client} {pack : UInt32 → List UInt8} {w : Wait}
    (hw : w ∈ (c.asyncCall pack).waits) :
    w ∈ c.waits ∨
      (0 < c.timeout ∧ ∃ w₀ ∈ c.waits,
        w₀.timer = ((c.pending c.id).getD ⟨c.calls, decide (0 < c.timeout)⟩).call ∧
        w₀.status = .armed ∧ w = { w₀ with status := .aborted }) ∨
      (0 < c.timeout ∧
        w = ⟨((c.pending c.id).getD ⟨c.calls, decide (0 < c.timeout)⟩).call, c.id, .armed⟩) := by
  rw [asyncCall_waits] at hw
  split_ifs at hw with hto
  · rcases List.mem_append.mp hw with hw | hw
    · exact (mem_cancelWaits_cases hw).imp_right fun h => .inl ⟨hto, h⟩
    · exact .inr (.inr ⟨hto, List.mem_singleton.mp hw⟩)
  · exact .inl hw

/-- The entry `try_emplace` leaves at `id_` is the one found there, or the new one, numbered
`calls`; no other entry is on its timer, and a wait on that timer that was not aborted belongs to
the entry found there and is keyed `id_`. -/
theorem TimerInv.asyncCall_slot {c : Client} (hi : CallTableInv message c) (ht : TimerInv c) :
    let cur := (c.pending c.id).getD ⟨c.calls, decide (0 < c.timeout)⟩
    (c.pending c.id = some cur ∨
      c.pending c.id = none ∧ cur = ⟨c.calls, decide (0 < c.timeout)⟩) ∧
    (∀ k en, k ≠ c.id → c.pending k = some en → en.call ≠ cur.call) ∧
    (∀ w ∈ c.waits, w.status ≠ .aborted → w.timer = cur.call →
      c.pending c.id = some cur ∧ w.id = c.id) ∧
    cur.call < c.calls + 1 := by
  intro cur
  have hfound : c.pending c.id = some cur ∨
      c.pending c.id = none ∧ cur = ⟨c.calls, decide (0 < c.timeout)⟩ := by
    cases h : c.pending c.id with
    | none => exact .inr ⟨rfl, by simp [cur, h]⟩
    | some old => exact .inl (by simp [cur, h])
  refine ⟨hfound, fun k en hk h he => ?_, fun w hw hna he => ?_, ?_⟩ <;>
    rcases hfound with hc | ⟨-, hc⟩
  · exact hk (hi.pending_inj k c.id en cur h hc he)
  · have hlt := hi.pending_lt k en h
    rw [he, hc] at hlt
    exact lt_irrefl _ hlt
  · exact ⟨hc, ht.wait_key w hw hna _ _ hc he.symm⟩
  · have hlt := ht.wait_lt w hw
    rw [he, hc] at hlt
    exact absurd hlt (lt_irrefl _)
  · exact Nat.lt_succ_of_lt (hi.pending_lt _ _ hc)
  · rw [hc]; exact Nat.lt_succ_self _

/-- `async_call` keeps the invariant, whether it stores its entry or finds one at `id_`: the
timer it arms is that entry's, and no other entry is on it. -/
theorem TimerInv.asyncCall {c : Client} (pack : UInt32 → List UInt8)
    (hi : CallTableInv message c) (ht : TimerInv c) : TimerInv (c.asyncCall pack) := by
  obtain ⟨hfound, hfresh, hkeyed, hlt⟩ := ht.asyncCall_slot hi
  have hnew : ∀ k en, (c.asyncCall pack).pending k = some en →
      (k = c.id ∧ en = (c.pending c.id).getD ⟨c.calls, decide (0 < c.timeout)⟩) ∨
        (k ≠ c.id ∧ c.pending k = some en) := by
    intro k en h
    rw [asyncCall_pending] at h
    split_ifs at h with hk
    · exact .inl ⟨hk, (Option.some.inj h).symm⟩
    · exact .inr ⟨hk, h⟩
  refine ⟨fun k en h hen => ?_, fun w hw hna k en h he => ?_, fun w hw => ?_⟩
  · rcases hnew k en h with ⟨rfl, rfl⟩ | ⟨hk, h⟩
    · by_cases hto : 0 < c.timeout
      · rw [asyncCall_waits, if_pos hto]
        exact ⟨_, List.mem_append_right _ (List.mem_singleton_self _), rfl, nofun⟩
      · rcases hfound with hc | ⟨-, hc⟩
        · obtain ⟨w, hw, hrest⟩ := ht.guarded _ _ hc hen
          exact ⟨w, by rw [asyncCall_waits, if_neg hto]; exact hw, hrest⟩
        · rw [hc] at hen; simp [hto] at hen
    · obtain ⟨w, hw, htimer, hna⟩ := ht.guarded k en h hen
      refine ⟨w, ?_, htimer, hna⟩
      rw [asyncCall_waits]
      split_ifs
      · exact List.mem_append_left _ (mem_cancelWaits hw (htimer ▸ hfresh k en hk h))
      · exact hw
  · rcases mem_asyncCall_waits hw with hw | ⟨-, _, -, -, -, rfl⟩ | ⟨-, rfl⟩
    · rcases hnew k en h with ⟨rfl, rfl⟩ | ⟨-, h⟩
      · exact (hkeyed w hw hna he.symm).2
      · exact ht.wait_key w hw hna k en h he
    · exact absurd rfl hna
    · rcases hnew k en h with ⟨rfl, -⟩ | ⟨hk, h⟩
      · rfl
      · exact absurd he (hfresh k en hk h)
  · rcases mem_asyncCall_waits hw with hw | ⟨-, w₀, hw₀, -, -, rfl⟩ | ⟨-, rfl⟩
    · exact Nat.lt_succ_of_lt (ht.wait_lt w hw)
    · exact Nat.lt_succ_of_lt (ht.wait_lt w₀ hw₀)
    · exact hlt

theorem TimerInv.step {c : Client} {e : Event} (hi : CallTableInv message c) (ht : TimerInv c)
    (he : Enabled c e) : TimerInv (step message c e) := by
  rcases step_cases message he with ⟨hw, -, h⟩ | ⟨pack, rfl⟩ |
      ⟨_, _, hwi, harmed, hw, -, hs⟩ | ⟨_, _, hwi, -, hw, -, h, hkey⟩ |
      ⟨_, _, -, hd, hw, -, hp, -, -, hc⟩
  · exact ht.shrink hw h.calls h.pending_sub
  · exact ht.asyncCall pack hi
  · exact ht.expire hwi harmed hw hs
  · exact ht.complete hwi hw h.calls h.pending_sub hkey
  · exact ht.deliver hi hd hw hp hc

theorem reachable_timerInv {c : Client} (hr : Reachable message c) : TimerInv c := by
  induction hr with
  | init => exact timerInv_init
  | step hr hs ih => obtain ⟨he, rfl⟩ := hs; exact ih.step (reachable_callTableInv hr) he

/-! ## §3. Who aborts a wait, and what an expired one does. -/

/-- **Who aborts a wait.**  A wait a step leaves aborted was aborted before; or the thread that
had erased its entry cancelled its timer (no entry in `pending_` is on it); or `async_call`
re-armed the timer of the entry already at `id_`, with a new wait on it for the same key. -/
theorem aborted_of_step {c : Client} {e : Event} (hi : CallTableInv message c) (ht : TimerInv c)
    (he : Enabled c e) {w : Wait} (hw : w ∈ (step message c e).waits)
    (ha : w.status = .aborted) :
    w ∈ c.waits ∨
      (∃ i d, e = .deliver i ∧ c.delivering[i]? = some d ∧ d.entry.call = w.timer ∧
        ∀ k en, c.pending k = some en → en.call ≠ w.timer) ∨
      (∃ pack, e = .asyncCall pack ∧ (c.pending c.id).map (·.call) = some w.timer ∧
        ⟨w.timer, w.id, .armed⟩ ∈ (step message c e).waits) := by
  rcases step_cases message he with ⟨hw', -⟩ | ⟨pack, rfl⟩ | ⟨_, _, -, -, hw', -⟩ |
      ⟨_, _, -, -, hw', -⟩ | ⟨i, d, rfl, hd, hw', -⟩
  · exact .inl (hw' ▸ hw)
  · rcases mem_asyncCall_waits hw with hw | ⟨hto, w₀, hw₀, ht₀, harmed, rfl⟩ | ⟨-, rfl⟩
    · exact .inl hw
    · obtain ⟨hc, hid⟩ := (ht.asyncCall_slot hi).2.2.1 w₀ hw₀ (by rw [harmed]; nofun) ht₀
      refine .inr (.inr ⟨pack, rfl, by rw [hc, ht₀]; rfl, ?_⟩)
      change _ ∈ (c.asyncCall pack).waits
      rw [asyncCall_waits, if_pos hto]
      exact List.mem_append_right _ (by simp [ht₀, hid])
    · cases ha
  · rw [hw'] at hw
    rcases List.mem_or_eq_of_mem_set hw with hw | rfl
    · exact .inl hw
    · cases ha
  · rw [hw'] at hw; exact .inl (List.mem_of_mem_eraseIdx hw)
  · rw [hw'] at hw
    rcases mem_cancelWaits_cases hw with hw | ⟨w₀, -, ht₀, -, rfl⟩
    · exact .inl hw
    have hdt : d.entry.call ∈ taken c :=
      List.mem_append_left _ (List.mem_map_of_mem _ (List.getElem?_mem hd))
    exact .inr (.inl ⟨i, d, rfl, hd, ht₀.symm, fun k en h he =>
      hi.pending_not_taken k en h (by rw [he.trans ht₀]; exact hdt)⟩)

/-- **An expired wait times its entry out.**  The callback of a wait that expired on the timer of
an entry still stored erases that entry's key, and only it, and hands the entry to its thread
with `error::timeout`. -/
theorem waitComplete_expired {c : Client} (ht : TimerInv c) {i : Nat} {w : Wait} {k : UInt32}
    {en : Entry} (hi : c.waits[i]? = some w) (hexp : w.status = .expired)
    (hk : c.pending k = some en) (hcall : en.call = w.timer) :
    (step message c (.waitComplete i)).pending = Function.update c.pending k none ∧
      (step message c (.waitComplete i)).delivering =
        c.delivering ++ [⟨en, .timeout, .str (message .timeout)⟩] := by
  have hid : w.id = k :=
    ht.wait_key w (List.getElem?_mem hi) (by rw [hexp]; nofun) k en hk hcall
  subst hid
  simp only [step, hi, timeoutFired, hexp, claimEntry, hk]
  exact ⟨rfl, rfl⟩

/-! ## §4. Every call made with a timeout stays guarded. -/

/-- **Every call made with a timeout stays guarded by a live timer.**  At every reachable state,
each entry stored while `timeout_ > 0` has a wait on its timer that was not aborted; the callback
of such a wait, once expired, erases that entry's key and hands the entry to its thread with
`error::timeout`; and a step aborts a wait only as the thread that erased its entry cancelling
its timer, or as `async_call` re-arming the timer of the entry at `id_` with a new wait. -/
theorem call_with_timeout_stays_guarded {c c' : Client} {e : Event}
    (hr : Reachable message c) (hs : Step message c e c') :
    (∀ k en, c.pending k = some en → en.timed = true →
      ∃ w ∈ c.waits, w.timer = en.call ∧ w.status ≠ .aborted) ∧
    (∀ i w k en, e = .waitComplete i → c.waits[i]? = some w → w.status = .expired →
      c.pending k = some en → en.call = w.timer →
      c'.pending = Function.update c.pending k none ∧
        c'.delivering = c.delivering ++ [⟨en, .timeout, .str (message .timeout)⟩]) ∧
    (∀ w ∈ c'.waits, w.status = .aborted → w ∈ c.waits ∨
      (∃ i d, e = .deliver i ∧ c.delivering[i]? = some d ∧ d.entry.call = w.timer ∧
        ∀ k en, c.pending k = some en → en.call ≠ w.timer) ∨
      (∃ pack, e = .asyncCall pack ∧ (c.pending c.id).map (·.call) = some w.timer ∧
        ⟨w.timer, w.id, .armed⟩ ∈ c'.waits)) := by
  obtain ⟨he, rfl⟩ := hs
  have ht := reachable_timerInv hr
  refine ⟨ht.guarded, fun i w k en he' hi hexp hk hcall => ?_,
    fun w hw ha => aborted_of_step (reachable_callTableInv hr) ht he hw ha⟩
  subst he'
  exact waitComplete_expired ht hi hexp hk hcall

/-- A call made with `timeout_ = 1`, its deadline passing, then the callback of its wait: the
expired wait finds the call's entry at key 0 and times it out. -/
theorem call_with_timeout_stays_guarded_on_expiry :
    let m : ErrorCode → String := fun _ => ""
    let c := step m (step m (step m init (.setTimeout 1)) (.asyncCall fun _ => [])) (.expire 0)
    let c' := step m c (.waitComplete 0)
    Reachable m c ∧ Step m c (.waitComplete 0) c' ∧
    c.waits[0]? = some ⟨0, 0, .expired⟩ ∧ c.pending 0 = some ⟨0, true⟩ ∧
    ((∀ k en, c.pending k = some en → en.timed = true →
      ∃ w ∈ c.waits, w.timer = en.call ∧ w.status ≠ .aborted) ∧
    (∀ i w k en, Event.waitComplete 0 = .waitComplete i → c.waits[i]? = some w →
      w.status = .expired → c.pending k = some en → en.call = w.timer →
      c'.pending = Function.update c.pending k none ∧
        c'.delivering = c.delivering ++ [⟨en, .timeout, .str (m .timeout)⟩]) ∧
    (∀ w ∈ c'.waits, w.status = .aborted → w ∈ c.waits ∨
      (∃ i d, Event.waitComplete 0 = .deliver i ∧ c.delivering[i]? = some d ∧
        d.entry.call = w.timer ∧ ∀ k en, c.pending k = some en → en.call ≠ w.timer) ∨
      (∃ pack, Event.waitComplete 0 = .asyncCall pack ∧
        (c.pending c.id).map (·.call) = some w.timer ∧ ⟨w.timer, w.id, .armed⟩ ∈ c'.waits))) := by
  refine ⟨?hr, ?hs, rfl, rfl, call_with_timeout_stays_guarded ?hr ?hs⟩
  case hr =>
    exact .step (e := .expire 0) (.step (e := .asyncCall fun _ => [])
      (.step (e := .setTimeout 1) .init ⟨trivial, rfl⟩) ⟨trivial, rfl⟩) ⟨⟨_, rfl, rfl⟩, rfl⟩
  case hs => exact ⟨⟨_, rfl, nofun⟩, rfl⟩

end Client
end Packio
