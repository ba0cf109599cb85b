import Packio.Client.Writes
/-
  Packio.Client.Expiry
  ────────────────────
  **A TIMEOUT REACHES ITS OWN CALL, AND ONLY IT UNTIL IDS WRAP.**

  `async_timeout(timer, id)` arms the timer of the entry `try_emplace` leaves at `id`, and its
  callback looks `id` up again when it runs.  While ids do not repeat, the entry left at `id` is
  the new call's, so every wait is keyed by the id of the call whose timer it waits on, and that
  call was made while `timeout_ > 0` (`ExpiryInv`).  So the callback, when it runs, finds that
  call's entry or none: `error::timeout` is handed only to the call whose timer expired, and never
  to a call made with `timeout_` at 0 (`timeout_reaches_only_its_call`).

  The bound is where ids start to repeat: past 2^32 calls, a wait that has expired but whose
  callback has not run yet looks up an id a later call may be stored under.

  The timer also still works for every such call: from any reachable state, a call stored while
  `timeout_ > 0` and still pending can be called back with `error::timeout` in three steps of its
  own timer and thread (`timed_call_can_time_out`).
-/

namespace Packio
namespace Client

/-! ## §1. The invariant. -/

/-- Every wait is keyed by the id of the call on whose timer it waits, and a call still pending on
the timer of a wait was made while `timeout_ > 0`. -/
structure ExpiryInv (c : Client) : Prop where
  key : ∀ w ∈ c.waits, w.id = UInt32.ofNat w.timer
  timed : ∀ w ∈ c.waits, ∀ k en, c.pending k = some en → en.call = w.timer → en.timed = true

theorem expiryInv_init : ExpiryInv init := ⟨nofun, nofun⟩

theorem ofNat_eq_of_mod {n : Nat} {k : UInt32} (h : n % 2 ^ 32 = k.toNat) : UInt32.ofNat n = k :=
  UInt32.toNat.inj (by rw [← h]; rfl)

/-- A wait after `cancelWaits` is a wait of before, up to its status. -/
theorem mem_cancelWaits_same {t : Nat} {ws : List Wait} {w : Wait} (hw : w ∈ cancelWaits t ws) :
    ∃ w₀ ∈ ws, w.timer = w₀.timer ∧ w.id = w₀.id := by
  rcases mem_cancelWaits_cases hw with hw | ⟨w₀, hw₀, -, -, rfl⟩
  exacts [⟨w, hw, rfl, rfl⟩, ⟨w₀, hw₀, rfl, rfl⟩]

/-- A step whose waits are waits of before, up to their status, and which only removes
entries. -/
theorem ExpiryInv.of_waits {c c' : Client} (hi : ExpiryInv c)
    (hw : ∀ w' ∈ c'.waits, ∃ w ∈ c.waits, w'.timer = w.timer ∧ w'.id = w.id)
    (hp : ∀ k en, c'.pending k = some en → c.pending k = some en) : ExpiryInv c' := by
  refine ⟨fun w' hw' => ?_, fun w' hw' k en h he => ?_⟩
  · obtain ⟨w, hw, ht, hid⟩ := hw w' hw'
    rw [ht, hid]
    exact hi.key w hw
  · obtain ⟨w, hw, ht, -⟩ := hw w' hw'
    exact hi.timed w hw k en (hp k en h) (he.trans ht)

section Steps

variable {message : ErrorCode → String}

/-- Below 2^32 calls the id `async_call` takes is free: `try_emplace` stores the new entry. -/
theorem pending_id_free {c : Client} (hc : CallTableInv message c) (hid : IdInv c)
    (hn : c.calls < 2 ^ 32) : c.pending c.id = none := by
  cases h : c.pending c.id with
  | none => rfl
  | some old =>
    have hkey := hid.key_eq _ _ h
    have hlt := hc.pending_lt _ _ h
    rw [hid.id_eq, Nat.mod_eq_of_lt (by omega), Nat.mod_eq_of_lt hn] at hkey
    omega

/-- `async_call`, below 2^32 calls: its wait is keyed by its own id, and only its own entry, made
with `timeout_ > 0`, is on its timer. -/
theorem ExpiryInv.asyncCall {c : Client} (pack : UInt32 → List UInt8) (hi : ExpiryInv c)
    (hc : CallTableInv message c) (ht : TimerInv c) (hid : IdInv c) (hn : c.calls < 2 ^ 32) :
    ExpiryInv (c.asyncCall pack) := by
  have hfree := pending_id_free hc hid hn
  have hcid : c.id = UInt32.ofNat c.calls := (ofNat_eq_of_mod hid.id_eq.symm).symm
  have hwaits : (c.asyncCall pack).waits = if 0 < c.timeout then
      cancelWaits c.calls c.waits ++ [⟨c.calls, c.id, .armed⟩] else c.waits := by
    rw [asyncCall_waits, hfree]
    rfl
  refine ⟨fun w hw => ?_, fun w hw k en h he => ?_⟩
  · rw [hwaits] at hw
    split_ifs at hw
    · rcases List.mem_append.mp hw with hw | hw
      · obtain ⟨w₀, hw₀, ht₀, hid₀⟩ := mem_cancelWaits_same hw
        rw [ht₀, hid₀]
        exact hi.key w₀ hw₀
      · -- the new wait, keyed by the new call's id
        rw [List.mem_singleton.mp hw]
        exact hcid
    · exact hi.key w hw
  · rw [asyncCall_pending, hfree, Option.getD_none] at h
    rw [hwaits] at hw
    split_ifs at h
    · -- the new entry: a wait is on its timer only when `timeout_ > 0` armed it
      cases h
      split_ifs at hw with hto
      · exact decide_eq_true hto
      · exact absurd (he ▸ ht.wait_lt w hw) (lt_irrefl _)
    · -- an older entry: the waits on its timer were there before
      have hlt := hc.pending_lt k en h
      split_ifs at hw
      · rcases List.mem_append.mp hw with hw | hw
        · obtain ⟨w₀, hw₀, ht₀, -⟩ := mem_cancelWaits_same hw
          exact hi.timed w₀ hw₀ k en h (he.trans ht₀)
        · rw [List.mem_singleton.mp hw] at he
          exact absurd he (Nat.ne_of_lt hlt)
      · exact hi.timed w hw k en h he

theorem calls_le_step {c : Client} {e : Event} (he : Enabled c e) :
    c.calls ≤ (step message c e).calls := by
  by_cases h : ∃ pack, e = .asyncCall pack
  · obtain ⟨pack, rfl⟩ := h
    exact Nat.le_succ _
  · push_neg at h
    exact (step_shrinks message he h).2.1.ge

/-- **Each step keeps `ExpiryInv`** while at most 2^32 calls are made. -/
theorem ExpiryInv.step {c : Client} {e : Event} (hi : ExpiryInv c) (hc : CallTableInv message c)
    (ht : TimerInv c) (hid : IdInv c) (he : Enabled c e)
    (hn : (step message c e).calls ≤ 2 ^ 32) : ExpiryInv (step message c e) := by
  rcases step_cases message he with ⟨hw, -, h⟩ | ⟨pack, rfl⟩ | ⟨_, w, hwi, -, hw, -, hs⟩ |
      ⟨_, _, -, -, hw, -, h, -⟩ | ⟨_, _, -, -, hw, -, hp, -, -, -⟩
  · exact hi.of_waits (fun w hw' => ⟨w, hw ▸ hw', rfl, rfl⟩) h.pending_sub
  · exact hi.asyncCall pack hc ht hid (Nat.lt_of_succ_le hn)
  · -- a deadline passes: the wait stays, expired
    refine hi.of_waits (fun w' hw' => ?_) fun k en h => by rwa [hs.1] at h
    rw [hw] at hw'
    rcases List.mem_or_eq_of_mem_set hw' with hw' | rfl
    exacts [⟨w', hw', rfl, rfl⟩, ⟨w, List.getElem?_mem hwi, rfl, rfl⟩]
  · exact hi.of_waits (fun w' hw' => ⟨w', List.mem_of_mem_eraseIdx (hw ▸ hw'), rfl, rfl⟩)
      h.pending_sub
  · exact hi.of_waits (fun w' hw' => mem_cancelWaits_same (hw ▸ hw')) fun k en h => by
      rwa [hp] at h

theorem reachable_expiryInv {c : Client} (hr : Reachable message c) (hn : c.calls ≤ 2 ^ 32) :
    ExpiryInv c := by
  induction hr with
  | init => exact expiryInv_init
  | step hr hs ih =>
    obtain ⟨he, rfl⟩ := hs
    exact (ih (le_trans (calls_le_step he) hn)).step (reachable_callTableInv hr)
      (reachable_timerInv hr) (reachable_idInv hr) he hn

end Steps

/-! ## §2. What a callback takes out. -/

/-- **A timeout reaches only its own call.**  In every state reached after at most 2^32 calls,
the callback of a wait, when it runs, takes no handler out of `pending_`, or takes out, with
`error::timeout`, the handler of the call on whose timer it waited; and that call was made while
`timeout_ > 0`. -/
theorem timeout_reaches_only_its_call {message : ErrorCode → String} {c : Client}
    (hr : Reachable message c) (hn : c.calls ≤ 2 ^ 32) {i : Nat} {w : Wait}
    (hw : c.waits[i]? = some w) :
    (step message c (.waitComplete i)).delivering = c.delivering ∨
      ∃ en, en.call = w.timer ∧ en.timed = true ∧
        (step message c (.waitComplete i)).delivering =
          c.delivering ++ [⟨en, .timeout, .str (message .timeout)⟩] := by
  have hi := reachable_expiryInv hr hn
  have hw₀ : w ∈ c.waits := List.getElem?_mem hw
  simp only [Client.step, hw, timeoutFired]
  split_ifs
  · exact .inl rfl
  unfold claimEntry
  split
  · exact .inl rfl
  · rename_i en hen
    -- the entry found is keyed by the wait's id: its number and the wait's timer agree modulo
    -- 2^32, and both are below the number of calls
    have hmod : en.call % 2 ^ 32 = w.timer % 2 ^ 32 :=
      ((reachable_idInv hr).key_eq _ _ hen).trans (by rw [hi.key w hw₀]; rfl)
    have hen_lt := (reachable_callTableInv hr).pending_lt _ _ hen
    have hw_lt := (reachable_timerInv hr).wait_lt w hw₀
    have hcall : en.call = w.timer := by
      rwa [Nat.mod_eq_of_lt (by omega), Nat.mod_eq_of_lt (by omega)] at hmod
    exact .inr ⟨en, hcall, hi.timed w hw₀ _ en hen hcall, rfl⟩

/-- A call made with `timeout_ = 1`, its deadline passed: the callback takes that call out. -/
theorem timeout_reaches_only_its_call_on_expiry :
    let m : ErrorCode → String := fun _ => ""
    let c := [.setTimeout 1, .asyncCall fun _ => [], .expire 0].foldl (step m) init
    Reachable m c ∧ c.calls ≤ 2 ^ 32 ∧ c.waits[0]? = some ⟨0, 0, .expired⟩ ∧
    ((step m c (.waitComplete 0)).delivering = c.delivering ∨
      ∃ en, en.call = (⟨0, 0, .expired⟩ : Wait).timer ∧ en.timed = true ∧
        (step m c (.waitComplete 0)).delivering =
          c.delivering ++ [⟨en, .timeout, .str (m .timeout)⟩]) := by
  intro m c
  have hrun : Run m init [.setTimeout 1, .asyncCall fun _ => [], .expire 0] c :=
    .cons_step trivial <| .cons_step trivial <| .cons_step ⟨_, rfl, rfl⟩ (.nil _)
  have hr : Reachable m c := hrun.reachable .init
  exact ⟨hr, by decide, rfl, timeout_reaches_only_its_call hr (by decide) rfl⟩

/-! ## §3. Every call made with a timeout can still time out. -/

section Completion

variable {message : ErrorCode → String}

/-- The callback of a wait calls no handler. -/
theorem waitComplete_invoked (c : Client) (i : Nat) :
    (step message c (.waitComplete i)).invoked = c.invoked := by
  simp only [Client.step]
  split
  · unfold timeoutFired claimEntry
    split_ifs
    · rfl
    · split <;> rfl
  · rfl

/-- The thread handed the last handler taken out calls it. -/
theorem deliver_last {c : Client} {ds : List Delivery} {d : Delivery}
    (hd : c.delivering = ds ++ [d]) :
    (step message c (.deliver ds.length)).invoked =
      c.invoked ++ [⟨d.entry.call, d.ec, d.value⟩] := by
  have hget : c.delivering[ds.length]? = some d := by rw [hd, List.getElem?_concat_length]
  simp only [Client.step, hget]

/-- An expired wait on the timer of a pending call: its callback takes the call out with
`error::timeout`, and the thread it hands the handler to calls it. -/
theorem expired_wait_times_out {c : Client} (ht : TimerInv c) {i : Nat} {w : Wait} {k : UInt32}
    {en : Entry} (hi : c.waits[i]? = some w) (hexp : w.status = .expired)
    (hk : c.pending k = some en) (hcall : en.call = w.timer) :
    ∃ c', Run message c [.waitComplete i, .deliver c.delivering.length] c' ∧
      c'.invoked = c.invoked ++ [⟨en.call, .timeout, .str (message .timeout)⟩] := by
  obtain ⟨-, hd⟩ := waitComplete_expired ht hi hexp hk hcall
  have hlen : c.delivering.length < (step message c (.waitComplete i)).delivering.length := by
    rw [hd, List.length_append, List.length_singleton]
    exact Nat.lt_succ_self _
  refine ⟨_, .cons_step ⟨w, hi, by rw [hexp]; nofun⟩ (.cons_step hlen (.nil _)), ?_⟩
  rw [deliver_last hd, waitComplete_invoked]

/-- **A call made with a timeout can always be called back.**  From every reachable state, the
handler of each call stored while `timeout_ > 0` and still in `pending_` can be called with
`error::timeout` within three steps: its wait's deadline passes (unless it has), the wait's
callback takes the call out, and the thread it hands the handler to calls it. -/
theorem timed_call_can_time_out {c : Client} (hr : Reachable message c) {k : UInt32} {en : Entry}
    (hk : c.pending k = some en) (htimed : en.timed = true) :
    ∃ es c', Run message c es c' ∧ es.length ≤ 3 ∧
      c'.invoked = c.invoked ++ [⟨en.call, .timeout, .str (message .timeout)⟩] := by
  have ht := reachable_timerInv hr
  obtain ⟨w, hw, htimer, hna⟩ := ht.guarded k en hk htimed
  obtain ⟨i, hi⟩ := List.mem_iff_getElem?.mp hw
  cases hs : w.status with
  | aborted => exact absurd hs hna
  | expired =>
    obtain ⟨c', hrun, hinv⟩ := expired_wait_times_out ht hi hs hk htimer.symm
    exact ⟨_, c', hrun, by simp, hinv⟩
  | armed =>
    -- the deadline passes first
    have he : Enabled c (.expire i) := ⟨w, hi, hs⟩
    have hi₁ : (step message c (.expire i)).waits[i]? = some { w with status := .expired } := by
      simp only [Client.step, hi]
      exact List.getElem?_set_self (List.getElem?_eq_some_iff.mp hi).1
    have hk₁ : (step message c (.expire i)).pending k = some en := by
      simp only [Client.step, hi]
      exact hk
    obtain ⟨c', hrun, hinv⟩ := expired_wait_times_out
      (reachable_timerInv (.step hr ⟨he, rfl⟩ : Reachable message (step message c (.expire i))))
      hi₁ rfl hk₁ htimer.symm
    refine ⟨_, c', .cons_step he hrun, by simp, hinv.trans ?_⟩
    simp only [Client.step, hi]

/-- The first call, made with `timeout_ = 1`: its handler can be called with `error::timeout`. -/
theorem timed_call_can_time_out_first_call :
    let m : ErrorCode → String := fun _ => ""
    let c := [.setTimeout 1, .asyncCall fun _ => []].foldl (step m) init
    Reachable m c ∧ c.pending 0 = some ⟨0, true⟩ ∧ (⟨0, true⟩ : Entry).timed = true ∧
      ∃ es c', Run m c es c' ∧ es.length ≤ 3 ∧
        c'.invoked = c.invoked ++ [⟨(⟨0, true⟩ : Entry).call, .timeout, .str (m .timeout)⟩] := by
  intro m c
  have hrun : Run m init [.setTimeout 1, .asyncCall fun _ => []] c :=
    .cons_step trivial <| .cons_step trivial (.nil _)
  have hr : Reachable m c := hrun.reachable .init
  have hk : c.pending 0 = some ⟨0, true⟩ := rfl
  exact ⟨hr, hk, rfl, timed_call_can_time_out hr hk rfl⟩

end Completion

end Client
end Packio
