import Packio.Client.Timers
/-
  Packio.Client.Ids
  ─────────────────
  **CALL IDS WRAP, AND A WRAPPED ID CAN LAND ON A CALL STILL PENDING.**

  `id_` is a `uint32_t` that `async_call` reads and increments (`fetch_add`), so call `n` gets
  the id `n mod 2^32` (`IdInv`), and the entry keyed `k` holds the handler of a call whose number
  is `k mod 2^32`.  `try_emplace` ignores its `inserted` flag: when the key is taken it keeps the
  entry there and the new handler is dropped.  So a call's handler is stored exactly when no
  earlier call with the same number modulo 2^32 is still pending, which holds for the first 2^32
  calls (`async_call_stores_unless_wrapped`) and fails at call 2^32 while call 0 is still
  pending (`callsFromInit_wrap`, `id_wrap_drops_handler`).
-/

namespace Packio
namespace Client

/-! ## §1. What moves `id_`. -/

theorem toNat_add_one (a : UInt32) : (a + 1).toNat = (a.toNat + 1) % 2 ^ 32 :=
  BitVec.toNat_add _ _

section Ids

variable (message : ErrorCode → String)

/-- A step other than `async_call` keeps `id_` and the count of calls, and only removes
entries. -/
theorem step_shrinks {c : Client} {e : Event} (he : Enabled c e)
    (hne : ∀ pack, e ≠ .asyncCall pack) :
    (step message c e).id = c.id ∧ (step message c e).calls = c.calls ∧
      ∀ k en, (step message c e).pending k = some en → c.pending k = some en := by
  rcases step_cases message he with ⟨-, hi, h⟩ | ⟨pack, rfl⟩ | ⟨_, _, -, -, -, hi, hp, -, -, hc⟩ |
      ⟨_, _, -, -, -, hi, h, -⟩ | ⟨_, _, -, -, -, hi, hp, -, -, hc⟩
  · exact ⟨hi, h.calls, h.pending_sub⟩
  · exact absurd rfl (hne pack)
  · exact ⟨hi, hc, fun k en h => by rwa [hp] at h⟩
  · exact ⟨hi, h.calls, h.pending_sub⟩
  · exact ⟨hi, hc, fun k en h => by rwa [hp] at h⟩

end Ids

/-! ## §2. Ids are call numbers modulo 2^32. -/

/-- `id_` is the number of calls made, modulo 2^32, and the entry keyed `k` holds the handler
of a call whose number is `k` modulo 2^32. -/
structure IdInv (c : Client) : Prop where
  id_eq : c.id.toNat = c.calls % 2 ^ 32
  key_eq : ∀ k en, c.pending k = some en → en.call % 2 ^ 32 = k.toNat

theorem idInv_init : IdInv init := ⟨rfl, fun _ _ h => Option.noConfusion h⟩

/-- `async_call` numbers its call `calls`, keys it `id_`, and moves both on by one. -/
theorem IdInv.asyncCall {c : Client} (ht : IdInv c) (pack : UInt32 → List UInt8) :
    IdInv (c.asyncCall pack) := by
  refine ⟨?_, fun k en h => ?_⟩
  · show (c.id + 1).toNat = (c.calls + 1) % 2 ^ 32
    rw [toNat_add_one, ht.id_eq, Nat.add_mod, Nat.mod_mod, ← Nat.add_mod]
  · rw [asyncCall_pending] at h
    split_ifs at h with hk
    · rw [hk]
      cases hc : c.pending c.id with
      | none => rw [hc] at h; cases h; exact ht.id_eq.symm
      | some old => rw [hc] at h; cases h; exact ht.key_eq _ _ hc
    · exact ht.key_eq k en h

theorem IdInv.step {message : ErrorCode → String} {c : Client} {e : Event} (ht : IdInv c)
    (he : Enabled c e) : IdInv (step message c e) := by
  by_cases h : ∃ pack, e = .asyncCall pack
  · obtain ⟨pack, rfl⟩ := h
    exact ht.asyncCall pack
  · push_neg at h
    obtain ⟨hi, hc, hp⟩ := step_shrinks message he h
    exact ⟨by rw [hi, hc]; exact ht.id_eq, fun k en hk => ht.key_eq k en (hp k en hk)⟩

theorem reachable_idInv {message : ErrorCode → String} {c : Client}
    (hr : Reachable message c) : IdInv c := by
  induction hr with
  | init => exact idInv_init
  | step _ hs ih => obtain ⟨he, rfl⟩ := hs; exact ih.step he

/-! ## §3. Calls from a fresh client. -/

/-- `n` calls on a fresh client, with `timeout_` left at 0 and no response read. -/
def callsFromInit (pack : UInt32 → List UInt8) : Nat → Client
  | 0 => init
  | n + 1 => (callsFromInit pack n).asyncCall pack

theorem callsFromInit_calls (pack : UInt32 → List UInt8) (n : Nat) :
    (callsFromInit pack n).calls = n := by
  induction n with
  | zero => rfl
  | succ n ih => exact congrArg (· + 1) ih

theorem callsFromInit_timeout (pack : UInt32 → List UInt8) (n : Nat) :
    (callsFromInit pack n).timeout = 0 := by
  induction n with
  | zero => rfl
  | succ n ih => exact ih

theorem reachable_callsFromInit (message : ErrorCode → String) (pack : UInt32 → List UInt8)
    (n : Nat) : Reachable message (callsFromInit pack n) := by
  induction n with
  | zero => exact .init
  | succ n ih => exact .step ih (⟨trivial, rfl⟩ : Step message _ (.asyncCall pack) _)

theorem callsFromInit_id (pack : UInt32 → List UInt8) (n : Nat) :
    (callsFromInit pack n).id.toNat = n % 2 ^ 32 := by
  rw [(reachable_idInv (reachable_callsFromInit (fun _ => "") pack n)).id_eq,
    callsFromInit_calls]

/-- Up to 2^32 calls with nothing read, call `k` sits at key `k`. -/
theorem callsFromInit_pending (pack : UInt32 → List UInt8) {n : Nat} (hn : n ≤ 2 ^ 32)
    (k : UInt32) :
    (callsFromInit pack n).pending k = if k.toNat < n then some ⟨k.toNat, false⟩ else none := by
  induction n with
  | zero => rfl
  | succ n ih =>
    have hid : (callsFromInit pack n).id.toNat = n := by
      rw [callsFromInit_id, Nat.mod_eq_of_lt (by omega)]
    show ((callsFromInit pack n).asyncCall pack).pending k = _
    rw [asyncCall_pending, callsFromInit_calls, callsFromInit_timeout]
    by_cases hk : k = (callsFromInit pack n).id
    · have hkn : k.toNat = n := hk ▸ hid
      rw [if_pos hk, ← hk, ih (by omega), if_neg (by omega), if_pos (by omega), hkn]
      rfl
    · have hkn : k.toNat ≠ n := fun h => hk (UInt32.toNat.inj (h.trans hid.symm))
      rw [if_neg hk, ih (by omega)]
      by_cases hlt : k.toNat < n
      · rw [if_pos hlt, if_pos (by omega)]
      · rw [if_neg hlt, if_neg (by omega)]

/-- After 2^32 calls `id_` is back at 0, where call 0 is still pending. -/
theorem callsFromInit_wrap (pack : UInt32 → List UInt8) :
    (callsFromInit pack (2 ^ 32)).id = 0 ∧
      (callsFromInit pack (2 ^ 32)).pending 0 = some ⟨0, false⟩ := by
  refine ⟨UInt32.toNat.inj (by rw [callsFromInit_id]; rfl), ?_⟩
  rw [callsFromInit_pending pack (le_refl _)]
  rfl

/-! ## §4. When `async_call` stores its handler. -/

/-- **A call's handler is stored unless its id wrapped onto a pending call.**  In every reachable
state the entry keyed `k` holds a call numbered `k` modulo 2^32; the next `async_call` stores
its own handler exactly when no pending call has its number modulo 2^32; otherwise
`try_emplace` keeps the entry already at `id_` and the new handler is stored nowhere; and the
handler is always stored while fewer than 2^32 calls have been made. -/
theorem async_call_stores_unless_wrapped {message : ErrorCode → String} {c : Client}
    (hr : Reachable message c) (pack : UInt32 → List UInt8) :
    (∀ k en, c.pending k = some en → en.call % 2 ^ 32 = k.toNat) ∧
    ((c.asyncCall pack).pending c.id = some ⟨c.calls, decide (0 < c.timeout)⟩ ↔
      ∀ k en, c.pending k = some en → en.call % 2 ^ 32 ≠ c.calls % 2 ^ 32) ∧
    (∀ old, c.pending c.id = some old →
      (c.asyncCall pack).pending c.id = some old ∧
        ∀ k en, (c.asyncCall pack).pending k = some en → en.call < c.calls) ∧
    (c.calls < 2 ^ 32 →
      (c.asyncCall pack).pending c.id = some ⟨c.calls, decide (0 < c.timeout)⟩) := by
  have ht := reachable_idInv hr
  have hi := reachable_callTableInv hr
  have hstored : (c.asyncCall pack).pending c.id = some ⟨c.calls, decide (0 < c.timeout)⟩ ↔
      ∀ k en, c.pending k = some en → en.call % 2 ^ 32 ≠ c.calls % 2 ^ 32 := by
    rw [asyncCall_pending, if_pos rfl]
    constructor
    · intro h k en hk he
      have hkey : k = c.id := UInt32.toNat.inj (by rw [← ht.key_eq k en hk, he, ht.id_eq])
      subst hkey
      rw [hk, Option.getD_some] at h
      cases h
      exact lt_irrefl _ (hi.pending_lt _ _ hk)
    · intro h
      cases hc : c.pending c.id with
      | none => rfl
      | some old => exact absurd (by rw [ht.key_eq _ _ hc, ht.id_eq]) (h _ old hc)
  -- on a collision `try_emplace` changes nothing, so every entry is an earlier call's
  have hkept : ∀ old, c.pending c.id = some old →
      (c.asyncCall pack).pending c.id = some old ∧
        ∀ k en, (c.asyncCall pack).pending k = some en → en.call < c.calls := by
    intro old hold
    refine ⟨by rw [asyncCall_pending, if_pos rfl, hold, Option.getD_some], fun k en hk => ?_⟩
    rw [asyncCall_pending] at hk
    split_ifs at hk with hkid
    · rw [hold, Option.getD_some] at hk
      cases hk
      exact hi.pending_lt _ _ hold
    · exact hi.pending_lt k en hk
  refine ⟨ht.key_eq, hstored, hkept, fun hlt => hstored.mpr fun k en hk he => ?_⟩
  have := hi.pending_lt k en hk
  rw [Nat.mod_eq_of_lt (by omega), Nat.mod_eq_of_lt hlt] at he
  omega

/-- Call 2^32 after 2^32 calls with nothing read: `id_` is back at 0, where call 0 is still
pending, so `try_emplace` meets the entry already there. -/
theorem async_call_stores_unless_wrapped_at_wrap :
    let c := callsFromInit (fun _ => []) (2 ^ 32)
    Reachable (fun _ => "") c ∧ c.pending c.id = some ⟨0, false⟩ ∧
    ((∀ k en, c.pending k = some en → en.call % 2 ^ 32 = k.toNat) ∧
    ((c.asyncCall fun _ => []).pending c.id = some ⟨c.calls, decide (0 < c.timeout)⟩ ↔
      ∀ k en, c.pending k = some en → en.call % 2 ^ 32 ≠ c.calls % 2 ^ 32) ∧
    (∀ old, c.pending c.id = some old →
      (c.asyncCall fun _ => []).pending c.id = some old ∧
        ∀ k en, (c.asyncCall fun _ => []).pending k = some en → en.call < c.calls) ∧
    (c.calls < 2 ^ 32 →
      (c.asyncCall fun _ => []).pending c.id = some ⟨c.calls, decide (0 < c.timeout)⟩)) := by
  intro c
  have hr : Reachable (fun _ => "") c := reachable_callsFromInit _ _ _
  have hid : c.id = 0 := (callsFromInit_wrap _).1
  refine ⟨hr, ?_, async_call_stores_unless_wrapped hr _⟩
  rw [hid]
  exact (callsFromInit_wrap _).2

/-- **Call 2^32 loses its handler.**  After 2^32 calls with no timeout and no response, `id_` is
back at 0 and call 0 is still pending at key 0.  Call 2^32 gets id 0, `try_emplace` finds call
0's entry there and drops the new handler: the entry keyed 0 is still call 0's, and no entry
holds call 2^32. -/
theorem id_wrap_drops_handler :
    Reachable (fun _ => "") (callsFromInit (fun _ => []) (2 ^ 32)) ∧
    (callsFromInit (fun _ => []) (2 ^ 32)).id = 0 ∧
    (callsFromInit (fun _ => []) (2 ^ 32)).calls = 2 ^ 32 ∧
    (callsFromInit (fun _ => []) (2 ^ 32)).pending 0 = some ⟨0, false⟩ ∧
    ((callsFromInit (fun _ => []) (2 ^ 32)).asyncCall fun _ => []).pending 0 =
      some ⟨0, false⟩ ∧
    ∀ k en, ((callsFromInit (fun _ => []) (2 ^ 32)).asyncCall fun _ => []).pending k = some en →
      en.call < 2 ^ 32 := by
  obtain ⟨hid, h0⟩ := callsFromInit_wrap fun _ => []
  have hpend := callsFromInit_pending (fun _ => []) (le_refl (2 ^ 32))
  refine ⟨reachable_callsFromInit _ _ _, hid, callsFromInit_calls _ _, h0, ?_, fun k en h => ?_⟩
  · rw [asyncCall_pending, hid, if_pos rfl, h0]
    rfl
  · rw [asyncCall_pending, hid] at h
    have hk : k.toNat < 2 ^ 32 := k.toNat_lt_size
    split_ifs at h with hk0
    · rw [hpend] at h; cases h; exact Nat.two_pow_pos 32
    · rw [hpend, if_pos hk] at h
      cases h
      exact hk

end Client
end Packio
