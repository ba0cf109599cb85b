import Packio.Client.Ids
/-
  Packio.Client.Dispatch
  ──────────────────────
  **WHAT `dispatch` DOES WITH EACH OBJECT THE UNPACKER YIELDS.**

  `verify_reponse` and `dispatch` read the tag and the id through `as<int>()`, which throws for
  anything that is not an integer inside `int`.  So `dispatch` throws for a four-element array
  whose tag is not such an integer, or whose tag is 1 and whose id is not (`dispatch_throws_iff`),
  and the exception leaves the `async_read` handler, ending the read loop.  The ids `async_call`
  assigns below 2^31 reach their own key (`dispatch_routes_low_id`), those from 2^31 up are
  among the ids that throw, and a negative wire id reaches the key it is congruent to modulo
  2^32 (`high_ids_throw_in_dispatch`).
-/

namespace Packio
namespace Client

/-! ## §1. Every outcome of `dispatch`. -/

theorem verifyReponse_of_not_array4 {o : Obj}
    (h : ∀ t i err result, o ≠ .array [t, i, err, result]) : verifyReponse o = .ok false := by
  unfold verifyReponse
  split
  · exact absurd rfl (h _ _ _ _)
  · rfl

/-- What `dispatch` does with a four-element array, by what `as<int>()` makes of its tag and
id. -/
theorem dispatch_array4 (t i err result : Obj) :
    dispatch (.array [t, i, err, result]) =
      match asInt t with
      | .error e => .error e
      | .ok v =>
        if v = 1 then
          match asInt i with
          | .error e => .error e
          | .ok id =>
            .ok (if err.isNil then .maybeCallHandler id result .success
              else .maybeCallHandler id err .callError)
        else .ok .closeConnection := by
  simp only [dispatch, verifyReponse]
  cases asInt t with
  | error e => rfl
  | ok v =>
    by_cases hv : v = 1
    · subst hv
      cases asInt i with
      | error e => rfl
      | ok id => cases err <;> rfl
    · simp [hv, Except.map]

theorem exists_array4_iff {t i err result : Obj} {P : Obj → Obj → Prop} :
    (∃ t' i' err' result', Obj.array [t, i, err, result] = .array [t', i', err', result'] ∧
      P t' i') ↔ P t i := by
  constructor
  · rintro ⟨_, _, _, _, h, hp⟩
    simp only [Obj.array.injEq, List.cons.injEq, and_true] at h
    obtain ⟨rfl, rfl, rfl, rfl⟩ := h
    exact hp
  · exact fun hp => ⟨_, _, _, _, rfl, hp⟩

/-- **When `dispatch` throws.**  Exactly for a four-element array whose tag is not an `int`, or
whose tag is 1 and whose id is not an `int`; everything else closes the connection or is routed
to `maybe_call_handler`. -/
theorem dispatch_throws_iff (o : Obj) :
    (∃ e, dispatch o = .error e) ↔ ∃ t i err result, o = .array [t, i, err, result] ∧
      ((∃ e, asInt t = .error e) ∨ (asInt t = .ok 1 ∧ ∃ e, asInt i = .error e)) := by
  by_cases h : ∃ t i err result, o = .array [t, i, err, result]
  · obtain ⟨t, i, err, result, rfl⟩ := h
    rw [exists_array4_iff, dispatch_array4]
    cases asInt t with
    | error e => simp only [reduceCtorEq, false_and, or_false]
    | ok v =>
      by_cases hv : v = 1
      · subst hv
        cases asInt i <;>
          simp only [↓reduceIte, reduceCtorEq, exists_false, true_and, false_or, and_false, or_self]
      · simp only [hv, ↓reduceIte, reduceCtorEq, exists_false, Except.ok.injEq, false_and, or_self]
  · push_neg at h
    simp only [dispatch, verifyReponse_of_not_array4 h]
    exact iff_of_false (fun ⟨_, he⟩ => Except.noConfusion he)
      fun ⟨t, i, err, result, ho, _⟩ => h t i err result ho

/-! ## §2. Ids. -/

/-- An id below 2^31, packed as the unsigned integer the request carried, is routed to its own
key. -/
theorem dispatch_routes_low_id (k : UInt32) (hk : k.toNat < 2 ^ 31) (err result : Obj) :
    dispatch (.array [.positiveInteger 1, .positiveInteger k.toUInt64, err, result]) =
      .ok (if err.isNil then .maybeCallHandler k.toNat result .success
        else .maybeCallHandler k.toNat err .callError) ∧
    toKey k.toNat = k := by
  have hid : asInt (.positiveInteger k.toUInt64) = .ok k.toNat :=
    if_pos (show k.toUInt64.toNat ≤ 2 ^ 31 - 1 by show k.toNat ≤ _; omega)
  refine ⟨by rw [dispatch_array4, hid]; rfl, ?_⟩
  have h := toKey_toCInt k
  rwa [toCInt, if_pos hk] at h

/-- A response for id 5 with no error goes to key 5's handler with its result. -/
example : dispatch (.array [.positiveInteger 1, .positiveInteger 5, .nil, .str "r"]) =
    .ok (.maybeCallHandler 5 (.str "r") .success) := rfl

/-- **Ids from 2^31 up throw; a negative id reaches a key it is not.**  `async_call` assigns
every `uint32_t` id (call `k` gets id `k`); the response for an id below 2^31 is routed to its
own key, but the response for an id from 2^31 up makes `as<int>()` throw in `dispatch`; and a
response whose id field is the integer -1 is routed to the entry keyed 2^32 - 1. -/
theorem high_ids_throw_in_dispatch (pack : UInt32 → List UInt8) (k : UInt32) (err result : Obj) :
    (callsFromInit pack k.toNat).id = k ∧
    (k.toNat < 2 ^ 31 →
      dispatch (.array [.positiveInteger 1, .positiveInteger k.toUInt64, err, result]) =
        .ok (if err.isNil then .maybeCallHandler k.toNat result .success
          else .maybeCallHandler k.toNat err .callError) ∧
      toKey k.toNat = k) ∧
    ((∃ e, dispatch (.array [.positiveInteger 1, .positiveInteger k.toUInt64, err, result]) =
      .error e) ↔ 2 ^ 31 ≤ k.toNat) ∧
    dispatch (.array [.positiveInteger 1, .negativeInteger ⟨-1, by decide, by decide⟩, .nil,
      result]) = .ok (.maybeCallHandler (-1) result .success) ∧
    toKey (-1) = 4294967295 := by
  refine ⟨UInt32.toNat.inj ?_, fun hk => dispatch_routes_low_id k hk err result, ?_,
    by rw [dispatch_array4]; rfl, by decide⟩
  · rw [callsFromInit_id, Nat.mod_eq_of_lt (show k.toNat < 2 ^ 32 from k.toNat_lt_size)]
  · have h1 : asInt (.positiveInteger 1) = .ok 1 := rfl
    have hk : k.toUInt64.toNat = k.toNat := rfl
    rw [dispatch_throws_iff, exists_array4_iff, h1]
    simp only [asInt, hk]
    have h31 : (2 : Nat) ^ 31 = 2147483648 := rfl
    rw [h31]
    split_ifs with h
    · exact iff_of_false (by simp only [exists_false, and_false, or_self, not_false_eq_true])
        (by omega)
    · exact iff_of_true (.inr ⟨trivial, .typeError, rfl⟩) (by omega)

/-! ## §3. Malformed responses. -/

/-- **A malformed response throws out of the read loop.**  A four-element array whose tag is a
string makes `verify_reponse` throw, and one tagged 1 whose id is a string makes `dispatch`
throw; the exception leaves the `async_read` handler: the rest of the batch is dropped, no read
is started again, and the client records the escape. -/
theorem malformed_response_throws (message : ErrorCode → String) (c : Client) (s : String)
    (i err result : Obj) (os : List Obj) :
    verifyReponse (.array [.str s, i, err, result]) = .error .typeError ∧
    dispatch (.array [.positiveInteger 1, .str s, err, result]) = .error .typeError ∧
    step message { c with inbox := some (.array [.str s, i, err, result] :: os) } .dispatchNext =
      { c with inbox := none, thrown := true } :=
  ⟨rfl, rfl, rfl⟩

end Client
end Packio
