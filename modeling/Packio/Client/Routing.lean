import Packio.Client.Dispatch
import Packio.Client.Stalled
/-
  Packio.Client.Routing
  ─────────────────────
  **A HANDLER CALLED WITH A RESPONSE GETS A RESPONSE TO ITS OWN REQUEST.**

  `dispatch` routes a response `[1, msgid, error, result]` to the entry of `pending_` keyed by
  `msgid`, read as an `int` and converted to `uint32_t`; the handler it takes out is called with
  `(call_error, error)` when `error` is not nil, else with `(success, result)`.  The entry keyed
  `k` holds the handler of a call whose number is `k` modulo 2^32, and call `n` packed its
  request with `id_`, which is `n` modulo 2^32 (`IdInv`).  So along every run from a fresh
  client, every handler called with `success` or `call_error` is called with a field of a
  response the client read, whose msgid names the id of that handler's own request
  (`handlers_get_their_own_responses`): no handler gets the response to another id.

  `Answers` says what a response hands a handler; `RouteInv` says, of a client and the events
  that led to it, where each object waiting for dispatch and each handler's arguments came from.
  It is kept by every step (`RouteInv.step`), hence along every run (`Run.routeInv`).
-/

namespace Packio
namespace Client

/-! ## §1. What a response hands a handler. -/

/-- The response `o`, of type 1, carries a msgid that `as<int>()` reads as an `int` naming the
key `k`, and hands the handler keyed `k` `(call_error, error)` when its error is not nil, else
`(success, result)`. -/
def Answers (o : Obj) (k : UInt32) (ec : ErrorCode) (value : Obj) : Prop :=
  ∃ t msgid err result id, o = .array [t, msgid, err, result] ∧ asInt t = .ok 1 ∧
    asInt msgid = .ok id ∧ toKey id = k ∧
    (err.isNil = false ∧ ec = .callError ∧ value = err ∨
      err.isNil = true ∧ ec = .success ∧ value = result)

/-- What `dispatch` hands to `maybe_call_handler` is what the response answers the key its id
names. -/
theorem dispatch_answers {o : Obj} {id : Int} {value : Obj} {ec : ErrorCode}
    (h : dispatch o = .ok (.maybeCallHandler id value ec)) : Answers o (toKey id) ec value := by
  by_cases ha : ∃ t i err result, o = .array [t, i, err, result]
  · obtain ⟨t, i, err, result, rfl⟩ := ha
    rw [dispatch_array4] at h
    cases ht : asInt t with
    | error e => rw [ht] at h; cases h
    | ok v =>
      simp only [ht] at h
      by_cases hv : v = 1
      · subst hv
        rw [if_pos rfl] at h
        cases hi : asInt i with
        | error e => rw [hi] at h; cases h
        | ok id' =>
          simp only [hi, Except.ok.injEq] at h
          refine ⟨t, i, err, result, id', rfl, ht, hi, ?_⟩
          cases hn : err.isNil <;>
            simp only [hn, Bool.false_eq_true, ↓reduceIte, Action.maybeCallHandler.injEq] at h <;>
            obtain ⟨rfl, rfl, rfl⟩ := h
          exacts [⟨rfl, .inl ⟨rfl, rfl, rfl⟩⟩, ⟨rfl, .inr ⟨rfl, rfl, rfl⟩⟩]
      · rw [if_neg hv] at h; cases h
  · push_neg at ha
    simp only [dispatch, verifyReponse_of_not_array4 ha] at h
    cases h

/-! ## §2. Where each handler's arguments come from. -/

/-- `o` is among the objects a read completing in `es` unpacked. -/
def WasRead (es : List Event) (o : Obj) : Prop :=
  ∃ objs, Event.readComplete (.ok objs) ∈ es ∧ o ∈ objs

/-- The handler of call `n`, handed `(ec, value)` with `success` or `call_error`, got them from a
response read in `es` that answers the id of call `n`'s request. -/
def Routed (es : List Event) (n : Nat) (ec : ErrorCode) (value : Obj) : Prop :=
  ec = .success ∨ ec = .callError → ∃ o, WasRead es o ∧ Answers o (UInt32.ofNat n) ec value

/-- The objects waiting for dispatch were read, and every handler taken out of `pending_` or
called was handed what `Routed` says. -/
structure RouteInv (es : List Event) (c : Client) : Prop where
  inbox : ∀ objs, c.inbox = some objs → ∀ o ∈ objs, WasRead es o
  delivering : ∀ d ∈ c.delivering, Routed es d.entry.call d.ec d.value
  invoked : ∀ i ∈ c.invoked, Routed es i.handler i.ec i.value

theorem routeInv_init : RouteInv [] init := ⟨fun _ h => Option.noConfusion h, nofun, nofun⟩

theorem WasRead.append {es : List Event} {o : Obj} (h : WasRead es o) (es' : List Event) :
    WasRead (es ++ es') o :=
  let ⟨objs, he, ho⟩ := h
  ⟨objs, List.mem_append_left _ he, ho⟩

/-- More events keep what was read. -/
theorem RouteInv.append {es : List Event} {c : Client} (hi : RouteInv es c) (es' : List Event) :
    RouteInv (es ++ es') c :=
  ⟨fun objs h o ho => (hi.inbox objs h o ho).append es',
    fun d hd hec => (hi.delivering d hd hec).imp fun _ ⟨hr, ha⟩ => ⟨hr.append es', ha⟩,
    fun i hi' hec => (hi.invoked i hi' hec).imp fun _ ⟨hr, ha⟩ => ⟨hr.append es', ha⟩⟩

/-- A step that keeps what waits for dispatch, the handlers taken out and the handlers called. -/
theorem RouteInv.of_eq {es : List Event} {c c' : Client} (hi : RouteInv es c)
    (h₁ : c'.inbox = c.inbox) (h₂ : c'.delivering = c.delivering) (h₃ : c'.invoked = c.invoked) :
    RouteInv es c' :=
  ⟨h₁ ▸ hi.inbox, h₂ ▸ hi.delivering, h₃ ▸ hi.invoked⟩

/-- The handler's thread is gone or never ran: nothing waits for dispatch. -/
theorem RouteInv.drain {es : List Event} {c c' : Client} (hi : RouteInv es c)
    (h₁ : c'.inbox = none) (h₂ : c'.delivering = c.delivering) (h₃ : c'.invoked = c.invoked) :
    RouteInv es c' :=
  ⟨fun _ h => Option.noConfusion (h₁ ▸ h), h₂ ▸ hi.delivering, h₃ ▸ hi.invoked⟩

/-- A critical section taking out the entry at `key` for `(ec, value)`, where `key` is the id of
the call stored there, keeps `RouteInv` when `(ec, value)` is answered to `key` by a response
read, or is no response's. -/
theorem RouteInv.claimEntry {es : List Event} {c : Client} (hi : RouteInv es c) {key : UInt32}
    {ec : ErrorCode} {value : Obj}
    (hkey : ∀ en, c.pending key = some en → UInt32.ofNat en.call = key)
    (hr : ec = .success ∨ ec = .callError → ∃ o, WasRead es o ∧ Answers o key ec value) :
    RouteInv es (c.claimEntry key ec value) := by
  unfold Client.claimEntry
  split
  · exact hi
  · rename_i en hen
    refine ⟨hi.inbox, fun d hd => ?_, hi.invoked⟩
    rcases List.mem_append.mp hd with hd | hd
    · exact hi.delivering d hd
    · rw [List.mem_singleton.mp hd]
      show Routed es en.call ec value
      rw [Routed, hkey en hen]
      exact hr

theorem not_routed_of_noResponse {ec : ErrorCode} (h : NoResponse ec) :
    ¬(ec = .success ∨ ec = .callError) := by
  rcases h with rfl | ⟨v, rfl⟩ <;> nofun

/-! ## §3. Every step, every run. -/

/-- **Each step keeps `RouteInv`**, the step itself joining the events. -/
theorem RouteInv.step {message : ErrorCode → String} {es : List Event} {c : Client} {e : Event}
    (hi : RouteInv es c) (ht : IdInv c) (he : Enabled c e) :
    RouteInv (es ++ [e]) (Client.step message c e) := by
  have hi' := hi.append [e]
  have hkey : ∀ k en, c.pending k = some en → UInt32.ofNat en.call = k :=
    fun k en h => UInt32.toNat.inj (by rw [← ht.key_eq k en h]; rfl)
  cases e with
  | asyncCall pack => exact hi'.of_eq rfl rfl rfl
  | asyncNotify buf => exact hi'.of_eq rfl rfl rfl
  | setTimeout d => exact hi'.of_eq rfl rfl rfl
  | writeSome i n => simp only [Client.step]; split <;> exact hi'.of_eq rfl rfl rfl
  | writeComplete i ec =>
    obtain ⟨w, hw, hec⟩ := he
    simp only [Client.step, hw]
    split
    · unfold callWritten maybeCallHandler
      split_ifs with herr
      · -- the write failed: its handler is taken out with the socket's error
        rcases hec with ⟨v, rfl, -⟩ | ⟨rfl, -⟩
        · refine RouteInv.claimEntry ?_ (hkey _)
            fun h => absurd h (not_routed_of_noResponse (.inr ⟨v, rfl⟩))
          exact hi'.of_eq rfl rfl rfl
        · cases herr
      · exact hi'.of_eq rfl rfl rfl
    · exact hi'.of_eq rfl rfl rfl
  | expire i => simp only [Client.step]; split <;> exact hi'.of_eq rfl rfl rfl
  | waitComplete i =>
    simp only [Client.step]
    split
    · unfold timeoutFired
      split_ifs
      · exact hi'.of_eq rfl rfl rfl
      · refine RouteInv.claimEntry ?_ (hkey _)
          fun h => absurd h (not_routed_of_noResponse (.inl rfl))
        exact hi'.of_eq rfl rfl rfl
    · exact hi'.of_eq rfl rfl rfl
  | readComplete r =>
    simp only [Client.step]
    split
    · exact hi'.of_eq rfl rfl rfl
    · -- the objects the unpacker yields are read
      rename_i objs
      exact ⟨fun _ h o ho => ⟨objs, List.mem_append_right _ (.head _), Option.some.inj h ▸ ho⟩,
        hi'.delivering, hi'.invoked⟩
  | dispatchNext =>
    simp only [Client.step]
    split
    · rename_i o os hin
      have hos : RouteInv (es ++ [.dispatchNext]) { c with inbox := some os } :=
        ⟨fun _ h o' ho' => hi'.inbox _ hin o' (.tail _ (Option.some.inj h ▸ ho')),
          hi'.delivering, hi'.invoked⟩
      split
      · rename_i a hd
        cases a with
        | closeConnection => exact hos.of_eq rfl rfl rfl
        | maybeCallHandler id value ec =>
          -- the response dispatched answers the key its id names
          exact hos.claimEntry (hkey _)
            fun _ => ⟨o, hi'.inbox _ hin o (.head _), dispatch_answers hd⟩
      · exact hi'.drain rfl rfl rfl
    · exact hi'.drain rfl rfl rfl
    · exact hi'.of_eq rfl rfl rfl
  | unpackError => exact hi'.drain rfl rfl rfl
  | deliver i =>
    simp only [Client.step]
    split
    · -- the thread calls the handler it was handed, with what it was handed
      rename_i d hd
      refine ⟨hi'.inbox, fun d' hd' => hi'.delivering d' (List.mem_of_mem_eraseIdx hd'),
        fun inv hinv => ?_⟩
      rcases List.mem_append.mp hinv with hinv | hinv
      · exact hi'.invoked inv hinv
      · rw [List.mem_singleton.mp hinv]
        exact hi'.delivering d (List.mem_iff_getElem?.mpr ⟨i, hd⟩)
    · exact hi'.of_eq rfl rfl rfl

theorem Run.routeInv {message : ErrorCode → String} {c c' : Client} {es pre : List Event}
    (hrun : Run message c es c') (hi : RouteInv pre c) (ht : IdInv c) :
    RouteInv (pre ++ es) c' := by
  induction hrun generalizing pre with
  | nil => rw [List.append_nil]; exact hi
  | cons hs _ ih =>
    obtain ⟨he, rfl⟩ := hs
    rw [List.append_cons]
    exact ih (hi.step ht he) (ht.step he)

/-- **Every handler gets a response to its own request.**  Along every run of a fresh client,
each call handler called with `success` or `call_error` is called with the result or the error
of a response the client read, of type 1, whose msgid `as<int>()` reads and converts to the id
of that handler's own request (the call's number modulo 2^32). -/
theorem handlers_get_their_own_responses {message : ErrorCode → String} {c : Client}
    {es : List Event} (hrun : Run message init es c) :
    ∀ i ∈ c.invoked, i.ec = .success ∨ i.ec = .callError →
      ∃ objs o, Event.readComplete (.ok objs) ∈ es ∧ o ∈ objs ∧
        Answers o (UInt32.ofNat i.handler) i.ec i.value := by
  have hi := hrun.routeInv routeInv_init idInv_init
  intro i hmem hec
  obtain ⟨o, ⟨objs, he, ho⟩, ha⟩ := hi.invoked i hmem hec
  exact ⟨objs, o, he, ho, ha⟩

/-- A fresh client's first call, answered by `[1, 0, nil, "ok"]`: the read, the dispatch and the
handler's call. -/
theorem handlers_get_their_own_responses_on_first_call :
    let m : ErrorCode → String := fun _ => ""
    let es : List Event := [.asyncCall fun _ => [],
      .readComplete (.ok [.array [.positiveInteger 1, .positiveInteger 0, .nil, .str "ok"]]),
      .dispatchNext, .deliver 0]
    let c := es.foldl (step m) init
    Run m init es c ∧ ∀ i ∈ c.invoked, i.ec = .success ∨ i.ec = .callError →
      ∃ objs o, Event.readComplete (.ok objs) ∈ es ∧ o ∈ objs ∧
        Answers o (UInt32.ofNat i.handler) i.ec i.value := by
  intro m es c
  have hrun : Run m init es c :=
    .cons_step trivial <| .cons_step Nat.one_pos <| .cons_step (fun h => Option.noConfusion h) <|
      .cons_step Nat.one_pos (.nil _)
  exact ⟨hrun, handlers_get_their_own_responses hrun⟩

end Client
end Packio
