import Packio.Client.Msgpack
import Mathlib.Logic.Function.Basic
/-
  Packio.Client.Client
  ────────────────────
  **THE CLIENT, AS A SYSTEM OF ASYNCHRONOUS STEPS.**

  `client` (client.h) keeps the call table `pending_` (id ↦ handler and timer) under
  `pending_mutex_`, the 32-bit counter `id_`, `timeout_`, and the flag `reading_`.  Its work
  happens in the calls of its users and in completion handlers the executor runs in any order.
  Each critical section under `pending_mutex_` is one step; the code after `lock.unlock()`
  (cancel the timer, call the handler) is a step of its own (`deliver`), so any other step may
  run between the two.

  The handler of `async_read` dispatches the objects it unpacked one at a time (`inbox`), each
  dispatch a step, and issues the next read when none is left.  Handlers and timers are named
  by the `async_call` that made them (`Entry.call`).  The socket is the environment: a
  `write_some` writes a non-empty prefix of what is left, a write completes with success once
  all is written or with an error of the socket at any time, a read completes with an error or
  with whatever objects the unpacker yields, the unpacker may throw on the bytes after them
  (`unpackError`), and a timer's deadline may pass at any time.

  The handler's error message `ec.message()` is left a parameter (`message`).
-/

namespace Packio

/-! ## §1. The state. -/

/-- An entry of `pending_`: the call's handler and its timer, both named by the `async_call`
that made them. -/
structure Entry where
  /-- the `async_call` that stored the entry (its number among the client's calls) -/
  call : Nat
  /-- whether `timeout_ > 0` when it was stored (ghost) -/
  timed : Bool
  deriving Repr, DecidableEq

/-- How an outstanding `async_wait` will complete. -/
inductive WaitStatus where
  /-- its deadline has not passed -/
  | armed
  /-- its deadline passed: the callback will run with success -/
  | expired
  /-- cancelled: the callback will run with `operation_aborted` -/
  | aborted
  deriving Repr, DecidableEq

/-- An outstanding `timer.async_wait` made by `async_timeout(timer, id)`. -/
structure Wait where
  /-- the timer, named by its entry's call -/
  timer : Nat
  /-- the `id` its callback looks up -/
  id : UInt32
  status : WaitStatus
  deriving Repr, DecidableEq

/-- Who started an outstanding `async_write`. -/
inductive Origin where
  /-- `async_call`, for the request with this id -/
  | call (id : UInt32)
  /-- the `n`-th `async_notify` -/
  | notify (n : Nat)
  deriving Repr, DecidableEq

/-- An outstanding `boost::asio::async_write`: the bytes it has still to write. -/
structure Write where
  origin : Origin
  rest : List UInt8
  deriving Repr, DecidableEq

/-- A handler taken out of `pending_` and not called yet: its thread is between
`lock.unlock()` and `handler(ec, value)`. -/
structure Delivery where
  entry : Entry
  ec : ErrorCode
  value : Obj

/-- A call of a call handler: which one, and its two arguments. -/
structure Invocation where
  handler : Nat
  ec : ErrorCode
  value : Obj

/-- The members of `client`, with what is outstanding on its socket and timers. -/
structure Client where
  /-- `pending_` -/
  pending : UInt32 → Option Entry
  /-- `id_` -/
  id : UInt32
  /-- `timeout_`, in ticks of the clock -/
  timeout : Int
  /-- `reading_` -/
  reading : Bool
  /-- outstanding `async_read_some`s -/
  reads : Nat
  /-- the objects the running `async_read` handler has still to dispatch; `none` when it is not
  running -/
  inbox : Option (List Obj)
  /-- outstanding `async_wait`s -/
  waits : List Wait
  /-- outstanding `async_write`s -/
  writes : List Write
  /-- the bytes written to the socket -/
  wire : List UInt8
  /-- handlers taken out of `pending_`, not called yet -/
  delivering : List Delivery
  /-- the calls of call handlers, in order -/
  invoked : List Invocation
  /-- the calls of notify handlers, in order: which notify, and the error -/
  notified : List (Nat × ErrorCode)
  /-- `async_call`s made so far (ghost) -/
  calls : Nat
  /-- `async_notify`s made so far (ghost) -/
  notifies : Nat
  /-- `close_connection()` has run -/
  closed : Bool
  /-- an exception escaped a completion handler -/
  thrown : Bool

namespace Client

/-- A client just constructed on a connected socket: `reading_.clear()`, `id_{0}`,
`timeout_{0}`. -/
def init : Client :=
  { pending := fun _ => none, id := 0, timeout := 0, reading := false, reads := 0,
    inbox := none, waits := [], writes := [], wire := [], delivering := [], invoked := [],
    notified := [], calls := 0, notifies := 0, closed := false, thrown := false }

/-! ## §2. The code. -/

/-- `timer.cancel()`, or the timer's `expires_after` or destruction: its armed waits abort. -/
def cancelWaits (timer : Nat) (ws : List Wait) : List Wait :=
  ws.map fun w => if w.timer = timer ∧ w.status = .armed then { w with status := .aborted } else w

/-- `pending_.try_emplace(id, e)`: `e` is stored unless `id` is taken. -/
def tryEmplace (id : UInt32) (e : Entry) (pending : UInt32 → Option Entry) :
    UInt32 → Option Entry :=
  match pending id with
  | some _ => pending
  | none => Function.update pending id (some e)

/-- `async_timeout(timer, id)`, on the outstanding waits: `expires_after` cancels the timer's
waits, `async_wait` adds one. -/
def asyncTimeout (timer : Nat) (id : UInt32) (ws : List Wait) : List Wait :=
  cancelWaits timer ws ++ [⟨timer, id, .armed⟩]

/-- `maybe_start_reading()`: `reading_.test_and_set()` sets the flag, and the caller that found
it clear starts the read chain. -/
def maybeStartReading (c : Client) : Client :=
  { c with reading := true, reads := if c.reading then c.reads else c.reads + 1 }

/-- `async_call(name, args, handler)`, `pack id` being the request packed for the id it gets.
The timer armed is the one of the entry `try_emplace` returns: the new one, or the one already
at `id`. -/
def asyncCall (pack : UInt32 → List UInt8) (c : Client) : Client :=
  let id := c.id
  let e : Entry := ⟨c.calls, decide (0 < c.timeout)⟩
  let timer := ((c.pending id).getD e).call
  let c := { c with id := c.id + 1, pending := tryEmplace id e c.pending, calls := c.calls + 1 }
  let c := { c with waits := if 0 < c.timeout then asyncTimeout timer id c.waits else c.waits }
  let c := c.maybeStartReading
  { c with writes := c.writes ++ [⟨.call id, pack id⟩] }

/-- `async_notify(name, args, handler)`, `buf` being the packed notification. -/
def asyncNotify (buf : List UInt8) (c : Client) : Client :=
  let c := c.maybeStartReading
  { c with writes := c.writes ++ [⟨.notify c.notifies, buf⟩], notifies := c.notifies + 1 }

/-- The critical section shared by `maybe_call_handler` and the timeout callback: find `key`,
move its entry out and erase it; the handler is called after `unlock`. -/
def claimEntry (key : UInt32) (ec : ErrorCode) (value : Obj) (c : Client) : Client :=
  match c.pending key with
  | none => c
  | some e =>
    { c with pending := Function.update c.pending key none,
             delivering := c.delivering ++ [⟨e, ec, value⟩] }

/-- `maybe_call_handler(id, result, ec)`: its `int` id names the key `uint32_t(id)`. -/
def maybeCallHandler (id : Int) (result : Obj) (ec : ErrorCode) (c : Client) : Client :=
  c.claimEntry (toKey id) ec result

/-- What `dispatch` does with a response it does not throw on. -/
inductive Action where
  | closeConnection
  | maybeCallHandler (id : Int) (result : Obj) (ec : ErrorCode)

/-- `verify_reponse(response)`: an array of four whose first element is `1`.  The `as<int>()`
on that element throws for anything but an `int`. -/
def verifyReponse : Obj → Except TypeError Bool
  | .array [type, _, _, _] => (asInt type).map (· = 1)
  | _ => .ok false

/-- `dispatch(response, ec)`, up to its effect; an exception of `as<int>()` propagates. -/
def dispatch (response : Obj) : Except TypeError Action :=
  match verifyReponse response with
  | .error e => .error e
  | .ok false => .ok .closeConnection
  | .ok true =>
    match response with
    | .array [_, id, err, result] =>
      match asInt id with
      | .error e => .error e
      | .ok id =>
        if !err.isNil then .ok (.maybeCallHandler id err .callError)
        else .ok (.maybeCallHandler id result .success)
    | _ => .ok .closeConnection

/-- The effect of an `Action`. -/
def perform (c : Client) : Action → Client
  | .closeConnection => { c with closed := true }
  | .maybeCallHandler id result ec => c.maybeCallHandler id result ec

section Steps

variable (message : ErrorCode → String)

/-- The handler of `async_call`'s `async_write`, on completion with `ec`. -/
def callWritten (id : UInt32) (ec : ErrorCode) (c : Client) : Client :=
  if ec.isError then c.maybeCallHandler (toCInt id) (.str (message ec)) ec else c

/-- The callback of `async_timeout`'s `async_wait` for `id`: on `operation_aborted` it returns,
on expiry it takes the entry at `id` out with `error::timeout`. -/
def timeoutFired (w : Wait) (c : Client) : Client :=
  if w.status = .aborted then c
  else c.claimEntry w.id .timeout (.str (message .timeout))

/-- What can happen to a client. -/
inductive Event where
  /-- a user calls `async_call`; the request packs to `pack id` -/
  | asyncCall (pack : UInt32 → List UInt8)
  /-- a user calls `async_notify` with the packed notification `buf` -/
  | asyncNotify (buf : List UInt8)
  /-- a user calls `set_timeout` -/
  | setTimeout (d : Int)
  /-- a `write_some` of outstanding write `i` writes `n` bytes -/
  | writeSome (i n : Nat)
  /-- outstanding write `i` completes with `ec` -/
  | writeComplete (i : Nat) (ec : ErrorCode)
  /-- the deadline of outstanding wait `i` passes -/
  | expire (i : Nat)
  /-- the callback of outstanding wait `i` runs -/
  | waitComplete (i : Nat)
  /-- the outstanding read completes, with an error or with the objects unpacked -/
  | readComplete (result : Except ErrorCode (List Obj))
  /-- the running `async_read` handler dispatches its next object, or issues the next read -/
  | dispatchNext
  /-- the running `async_read` handler's `unpacker_.next` throws (`msgpack::parse_error` on
  malformed bytes) after the objects it yielded -/
  | unpackError
  /-- the thread of delivery `i` cancels the timer and calls the handler -/
  | deliver (i : Nat)

/-- When the environment lets an event happen. -/
def Enabled (c : Client) : Event → Prop
  | .writeSome i n => ∃ w, c.writes[i]? = some w ∧ 0 < n ∧ n ≤ w.rest.length
  | .writeComplete i ec =>
    ∃ w, c.writes[i]? = some w ∧ ((∃ v, ec = .system v ∧ v ≠ 0) ∨ (ec = .success ∧ w.rest = []))
  | .expire i => ∃ w, c.waits[i]? = some w ∧ w.status = .armed
  | .waitComplete i => ∃ w, c.waits[i]? = some w ∧ w.status ≠ .armed
  | .readComplete _ => 0 < c.reads
  | .dispatchNext => c.inbox ≠ none
  | .unpackError => c.inbox = some []
  | .deliver i => i < c.delivering.length
  | _ => True

/-- The effect of an event. -/
def step (c : Client) : Event → Client
  | .asyncCall pack => c.asyncCall pack
  | .asyncNotify buf => c.asyncNotify buf
  | .setTimeout d => { c with timeout := d }
  | .writeSome i n =>
    match c.writes[i]? with
    | some w =>
      { c with wire := c.wire ++ w.rest.take n,
               writes := c.writes.set i { w with rest := w.rest.drop n } }
    | none => c
  | .writeComplete i ec =>
    match c.writes[i]? with
    | some w =>
      let c := { c with writes := c.writes.eraseIdx i }
      match w.origin with
      | .call id => c.callWritten message id ec
      | .notify n => { c with notified := c.notified ++ [(n, ec)] }
    | none => c
  | .expire i =>
    match c.waits[i]? with
    | some w => { c with waits := c.waits.set i { w with status := .expired } }
    | none => c
  | .waitComplete i =>
    match c.waits[i]? with
    | some w => { c with waits := c.waits.eraseIdx i }.timeoutFired message w
    | none => c
  | .readComplete result =>
    let c := { c with reads := c.reads - 1 }
    match result with
    | .error _ => c
    | .ok objs => { c with inbox := some objs }
  | .dispatchNext =>
    match c.inbox with
    | some (o :: os) =>
      match dispatch o with
      | .ok a => { c with inbox := some os }.perform a
      | .error _ => { c with inbox := none, thrown := true }
    | some [] => { c with inbox := none, reads := c.reads + 1 }
    | none => c
  | .unpackError => { c with inbox := none, thrown := true }
  | .deliver i =>
    match c.delivering[i]? with
    | some d =>
      { c with delivering := c.delivering.eraseIdx i,
               waits := cancelWaits d.entry.call c.waits,
               invoked := c.invoked ++ [⟨d.entry.call, d.ec, d.value⟩] }
    | none => c

/-- The handler dispatches `o`, and `dispatch` returns `a`: the client runs it. -/
theorem step_dispatchNext_ok {c : Client} {o : Obj} {os : List Obj} {a : Action}
    (hin : c.inbox = some (o :: os)) (hd : dispatch o = .ok a) :
    step message c .dispatchNext = { c with inbox := some os }.perform a := by
  simp only [step, hin, hd]

/-- `dispatch` throws: the exception leaves the handler before its `async_read()`. -/
theorem step_dispatchNext_error {c : Client} {o : Obj} {os : List Obj} {err : TypeError}
    (hin : c.inbox = some (o :: os)) (hd : dispatch o = .error err) :
    step message c .dispatchNext = { c with inbox := none, thrown := true } := by
  simp only [step, hin, hd]

/-- Every object dispatched: the handler issues the next read. -/
theorem step_dispatchNext_nil {c : Client} (hin : c.inbox = some []) :
    step message c .dispatchNext = { c with inbox := none, reads := c.reads + 1 } := by
  simp only [step, hin]

/-- One step of the client. -/
def Step (c : Client) (e : Event) (c' : Client) : Prop := Enabled c e ∧ c' = step message c e

/-- The states a client reaches from its construction. -/
inductive Reachable : Client → Prop where
  | init : Reachable init
  | step {c c' : Client} {e : Event} : Reachable c → Step message c e c' → Reachable c'

end Steps

end Client

end Packio
