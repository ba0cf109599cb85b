import Mathlib.Algebra.Group.Int
/-
  Packio.Client.Msgpack
  ─────────────────────
  **WHAT THE CLIENT RECEIVES, AND THE ONE CONVERSION IT APPLIES.**

  The unpacker hands the client `msgpack::object`s (`Obj`): every kind msgpack-c has, with the
  value it carries.  The client reads them through `object::as<int>()` (`asInt`), msgpack-c's
  integer conversion, which throws `msgpack::type_error` for anything that is not an integer
  inside `int`.  Call ids are `uint32_t`; the client moves them through `int` and back
  (`toCInt`, `toKey`), the conversions C++ defines modulo 2^32.
-/

namespace Packio

/-- The value of a msgpack `NEGATIVE_INTEGER`: an `int64_t` below zero. -/
structure NegInt64 where
  val : Int
  lt_zero : val < 0
  ge_min : -2 ^ 63 ≤ val
  deriving DecidableEq

/-- `msgpack::object`: its `type` and the member of `via` that type uses. -/
inductive Obj where
  | nil
  | boolean (b : Bool)
  | positiveInteger (u : UInt64)
  | negativeInteger (i : NegInt64)
  | float32 (bits : UInt32)
  | float64 (bits : UInt64)
  | str (s : String)
  | bin (b : List UInt8)
  | array (xs : List Obj)
  | map (kvs : List (Obj × Obj))
  | ext (type : UInt8) (data : List UInt8)

/-- `type == msgpack::type::NIL` -/
def Obj.isNil : Obj → Bool
  | .nil => true
  | _ => false

/-- The exception `as<int>()` throws. -/
inductive TypeError where
  | typeError
  deriving Repr, DecidableEq

/-- `object::as<int>()`: integers inside `int` convert, everything else throws. -/
def asInt : Obj → Except TypeError Int
  | .positiveInteger u => if u.toNat ≤ 2 ^ 31 - 1 then .ok u.toNat else .error .typeError
  | .negativeInteger i => if -2 ^ 31 ≤ i.val then .ok i.val else .error .typeError
  | _ => .error .typeError

/-- A `uint32_t` passed as an `int` (as `async_call`'s write handler passes its `id` to
`maybe_call_handler`): the value modulo 2^32 in `[-2^31, 2^31)`. -/
def toCInt (u : UInt32) : Int := if u.toNat < 2 ^ 31 then u.toNat else u.toNat - 2 ^ 32

/-- An `int` used as a key of `std::map<uint32_t, ...>`: its value modulo 2^32. -/
def toKey (i : Int) : UInt32 := UInt32.ofNat (i % 2 ^ 32).toNat

theorem toKey_toCInt (u : UInt32) : toKey (toCInt u) = u := by
  have hu : u.toNat < 2 ^ 32 := u.toNat_lt_size
  have hmod : (toCInt u % 2 ^ 32).toNat = u.toNat := by
    unfold toCInt; split_ifs <;> omega
  apply UInt32.toNat.inj
  rw [toKey, hmod, UInt32.toNat_ofNat_of_lt hu]

/-- The `error_code` a handler receives: packio's own codes, or the error the socket reported
(`operation_aborted`, `broken_pipe`, ...), by its value. -/
inductive ErrorCode where
  | success
  | timeout
  | callError
  | system (value : Nat)
  deriving Repr, DecidableEq

/-- `explicit operator bool`: the code is an error. -/
def ErrorCode.isError : ErrorCode → Bool
  | .success => false
  | .system value => value ≠ 0
  | _ => true

end Packio
