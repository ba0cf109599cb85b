import Mathlib.Data.List.Basic
/-
  Packio.NlJsonRpc.IncrementalBuffers
  ───────────────────────────────────
  **THE JSON FRAMER, AS THE CODE COMPUTES IT.**

  `incremental_buffers` (`nl_json_rpc/incremental_buffers.h`) cuts a byte stream into JSON
  values without parsing them: it remembers the opener of the value in progress (`{` or `[`),
  counts openers and closers of that kind outside string literals, and when the count returns
  to zero queues `raw_buffer_[0, token_pos]` and moves the rest to the front.

  The object is a record (`IncrementalBuffers`), `buffer_` being the view
  `raw_buffer_[0, bufferSize)`.  Every member function is a function on it; `assert` aborts
  (`none`) unless `NDEBUG` is defined, which every function takes as `ndebug`.

  The `while (true)` loop of `incremental_parse` is `scan`: each
  `find_first_of(tokens_, token_pos + 1)` passes over the bytes that are not tokens, so `scan`
  takes the bytes of `buffer_` one at a time, counting down those left, and hands each token
  to `processToken`, the body of the loop.
-/

namespace Packio.NlJsonRpc

/-- A byte of the stream (`char`). -/
abbrev Byte := UInt8

/-- `'{'` -/
def lbrace : Byte := 0x7b
/-- `'}'` -/
def rbrace : Byte := 0x7d
/-- `'['` -/
def lbracket : Byte := 0x5b
/-- `']'` -/
def rbracket : Byte := 0x5d
/-- `'"'` -/
def quote : Byte := 0x22
/-- `'\\'` -/
def backslash : Byte := 0x5c

/-! ## §1. The standard library calls the framer makes. -/

/-- `std::string_view::find_first_of(chars, pos)`: the first position at or after `pos` whose
byte is one of `chars` (`none` for `npos`). -/
def findFirstOf (s : List Byte) (chars : List Byte) (pos : Nat) : Option Nat :=
  ((s.drop pos).findIdx? fun b => decide (b ∈ chars)).map (· + pos)

/-- `std::string::resize(n)`: truncate, or pad with `'\0'`. -/
def resize (s : List Byte) (n : Nat) : List Byte :=
  s.take n ++ List.replicate (n - s.length) 0

/-- `assert(c)`: the process aborts when `c` fails, unless `NDEBUG` is defined. -/
def cassert (ndebug c : Bool) : Option Unit :=
  if c || ndebug then some () else none

theorem cassert_true (ndebug : Bool) : cassert ndebug true = some () := rfl

/-! ## §2. The object. -/

/-- The members of `incremental_buffers`.  `buffer_` is the view `raw_buffer_[0, bufferSize)`:
the code rebuilds it from `raw_buffer_.data()` before every read of its bytes. -/
structure IncrementalBuffers where
  /-- `in_string_` -/
  inString : Bool
  /-- `depth_` (an `int`; reaching its bounds takes 2^31 unmatched closers, not modelled) -/
  depth : Int
  /-- `first_char_`: the opener of the value in progress -/
  firstChar : Byte
  /-- `last_char_`: its closer -/
  lastChar : Byte
  /-- `tokens_`: the bytes the loop stops at -/
  tokens : List Byte
  /-- `buffer_.size()` -/
  bufferSize : Nat
  /-- `raw_buffer_` -/
  rawBuffer : List Byte
  /-- `serialized_objects_`, front first -/
  serializedObjects : List (List Byte)
  deriving Repr, DecidableEq

namespace IncrementalBuffers

/-- A fresh `incremental_buffers`.  The code leaves the first five members uninitialised; they
are read only after `initialize`, which runs while `buffer_` is empty. -/
def fresh : IncrementalBuffers :=
  { inString := false, depth := 0, firstChar := 0, lastChar := 0, tokens := [],
    bufferSize := 0, rawBuffer := [], serializedObjects := [] }

/-- The bytes of `buffer_`. -/
def buffer (s : IncrementalBuffers) : List Byte := s.rawBuffer.take s.bufferSize

/-- `available_buffers()` -/
def availableBuffers (s : IncrementalBuffers) : Nat := s.serializedObjects.length

/-- `get_parsed_buffer()`: the front of the queue, popped. -/
def getParsedBuffer (s : IncrementalBuffers) : Option (List Byte) × IncrementalBuffers :=
  match s.serializedObjects with
  | [] => (none, s)
  | b :: rest => (some b, { s with serializedObjects := rest })

/-- `in_place_buffer()`, as the offset into `raw_buffer_` it points at. -/
def inPlaceBuffer (s : IncrementalBuffers) : Nat := s.bufferSize

/-- `in_place_buffer_capacity()` -/
def inPlaceBufferCapacity (s : IncrementalBuffers) : Nat := s.rawBuffer.length - s.bufferSize

/-- `reserve_in_place_buffer(bytes)` -/
def reserveInPlaceBuffer (bytes : Nat) (s : IncrementalBuffers) : IncrementalBuffers :=
  if s.inPlaceBufferCapacity ≥ bytes then s
  else { s with rawBuffer := resize s.rawBuffer (s.bufferSize + bytes) }

/-- Writing `data` at `in_place_buffer()`: `std::copy` in `feed`, or a read from the socket. -/
def writeInPlaceBuffer (data : List Byte) (s : IncrementalBuffers) : IncrementalBuffers :=
  { s with rawBuffer := s.rawBuffer.take s.inPlaceBuffer ++ data ++
      s.rawBuffer.drop (s.inPlaceBuffer + data.length) }

/-! ## §3. `incremental_parse`. -/

/-- The loop of `is_escaped(pos)`: walking back from `pos`, each backslash flips `escaped`, and
the first other byte stops the walk. -/
def isEscapedFrom (buffer : List Byte) : Nat → Bool → Bool
  | 0, escaped => escaped
  | pos + 1, escaped =>
    if buffer.getD pos 0 = backslash then isEscapedFrom buffer pos (!escaped) else escaped

/-- `is_escaped(pos)` -/
def isEscaped (buffer : List Byte) (pos : Nat) : Bool := isEscapedFrom buffer pos false

theorem isEscapedFrom_not (buffer : List Byte) (n : Nat) (e : Bool) :
    isEscapedFrom buffer n (!e) = !isEscapedFrom buffer n e := by
  induction n generalizing e with
  | zero => rfl
  | succ n ih =>
    simp only [isEscapedFrom]
    split_ifs
    · exact ih (!e)
    · rfl

/-- `is_escaped(p + 1)`: the byte at `p` is a backslash after an even run of them. -/
theorem isEscaped_succ (buffer : List Byte) (p : Nat) :
    isEscaped buffer (p + 1) = (decide (buffer.getD p 0 = backslash) && !isEscaped buffer p) := by
  unfold isEscaped
  simp only [isEscapedFrom]
  split_ifs with h
  · rw [isEscapedFrom_not, decide_eq_true h, Bool.true_and]
  · rw [decide_eq_false h, Bool.false_and]

/-- `is_escaped(pos)` reads only the bytes before `pos`. -/
theorem isEscapedFrom_append {buffer : List Byte} (more : List Byte) :
    ∀ {n : Nat}, n ≤ buffer.length → ∀ e,
      isEscapedFrom (buffer ++ more) n e = isEscapedFrom buffer n e
  | 0, _, _ => rfl
  | n + 1, h, e => by
    have hg : (buffer ++ more).getD n 0 = buffer.getD n 0 := by
      rw [List.getD_eq_getElem?_getD, List.getElem?_append_left (by omega),
        ← List.getD_eq_getElem?_getD]
    simp only [isEscapedFrom, hg, @isEscapedFrom_append buffer more n (by omega)]

/-- The emission branch: `raw_buffer_[0, token_pos]` is queued, the rest of `raw_buffer_`
(`substr(token_pos + 1)`) becomes the new `raw_buffer_`, and `buffer_` keeps the bytes of the
old one after `token_pos`. -/
def emit (s : IncrementalBuffers) (tokenPos : Nat) : IncrementalBuffers :=
  { s with
    serializedObjects := s.serializedObjects ++ [resize s.rawBuffer (tokenPos + 1)]
    rawBuffer := s.rawBuffer.drop (tokenPos + 1)
    bufferSize := s.bufferSize - (tokenPos + 1) }

section Parse

variable (ndebug : Bool)

/-- `initialize(first_char)`: record the opener, its closer and the tokens. -/
def initFirstChar (firstChar : Byte) (s : IncrementalBuffers) : Option IncrementalBuffers :=
  if firstChar = lbrace then
    some { s with firstChar, lastChar := rbrace, tokens := [lbrace, rbrace, quote],
                  depth := 1, inString := false }
  else (cassert ndebug (firstChar = lbracket)).map fun _ =>
    { s with firstChar, lastChar := rbracket, tokens := [lbracket, rbracket, quote],
             depth := 1, inString := false }

/-- One pass of the loop body at the token `buffer_[token_pos]`: the new state, and where the
next search starts.  After an emission `token_pos -= buffer_size` wraps to `SIZE_MAX`, so the
next search starts at `0`. -/
def processToken (s : IncrementalBuffers) (tokenPos : Nat) :
    Option (IncrementalBuffers × Nat) :=
  let token := s.buffer.getD tokenPos 0
  if token = quote ∧ isEscaped s.buffer tokenPos = false then
    some ({ s with inString := !s.inString }, tokenPos + 1)
  else if s.inString then some (s, tokenPos + 1)
  else if token = s.lastChar then
    if s.depth - 1 = 0 then some (emit { s with depth := 0 } tokenPos, 0)
    else some ({ s with depth := s.depth - 1 }, tokenPos + 1)
  else (cassert ndebug (token = s.firstChar)).map fun _ =>
    ({ s with depth := s.depth + 1 }, tokenPos + 1)

/-- The `while (true)` loop from the search start `pos`, with `n` bytes of `buffer_` left. -/
def scan : Nat → Nat → IncrementalBuffers → Option IncrementalBuffers
  | 0, _, s => some s
  | n + 1, pos, s =>
    if s.buffer.getD pos 0 ∈ s.tokens then
      match processToken ndebug s pos with
      | some (s', next) => scan n next s'
      | none => none
    else scan n (pos + 1) s

/-- A pass of the loop at a token: the loop goes on where the body leaves it. -/
theorem scan_token {n pos next : Nat} {s s' : IncrementalBuffers}
    (h : s.buffer.getD pos 0 ∈ s.tokens) (hpt : processToken ndebug s pos = some (s', next)) :
    scan ndebug (n + 1) pos s = scan ndebug n next s' := by
  rw [scan, if_pos h, hpt]

/-- A byte that is no token is passed over by `find_first_of`. -/
theorem scan_skip {n pos : Nat} {s : IncrementalBuffers} (h : s.buffer.getD pos 0 ∉ s.tokens) :
    scan ndebug (n + 1) pos s = scan ndebug n (pos + 1) s := by
  rw [scan, if_neg h]

/-- `incremental_parse` after its first block: `buffer_` grows by `bytes` and the search
resumes at `token_pos + 1`, `token_pos` being the old `buffer_.size()`. -/
def parseAppended (bytes : Nat) (s : IncrementalBuffers) : Option IncrementalBuffers :=
  let tokenPos := s.bufferSize
  let s := { s with bufferSize := s.bufferSize + bytes }
  scan ndebug (s.bufferSize - (tokenPos + 1)) (tokenPos + 1) s

/-- `incremental_parse(bytes)`: with `buffer_` empty, the new bytes are dropped unless they
hold a `{` or `[`, whose kind `initFirstChar` records. -/
def incrementalParse (bytes : Nat) (s : IncrementalBuffers) : Option IncrementalBuffers :=
  if s.bufferSize = 0 then
    let newData := (s.rawBuffer.drop s.inPlaceBuffer).take bytes
    match findFirstOf newData [lbrace, lbracket] 0 with
    | none => some s
    | some firstPos => (initFirstChar ndebug (newData.getD firstPos 0) s).bind
        (parseAppended ndebug bytes)
  else parseAppended ndebug bytes s

/-- `in_place_buffer_consumed(bytes)` -/
def inPlaceBufferConsumed (bytes : Nat) (s : IncrementalBuffers) :
    Option IncrementalBuffers :=
  if bytes = 0 then some s else incrementalParse ndebug bytes s

/-- `data` written at `in_place_buffer()`, then `in_place_buffer_consumed(data.size())`: what
a reader of the socket does after `reserve_in_place_buffer`. -/
def consume (data : List Byte) (s : IncrementalBuffers) : Option IncrementalBuffers :=
  inPlaceBufferConsumed ndebug data.length (s.writeInPlaceBuffer data)

/-- `feed(data)` -/
def feed (data : List Byte) (s : IncrementalBuffers) : Option IncrementalBuffers :=
  inPlaceBufferConsumed ndebug data.length
    (writeInPlaceBuffer data (reserveInPlaceBuffer data.length s))

end Parse

end IncrementalBuffers

end Packio.NlJsonRpc
