import Packio.NlJsonRpc.IncrementalBuffers
/-
  Packio.NlJsonRpc.Framing
  ────────────────────────
  **THE FRAMING THE SPEC DESCRIBES, AND WHERE THE CODE LEAVES IT.**

  `frameRef` is the whole-stream framing of the spec (§4.2), as a byte automaton: skip to the
  first `{` or `[`, count that kind of bracket outside string literals (a `"` opens or closes
  one unless an odd run of backslashes precedes it), and emit the bytes from the opener through
  the byte where the count returns to zero.  The code's test for that odd run, `is_escaped(pos)`,
  walks back from `pos` flipping a flag at each backslash: it is the parity of the run of
  backslashes before `pos` (`isEscaped_iff_odd_backslashRun`).

  `incremental_parse` misses it in three places, each shown on a small stream:

    * the search after a chunk starts at `token_pos + 1`, `token_pos` being the old end of
      `buffer_`, so the first byte of a chunk appended to a non-empty `buffer_` is never looked
      at: `{` then `}` emits nothing (`feedAll_brace_split`);
    * with bytes before the opener, the search from position 1 meets the opener again and counts
      it twice: ` {}` emits nothing (`feed_leading_space_counts_opener_twice`);
    * a `"` after a backslash outside a string reaches `assert(token == first_char_)`
      (`feed_escaped_quote_fails_assert`).
-/

namespace Packio.NlJsonRpc

/-! ## §1. The spec's framing. -/

/-- Where the spec's framer is between two bytes. -/
inductive RefState where
  /-- Looking for an opener. -/
  | idle
  /-- Inside a value opened by `opener`: the bracket count, whether inside a string literal,
  whether an odd run of backslashes ends here, and the bytes of the value so far. -/
  | value (opener closer : Byte) (depth : Nat) (inString odd : Bool) (acc : List Byte)
  deriving Repr, DecidableEq

/-- The closer matching an opener. -/
def closerOf (opener : Byte) : Byte := if opener = lbrace then rbrace else rbracket

/-- One byte of the spec's framer, with the value it completes. -/
def refStep : RefState → Byte → RefState × Option (List Byte)
  | .idle, b =>
    if b = lbrace ∨ b = lbracket then (.value b (closerOf b) 1 false false [b], none)
    else (.idle, none)
  | .value o c depth inString odd acc, b =>
    let odd' := b = backslash && !odd
    if b = quote ∧ odd = false then (.value o c depth (!inString) odd' (acc ++ [b]), none)
    else if inString then (.value o c depth inString odd' (acc ++ [b]), none)
    else if b = c then
      if depth = 1 then (.idle, some (acc ++ [b]))
      else (.value o c (depth - 1) inString odd' (acc ++ [b]), none)
    else if b = o then (.value o c (depth + 1) inString odd' (acc ++ [b]), none)
    else (.value o c depth inString odd' (acc ++ [b]), none)

/-- The values the spec's framer emits from a stream, from a given state. -/
def frameRefFrom : RefState → List Byte → List (List Byte)
  | _, [] => []
  | st, b :: bs => (refStep st b).2.toList ++ frameRefFrom (refStep st b).1 bs

/-- `frame_ref(s)`: the values the spec's framer emits from the whole stream `s`. -/
def frameRef (s : List Byte) : List (List Byte) := frameRefFrom .idle s

/-- The state of the spec's framer after a whole stream. -/
def refRun (st : RefState) (bs : List Byte) : RefState := bs.foldl (fun st b => (refStep st b).1) st

/-- The spec's framer reads a stream in two parts as one. -/
theorem frameRefFrom_append (st : RefState) (xs ys : List Byte) :
    frameRefFrom st (xs ++ ys) = frameRefFrom st xs ++ frameRefFrom (refRun st xs) ys := by
  induction xs generalizing st with
  | nil => rfl
  | cons b xs ih => rw [List.cons_append, frameRefFrom, frameRefFrom, ih, List.append_assoc]; rfl

theorem refStep_idle_of_opener {o : Byte} (ho : o = lbrace ∨ o = lbracket) :
    refStep .idle o = (.value o (closerOf o) 1 false false [o], none) := if_pos ho

/-- Inside a value, a byte either completes it or is added to it. -/
theorem refStep_value (o c : Byte) (d : Nat) (inString odd : Bool) (acc : List Byte) (b : Byte) :
    refStep (.value o c d inString odd acc) b = (.idle, some (acc ++ [b])) ∨
      ∃ d' inString' odd', refStep (.value o c d inString odd acc) b =
        (.value o c d' inString' odd' (acc ++ [b]), none) := by
  simp only [refStep]
  by_cases hq : b = quote ∧ odd = false
  · exact .inr ⟨_, _, _, if_pos hq⟩
  rw [if_neg hq]
  by_cases hs : inString = true
  · exact .inr ⟨_, _, _, if_pos hs⟩
  rw [if_neg hs]
  by_cases hc : b = c
  · rw [if_pos hc]
    by_cases h1 : d = 1
    exacts [.inl (if_pos h1), .inr ⟨_, _, _, if_neg h1⟩]
  rw [if_neg hc]
  by_cases ho : b = o
  exacts [.inr ⟨_, _, _, if_pos ho⟩, .inr ⟨_, _, _, if_neg ho⟩]

/-- A value the spec's framer emits whole, up to the stream's last byte, leaves it looking for
the next opener. -/
theorem refRun_of_frameRefFrom (o c : Byte) :
    ∀ (bs : List Byte) {d : Nat} {inString odd : Bool} {acc : List Byte},
      frameRefFrom (.value o c d inString odd acc) bs = [acc ++ bs] →
      refRun (.value o c d inString odd acc) bs = .idle
  | [], _, _, _, _, h => nomatch h
  | b :: bs, d, inString, odd, acc, h => by
    rcases refStep_value o c d inString odd acc b with he | ⟨d', inString', odd', he⟩
    · rw [frameRefFrom, he, Option.toList_some, List.singleton_append, List.cons.injEq] at h
      have hbs : bs = [] := by simpa using h.1
      subst hbs
      simp only [refRun, List.foldl_cons, List.foldl_nil, he]
    · rw [frameRefFrom, he, Option.toList_none, List.nil_append] at h
      simp only [refRun, List.foldl_cons, he]
      exact refRun_of_frameRefFrom o c bs (by rw [h, List.append_assoc, List.singleton_append])

/-- The first value the spec's framer completes from inside a value is the value so far, then
the bytes of the stream up to the one that completes it. -/
theorem frameRefFrom_value_head (o c : Byte) :
    ∀ (bs : List Byte) {d : Nat} {inString odd : Bool} {acc val : List Byte},
      (frameRefFrom (.value o c d inString odd acc) bs).head? = some val →
      ∃ j < bs.length, val = acc ++ bs.take (j + 1)
  | [], _, _, _, _, _, h => nomatch h
  | b :: bs, d, inString, odd, acc, val, h => by
    rcases refStep_value o c d inString odd acc b with he | ⟨d', inString', odd', he⟩
    · rw [frameRefFrom, he, Option.toList_some, List.singleton_append, List.head?_cons,
        Option.some.injEq] at h
      exact ⟨0, Nat.zero_lt_succ _, by rw [← h]; rfl⟩
    · rw [frameRefFrom, he, Option.toList_none, List.nil_append] at h
      obtain ⟨j, hj, rfl⟩ := frameRefFrom_value_head o c bs h
      exact ⟨j + 1, Nat.succ_lt_succ hj, by rw [List.append_assoc]; rfl⟩

/-- A value the spec's framer completes only at the end of `xs ++ ys`, `ys` not empty, is not
completed within `xs`. -/
theorem frameRefFrom_nil_of_prefix {o c : Byte} {d : Nat} {inString odd : Bool}
    {acc xs ys : List Byte} (hys : ys ≠ [])
    (h : frameRefFrom (.value o c d inString odd acc) (xs ++ ys) = [acc ++ xs ++ ys]) :
    frameRefFrom (.value o c d inString odd acc) xs = [] := by
  rw [frameRefFrom_append] at h
  cases hx : frameRefFrom (.value o c d inString odd acc) xs with
  | nil => rfl
  | cons x rest =>
    obtain ⟨j, hj, hval⟩ := frameRefFrom_value_head o c xs (congrArg List.head? hx)
    rw [hx, List.cons_append, List.cons.injEq] at h
    have hlen := congrArg List.length (h.1.symm.trans hval)
    have hys' : 0 < ys.length := List.length_pos.mpr hys
    simp only [List.length_append, List.length_take] at hlen
    omega

/-! ## §2. Escapes. -/

/-- The spec's reading of an escape: the length of the run of backslashes that ends at
`pos - 1`, the bytes before `pos` read backwards for as long as they are backslashes. -/
def backslashRun (buffer : List Byte) (pos : Nat) : Nat :=
  ((buffer.take pos).reverse.takeWhile fun b => b = backslash).length

theorem take_succ_getD {l : List Byte} {p : Nat} (hp : p < l.length) :
    l.take (p + 1) = l.take p ++ [l.getD p 0] := by
  rw [List.take_succ, List.getD_eq_getElem?_getD, List.getElem?_eq_getElem hp]
  rfl

/-- One more byte before `pos`: a backslash extends the run, any other byte leaves none. -/
theorem backslashRun_succ {buffer : List Byte} {p : Nat} (hp : p < buffer.length) :
    backslashRun buffer (p + 1) =
      if buffer.getD p 0 = backslash then backslashRun buffer p + 1 else 0 := by
  rw [backslashRun, take_succ_getD hp, List.reverse_append, List.reverse_singleton,
    List.singleton_append, List.takeWhile_cons]
  by_cases hb : buffer.getD p 0 = backslash
  · rw [if_pos (decide_eq_true hb), if_pos hb]; rfl
  · rw [if_neg fun h => hb (of_decide_eq_true h), if_neg hb]; rfl

/-- Before position 4 of `\ a \ \` the run is the last two backslashes. -/
example : backslashRun [backslash, 0x61, backslash, backslash] 4 = 2 := by decide

/-- The loop of `is_escaped(pos)` flips `escaped` once for each backslash of the run before
`pos`. -/
theorem isEscapedFrom_eq_run {buffer : List Byte} :
    ∀ {pos : Nat}, pos ≤ buffer.length → ∀ e,
      IncrementalBuffers.isEscapedFrom buffer pos e =
        if backslashRun buffer pos % 2 = 0 then e else !e
  | 0, _, _ => rfl
  | p + 1, h, e => by
    rw [IncrementalBuffers.isEscapedFrom, backslashRun_succ (by omega)]
    by_cases hb : buffer.getD p 0 = backslash
    · rw [if_pos hb, if_pos hb, isEscapedFrom_eq_run (by omega) (!e)]
      by_cases hr : backslashRun buffer p % 2 = 0
      · rw [if_pos hr, if_neg (by omega)]
      · rw [if_neg hr, if_pos (by omega), Bool.not_not]
    · rw [if_neg hb, if_neg hb]; rfl

/-- **`is_escaped` is the parity of the backslashes before `pos`.**  For every content of
`buffer_` and every position up to its end, `is_escaped(pos)` holds exactly when the run of
backslashes ending at `pos - 1` has odd length. -/
theorem isEscaped_iff_odd_backslashRun (buffer : List Byte) (pos : Nat)
    (hpos : pos ≤ buffer.length) :
    IncrementalBuffers.isEscaped buffer pos = true ↔ backslashRun buffer pos % 2 = 1 := by
  rw [IncrementalBuffers.isEscaped, isEscapedFrom_eq_run hpos]
  by_cases hr : backslashRun buffer pos % 2 = 0
  · rw [if_pos hr]; exact iff_of_false Bool.false_ne_true (by omega)
  · rw [if_neg hr]; exact iff_of_true rfl (by omega)

/-- The law at a quote after three backslashes, a run of odd length. -/
theorem isEscaped_after_three_backslashes :
    3 ≤ [backslash, backslash, backslash, quote].length ∧
      (IncrementalBuffers.isEscaped [backslash, backslash, backslash, quote] 3 = true ↔
        backslashRun [backslash, backslash, backslash, quote] 3 % 2 = 1) :=
  ⟨by decide, isEscaped_iff_odd_backslashRun _ 3 (by decide)⟩

/-! ## §3. Feeding a stream in chunks. -/

namespace IncrementalBuffers

/-- `feed` each chunk in order; `none` when an `assert` aborts. -/
def feedAll (ndebug : Bool) (chunks : List (List Byte)) (s : IncrementalBuffers) :
    Option IncrementalBuffers :=
  chunks.foldlM (fun s c => s.feed ndebug c) s

theorem feedAll_append (ndebug : Bool) (xs ys : List (List Byte)) (s : IncrementalBuffers) :
    feedAll ndebug (xs ++ ys) s = (feedAll ndebug xs s).bind (feedAll ndebug ys) := by
  rw [feedAll, List.foldlM_append]; rfl

/-- The buffers a fresh framer has queued after the chunks, in order. -/
def emitted (ndebug : Bool) (chunks : List (List Byte)) : Option (List (List Byte)) :=
  (feedAll ndebug chunks fresh).map (·.serializedObjects)

/-! ## §4. Where the code leaves the spec. -/

/-- One value `{}` fed as `{` then `}` is never emitted: the `}` is the first byte of the
second chunk, and the search after it starts one byte later.  `get_parsed_buffer` returns
`std::nullopt`, and `buffer_` holds `{}` still open. -/
theorem feedAll_brace_split (ndebug : Bool) :
    ((feedAll ndebug [[lbrace], [rbrace]] fresh).map fun s =>
      (s.getParsedBuffer.1, s.buffer, s.depth)) = some (none, [lbrace, rbrace], 1) := by
  cases ndebug <;> decide

/-- The emitted buffers depend on the chunking, and differ from `frame_ref`: `{}` whole is
emitted, `{}` as `{` and `}` is not. -/
theorem emitted_depends_on_chunking (ndebug : Bool) :
    emitted ndebug [[lbrace, rbrace]] = some [[lbrace, rbrace]] ∧
      emitted ndebug [[lbrace], [rbrace]] = some [] ∧
      frameRef [lbrace, rbrace] = [[lbrace, rbrace]] := by
  cases ndebug <;> decide

/-- A space before `{}` makes the search from position 1 meet the opener again: `depth_` ends
at 1 and nothing is emitted. -/
theorem feed_leading_space_counts_opener_twice (ndebug : Bool) :
    ((fresh.feed ndebug [0x20, lbrace, rbrace]).map fun s => (s.serializedObjects, s.depth)) =
      some ([], 1) ∧ frameRef [0x20, lbrace, rbrace] = [[lbrace, rbrace]] := by
  cases ndebug <;> decide

/-- `{\"}`: the `"` is escaped and outside a string, so it reaches
`assert(token == first_char_)`.  A debug build aborts there; a release build counts it as an
opener, so `depth_` ends at 1 and the value is never emitted. -/
theorem feed_escaped_quote_fails_assert :
    fresh.feed false [lbrace, backslash, quote, rbrace] = none ∧
      ((fresh.feed true [lbrace, backslash, quote, rbrace]).map fun s =>
        (s.serializedObjects, s.depth)) = some ([], 1) := by
  decide

end IncrementalBuffers

end Packio.NlJsonRpc
