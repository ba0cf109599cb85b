import Packio.NlJsonRpc.IncrementalBuffers
/-
  Packio.NlJsonRpc.Representation
  ───────────────────────────────
  **NO BYTE IS LOST OR DUPLICATED.**

  Whatever a user does to an `incremental_buffers` (`feed`, `reserve_in_place_buffer`, a write
  at `in_place_buffer()` followed by `in_place_buffer_consumed`, `get_parsed_buffer`), two facts
  hold at every state it reaches:

    * `buffer_` lies inside `raw_buffer_` (`Fits`), so `in_place_buffer_capacity()` does not
      wrap and a write of at most that many bytes stays inside `raw_buffer_`;
    * the buffers emitted so far, in order, then `buffer_`, are the consumed chunks joined,
      less exactly the chunks that came while `buffer_` was empty and held no `{` and no `[`.

  The loop is handled once: `processToken_spec` says what one pass of its body does to the
  queued bytes and `buffer_` (`content`), `scan_spec` lifts it to the whole loop, and every
  public member gets one spec lemma from these.  `framer_conserves_bytes` is the run lemma.
-/

namespace Packio.NlJsonRpc
namespace IncrementalBuffers

/-! ## §1. What the object holds. -/

/-- The queued buffers, then the bytes of `buffer_`. -/
def content (s : IncrementalBuffers) : List Byte := s.serializedObjects.flatten ++ s.buffer

/-- `buffer_` lies inside `raw_buffer_`. -/
def Fits (s : IncrementalBuffers) : Prop := s.bufferSize ≤ s.rawBuffer.length

theorem resize_of_le {s : List Byte} {n : Nat} (h : n ≤ s.length) : resize s n = s.take n := by
  simp [resize, Nat.sub_eq_zero_of_le h]

theorem length_resize (s : List Byte) (n : Nat) : (resize s n).length = n := by
  simp only [resize, List.length_append, List.length_take, List.length_replicate]
  omega

theorem findFirstOf_eq_none_iff {s chars : List Byte} {pos : Nat} :
    findFirstOf s chars pos = none ↔ ∀ b ∈ s.drop pos, b ∉ chars := by
  simp [findFirstOf, List.findIdx?_eq_none_iff]

/-- Queuing `raw_buffer_[0, p]` and keeping the rest of `buffer_` moves no byte. -/
theorem emit_content {s : IncrementalBuffers} {p : Nat} (hp : p < s.bufferSize) (hs : s.Fits) :
    (s.emit p).content = s.content ∧ (s.emit p).Fits := by
  unfold Fits at hs
  refine ⟨?_, by simp only [Fits, emit, List.length_drop]; omega⟩
  simp only [content, emit, buffer, List.flatten_append, List.flatten_cons, List.flatten_nil,
    List.append_nil, List.append_assoc, resize_of_le (show p + 1 ≤ s.rawBuffer.length by omega)]
  rw [← List.take_add, Nat.add_sub_cancel' (show p + 1 ≤ s.bufferSize by omega)]

/-! ## §2. The loop. -/

section Loop

variable {ndebug : Bool}

/-- What one pass of the loop body can do: flip `in_string_`, pass the token over, emit, or move
`depth_` by one. -/
theorem processToken_eq_some {s s' : IncrementalBuffers} {p next : Nat}
    (h : processToken ndebug s p = some (s', next)) :
    (s' = { s with inString := !s.inString } ∧ next = p + 1) ∨ (s' = s ∧ next = p + 1) ∨
      (s' = emit { s with depth := 0 } p ∧ next = 0) ∨
      (s' = { s with depth := s.depth - 1 } ∧ next = p + 1) ∨
      (s' = { s with depth := s.depth + 1 } ∧ next = p + 1) := by
  simp only [processToken] at h
  by_cases hq : s.buffer.getD p 0 = quote ∧ isEscaped s.buffer p = false
  · rw [if_pos hq] at h; cases h; exact .inl ⟨rfl, rfl⟩
  rw [if_neg hq] at h
  by_cases hs : s.inString = true
  · rw [if_pos hs] at h; cases h; exact .inr (.inl ⟨rfl, rfl⟩)
  rw [if_neg hs] at h
  by_cases hc : s.buffer.getD p 0 = s.lastChar
  · rw [if_pos hc] at h
    by_cases h0 : s.depth - 1 = 0
    · rw [if_pos h0] at h; cases h; exact .inr (.inr (.inl ⟨rfl, rfl⟩))
    · rw [if_neg h0] at h; cases h; exact .inr (.inr (.inr (.inl ⟨rfl, rfl⟩)))
  rw [if_neg hc] at h
  obtain ⟨_, -, h⟩ := Option.map_eq_some'.mp h
  cases h; exact .inr (.inr (.inr (.inr ⟨rfl, rfl⟩)))

/-- One pass of the loop body moves no byte, keeps `buffer_` inside `raw_buffer_`, and leaves
as many bytes after the next search start as there were after the token. -/
theorem processToken_spec {s s' : IncrementalBuffers} {p next : Nat}
    (h : processToken ndebug s p = some (s', next)) (hp : p < s.bufferSize) (hs : s.Fits) :
    s'.content = s.content ∧ s'.Fits ∧ next + (s.bufferSize - (p + 1)) = s'.bufferSize := by
  rcases processToken_eq_some h with ⟨rfl, rfl⟩ | ⟨rfl, rfl⟩ | ⟨rfl, rfl⟩ | ⟨rfl, rfl⟩ |
    ⟨rfl, rfl⟩
  · exact ⟨rfl, hs, by simp only; omega⟩
  · exact ⟨rfl, hs, by omega⟩
  · obtain ⟨hc, hf⟩ := emit_content (s := { s with depth := 0 }) hp hs
    exact ⟨hc, hf, by simp only [Nat.zero_add, emit]⟩
  · exact ⟨rfl, hs, by simp only; omega⟩
  · exact ⟨rfl, hs, by simp only; omega⟩

/-- The whole loop moves no byte and keeps `buffer_` inside `raw_buffer_`. -/
theorem scan_spec {n pos : Nat} {s s' : IncrementalBuffers} (h : scan ndebug n pos s = some s')
    (hn : n ≤ s.bufferSize - pos) (hs : s.Fits) : s'.content = s.content ∧ s'.Fits := by
  induction n generalizing pos s with
  | zero => cases h; exact ⟨rfl, hs⟩
  | succ n ih =>
    simp only [scan] at h
    split_ifs at h
    · split at h
      · rename_i s₁ next hpt
        obtain ⟨hc, hf, hsize⟩ := processToken_spec hpt (by omega) hs
        obtain ⟨hc', hf'⟩ := ih h (by omega) hf
        exact ⟨hc'.trans hc, hf'⟩
      · cases h
    · exact ih h (by omega) hs

/-- `incremental_parse` after its first block: `buffer_` takes the next `bytes` bytes of
`raw_buffer_`, and the loop moves none of them. -/
theorem parseAppended_spec {s s' : IncrementalBuffers} {bytes : Nat}
    (h : parseAppended ndebug bytes s = some s')
    (hfit : s.bufferSize + bytes ≤ s.rawBuffer.length) :
    s'.Fits ∧
      s'.content = s.serializedObjects.flatten ++ s.rawBuffer.take (s.bufferSize + bytes) := by
  obtain ⟨hc, hf⟩ := scan_spec h le_rfl hfit
  exact ⟨hf, hc⟩

theorem initFirstChar_frame {s s' : IncrementalBuffers} {c : Byte}
    (h : initFirstChar ndebug c s = some s') :
    s'.bufferSize = s.bufferSize ∧ s'.rawBuffer = s.rawBuffer ∧
      s'.serializedObjects = s.serializedObjects := by
  unfold initFirstChar at h
  split_ifs at h
  · cases h; exact ⟨rfl, rfl, rfl⟩
  · obtain ⟨_, -, h⟩ := Option.map_eq_some'.mp h
    cases h; exact ⟨rfl, rfl, rfl⟩

/-- A chunk the framer drops: it came while `buffer_` was empty and holds no `{` and no `[`. -/
def Dropped (wasEmpty : Bool) (data : List Byte) : Prop :=
  wasEmpty = true ∧ lbrace ∉ data ∧ lbracket ∉ data

instance (wasEmpty : Bool) (data : List Byte) : Decidable (Dropped wasEmpty data) :=
  inferInstanceAs (Decidable (_ ∧ _))

/-- What the framer keeps of a chunk. -/
def keptOf (wasEmpty : Bool) (data : List Byte) : List Byte :=
  if Dropped wasEmpty data then [] else data

/-- `incremental_parse(bytes)` where the `bytes` bytes at `in_place_buffer()` are `data`: the
framer keeps `data` unless it drops it whole. -/
theorem incrementalParse_spec {s s' : IncrementalBuffers} {data : List Byte}
    (h : incrementalParse ndebug data.length s = some s') (hs : s.Fits)
    (hfit : s.bufferSize + data.length ≤ s.rawBuffer.length)
    (hdata : (s.rawBuffer.drop s.bufferSize).take data.length = data) :
    s'.Fits ∧ s'.content = s.content ++ keptOf (s.bufferSize = 0) data := by
  have happ : s.rawBuffer.take (s.bufferSize + data.length) = s.buffer ++ data := by
    rw [List.take_add, hdata]; rfl
  unfold incrementalParse at h
  split_ifs at h with hz
  · simp only [inPlaceBuffer] at h
    rw [hdata] at h
    split at h
    · rename_i hnone
      have hno := findFirstOf_eq_none_iff.mp hnone
      have hdrop : Dropped true data :=
        ⟨rfl, fun hb => hno _ hb (by simp), fun hb => hno _ hb (by simp)⟩
      cases h
      exact ⟨hs, by simp [keptOf, hz, hdrop]⟩
    · rename_i firstPos hsome
      obtain ⟨s₁, hinit, happ₁⟩ := Option.bind_eq_some.mp h
      obtain ⟨hsz, hraw, hser⟩ := initFirstChar_frame hinit
      obtain ⟨hf, hc⟩ := parseAppended_spec happ₁ (by rw [hsz, hraw]; exact hfit)
      have hbrace : ¬ Dropped true data := by
        rintro ⟨-, h₁, h₂⟩
        rw [findFirstOf_eq_none_iff.mpr (fun b hb hmem => by
          simp only [List.mem_cons, List.not_mem_nil, or_false] at hmem
          rcases hmem with rfl | rfl
          · exact h₁ (by simpa using hb)
          · exact h₂ (by simpa using hb))] at hsome
        cases hsome
      refine ⟨hf, ?_⟩
      rw [hc, hsz, hraw, hser, happ]
      simp [content, keptOf, hz, hbrace]
  · obtain ⟨hf, hc⟩ := parseAppended_spec h hfit
    refine ⟨hf, ?_⟩
    rw [hc, happ, keptOf, if_neg (fun hd => hz (by simpa using hd.1))]
    simp [content]

/-! ## §3. The public members. -/

/-- `reserve_in_place_buffer(bytes)` leaves `buffer_` and the queue alone and makes room for
`bytes` bytes at `in_place_buffer()`. -/
theorem reserveInPlaceBuffer_spec (bytes : Nat) {s : IncrementalBuffers} (hs : s.Fits) :
    (s.reserveInPlaceBuffer bytes).bufferSize = s.bufferSize ∧
      (s.reserveInPlaceBuffer bytes).content = s.content ∧
      s.bufferSize + bytes ≤ (s.reserveInPlaceBuffer bytes).rawBuffer.length := by
  unfold Fits at hs
  unfold reserveInPlaceBuffer
  split_ifs with hcap
  · exact ⟨rfl, rfl, by unfold inPlaceBufferCapacity at hcap; omega⟩
  · refine ⟨rfl, ?_, by simp only [length_resize, le_refl]⟩
    simp only [content, buffer, resize, List.take_append_of_le_length
      (show s.bufferSize ≤ (s.rawBuffer.take (s.bufferSize + bytes)).length by
        rw [List.length_take]; omega),
      List.take_take, Nat.min_eq_left (Nat.le_add_right _ _)]

/-- A write of `data` at `in_place_buffer()`, with room for it, leaves `buffer_` alone and puts
`data` right after it. -/
theorem writeInPlaceBuffer_spec {s : IncrementalBuffers} {data : List Byte}
    (hroom : s.bufferSize + data.length ≤ s.rawBuffer.length) :
    (s.writeInPlaceBuffer data).bufferSize = s.bufferSize ∧
      (s.writeInPlaceBuffer data).serializedObjects = s.serializedObjects ∧
      (s.writeInPlaceBuffer data).rawBuffer.length = s.rawBuffer.length ∧
      (s.writeInPlaceBuffer data).content = s.content ∧
      ((s.writeInPlaceBuffer data).rawBuffer.drop s.bufferSize).take data.length = data := by
  have hlen : (s.rawBuffer.take s.bufferSize).length = s.bufferSize := by
    rw [List.length_take]; omega
  refine ⟨rfl, rfl, by simp only [writeInPlaceBuffer, inPlaceBuffer, List.length_append,
    List.length_take, List.length_drop]; omega, ?_, ?_⟩
  · simp only [content, buffer, writeInPlaceBuffer, inPlaceBuffer, List.append_assoc]
    rw [List.take_left' hlen]
  · simp only [writeInPlaceBuffer, inPlaceBuffer, List.append_assoc]
    rw [List.drop_left' hlen, List.take_left]

theorem consume_spec {s s' : IncrementalBuffers} {data : List Byte}
    (h : consume ndebug data s = some s') (hs : s.Fits)
    (hroom : s.bufferSize + data.length ≤ s.rawBuffer.length) :
    s'.Fits ∧ s'.content = s.content ++ keptOf (s.bufferSize = 0) data := by
  obtain ⟨hsz, -, hlen, hc, hdata⟩ := writeInPlaceBuffer_spec hroom
  unfold consume inPlaceBufferConsumed at h
  split_ifs at h with h0
  · cases h
    refine ⟨by unfold Fits; rw [hsz, hlen]; exact hs, ?_⟩
    rw [hc, List.length_eq_zero.mp h0]
    simp [keptOf]
  · rw [← hsz, ← hc]
    rw [← hsz] at hdata hroom
    exact incrementalParse_spec h (by unfold Fits; rw [hsz, hlen]; exact hs)
      (by rw [hlen]; exact hroom) hdata

/-- `feed(data)`: room is reserved first, so the copy stays inside `raw_buffer_`. -/
theorem feed_spec {s s' : IncrementalBuffers} {data : List Byte}
    (h : feed ndebug data s = some s') (hs : s.Fits) :
    s'.Fits ∧ s'.content = s.content ++ keptOf (s.bufferSize = 0) data := by
  obtain ⟨hsz, hc, hroom⟩ := reserveInPlaceBuffer_spec data.length hs
  have := consume_spec (s := s.reserveInPlaceBuffer data.length) h (by unfold Fits; omega)
    (by rw [hsz]; exact hroom)
  rwa [hc, hsz] at this

theorem getParsedBuffer_spec (s : IncrementalBuffers) :
    (s.getParsedBuffer.1.toList ++ s.getParsedBuffer.2.serializedObjects = s.serializedObjects) ∧
      s.getParsedBuffer.2.buffer = s.buffer ∧
      s.getParsedBuffer.2.bufferSize = s.bufferSize ∧
      s.getParsedBuffer.2.rawBuffer = s.rawBuffer := by
  unfold getParsedBuffer
  split <;> simp_all [buffer]

end Loop

/-! ## §4. Every run. -/

/-- What a user of the framer does to it. -/
inductive Op where
  /-- `feed(data)` -/
  | feed (data : List Byte)
  /-- `reserve_in_place_buffer(bytes)` -/
  | reserveInPlaceBuffer (bytes : Nat)
  /-- `data` written at `in_place_buffer()`, then `in_place_buffer_consumed(data.size())`;
  the caller keeps `data.size()` within `in_place_buffer_capacity()` -/
  | consume (data : List Byte)
  /-- `get_parsed_buffer()` -/
  | getParsedBuffer
  deriving Repr, DecidableEq

/-- The framer and what was done to it: the buffers `get_parsed_buffer` returned, and each
chunk consumed, with whether `buffer_` was empty when it came. -/
structure History where
  framer : IncrementalBuffers
  returned : List (List Byte)
  consumed : List (List Byte × Bool)

/-- The caller's side of `consume`: the chunk fits the in-place buffer. -/
def Op.Enabled (s : IncrementalBuffers) : Op → Prop
  | .consume data => data.length ≤ s.inPlaceBufferCapacity
  | _ => True

section Run

variable (ndebug : Bool)

/-- One operation; `none` when an `assert` aborts the process. -/
def History.apply (h : History) : Op → Option History
  | .feed data => (h.framer.feed ndebug data).map fun f =>
      { h with framer := f, consumed := h.consumed ++ [(data, decide (h.framer.bufferSize = 0))] }
  | .reserveInPlaceBuffer bytes => some { h with framer := h.framer.reserveInPlaceBuffer bytes }
  | .consume data => (h.framer.consume ndebug data).map fun f =>
      { h with framer := f, consumed := h.consumed ++ [(data, decide (h.framer.bufferSize = 0))] }
  | .getParsedBuffer =>
      some { h with framer := h.framer.getParsedBuffer.2,
                    returned := h.returned ++ h.framer.getParsedBuffer.1.toList }

/-- The histories a fresh `incremental_buffers` can reach. -/
inductive Reachable : History → Prop where
  | fresh : Reachable ⟨IncrementalBuffers.fresh, [], []⟩
  | step {h h' : History} {op : Op} :
      Reachable h → op.Enabled h.framer → h.apply ndebug op = some h' → Reachable h'

/-- The consumed chunks joined, each chunk the framer dropped left out. -/
def kept (cs : List (List Byte × Bool)) : List Byte := cs.flatMap fun c => keptOf c.2 c.1

theorem kept_append_singleton (cs : List (List Byte × Bool)) (c : List Byte × Bool) :
    kept (cs ++ [c]) = kept cs ++ keptOf c.2 c.1 := by
  simp [kept]

/-- The representation invariant of a history. -/
def History.Inv (h : History) : Prop :=
  h.framer.Fits ∧ h.returned.flatten ++ h.framer.content = kept h.consumed

theorem History.apply_inv {h h' : History} {op : Op} (hi : h.Inv) (hen : op.Enabled h.framer)
    (happ : h.apply ndebug op = some h') : h'.Inv := by
  obtain ⟨hfit, hcon⟩ := hi
  cases op with
  | feed data =>
    obtain ⟨f, hf, rfl⟩ := Option.map_eq_some'.mp happ
    obtain ⟨hfit', hc⟩ := feed_spec hf hfit
    exact ⟨hfit', by rw [hc, kept_append_singleton, ← hcon, List.append_assoc]⟩
  | reserveInPlaceBuffer bytes =>
    cases happ
    obtain ⟨hsz, hc, hroom⟩ := reserveInPlaceBuffer_spec bytes hfit
    exact ⟨show (h.framer.reserveInPlaceBuffer bytes).Fits by unfold Fits; omega,
      by simpa only [hc] using hcon⟩
  | consume data =>
    simp only [History.apply] at happ
    obtain ⟨f, hf, rfl⟩ := Option.map_eq_some'.mp happ
    obtain ⟨hfit', hc⟩ := consume_spec hf hfit
      (by simp only [Op.Enabled, inPlaceBufferCapacity] at hen; unfold Fits at hfit; omega)
    exact ⟨hfit', by rw [hc, kept_append_singleton, ← hcon, List.append_assoc]⟩
  | getParsedBuffer =>
    cases happ
    obtain ⟨hq, hb, hsz, hraw⟩ := getParsedBuffer_spec h.framer
    refine ⟨show h.framer.getParsedBuffer.2.Fits by unfold Fits; rw [hsz, hraw]; exact hfit, ?_⟩
    rw [← hcon]
    simp only [content, hb, List.flatten_append, List.append_assoc, ← hq]

/-- **No loss, no duplication.**  At every state a fresh `incremental_buffers` reaches,
`buffer_` lies inside `raw_buffer_`, and the buffers emitted so far (those returned, then those
queued), followed by `buffer_`, are the consumed chunks joined, without exactly those that came
while `buffer_` was empty and hold neither `{` nor `[`. -/
theorem framer_conserves_bytes {h : History} (hr : Reachable ndebug h) :
    h.framer.bufferSize ≤ h.framer.rawBuffer.length ∧
      (h.returned ++ h.framer.serializedObjects).flatten ++ h.framer.buffer = kept h.consumed := by
  have hinv : h.Inv := by
    induction hr with
    | fresh => exact ⟨le_refl _, rfl⟩
    | step _ hen happ ih => exact History.apply_inv ndebug ih hen happ
  obtain ⟨hfit, hcon⟩ := hinv
  exact ⟨hfit, by simpa [content] using hcon⟩

end Run

/-- A release build fed `{}` in one chunk, the value then taken by `get_parsed_buffer`. -/
theorem framer_conserves_bytes_after_one_value :
    let h₁ : History :=
      ⟨(fresh.feed true [lbrace, rbrace]).getD fresh, [], [([lbrace, rbrace], true)]⟩
    let h₂ : History :=
      ⟨h₁.framer.getParsedBuffer.2, h₁.framer.getParsedBuffer.1.toList, h₁.consumed⟩
    Reachable true h₂ ∧
      (h₂.framer.bufferSize ≤ h₂.framer.rawBuffer.length ∧
        (h₂.returned ++ h₂.framer.serializedObjects).flatten ++ h₂.framer.buffer =
          kept h₂.consumed) := by
  intro h₁ h₂
  have hen₁ : Op.Enabled fresh (.feed [lbrace, rbrace]) := trivial
  have hen₂ : Op.Enabled h₁.framer .getParsedBuffer := trivial
  have hr : Reachable true h₂ := .step (.step .fresh hen₁ rfl) hen₂ rfl
  exact ⟨hr, framer_conserves_bytes true hr⟩

end IncrementalBuffers
end Packio.NlJsonRpc
