import Packio.NlJsonRpc.InPlace
/-
  Packio.NlJsonRpc.Queue
  ──────────────────────
  **EVERY BUFFER THE FRAMER QUEUES ENDS WITH `}` OR `]`.**

  The loop queues `raw_buffer_[0, token_pos]` only at a token equal to `last_char_`, and
  `last_char_` is one of `tokens_` only once `initialize` has made it `}` or `]`.  So whatever a
  fresh `incremental_buffers` is fed, in either build, every buffer `get_parsed_buffer` has
  returned and every buffer still queued is non-empty and ends with `}` or `]`
  (`queued_buffers_end_with_closer`).

  Nothing as sure holds of a queued buffer's start: a closer before the opener of a chunk fed to
  an empty `buffer_` is counted against that opener, and `x}{` queues `x}`.

  `QueueInv` is the invariant of the framer, one lemma per member keeps it, and the run lemma is
  an induction over the histories a fresh framer reaches.
-/

namespace Packio.NlJsonRpc
namespace IncrementalBuffers

/-! ## §1. The invariant. -/

/-- `}` or `]`. -/
def IsCloser (b : Byte) : Prop := b = rbrace ∨ b = rbracket

/-- A buffer whose last byte is `}` or `]`. -/
def EndsWithCloser (b : List Byte) : Prop := ∃ x, b.getLast? = some x ∧ IsCloser x

/-- `buffer_` lies inside `raw_buffer_`; `last_char_` is `}` or `]` once it is a token; and every
queued buffer ends with `}` or `]`. -/
structure QueueInv (s : IncrementalBuffers) : Prop where
  fits : s.Fits
  closer : s.lastChar ∈ s.tokens → IsCloser s.lastChar
  queued : ∀ b ∈ s.serializedObjects, EndsWithCloser b

theorem queueInv_fresh : QueueInv fresh := ⟨le_rfl, nofun, nofun⟩

/-- The buffer an emission at a byte of `buffer_` queues ends with that byte. -/
theorem getLast?_resize {s : IncrementalBuffers} {p : Nat} (hs : s.Fits) (hp : p < s.bufferSize) :
    (resize s.rawBuffer (p + 1)).getLast? = some (s.buffer.getD p 0) := by
  have hlen : p < s.rawBuffer.length := Nat.lt_of_lt_of_le hp hs
  rw [resize_of_le (n := p + 1) hlen, List.getLast?_take, if_neg (Nat.add_one_ne_zero p),
    Nat.add_sub_cancel,
    List.getElem?_eq_getElem hlen, Option.or_some, buffer, List.getD_eq_getElem?_getD,
    List.getElem?_take_of_lt hp, List.getElem?_eq_getElem hlen, Option.getD_some]

/-! ## §2. The members keep it. -/

section Members

variable (ndebug : Bool)

/-- A pass of the loop body at a token of `buffer_` queues a buffer only at `last_char_`. -/
theorem processToken_queueInv {s s' : IncrementalBuffers} {p next : Nat}
    (h : processToken ndebug s p = some (s', next)) (hi : QueueInv s) (hp : p < s.bufferSize)
    (htok : s.buffer.getD p 0 ∈ s.tokens) : QueueInv s' := by
  have hf := (processToken_spec h hp hi.fits).2.1
  simp only [processToken] at h
  by_cases hq : s.buffer.getD p 0 = quote ∧ isEscaped s.buffer p = false
  · rw [if_pos hq] at h; cases h; exact ⟨hf, hi.closer, hi.queued⟩
  rw [if_neg hq] at h
  by_cases hs : s.inString = true
  · rw [if_pos hs] at h; cases h; exact hi
  rw [if_neg hs] at h
  by_cases hc : s.buffer.getD p 0 = s.lastChar
  · rw [if_pos hc] at h
    by_cases h0 : s.depth - 1 = 0
    · -- the emission: the buffer queued ends with the closer just met
      rw [if_pos h0] at h; cases h
      refine ⟨hf, hi.closer, fun b hb => ?_⟩
      rcases List.mem_append.mp hb with hb | hb
      · exact hi.queued b hb
      · rw [List.mem_singleton.mp hb]
        exact ⟨_, getLast?_resize hi.fits hp, hc ▸ hi.closer (hc ▸ htok)⟩
    · rw [if_neg h0] at h; cases h; exact ⟨hf, hi.closer, hi.queued⟩
  rw [if_neg hc] at h
  obtain ⟨_, -, h⟩ := Option.map_eq_some'.mp h
  cases h; exact ⟨hf, hi.closer, hi.queued⟩

theorem scan_queueInv {n pos : Nat} {s s' : IncrementalBuffers} (h : scan ndebug n pos s = some s')
    (hn : n ≤ s.bufferSize - pos) (hi : QueueInv s) : QueueInv s' := by
  induction n generalizing pos s with
  | zero => cases h; exact hi
  | succ n ih =>
    simp only [scan] at h
    split_ifs at h with htok
    · split at h
      · rename_i s₁ next hpt
        have hsize := (processToken_spec hpt (by omega) hi.fits).2.2
        exact ih h (by omega) (processToken_queueInv ndebug hpt hi (by omega) htok)
      · cases h
    · exact ih h (by omega) hi

/-- `initialize` makes `last_char_` a closer. -/
theorem initFirstChar_queueInv {c : Byte} {s s' : IncrementalBuffers}
    (h : initFirstChar ndebug c s = some s') (hi : QueueInv s) : QueueInv s' := by
  obtain ⟨hsz, hraw, hq⟩ := initFirstChar_frame h
  refine ⟨by unfold Fits; rw [hsz, hraw]; exact hi.fits, ?_, by rw [hq]; exact hi.queued⟩
  unfold initFirstChar at h
  split_ifs at h
  · cases h; exact fun _ => .inl rfl
  · obtain ⟨_, -, h⟩ := Option.map_eq_some'.mp h
    cases h; exact fun _ => .inr rfl

theorem incrementalParse_queueInv {bytes : Nat} {s s' : IncrementalBuffers}
    (h : incrementalParse ndebug bytes s = some s') (hi : QueueInv s)
    (hroom : s.bufferSize + bytes ≤ s.rawBuffer.length) : QueueInv s' := by
  have happ : ∀ {s₁ : IncrementalBuffers}, QueueInv s₁ →
      s₁.bufferSize + bytes ≤ s₁.rawBuffer.length → parseAppended ndebug bytes s₁ = some s' →
        QueueInv s' :=
    fun hi₁ hr₁ h₁ => scan_queueInv ndebug h₁ le_rfl ⟨hr₁, hi₁.closer, hi₁.queued⟩
  unfold incrementalParse at h
  split_ifs at h
  · simp only [inPlaceBuffer] at h
    split at h
    · cases h; exact hi
    · obtain ⟨s₁, hinit, h₁⟩ := Option.bind_eq_some.mp h
      obtain ⟨hsz, hraw, -⟩ := initFirstChar_frame hinit
      exact happ (initFirstChar_queueInv ndebug hinit hi) (by rw [hsz, hraw]; exact hroom) h₁
  · exact happ hi hroom h

theorem consume_queueInv {data : List Byte} {s s' : IncrementalBuffers}
    (h : consume ndebug data s = some s') (hi : QueueInv s) : QueueInv s' := by
  obtain ⟨hroom, -⟩ := writeInPlaceBuffer_chunk hi.fits data
  have hw : QueueInv (s.writeInPlaceBuffer data) :=
    ⟨Nat.le_trans (Nat.le_add_right _ _) hroom, hi.closer, hi.queued⟩
  unfold consume inPlaceBufferConsumed at h
  split_ifs at h
  · cases h; exact hw
  · exact incrementalParse_queueInv ndebug h hw hroom

theorem reserveInPlaceBuffer_queueInv (bytes : Nat) {s : IncrementalBuffers} (hi : QueueInv s) :
    QueueInv (s.reserveInPlaceBuffer bytes) := by
  obtain ⟨he, -⟩ := reserveInPlaceBuffer_frame bytes hi.fits
  obtain ⟨hsz, -, hroom⟩ := reserveInPlaceBuffer_spec bytes hi.fits
  rw [he]
  exact ⟨show s.bufferSize ≤ _ by rw [← he]; omega, hi.closer, hi.queued⟩

/-- `get_parsed_buffer` hands over the front of the queue and keeps the rest. -/
theorem getParsedBuffer_queueInv {s : IncrementalBuffers} (hi : QueueInv s) :
    QueueInv s.getParsedBuffer.2 ∧ ∀ b ∈ s.getParsedBuffer.1.toList, EndsWithCloser b := by
  unfold getParsedBuffer
  split
  · exact ⟨hi, nofun⟩
  · rename_i b rest hso
    have hq := hi.queued
    rw [hso] at hq
    refine ⟨⟨hi.fits, hi.closer, fun b' hb' => hq b' (.tail _ hb')⟩, fun b' hb' => ?_⟩
    rw [Option.mem_toList, Option.mem_def, Option.some.injEq] at hb'
    exact hq b' (hb' ▸ .head _)

end Members

/-! ## §3. Every run. -/

/-- A history's buffers: those returned, and the framer's, end with `}` or `]`. -/
structure ClosedQueue (h : History) : Prop where
  framer : QueueInv h.framer
  returned : ∀ b ∈ h.returned, EndsWithCloser b

section Runs

variable (ndebug : Bool)

theorem History.apply_closedQueue {h h' : History} {op : Op} (happ : h.apply ndebug op = some h')
    (hi : ClosedQueue h) : ClosedQueue h' := by
  obtain ⟨hq, hr⟩ := hi
  cases op with
  | feed data =>
    obtain ⟨f, hf, rfl⟩ := Option.map_eq_some'.mp happ
    exact ⟨consume_queueInv ndebug hf (reserveInPlaceBuffer_queueInv data.length hq), hr⟩
  | reserveInPlaceBuffer bytes =>
    cases happ
    exact ⟨reserveInPlaceBuffer_queueInv bytes hq, hr⟩
  | consume data =>
    obtain ⟨f, hf, rfl⟩ := Option.map_eq_some'.mp happ
    exact ⟨consume_queueInv ndebug hf hq, hr⟩
  | getParsedBuffer =>
    cases happ
    obtain ⟨hq', hb⟩ := getParsedBuffer_queueInv hq
    refine ⟨hq', fun b hb' => ?_⟩
    rcases List.mem_append.mp hb' with hb' | hb'
    exacts [hr b hb', hb b hb']

/-- **Every buffer queued ends with a closer.**  At every state a fresh `incremental_buffers`
reaches, in either build, every buffer `get_parsed_buffer` has returned and every buffer still
queued is non-empty and ends with `}` or `]`. -/
theorem queued_buffers_end_with_closer {h : History} (hr : Reachable ndebug h) :
    ∀ b ∈ h.returned ++ h.framer.serializedObjects,
      b.getLast? = some rbrace ∨ b.getLast? = some rbracket := by
  have hi : ClosedQueue h := by
    induction hr with
    | fresh => exact ⟨queueInv_fresh, nofun⟩
    | step _ _ happ ih => exact History.apply_closedQueue ndebug happ ih
  intro b hb
  obtain ⟨x, hx, hc⟩ := (List.mem_append.mp hb).elim (hi.returned b) (hi.framer.queued b)
  rcases hc with rfl | rfl
  exacts [.inl hx, .inr hx]

end Runs

/-- A closer before the opener of a chunk fed to a fresh framer is counted against it: `x}{`
queues `x}`, which holds no opener. -/
example :
    (fresh.feed true [0x78, rbrace, lbrace]).map serializedObjects = some [[0x78, rbrace]] := by
  decide

/-- A release build fed `x}{` in one chunk: the buffer it queues, `x}`, still ends with `}`. -/
theorem queued_buffers_end_with_closer_after_stray_closer :
    let h₁ : History :=
      ⟨(fresh.feed true [0x78, rbrace, lbrace]).getD fresh, [], [([0x78, rbrace, lbrace], true)]⟩
    Reachable true h₁ ∧ ∀ b ∈ h₁.returned ++ h₁.framer.serializedObjects,
      b.getLast? = some rbrace ∨ b.getLast? = some rbracket := by
  intro h₁
  have hen : Op.Enabled fresh (.feed [0x78, rbrace, lbrace]) := trivial
  have hr : Reachable true h₁ := .step .fresh hen rfl
  exact ⟨hr, queued_buffers_end_with_closer true hr⟩

end IncrementalBuffers
end Packio.NlJsonRpc
