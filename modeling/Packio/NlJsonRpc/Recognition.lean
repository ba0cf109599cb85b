import Packio.NlJsonRpc.Framing
import Packio.NlJsonRpc.Representation
/-
  Packio.NlJsonRpc.Recognition
  ────────────────────────────
  **WHERE THE CODE FRAMES VALUES AS THE SPEC FRAMES THEM.**

  From the byte after the opener, the loop of `incremental_parse` tracks the spec's framer
  (`frameRef`) byte for byte: the same count, the same in-string flag, and `is_escaped(pos)` is
  the spec's odd-backslash flag (`refAt`).  It does so as long as no `"` after an odd run of
  backslashes stands outside a string (`cleanFrom`), which is exactly where the code's
  `assert(token == first_char_)` holds.  So the loop emits a value at the byte where the spec's
  framer completes it (`scan_within_emits`).

  Between values the count is zero, and bytes that are no tokens are passed over until the next
  opener (`scan_gap`).  A chunk made of values of one kind, separated by bytes that are no opener
  of either kind, no closer of that kind and no `"` (`gapBytes`), fed whole to a fresh framer, is
  cut where the spec cuts it, each buffer but the first starting with the separator before its
  value (`feed_one_chunk_frames_values`).

  Values may also come in chunks.  `parse_appended` starts its search one byte after the old end
  of `buffer_`, so it never looks at the first byte of a chunk that extends a value; when that
  byte is no token, the loop would have passed over it anyway.  So a stream of values, each
  beginning a chunk of its own and cut into further chunks only before such a byte (`Chunked`),
  is queued exactly as the spec's framer cuts it (`emitted_chunked_values`).  `Framing` shows what goes wrong when a chunk
  starts with a token, or when bytes come before the first opener.
-/

namespace Packio.NlJsonRpc

/-! ## §1. The spec's side: where the code's `assert` holds, values, separators, chunks. -/

/-- The spec's framer, in state `st`, meets a `"` after an odd run of backslashes outside a
string: there the code reaches `assert(token == first_char_)`. -/
def escapedQuoteOutside : RefState → Byte → Bool
  | .value _ _ _ inString odd _, b => b = quote && odd && !inString
  | .idle, _ => false

/-- No byte of the stream, read by the spec's framer from `st`, is an escaped `"` outside a
string. -/
def cleanFrom : RefState → List Byte → Bool
  | _, [] => true
  | st, b :: bs => !escapedQuoteOutside st b && cleanFrom (refStep st b).1 bs

/-- `v` is one whole value for the spec's framer, with no escaped `"` outside a string. -/
def wholeValue (v : List Byte) : Bool := decide (frameRef v = [v]) && cleanFrom .idle v

/-- Bytes that may stand between two values opened by `opener`: no opener of either kind, no
closer of `opener`, no `"`. -/
def gapBytes (opener : Byte) (bs : List Byte) : Bool :=
  bs.all fun b => b ∉ [lbrace, lbracket, closerOf opener, quote]

/-- The values `o :: body` of `vs = [(sep, body), ...]`, each after its separator `sep`. -/
def gapped (o : Byte) (vs : List (List Byte × List Byte)) : List Byte :=
  vs.flatMap fun v => v.1 ++ o :: v.2

theorem frameRef_of_wholeValue {v : List Byte} (h : wholeValue v) : frameRef v = [v] := by
  simp only [wholeValue, Bool.and_eq_true, decide_eq_true_eq] at h
  exact h.1

theorem cleanFrom_append : ∀ (st : RefState) (xs ys : List Byte),
    cleanFrom st (xs ++ ys) = (cleanFrom st xs && cleanFrom (refRun st xs) ys)
  | _, [], _ => rfl
  | st, x :: xs, ys => by
    rw [List.cons_append, cleanFrom, cleanFrom, cleanFrom_append _ xs ys, Bool.and_assoc]; rfl

/-- Bytes with no opener leave the spec's framer looking for one. -/
theorem frameRefFrom_gap {o : Byte} :
    ∀ {bs : List Byte}, gapBytes o bs → ∀ rest,
      frameRefFrom .idle (bs ++ rest) = frameRefFrom .idle rest
  | [], _, _ => rfl
  | b :: bs, h, rest => by
    simp only [gapBytes, List.all_cons, Bool.and_eq_true, decide_eq_true_eq] at h
    have hb : ¬(b = lbrace ∨ b = lbracket) := fun hb => h.1 (by rcases hb with rfl | rfl <;> simp)
    rw [List.cons_append, frameRefFrom, refStep, if_neg hb]
    exact frameRefFrom_gap h.2 rest

/-- A whole value, then the rest: the spec's framer emits the value and reads the rest afresh. -/
theorem frameRefFrom_value {o : Byte} (ho : o = lbrace ∨ o = lbracket) {body : List Byte}
    (hv : frameRef (o :: body) = [o :: body]) (rest : List Byte) :
    frameRefFrom .idle (o :: body ++ rest) = (o :: body) :: frameRefFrom .idle rest := by
  have hrun : refRun .idle (o :: body) = .idle := by
    rw [frameRef, frameRefFrom, refStep_idle_of_opener ho, Option.toList_none,
      List.nil_append] at hv
    simp only [refRun, List.foldl_cons, refStep_idle_of_opener ho]
    exact refRun_of_frameRefFrom o (closerOf o) body hv
  rw [frameRefFrom_append, hrun]
  exact congrArg (· ++ _) hv

/-- The spec's framer on values after separators emits the values. -/
theorem frameRefFrom_gapped {o : Byte} (ho : o = lbrace ∨ o = lbracket) {tail : List Byte}
    (htail : gapBytes o tail) :
    ∀ (vs : List (List Byte × List Byte)), (∀ v ∈ vs, gapBytes o v.1 ∧ wholeValue (o :: v.2)) →
      frameRefFrom .idle (gapped o vs ++ tail) = vs.map fun v => o :: v.2
  | [], _ => by simpa using frameRefFrom_gap htail []
  | (sep, body) :: vs, h => by
    obtain ⟨⟨hsep, hv⟩, hvs⟩ := List.forall_mem_cons.mp h
    rw [gapped, List.flatMap_cons, List.append_assoc, List.append_assoc, frameRefFrom_gap hsep,
      frameRefFrom_value ho (frameRef_of_wholeValue hv), ← gapped,
      frameRefFrom_gapped ho htail vs hvs, List.map_cons]

/-- The spec's framer on whole values, one after the other, emits them. -/
theorem frameRef_whole_values : ∀ (vs : List (List Byte)),
    (∀ v ∈ vs, (∃ o body, (o = lbrace ∨ o = lbracket) ∧ v = o :: body) ∧ wholeValue v) →
      frameRef vs.flatten = vs
  | [], _ => rfl
  | v :: vs, hvs => by
    obtain ⟨⟨⟨o, body, ho, rfl⟩, hv⟩, hrest⟩ := List.forall_mem_cons.mp hvs
    rw [List.flatten_cons, frameRef, frameRefFrom_value ho (frameRef_of_wholeValue hv), ← frameRef,
      frameRef_whole_values vs hrest]

/-- A chunk that may follow a chunk of a value opened by `opener`: it starts with a byte that is
neither the opener, nor its closer, nor `"`. -/
def cutBefore (opener : Byte) : List Byte → Bool
  | [] => false
  | b :: _ => decide (b ∉ [opener, closerOf opener, quote])

theorem exists_of_cutBefore {o : Byte} :
    ∀ {c : List Byte}, cutBefore o c = true → ∃ b t, c = b :: t ∧ b ∉ [o, closerOf o, quote]
  | b :: t, h => ⟨b, t, rfl, of_decide_eq_true h⟩

/-- A value sent in chunks: a whole value opened by `{` or `[`, with no escaped `"` outside its
strings, every chunk after the first starting as `cutBefore` asks. -/
structure Chunked where
  /-- the value's first byte -/
  opener : Byte
  /-- the rest of its first chunk -/
  first : List Byte
  /-- its later chunks -/
  later : List (List Byte)
  isOpener : opener = lbrace ∨ opener = lbracket
  whole : wholeValue (opener :: first ++ later.flatten) = true
  cuts : ∀ c ∈ later, cutBefore opener c = true

namespace Chunked

/-- The chunks the value is sent in. -/
def chunks (v : Chunked) : List (List Byte) := (v.opener :: v.first) :: v.later

/-- The value. -/
def value (v : Chunked) : List Byte := v.opener :: v.first ++ v.later.flatten

end Chunked

namespace IncrementalBuffers

/-! ## §2. The loop inside a value. -/

/-- `initialize` has run: an opener, its closer, and the tokens they make. -/
structure Initialized (s : IncrementalBuffers) : Prop where
  opener : s.firstChar = lbrace ∨ s.firstChar = lbracket
  closer : s.lastChar = closerOf s.firstChar
  tokens : s.tokens = [s.firstChar, s.lastChar, quote]

/-- The opener, the closer, `"` and `\` are four different bytes. -/
theorem Initialized.distinct {s : IncrementalBuffers} (hs : s.Initialized) :
    s.firstChar ≠ s.lastChar ∧ s.firstChar ≠ quote ∧ s.lastChar ≠ quote ∧
      s.firstChar ≠ backslash ∧ s.lastChar ≠ backslash := by
  rw [hs.closer]
  rcases hs.opener with h | h <;> rw [h] <;> decide

/-- The framer inside a value: `s` with the count `d` and the in-string flag `inString`. -/
def within (s : IncrementalBuffers) (d : Nat) (inString : Bool) : IncrementalBuffers :=
  { s with depth := d, inString }

@[simp] theorem within_buffer (s : IncrementalBuffers) (d : Nat) (inString : Bool) :
    (s.within d inString).buffer = s.buffer := rfl
@[simp] theorem within_tokens (s : IncrementalBuffers) (d : Nat) (inString : Bool) :
    (s.within d inString).tokens = s.tokens := rfl
@[simp] theorem within_inString (s : IncrementalBuffers) (d : Nat) (inString : Bool) :
    (s.within d inString).inString = inString := rfl
@[simp] theorem within_depth (s : IncrementalBuffers) (d : Nat) (inString : Bool) :
    (s.within d inString).depth = d := rfl
@[simp] theorem within_firstChar (s : IncrementalBuffers) (d : Nat) (inString : Bool) :
    (s.within d inString).firstChar = s.firstChar := rfl
@[simp] theorem within_lastChar (s : IncrementalBuffers) (d : Nat) (inString : Bool) :
    (s.within d inString).lastChar = s.lastChar := rfl

theorem within_pred (s : IncrementalBuffers) {d : Nat} (hd : 1 ≤ d) (inString : Bool) :
    { s.within d inString with depth := (d : Int) - 1 } = s.within (d - 1) inString := by
  simp only [within, IncrementalBuffers.mk.injEq, true_and, and_true]; omega

theorem within_succ (s : IncrementalBuffers) (d : Nat) (inString : Bool) :
    { s.within d inString with depth := (d : Int) + 1 } = s.within (d + 1) inString := by
  simp only [within, IncrementalBuffers.mk.injEq, true_and, and_true]; omega

/-- The spec's framer after `buffer_[0, p)`, inside the value opened at `start` by
`first_char_`, with the count `d` and the in-string flag `inString`. -/
def refAt (s : IncrementalBuffers) (start p d : Nat) (inString : Bool) : RefState :=
  .value s.firstChar s.lastChar d inString (isEscaped s.buffer p) ((s.buffer.take p).drop start)

theorem cons_prefix_drop {l bs : List Byte} {b : Byte} {p : Nat} (h : b :: bs <+: l.drop p) :
    p < l.length ∧ l.getD p 0 = b ∧ bs <+: l.drop (p + 1) := by
  have hp : p < l.length := by
    by_contra hp
    rw [List.drop_eq_nil_of_le (by omega)] at h
    exact List.cons_ne_nil _ _ (List.prefix_nil.mp h)
  rw [List.drop_eq_getElem_cons hp, List.cons_prefix_cons] at h
  refine ⟨hp, ?_, h.2⟩
  rw [List.getD_eq_getElem?_getD, List.getElem?_eq_getElem hp, h.1]
  rfl

section Track

variable (ndebug : Bool)

/-- Outside a string, the opener counts one more level. -/
theorem processToken_opener {s : IncrementalBuffers} (hs : s.Initialized) {p d : Nat}
    (ho : s.buffer.getD p 0 = s.firstChar) :
    processToken ndebug (s.within d false) p = some (s.within (d + 1) false, p + 1) := by
  obtain ⟨hfl, hfq, -, -, -⟩ := hs.distinct
  simp only [processToken, within_buffer, within_inString, within_lastChar, within_depth,
    within_firstChar]
  rw [if_neg fun h => hfq (ho.symm.trans h.1), if_neg Bool.false_ne_true,
    if_neg fun h => hfl (ho.symm.trans h), decide_eq_true ho, cassert_true]
  exact congrArg (fun s' => some (s', p + 1)) (within_succ s d false)

/-- **One byte inside a value.**  At the byte `buffer_[p]`, unless it is an escaped `"` outside
a string, the loop and the spec's framer take the same step: both close the value there, the
loop emitting `buffer_[0, p]`; or both go on with the same count and in-string flag. -/
theorem scan_step_within {s : IncrementalBuffers} (hs : s.Initialized) {start p d : Nat}
    {ins : Bool} (hsp : start ≤ p) (hp : p < s.buffer.length) (hd : 1 ≤ d)
    (hclean : escapedQuoteOutside (s.refAt start p d ins) (s.buffer.getD p 0) = false) :
    (ins = false ∧ d = 1 ∧
      refStep (s.refAt start p d ins) (s.buffer.getD p 0) =
        (.idle, some ((s.buffer.take (p + 1)).drop start)) ∧
      ∀ m, scan ndebug (m + 1) p (s.within d ins) = scan ndebug m 0 (emit (s.within 0 false) p)) ∨
    (∃ d' ins', 1 ≤ d' ∧
      refStep (s.refAt start p d ins) (s.buffer.getD p 0) = (s.refAt start (p + 1) d' ins', none) ∧
      ∀ m, scan ndebug (m + 1) p (s.within d ins) = scan ndebug m (p + 1) (s.within d' ins')) := by
  obtain ⟨hfl, hfq, hlq, hfb, hlb⟩ := hs.distinct
  have htake : (s.buffer.take (p + 1)).drop start =
      (s.buffer.take p).drop start ++ [s.buffer.getD p 0] := by
    rw [take_succ_getD hp, List.drop_append_of_le_length (by rw [List.length_take]; omega)]
  have hesc := isEscaped_succ s.buffer p
  have htok : ∀ b, b ∈ s.tokens ↔ b = s.firstChar ∨ b = s.lastChar ∨ b = quote := by
    simp [hs.tokens]
  simp only [refAt, hesc, htake, escapedQuoteOutside] at hclean ⊢
  by_cases hq : s.buffer.getD p 0 = quote ∧ isEscaped s.buffer p = false
  · -- an unescaped `"`: both flip the in-string flag
    have hpt : processToken ndebug (s.within d ins) p = some (s.within d (!ins), p + 1) := by
      simp only [processToken, within_buffer]; rw [if_pos hq]; rfl
    refine .inr ⟨d, !ins, hd, ?_, fun m => scan_token ndebug ((htok _).2 (.inr (.inr hq.1))) hpt⟩
    simp only [refStep]; rw [if_pos hq]
  cases ins with
  | true =>
    -- inside a string: both pass the byte over
    have hpt : processToken ndebug (s.within d true) p = some (s.within d true, p + 1) := by
      simp only [processToken, within_buffer, within_inString]; rw [if_neg hq, if_pos trivial]
    refine .inr ⟨d, true, hd, ?_, fun m => ?_⟩
    · simp only [refStep]; rw [if_neg hq, if_pos trivial]
    · by_cases hmem : s.buffer.getD p 0 ∈ s.tokens
      exacts [scan_token ndebug hmem hpt, scan_skip ndebug hmem]
  | false =>
    have hnot : ¬(false = true) := Bool.false_ne_true
    by_cases hc : s.buffer.getD p 0 = s.lastChar
    · have hmem : s.buffer.getD p 0 ∈ s.tokens := (htok _).2 (.inr (.inl hc))
      by_cases h1 : d = 1
      · -- the closer of the outermost level: both complete the value
        have hpt : processToken ndebug (s.within d false) p =
            some (emit (s.within 0 false) p, 0) := by
          simp only [processToken, within_buffer, within_inString, within_lastChar, within_depth]
          rw [if_neg hq, if_neg hnot, if_pos hc, if_pos (by omega)]; rfl
        refine .inl ⟨rfl, h1, ?_, fun m => scan_token ndebug hmem hpt⟩
        simp only [refStep]; rw [if_neg hq, if_neg hnot, if_pos hc, if_pos h1]
      · have hpt : processToken ndebug (s.within d false) p =
            some (s.within (d - 1) false, p + 1) := by
          simp only [processToken, within_buffer, within_inString, within_lastChar, within_depth]
          rw [if_neg hq, if_neg hnot, if_pos hc, if_neg (by omega)]
          exact congrArg (fun s' => some (s', p + 1)) (within_pred s hd false)
        refine .inr ⟨d - 1, false, by omega, ?_, fun m => scan_token ndebug hmem hpt⟩
        simp only [refStep]; rw [if_neg hq, if_neg hnot, if_pos hc, if_neg h1]
    by_cases ho : s.buffer.getD p 0 = s.firstChar
    · -- an opener: both count one more level
      refine .inr ⟨d + 1, false, by omega, ?_,
        fun m => scan_token ndebug ((htok _).2 (.inl ho)) (processToken_opener ndebug hs ho)⟩
      simp only [refStep]; rw [if_neg hq, if_neg hnot, if_neg hc, if_pos ho]
    · -- no token: an escaped `"` would be one, and `hclean` rules it out outside a string
      have hnq : s.buffer.getD p 0 ≠ quote := fun h => by
        have he : isEscaped s.buffer p = true := Bool.of_not_eq_false fun he => hq ⟨h, he⟩
        simp only [h, he] at hclean
        exact absurd hclean (by decide)
      have hmem : s.buffer.getD p 0 ∉ s.tokens := by
        rw [htok]; exact fun h => h.elim ho fun h => h.elim hc hnq
      refine .inr ⟨d, false, hd, ?_, fun m => scan_skip ndebug hmem⟩
      simp only [refStep]; rw [if_neg hq, if_neg hnot, if_neg hc, if_neg ho]

/-- **A value, byte by byte.**  From `buffer_[p]` on, inside the value opened at `start`, while
the spec's framer meets no escaped `"` outside a string, the loop follows it, and emits
`buffer_[0, q]` at the byte `q` where the spec's framer completes the value `buffer_[start, q]`. -/
theorem scan_within_emits {s : IncrementalBuffers} (hs : s.Initialized) :
    ∀ (bs : List Byte) {start p d : Nat} {ins : Bool} {val : List Byte}, start ≤ p → 1 ≤ d →
      bs <+: s.buffer.drop p → cleanFrom (s.refAt start p d ins) bs = true →
      (frameRefFrom (s.refAt start p d ins) bs).head? = some val →
      ∃ q, p ≤ q ∧ q < p + bs.length ∧ val = (s.buffer.take (q + 1)).drop start ∧
        ∀ m, scan ndebug (m + (q + 1 - p)) p (s.within d ins) =
          scan ndebug m 0 (emit (s.within 0 false) q)
  | [], _, _, _, _, _, _, _, _, _, hval => nomatch hval
  | b :: bs, start, p, d, ins, val, hsp, hd, hpre, hclean, hval => by
    obtain ⟨hp, rfl, hbs⟩ := cons_prefix_drop hpre
    simp only [cleanFrom, Bool.and_eq_true, Bool.not_eq_true'] at hclean
    rcases scan_step_within ndebug hs hsp hp hd hclean.1 with
      ⟨-, -, href, hscan⟩ | ⟨d', ins', hd', href, hscan⟩
    · -- the value ends at `p`
      simp only [frameRefFrom, href, Option.toList_some, List.singleton_append,
        List.head?_cons, Option.some.injEq] at hval
      exact ⟨p, le_rfl, Nat.lt_add_of_pos_right (Nat.succ_pos _), hval.symm,
        fun m => by rw [Nat.add_sub_cancel_left]; exact hscan m⟩
    · -- it goes on from `p + 1`
      rw [href] at hclean
      simp only [frameRefFrom, href, Option.toList_none, List.nil_append] at hval
      obtain ⟨q, hpq, hqlt, hv, hrun⟩ :=
        scan_within_emits hs bs (by omega) hd' hbs hclean.2 hval
      refine ⟨q, by omega, by rw [List.length_cons]; omega, hv, fun m => ?_⟩
      have hm : m + (q + 1 - p) = m + (q + 1 - (p + 1)) + 1 := by omega
      rw [hm, hscan, hrun]

/-- **A part of a value, byte by byte.**  Over bytes where the spec's framer, inside the value
opened at `start`, completes nothing and meets no escaped `"` outside a string, the loop follows
it to the end of them. -/
theorem scan_within_runs {s : IncrementalBuffers} (hs : s.Initialized) :
    ∀ (bs : List Byte) {start p d : Nat} {ins : Bool}, start ≤ p → 1 ≤ d →
      bs <+: s.buffer.drop p → cleanFrom (s.refAt start p d ins) bs = true →
      frameRefFrom (s.refAt start p d ins) bs = [] →
      ∃ d' ins', 1 ≤ d' ∧
        refRun (s.refAt start p d ins) bs = s.refAt start (p + bs.length) d' ins' ∧
        ∀ m, scan ndebug (m + bs.length) p (s.within d ins) =
          scan ndebug m (p + bs.length) (s.within d' ins')
  | [], _, p, d, ins, _, hd, _, _, _ => ⟨d, ins, hd, rfl, fun _ => rfl⟩
  | b :: bs, start, p, d, ins, hsp, hd, hpre, hclean, hnone => by
    obtain ⟨hp, rfl, hbs⟩ := cons_prefix_drop hpre
    simp only [cleanFrom, Bool.and_eq_true, Bool.not_eq_true'] at hclean
    rcases scan_step_within ndebug hs hsp hp hd hclean.1 with
      ⟨-, -, href, -⟩ | ⟨d₁, ins₁, hd₁, href, hscan⟩
    · -- the value would end at `p`
      rw [frameRefFrom, href, Option.toList_some, List.singleton_append] at hnone
      exact absurd hnone (List.cons_ne_nil _ _)
    · rw [href] at hclean
      simp only [frameRefFrom, href, Option.toList_none, List.nil_append] at hnone
      obtain ⟨d', ins', hd', hrun, hscan'⟩ :=
        scan_within_runs hs bs (by omega) hd₁ hbs hclean.2 hnone
      have hl : p + (s.buffer.getD p 0 :: bs).length = p + 1 + bs.length := by
        simp only [List.length_cons]; omega
      refine ⟨d', ins', hd', ?_, fun m => ?_⟩
      · simp only [refRun, List.foldl_cons, href] at hrun ⊢
        rw [hrun, hl]
      · rw [hl, List.length_cons, ← Nat.add_assoc, hscan, hscan']

/-- Right after the opener at `i`, the spec's framer has read just that opener. -/
theorem refAt_opener {s : IncrementalBuffers} (hs : s.Initialized) {i : Nat}
    (hp : i < s.buffer.length) (ho : s.buffer.getD i 0 = s.firstChar) :
    s.refAt i (i + 1) 1 false = (refStep .idle s.firstChar).1 := by
  have hfb := hs.distinct.2.2.2.1
  rw [refStep_idle_of_opener hs.opener, ← hs.closer, refAt, isEscaped_succ, ho,
    decide_eq_false hfb, Bool.false_and, take_succ_getD hp, ho,
    List.drop_left' (List.length_take_of_le hp.le)]

/-- **A whole value from its opener.**  When `buffer_[i]` is the opener and the value
`first_char_ :: body` starts there, the loop, from the byte after the opener with the count at
one, emits `buffer_[0, i + |body|]`: up to the value's closer. -/
theorem scan_value {s : IncrementalBuffers} (hs : s.Initialized) {i : Nat} {body : List Byte}
    (hpre : s.firstChar :: body <+: s.buffer.drop i) (hv : wholeValue (s.firstChar :: body))
    (m : Nat) :
    scan ndebug (m + body.length) (i + 1) (s.within 1 false) =
      scan ndebug m 0 (emit (s.within 0 false) (i + body.length)) := by
  obtain ⟨hp, ho, hbody⟩ := cons_prefix_drop hpre
  have hst : (refStep .idle s.firstChar).1 = s.refAt i (i + 1) 1 false :=
    (refAt_opener hs hp ho).symm
  have hnone : (refStep .idle s.firstChar).2 = none := by rw [refStep_idle_of_opener hs.opener]
  simp only [wholeValue, Bool.and_eq_true, decide_eq_true_eq] at hv
  obtain ⟨hf, hc⟩ := hv
  rw [frameRef, frameRefFrom, hnone, hst, Option.toList_none, List.nil_append] at hf
  rw [cleanFrom, hst] at hc
  obtain ⟨q, -, hq, hval, hrun⟩ :=
    scan_within_emits ndebug hs body (Nat.le_add_right i 1) le_rfl hbody
      (Bool.and_eq_true _ _ ▸ hc).2
      (by rw [hf]; rfl)
  have hlen := congrArg List.length hval
  simp only [List.length_cons, List.length_drop, List.length_take] at hlen
  have hq' : q = i + body.length := by
    have := hpre.length_le
    simp only [List.length_cons, List.length_drop] at this
    omega
  subst hq'
  rw [← hrun m, Nat.add_sub_add_right, Nat.add_sub_cancel_left]

/-! ## §3. Between values. -/

/-- Bytes that are no tokens, then the opener: the loop passes over them and counts the opener. -/
theorem scan_gap {s : IncrementalBuffers} (hs : s.Initialized) :
    ∀ (sep : List Byte) {p : Nat}, (∀ b ∈ sep, b ∉ s.tokens) →
      sep ++ [s.firstChar] <+: s.buffer.drop p → ∀ m,
      scan ndebug (m + (sep.length + 1)) p (s.within 0 false) =
        scan ndebug m (p + sep.length + 1) (s.within 1 false)
  | [], p, _, hpre, m => by
    obtain ⟨-, ho, -⟩ := cons_prefix_drop hpre
    exact scan_token ndebug (by rw [within_buffer, ho, within_tokens, hs.tokens]; exact .head _)
      (processToken_opener ndebug hs ho)
  | b :: sep, p, hsep, hpre, m => by
    obtain ⟨-, hb, hpre⟩ := cons_prefix_drop hpre
    have hm : m + ((b :: sep).length + 1) = m + (sep.length + 1) + 1 := by
      simp only [List.length_cons]; omega
    have hp : p + 1 + sep.length + 1 = p + (b :: sep).length + 1 := by
      simp only [List.length_cons]; omega
    rw [hm, scan_skip ndebug (by rw [within_buffer, hb]; exact hsep b (.head _)),
      scan_gap hs sep (fun x hx => hsep x (.tail _ hx)) hpre m, hp]

theorem getD_mem_or_zero (l : List Byte) (i : Nat) : l.getD i 0 ∈ l ∨ l.getD i 0 = 0 := by
  rw [List.getD_eq_getElem?_getD]
  cases h : l[i]? with
  | none => exact .inr rfl
  | some b => exact .inl (List.getElem?_mem h)

/-- With no token left in `buffer_`, the loop stops where it is. -/
theorem scan_no_tokens {s : IncrementalBuffers} (hs : s.Initialized)
    (h : ∀ b ∈ s.buffer, b ∉ s.tokens) : ∀ n pos, scan ndebug n pos s = some s
  | 0, _ => rfl
  | n + 1, pos => by
    have hz : (0 : Byte) ∉ s.tokens := by
      rw [hs.tokens, hs.closer]; rcases hs.opener with ho | ho <;> rw [ho] <;> decide
    rw [scan_skip ndebug ((getD_mem_or_zero _ pos).elim (h _) fun h0 => by rw [h0]; exact hz)]
    exact scan_no_tokens hs h n (pos + 1)

/-! ## §4. The loop over values after separators. -/

/-- Bytes between values are no tokens of the loop. -/
theorem gapBytes_not_token {s : IncrementalBuffers} (hs : s.Initialized) {bs : List Byte}
    (h : gapBytes s.firstChar bs) : ∀ b ∈ bs, b ∉ s.tokens := by
  intro b hb hmem
  refine of_decide_eq_true (List.all_eq_true.mp h b hb) ?_
  rw [hs.tokens, hs.closer] at hmem
  rcases List.mem_cons.mp hmem with rfl | hmem
  · rcases hs.opener with ho | ho <;> simp [ho]
  · exact .tail _ (.tail _ hmem)

/-- `buffer_` is the whole of `raw_buffer_`, as `feed` leaves it. -/
def Tight (s : IncrementalBuffers) : Prop := s.bufferSize = s.rawBuffer.length

/-- `reserve_in_place_buffer`, then the copy of `data` at `in_place_buffer()`, when `buffer_`
fills `raw_buffer_`: `raw_buffer_` grows by `data`. -/
theorem writeInPlaceBuffer_reserve {s : IncrementalBuffers} (hf : s.Tight) (data : List Byte) :
    (s.reserveInPlaceBuffer data.length).writeInPlaceBuffer data =
      { s with rawBuffer := s.rawBuffer ++ data } := by
  have hf : s.bufferSize = s.rawBuffer.length := hf
  unfold reserveInPlaceBuffer inPlaceBufferCapacity
  split_ifs with hcap
  · -- no room is needed: `data` is empty
    obtain rfl : data = [] := List.length_eq_zero.mp (by omega)
    simp only [writeInPlaceBuffer, inPlaceBuffer, hf, List.take_length, List.length_nil,
      Nat.add_zero, List.drop_length, List.append_nil]
  · -- `resize` pads `raw_buffer_` with `data.length` zeros, which the copy overwrites
    have hres : resize s.rawBuffer (s.rawBuffer.length + data.length) =
        s.rawBuffer ++ List.replicate data.length 0 := by
      rw [resize, List.take_of_length_le (by omega), Nat.add_sub_cancel_left]
    have hdrop : (s.rawBuffer ++ List.replicate data.length 0).drop
        (s.rawBuffer.length + data.length) = [] := List.drop_eq_nil_of_le
        (by simp only [List.length_append, List.length_replicate, le_refl])
    simp only [writeInPlaceBuffer, inPlaceBuffer, hf, hres, List.take_left, hdrop,
      List.append_nil]

/-- The emission at `q`, from the count back at zero: `raw_buffer_[0, q]` is queued and
`buffer_` keeps the bytes after it. -/
theorem emit_within {s : IncrementalBuffers} (hs : s.Initialized) (hf : s.Tight) {q : Nat}
    (hq : q < s.bufferSize) :
    (emit (s.within 0 false) q).Initialized ∧ (emit (s.within 0 false) q).Tight ∧
      (emit (s.within 0 false) q).buffer = s.buffer.drop (q + 1) ∧
      (emit (s.within 0 false) q).serializedObjects =
        s.serializedObjects ++ [s.buffer.take (q + 1)] := by
  unfold Tight at hf
  refine ⟨⟨hs.opener, hs.closer, hs.tokens⟩, ?_, ?_, ?_⟩
  · simp only [Tight, emit, within, List.length_drop]; omega
  · simp only [buffer, emit, within, List.drop_take]
  · simp only [emit, within, buffer, List.take_take, Nat.min_eq_left hq,
      resize_of_le (show q + 1 ≤ s.rawBuffer.length by omega)]

/-- **Values after separators.**  From the count at zero at the start of `buffer_`, the loop
emits each value of `gapped`, with the separator before it, and stops with `buffer_` holding the
tail. -/
theorem scan_values {o : Byte} {tail : List Byte} (htail : gapBytes o tail) :
    ∀ (vs : List (List Byte × List Byte)) {s : IncrementalBuffers}, s.Initialized → s.Tight →
      s.firstChar = o → s.buffer = gapped o vs ++ tail →
      (∀ v ∈ vs, gapBytes o v.1 ∧ wholeValue (o :: v.2)) →
      ∃ s', scan ndebug s.bufferSize 0 (s.within 0 false) = some s' ∧
        s'.serializedObjects = s.serializedObjects ++ vs.map (fun v => v.1 ++ o :: v.2) ∧
        s'.buffer = tail ∧ s'.depth = 0 ∧ s'.Tight
  | [], s, hs, hf, rfl, hbuf, _ =>
    ⟨s.within 0 false,
      scan_no_tokens ndebug (s := s.within 0 false) ⟨hs.opener, hs.closer, hs.tokens⟩
      (by rw [within_buffer, within_tokens, hbuf]; exact gapBytes_not_token hs htail) _ _,
      (List.append_nil _).symm, hbuf, rfl, hf⟩
  | (sep, body) :: vs, s, hs, hf, rfl, hbuf, hvs => by
    obtain ⟨⟨hsep, hv⟩, hvs⟩ := List.forall_mem_cons.mp hvs
    have hbuf' : s.buffer = sep ++ s.firstChar :: body ++ (gapped s.firstChar vs ++ tail) := by
      rw [hbuf, gapped, List.flatMap_cons, List.append_assoc]; rfl
    have hlen : s.bufferSize = s.buffer.length := (List.length_take_of_le hf.le).symm
    have hq : sep.length + body.length < s.bufferSize := by
      rw [hlen, hbuf']; simp only [List.length_append, List.length_cons]; omega
    obtain ⟨hs₁, hf₁, hbuf₁, hso₁⟩ := emit_within hs hf hq
    have hbuf₁' : (emit (s.within 0 false) (sep.length + body.length)).buffer =
        gapped s.firstChar vs ++ tail := by
      rw [hbuf₁, hbuf',
        List.drop_left' (by simp only [List.length_append, List.length_cons]; omega)]
    obtain ⟨s', hrun, hso, htl, hd, hf'⟩ := scan_values htail vs hs₁ hf₁ rfl hbuf₁' hvs
    refine ⟨s', ?_, ?_, htl, hd, hf'⟩
    · have hgap := scan_gap ndebug hs sep (gapBytes_not_token hs hsep) (p := 0)
        (by rw [List.drop_zero, hbuf']; simp) ((gapped s.firstChar vs ++ tail).length + body.length)
      have hval := scan_value ndebug hs (i := sep.length) (by rw [hbuf']; simp) hv
        (gapped s.firstChar vs ++ tail).length
      have hfuel : s.bufferSize =
          (gapped s.firstChar vs ++ tail).length + body.length + (sep.length + 1) := by
        rw [hlen, hbuf']; simp only [List.length_append, List.length_cons]; omega
      rw [hfuel, hgap, Nat.zero_add, hval, ← hrun]
      congr 1
      rw [← hbuf₁', ← List.length_take_of_le hf₁.le]; rfl
    · rw [hso, hso₁, hbuf',
        List.take_left' (by simp only [List.length_append, List.length_cons]; omega),
        List.map_cons, List.append_assoc, List.singleton_append]

end Track

/-- `s` once `initialize(o)` has run on the chunk `data`, written at the front of an empty
`buffer_`, before the loop. -/
def opened (s : IncrementalBuffers) (o : Byte) (data : List Byte) : IncrementalBuffers :=
  { s with
    inString := false, depth := 1, firstChar := o, lastChar := closerOf o,
    tokens := [o, closerOf o, quote], bufferSize := data.length, rawBuffer := data }

theorem initFirstChar_opener (ndebug : Bool) (s : IncrementalBuffers) {o : Byte}
    (ho : o = lbrace ∨ o = lbracket) :
    initFirstChar ndebug o s =
      some { s with
        firstChar := o, lastChar := closerOf o, tokens := [o, closerOf o, quote], depth := 1,
        inString := false } := by
  rcases ho with rfl | rfl <;> rfl

/-- A chunk that starts with an opener, fed to a framer whose `buffer_` and `raw_buffer_` are
empty: `initialize` records the opener, and the loop starts at the byte after it. -/
theorem feed_empty (ndebug : Bool) {s : IncrementalBuffers} (h0 : s.bufferSize = 0)
    (hr : s.rawBuffer = []) {o : Byte} (ho : o = lbrace ∨ o = lbracket) (t : List Byte) :
    s.feed ndebug (o :: t) = scan ndebug t.length 1 (s.opened o (o :: t)) := by
  have hf : s.Tight := by show s.bufferSize = s.rawBuffer.length; rw [h0, hr]; rfl
  have hfind : findFirstOf (o :: t) [lbrace, lbracket] 0 = some 0 := by
    rcases ho with rfl | rfl <;> rfl
  rw [feed, writeInPlaceBuffer_reserve hf, inPlaceBufferConsumed, List.length_cons,
    if_neg (Nat.succ_ne_zero _), incrementalParse, if_pos h0]
  simp only [inPlaceBuffer, h0, hr, List.nil_append, List.drop_zero, List.length_cons,
    List.take_succ_cons, List.take_length, hfind, List.getD_cons_zero,
    initFirstChar_opener ndebug _ ho, Option.some_bind, parseAppended, Nat.zero_add,
    Nat.add_sub_cancel]
  rfl

/-- **Values after separators, in one chunk.**  Fed to a framer whose `buffer_` and
`raw_buffer_` are empty, a chunk made of a value, then values each after a separator, then a
tail of separator bytes, every value opened by the same `o`: the code queues every value, each
with the separator before it, and keeps the tail, with the count at zero. -/
theorem feed_values (ndebug : Bool) {s : IncrementalBuffers} (h0 : s.bufferSize = 0)
    (hr : s.rawBuffer = []) {o : Byte} (ho : o = lbrace ∨ o = lbracket) {body : List Byte}
    {vs : List (List Byte × List Byte)} {tail : List Byte} (hv : wholeValue (o :: body))
    (hvs : ∀ v ∈ vs, gapBytes o v.1 ∧ wholeValue (o :: v.2)) (htail : gapBytes o tail) :
    ∃ s', s.feed ndebug (o :: body ++ gapped o vs ++ tail) = some s' ∧
      s'.serializedObjects =
        s.serializedObjects ++ (o :: body) :: vs.map (fun v => v.1 ++ o :: v.2) ∧
      s'.buffer = tail ∧ s'.depth = 0 ∧ s'.Tight := by
  rw [List.append_assoc]
  generalize hrest : gapped o vs ++ tail = rest
  have hs : (s.opened o (o :: body ++ rest)).Initialized := ⟨ho, rfl, rfl⟩
  have hbuf : (s.opened o (o :: body ++ rest)).buffer = o :: body ++ rest := List.take_length _
  have hval := scan_value ndebug hs (i := 0)
    (by rw [hbuf]; exact List.prefix_append _ _) hv rest.length
  rw [Nat.zero_add, Nat.zero_add] at hval
  obtain ⟨hs₁, hf₁, hbuf₁, hso₁⟩ := emit_within hs rfl (q := body.length)
    (by simp only [opened, List.length_cons, List.length_append]; omega)
  obtain ⟨s', hrun, hso, htl, hd, hf'⟩ := scan_values ndebug htail vs hs₁ hf₁ rfl
    (by rw [hbuf₁, hbuf, ← hrest]; simp) hvs
  have hfuel : (emit ((s.opened o (o :: body ++ rest)).within 0 false) body.length).bufferSize =
      rest.length := by
    simp only [emit, within, opened, List.length_cons, List.length_append]; omega
  refine ⟨s', ?_, by rw [hso, hso₁, hbuf]; simp [opened], htl, hd, hf'⟩
  rw [List.cons_append, feed_empty ndebug h0 hr ho,
    show (body ++ rest).length = rest.length + body.length by
      simp only [List.length_append]; omega]
  change scan ndebug _ 1 ((s.opened o (o :: body ++ rest)).within 1 false) = _
  rw [hval, ← hfuel]
  exact hrun

/-! ## §5. A stream of values in one chunk is framed as the spec frames it. -/

/-- **A stream of values in one chunk.**  A chunk made of a value, then values each after a
separator, then a tail, every value opened by the same `o` and free of an escaped `"` outside its
strings, every separator and the tail made of bytes that are neither `{`, `[`, the closer of `o`
nor `"` (`gapBytes`), fed whole to a fresh framer: the code queues every value, each
with the separator before it, and keeps the tail in `buffer_` with the count at zero; the spec's
framer emits the same values, without the separators. -/
theorem feed_one_chunk_frames_values (ndebug : Bool) {o : Byte} (ho : o = lbrace ∨ o = lbracket)
    (body : List Byte) (vs : List (List Byte × List Byte)) (tail : List Byte)
    (hv : wholeValue (o :: body)) (hvs : ∀ v ∈ vs, gapBytes o v.1 ∧ wholeValue (o :: v.2))
    (htail : gapBytes o tail) :
    ((fresh.feed ndebug (o :: body ++ gapped o vs ++ tail)).map
        fun s => (s.serializedObjects, s.buffer, s.depth)) =
      some ((o :: body) :: vs.map (fun v => v.1 ++ o :: v.2), tail, 0) ∧
    frameRef (o :: body ++ gapped o vs ++ tail) = (o :: body) :: vs.map (fun v => o :: v.2) := by
  obtain ⟨s', hfeed, hso, htl, hd, -⟩ := feed_values ndebug (s := fresh) rfl rfl ho hv hvs htail
  refine ⟨by rw [hfeed, Option.map_some', hso, htl, hd]; rfl, ?_⟩
  rw [List.append_assoc, frameRef, frameRefFrom_value ho (frameRef_of_wholeValue hv),
    frameRefFrom_gapped ho htail vs hvs]

/-- `{}` then `{}`, each line ended by a newline, in one chunk: the second buffer starts with the
first newline. -/
theorem feed_one_chunk_frames_values_two_lines :
    (lbrace = lbrace ∨ lbrace = lbracket) ∧ wholeValue [lbrace, rbrace] = true ∧
    (∀ v ∈ [([0x0a], [rbrace])], gapBytes lbrace v.1 = true ∧ wholeValue (lbrace :: v.2) = true) ∧
    gapBytes lbrace [0x0a] = true ∧
    (((fresh.feed true ([lbrace, rbrace] ++ gapped lbrace [([0x0a], [rbrace])] ++ [0x0a])).map
        fun s => (s.serializedObjects, s.buffer, s.depth)) =
      some ([lbrace, rbrace] :: [([0x0a], [rbrace])].map (fun v => v.1 ++ lbrace :: v.2), [0x0a], 0) ∧
    frameRef ([lbrace, rbrace] ++ gapped lbrace [([0x0a], [rbrace])] ++ [0x0a]) =
      [lbrace, rbrace] :: [([0x0a], [rbrace])].map (fun v => lbrace :: v.2)) :=
  ⟨.inl rfl, by decide, by decide, by decide,
    feed_one_chunk_frames_values true (.inl rfl) [rbrace] [([0x0a], [rbrace])] [0x0a] (by decide)
      (by decide) (by decide)⟩

/-! ## §6. Values in chunks. -/

/-- `s` once `feed` has written the chunk `data` after a `buffer_` that fills `raw_buffer_`. -/
def grow (s : IncrementalBuffers) (data : List Byte) : IncrementalBuffers :=
  { s with bufferSize := s.bufferSize + data.length, rawBuffer := s.rawBuffer ++ data }

theorem buffer_of_tight {s : IncrementalBuffers} (hf : s.Tight) : s.buffer = s.rawBuffer := by
  rw [buffer, show s.bufferSize = s.rawBuffer.length from hf, List.take_length]

theorem grow_tight {s : IncrementalBuffers} (hf : s.Tight) (data : List Byte) :
    (s.grow data).Tight := by
  show s.bufferSize + data.length = (s.rawBuffer ++ data).length
  rw [List.length_append, show s.bufferSize = s.rawBuffer.length from hf]

theorem grow_buffer {s : IncrementalBuffers} (hf : s.Tight) (data : List Byte) :
    (s.grow data).buffer = s.buffer ++ data := by
  rw [buffer_of_tight (grow_tight hf data), buffer_of_tight hf]; rfl

theorem Initialized.grow {s : IncrementalBuffers} (hs : s.Initialized) (data : List Byte) :
    (s.grow data).Initialized :=
  ⟨hs.opener, hs.closer, hs.tokens⟩

/-- The spec's framer after all of `buffer_`, inside the value opened at its start. -/
theorem refAt_length (s : IncrementalBuffers) (d : Nat) (ins : Bool) :
    s.refAt 0 s.buffer.length d ins =
      .value s.firstChar s.lastChar d ins (isEscaped s.buffer s.buffer.length) s.buffer := by
  rw [refAt, List.take_length, List.drop_zero]

/-- Growing `buffer_` leaves what the spec's framer has read of it alone. -/
theorem refAt_grow {s : IncrementalBuffers} (hf : s.Tight) (data : List Byte) (d : Nat)
    (ins : Bool) :
    (s.grow data).refAt 0 s.buffer.length d ins = s.refAt 0 s.buffer.length d ins := by
  rw [refAt, refAt, grow_buffer hf, isEscaped, isEscaped, isEscapedFrom_append data le_rfl,
    List.take_left, List.take_length]
  rfl

/-- A chunk fed to a framer whose `buffer_` is not empty and fills `raw_buffer_`: `raw_buffer_`
grows by the chunk, and the loop resumes at the chunk's second byte. -/
theorem feed_grow (ndebug : Bool) {s : IncrementalBuffers} (hf : s.Tight) (h0 : 0 < s.bufferSize)
    (b : Byte) (t : List Byte) :
    s.feed ndebug (b :: t) = scan ndebug t.length (s.bufferSize + 1) (s.grow (b :: t)) := by
  rw [feed, writeInPlaceBuffer_reserve hf, inPlaceBufferConsumed, List.length_cons,
    if_neg (Nat.succ_ne_zero _), incrementalParse, if_neg h0.ne', parseAppended]
  simp only [List.length_cons, Nat.add_sub_add_left, Nat.add_sub_cancel]
  rfl

/-- A `buffer_` that fills `raw_buffer_` and holds nothing leaves both empty. -/
theorem empty_of_tight {s : IncrementalBuffers} (hf : s.Tight) (hb : s.buffer = []) :
    s.bufferSize = 0 ∧ s.rawBuffer = [] := by
  have hr : s.rawBuffer = [] := (buffer_of_tight hf).symm.trans hb
  exact ⟨by rw [show s.bufferSize = s.rawBuffer.length from hf, hr]; rfl, hr⟩

/-- **The rest of a value, in chunks.**  A framer inside a value, whose `buffer_` holds the value
so far and fills `raw_buffer_`, fed the rest of the value in chunks that each start with a byte
the loop does not stop at, queues the whole value when its last byte arrives: the byte the loop
skips at the start of each chunk is one it would have passed over. -/
theorem feedAll_value_rest (ndebug : Bool) :
    ∀ (cs : List (List Byte)) {s : IncrementalBuffers} {d : Nat} {ins : Bool},
      s.Initialized → s.Tight → 1 ≤ d → 0 < s.buffer.length →
      (∀ c ∈ cs, ∃ b t, c = b :: t ∧ b ∉ s.tokens) →
      cleanFrom (s.refAt 0 s.buffer.length d ins) cs.flatten = true →
      frameRefFrom (s.refAt 0 s.buffer.length d ins) cs.flatten = [s.buffer ++ cs.flatten] →
      ∃ s', feedAll ndebug cs (s.within d ins) = some s' ∧
        s'.serializedObjects = s.serializedObjects ++ [s.buffer ++ cs.flatten] ∧
        s'.bufferSize = 0 ∧ s'.rawBuffer = []
  | [], _, _, _, _, _, _, _, _, _, hv => nomatch hv
  | c :: cs, s, d, ins, hs, hf, hd, hpos, hcs, hclean, hv => by
    obtain ⟨⟨b, t, rfl, hb⟩, hrest⟩ := List.forall_mem_cons.mp hcs
    have hbuf := grow_buffer hf (b :: t)
    have hn : s.bufferSize = s.buffer.length := by rw [buffer_of_tight hf]; exact hf
    have hpre : b :: t <+: (s.grow (b :: t)).buffer.drop s.buffer.length := by
      simp only [hbuf, List.drop_left, List.prefix_refl]
    -- `feed` skips `b`, which the loop would have passed over
    have hfeed : (s.within d ins).feed ndebug (b :: t) =
        scan ndebug (b :: t).length s.buffer.length ((s.grow (b :: t)).within d ins) := by
      have hskip : ((s.grow (b :: t)).within d ins).buffer.getD s.buffer.length 0 ∉
          ((s.grow (b :: t)).within d ins).tokens := by
        rw [within_buffer, (cons_prefix_drop hpre).2.1]; exact hb
      rw [feed_grow ndebug (s := s.within d ins) hf (by show 0 < s.bufferSize; omega),
        List.length_cons, scan_skip ndebug hskip, ← hn]
      rfl
    rw [List.flatten_cons] at hclean hv ⊢
    rcases cs with _ | ⟨c', cs⟩
    · -- the last chunk: the loop emits the value at the spec's last byte
      rw [List.flatten_nil, List.append_nil] at hclean hv ⊢
      obtain ⟨q, -, hq, hval, hscan⟩ := scan_within_emits ndebug (hs.grow _) (b :: t)
        (Nat.zero_le _) hd hpre (by rw [refAt_grow hf]; exact hclean)
        (by rw [refAt_grow hf, hv]; rfl)
      have hlen := congrArg List.length hval
      rw [List.length_drop, List.length_take, hbuf, List.length_append] at hlen
      have hfuel : (b :: t).length = 0 + (q + 1 - s.buffer.length) := by omega
      obtain ⟨-, hf', hbuf', hso⟩ := emit_within (hs.grow _) (grow_tight hf _) (q := q)
        (by show q < s.bufferSize + (b :: t).length; omega)
      have hempty : (emit ((s.grow (b :: t)).within 0 false) q).buffer = [] := by
        rw [hbuf', hbuf]
        exact List.drop_eq_nil_of_le (by rw [List.length_append]; omega)
      refine ⟨_, ?_, by rw [hso, ← List.drop_zero (List.take _ _), ← hval]; rfl,
        empty_of_tight hf' hempty⟩
      rw [feedAll, List.foldlM_cons, hfeed, hfuel, hscan 0]
      rfl
    · -- a later chunk follows: the loop runs over this one
      have hne : (c' :: cs).flatten ≠ [] := by
        obtain ⟨b', t', rfl, -⟩ := hrest c' (.head _)
        simp
      rw [cleanFrom_append, Bool.and_eq_true] at hclean
      have hnil : frameRefFrom (s.refAt 0 s.buffer.length d ins) (b :: t) = [] := by
        rw [refAt_length] at hv ⊢
        exact frameRefFrom_nil_of_prefix hne (by rw [hv, List.append_assoc])
      obtain ⟨d', ins', hd', hrun, hscan⟩ := scan_within_runs ndebug (hs.grow _) (b :: t)
        (Nat.zero_le _) hd hpre (by rw [refAt_grow hf]; exact hclean.1)
        (by rw [refAt_grow hf]; exact hnil)
      rw [refAt_grow hf] at hrun
      have hlen : (s.grow (b :: t)).buffer.length = s.buffer.length + (b :: t).length := by
        rw [hbuf, List.length_append]
      rw [frameRefFrom_append, hnil, List.nil_append, hrun] at hv
      rw [hrun] at hclean
      obtain ⟨s', hfeed', hso, hempty⟩ := feedAll_value_rest ndebug (c' :: cs) (hs.grow _)
        (grow_tight hf _) hd' (by rw [hlen]; omega) hrest (by rw [hlen]; exact hclean.2)
        (by rw [hlen, hv, hbuf, List.append_assoc])
      refine ⟨s', ?_, by rw [hso, hbuf, List.append_assoc]; rfl, hempty⟩
      rw [feedAll, List.foldlM_cons, hfeed, ← Nat.zero_add (b :: t).length, hscan 0]
      exact hfeed'

/-- **One value in chunks.**  From a framer whose `buffer_` and `raw_buffer_` are empty, a
whole value fed in chunks, each after the first starting as `cutBefore` asks, is queued, and
leaves both empty again. -/
theorem feedAll_value_in_chunks (ndebug : Bool) {s : IncrementalBuffers} (h0 : s.bufferSize = 0)
    (hr : s.rawBuffer = []) {o : Byte} (ho : o = lbrace ∨ o = lbracket) (c₀ : List Byte)
    (cs : List (List Byte)) (hv : wholeValue (o :: c₀ ++ cs.flatten))
    (hcs : ∀ c ∈ cs, cutBefore o c = true) :
    ∃ s', feedAll ndebug ((o :: c₀) :: cs) s = some s' ∧
      s'.serializedObjects = s.serializedObjects ++ [o :: c₀ ++ cs.flatten] ∧
      s'.bufferSize = 0 ∧ s'.rawBuffer = [] := by
  rcases cs with _ | ⟨c', cs⟩
  · -- one chunk
    rw [List.flatten_nil, List.append_nil] at hv ⊢
    obtain ⟨s₁, hfeed, hso, hbuf, -, hf⟩ :=
      @feed_values ndebug s h0 hr o ho c₀ [] [] hv (fun _ h => nomatch h) rfl
    simp only [gapped, List.flatMap_nil, List.append_nil, List.map_nil] at hfeed hso
    exact ⟨s₁, by rw [feedAll, List.foldlM_cons, hfeed]; rfl, hso, empty_of_tight hf hbuf⟩
  -- the first chunk: `initialize`, then the loop over the rest of it
  set s₁ := s.opened o (o :: c₀)
  have hs₁ : s₁.Initialized := ⟨ho, rfl, rfl⟩
  have hbuf₁ : s₁.buffer = o :: c₀ := List.take_length _
  have hst : s₁.refAt 0 1 1 false = .value o (closerOf o) 1 false false [o] :=
    (refAt_opener hs₁ (i := 0) (by rw [hbuf₁]; simp) (by rw [hbuf₁]; rfl)).trans
      (congrArg Prod.fst (refStep_idle_of_opener ho))
  simp only [wholeValue, Bool.and_eq_true, decide_eq_true_eq] at hv
  obtain ⟨hframe, hclean⟩ := hv
  rw [frameRef, List.cons_append, frameRefFrom, refStep_idle_of_opener ho, Option.toList_none,
    List.nil_append, ← hst] at hframe
  rw [List.cons_append, cleanFrom, refStep_idle_of_opener ho] at hclean
  simp only [escapedQuoteOutside, Bool.not_false, Bool.true_and, ← hst, cleanFrom_append,
    Bool.and_eq_true] at hclean
  have hcs' : ∀ c ∈ c' :: cs, ∃ b t, c = b :: t ∧ b ∉ s₁.tokens :=
    fun c hc => exists_of_cutBefore (hcs c hc)
  have hne : (c' :: cs).flatten ≠ [] := by
    obtain ⟨b', t', rfl, -⟩ := hcs' c' (.head _)
    simp
  have hnil : frameRefFrom (s₁.refAt 0 1 1 false) c₀ = [] := by
    rw [hst] at hframe ⊢; exact frameRefFrom_nil_of_prefix hne hframe
  obtain ⟨d', ins', hd', hrun, hscan⟩ := scan_within_runs ndebug hs₁ c₀ (Nat.zero_le _) le_rfl
    (by simp only [hbuf₁, List.drop_one, List.tail_cons, List.prefix_refl]) hclean.1 hnil
  -- the later chunks
  have hlen : s₁.buffer.length = 1 + c₀.length := by rw [hbuf₁, List.length_cons, Nat.add_comm]
  rw [frameRefFrom_append, hnil, List.nil_append, hrun] at hframe
  rw [hrun] at hclean
  obtain ⟨s', hfeed, hso, hempty⟩ := feedAll_value_rest ndebug (c' :: cs) hs₁ rfl hd'
    (by rw [hlen]; omega) hcs' (by rw [hlen]; exact hclean.2)
    (by rw [hlen, hframe, hbuf₁]; rfl)
  refine ⟨s', ?_, by rw [hso, hbuf₁]; rfl, hempty⟩
  rw [feedAll, List.foldlM_cons, feed_empty ndebug h0 hr ho, ← Nat.zero_add c₀.length]
  change scan ndebug (0 + c₀.length) 1 (s₁.within 1 false) >>= _ = _
  rw [hscan 0]
  exact hfeed

/-- Values in chunks, one after the other, fed to a framer whose `buffer_` and `raw_buffer_` are
empty, are queued one by one. -/
theorem feedAll_chunked (ndebug : Bool) :
    ∀ (vs : List Chunked) {s : IncrementalBuffers}, s.bufferSize = 0 → s.rawBuffer = [] →
      ∃ s', feedAll ndebug (vs.flatMap Chunked.chunks) s = some s' ∧
        s'.serializedObjects = s.serializedObjects ++ vs.map Chunked.value
  | [], s, _, _ => ⟨s, rfl, (List.append_nil _).symm⟩
  | v :: vs, s, h0, hr => by
    obtain ⟨s₁, hrun₁, hso₁, h0₁, hr₁⟩ :=
      feedAll_value_in_chunks ndebug h0 hr v.isOpener v.first v.later v.whole v.cuts
    obtain ⟨s', hrun, hso⟩ := feedAll_chunked ndebug vs h0₁ hr₁
    refine ⟨s', ?_, by rw [hso, hso₁, List.map_cons, List.append_assoc]; rfl⟩
    rw [List.flatMap_cons, feedAll_append]
    exact hrun₁ ▸ hrun

/-- **Values in chunks.**  A stream of values, each opened by `{` or `[` and free of an escaped
`"` outside its strings, each value beginning a chunk of its own and its later chunks cut only
before a byte that is neither the value's opener, nor its closer, nor `"`: a fresh framer queues
exactly the values, as the spec's framer cuts them from the stream.  The cut matters because the
loop never looks at the first byte of a chunk that extends `buffer_`. -/
theorem emitted_chunked_values (ndebug : Bool) (vs : List Chunked) :
    emitted ndebug (vs.flatMap Chunked.chunks) = some (vs.map Chunked.value) ∧
      frameRef (vs.map Chunked.value).flatten = vs.map Chunked.value := by
  obtain ⟨s', hrun, hso⟩ := feedAll_chunked ndebug vs (s := fresh) rfl rfl
  refine ⟨by rw [emitted, hrun, Option.map_some', hso]; rfl, frameRef_whole_values _ ?_⟩
  simp only [List.mem_map]
  rintro _ ⟨v, -, rfl⟩
  exact ⟨⟨v.opener, _, v.isOpener, rfl⟩, v.whole⟩

/-- `{"a":` then `1}`, then `[]` in a chunk of its own: the second chunk starts with `1`, which
the loop would have passed over, and the kind of value changes from one value to the next. -/
theorem emitted_chunked_values_object_then_array :
    let vs : List Chunked :=
      [⟨lbrace, [quote, 0x61, quote, 0x3a], [[0x31, rbrace]], .inl rfl, by decide, by decide⟩,
        ⟨lbracket, [rbracket], [], .inr rfl, by decide, by decide⟩]
    vs.flatMap Chunked.chunks =
        [[lbrace, quote, 0x61, quote, 0x3a], [0x31, rbrace], [lbracket, rbracket]] ∧
      (emitted true (vs.flatMap Chunked.chunks) = some (vs.map Chunked.value) ∧
        frameRef (vs.map Chunked.value).flatten = vs.map Chunked.value) :=
  ⟨rfl, emitted_chunked_values true _⟩

/-- Two values of different kinds in one chunk are outside the theorem: `{}[]` queues `{}` and
keeps `[]` in `buffer_`, where the spec's framer cuts both. -/
example : emitted true [[lbrace, rbrace, lbracket, rbracket]] = some [[lbrace, rbrace]] ∧
    frameRef [lbrace, rbrace, lbracket, rbracket] = [[lbrace, rbrace], [lbracket, rbracket]] := by
  decide

end IncrementalBuffers

end Packio.NlJsonRpc
