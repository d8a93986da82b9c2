import Mathlib.Data.List.DropRight
import WebOauthMcp.CapturedOutput

/-!
# The windows of a captured stream

The chunks of a stream are added one after the other. What is kept and counted depends on the
stream only, not on where the chunks end.
-/

namespace WebOauthMcp.StreamWindows
open CodePoints CapturedOutput StreamCapture

/-- The lines of a stream. A line ends with LF, CR or CR LF, or with the stream. -/
def lineCount : Bytes → ℕ
  | [] => 0
  | [_] => 1
  | a :: b :: rest =>
    if a = carriageReturnByte ∧ b = lineFeedByte then 1 + lineCount rest
    else if a = carriageReturnByte ∨ a = lineFeedByte then 1 + lineCount (b :: rest)
    else lineCount (b :: rest)

/-- What a capture holds of a stream, with `max` octets to keep. -/
structure Exact (max : ℕ) (stream : Bytes) (c : StreamCapture) : Prop where
  head : c.head = stream.take ((max + 1) / 2)
  tail : c.tail = (stream.drop ((max + 1) / 2)).rtake (max / 2)
  length_tail : c.tail.length = min (max / 2) (stream.length - (max + 1) / 2)
  totalBytes : c.totalBytes = stream.length
  totalLines : c.totalLines = lineCount stream
  retained_add_dropped : c.retainedBytes + c.droppedBytes = c.totalBytes
  whole_iff : c.droppedBytes = 0 ↔ c.head ++ c.tail = stream

/-! ## The last items of a list -/

section
variable {α : Type} (n : ℕ) (xs ys : List α)

theorem length_rtake : (xs.rtake n).length = min n xs.length := by
  rw [List.rtake, List.length_drop]
  omega

theorem rtake_of_length_le (h : xs.length ≤ n) : xs.rtake n = xs := by
  rw [List.rtake, Nat.sub_eq_zero_of_le h, List.drop_zero]

theorem rtake_rtake_append : (xs.rtake n ++ ys).rtake n = (xs ++ ys).rtake n := by
  simp only [List.rtake_eq_reverse_take_reverse, List.reverse_append, List.reverse_reverse, List.take_append,
    List.take_take, Nat.sub_le, Nat.min_eq_left]

end

/-! ## Line breaks -/

section
variable {α : Type} [DecidableEq α] (cr lf : α)

theorem countPairs_cons (a : α) (xs : List α) :
    countPairs cr lf (a :: xs) = (if a = cr ∧ xs.head? = some lf then 1 else 0) + countPairs cr lf xs := by
  cases xs with
  | nil => simp [countPairs]
  | cons b xs => simp [countPairs]

theorem countPairs_append (xs ys : List α) : countPairs cr lf (xs ++ ys) =
    countPairs cr lf xs + countPairs cr lf ys + if xs.getLast? = some cr ∧ ys.head? = some lf then 1 else 0 := by
  induction xs with
  | nil => simp [countPairs]
  | cons a xs ih =>
    rw [List.cons_append, countPairs_cons, countPairs_cons, ih]
    cases xs with
    | nil => simp [countPairs, Nat.add_comm]
    | cons b xs =>
      rw [List.cons_append, List.head?_cons, List.head?_cons, List.getLast?_cons_cons]
      omega

/-- Each pair has a break of its own. -/
theorem countPairs_le (xs : List α) : countPairs cr lf xs ≤ xs.count cr := by
  induction xs with
  | nil => simp [countPairs]
  | cons a xs ih =>
    rw [countPairs_cons, List.count_cons]
    by_cases ha : a = cr
    · subst ha
      simp only [beq_self_eq_true, if_true, true_and]
      split_ifs <;> omega
    · simp only [ha, false_and, if_false]
      omega

theorem countBreaks_append (xs ys : List α) : countBreaks cr lf (xs ++ ys) =
    countBreaks cr lf xs + countBreaks cr lf ys - if xs.getLast? = some cr ∧ ys.head? = some lf then 1 else 0 := by
  have hxs := countPairs_le cr lf xs
  have hys := countPairs_le cr lf ys
  rw [countBreaks, countBreaks, countBreaks, countPairs_append, List.count_append, List.count_append]
  omega

end

theorem countBreaks_cons (b : Byte) (rest : Bytes) :
    countBreaks carriageReturnByte lineFeedByte (b :: rest) = (if b = carriageReturnByte ∧ rest.head? = some lineFeedByte then 0
      else if b = carriageReturnByte ∨ b = lineFeedByte then 1 else 0) + countBreaks carriageReturnByte lineFeedByte rest := by
  have hle := countPairs_le carriageReturnByte lineFeedByte rest
  have hne : carriageReturnByte ≠ lineFeedByte := by decide
  simp only [countBreaks, countPairs_cons, List.count_cons, beq_iff_eq]
  by_cases hcr : b = carriageReturnByte
  · subst hcr
    simp only [hne, if_false, if_true, true_and, true_or]
    split_ifs <;> omega
  · simp only [hcr, if_false, false_and, false_or]
    split_ifs <;> omega

theorem countLines_cons_cons (a b : Byte) (rest : Bytes) :
    countLines carriageReturnByte lineFeedByte (a :: b :: rest) = (if a = carriageReturnByte ∧ b = lineFeedByte then 0
      else if a = carriageReturnByte ∨ a = lineFeedByte then 1 else 0) + countLines carriageReturnByte lineFeedByte (b :: rest) := by
  have hbreaks := countBreaks_cons a (b :: rest)
  simp only [List.head?_cons, Option.some.injEq] at hbreaks
  rw [countLines, countLines, List.getLast?_cons_cons, hbreaks]
  cases hlast : (b :: rest).getLast? with
  | none => exact absurd (List.getLast?_eq_none_iff.mp hlast) (List.cons_ne_nil b rest)
  | some last => exact Nat.add_assoc _ _ _

theorem countLines_eq (stream : Bytes) : countLines carriageReturnByte lineFeedByte stream = lineCount stream := by
  induction stream using lineCount.induct with
  | case1 => rfl
  | case2 b =>
    have hbreaks := countBreaks_cons b []
    rw [lineCount, countLines, List.getLast?_singleton]
    simp only [hbreaks, List.head?_nil, reduceCtorEq, and_false, if_false, or_comm]
    split_ifs <;> rfl
  | case3 a b rest h ih =>
    rw [lineCount, if_pos h, countLines_cons_cons, if_pos h, Nat.zero_add, ← ih]
    obtain ⟨-, rfl⟩ := h
    cases rest with
    | nil => rfl
    | cons c rest =>
      have hother : lineFeedByte ≠ carriageReturnByte := by decide
      rw [countLines_cons_cons, if_neg (fun h => hother h.1), if_pos (.inr rfl)]
  | case4 a b rest h h' ih => rw [lineCount, if_neg h, if_pos h', countLines_cons_cons, if_neg h, if_pos h', ih]
  | case5 a b rest h h' ih =>
    rw [lineCount, if_neg h, if_neg h', countLines_cons_cons, if_neg h, if_neg h', ih, Nat.zero_add]

/-! ## One chunk after the other -/

/-- The fields of a capture that has seen `stream`. -/
structure Seen (max : ℕ) (stream : Bytes) (c : StreamCapture) : Prop where
  maxBytes : c.maxBytes = max
  head : c.head = stream.take ((max + 1) / 2)
  tail : c.tail = (stream.drop ((max + 1) / 2)).rtake (max / 2)
  totalBytes : c.totalBytes = stream.length
  lineBreaks : c.lineBreaks = countBreaks carriageReturnByte lineFeedByte stream
  lastByte : c.lastByte = stream.getLast?

variable {max : ℕ} {stream chunk : Bytes} {c : StreamCapture}

theorem seen_start (max : ℕ) : Seen max [] { maxBytes := max } := ⟨rfl, by simp, by simp, rfl, rfl, rfl⟩

theorem Seen.headLimit (h : Seen max stream c) : c.headLimit = (max + 1) / 2 := by
  rw [StreamCapture.headLimit, h.maxBytes]

theorem Seen.tailLimit (h : Seen max stream c) : c.tailLimit = max / 2 := by
  rw [StreamCapture.tailLimit, h.headLimit, h.maxBytes]
  omega

/-- The octets of a chunk that the head has no room for. -/
theorem Seen.behind_head (h : Seen max stream c) : c.headLimit - c.head.length = (max + 1) / 2 - stream.length := by
  rw [h.headLimit, h.head, List.length_take]
  omega

theorem Seen.keepTail (h : Seen max stream c) (rest : Bytes) : c.keepTail rest = (c.tail ++ rest).rtake (max / 2) := by
  have hlength : c.tail.length ≤ max / 2 := by
    rw [h.tail, length_rtake]
    exact Nat.min_le_left _ _
  rw [StreamCapture.keepTail, h.tailLimit]
  split_ifs with hskip
  · cases hskip with
    | inl hrest => rw [hrest, List.append_nil, rtake_of_length_le _ _ hlength]
    | inr hzero =>
      rw [hzero] at hlength ⊢
      rw [List.rtake_zero, List.eq_nil_of_length_eq_zero (Nat.le_zero.mp hlength)]
  · rfl

theorem Seen.add (h : Seen max stream c) (chunk : Bytes) : Seen max (stream ++ chunk) (c.add chunk) := by
  by_cases hchunk : chunk = []
  · rw [hchunk, List.append_nil, StreamCapture.add, if_pos rfl]
    exact h
  · rw [StreamCapture.add, if_neg hchunk]
    refine ⟨h.maxBytes, ?_, ?_, ?_, ?_, ?_⟩
    · rw [h.behind_head, h.head, List.take_append]
    · rw [h.behind_head, h.keepTail, h.tail, rtake_rtake_append, List.drop_append]
    · rw [h.totalBytes, List.length_append]
    · rw [h.lineBreaks, h.lastByte, countBreaks_append]
    · rw [List.getLast?_append_of_ne_nil _ hchunk]

theorem seen_drain (max : ℕ) (chunks : List Bytes) : Seen max chunks.flatten (drain max chunks) := by
  have hfold : ∀ (stream : Bytes) (c : StreamCapture), Seen max stream c →
      Seen max (stream ++ chunks.flatten) (chunks.foldl StreamCapture.add c) := by
    induction chunks with
    | nil =>
      intro stream c h
      rwa [List.flatten_nil, List.append_nil]
    | cons chunk chunks ih =>
      intro stream c h
      rw [List.flatten_cons, ← List.append_assoc]
      exact ih _ _ (h.add chunk)
  exact hfold [] _ (seen_start max)

theorem Seen.totalLines (h : Seen max stream c) : c.totalLines = lineCount stream := by
  rw [StreamCapture.totalLines, h.totalBytes, h.lineBreaks, h.lastByte, ← countLines_eq, countLines]
  cases hlast : stream.getLast? with
  | none =>
    rw [List.getLast?_eq_none_iff.mp hlast]
    rfl
  | some last =>
    have hne : stream.length ≠ 0 := by
      rintro hzero
      rw [List.eq_nil_of_length_eq_zero hzero] at hlast
      cases hlast
    simp only [if_neg hne, Option.some.injEq]

theorem Seen.exact (h : Seen max stream c) : Exact max stream c := by
  have hhead : c.head.length = min ((max + 1) / 2) stream.length := by rw [h.head, List.length_take]
  have htail : c.tail.length = min (max / 2) (stream.length - (max + 1) / 2) := by
    rw [h.tail, length_rtake, List.length_drop]
  have hdropped : c.droppedBytes = stream.length - (c.head.length + c.tail.length) := by
    rw [StreamCapture.droppedBytes, retainedBytes, h.totalBytes]
  refine ⟨h.head, h.tail, htail, h.totalBytes, h.totalLines, ?_, ?_⟩
  · rw [hdropped, retainedBytes, h.totalBytes]
    omega
  · constructor
    · intro hnone
      have hall : (stream.drop ((max + 1) / 2)).length ≤ max / 2 := by
        rw [List.length_drop]
        omega
      rw [h.head, h.tail, rtake_of_length_le _ _ hall, List.take_append_drop]
    · intro hwhole
      have hlength := congrArg List.length hwhole
      rw [List.length_append] at hlength
      omega

/-- Whatever the chunks, the capture shows the two ends of the stream and counts all of it. -/
theorem drain_exact (requested : ℤ) (chunks : List Bytes) :
    Exact requested.toNat chunks.flatten (drain requested.toNat chunks) := (seen_drain _ chunks).exact

/-- A CR LF cut in two, at the end of the head. -/
example : (drain 3 [[0x61, 0x0D], [0x0A, 0x62], [0x0D]]).totalLines = 2 := by decide

end WebOauthMcp.StreamWindows
