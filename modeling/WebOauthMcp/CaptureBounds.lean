import WebOauthMcp.BytePages
import WebOauthMcp.ContentSearch
import WebOauthMcp.PaneRecovery
import WebOauthMcp.TmuxCapture

/-!
# The end of a capture

A reply holds the end of what was captured, and says so where it is not all of it. The exception
is a long last line that is cut inside a character: the bytes that are left of the character are
replaced one by one, and each of them becomes three.
-/

namespace WebOauthMcp.CaptureBounds
open CodePoints Utf8Units LineSplitting HttpGate JsonText ExceptSteps ResponseBudget BudgetMetadata ReplyOffsets ReplyFields BytePages TmuxPanes
  TmuxCapture

/-! ## Cutting a line -/

theorem encodeReplace_eq {t : Text} (h : isEncodable t = true) : encodeReplace t = encoded t := by
  refine List.flatMap_congr fun c hc => ?_
  rw [(isEncodable_iff t).mp h c hc]
  rfl

theorem isEncodable_suffix {s t : Text} (hs : s <:+ t) (h : isEncodable t = true) : isEncodable s = true :=
  isEncodable_sublist (fun _ hc => hs.subset hc) h

/-- What is left behind a cut: the rest of a character, and the longest text that fits. -/
structure LeftBehind (t : Text) (room : ℕ) (bs cs : Bytes) (s : Text) : Prop where
  bytes : bs = cs ++ encoded s
  suffix : s <:+ t
  rest : ∀ b ∈ cs, isContinuation b = true
  longest : ∀ s', s' <:+ t → (encoded s').length ≤ room → s' <:+ s

theorem drop_encoded (t : Text) (n : ℕ) : ∃ cs s, LeftBehind t ((encoded t).length - n) ((encoded t).drop n) cs s := by
  induction t generalizing n with
  | nil => exact ⟨[], [], List.drop_nil, List.suffix_refl [], by simp, fun s' hs' _ => hs'⟩
  | cons c t ih =>
    have hpos := utf8Bytes_pos c
    by_cases hzero : n = 0
    · subst hzero
      exact ⟨[], c :: t, rfl, List.suffix_refl _, by simp, fun s' hs' _ => hs'⟩
    -- the whole text does not fit into what is left
    have hproper : ∀ s', s' <:+ c :: t → (encoded s').length ≤ (encoded (c :: t)).length - n → s' <:+ t := by
      intro s' hs' hlength
      cases List.suffix_cons_iff.mp hs' with
      | inr h => exact h
      | inl h =>
        rw [h, encoded_cons, List.length_append] at hlength
        omega
    by_cases hinside : n < (utf8Bytes c).length
    · obtain ⟨b, bs, hc⟩ := List.exists_cons_of_ne_nil (utf8Bytes_ne_nil c)
      refine ⟨(utf8Bytes c).drop n, t, ?_, List.suffix_cons c t, fun x hx => ?_, hproper⟩
      · rw [encoded_cons, List.drop_append_of_le_length hinside.le]
      · obtain ⟨m, rfl⟩ := Nat.exists_eq_succ_of_ne_zero hzero
        rw [hc, List.drop_succ_cons] at hx
        exact utf8Bytes_tail c b bs hc x (List.mem_of_mem_drop hx)
    · obtain ⟨cs, s, h⟩ := ih (n - (utf8Bytes c).length)
      have hdrop : (encoded (c :: t)).drop n = (encoded t).drop (n - (utf8Bytes c).length) := by
        rw [encoded_cons, List.drop_append, List.drop_eq_nil_of_le (Nat.le_of_not_lt hinside), List.nil_append]
      refine ⟨cs, s, hdrop.trans h.bytes, h.suffix.trans (List.suffix_cons c t), h.rest, fun s' hs' hlength => ?_⟩
      refine h.longest s' (hproper s' hs' hlength) ?_
      rw [encoded_cons, List.length_append] at hlength
      omega

variable {limit : ℕ} {line : Text}

/-- A cut line: a replacement for each byte of a broken character, and the longest end that fits. -/
structure CutInto (limit : ℕ) (line : Text) (broken : ℕ) (s : Text) : Prop where
  text : cutLine limit line = List.replicate broken replacementCharacter ++ s
  suffix : s <:+ line
  length : broken + (encodeReplace s).length = limit
  longest : ∀ s', s' <:+ line → (encodeReplace s').length ≤ limit → s' <:+ s

theorem cutLine_into (hline : isEncodable line = true) (hlong : limit ≤ (encodeReplace line).length) :
    ∃ broken s, CutInto limit line broken s := by
  rw [encodeReplace_eq hline] at hlong
  obtain ⟨cs, s, h⟩ := drop_encoded line ((encoded line).length - limit)
  have hs := isEncodable_suffix h.suffix hline
  have hlength := congrArg List.length h.bytes
  rw [List.length_drop, List.length_append] at hlength
  refine ⟨cs.length, s, ?_, h.suffix, by rw [encodeReplace_eq hs]; omega, fun s' hs' hroom => ?_⟩
  · rw [cutLine, encodeReplace_eq hline, List.rtake, h.bytes, decodeReplace_continuations h.rest, encoded, decodeReplace_encoded s hs]
  · rw [encodeReplace_eq (isEncodable_suffix hs' hline)] at hroom
    exact h.longest s' hs' (by omega)

/-- The line has no more bytes than are kept of it, or one of its ends has as many. -/
def CutAtCharacter (limit : ℕ) (line : Text) : Prop :=
  (encodeReplace line).length ≤ limit ∨ ∃ s, s <:+ line ∧ (encodeReplace s).length = limit

@[simp] theorem encodeReplace_append (s t : Text) : encodeReplace (s ++ t) = encodeReplace s ++ encodeReplace t := List.flatMap_append

theorem length_encodeReplace_le {s t : Text} (h : s <:+ t) : (encodeReplace s).length ≤ (encodeReplace t).length := by
  obtain ⟨front, rfl⟩ := h
  rw [encodeReplace_append, List.length_append]
  exact Nat.le_add_left _ _

theorem CutInto.atCharacter_iff {broken : ℕ} {s : Text} (h : CutInto limit line broken s) (hlong : limit ≤ (encodeReplace line).length) :
    CutAtCharacter limit line ↔ broken = 0 := by
  have hlength := h.length
  constructor
  · intro hcut
    have hend : ∃ s', s' <:+ line ∧ (encodeReplace s').length = limit := by
      cases hcut with
      | inl hfits => exact ⟨line, List.suffix_refl line, Nat.le_antisymm hfits hlong⟩
      | inr hend => exact hend
    obtain ⟨s', hs', hroom⟩ := hend
    have hle := length_encodeReplace_le (h.longest s' hs' hroom.le)
    omega
  · intro hbroken
    exact .inr ⟨s, h.suffix, by omega⟩

/-- Two more bytes for each byte of the broken character. -/
theorem CutInto.length_cutLine {broken : ℕ} {s : Text} (h : CutInto limit line broken s) :
    (encodeReplace (cutLine limit line)).length = limit + 2 * broken := by
  have hreplaced : (encodeReplace (List.replicate broken replacementCharacter)).length = broken * 3 := by
    rw [encodeReplace, List.flatMap_replicate, List.length_flatten, List.map_replicate, List.sum_replicate]
    rfl
  have hlength := h.length
  rw [h.text, encodeReplace_append, List.length_append, hreplaced]
  omega

/-- One of the special tokens stands within what is kept of the line. -/
def SpelledAtEnd (limit : ℕ) (line : Text) : Prop :=
  ∃ w ∈ specialTokens, ∃ s, s <:+ line ∧ (encodeReplace s).length ≤ limit ∧ w <:+: s

theorem infix_of_replicate {w s : Text} {c : CodePoint} {n : ℕ} (hc : c ∉ w) (hne : w ≠ []) (h : w <:+: List.replicate n c ++ s) : w <:+: s := by
  induction n with
  | zero => exact h
  | succ n ih =>
    rw [List.replicate_succ, List.cons_append] at h
    cases List.infix_cons_iff.mp h with
    | inr hrest => exact ih hrest
    | inl hfront =>
      obtain ⟨a, t, rfl⟩ := List.exists_cons_of_ne_nil hne
      rw [(List.cons_prefix_cons.mp hfront).1] at hc
      exact absurd List.mem_cons_self hc

theorem CutInto.measurable_iff {broken : ℕ} {s : Text} (h : CutInto limit line broken s) :
    Measurable (cutLine limit line) ↔ ¬SpelledAtEnd limit line := by
  have hplain : ∀ w ∈ specialTokens, replacementCharacter ∉ w ∧ w ≠ [] := by decide
  have hencodable : isEncodable (cutLine limit line) = true := isEncodable_decodeReplace _
  rw [ResponseBudget.measurable_iff, and_iff_right hencodable]
  constructor
  · rintro hnone ⟨w, hw, s', hs', hroom, hstands⟩
    refine hnone w hw ?_
    rw [h.text]
    exact (hstands.trans (h.longest s' hs' hroom).isInfix).trans (List.suffix_append _ s).isInfix
  · intro hnone w hw hstands
    obtain ⟨hreplacement, hne⟩ := hplain w hw
    rw [h.text] at hstands
    exact hnone ⟨w, hw, s, h.suffix, Nat.le.intro ((Nat.add_comm _ _).trans h.length), infix_of_replicate hreplacement hne hstands⟩

/-! ## Selecting lines -/

/-- The bytes of lines that each end in a line feed. -/
def size (lines : List Text) : ℕ := (lines.map lineBytes).sum

theorem length_joinLines_le (lines : List Text) : (encodeReplace (joinLines lines)).length ≤ size lines := by
  induction lines with
  | nil => exact Nat.le_refl 0
  | cons a lines ih =>
    cases lines with
    | nil =>
      rw [joinLines, List.intercalate_singleton, size, List.map_singleton, List.sum_singleton]
      exact Nat.le_succ _
    | cons b lines =>
      have hfeed : (encodeReplace [lineFeed]).length = 1 := rfl
      rw [joinLines, List.intercalate_cons_cons, ← joinLines, encodeReplace_append, encodeReplace_append, List.length_append,
        List.length_append, hfeed]
      rw [size, List.map_cons, List.sum_cons, ← size, lineBytes]
      omega

/-- The end of some lines, within the byte limit, and flagged unless it is all of them. -/
structure Kept (limit : ℕ) (lines : List Text) (r : List Text × Bool) : Prop where
  suffix : r.1 <:+ lines
  size_le : size r.1 ≤ limit
  whole : r.2 = false → r.1 = lines

theorem selectLines_kept {older selected : List Text} (hsize : size selected ≤ limit)
    (hfirst : selected = [] → ∀ line ∈ older.head?, lineBytes line ≤ limit) :
    Kept limit (older.reverse ++ selected) (selectLines limit older (size selected) selected) := by
  induction older generalizing selected with
  | nil => exact ⟨List.suffix_refl _, hsize, fun _ => rfl⟩
  | cons line older ih =>
    rw [selectLines]
    split_ifs with hfull hlong
    · exact ⟨List.suffix_append _ _, hsize, fun h => absurd h.symm Bool.false_ne_true⟩
    · exact absurd (hfirst hlong.1 line rfl) (Nat.not_le.mpr hlong.2)
    · have hnext : size (line :: selected) = size selected + lineBytes line := by
        rw [size, List.map_cons, List.sum_cons, Nat.add_comm, ← size]
      have hle : size (line :: selected) ≤ limit := by
        rw [hnext]
        by_cases hselected : selected = []
        · have hroom : lineBytes line ≤ limit := Nat.not_lt.mp fun h => hlong ⟨hselected, h⟩
          rw [hselected]
          simpa [size] using hroom
        · exact Nat.not_lt.mp fun h => hfull ⟨hselected, h⟩
      rw [← hnext, List.reverse_cons, List.append_assoc, List.singleton_append]
      exact ih hle fun h => absurd h (List.cons_ne_nil _ _)

theorem reverse_rtake (lines : List Text) (n : ℕ) : (lines.rtake n).reverse = lines.reverse.take n := by
  rw [List.rtake_eq_reverse_take_reverse, List.reverse_reverse]

theorem outputLines_long {front : List Text} (h : maxCaptureBytes < lineBytes line) :
    outputLines (front ++ [line]) = ([cutLine maxCaptureBytes line], true) := by
  have hreverse : ((front ++ [line]).rtake maxCaptureOutputLines).reverse = line :: front.reverse.take 699 := by
    rw [reverse_rtake, List.reverse_append, List.reverse_singleton, List.singleton_append]
    rfl
  rw [outputLines, hreverse, selectLines, if_neg (fun h => h.1 rfl), if_pos ⟨rfl, h⟩]

theorem outputLines_kept {captured : List Text} (h : ∀ line ∈ captured.getLast?, lineBytes line ≤ maxCaptureBytes) :
    Kept maxCaptureBytes (captured.rtake maxCaptureOutputLines) (outputLines captured) := by
  have hfirst : ∀ line ∈ (captured.rtake maxCaptureOutputLines).reverse.head?, lineBytes line ≤ maxCaptureBytes := by
    intro line hline
    rw [reverse_rtake, List.head?_take, List.head?_reverse] at hline
    exact h line hline
  have hkept : Kept maxCaptureBytes (_ ++ []) _ := selectLines_kept (Nat.zero_le maxCaptureBytes) fun _ => hfirst
  rwa [List.reverse_reverse, List.append_nil] at hkept

/-! ## Replies -/

/-- The end of the captured lines, the oldest of them perhaps without its front. -/
def EndOf (captured lines : List Text) : Prop :=
  ∀ oldest newer, lines = oldest :: newer → ∃ line, (line :: newer) <:+ captured ∧ oldest <:+ line

def truncationFlags : List Text := [txt "truncated_by_line_limit", txt "truncated_by_byte_limit", txt "truncated_by_token_budget"]

/-- The reply holds these lines, within the byte limit, and is flagged unless they are all. -/
structure BoundedSuffix (captured : List Text) (reply : Dict) (lines : List Text) : Prop where
  shown : dictGet (txt "lines") reply = some (.arr (lines.map .str))
  content : dictGet (txt "content") reply = some (.str (joinLines lines))
  suffix : EndOf captured lines
  bytes : dictGet (txt "bytes_returned") reply = some (natJson (encodeReplace (joinLines lines)).length)
  within : (encodeReplace (joinLines lines)).length ≤ maxCaptureBytes
  flagged : lines ≠ captured → ∃ flag ∈ truncationFlags, dictGet flag reply = some (.bool true)

section
variable {enc : TokenEncoding} {call : CaptureCall} {primary : Row} {captured lines : List Text} {byTokens : Bool} {reply : Dict}

/-- Lines that may be shown, with the flags that are set for them. -/
structure Ready (call : CaptureCall) (captured : List Text) (byTokens : Bool) (lines : List Text) : Prop where
  suffix : EndOf captured lines
  within : (encodeReplace (joinLines lines)).length ≤ maxCaptureBytes
  flagged : lines ≠ captured → truncatedByLineLimit call captured = true ∨ (outputLines captured).2 = true ∨ byTokens = true

theorem Ready.bounded (h : Ready call captured byTokens lines) (hreply : Carries (capturePayload call primary captured byTokens lines) reply) :
    BoundedSuffix captured reply lines where
  shown := hreply _ (by decide)
  content := hreply _ (by decide)
  suffix := h.suffix
  bytes := hreply _ (by decide)
  within := h.within
  flagged := by
    intro hne
    obtain hlines | hbytes | htokens := h.flagged hne
    · refine ⟨txt "truncated_by_line_limit", by decide, (hreply _ (by decide)).trans ?_⟩
      exact congrArg (some ∘ Json.bool) hlines
    · refine ⟨txt "truncated_by_byte_limit", by decide, (hreply _ (by decide)).trans ?_⟩
      exact congrArg (some ∘ Json.bool) hbytes
    · refine ⟨txt "truncated_by_token_budget", by decide, (hreply _ (by decide)).trans ?_⟩
      exact congrArg (some ∘ Json.bool) htokens

theorem joinLines_suffix (line : Text) (lines : List Text) : joinLines lines <:+ joinLines (line :: lines) := by
  cases lines with
  | nil => exact List.nil_suffix
  | cons b lines =>
    rw [joinLines, joinLines, List.intercalate_cons_cons]
    exact List.suffix_append _ _

/-- The oldest line is given up. -/
theorem Ready.tail {oldest : Text} (h : Ready call captured byTokens (oldest :: lines)) : Ready call captured true lines where
  suffix := by
    rintro next newer rfl
    obtain ⟨line, hsuffix, -⟩ := h.suffix oldest (next :: newer) rfl
    exact ⟨next, (List.suffix_cons line _).trans hsuffix, List.suffix_refl next⟩
  within := (length_encodeReplace_le (joinLines_suffix oldest lines)).trans h.within
  flagged := fun _ => .inr (.inr rfl)

theorem fitLines_ready {rendered : Dict × BudgetMeasurement} {result : Dict × Bool} (h : Ready call captured byTokens lines)
    (hcarries : Carries (capturePayload call primary captured byTokens lines) rendered.1)
    (hresult : fitLines enc call primary captured lines byTokens rendered = .ok result) :
    ∃ lines', Ready call captured result.2 lines' ∧ Carries (capturePayload call primary captured result.2 lines') result.1 := by
  induction lines generalizing byTokens rendered with
  | nil =>
    cases Except.ok.inj hresult
    exact ⟨[], h, hcarries⟩
  | cons oldest lines ih =>
    rw [fitLines] at hresult
    split at hresult
    · cases Except.ok.inj hresult
      exact ⟨oldest :: lines, h, hcarries⟩
    · obtain ⟨next, hnext, hresult⟩ := bind_eq_ok.mp hresult
      exact ih h.tail (fun k hk => withBudgetMetadata_get hk hnext) hresult

theorem capturePayload_measurable (h : CleanPayload (capturePayload call primary captured byTokens lines)) : Measurable (joinLines lines) := by
  have hmem : (txt "content", Json.str (joinLines lines)) ∈ capturePayload call primary captured byTokens lines := by simp [capturePayload]
  have hkey : txt "content" ∉ contractKeys := by decide
  exact cleanJson_str.mp (h _ hmem hkey).2

theorem cut_iff {line : Text} : maxCaptureBytes < lineBytes line ↔ maxCaptureBytes ≤ (encodeReplace line).length := Nat.lt_succ_iff

/-- The first lines that are tried may be shown, if their reply can be measured at all. -/
theorem outputLines_ready (hcaptured : ∀ line ∈ captured, isEncodable line = true)
    (hlast : ∀ line ∈ captured.getLast?, CutAtCharacter maxCaptureBytes line ∨ SpelledAtEnd maxCaptureBytes line)
    (hmeasured : Measurable (joinLines (outputLines captured).1)) : Ready call captured false (outputLines captured).1 := by
  by_cases hfits : ∀ line ∈ captured.getLast?, lineBytes line ≤ maxCaptureBytes
  · have hkept := outputLines_kept hfits
    have hend : (captured.rtake maxCaptureOutputLines) <:+ captured := List.drop_suffix _ _
    refine ⟨fun oldest newer hlines => ?_, (length_joinLines_le _).trans hkept.size_le, fun hne => ?_⟩
    · exact ⟨oldest, hlines ▸ hkept.suffix.trans hend, List.suffix_refl oldest⟩
    · by_cases hlong : maxCaptureOutputLines < captured.length
      · exact .inl (by simp [truncatedByLineLimit, hlong])
      · refine .inr (.inl ?_)
        have hall : captured.rtake maxCaptureOutputLines = captured := by
          rw [List.rtake, Nat.sub_eq_zero_of_le (Nat.le_of_not_lt hlong), List.drop_zero]
        rw [hall] at hkept
        cases hflag : (outputLines captured).2 with
        | true => rfl
        | false => exact absurd (hkept.whole hflag) hne
  · simp only [not_forall, Nat.not_le] at hfits
    obtain ⟨line, hline, hlong⟩ := hfits
    obtain ⟨front, rfl⟩ := List.getLast?_eq_some_iff.mp hline
    have hencodable : isEncodable line = true := hcaptured line (by simp)
    obtain ⟨broken, s, hcut⟩ := cutLine_into hencodable (cut_iff.mp hlong)
    have hshown : joinLines (outputLines (front ++ [line])).1 = cutLine maxCaptureBytes line := by
      rw [outputLines_long hlong, joinLines, List.intercalate_singleton]
    rw [hshown] at hmeasured
    have hzero : broken = 0 := by
      have hspelled : ¬SpelledAtEnd maxCaptureBytes line := hcut.measurable_iff.mp hmeasured
      exact (hcut.atCharacter_iff (cut_iff.mp hlong)).mp ((hlast line hline).resolve_right hspelled)
    have hlength := hcut.length_cutLine
    refine ⟨?_, by rw [hshown, hlength, hzero]; rfl, fun _ => .inr (.inl (by rw [outputLines_long hlong]))⟩
    intro oldest newer heq
    rw [outputLines_long hlong] at heq
    obtain ⟨rfl, rfl⟩ := List.cons.inj heq
    refine ⟨line, List.suffix_append front [line], ?_⟩
    rw [hcut.text, hzero, List.replicate_zero, List.nil_append]
    exact hcut.suffix

theorem captureReply_bounded (hcaptured : ∀ line ∈ captured, isEncodable line = true)
    (hlast : ∀ line ∈ captured.getLast?, CutAtCharacter maxCaptureBytes line ∨ SpelledAtEnd maxCaptureBytes line)
    (h : captureReply enc call primary captured = .ok reply) : ∃ lines, BoundedSuffix captured reply lines := by
  obtain ⟨rendered, hrendered, h⟩ := bind_eq_ok.mp h
  obtain ⟨result, hresult, h⟩ := bind_eq_ok.mp h
  have hclean := ((withBudgetMetadata_returns_iff _ _ _ _ _).mp ⟨rendered, hrendered⟩).1
  have hready : Ready call captured false _ := outputLines_ready hcaptured hlast (capturePayload_measurable hclean)
  obtain ⟨lines, hlines, hcarries⟩ := fitLines_ready hready (fun k hk => withBudgetMetadata_get hk hrendered) hresult
  split at h
  next hflag =>
    cases Except.ok.inj h
    rw [hflag] at hlines hcarries
    have hset : Carries (capturePayload call primary captured true lines) (dictSet (txt "truncated_by_token_budget") (.bool true) result.1) := by
      intro k hk
      by_cases hkey : k = txt "truncated_by_token_budget"
      · subst hkey
        exact dictGet_dictSet_self _ _ _
      · rw [dictGet_dictSet_of_ne hkey, hcarries k hk]
    exact ⟨lines, hlines.bounded hset⟩
  next =>
    cases Except.ok.inj h
    exact ⟨lines, hlines.bounded hcarries⟩

end

/-! ## Refusals -/

/-- An error that says nothing of success itself. -/
def Plain (e : TmuxControlError) : Prop := ∀ field ∈ e.extra, field.1 ≠ txt "success"

theorem asPayload_success {e : TmuxControlError} (h : Plain e) : dictGet (txt "success") (asPayload e) = some (.bool false) := by
  have hfold : ∀ (extra : Dict) (d : Dict), (∀ field ∈ extra, field.1 ≠ txt "success") →
      dictGet (txt "success") (extra.foldl (fun d field => dictSet field.1 field.2 d) d) = dictGet (txt "success") d := by
    intro extra
    induction extra with
    | nil => exact fun d _ => rfl
    | cons field extra ih =>
      intro d hextra
      rw [List.forall_mem_cons] at hextra
      rw [List.foldl_cons, ih _ hextra.2, dictGet_dictSet_of_ne hextra.1.symm]
  exact hfold e.extra _ h

theorem raises_error {e : TmuxControlError} {α : Type} (h : Plain e) : Raises (.error e : Except TmuxControlError α) Plain := by
  intro e' he
  cases Except.error.inj he
  exact h

theorem run_plain (outcome : Except RunFailure RunResult) : Raises (run outcome) Plain := by
  intro e he
  obtain ⟨failure, -, rfl⟩ := mapError_error_iff.mp he
  cases failure with
  | fileNotFound binary =>
    intro field hfield
    rw [List.mem_singleton.mp hfield]
    exact of_decide_eq_true rfl
  | timeoutExpired timeout =>
    intro field hfield
    rw [List.mem_singleton.mp hfield]
    exact of_decide_eq_true rfl
  | osError exc => exact fun field hfield => absurd hfield List.not_mem_nil

theorem requireOk_plain (operation : Text) (result : RunResult) : Raises (requireOk operation result) Plain := by
  rw [requireOk]
  split
  · exact raises_pure
  · refine raises_error (List.forall_mem_cons.mpr ⟨of_decide_eq_true rfl, List.forall_mem_cons.mpr ⟨of_decide_eq_true rfl, ?_⟩⟩)
    exact fun field hfield => absurd hfield List.not_mem_nil

theorem parseRows_plain (int : Text → Option ℤ) (stdout : Bytes) : Raises (parseRows int stdout) Plain := by
  intro e he
  refine raises_mapM (fun line => ?_) _ e (map_error_iff.mp he)
  rw [parseRow]
  split
  · refine raises_error (List.forall_mem_cons.mpr ⟨of_decide_eq_true rfl, List.forall_mem_cons.mpr ⟨of_decide_eq_true rfl, ?_⟩⟩)
    exact fun field hfield => absurd hfield List.not_mem_nil
  · exact raises_pure

theorem session_plain (code message session : Text) : Plain ⟨code, message, [(txt "session", .str session)]⟩ := by
  intro field hfield
  rw [List.mem_singleton.mp hfield]
  exact of_decide_eq_true rfl

theorem validateSessionName_plain (session : Text) : Raises (validateSessionName session) Plain := by
  rw [validateSessionName]
  split
  · exact raises_pure
  · exact raises_error (session_plain _ _ _)

theorem requireSessionRows_plain (int : Text → Option ℤ) (listPanes : Except RunFailure RunResult) (session : Text) :
    Raises (requireSessionRows int (run listPanes) session) Plain := by
  refine (validateSessionName_plain session).bind fun normalized => Raises.bind ?_ fun rows => ?_
  · refine (validateSessionName_plain normalized).bind fun name => Raises.bind ?_ fun rows => raises_pure
    refine (run_plain listPanes).bind fun result => ?_
    split
    · exact raises_pure
    · exact (requireOk_plain _ result).bind fun _ => parseRows_plain int result.stdout
  · split
    · exact raises_error (session_plain _ _ _)
    · exact raises_pure

/-- A refusal is never marked as a success. -/
theorem takeSnapshot_plain (int : Text → Option ℤ) (call : CaptureCall) (listPanes capturePane : Except RunFailure RunResult) :
    Raises (takeSnapshot int call listPanes capturePane) Plain := by
  rw [takeSnapshot]
  split
  · exact raises_error fun field hfield => absurd hfield List.not_mem_nil
  · refine (requireSessionRows_plain int listPanes call.session).bind fun rows => ?_
    cases rows with
    | nil => exact raises_error (session_plain _ _ _)
    | cons primary rows =>
      exact (run_plain capturePane).bind fun result => (requireOk_plain _ result).bind fun _ => raises_pure

/-! ## Captures -/

theorem encodable_lines (raw : Bytes) : ∀ line ∈ splitlines (decodeReplace raw), isEncodable line = true := by
  intro line hline
  obtain ⟨l, hl, rfl⟩ := List.mem_map.mp hline
  refine isEncodable_sublist (fun c hc => ?_) (isEncodable_decodeReplace raw)
  rw [← flatMap_linesOf id (decodeReplace raw)]
  exact List.mem_flatMap.mpr ⟨l, hl, List.mem_append_left _ hc⟩

/-- Whatever the session, the table of panes, the tokenizer and the budget: a successful reply
holds a bounded end of what was captured. -/
def BoundedCapture (int : Text → Option ℤ) (requestedLines : ℤ) (stdout : Bytes) : Prop :=
  ∀ (enc : TokenEncoding) (call : CaptureCall) (listPanes : Except RunFailure RunResult) (stderr : Bytes) (reply : Dict),
    call.requestedLines = requestedLines → capture int enc call listPanes (.ok ⟨0, stdout, stderr⟩) = .ok reply →
      dictGet (txt "success") reply = some (.bool true) → ∃ lines, BoundedSuffix (splitlines (decodeReplace stdout)) reply lines

variable {int : Text → Option ℤ} {call : CaptureCall} {stdout : Bytes}

theorem takeSnapshot_lines {listPanes : Except RunFailure RunResult} {stderr : Bytes} {snapshot : Row × List Text}
    (h : takeSnapshot int call listPanes (.ok ⟨0, stdout, stderr⟩) = .ok snapshot) :
    1 ≤ call.requestedLines ∧ snapshot.2 = splitlines (decodeReplace stdout) := by
  rw [takeSnapshot] at h
  split at h
  · cases h
  next hlines =>
    refine ⟨Int.not_lt.mp hlines, ?_⟩
    obtain ⟨rows, -, h⟩ := bind_eq_ok.mp h
    cases rows with
    | nil => cases h
    | cons primary rows =>
      cases Except.ok.inj h
      rfl

theorem capture_bounded {requestedLines : ℤ} (h : requestedLines < 1 ∨ ∀ line ∈ (splitlines (decodeReplace stdout)).getLast?,
    CutAtCharacter maxCaptureBytes line ∨ SpelledAtEnd maxCaptureBytes line) : BoundedCapture int requestedLines stdout := by
  rintro enc call listPanes stderr reply rfl hreply hsuccess
  rw [capture] at hreply
  split at hreply
  next e he =>
    cases Except.ok.inj hreply
    rw [asPayload_success (takeSnapshot_plain _ _ _ _ e he)] at hsuccess
    cases hsuccess
  next snapshot hsnapshot =>
    obtain ⟨hlines, hcaptured⟩ := takeSnapshot_lines hsnapshot
    rw [hcaptured] at hreply
    exact captureReply_bounded (encodable_lines stdout) (h.resolve_left (Int.not_lt.mpr hlines)) hreply

/-! ### A line that is cut inside a character -/

def probeFields : Pane Bytes := { PaneRecovery.formFeedFields with windowName := (txt "python").flatMap utf8Bytes }

theorem probeFields_noFeed : ∀ f ∈ probeFields.toList, (0x0A : Byte) ∉ f := by decide

theorem probeFields_noDelimiter : ∀ f ∈ probeFields.toList, ¬Delimiter.raw.bytes <:+: f := by decide

/-- The only pane of a session `probe`. -/
def probePane : PrintedPane .raw := ⟨probeFields, probeFields_noFeed, probeFields_noDelimiter⟩

theorem probePane_legible : PaneRecovery.Legible .raw probePane.texts := by
  have hunbroken : probePane.texts.toList.all (fun t => t.all fun c => !isLineBreak c) = true := by decide
  have hfields : ∀ t ∈ probePane.texts.toList, GitOutput.Unbroken t := by
    intro t ht c hc
    have hall := List.all_eq_true.mp (List.all_eq_true.mp hunbroken t ht) c hc
    simpa using hall
  refine ⟨hfields _ (by simp [Pane.toList]), fun t ht => hfields t (by simp [Pane.toList, ht]), ?_, fun h => by cases h⟩
  exact ⟨_, [], (List.append_nil _).symm, hfields _ (by simp [Pane.toList]), by simp [PaneRecovery.Breaks], .inl rfl⟩

theorem probePane_sessionName : probePane.texts.sessionName = txt "probe" := by decide

def probeTable : Except RunFailure RunResult := .ok ⟨0, printPanes [probePane], []⟩

theorem probe_rows (int : Text → Option ℤ) : requireSessionRows int (run probeTable) (txt "probe") = .ok [rowOf int probePane.texts] := by
  obtain ⟨rows, hrows, hperm, -⟩ := PaneRecovery.recovered_of_legible int (List.forall_mem_singleton.mpr probePane_legible)
  rw [List.map_singleton] at hperm
  obtain rfl := List.perm_singleton.mp hperm
  have hstrip : strip (txt "probe") = txt "probe" := by decide
  have hvalid : isSessionName (txt "probe") = true := by decide
  have hname : validateSessionName (txt "probe") = .ok (txt "probe") := by rw [validateSessionName, hstrip, if_pos hvalid]
  have hall : allPanes int (run probeTable) = .ok [rowOf int probePane.texts] := by
    refine bind_eq_ok.mpr ⟨⟨0, printPanes [probePane], []⟩, rfl, ?_⟩
    rw [if_neg (fun h => h.1 rfl)]
    exact bind_eq_ok.mpr ⟨(), if_pos rfl, hrows⟩
  have hsession : (rowOf int probePane.texts).sessionName = txt "probe" := probePane_sessionName
  have hrow : sessionRows int (run probeTable) (txt "probe") = .ok [rowOf int probePane.texts] := by
    rw [sessionRows, hname, hall]
    exact congrArg Except.ok (List.filter_eq_self.mpr (by simp [hsession]))
  rw [requireSessionRows, hname]
  refine bind_eq_ok.mpr ⟨txt "probe", rfl, bind_eq_ok.mpr ⟨_, hrow, ?_⟩⟩
  rw [if_neg (List.cons_ne_nil _ _)]
  rfl

theorem capturePayload_clean {primary : Row} {captured lines : List Text} {byTokens : Bool} (hsocket : Measurable call.socketName)
    (hrow : ∀ t ∈ [primary.sessionName, primary.paneId, primary.paneCurrentCommand, primary.paneCurrentPath], Measurable t)
    (hlines : ∀ line ∈ lines, Measurable line) (hcontent : Measurable (joinLines lines)) :
    CleanPayload (capturePayload call primary captured byTokens lines) := by
  simp only [List.forall_mem_cons, List.not_mem_nil, false_implies, implies_true, and_true] at hrow
  obtain ⟨hname, hpane, hcommand, hpath⟩ := hrow
  have hstr : ∀ {k t : Text}, isBenign k = true → Measurable t → CleanField (k, .str t) := fun hk ht => (cleanField_str_iff hk).mpr ht
  have hexit : strings (optionalInt primary.paneDeadStatus) = [] := by cases primary.paneDeadStatus <;> rfl
  have harr : CleanField (txt "lines", .arr (lines.map .str)) := by
    refine cleanField_of (by decide) (cleanJson_arr.mpr fun j hj => ?_)
    obtain ⟨line, hline, rfl⟩ := List.mem_map.mp hj
    exact cleanJson_str.mpr (hlines line hline)
  have hall : ∀ f ∈ capturePayload call primary captured byTokens lines, CleanField f := by
    simp only [capturePayload, List.forall_mem_cons, List.not_mem_nil, false_implies, implies_true, and_true]
    exact ⟨cleanField_bool (by decide), hstr (by decide) hsocket, hstr (by decide) hname, hstr (by decide) hpane,
      hstr (by decide) hcommand, hstr (by decide) hpath, cleanField_bool (by decide), cleanField_of_strings_nil (by decide) hexit,
      cleanField_int (by decide), cleanField_int (by decide), cleanField_nat (by decide), cleanField_nat (by decide),
      cleanField_nat (by decide), cleanField_bool (by decide), cleanField_bool (by decide), cleanField_bool (by decide),
      cleanField_bool (by decide), harr, hstr (by decide) hcontent, cleanField_of_strings_nil (by decide) rfl⟩
  exact fun f hf _ => hall f hf

def probeCall (requestedLines : ℤ) : CaptureCall where
  socketName := txt "default"
  session := txt "probe"
  requestedLines := requestedLines
  joinWrapped := true
  maxTokens := oneToken.maxTokens

theorem stopReason_measurable (call : CaptureCall) (captured : List Text) : Measurable (stopReason call captured) := by
  have hreasons : ∀ t ∈ [txt "byte_budget", txt "line_limit", txt "snapshot_complete"], isBenign t = true := by decide
  refine measurable_of_isBenign (hreasons _ ?_)
  rw [stopReason]
  split_ifs <;> simp

theorem probePane_measurable : ∀ t ∈ [probePane.texts.sessionName, probePane.texts.paneId, probePane.texts.paneCurrentCommand,
    probePane.texts.paneCurrentPath], Measurable t := by
  have hall : ([probePane.texts.sessionName, probePane.texts.paneId, probePane.texts.paneCurrentCommand,
    probePane.texts.paneCurrentPath].all isBenign) = true := by decide
  exact fun t ht => measurable_of_isBenign (List.all_eq_true.mp hall t ht)

/-- The reply that shows the cut line. -/
theorem cut_shown (int : Text → Option ℤ) {requestedLines : ℤ} (hlines : 1 ≤ requestedLines) {front : List Text} {line : Text}
    (hcaptured : splitlines (decodeReplace stdout) = front ++ [line]) (hlong : maxCaptureBytes < lineBytes line)
    (hmeasurable : Measurable (cutLine maxCaptureBytes line)) :
    ∃ reply, capture int ContentSearch.oneForAll (probeCall requestedLines) probeTable (.ok ⟨0, stdout, []⟩) = .ok reply ∧
      dictGet (txt "success") reply = some (.bool true) ∧
      dictGet (txt "bytes_returned") reply = some (natJson (encodeReplace (cutLine maxCaptureBytes line)).length) := by
  have hsnapshot : takeSnapshot int (probeCall requestedLines) probeTable (.ok ⟨0, stdout, []⟩) =
      .ok (rowOf int probePane.texts, front ++ [line]) := by
    have hasked : ¬(probeCall requestedLines).requestedLines < 1 := Int.not_lt.mpr hlines
    rw [takeSnapshot, if_neg hasked]
    refine bind_eq_ok.mpr ⟨_, probe_rows int, bind_eq_ok.mpr ⟨⟨0, stdout, []⟩, rfl, bind_eq_ok.mpr ⟨(), if_pos rfl, ?_⟩⟩⟩
    rw [hcaptured]
    rfl
  have hjoin : joinLines [cutLine maxCaptureBytes line] = cutLine maxCaptureBytes line := List.intercalate_singleton
  have hsocket : Measurable (txt "default") := measurable_of_isBenign (by decide)
  have hreason := stopReason_measurable (probeCall requestedLines) (front ++ [line])
  have hclean : CleanPayload (capturePayload (probeCall requestedLines) (rowOf int probePane.texts) (front ++ [line]) false
      [cutLine maxCaptureBytes line]) := by
    refine capturePayload_clean hsocket probePane_measurable (List.forall_mem_singleton.mpr hmeasurable) ?_
    rw [hjoin]
    exact hmeasurable
  obtain ⟨rendered, hrendered⟩ := (withBudgetMetadata_returns_iff ContentSearch.oneForAll _ (probeCall requestedLines).budget
    (initiallyTruncated (probeCall requestedLines) (front ++ [line])) _).mpr ⟨hclean, hreason⟩
  have hfits : rendered.2.fits = true :=
    (fitsReply_of_ok hrendered).symm.trans (fits_of_cheap (fun _ => Nat.le_refl 1) rfl hclean hreason)
  have hkept : ∀ k ∉ contractKeys, dictGet k rendered.1 = _ := fun k hk => withBudgetMetadata_get hk hrendered
  refine ⟨rendered.1, ?_, hkept _ (by decide), (hkept _ (by decide)).trans ?_⟩
  · rw [capture, hsnapshot]
    have hfitted : fitLines ContentSearch.oneForAll (probeCall requestedLines) (rowOf int probePane.texts) (front ++ [line])
        [cutLine maxCaptureBytes line] false rendered = .ok (rendered.1, false) := by
      rw [fitLines, if_pos hfits]
      rfl
    have hreply : captureReply ContentSearch.oneForAll (probeCall requestedLines) (rowOf int probePane.texts) (front ++ [line]) =
        .ok rendered.1 := by
      rw [captureReply, outputLines_long hlong]
      exact bind_eq_ok.mpr ⟨rendered, hrendered, bind_eq_ok.mpr ⟨_, hfitted, rfl⟩⟩
    exact hreply
  · exact congrArg (fun t => some (natJson (encodeReplace t).length)) hjoin

theorem not_boundedCapture {requestedLines : ℤ} (hlines : 1 ≤ requestedLines) {line : Text}
    (hline : line ∈ (splitlines (decodeReplace stdout)).getLast?) (hcharacter : ¬CutAtCharacter maxCaptureBytes line)
    (hspelled : ¬SpelledAtEnd maxCaptureBytes line) : ¬BoundedCapture int requestedLines stdout := by
  intro h
  obtain ⟨front, hcaptured⟩ := List.getLast?_eq_some_iff.mp hline
  have hencodable : isEncodable line = true := encodable_lines stdout line (by simp [hcaptured])
  have hlong : maxCaptureBytes ≤ (encodeReplace line).length := Nat.le_of_not_le fun hle => hcharacter (.inl hle)
  obtain ⟨broken, s, hcut⟩ := cutLine_into hencodable hlong
  have hbroken : broken ≠ 0 := fun hzero => hcharacter ((hcut.atCharacter_iff hlong).mpr hzero)
  obtain ⟨reply, hreply, hsuccess, hbytes⟩ :=
    cut_shown int hlines hcaptured (cut_iff.mpr hlong) (hcut.measurable_iff.mpr hspelled)
  obtain ⟨lines, hbounded⟩ := h _ (probeCall requestedLines) _ _ reply rfl hreply hsuccess
  have hsame := hbytes.symm.trans hbounded.bytes
  rw [hcut.length_cutLine] at hsame
  have hlength : maxCaptureBytes + 2 * broken = (encodeReplace (joinLines lines)).length :=
    Int.ofNat.inj (Json.int.inj (Option.some.inj hsame))
  have hwithin := hbounded.within
  omega

/-- A capture is always bounded exactly when no line is asked for, or its last line is cut at a
character, or a special token in what is left of it keeps the reply from being measured. -/
theorem capture_bounded_iff (int : Text → Option ℤ) (requestedLines : ℤ) (stdout : Bytes) : BoundedCapture int requestedLines stdout ↔
    requestedLines < 1 ∨ ∀ line ∈ (splitlines (decodeReplace stdout)).getLast?,
      CutAtCharacter maxCaptureBytes line ∨ SpelledAtEnd maxCaptureBytes line := by
  refine ⟨fun h => ?_, capture_bounded⟩
  by_contra hneither
  rw [not_or, Int.not_lt] at hneither
  obtain ⟨hlines, hlast⟩ := hneither
  simp only [not_forall, not_or] at hlast
  obtain ⟨line, hline, hcharacter, hspelled⟩ := hlast
  exact not_boundedCapture hlines hline hcharacter hspelled h

def euros (n : ℕ) : Text := List.replicate n 0x20AC

theorem mem_euros {n : ℕ} {s : Text} (hs : s <:+ euros n) : ∀ c ∈ s, c = 0x20AC := fun _ hc => List.eq_of_mem_replicate (hs.subset hc)

theorem length_euros {n : ℕ} {s : Text} (hs : s <:+ euros n) : (encodeReplace s).length = s.length * 3 := by
  rw [List.eq_replicate_of_mem (mem_euros hs), encodeReplace, List.flatMap_replicate, List.length_flatten, List.map_replicate,
    List.sum_replicate, List.length_replicate]
  rfl

theorem splitlines_euros (n : ℕ) : splitlines (decodeReplace (encoded (euros (n + 1)))) = [euros (n + 1)] := by
  have hmem := mem_euros (List.suffix_refl (euros (n + 1)))
  have hunbroken : GitOutput.Unbroken (euros (n + 1)) := fun c hc => by rw [hmem c hc]; decide
  have hencodable : isEncodable (euros (n + 1)) = true := (isEncodable_iff _).mpr fun c hc => by rw [hmem c hc]; decide
  have hlast : euros (n + 1) = euros n ++ [0x20AC] := List.replicate_succ'
  rw [encoded, decodeReplace_encoded _ hencodable]
  rw [hlast] at hunbroken ⊢
  rw [← GitOutput.cut_append _ (by decide), GitOutput.cut_unbroken hunbroken]

/-- A line of euro signs, two bytes longer than the limit. -/
theorem euros_break_capture : ¬BoundedCapture (fun _ => none) 500 (encoded (euros 87382)) := by
  have hlimit : maxCaptureBytes = 262144 := rfl
  have hline : euros 87382 ∈ (splitlines (decodeReplace (encoded (euros 87382)))).getLast? := by
    rw [splitlines_euros]
    rfl
  refine not_boundedCapture (by decide) hline ?_ ?_
  · rintro (hfits | ⟨s, hs, hlength⟩)
    · have hlength : (euros 87382).length = 87382 := List.length_replicate
      rw [length_euros (List.suffix_refl _), hlength] at hfits
      omega
    · rw [length_euros hs] at hlength
      omega
  · rintro ⟨w, hw, s, hs, -, hstands⟩
    have hopens : ∀ w ∈ specialTokens, 0x3C ∈ w := by decide
    have heuro := mem_euros hs _ (hstands.subset (hopens w hw))
    exact absurd heuro (by decide)

end WebOauthMcp.CaptureBounds
