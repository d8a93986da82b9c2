import WebOauthMcp.Utf8Units

/-!
# Octets cut from encoded text

A cut through the UTF-8 octets of a text may fall inside a character. Decoding drops what is
left of it, or the cut is moved to where a character ends.
-/

namespace WebOauthMcp.BytePages
open CodePoints Utf8Units

/-- `t.encode("utf-8")`, for a text without lone surrogates. -/
def encoded (t : Text) : Bytes := t.flatMap utf8Bytes

/-- `raw.decode("utf-8", errors="ignore")`. -/
def decodeIgnore (raw : Bytes) : Text := (decodeUnits raw).filterMap Utf8Unit.char

/-- The characters at the front whose octets are all among the first `n`. -/
def charsWithin : ℕ → Text → Text
  | _, [] => []
  | n, c :: t => if (utf8Bytes c).length ≤ n then c :: charsWithin (n - (utf8Bytes c).length) t else []

/-- The longest part of the front that decodes, with its length. -/
def longestDecodable (raw : Bytes) : ℕ → Text × ℕ
  | 0 => ([], 0)
  | n + 1 =>
    match decodeUtf8 (raw.take (n + 1)) with
    | some t => (t, n + 1)
    | none => longestDecodable raw n

/-- The first octet from an offset on that does not continue a character. -/
def pageStart (raw : Bytes) (offset : ℕ) : ℕ :=
  min offset raw.length + ((raw.drop (min offset raw.length)).takeWhile isContinuation).length

/-- `_utf8_byte_page`: a page, where it starts and where it ends. -/
def utf8BytePage (raw : Bytes) (offset maxBytes : ℕ) : Text × ℕ × ℕ :=
  let requestedStart := min offset raw.length
  let start := pageStart raw offset
  let stop := min (max (requestedStart + maxBytes) start) raw.length
  let page := longestDecodable (raw.drop start) (stop - start)
  (page.1, start, start + page.2)

@[simp] theorem encoded_nil : encoded [] = [] := rfl

@[simp] theorem encoded_cons (c : CodePoint) (t : Text) : encoded (c :: t) = utf8Bytes c ++ encoded t := List.flatMap_cons

@[simp] theorem encoded_append (s t : Text) : encoded (s ++ t) = encoded s ++ encoded t := List.flatMap_append

theorem utf8Bytes_pos (c : CodePoint) : 0 < (utf8Bytes c).length := List.length_pos_iff.mpr (utf8Bytes_ne_nil c)

theorem encoded_eq_nil {t : Text} : encoded t = [] ↔ t = [] := by
  cases t with
  | nil => exact iff_of_true rfl rfl
  | cons c t => exact iff_of_false (by simp [utf8Bytes_ne_nil]) (List.cons_ne_nil _ _)

theorem decodeUtf8_encoded {t : Text} (ht : isEncodable t = true) : decodeUtf8 (encoded t) = some t := by
  rw [decodeUtf8, encoded, decodeUnits_encoded t ht]
  induction t with
  | nil => rfl
  | cons c t ih =>
    simp only [isEncodable_cons, Bool.and_eq_true] at ht
    rw [List.map_cons, List.mapM_cons, ih ht.2]
    rfl

/-- What encodes to the front of an encoded text is the front of the text. -/
theorem prefix_of_encoded {s t : Text} (hs : isEncodable s = true) (ht : isEncodable t = true) (h : encoded s <+: encoded t) : s <+: t := by
  obtain ⟨rest, hrest⟩ := h
  have hunits := congrArg decodeUnits hrest
  rw [encoded, encoded, decodeUnits_encoded_append s hs, decodeUnits_encoded t ht] at hunits
  have hmap : s.map Utf8Unit.ofChar <+: t.map Utf8Unit.ofChar := ⟨_, hunits⟩
  have hback := hmap.map fun u : Utf8Unit => u.char.getD 0
  rw [List.map_map, List.map_map] at hback
  simpa [Function.comp_def, Utf8Unit.ofChar] using hback

/-! ## The characters within a cut -/

theorem charsWithin_front (n : ℕ) (t : Text) : charsWithin n t <+: t := by
  induction t generalizing n with
  | nil => exact List.prefix_refl _
  | cons c t ih =>
    rw [charsWithin]
    split
    · exact List.cons_prefix_cons.mpr ⟨rfl, ih _⟩
    · exact List.nil_prefix

theorem length_charsWithin_le (n : ℕ) (t : Text) : (encoded (charsWithin n t)).length ≤ n := by
  induction t generalizing n with
  | nil => exact Nat.zero_le n
  | cons c t ih =>
    rw [charsWithin]
    split
    · have hrest := ih (n - (utf8Bytes c).length)
      rw [encoded_cons, List.length_append]
      omega
    · exact Nat.zero_le n

theorem charsWithin_cons_eq_nil {n : ℕ} {c : CodePoint} {t : Text} : charsWithin n (c :: t) = [] ↔ n < (utf8Bytes c).length := by
  rw [charsWithin]
  split
  · exact iff_of_false (List.cons_ne_nil _ _) (by omega)
  · exact iff_of_true rfl (by omega)

/-- A whole text is within its own length. -/
theorem charsWithin_append (s t : Text) : charsWithin (encoded s).length (s ++ t) = s := by
  induction s with
  | nil =>
    cases t with
    | nil => rfl
    | cons c t => exact charsWithin_cons_eq_nil.mpr (utf8Bytes_pos c)
  | cons c s ih =>
    rw [List.cons_append, charsWithin, encoded_cons, List.length_append, if_pos (Nat.le_add_right _ _), Nat.add_sub_cancel_left, ih]

/-- One octet more adds nothing unless it ends a character. -/
theorem charsWithin_succ {n : ℕ} {t : Text} (h : (encoded (charsWithin (n + 1) t)).length ≠ n + 1) : charsWithin (n + 1) t = charsWithin n t := by
  induction t generalizing n with
  | nil => rfl
  | cons c t ih =>
    have hpos := utf8Bytes_pos c
    rw [charsWithin] at h ⊢
    rw [charsWithin]
    by_cases hn : (utf8Bytes c).length ≤ n
    · have hsub : n + 1 - (utf8Bytes c).length = n - (utf8Bytes c).length + 1 := by omega
      rw [if_pos (Nat.le_succ_of_le hn), encoded_cons, List.length_append, hsub] at h
      rw [if_pos (Nat.le_succ_of_le hn), if_pos hn, hsub, ih (by omega)]
    · rw [if_neg hn]
      by_cases hlast : (utf8Bytes c).length ≤ n + 1
      · have hsub : n + 1 - (utf8Bytes c).length = 0 := by omega
        have hnone := length_charsWithin_le 0 t
        rw [if_pos hlast, encoded_cons, List.length_append, hsub] at h
        omega
      · rw [if_neg hlast]

theorem take_encoded {t : Text} {n : ℕ} (h : (encoded (charsWithin n t)).length = n) : (encoded t).take n = encoded (charsWithin n t) := by
  obtain ⟨rest, hrest⟩ := charsWithin_front n t
  have hsplit := congrArg encoded hrest
  rw [encoded_append] at hsplit
  rw [← hsplit, List.take_append_of_le_length (Nat.le_of_eq h.symm), List.take_of_length_le (Nat.le_of_eq h)]

theorem isEncodable_front {s t : Text} (h : s <+: t) (ht : isEncodable t = true) : isEncodable s = true :=
  isEncodable_sublist (fun _ hc => h.subset hc) ht

/-- The longest decodable front holds the characters within. -/
theorem longestDecodable_encoded {t : Text} (ht : isEncodable t = true) {n : ℕ} (hn : n ≤ (encoded t).length) :
    longestDecodable (encoded t) n = (charsWithin n t, (encoded (charsWithin n t)).length) := by
  induction n with
  | zero =>
    have hnone : charsWithin 0 t = [] := by
      cases t with
      | nil => rfl
      | cons c t => exact charsWithin_cons_eq_nil.mpr (utf8Bytes_pos c)
    rw [hnone]
    rfl
  | succ n ih =>
    rw [longestDecodable]
    split
    · next s hs =>
      obtain ⟨hencodable, hspells⟩ := decodeUtf8_spells hs
      have hspells : encoded s = (encoded t).take (n + 1) := hspells
      obtain ⟨rest, hrest⟩ := prefix_of_encoded hencodable ht (hspells ▸ List.take_prefix _ _)
      have hlength : (encoded s).length = n + 1 := by
        rw [hspells, List.length_take]
        exact Nat.min_eq_left hn
      have hwithin : charsWithin (n + 1) t = s := by rw [← hrest, ← hlength, charsWithin_append]
      rw [hwithin, hlength]
    · next hnone =>
      have hinside : (encoded (charsWithin (n + 1) t)).length ≠ n + 1 := by
        intro hends
        rw [take_encoded hends, decodeUtf8_encoded (isEncodable_front (charsWithin_front _ _) ht)] at hnone
        exact absurd hnone (Option.some_ne_none _)
      rw [ih (Nat.le_of_succ_le hn), charsWithin_succ hinside]

/-! ## Where a page starts -/

theorem pageStart_le (raw : Bytes) (offset : ℕ) : pageStart raw offset ≤ raw.length := by
  have hlength := (List.takeWhile_prefix isContinuation (l := raw.drop (min offset raw.length))).length_le
  rw [List.length_drop] at hlength
  rw [pageStart]
  omega

theorem min_le_pageStart (raw : Bytes) (offset : ℕ) : min offset raw.length ≤ pageStart raw offset := Nat.le_add_right _ _

theorem drop_pageStart (raw : Bytes) (offset : ℕ) : StartsUnit (raw.drop (pageStart raw offset)) := by
  intro b rest hb
  generalize hfrom : raw.drop (min offset raw.length) = bs at hb
  have hdrop : raw.drop (pageStart raw offset) = bs.dropWhile isContinuation := by
    rw [pageStart, ← List.drop_drop, hfrom]
    calc bs.drop (bs.takeWhile isContinuation).length
        = (bs.takeWhile isContinuation ++ bs.dropWhile isContinuation).drop (bs.takeWhile isContinuation).length :=
          congrArg (List.drop _) List.takeWhile_append_dropWhile.symm
      _ = bs.dropWhile isContinuation := List.drop_left
  rw [hdrop] at hb
  have hhead := List.head?_dropWhile_not isContinuation bs
  rw [hb] at hhead
  exact Bool.eq_false_iff.mpr (by simpa using hhead)

/-- Where no character goes on, the text can be split. -/
theorem split_of_startsUnit {t : Text} {n : ℕ} (hn : n ≤ (encoded t).length) (h : StartsUnit ((encoded t).drop n)) :
    ∃ before after, t = before ++ after ∧ n = (encoded before).length := by
  induction t generalizing n with
  | nil => exact ⟨[], [], rfl, Nat.le_zero.mp hn⟩
  | cons c t ih =>
    rw [encoded_cons] at hn h
    rw [List.length_append] at hn
    by_cases hinside : n < (utf8Bytes c).length
    · cases n with
      | zero => exact ⟨[], c :: t, rfl, rfl⟩
      | succ n =>
        obtain ⟨b, bs, hb⟩ := List.exists_cons_of_ne_nil (utf8Bytes_ne_nil c)
        rw [hb, List.length_cons] at hinside
        have hlt : n < bs.length := Nat.lt_of_succ_lt_succ hinside
        rw [hb, List.cons_append, List.drop_succ_cons, List.drop_append_of_le_length (Nat.le_of_lt hlt), List.drop_eq_getElem_cons hlt] at h
        have hcontinues := utf8Bytes_tail c b bs hb _ (List.getElem_mem hlt)
        exact absurd hcontinues (by rw [h _ _ rfl]; exact Bool.false_ne_true)
    · have hle := Nat.le_of_not_lt hinside
      rw [List.drop_append, List.drop_of_length_le hle, List.nil_append] at h
      obtain ⟨before, after, rfl, hlength⟩ := ih (by omega) h
      refine ⟨c :: before, after, rfl, ?_⟩
      rw [encoded_cons, List.length_append]
      omega

theorem startsUnit_encoded (t : Text) : StartsUnit (encoded t) := by
  cases t with
  | nil => exact startsUnit_nil
  | cons c t => exact startsUnit_utf8Bytes_append c (encoded t)

theorem pageStart_boundary (before after : Text) : pageStart (encoded (before ++ after)) (encoded before).length = (encoded before).length := by
  have hlength : (encoded before).length ≤ (encoded (before ++ after)).length := by
    rw [encoded_append, List.length_append]
    exact Nat.le_add_right _ _
  have hnone : (encoded after).takeWhile isContinuation = [] := by
    cases hafter : encoded after with
    | nil => rfl
    | cons b bs => exact List.takeWhile_cons_of_neg (by rw [startsUnit_encoded after b bs hafter]; exact Bool.false_ne_true)
  rw [pageStart, Nat.min_eq_left hlength, encoded_append, List.drop_left, hnone, List.length_nil, Nat.add_zero]

/-- More octets than the text has hold the whole text. -/
theorem charsWithin_min (n : ℕ) (t : Text) : charsWithin (min n (encoded t).length) t = charsWithin n t := by
  by_cases h : n ≤ (encoded t).length
  · rw [Nat.min_eq_left h]
  · have hall : charsWithin (encoded t).length t = t := by simpa using charsWithin_append t []
    have hmore : charsWithin n t = t := by
      clear hall
      induction t generalizing n with
      | nil => rfl
      | cons c t ih =>
        rw [encoded_cons, List.length_append] at h
        rw [charsWithin, if_pos (by omega), ih _ (by omega)]
    rw [Nat.min_eq_right (by omega), hall, hmore]

/-! ## Pages -/

/-- A page holds characters that follow on each other, from its start. -/
theorem utf8BytePage_split {t : Text} (ht : isEncodable t = true) (offset maxBytes : ℕ) :
    ∃ before page rest, t = before ++ (page ++ rest) ∧ pageStart (encoded t) offset = (encoded before).length ∧
      utf8BytePage (encoded t) offset maxBytes = (page, (encoded before).length, (encoded before).length + (encoded page).length) := by
  obtain ⟨before, after, hsplit, hstart⟩ := split_of_startsUnit (pageStart_le (encoded t) offset) (drop_pageStart (encoded t) offset)
  have hafter : isEncodable after = true := isEncodable_sublist (fun c hc => by rw [hsplit]; exact List.mem_append_right _ hc) ht
  have hdrop : (encoded t).drop (encoded before).length = encoded after := by rw [hsplit, encoded_append, List.drop_left]
  have hlength : (encoded t).length = (encoded before).length + (encoded after).length := by rw [hsplit, encoded_append, List.length_append]
  obtain ⟨rest, hrest⟩ := charsWithin_front
    (min (max (min offset (encoded t).length + maxBytes) (encoded before).length) (encoded t).length - (encoded before).length) after
  refine ⟨before, _, rest, by rw [hrest, hsplit], hstart, ?_⟩
  simp only [utf8BytePage]
  rw [hstart, hdrop, longestDecodable_encoded hafter (by omega)]

/-- From where a character starts, a page holds the characters within its length. -/
theorem utf8BytePage_boundary {before after : Text} (ht : isEncodable (before ++ after) = true) (maxBytes : ℕ) :
    utf8BytePage (encoded (before ++ after)) (encoded before).length maxBytes =
      (charsWithin maxBytes after, (encoded before).length, (encoded before).length + (encoded (charsWithin maxBytes after)).length) := by
  have hafter : isEncodable after = true := isEncodable_sublist (fun c hc => List.mem_append_right _ hc) ht
  have hstop : min (max (min (encoded before).length (encoded (before ++ after)).length + maxBytes) (encoded before).length)
      (encoded (before ++ after)).length - (encoded before).length = min maxBytes (encoded after).length := by
    rw [encoded_append, List.length_append]
    omega
  simp only [utf8BytePage]
  rw [pageStart_boundary, hstop, encoded_append, List.drop_left, longestDecodable_encoded hafter (Nat.min_le_right _ _), charsWithin_min]

/-! ## What decoding drops -/

theorem decodeIgnore_encoded {t : Text} (ht : isEncodable t = true) (rest : Bytes) :
    decodeIgnore (encoded t ++ rest) = t ++ decodeIgnore rest := by
  rw [decodeIgnore, encoded, decodeUnits_encoded_append t ht, List.filterMap_append, decodeIgnore]
  refine congrArg (· ++ _) ?_
  induction t with
  | nil => rfl
  | cons c t ih =>
    simp only [isEncodable_cons, Bool.and_eq_true] at ht
    exact congrArg _ (ih ht.2)

/-- A part of a character decodes to nothing. -/
theorem decodeIgnore_take_char {c : CodePoint} (hc : isSurrogate c = false) {n : ℕ} (hn : n < (utf8Bytes c).length) :
    decodeIgnore ((utf8Bytes c).take n) = [] := by
  rw [decodeIgnore, List.filterMap_eq_nil_iff]
  intro u hu
  cases hchar : u.char with
  | none => rfl
  | some d =>
    obtain ⟨rfl, hd⟩ := decodeUnits_char _ u hu d hchar
    obtain ⟨us, vs, hunits⟩ := List.append_of_mem hu
    have hraw := rawOf_decodeUnits ((utf8Bytes c).take n)
    rw [hunits, rawOf_append, rawOf_cons] at hraw
    have hraw : rawOf us ++ (utf8Bytes d ++ rawOf vs) = (utf8Bytes c).take n := hraw
    cases us with
    | nil =>
      -- a whole character at the front would be the character itself
      have hfront : encoded [d] <+: encoded [c] := by
        rw [encoded_cons, encoded_cons, encoded_nil, List.append_nil, List.append_nil]
        exact (List.prefix_append (utf8Bytes d) (rawOf vs)).trans (hraw ▸ List.take_prefix n (utf8Bytes c))
      have hsame := prefix_of_encoded (by rw [isEncodable_cons, hd]; rfl) (by rw [isEncodable_cons, hc]; rfl) hfront
      rw [List.cons_prefix_cons] at hsame
      have hlength := congrArg List.length hraw
      rw [hsame.1, rawOf_nil, List.nil_append, List.length_append, List.length_take] at hlength
      omega
    | cons v us =>
      -- behind the first octet there is no other first octet
      obtain ⟨e, es, he⟩ := List.exists_cons_of_ne_nil (utf8Bytes_ne_nil c)
      obtain ⟨b, bs, hb⟩ := List.exists_cons_of_ne_nil (utf8Bytes_ne_nil d)
      cases n with
      | zero => simp at hunits
      | succ n =>
        rw [he, List.take_succ_cons] at hraw hunits
        rw [decodeUnits_cons, List.cons_append] at hunits
        have hfirst := firstUnit_raw e (es.take n)
        rw [(List.cons.inj hunits).1] at hfirst
        rw [rawOf_cons, hfirst, hb, List.cons_append, List.cons_append] at hraw
        have htail := (List.cons.inj hraw).2
        have hmem : b ∈ es.take n := by
          rw [← htail]
          simp
        have hcontinues := utf8Bytes_tail c e es he b (List.mem_of_mem_take hmem)
        rw [utf8Bytes_head d b bs hb] at hcontinues
        exact absurd hcontinues Bool.false_ne_true

/-- Of the first octets, decoding keeps the whole characters. -/
theorem decodeIgnore_take {t : Text} (ht : isEncodable t = true) (n : ℕ) : decodeIgnore ((encoded t).take n) = charsWithin n t := by
  induction t generalizing n with
  | nil =>
    rw [encoded_nil, List.take_nil]
    rfl
  | cons c t ih =>
    simp only [isEncodable_cons, Bool.and_eq_true, Bool.not_eq_true'] at ht
    rw [charsWithin, encoded_cons, List.take_append]
    split
    · next hle =>
      have hone : isEncodable [c] = true := by rw [isEncodable_cons, ht.1]; rfl
      have hchar : utf8Bytes c = encoded [c] := by rw [encoded_cons, encoded_nil, List.append_nil]
      rw [List.take_of_length_le hle, ← ih ht.2, hchar, decodeIgnore_encoded hone]
      rfl
    · next hlt =>
      have hnone : n - (utf8Bytes c).length = 0 := by omega
      rw [hnone, List.take_zero, List.append_nil, decodeIgnore_take_char ht.1 (by omega)]

/-- Decoding yields no more octets than it was given. -/
theorem length_decodeIgnore_le (raw : Bytes) : (encoded (decodeIgnore raw)).length ≤ raw.length := by
  have hchar := decodeUnits_char raw
  have hraw := rawOf_decodeUnits raw
  rw [decodeIgnore]
  generalize decodeUnits raw = us at hchar hraw
  rw [← hraw]
  clear hraw
  induction us with
  | nil => exact Nat.le_refl _
  | cons u us ih =>
    have hrest := ih fun v hv => hchar v (List.mem_cons_of_mem u hv)
    rw [rawOf_cons, List.length_append]
    cases hu : u.char with
    | none =>
      rw [List.filterMap_cons_none hu]
      omega
    | some c =>
      have hoctets : u.raw = utf8Bytes c := congrArg Utf8Unit.raw (hchar u (List.mem_cons_self ..) c hu).1
      rw [List.filterMap_cons_some hu, encoded_cons, List.length_append, hoctets]
      omega

end WebOauthMcp.BytePages
