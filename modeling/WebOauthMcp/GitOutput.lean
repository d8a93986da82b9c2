import WebOauthMcp.LineSplitting

/-!
# What git prints

Git ends every line by a line feed and quotes unusual names in the manner of C. Reading its
output splits it at more characters than git ends lines with, but a line feed always ends a
piece.
-/

namespace WebOauthMcp.GitOutput
open CodePoints LineSplitting

/-! ## Lines ended by line feeds -/

section
variable {α : Type} {key : α → CodePoint} {a : α}

/-- What follows a line feed is split on its own. -/
theorem linesOf_append_feed (ha : key a = lineFeed) (xs ys : List α) :
    linesOf key (xs ++ a :: ys) = linesOf key (xs ++ [a]) ++ linesOf key ys := by
  have hfeed : isLineBreak (key a) = true := by
    rw [ha]
    decide
  have hother : ¬key a = carriageReturn := by
    rw [ha]
    decide
  have halone : ∀ zs, linesOf key (a :: zs) = ⟨[], [a]⟩ :: linesOf key zs := fun zs =>
    linesOf_break key a zs hfeed fun b bs _ h => hother h.1
  induction xs using linesOf_induction key with
  | nil => simp [halone]
  | content b rest hb ih =>
    rw [List.cons_append, List.cons_append, linesOf_content key b _ hb, linesOf_content key b _ hb, ih]
    cases hrest : linesOf key (rest ++ [a]) with
    | nil =>
      have hjoin := flatMap_linesOf key (rest ++ [a])
      simp [hrest] at hjoin
    | cons l ls => rfl
  | crlf b c rest hb hc ih =>
    simp only [List.cons_append]
    rw [linesOf_crlf key b c _ hb hc, linesOf_crlf key b c _ hb hc, ih, List.cons_append]
  | ending b rest hb hcr ih =>
    cases rest with
    | nil =>
      by_cases hreturn : key b = carriageReturn
      · simp only [List.cons_append, List.nil_append]
        rw [linesOf_crlf key b a ys hreturn ha, linesOf_crlf key b a [] hreturn ha]
        simp
      · simp only [List.cons_append, List.nil_append]
        rw [linesOf_break key b (a :: ys) hb fun c cs _ h => hreturn h.1, linesOf_break key b [a] hb fun c cs _ h => hreturn h.1,
          halone ys, halone []]
        simp
    | cons c rest =>
      have hnext : ∀ zs d ds, c :: zs = d :: ds → ¬(key b = carriageReturn ∧ key d = lineFeed) := by
        intro zs d ds h
        obtain ⟨rfl, -⟩ := List.cons.inj h
        exact hcr c rest rfl
      simp only [List.cons_append] at ih ⊢
      rw [linesOf_break key b _ hb (hnext _), linesOf_break key b _ hb (hnext _), ih, List.cons_append]

theorem linesOf_unbroken {xs : List α} (ha : key a = lineFeed) (h : ∀ x ∈ xs, isLineBreak (key x) = false) :
    linesOf key (xs ++ [a]) = [⟨xs, [a]⟩] := by
  induction xs with
  | nil =>
    have hfeed : isLineBreak (key a) = true := by
      rw [ha]
      decide
    rw [List.nil_append, linesOf_break key a [] hfeed nofun, linesOf_nil]
  | cons x xs ih =>
    rw [List.forall_mem_cons] at h
    rw [List.cons_append, linesOf_content key x _ h.1, ih h.2]

end

/-- A line of a file, without its line feed. -/
structure FileLine where
  text : Text
  noFeed : lineFeed ∉ text

/-! The pieces of a text, by its first character. -/

theorem splitlines_content {c : CodePoint} (hc : isLineBreak c = false) (rest : Text) :
    splitlines (c :: rest) = match splitlines rest with
      | [] => [[c]]
      | l :: ls => (c :: l) :: ls := by
  have hline := linesOf_content id c rest hc
  rw [splitlines, hline, splitlines]
  cases linesOf id rest with
  | nil => rfl
  | cons l ls => rfl

theorem splitlines_break {c : CodePoint} (hc : isLineBreak c = true) {rest : Text}
    (hcr : ∀ d ds, rest = d :: ds → ¬(c = carriageReturn ∧ d = lineFeed)) : splitlines (c :: rest) = [] :: splitlines rest := by
  have hline := linesOf_break id c rest hc hcr
  rw [splitlines, hline]
  rfl

theorem splitlines_feed (rest : Text) : splitlines (lineFeed :: rest) = [] :: splitlines rest :=
  splitlines_break (by decide) fun d ds _ hd => absurd hd.1 (by decide)

theorem splitlines_crlf (rest : Text) : splitlines (carriageReturn :: lineFeed :: rest) = [] :: splitlines rest := by
  have hline := linesOf_crlf id carriageReturn lineFeed rest rfl rfl
  rw [splitlines, hline]
  rfl

/-- Induction along the pieces of a text. -/
theorem splitlines_induction {motive : Text → Prop} (nil : motive [])
    (content : ∀ c rest, isLineBreak c = false → motive rest → motive (c :: rest))
    (crlf : ∀ rest, motive rest → motive (carriageReturn :: lineFeed :: rest))
    (ending : ∀ c rest, isLineBreak c = true → (∀ d ds, rest = d :: ds → ¬(c = carriageReturn ∧ d = lineFeed)) →
      motive rest → motive (c :: rest)) (t : Text) : motive t := by
  refine linesOf_induction id nil content ?_ ending t
  intro c d rest hc hd hrest
  obtain rfl : c = carriageReturn := hc
  obtain rfl : d = lineFeed := hd
  exact crlf rest hrest

/-- Lines as git prints them. -/
def printed (lines : List Text) : Text := lines.flatMap fun l => l ++ [lineFeed]

theorem linesOf_printed (lines : List Text) :
    linesOf id (printed lines) = lines.flatMap fun l => linesOf id (l ++ [lineFeed]) := by
  induction lines with
  | nil => exact linesOf_nil id
  | cons l lines ih =>
    have hfeed : id lineFeed = lineFeed := rfl
    have hsplit := linesOf_append_feed hfeed l (printed lines)
    rw [printed, List.flatMap_cons, List.append_assoc, List.singleton_append, ← printed, hsplit, ih, List.flatMap_cons]

/-- The pieces of a line, with their breaks; the last one ends with the line feed. -/
def pieces (line : Text) : List Text := splitlinesKeepends (line ++ [lineFeed])

theorem splitlinesKeepends_printed (lines : List Text) : splitlinesKeepends (printed lines) = lines.flatMap pieces := by
  rw [splitlinesKeepends, linesOf_printed, List.map_flatMap]
  rfl

/-- The pieces of a line without their breaks. -/
def cut (line : Text) : List Text := splitlines (line ++ [lineFeed])

theorem splitlines_printed (lines : List Text) : splitlines (printed lines) = lines.flatMap cut := by
  rw [splitlines, linesOf_printed, List.map_flatMap]
  rfl

/-- No character of the line breaks it. -/
def Unbroken (line : Text) : Prop := ∀ c ∈ line, isLineBreak c = false

theorem pieces_unbroken {line : Text} (h : Unbroken line) : pieces line = [line ++ [lineFeed]] := by
  have hline : linesOf id (line ++ [lineFeed]) = [⟨line, [lineFeed]⟩] := linesOf_unbroken rfl h
  rw [pieces, splitlinesKeepends, hline]
  rfl

theorem cut_unbroken {line : Text} (h : Unbroken line) : cut line = [line] := by
  have hline : linesOf id (line ++ [lineFeed]) = [⟨line, [lineFeed]⟩] := linesOf_unbroken rfl h
  rw [cut, splitlines, hline]
  rfl

theorem unbroken_of_mem_cut {line piece : Text} (h : piece ∈ cut line) : Unbroken piece := by
  obtain ⟨l, hl, rfl⟩ := List.mem_map.mp h
  exact linesOf_content_noBreak id _ l hl

theorem cut_ne_nil (line : Text) : cut line ≠ [] := by
  intro hnil
  have hjoin := flatMap_linesOf id (line ++ [lineFeed])
  rw [List.map_eq_nil_iff.mp hnil] at hjoin
  simp at hjoin

/-- The first piece keeps what stands in front of it. -/
theorem cut_cons {c : CodePoint} (hc : isLineBreak c = false) (line : Text) :
    ∃ piece rest, cut line = piece :: rest ∧ cut (c :: line) = (c :: piece) :: rest := by
  have hline := linesOf_content id c (line ++ [lineFeed]) hc
  have hsome := cut_ne_nil line
  simp only [cut, splitlines, List.cons_append] at hsome ⊢
  cases hpieces : linesOf id (line ++ [lineFeed]) with
  | nil => simp [hpieces] at hsome
  | cons l ls =>
    refine ⟨l.content, ls.map Line.content, rfl, ?_⟩
    rw [hline, hpieces]
    rfl

theorem Unbroken.append {t u : Text} (ht : Unbroken t) (hu : Unbroken u) : Unbroken (t ++ u) := by
  intro c hc
  cases List.mem_append.mp hc with
  | inl hc => exact ht c hc
  | inr hc => exact hu c hc

/-! ## Text mode -/

/-- What a text mode pipe makes of CR LF and CR. -/
def universalNewlines : Text → Text
  | [] => []
  | [c] => [if c = carriageReturn then lineFeed else c]
  | c :: d :: rest =>
    if c = carriageReturn then
      if d = lineFeed then lineFeed :: universalNewlines rest else lineFeed :: universalNewlines (d :: rest)
    else c :: universalNewlines (d :: rest)

theorem universalNewlines_crlf (rest : Text) : universalNewlines (carriageReturn :: lineFeed :: rest) = lineFeed :: universalNewlines rest := by
  simp [universalNewlines]

theorem universalNewlines_cons {c : CodePoint} {rest : Text} (h : ∀ d ds, rest = d :: ds → ¬(c = carriageReturn ∧ d = lineFeed)) :
    universalNewlines (c :: rest) = (if c = carriageReturn then lineFeed else c) :: universalNewlines rest := by
  cases rest with
  | nil => rfl
  | cons d ds =>
    rw [universalNewlines]
    by_cases hc : c = carriageReturn
    · rw [if_pos hc, if_pos hc, if_neg fun hd => h d ds rfl ⟨hc, hd⟩]
    · rw [if_neg hc, if_neg hc]

/-- Lines are not changed. -/
theorem splitlines_universalNewlines (t : Text) : splitlines (universalNewlines t) = splitlines t := by
  induction t using splitlines_induction with
  | nil => rfl
  | content c rest hc ih =>
    have hreturn : ¬c = carriageReturn := by
      rintro rfl
      revert hc
      decide
    rw [universalNewlines_cons fun d ds _ hd => hreturn hd.1, if_neg hreturn, splitlines_content hc, splitlines_content hc, ih]
  | crlf rest ih => rw [universalNewlines_crlf, splitlines_feed, splitlines_crlf, ih]
  | ending c rest hc hcr ih =>
    rw [universalNewlines_cons hcr, splitlines_break hc hcr]
    by_cases hreturn : c = carriageReturn
    · rw [if_pos hreturn, splitlines_feed, ih]
    · rw [if_neg hreturn, splitlines_break hc fun d ds _ hd => hreturn hd.1, ih]

/-- Behind a character that does not break, a line feed changes nothing. -/
theorem cut_append (front : Text) {c : CodePoint} (hc : isLineBreak c = false) : cut (front ++ [c]) = splitlines (front ++ [c]) := by
  rw [cut]
  induction front using splitlines_induction with
  | nil =>
    have hfeed : splitlines [lineFeed] = [[]] := splitlines_feed []
    have hnone : splitlines [] = [] := rfl
    rw [List.nil_append, List.singleton_append, splitlines_content hc, splitlines_content hc, hfeed, hnone]
  | content a rest ha ih =>
    simp only [List.cons_append]
    rw [splitlines_content ha, splitlines_content ha, ih]
  | crlf rest ih =>
    simp only [List.cons_append]
    rw [splitlines_crlf, splitlines_crlf, ih]
  | ending a rest ha hcr ih =>
    have hnext : ∀ tail d ds, rest ++ c :: tail = d :: ds → ¬(a = carriageReturn ∧ d = lineFeed) := by
      intro tail d ds hd
      cases rest with
      | nil =>
        obtain ⟨rfl, -⟩ := List.cons.inj hd
        rintro ⟨-, rfl⟩
        revert hc
        decide
      | cons b bs =>
        obtain ⟨rfl, -⟩ := List.cons.inj hd
        exact hcr b bs rfl
    simp only [List.cons_append, List.append_assoc] at ih ⊢
    rw [splitlines_break ha (hnext _), splitlines_break ha (hnext _), ih]

/-- A line in one piece, not ended by a break of its own, has no break. -/
theorem unbroken_of_length_cut {line : Text} (hended : ∃ front c, line = front ++ [c] ∧ isLineBreak c = false) (h : (cut line).length = 1) :
    Unbroken line := by
  obtain ⟨front, c, rfl, hc⟩ := hended
  rw [cut_append front hc, splitlines, List.length_map, List.length_eq_one_iff] at h
  obtain ⟨l, hl⟩ := h
  have hjoin := flatMap_linesOf id (front ++ [c])
  have hends := linesOf_ended id (front ++ [c])
  have hcontent := linesOf_content_noBreak id (front ++ [c])
  rw [hl] at hjoin hends hcontent
  rw [List.flatMap_singleton, Line.items] at hjoin
  cases hends with
  | inl hnone =>
    rw [hnone.1, List.append_nil] at hjoin
    rw [← hjoin]
    exact hcontent l (List.mem_singleton.mpr rfl)
  | inr hending =>
    rcases hending with ⟨a, ha, hbreak⟩ | ⟨a, b, hab, -, hb⟩
    · rw [ha] at hjoin
      obtain rfl : a = c := (List.cons.inj (List.append_inj' hjoin rfl).2).1
      exact absurd (hbreak.symm.trans hc) Bool.true_eq_false.mp
    · rw [hab, ← List.singleton_append, ← List.append_assoc] at hjoin
      obtain rfl : b = c := (List.cons.inj (List.append_inj' hjoin rfl).2).1
      obtain rfl : b = lineFeed := hb
      exact absurd hc (by decide)

theorem length_le_flatMap {α β : Type} {f : α → List β} (h : ∀ a, f a ≠ []) (xs : List α) :
    xs.length ≤ (xs.flatMap f).length := by
  induction xs with
  | nil => simp
  | cons x xs ih =>
    have hx := List.length_pos_iff.mpr (h x)
    rw [List.flatMap_cons, List.length_append, List.length_cons]
    omega

/-- Where the lists are as many as their elements, each has one. -/
theorem length_of_flatMap {α β : Type} {f : α → List β} (h : ∀ a, f a ≠ []) {xs : List α} (hlength : (xs.flatMap f).length = xs.length) :
    ∀ x ∈ xs, (f x).length = 1 := by
  induction xs with
  | nil => exact nofun
  | cons x xs ih =>
    have hx := List.length_pos_iff.mpr (h x)
    have hxs := length_le_flatMap h xs
    rw [List.flatMap_cons, List.length_append, List.length_cons] at hlength
    exact List.forall_mem_cons.mpr ⟨by omega, ih (by omega)⟩

/-- Lines with feeds between them only. -/
theorem splitlines_joinLines {lines : List Text} (h : ∀ l ∈ lines, ∃ front c, l = front ++ [c] ∧ isLineBreak c = false) :
    splitlines (joinLines lines) = lines.flatMap cut := by
  induction lines with
  | nil => rfl
  | cons l lines ih =>
    rw [List.forall_mem_cons] at h
    rw [List.flatMap_cons, ← ih h.2]
    cases lines with
    | nil =>
      obtain ⟨⟨front, c, rfl, hc⟩, -⟩ := h
      rw [cut_append front hc]
      simp [joinLines, splitlines]
    | cons m ms =>
      have hfeed : id lineFeed = lineFeed := rfl
      have hjoin : joinLines (l :: m :: ms) = l ++ lineFeed :: joinLines (m :: ms) := by simp [joinLines, List.intercalate]
      rw [hjoin, splitlines, linesOf_append_feed hfeed, List.map_append]
      rfl

/-! ## Quoted names -/

def tab : CodePoint := 0x09

/-- Control characters, quotation marks, backslashes and all that is not ASCII. -/
def needsQuoting (c : CodePoint) : Bool := c.val < 0x20 || c.val = 0x22 || c.val = 0x5C || 0x7F ≤ c.val

def octalDigit (n : ℕ) : CodePoint := Fin.ofNat _ (0x30 + n % 8)

/-- An octet between quotation marks. -/
def escapeByte (b : Byte) : Text :=
  match b.val with
  | 0x07 => txt "\\a"
  | 0x08 => txt "\\b"
  | 0x09 => txt "\\t"
  | 0x0A => txt "\\n"
  | 0x0B => txt "\\v"
  | 0x0C => txt "\\f"
  | 0x0D => txt "\\r"
  | 0x22 => txt "\\\""
  | 0x5C => txt "\\\\"
  | n => if n < 0x20 ∨ 0x7F ≤ n then [0x5C, octalDigit (n / 64), octalDigit (n / 8), octalDigit n] else [Fin.ofNat _ n]

def quotationMark : CodePoint := 0x22

/-- `quote_c_style`, where `unusual` says which characters call for it. -/
def quotedIf (unusual : CodePoint → Bool) (name : Text) : Text :=
  if name.any unusual then quotationMark :: ((name.flatMap utf8Bytes).flatMap escapeByte ++ [quotationMark]) else name

/-- A name as git prints it by default. -/
def quoted (name : Text) : Text := quotedIf needsQuoting name

def Printable (t : Text) : Prop := ∀ c ∈ t, 0x20 ≤ c.val ∧ c.val < 0x7F

theorem printable_of_all {t : Text} (h : t.all (fun c => decide (0x20 ≤ c.val ∧ c.val < 0x7F)) = true) : Printable t := by
  intro c hc
  simpa using List.all_eq_true.mp h c hc

theorem escapeByte_printable (b : Byte) : Printable (escapeByte b) := by
  have hall : ∀ b : Byte, (escapeByte b).all (fun c => decide (0x20 ≤ c.val ∧ c.val < 0x7F)) = true := by decide +kernel
  exact printable_of_all (hall b)

theorem escapeByte_ne_nil (b : Byte) : escapeByte b ≠ [] := by
  have hall : ∀ b : Byte, escapeByte b ≠ [] := by decide +kernel
  exact hall b

theorem Printable.append {t u : Text} (ht : Printable t) (hu : Printable u) : Printable (t ++ u) := by
  intro c hc
  cases List.mem_append.mp hc with
  | inl hc => exact ht c hc
  | inr hc => exact hu c hc

theorem Printable.notMem_feed {t : Text} (h : Printable t) : lineFeed ∉ t := by
  intro hmem
  have hrange := h lineFeed hmem
  revert hrange
  decide

theorem Printable.unbroken {t : Text} (h : Printable t) : Unbroken t := by
  have hall : lineBreaks.all (fun d => !(0x20 ≤ d.val && d.val < 0x7F)) = true := by decide
  intro c hc
  rw [← Bool.not_eq_true]
  intro hbreak
  have hout := List.all_eq_true.mp hall c (by simpa [isLineBreak] using hbreak)
  have hin := h c hc
  simp only [Bool.not_eq_true', Bool.and_eq_false_iff, decide_eq_false_iff_not] at hout
  omega

theorem decimal_digits (n : ℕ) : ∀ c ∈ decimal n, 0x30 ≤ c.val ∧ c.val ≤ 0x39 := by
  intro c hc
  obtain ⟨d, hd, rfl⟩ := List.mem_map.mp hc
  have hdigit := Nat.isDigit_of_mem_toDigits (by decide) (by decide) hd
  simp only [Char.isDigit, Bool.and_eq_true, decide_eq_true_eq] at hdigit
  have hlow : 48 ≤ d.toNat := hdigit.1
  have hhigh : d.toNat ≤ 57 := hdigit.2
  rw [Fin.ofNat_eq_cast, Fin.val_natCast, Nat.mod_eq_of_lt (by omega)]
  exact ⟨hlow, hhigh⟩

theorem decimal_printable (n : ℕ) : Printable (decimal n) := by
  intro c hc
  have hdigit := decimal_digits n c hc
  omega

theorem notMem_decimal {c : CodePoint} (hc : c.val < 0x30) (n : ℕ) : c ∉ decimal n := by
  intro hmem
  have hdigit := decimal_digits n c hmem
  omega

section
variable {unusual : CodePoint → Bool} {name : Text}

theorem quotedIf_plain (h : name.any unusual = false) : quotedIf unusual name = name := by simp [quotedIf, h]

theorem quotedIf_unusual (h : name.any unusual = true) :
    quotedIf unusual name = quotationMark :: ((name.flatMap utf8Bytes).flatMap escapeByte ++ [quotationMark]) := by
  simp [quotedIf, h]

/-- What is quoted or needs no quoting is printed as printable ASCII. -/
theorem quotedIf_printable (h : ∀ c, needsQuoting c = true → unusual c = true) : Printable (quotedIf unusual name) := by
  cases hany : name.any unusual with
  | false =>
    rw [quotedIf_plain hany]
    intro c hc
    have hplain : needsQuoting c = false := by
      rw [← Bool.not_eq_true]
      intro hquote
      rw [List.any_eq_false] at hany
      exact hany c hc (h c hquote)
    simp only [needsQuoting, Bool.or_eq_false_iff, decide_eq_false_iff_not] at hplain
    omega
  | true =>
    rw [quotedIf_unusual hany]
    intro c hc
    rcases List.mem_cons.mp hc with rfl | hc
    · decide
    · rcases List.mem_append.mp hc with hc | hc
      · obtain ⟨b, -, hb⟩ := List.mem_flatMap.mp hc
        exact escapeByte_printable b c hb
      · obtain rfl := List.mem_singleton.mp hc
        decide

/-- Quoting makes a name longer. -/
theorem length_quotedIf (h : name.any unusual = true) : name.length + 2 ≤ (quotedIf unusual name).length := by
  have hbytes := length_le_flatMap utf8Bytes_ne_nil name
  have hescaped := length_le_flatMap escapeByte_ne_nil (name.flatMap utf8Bytes)
  rw [quotedIf_unusual h, List.length_cons, List.length_append, List.length_singleton]
  omega

end

theorem quoted_printable (name : Text) : Printable (quoted name) := quotedIf_printable fun _ h => h

end WebOauthMcp.GitOutput
