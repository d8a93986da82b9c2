import WebOauthMcp.Words
import WebOauthMcp.AvoidedWords

/-!
# JSON documents as compact text

The text of a document as `json.dumps` prints it with non-ASCII characters kept, keys
sorted and no blanks. A set of words that could only sit inside a string value occurs
in the printed text exactly when it occurs in one of the document's strings.
-/

namespace WebOauthMcp.JsonText
open CodePoints Words AvoidedWords

/-- The characters of a printed finite float. -/
def isFloatChar (c : CodePoint) : Bool := (txt "0123456789.e+-").contains c

/-- A finite float, as printed. -/
abbrev FloatText := {t : Text // t.all isFloatChar = true}

inductive Json
  | null
  | bool (b : Bool)
  | int (i : ℤ)
  | float (r : FloatText)
  | str (t : Text)
  | arr (items : List Json)
  | obj (fields : List (Text × Json))

def quote : CodePoint := 0x22
def backslash : CodePoint := 0x5C

def hexDigit (n : ℕ) : CodePoint := Fin.ofNat _ (if n < 10 then 0x30 + n else 0x57 + n)

/-- The printed form of one character of a string value. -/
def escapeChar (c : CodePoint) : Text :=
  if c = quote ∨ c = backslash then [backslash, c]
  else if c.val = 0x0A then txt "\\n"
  else if c.val = 0x0D then txt "\\r"
  else if c.val = 0x09 then txt "\\t"
  else if c.val = 0x0C then txt "\\f"
  else if c.val = 0x08 then txt "\\b"
  else if c.val < 0x20 then txt "\\u00" ++ [hexDigit (c.val / 16), hexDigit (c.val % 16)]
  else [c]

def escape (t : Text) : Text := t.flatMap escapeChar

def quoted (t : Text) : Text := quote :: (escape t ++ [quote])

def integer : ℤ → Text
  | .ofNat n => decimal n
  | .negSucc n => txt "-" ++ decimal (n + 1)

/-- `",".join(parts)`. -/
def joinCommas (parts : List Text) : Text := List.intercalate (txt ",") parts

@[simp] theorem joinCommas_singleton (s : Text) : joinCommas [s] = s := by simp [joinCommas, List.intercalate]

theorem joinCommas_cons (s s' : Text) (ts : List Text) : joinCommas (s :: s' :: ts) = s ++ (txt "," ++ joinCommas (s' :: ts)) := by
  simp only [joinCommas, List.intercalate, List.intersperse_cons_cons, List.flatten_cons]

mutual
/-- `json.dumps(value, ensure_ascii=False, separators=(",", ":"), sort_keys=True)`. -/
def render : Json → Text
  | .null => txt "null"
  | .bool true => txt "true"
  | .bool false => txt "false"
  | .int i => integer i
  | .float r => r.val
  | .str t => quoted t
  | .arr items => txt "[" ++ (joinCommas (renderItems items) ++ txt "]")
  | .obj fields =>
    txt "\x7b" ++ (joinCommas (((renderFields fields).mergeSort fun f g => textLe f.1 g.1).map fun f =>
      quoted f.1 ++ (txt ":" ++ f.2)) ++ txt "\x7d")

def renderItems : List Json → List Text
  | [] => []
  | j :: js => render j :: renderItems js

def renderFields : List (Text × Json) → List (Text × Text)
  | [] => []
  | (k, j) :: fs => (k, render j) :: renderFields fs
end

mutual
/-- The strings of a document: its string values and its keys. -/
def strings : Json → List Text
  | .str t => [t]
  | .arr items => stringsOfItems items
  | .obj fields => stringsOfFields fields
  | .null | .bool _ | .int _ | .float _ => []

def stringsOfItems : List Json → List Text
  | [] => []
  | j :: js => strings j ++ stringsOfItems js

def stringsOfFields : List (Text × Json) → List Text
  | [] => []
  | (k, j) :: fs => k :: (strings j ++ stringsOfFields fs)
end

/-! ## Words that only occur inside strings -/

/-- Every character printed outside a string, or for an escaped one. -/
def jsonChars : Text := txt "\x7b\x7d[]:,\"\\-+.0123456789abcdefghijklmnopqrstuvwxyz"

def isJsonChar (c : CodePoint) : Bool := jsonChars.contains c

/-- Words that neither start like the text around a string nor contain an escaped character. -/
structure InStrings (W : Set Text) : Prop where
  nonempty : [] ∉ W
  opening : ∀ c, isJsonChar c = true → NeverOpens W c
  verbatim : ∀ c, c = quote ∨ c = backslash ∨ c.val < 0x20 → Separates W c

variable {W : Set Text}

theorem InStrings.neverOpens (hW : InStrings W) {t : Text} (ht : t.all isJsonChar = true) :
    ∀ c ∈ t, NeverOpens W c := fun c hc => hW.opening c (List.all_eq_true.mp ht c hc)

/-- The characters whose printed form is longer. -/
def isEscaped (c : CodePoint) : Prop := c = quote ∨ c = backslash ∨ c.val < 0x20

private theorem hexDigit_json (n : ℕ) (hn : n < 16) : isJsonChar (hexDigit n) = true := by
  have hall : ∀ n : Fin 16, isJsonChar (hexDigit n.val) = true := by decide
  exact hall ⟨n, hn⟩

theorem escapeChar_plain {c : CodePoint} (hc : ¬isEscaped c) : escapeChar c = [c] := by
  simp only [isEscaped, not_or] at hc
  rw [escapeChar, if_neg (by simp [hc.1, hc.2.1]), if_neg (by omega), if_neg (by omega), if_neg (by omega),
    if_neg (by omega), if_neg (by omega), if_neg (by omega)]

theorem escapeChar_json {c : CodePoint} (hc : isEscaped c) : (escapeChar c).all isJsonChar = true := by
  have hq : isJsonChar quote = true := by decide
  have hb : isJsonChar backslash = true := by decide
  by_cases hqb : c = quote ∨ c = backslash
  · rw [escapeChar, if_pos hqb]
    cases hqb with
    | inl h => simp [h, hq, hb]
    | inr h => simp [h, hb]
  · have hlt : c.val < 0x20 := by
      cases hc with
      | inl h => exact absurd (Or.inl h) hqb
      | inr h => exact h.resolve_left fun h => hqb (Or.inr h)
    have h1 := hexDigit_json (c.val / 16) (by omega)
    have h2 := hexDigit_json (c.val % 16) (by omega)
    rw [escapeChar, if_neg hqb]
    split_ifs
    · decide
    · decide
    · decide
    · decide
    · decide
    · rw [List.all_append, List.all_cons, List.all_cons, h1, h2]
      decide

private theorem escape_cons (c : CodePoint) (t : Text) : escape (c :: t) = escapeChar c ++ escape t := by
  simp [escape]

private theorem escapeChar_escaped {c : CodePoint} (hc : isEscaped c) :
    ∃ d rest, escapeChar c = d :: rest ∧ isEscaped d := by
  by_cases hqb : c = quote ∨ c = backslash
  · refine ⟨backslash, [c], ?_, Or.inr (Or.inl rfl)⟩
    rw [escapeChar, if_pos hqb]
  · rw [escapeChar, if_neg hqb]
    split_ifs with h1 h2 h3 h4 h5 h6
    · exact ⟨backslash, _, rfl, Or.inr (Or.inl rfl)⟩
    · exact ⟨backslash, _, rfl, Or.inr (Or.inl rfl)⟩
    · exact ⟨backslash, _, rfl, Or.inr (Or.inl rfl)⟩
    · exact ⟨backslash, _, rfl, Or.inr (Or.inl rfl)⟩
    · exact ⟨backslash, _, rfl, Or.inr (Or.inl rfl)⟩
    · exact ⟨backslash, _, rfl, Or.inr (Or.inl rfl)⟩
    · exact absurd (hc.resolve_left fun h => hqb (Or.inl h)) fun h => h.elim (fun h => hqb (Or.inr h)) h6

/-- A word of plain characters starts the printed text exactly when it starts the text. -/
private theorem isPrefix_escape_iff {w t : Text} (hw : ∀ c ∈ w, ¬isEscaped c) : w <+: escape t ↔ w <+: t := by
  induction t generalizing w with
  | nil => rfl
  | cons c t ih =>
    cases w with
    | nil => simp
    | cons d w =>
      have ih := ih (w := w) fun e he => hw e (List.mem_cons_of_mem d he)
      rw [escape_cons, List.cons_prefix_cons]
      by_cases hc : isEscaped c
      · obtain ⟨e, rest, he, hesc⟩ := escapeChar_escaped hc
        rw [he, List.cons_append, List.cons_prefix_cons]
        constructor
        · intro h
          exact absurd (h.1 ▸ hesc) (hw d (by simp))
        · intro h
          exact absurd (h.1 ▸ hc) (hw d (by simp))
      · rw [escapeChar_plain hc, List.singleton_append, List.cons_prefix_cons, ih]

theorem InStrings.plain (hW : InStrings W) {w : Text} (hw : w ∈ W) : ∀ c ∈ w, ¬isEscaped c :=
  fun c hc he => hW.verbatim c he w hw hc

theorem avoids_escape_iff (hW : InStrings W) (t : Text) : Avoids W (escape t) ↔ Avoids W t := by
  induction t with
  | nil => rfl
  | cons c t ih =>
    by_cases hc : isEscaped c
    · have hsep := avoids_append_cons_iff (a := []) (b := t) (hW.verbatim c hc)
      rw [List.nil_append] at hsep
      rw [escape_cons, avoids_append_iff_of_neverOpens hW.nonempty (hW.neverOpens (escapeChar_json hc)), ih, hsep]
      exact (and_iff_right (avoids_nil hW.nonempty)).symm
    · have hpre : ∀ w ∈ W, w <+: escape (c :: t) ↔ w <+: c :: t :=
        fun w hw => isPrefix_escape_iff (hW.plain hw)
      rw [escape_cons, escapeChar_plain hc, List.singleton_append] at hpre ⊢
      rw [avoids_cons_iff_isPrefix, avoids_cons_iff_isPrefix, ih]
      exact and_congr_left fun _ => forall₂_congr fun w hw => not_congr (hpre w hw)

theorem quoted_spec (hW : InStrings W) (t : Text) :
    Detached W (quoted t) ∧ (Avoids W (quoted t) ↔ Avoids W t) := by
  have hsep := hW.verbatim quote (Or.inl rfl)
  have hopen : ∀ c ∈ [quote], NeverOpens W c := hW.neverOpens (by decide)
  have hdet : Detached W (escape t ++ [quote]) := detached_append_separator hW.nonempty hsep
  refine ⟨(NeverOpens.detached hW.nonempty hopen).append hdet, ?_⟩
  rw [quoted, avoids_cons_iff hW.nonempty (hopen quote (by simp)), avoids_append_cons_iff hsep,
    avoids_escape_iff hW]
  exact and_iff_left (avoids_nil hW.nonempty)

theorem decimal_json (n : ℕ) : (decimal n).all isJsonChar = true := by
  simp only [decimal, List.all_map, List.all_eq_true]
  intro c hc
  have hdigit := Nat.isDigit_of_mem_toDigits (by decide) (by decide) hc
  have hall : ∀ k : Fin 58, 48 ≤ k.val → isJsonChar (Fin.ofNat _ k.val) = true := by decide
  simp only [Char.isDigit, Bool.and_eq_true, decide_eq_true_eq] at hdigit
  have hle : c.toNat ≤ 57 := hdigit.2
  exact hall ⟨c.toNat, by omega⟩ hdigit.1

theorem integer_json (i : ℤ) : (integer i).all isJsonChar = true := by
  cases i with
  | ofNat n => exact decimal_json n
  | negSucc n =>
    rw [integer, List.all_append, decimal_json]
    decide

theorem float_json (r : FloatText) : r.val.all isJsonChar = true := by
  have hall : (txt "0123456789.e+-").all isJsonChar = true := by decide
  refine List.all_eq_true.mpr fun c hc => ?_
  have hf := List.all_eq_true.mp r.property c hc
  simp only [isFloatChar, List.contains_eq_mem, decide_eq_true_eq] at hf
  exact List.all_eq_true.mp hall c hf

/-- Text outside the strings is neutral. -/
private theorem plain_spec (hW : InStrings W) {t : Text} (ht : t.all isJsonChar = true) :
    Detached W t ∧ Avoids W t :=
  ⟨NeverOpens.detached hW.nonempty (hW.neverOpens ht), NeverOpens.avoids hW.nonempty (hW.neverOpens ht)⟩

/-- Parts joined by commas between brackets. -/
private theorem bracketed_spec (hW : InStrings W) {l r : Text} (hl : l.all isJsonChar = true)
    (hr : r.all isJsonChar = true) (parts : List Text) (hparts : ∀ p ∈ parts, Detached W p) :
    Detached W (l ++ (joinCommas parts ++ r)) ∧
      (Avoids W (l ++ (joinCommas parts ++ r)) ↔ ∀ p ∈ parts, Avoids W p) := by
  have hcomma : ∀ c ∈ txt ",", NeverOpens W c := hW.neverOpens (by decide)
  have hjoin := avoids_intercalate_iff hW.nonempty hcomma hparts
  have hr := plain_spec hW hr
  refine ⟨(plain_spec hW hl).1.append (hjoin.1.append hr.1), ?_⟩
  rw [avoids_append_iff_of_neverOpens hW.nonempty (hW.neverOpens hl), joinCommas, hjoin.1, hjoin.2]
  exact and_iff_left hr.2

mutual
/-- A word occurs in the printed document exactly when it occurs in one of its strings. -/
theorem render_spec (hW : InStrings W) (j : Json) :
    Detached W (render j) ∧ (Avoids W (render j) ↔ ∀ s ∈ strings j, Avoids W s) := by
  cases j with
  | null =>
    have h := plain_spec hW (t := render .null) (by decide)
    exact ⟨h.1, by simpa [strings] using h.2⟩
  | bool b =>
    have h := plain_spec hW (t := render (.bool b)) (by cases b <;> decide)
    exact ⟨h.1, by simpa [strings] using h.2⟩
  | int i =>
    have h := plain_spec hW (t := render (.int i)) (integer_json i)
    exact ⟨h.1, by simpa [strings] using h.2⟩
  | float r =>
    have h := plain_spec hW (t := render (.float r)) (float_json r)
    exact ⟨h.1, by simpa [strings] using h.2⟩
  | str t =>
    have h := quoted_spec hW t
    exact ⟨h.1, by simpa [strings, render] using h.2⟩
  | arr items =>
    have hitems := renderItems_spec hW items
    have h := bracketed_spec hW (l := txt "[") (r := txt "]") (by decide) (by decide) _ hitems.1
    exact ⟨h.1, h.2.trans hitems.2⟩
  | obj fields =>
    have hfields := renderFields_spec hW fields
    have hpart : ∀ f : Text × Text, Detached W f.2 → Detached W (quoted f.1 ++ (txt ":" ++ f.2)) := fun f hf =>
      (quoted_spec hW f.1).1.append ((plain_spec hW (by decide)).1.append hf)
    have havoids : ∀ f : Text × Text, Avoids W (quoted f.1 ++ (txt ":" ++ f.2)) ↔
        Avoids W f.1 ∧ Avoids W f.2 := fun f => by
      rw [(quoted_spec hW f.1).1, (quoted_spec hW f.1).2,
        avoids_append_iff_of_neverOpens hW.nonempty (hW.neverOpens (by decide))]
    have h := bracketed_spec hW (l := txt "\x7b") (r := txt "\x7d") (by decide) (by decide)
      (((renderFields fields).mergeSort fun f g => textLe f.1 g.1).map fun f =>
        quoted f.1 ++ (txt ":" ++ f.2)) (by
          intro p hp
          obtain ⟨f, hf, rfl⟩ := List.mem_map.mp hp
          exact hpart f (hfields.1 f (List.mem_mergeSort.mp hf)))
    refine ⟨h.1, ?_⟩
    rw [render, h.2, strings, ← hfields.2]
    simp only [List.forall_mem_map, List.mem_mergeSort, havoids]

theorem renderItems_spec (hW : InStrings W) (js : List Json) :
    (∀ p ∈ renderItems js, Detached W p) ∧
      ((∀ p ∈ renderItems js, Avoids W p) ↔ ∀ s ∈ stringsOfItems js, Avoids W s) := by
  cases js with
  | nil => simp [renderItems, stringsOfItems]
  | cons j js =>
    have hj := render_spec hW j
    have hjs := renderItems_spec hW js
    rw [renderItems, stringsOfItems, List.forall_mem_cons, List.forall_mem_cons, List.forall_mem_append, hj.2,
      hjs.2]
    exact ⟨⟨hj.1, hjs.1⟩, Iff.rfl⟩

theorem renderFields_spec (hW : InStrings W) (fs : List (Text × Json)) :
    (∀ f ∈ renderFields fs, Detached W f.2) ∧
      ((∀ f ∈ renderFields fs, Avoids W f.1 ∧ Avoids W f.2) ↔ ∀ s ∈ stringsOfFields fs, Avoids W s) := by
  match fs with
  | [] => simp [renderFields, stringsOfFields]
  | (k, j) :: fs =>
    have hj := render_spec hW j
    have hfs := renderFields_spec hW fs
    rw [renderFields, stringsOfFields, List.forall_mem_cons]
    refine ⟨⟨hj.1, hfs.1⟩, ?_⟩
    rw [List.forall_mem_cons, List.forall_mem_cons, List.forall_mem_append, hj.2, hfs.2, and_assoc]
end

end WebOauthMcp.JsonText
