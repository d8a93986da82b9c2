import WebOauthMcp.ContentIo

/-!
# Naming the encoding of a marked file

What an explicit encoding changes for a file that starts with a byte order mark. The marks
carry names of their own, and the registry resolves the same codecs to other spellings.
-/

namespace WebOauthMcp.NamedEncodings
open CodePoints Utf8Units UnicodeCodecs ContentIo ExceptSteps

/-- The names of the marks, each with the name that `codecs.lookup` gives to its codec. -/
def markCodecs : List (Text × Text) :=
  [(txt "utf-32le", txt "utf-32-le"), (txt "utf-32be", txt "utf-32-be"), (txt "utf-8", txt "utf-8"),
    (txt "utf-16le", txt "utf-16-le"), (txt "utf-16be", txt "utf-16-be")]

/-- The registry resolves the names of the marks as CPython documents. -/
def CanonicalNames (reg : CodecRegistry) : Prop := ∀ p ∈ markCodecs, reg.canonical p.1 = some p.2

/-- A name stands for the codec of a mark; the mark of UTF-8 also goes with its signed form. -/
def SameCodec (reg : CodecRegistry) (b : Bom) (e : Text) : Prop :=
  reg.canonical e = reg.canonical b.name ∨ b.name = txt "utf-8" ∧ reg.canonical e = some (txt "utf-8-sig")

/-- The decodings have the same text, mark and newline style. -/
def SameContent (d d' : DecodedText) : Prop :=
  d.text = d'.text ∧ d.bom = d'.bom ∧ d.bomBytes = d'.bomBytes ∧ d.newline = d'.newline

/-- The explicit name succeeds exactly when detection does, with the same content. -/
def Agrees (reg : CodecRegistry) (raw : Bytes) (e : Text) : Prop :=
  ((∃ d, decodeTextBytes reg raw (some e) = .ok d) ↔ ∃ d, decodeTextBytes reg raw none = .ok d) ∧
    ∀ d d', decodeTextBytes reg raw (some e) = .ok d → decodeTextBytes reg raw none = .ok d' → SameContent d d'

/-- The part behind the detected mark is valid in the encoding of that mark. -/
def ValidBody (reg : CodecRegistry) (raw : Bytes) : Prop :=
  ∃ b t, detectBom raw = some b ∧ (reg.codec b.name).decode (raw.drop b.mark.length) = .ok t

section
variable {reg : CodecRegistry} {raw : Bytes} {b d : Bom}

/-- A file that starts with one of the marks is detected as marked, perhaps by a longer one. -/
theorem detectBom_of_front (hb : b ∈ boms) (hmark : b.mark <+: raw) : ∃ d ∈ boms, detectBom raw = some d := by
  cases h : detectBom raw with
  | none =>
    have habsent := marks_absent h hb
    rw [List.isPrefixOf_iff_prefix.mpr hmark] at habsent
    exact nomatch habsent
  | some d => exact ⟨d, List.mem_of_find?_eq_some h, rfl⟩

/-- No other mark starts as the mark of UTF-8 does. -/
theorem detectBom_utf8 (hmark : bomUtf8 <+: raw) : detectBom raw = some ⟨bomUtf8, txt "utf-8"⟩ := by
  obtain ⟨rest, rfl⟩ := hmark
  rfl

/-- Whatever name is compatible, the part behind the mark is decoded as the mark says. -/
theorem decode_marked_iff (hdetect : detectBom raw = some d) {encoding : Option Text}
    (heffective : effectiveEncoding reg (some d) encoding = .ok d.name) (r : DecodedText) :
    decodeTextBytes reg raw encoding = .ok r ↔
      ∃ t, (reg.codec d.name).decode (raw.drop d.mark.length) = .ok t ∧
        r = ⟨t, d.name, some d.name, d.mark, newlineStyle t⟩ := by
  rw [decodeTextBytes, hdetect, bind_eq_ok]
  simp only [heffective, bind_eq_ok, mapError_ok_iff, Option.map_some, Option.getD_some, reduceCtorEq, false_and,
    and_false, if_false]
  constructor
  · intro h
    obtain ⟨_, hname, t, ht, hr⟩ := h
    obtain rfl := Except.ok.inj hname
    exact ⟨t, ht, (Except.ok.inj hr).symm⟩
  · intro h
    obtain ⟨t, ht, rfl⟩ := h
    exact ⟨d.name, rfl, t, ht, rfl⟩

theorem detected_decodes_iff (hdetect : detectBom raw = some d) :
    (∃ r, decodeTextBytes reg raw none = .ok r) ↔ ValidBody reg raw := by
  constructor
  · intro h
    obtain ⟨r, hr⟩ := h
    obtain ⟨t, ht, _⟩ := (decode_marked_iff hdetect rfl r).mp hr
    exact ⟨d, t, hdetect, ht⟩
  · intro h
    obtain ⟨d', t, hdetect', ht⟩ := h
    obtain rfl := Option.some.inj (hdetect.symm.trans hdetect')
    exact ⟨_, (decode_marked_iff hdetect rfl _).mpr ⟨t, ht, rfl⟩⟩

/-- A compatible name changes nothing. -/
theorem agrees_of_compatible (hdetect : detectBom raw = some d) {e : Text}
    (heffective : effectiveEncoding reg (some d) (some e) = .ok d.name) : Agrees reg raw e := by
  have hnamed := decode_marked_iff hdetect heffective
  have heffective' : effectiveEncoding reg (some d) none = .ok d.name := rfl
  have hdetected := decode_marked_iff hdetect heffective'
  constructor
  · exact exists_congr fun r => (hnamed r).trans (hdetected r).symm
  · intro r r' hr hr'
    obtain ⟨t, ht, rfl⟩ := (hnamed r).mp hr
    obtain ⟨t', ht', rfl⟩ := (hdetected r').mp hr'
    obtain rfl := Except.ok.inj (ht.symm.trans ht')
    exact ⟨rfl, rfl, rfl, rfl⟩

/-- A name that conflicts with the mark fails, so it agrees with detection only where that
fails too. -/
theorem agrees_of_conflict (hdetect : detectBom raw = some d) {e : Text} {name : Text}
    (hname : reg.canonical e = some name) (hconflict : name ∉ compatibleEncodings d.name) :
    Agrees reg raw e ↔ ¬ValidBody reg raw := by
  have hfails : ∀ r, decodeTextBytes reg raw (some e) ≠ .ok r := by
    intro r hr
    have heffective := (decodeTextBytes_ok hr).effective
    rw [hdetect] at heffective
    simp only [effectiveEncoding, hname, if_neg hconflict] at heffective
    cases heffective
  rw [← detected_decodes_iff hdetect]
  constructor
  · intro h hvalid
    obtain ⟨r, hr⟩ := h.1.mpr hvalid
    exact hfails r hr
  · intro h
    refine ⟨iff_of_false ?_ h, fun r _ hr => absurd hr (hfails r)⟩
    intro hnamed
    obtain ⟨r, hr⟩ := hnamed
    exact hfails r hr

/-- The registry's name of a mark's codec is compatible with no mark, UTF-8 apart. -/
theorem canonical_conflicts (hnames : CanonicalNames reg) (hb : b ∈ boms) (hother : b.name ≠ txt "utf-8") (hd : d ∈ boms) :
    ∃ name, reg.canonical b.name = some name ∧ name ∉ compatibleEncodings d.name := by
  have hspelled : ∀ p ∈ markCodecs, p.1 ≠ txt "utf-8" → ∀ d ∈ boms, p.2 ∉ compatibleEncodings d.name := by decide
  have hmarks : ∀ b ∈ boms, ∃ p ∈ markCodecs, p.1 = b.name := by decide
  obtain ⟨p, hp, hpb⟩ := hmarks b hb
  rw [← hpb] at hother ⊢
  exact ⟨p.2, hnames p hp, hspelled p hp hother d hd⟩

end

/-- For a marked file, naming the codec of its mark agrees with detection exactly for UTF-8
and for files that are not valid behind their mark. -/
theorem named_agrees_iff {reg : CodecRegistry} (hnames : CanonicalNames reg) {raw : Bytes} {b : Bom} (hb : b ∈ boms)
    (hmark : b.mark <+: raw) {e : Text} (hsame : SameCodec reg b e) :
    Agrees reg raw e ↔ b.name = txt "utf-8" ∨ ¬ValidBody reg raw := by
  obtain ⟨d, hd, hdetect⟩ := detectBom_of_front hb hmark
  by_cases hutf8 : b.name = txt "utf-8"
  · refine iff_of_true ?_ (Or.inl hutf8)
    obtain rfl : b = ⟨bomUtf8, txt "utf-8"⟩ := by
      have hall : ∀ b ∈ boms, b.name = txt "utf-8" → b = ⟨bomUtf8, txt "utf-8"⟩ := by decide
      exact hall b hb hutf8
    refine agrees_of_compatible (detectBom_utf8 hmark) ?_
    have hname : reg.canonical (txt "utf-8") = some (txt "utf-8") := hnames (txt "utf-8", txt "utf-8") (by decide)
    rcases hsame with hcanonical | ⟨_, hsigned⟩
    · rw [hname] at hcanonical
      simp [effectiveEncoding, hcanonical, compatibleEncodings]
    · simp [effectiveEncoding, hsigned, compatibleEncodings]
  · obtain ⟨name, hname, hconflict⟩ := canonical_conflicts hnames hb hutf8 hd
    have hcanonical := hsame.resolve_right fun h => hutf8 h.1
    rw [agrees_of_conflict hdetect (hcanonical.trans hname) hconflict, or_iff_right hutf8]

/-- A registry with CPython's names for the modelled codecs. -/
def cpythonRegistry : CodecRegistry where
  native := .little
  canonical e := ((txt "utf-8-sig", txt "utf-8-sig") :: (txt "utf-16-le", txt "utf-16-le") :: markCodecs).lookup e
  other _ := { decode := fun _ => .error .other, encode := fun _ => none }

theorem cpythonRegistry_names : CanonicalNames cpythonRegistry := by
  unfold CanonicalNames
  decide

theorem named_agrees_signed : Agrees cpythonRegistry (bomUtf8 ++ [0x61]) (txt "utf-8-sig") ↔
    txt "utf-8" = txt "utf-8" ∨ ¬ValidBody cpythonRegistry (bomUtf8 ++ [0x61]) :=
  named_agrees_iff cpythonRegistry_names (b := ⟨bomUtf8, txt "utf-8"⟩) (by decide) (List.prefix_append _ _)
    (Or.inr ⟨rfl, by decide⟩)

/-- The letter a in UTF-16, after its mark: detection reads it, the mark's own name does not. -/
theorem marked_utf16_conflicts : ∃ reg raw b e, CanonicalNames reg ∧ b ∈ boms ∧ b.mark <+: raw ∧ SameCodec reg b e ∧
    (∃ d, decodeTextBytes reg raw none = .ok d ∧ d.text = txt "a") ∧
    decodeTextBytes reg raw (some e) = .error (.conflictsWithBom e b.name) ∧ ¬Agrees reg raw e := by
  have hconflict : decodeTextBytes cpythonRegistry [0xFF, 0xFE, 0x61, 0] (some (txt "utf-16le")) =
      .error (.conflictsWithBom (txt "utf-16le") (txt "utf-16le")) := rfl
  have hdetected : decodeTextBytes cpythonRegistry [0xFF, 0xFE, 0x61, 0] none =
      .ok ⟨txt "a", txt "utf-16le", some (txt "utf-16le"), [0xFF, 0xFE], .none⟩ := rfl
  refine ⟨cpythonRegistry, [0xFF, 0xFE, 0x61, 0], ⟨bomUtf16 .little, txt "utf-16le"⟩, txt "utf-16le",
    cpythonRegistry_names, by decide, ⟨[0x61, 0], rfl⟩, Or.inl rfl, ⟨_, hdetected, rfl⟩, hconflict, ?_⟩
  intro hagrees
  obtain ⟨d, hd⟩ := hagrees.1.mpr ⟨_, hdetected⟩
  rw [hconflict] at hd
  exact nomatch hd

end WebOauthMcp.NamedEncodings
