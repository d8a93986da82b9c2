import WebOauthMcp.LineSplitting
import WebOauthMcp.UnicodeCodecs
import WebOauthMcp.TextScans
import WebOauthMcp.ExceptSteps

/-!
# Text content of files

Decoding with a detected or a named encoding, encoding back, and the newline styles. The
Unicode codecs are modelled; how names are resolved and what other codecs do is a
parameter.
-/

namespace WebOauthMcp.ContentIo
open CodePoints Utf8Units LineSplitting UnicodeCodecs TextScans ExceptSteps

/-! ## Newline styles -/

inductive NewlineStyle
  | none
  | lf
  | crlf
  | cr
  | mixed
  deriving DecidableEq, Repr

def crlfPair : Text := [carriageReturn, lineFeed]

/-- `newline_style`. -/
def newlineStyle (text : Text) : NewlineStyle :=
  let crlf := strCount crlfPair text
  let withoutCrlf := strReplace crlfPair [] text
  let lf := withoutCrlf.count lineFeed
  let cr := withoutCrlf.count carriageReturn
  if 1 < (if crlf ≠ 0 then 1 else 0) + (if lf ≠ 0 then 1 else 0) + (if cr ≠ 0 then 1 else 0) then .mixed
  else if crlf ≠ 0 then .crlf
  else if lf ≠ 0 then .lf
  else if cr ≠ 0 then .cr
  else .none

/-- `normalize_newlines`. -/
def normalizeNewlines (text : Text) (style : NewlineStyle) : Text :=
  let normalized := strReplace [carriageReturn] [lineFeed] (strReplace crlfPair [lineFeed] text)
  match style with
  | .crlf => strReplace [lineFeed] crlfPair normalized
  | .cr => strReplace [lineFeed] [carriageReturn] normalized
  | _ => text

/-! ## Codecs -/

inductive DecodeFailure
  | unicodeDecodeError
  | other

structure Codec where
  decode : Bytes → Except DecodeFailure Text
  encode : Text → Option Bytes

def strictCodec (decode : Bytes → Option Text) (encode : Text → Option Bytes) : Codec where
  decode raw := match decode raw with
    | some t => .ok t
    | none => .error .unicodeDecodeError
  encode := encode

def bomUtf8 : Bytes := [0xEF, 0xBB, 0xBF]
def bomUtf16 : ByteOrder → Bytes
  | .little => [0xFF, 0xFE]
  | .big => [0xFE, 0xFF]
def bomUtf32 : ByteOrder → Bytes
  | .little => [0xFF, 0xFE, 0, 0]
  | .big => [0, 0, 0xFE, 0xFF]

def utf8Codec : Codec := strictCodec decodeUtf8 encodeUtf8
def utf16Codec (o : ByteOrder) : Codec := strictCodec (decodeUtf16 o) (encodeUtf16 o)
def utf32Codec (o : ByteOrder) : Codec := strictCodec (decodeUtf32 o) (encodeUtf32 o)

/-- A codec that reads a mark where there is one, and always writes it. -/
def markedCodec (marks : List (Bytes × Codec)) (mark : Bytes) (plain : Codec) : Codec where
  decode raw := match marks.find? fun m => m.1.isPrefixOf raw with
    | some m => m.2.decode (raw.drop m.1.length)
    | none => plain.decode raw
  encode t := (plain.encode t).map fun b => mark ++ b

def utf8SigCodec : Codec := markedCodec [(bomUtf8, utf8Codec)] bomUtf8 utf8Codec

def orderedMarks (bom : ByteOrder → Bytes) (codec : ByteOrder → Codec) : List (Bytes × Codec) :=
  [(bom .little, codec .little), (bom .big, codec .big)]

def utf16NativeCodec (native : ByteOrder) : Codec :=
  markedCodec (orderedMarks bomUtf16 utf16Codec) (bomUtf16 native) (utf16Codec native)

def utf32NativeCodec (native : ByteOrder) : Codec :=
  markedCodec (orderedMarks bomUtf32 utf32Codec) (bomUtf32 native) (utf32Codec native)

/-- The machine's byte order, how `codecs.lookup` resolves names, and the codecs that are
not modelled. -/
structure CodecRegistry where
  native : ByteOrder
  canonical : Text → Option Text
  other : Text → Codec

/-- The modelled codecs, under the names that this program and the registry use. -/
def unicodeCodecs (native : ByteOrder) : List (Text × Codec) :=
  [(txt "utf-8", utf8Codec), (txt "utf-8-sig", utf8SigCodec), (txt "utf-16", utf16NativeCodec native),
    (txt "utf-32", utf32NativeCodec native), (txt "utf-16le", utf16Codec .little), (txt "utf-16-le", utf16Codec .little),
    (txt "utf-16be", utf16Codec .big), (txt "utf-16-be", utf16Codec .big), (txt "utf-32le", utf32Codec .little),
    (txt "utf-32-le", utf32Codec .little), (txt "utf-32be", utf32Codec .big), (txt "utf-32-be", utf32Codec .big)]

def CodecRegistry.codec (reg : CodecRegistry) (name : Text) : Codec :=
  match (unicodeCodecs reg.native).find? fun c => decide (c.1 = name) with
  | some c => c.2
  | none => reg.other name

/-! ## Decoding and encoding files -/

/-- A byte order mark; its encoding goes by the mark's name. -/
structure Bom where
  mark : Bytes
  name : Text
  deriving DecidableEq

/-- `_BOMS`, in the order in which they are tried. -/
def boms : List Bom :=
  [⟨bomUtf32 .little, txt "utf-32le"⟩, ⟨bomUtf32 .big, txt "utf-32be"⟩, ⟨bomUtf8, txt "utf-8"⟩,
    ⟨bomUtf16 .little, txt "utf-16le"⟩, ⟨bomUtf16 .big, txt "utf-16be"⟩]

def detectBom (raw : Bytes) : Option Bom := boms.find? fun b => b.mark.isPrefixOf raw

structure DecodedText where
  text : Text
  encoding : Text
  bom : Option Text
  bomBytes : Bytes
  newline : NewlineStyle

/-- Why a file is not decoded. All but the last are `TextDecodingError`s. -/
inductive DecodingError
  | unknownEncoding (encoding : Text)
  | conflictsWithBom (encoding bomName : Text)
  | undetected
  | invalid (encoding : Text)
  | nulBytes
  | raised

/-- The encodings that go with a mark. -/
def compatibleEncodings (bomEncoding : Text) : List Text :=
  [bomEncoding, if bomEncoding = txt "utf-8" then txt "utf-8-sig" else [],
    if (txt "utf-16").isPrefixOf bomEncoding then txt "utf-16" else [],
    if (txt "utf-32").isPrefixOf bomEncoding then txt "utf-32" else []]

/-- The encoding that a file is decoded with. -/
def effectiveEncoding (reg : CodecRegistry) (bom : Option Bom) (encoding : Option Text) : Except DecodingError Text :=
  match encoding, bom with
  | none, none => .ok (txt "utf-8")
  | none, some b => .ok b.name
  | some e, bom =>
    match reg.canonical e, bom with
    | none, _ => .error (.unknownEncoding e)
    | some name, none => .ok name
    | some name, some b => if name ∈ compatibleEncodings b.name then .ok b.name else .error (.conflictsWithBom e b.name)

def failedDecoding (encoding : Option Text) : DecodeFailure → DecodingError
  | .other => .raised
  | .unicodeDecodeError => match encoding with
    | none => .undetected
    | some e => .invalid e

/-- `decode_text_bytes`. -/
def decodeTextBytes (reg : CodecRegistry) (raw : Bytes) (encoding : Option Text) : Except DecodingError DecodedText := do
  let bom := detectBom raw
  let bomBytes := (bom.map Bom.mark).getD []
  let effective ← effectiveEncoding reg bom encoding
  let text ← ((reg.codec effective).decode (raw.drop bomBytes.length)).mapError (failedDecoding encoding)
  if (text.take 1024).contains 0 ∧ bom = none ∧ encoding = none then .error .nulBytes
  else pure {
    text := text
    encoding := effective
    bom := bom.map Bom.name
    bomBytes := bomBytes
    newline := newlineStyle text }

/-- `encode_text_bytes`; `none` is an exception of the codec. -/
def encodeTextBytes (reg : CodecRegistry) (decoded : DecodedText) (text : Text) : Option Bytes :=
  ((reg.codec decoded.encoding).encode text).map fun b => decoded.bomBytes ++ b

/-! ## When encoding restores the file -/

/-- The codec encodes what it decoded back to the same octets. -/
def Codec.Restores (c : Codec) (raw : Bytes) : Prop := ∀ t, c.decode raw = .ok t → c.encode t = some raw

/-- The codecs that always write a mark. -/
def markWriting : List Text := [txt "utf-8-sig", txt "utf-16", txt "utf-32"]

theorem strictCodec_restores {decode : Bytes → Option Text} {encode : Text → Option Bytes}
    (h : ∀ {raw t}, decode raw = some t → encode t = some raw) (raw : Bytes) : (strictCodec decode encode).Restores raw := by
  intro t ht
  simp only [strictCodec] at ht
  cases hd : decode raw with
  | none =>
    rw [hd] at ht
    exact nomatch ht
  | some u =>
    rw [hd] at ht
    obtain rfl := Except.ok.inj ht
    exact h hd

theorem encodeUtf8_decodeUtf8 {raw : Bytes} {t : Text} (h : decodeUtf8 raw = some t) : encodeUtf8 t = some raw := by
  have hspells := decodeUtf8_spells h
  exact (encodeUtf8_eq_some_iff t raw).mpr ⟨hspells.1, hspells.2.symm⟩

theorem utf8Codec_restores (raw : Bytes) : utf8Codec.Restores raw := strictCodec_restores encodeUtf8_decodeUtf8 raw

theorem utf16Codec_restores (o : ByteOrder) (raw : Bytes) : (utf16Codec o).Restores raw :=
  strictCodec_restores encodeUtf16_decodeUtf16 raw

theorem utf32Codec_restores (o : ByteOrder) (raw : Bytes) : (utf32Codec o).Restores raw :=
  strictCodec_restores encodeUtf32_decodeUtf32 raw

/-- A codec that writes a mark does not restore a file without one. -/
theorem markedCodec_not_restored {marks : List (Bytes × Codec)} {mark : Bytes} {plain : Codec} {raw : Bytes} {t : Text}
    (hmarks : ∀ m ∈ marks, m.1.isPrefixOf raw = false) (hmark : mark ≠ []) (hplain : plain.Restores raw)
    (h : (markedCodec marks mark plain).decode raw = .ok t) : (markedCodec marks mark plain).encode t ≠ some raw := by
  have hnone : marks.find? (fun m => m.1.isPrefixOf raw) = none := by
    rw [List.find?_eq_none]
    intro m hm
    simp [hmarks m hm]
  simp only [markedCodec, hnone] at h
  simp only [markedCodec, hplain t h, Option.map_some, ne_eq, Option.some.injEq]
  intro heq
  exact hmark (List.append_left_eq_self.mp heq)

section
variable {reg : CodecRegistry} {raw : Bytes}

theorem marks_absent (h : detectBom raw = none) {b : Bom} (hb : b ∈ boms) : b.mark.isPrefixOf raw = false := by
  exact Bool.eq_false_iff.mpr (List.find?_eq_none.mp h b hb)

/-- Without a mark, a named encoding restores the file unless its codec writes a mark or is
not faithful itself. -/
def NameRestores (reg : CodecRegistry) (raw : Bytes) (name : Text) : Prop :=
  name ∉ markWriting ∧ ((unicodeCodecs reg.native).any (fun c => decide (c.1 = name)) = true ∨
    (reg.other name).Restores raw)

/-- The codec of a name is a modelled one under that name, or it is not modelled. -/
theorem codec_cases (reg : CodecRegistry) (name : Text) :
    (∃ c ∈ unicodeCodecs reg.native, c.1 = name ∧ reg.codec name = c.2) ∨
      ((unicodeCodecs reg.native).any (fun c => decide (c.1 = name)) = false ∧ reg.codec name = reg.other name) := by
  rw [CodecRegistry.codec]
  cases hfind : (unicodeCodecs reg.native).find? fun c => decide (c.1 = name) with
  | none =>
    refine Or.inr ⟨?_, rfl⟩
    rw [List.any_eq_false]
    exact List.find?_eq_none.mp hfind
  | some c => exact Or.inl ⟨c, List.mem_of_find?_eq_some hfind, by simpa using List.find?_some hfind, rfl⟩

/-- The modelled codecs that write no mark are faithful. -/
theorem unicodeCodecs_restore (native : ByteOrder) :
    ∀ c ∈ unicodeCodecs native, c.1 ∉ markWriting → c.2.Restores raw := by
  have hmarked : ∀ name : Text, name ∈ markWriting → ∀ c : Codec, name ∉ markWriting → c.Restores raw :=
    fun name hin c hout => absurd hin hout
  simp only [unicodeCodecs, List.forall_mem_cons, List.not_mem_nil, false_implies, implies_true, and_true]
  exact ⟨fun _ => utf8Codec_restores raw, hmarked _ (by decide) _, hmarked _ (by decide) _, hmarked _ (by decide) _,
    fun _ => utf16Codec_restores _ raw, fun _ => utf16Codec_restores _ raw, fun _ => utf16Codec_restores _ raw,
    fun _ => utf16Codec_restores _ raw, fun _ => utf32Codec_restores _ raw, fun _ => utf32Codec_restores _ raw,
    fun _ => utf32Codec_restores _ raw, fun _ => utf32Codec_restores _ raw⟩

theorem codec_restores {name : Text} (h : NameRestores reg raw name) : (reg.codec name).Restores raw := by
  cases codec_cases reg name with
  | inl hknown =>
    obtain ⟨c, hc, hname, hcodec⟩ := hknown
    rw [hcodec]
    exact unicodeCodecs_restore reg.native c hc (hname ▸ h.1)
  | inr hother =>
    rw [hother.2]
    cases h.2 with
    | inl hany => exact absurd hany (by simp [hother.1])
    | inr hrestores => exact hrestores

/-- Without a mark in the file, the codecs that write one add it. -/
theorem markWriting_not_restored (hbom : detectBom raw = none) (native : ByteOrder) {t : Text} :
    ∀ c ∈ unicodeCodecs native, c.1 ∈ markWriting → c.2.decode raw = .ok t → c.2.encode t ≠ some raw := by
  have hfree : ∀ name : Text, name ∉ markWriting → ∀ c : Codec, name ∈ markWriting → c.decode raw = .ok t →
      c.encode t ≠ some raw := fun name hout c hin => absurd hin hout
  have h8 : ∀ m ∈ [(bomUtf8, utf8Codec)], m.1.isPrefixOf raw = false := by
    simp only [List.forall_mem_singleton]
    exact marks_absent hbom (b := ⟨bomUtf8, txt "utf-8"⟩) (by decide)
  have h16 : ∀ m ∈ orderedMarks bomUtf16 utf16Codec, m.1.isPrefixOf raw = false := by
    simp only [orderedMarks, List.forall_mem_cons, List.not_mem_nil, false_implies, implies_true, and_true]
    exact ⟨marks_absent hbom (b := ⟨bomUtf16 .little, txt "utf-16le"⟩) (by decide),
      marks_absent hbom (b := ⟨bomUtf16 .big, txt "utf-16be"⟩) (by decide)⟩
  have h32 : ∀ m ∈ orderedMarks bomUtf32 utf32Codec, m.1.isPrefixOf raw = false := by
    simp only [orderedMarks, List.forall_mem_cons, List.not_mem_nil, false_implies, implies_true, and_true]
    exact ⟨marks_absent hbom (b := ⟨bomUtf32 .little, txt "utf-32le"⟩) (by decide),
      marks_absent hbom (b := ⟨bomUtf32 .big, txt "utf-32be"⟩) (by decide)⟩
  have hmark16 : bomUtf16 native ≠ [] := by cases native <;> decide
  have hmark32 : bomUtf32 native ≠ [] := by cases native <;> decide
  simp only [unicodeCodecs, List.forall_mem_cons, List.not_mem_nil, false_implies, implies_true, and_true]
  exact ⟨hfree _ (by decide) _, fun _ => markedCodec_not_restored h8 (by decide) (utf8Codec_restores raw),
    fun _ => markedCodec_not_restored h16 hmark16 (utf16Codec_restores native raw),
    fun _ => markedCodec_not_restored h32 hmark32 (utf32Codec_restores native raw),
    hfree _ (by decide) _, hfree _ (by decide) _, hfree _ (by decide) _, hfree _ (by decide) _,
    hfree _ (by decide) _, hfree _ (by decide) _, hfree _ (by decide) _, hfree _ (by decide) _⟩

theorem codec_not_restored (hbom : detectBom raw = none) {name : Text} (hname : ¬NameRestores reg raw name) {t : Text}
    (h : (reg.codec name).decode raw = .ok t) : (reg.codec name).encode t ≠ some raw := by
  cases codec_cases reg name with
  | inl hknown =>
    obtain ⟨c, hc, rfl, hcodec⟩ := hknown
    rw [hcodec] at h ⊢
    have hany : (unicodeCodecs reg.native).any (fun d => decide (d.1 = c.1)) = true :=
      List.any_eq_true.mpr ⟨c, hc, by simp⟩
    have hmarked : c.1 ∈ markWriting := by
      by_contra hout
      exact hname ⟨hout, Or.inl hany⟩
    exact markWriting_not_restored hbom reg.native c hc hmarked h
  | inr hother =>
    rw [hother.2] at h ⊢
    intro hencode
    have hfree : name ∉ markWriting := by
      intro hin
      have hall : ∀ native, (markWriting.all fun w => (unicodeCodecs native).any fun c => decide (c.1 = w)) = true := by
        intro native
        cases native with
        | little => decide
        | big => decide
      have hknown := List.all_eq_true.mp (hall reg.native) name hin
      rw [hother.1] at hknown
      exact nomatch hknown
    refine hname ⟨hfree, Or.inr fun u hu => ?_⟩
    obtain rfl := Except.ok.inj (h.symm.trans hu)
    exact hencode

end

/-- The inputs on which the codec layer is lossless. -/
def RoundTrips (reg : CodecRegistry) (raw : Bytes) (encoding : Option Text) : Prop :=
  (detectBom raw).isSome = true ∨ encoding = none ∨
    ∃ e name, encoding = some e ∧ reg.canonical e = some name ∧ NameRestores reg raw name

/-- What a successful decoding consists of. -/
structure Decoding (reg : CodecRegistry) (raw : Bytes) (encoding : Option Text) (d : DecodedText) : Prop where
  effective : effectiveEncoding reg (detectBom raw) encoding = .ok d.encoding
  bomBytes : d.bomBytes = ((detectBom raw).map Bom.mark).getD []
  decoded : (reg.codec d.encoding).decode (raw.drop d.bomBytes.length) = .ok d.text
  newline : d.newline = newlineStyle d.text

theorem decodeTextBytes_ok {reg : CodecRegistry} {raw : Bytes} {encoding : Option Text} {d : DecodedText}
    (h : decodeTextBytes reg raw encoding = .ok d) : Decoding reg raw encoding d := by
  obtain ⟨effective, heffective, h⟩ := bind_eq_ok.mp h
  obtain ⟨text, htext, h⟩ := bind_eq_ok.mp h
  split_ifs at h
  obtain rfl := Except.ok.inj h
  exact ⟨heffective, rfl, (mapError_ok_iff _).mp htext, rfl⟩

theorem bomBytes_append {raw : Bytes} : ((detectBom raw).map Bom.mark).getD [] ++
    raw.drop (((detectBom raw).map Bom.mark).getD []).length = raw := by
  cases h : detectBom raw with
  | none => rfl
  | some b =>
    have hpre : b.mark <+: raw := by simpa using List.find?_some h
    obtain ⟨rest, rfl⟩ := hpre
    simp

/-- Encoding what was decoded restores the file if and only if its codec restores the part
after the mark. -/
theorem encode_decoded_iff_codec {reg : CodecRegistry} {raw : Bytes} {encoding : Option Text} {d : DecodedText}
    (h : Decoding reg raw encoding d) : encodeTextBytes reg d d.text = some raw ↔
      (reg.codec d.encoding).encode d.text = some (raw.drop d.bomBytes.length) := by
  have hraw : d.bomBytes ++ raw.drop d.bomBytes.length = raw := by
    rw [h.bomBytes]
    exact bomBytes_append
  rw [encodeTextBytes, Option.map_eq_some_iff]
  constructor
  · intro he
    obtain ⟨b, hb, hb'⟩ := he
    rw [← hraw] at hb'
    rw [hb, List.append_cancel_left hb']
  · intro he
    exact ⟨_, he, hraw⟩

/-- The encodings that are chosen without a name write no mark. -/
theorem detected_restores (reg : CodecRegistry) (raw : Bytes) {name : Text}
    (h : name ∈ txt "utf-8" :: boms.map Bom.name) : NameRestores reg raw name := by
  have hall : ((txt "utf-8" :: boms.map Bom.name).all fun w => !markWriting.contains w) = true := by decide
  have hknown : ∀ native, ((txt "utf-8" :: boms.map Bom.name).all fun w =>
      (unicodeCodecs native).any fun c => decide (c.1 = w)) = true := by
    intro native
    cases native with
    | little => decide
    | big => decide
  refine ⟨?_, Or.inl (List.all_eq_true.mp (hknown reg.native) name h)⟩
  simpa using List.all_eq_true.mp hall name h

theorem effectiveEncoding_detected {reg : CodecRegistry} {raw : Bytes} {encoding : Option Text} {name : Text}
    (h : effectiveEncoding reg (detectBom raw) encoding = .ok name)
    (hdetected : (detectBom raw).isSome = true ∨ encoding = none) : name ∈ txt "utf-8" :: boms.map Bom.name := by
  cases hbom : detectBom raw with
  | none =>
    obtain rfl := hdetected.resolve_left (by simp [hbom])
    rw [hbom] at h
    obtain rfl := Except.ok.inj h
    exact List.mem_cons_self
  | some b =>
    have hb : b.name ∈ boms.map Bom.name := List.mem_map_of_mem (List.mem_of_find?_eq_some hbom)
    suffices hname : name = b.name by
      rw [hname]
      exact List.mem_cons_of_mem _ hb
    rw [hbom] at h
    cases encoding with
    | none => exact (Except.ok.inj h).symm
    | some e =>
      simp only [effectiveEncoding] at h
      cases hcanonical : reg.canonical e with
      | none =>
        rw [hcanonical] at h
        exact nomatch h
      | some c =>
        rw [hcanonical] at h
        simp only at h
        split_ifs at h
        exact (Except.ok.inj h).symm

theorem effectiveEncoding_named {reg : CodecRegistry} {raw : Bytes} {e : Text} {name : Text}
    (h : effectiveEncoding reg (detectBom raw) (some e) = .ok name) (hbom : detectBom raw = none) :
    reg.canonical e = some name := by
  rw [hbom] at h
  simp only [effectiveEncoding] at h
  cases hcanonical : reg.canonical e with
  | none =>
    rw [hcanonical] at h
    exact nomatch h
  | some c =>
    rw [hcanonical] at h
    rw [Except.ok.inj h]

/-- Encoding a decoded file restores it exactly on the inputs that round-trip. -/
theorem encode_decoded_iff {reg : CodecRegistry} {raw : Bytes} {encoding : Option Text} {d : DecodedText}
    (h : decodeTextBytes reg raw encoding = .ok d) :
    encodeTextBytes reg d d.text = some raw ↔ RoundTrips reg raw encoding := by
  have hd := decodeTextBytes_ok h
  rw [encode_decoded_iff_codec hd]
  by_cases hdetected : (detectBom raw).isSome = true ∨ encoding = none
  · have hrestores := codec_restores (detected_restores reg (raw.drop d.bomBytes.length)
      (effectiveEncoding_detected hd.effective hdetected))
    refine iff_of_true (hrestores _ hd.decoded) ?_
    cases hdetected with
    | inl hbom => exact Or.inl hbom
    | inr hnone => exact Or.inr (Or.inl hnone)
  · rw [not_or, Bool.not_eq_true, Option.isSome_eq_false_iff, Option.isNone_iff_eq_none] at hdetected
    obtain ⟨e, rfl⟩ := Option.ne_none_iff_exists'.mp hdetected.2
    have hname := effectiveEncoding_named hd.effective hdetected.1
    have hempty : d.bomBytes = [] := by
      rw [hd.bomBytes, hdetected.1]
      rfl
    have hdecoded := hd.decoded
    rw [hempty, List.length_nil, List.drop_zero] at hdecoded ⊢
    constructor
    · intro hencode
      refine Or.inr (Or.inr ⟨e, d.encoding, rfl, hname, ?_⟩)
      by_contra hno
      exact codec_not_restored hdetected.1 hno hdecoded hencode
    · intro hround
      have hnamed : NameRestores reg raw d.encoding := by
        rcases hround with hbom | hnone | ⟨e', name, he, hcanonical, hname'⟩
        · simp [hdetected.1] at hbom
        · exact nomatch hnone
        · obtain rfl := Option.some.inj he
          obtain rfl := Option.some.inj (hname.symm.trans hcanonical)
          exact hname'
      exact codec_restores hnamed _ hdecoded

end WebOauthMcp.ContentIo
