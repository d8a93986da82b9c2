import WebOauthMcp.SearchPages
import WebOauthMcp.ReplyFields

/-!
# Following the offsets of a code map

Every page scans the files from the first one, skips what earlier pages have shown, and repeats
the errors of all files on its way. Errors and items share the budget.
-/

namespace WebOauthMcp.CodeMapPaging
open CodePoints JsonText ExceptSteps ResponseBudget BudgetMetadata FileReplies OffsetPaging ReplyOffsets ReplyFields

/-! ## The model -/

/-- What a source file gives: nothing, its items, or a parse error. -/
inductive Scan
  | unreadable
  | parsed (items : List Json)
  | failed (error : Json)

def supportedLanguages : List Text := [txt "python", txt "typescript", txt "javascript"]
def mapKeys : List Text := [txt "symbols", txt "imports"]

/-- A map of the files below a path. -/
structure CodeMap where
  key : Text
  path : Text
  language : Text
  files : List Scan
  maxTokens : ℕ+
  known : key ∈ mapKeys
  supported : language ∈ supportedLanguages

structure MapState where
  items : List Json := []
  errors : List Json := []
  seen : ℕ := 0
  scanned : ℕ := 0
  truncated : Bool := false

variable (enc : TokenEncoding) (x : CodeMap)

def CodeMap.budget : Budget := { maxTokens := x.maxTokens }

def CodeMap.fields (items errors : List Json) (scanned : ℕ) (next : Option ℕ) : Dict :=
  [(txt "success", .bool true), (txt "path", .str x.path), (txt "language", .str x.language), (x.key, .arr items),
    (txt "scanned_files", natJson scanned), (txt "errors", .arr errors), (txt "next_offset", optionalCount next)]

/-- The page with these items and errors, measured as one that stops behind them. -/
def candidate (start : ℕ) (items errors : List Json) (scanned : ℕ) : Except Raised (Dict × BudgetMeasurement) :=
  withBudgetMetadata enc (x.fields items errors scanned (some (start + items.length))) x.budget true (txt "token_budget")

/-- The loop over the items of a file. -/
def takeItems (start limit : ℕ) : MapState → List Json → Except Raised MapState
  | s, [] => pure s
  | s, item :: items =>
    if s.seen < start then takeItems start limit { s with seen := s.seen + 1 } items
    else if limit ≤ s.items.length then pure { s with truncated := true }
    else do
      let r ← candidate enc x start (s.items ++ [item]) s.errors s.scanned
      if r.2.fits then takeItems start limit { s with items := s.items ++ [item], seen := s.seen + 1 } items
      else pure { s with truncated := true }

def errorsFit (start : ℕ) (s : MapState) : Except Raised Bool :=
  if s.errors = [] then pure true
  else do
    let r ← candidate enc x start s.items s.errors s.scanned
    pure r.2.fits

/-- The loop over the files. An error that does not fit is left out again. -/
def scanFiles (start limit : ℕ) : MapState → List Scan → Except Raised MapState
  | s, [] => pure s
  | s, .unreadable :: files => scanFiles start limit { s with scanned := s.scanned + 1 } files
  | s, .parsed items :: files => do
    let fits ← errorsFit enc x start { s with scanned := s.scanned + 1 }
    if fits then do
      let s ← takeItems enc x start limit { s with scanned := s.scanned + 1 } items
      if s.truncated then pure s else scanFiles start limit s files
    else pure { s with scanned := s.scanned + 1, truncated := true }
  | s, .failed error :: files => do
    let fits ← errorsFit enc x start { s with scanned := s.scanned + 1, errors := s.errors ++ [error] }
    if fits then scanFiles start limit { s with scanned := s.scanned + 1, errors := s.errors ++ [error] } files
    else pure { s with scanned := s.scanned + 1, truncated := true }

def refusedLimit (limit : ℤ) : Dict :=
  [(txt "success", .bool false), (txt "error", .obj [(txt "code", .str (txt "invalid_arguments")),
    (txt "message", .str (txt "limit must be greater than or equal to 1."))]), (txt "limit", .int limit)]

/-- A page of the map, of a path that exists. -/
def mapPage (limit offset : ℤ) : Except Raised Dict :=
  if limit < 1 then pure (refusedLimit limit)
  else do
    let s ← scanFiles enc x offset.toNat limit.toNat {} x.files
    let reason := if s.truncated && decide ((s.items.length : ℤ) < limit) then txt "token_budget"
      else if s.truncated then txt "limit" else txt "end_of_results"
    let r ← withBudgetMetadata enc
      (x.fields s.items s.errors s.scanned (if s.truncated then some (offset.toNat + s.items.length) else none) ++
        [(txt "truncated", .bool s.truncated)]) x.budget s.truncated reason
    pure r.1

/-- A source file, as it is parsed. -/
structure Source where
  path : Text
  readable : Bool
  parseError : Option Json
  symbols : List Json
  imports : List Json

def Source.scan (f : Source) (items : List Json) : Scan :=
  if f.readable then
    match f.parseError with
    | some error => .failed error
    | none => .parsed items
  else .unreadable

/-- The imports of a file are one item. -/
def Source.importItems (f : Source) : List Json :=
  if f.imports = [] then [] else [.obj [(txt "file", .str f.path), (txt "imports", .arr f.imports)]]

structure SourceTree where
  path : Text
  language : Text
  files : List Source
  maxTokens : ℕ+
  supported : language ∈ supportedLanguages

def SourceTree.symbolMap (t : SourceTree) : CodeMap :=
  ⟨txt "symbols", t.path, t.language, t.files.map fun f => f.scan f.symbols, t.maxTokens, by decide, t.supported⟩

def SourceTree.importMap (t : SourceTree) : CodeMap :=
  ⟨txt "imports", t.path, t.language, t.files.map fun f => f.scan f.importItems, t.maxTokens, by decide, t.supported⟩

def codeMapSymbols (t : SourceTree) (limit offset : ℤ) : Except Raised Dict := mapPage enc t.symbolMap limit offset
def codeMapImports (t : SourceTree) (limit offset : ℤ) : Except Raised Dict := mapPage enc t.importMap limit offset

/-! ## Checks in order -/

/-- A check of the scan: of the errors so far, or of one more item. -/
structure Step where
  errors : List Json
  scanned : ℕ
  item : Option Json

def stepsFrom (errors : List Json) (scanned : ℕ) : List Scan → List Step
  | [] => []
  | .unreadable :: files => stepsFrom errors (scanned + 1) files
  | .parsed items :: files =>
    ⟨errors, scanned + 1, none⟩ :: (items.map fun item => ⟨errors, scanned + 1, some item⟩) ++ stepsFrom errors (scanned + 1) files
  | .failed error :: files => ⟨errors ++ [error], scanned + 1, none⟩ :: stepsFrom (errors ++ [error]) (scanned + 1) files

def CodeMap.steps : List Step := stepsFrom [] 0 x.files

def itemsIn (steps : List Step) : List Json := steps.filterMap Step.item

def Scan.items : Scan → List Json
  | .parsed items => items
  | _ => []

/-- All items, in scan order. -/
def CodeMap.items : List Json := x.files.flatMap Scan.items

/-- The page with these items and errors fits. -/
def Fits (start : ℕ) (items errors : List Json) (scanned : ℕ) : Prop :=
  fitsReply enc x.budget (x.fields items errors scanned (some (start + items.length))) true (txt "token_budget") = true

/-- The check succeeds on a page from an offset on, after the checks before. -/
def Passes (start : ℕ) (before : List Step) (c : Step) : Prop :=
  match c.item with
  | none => c.errors = [] ∨ Fits enc x start ((itemsIn before).drop start) c.errors c.scanned
  | some item => (itemsIn before).length < start ∨ Fits enc x start ((itemsIn before).drop start ++ [item]) c.errors c.scanned

/-- All these checks succeed. -/
def Clear (start : ℕ) (before steps : List Step) : Prop :=
  ∀ front c rest, steps = front ++ c :: rest → Passes enc x start (before ++ front) c

/-- The checks are gone through up to one that stops the page, if any does. -/
def Went (start limit : ℕ) (before steps : List Step) (s : MapState) : Prop := ∃ front rest, steps = front ++ rest ∧
  Clear enc x start before front ∧ s.items = (itemsIn (before ++ front)).drop start ∧ s.items.length ≤ limit ∧
    ((rest = [] ∧ s.truncated = false ∧ s.seen = (itemsIn (before ++ front)).length) ∨
      ∃ c more, rest = c :: more ∧ s.truncated = true ∧ (¬Passes enc x start (before ++ front) c ∨
        c.item ≠ none ∧ start ≤ (itemsIn (before ++ front)).length ∧ limit ≤ s.items.length))

variable {enc x} {start limit : ℕ} {before steps more : List Step} {s s' : MapState}

theorem clear_nil : Clear enc x start before [] := fun front c rest h => absurd h (by simp)

theorem clear_singleton {c : Step} (h : Passes enc x start before c) : Clear enc x start before [c] := by
  intro front d rest hsplit
  obtain ⟨rfl, heq⟩ : front = [] ∧ [c] = d :: rest := by
    cases front with
    | nil => exact ⟨rfl, hsplit⟩
    | cons e front => exact absurd (List.cons.inj hsplit).2 (by simp)
  obtain ⟨rfl, -⟩ := List.cons.inj heq
  rw [List.append_nil]
  exact h

theorem Clear.append (h : Clear enc x start before steps) (h' : Clear enc x start (before ++ steps) more) :
    Clear enc x start before (steps ++ more) := by
  intro front c rest hsplit
  cases List.append_eq_append_iff.mp hsplit with
  | inl hlater =>
    obtain ⟨middle, rfl, hmore⟩ := hlater
    rw [← List.append_assoc]
    exact h' middle c rest hmore
  | inr hearlier =>
    obtain ⟨middle, rfl, hrest⟩ := hearlier
    cases middle with
    | nil =>
      rw [List.append_nil] at h'
      exact List.append_nil (before ++ front) ▸ h' [] c rest hrest.symm
    | cons d middle =>
      obtain ⟨rfl, -⟩ := List.cons.inj hrest
      exact h front c middle rfl

theorem Clear.front (h : Clear enc x start before (steps ++ more)) : Clear enc x start before steps := by
  intro front c rest hsplit
  refine h front c (rest ++ more) ?_
  rw [hsplit, List.append_assoc, List.cons_append]

theorem itemsIn_append (a b : List Step) : itemsIn (a ++ b) = itemsIn a ++ itemsIn b := List.filterMap_append

theorem itemsIn_item {c : Step} {item : Json} (hc : c.item = some item) (before : List Step) :
    itemsIn (before ++ [c]) = itemsIn before ++ [item] := by
  rw [itemsIn_append]
  simp [itemsIn, hc]

theorem Went.append (h : Went enc x start limit before steps s) (hgoes : s.truncated = false)
    (h' : Went enc x start limit (before ++ steps) more s') : Went enc x start limit before (steps ++ more) s' := by
  obtain ⟨front, rest, hsplit, hclear, -, -, hend⟩ := h
  have hall : rest = [] := by
    cases hend with
    | inl hdone => exact hdone.1
    | inr hstopped =>
      obtain ⟨c, after, -, hstop, -⟩ := hstopped
      exact absurd (hgoes.symm.trans hstop) Bool.false_ne_true
  rw [hall, List.append_nil] at hsplit
  subst hsplit
  obtain ⟨front', rest', rfl, hclear', hitems, hwithin, hend'⟩ := h'
  rw [List.append_assoc] at hitems hend'
  exact ⟨steps ++ front', rest', (List.append_assoc _ _ _).symm, hclear.append hclear', hitems, hwithin, hend'⟩

theorem Went.stop (h : Went enc x start limit before steps s) (hstop : s.truncated = true) : Went enc x start limit before (steps ++ more) s := by
  obtain ⟨front, rest, rfl, hclear, hitems, hwithin, hend⟩ := h
  refine ⟨front, rest ++ more, List.append_assoc _ _ _, hclear, hitems, hwithin, ?_⟩
  cases hend with
  | inl hdone => exact absurd (hdone.2.1.symm.trans hstop) Bool.false_ne_true
  | inr hstopped =>
    obtain ⟨c, after, rfl, hflag, hwhy⟩ := hstopped
    exact .inr ⟨c, after ++ more, rfl, hflag, hwhy⟩

/-- The page after the checks before. -/
structure Stands (start limit : ℕ) (before : List Step) (s : MapState) : Prop where
  items : s.items = (itemsIn before).drop start
  seen : s.seen = (itemsIn before).length
  within : s.items.length ≤ limit
  goes : s.truncated = false

theorem Stands.went (h : Stands start limit before s) : Went enc x start limit before [] s := by
  refine ⟨[], [], rfl, clear_nil, ?_, h.within, .inl ⟨rfl, h.goes, ?_⟩⟩
  · rw [List.append_nil]
    exact h.items
  · rw [List.append_nil]
    exact h.seen

/-- One check that succeeds. -/
theorem went_one {c : Step} (hpasses : Passes enc x start before c) (h : Stands start limit (before ++ [c]) s) :
    Went enc x start limit before [c] s :=
  ⟨[c], [], (List.append_nil _).symm, clear_singleton hpasses, h.items, h.within, .inl ⟨rfl, h.goes, h.seen⟩⟩

/-- One check that stops the page. -/
theorem went_none {c : Step} (hitems : s.items = (itemsIn before).drop start) (hwithin : s.items.length ≤ limit) (hstop : s.truncated = true)
    (hwhy : ¬Passes enc x start before c ∨ c.item ≠ none ∧ start ≤ (itemsIn before).length ∧ limit ≤ s.items.length) :
    Went enc x start limit before (c :: steps) s := by
  refine ⟨[], c :: steps, rfl, clear_nil, ?_, hwithin, .inr ⟨c, steps, rfl, hstop, ?_⟩⟩
  · rw [List.append_nil]
    exact hitems
  · rw [List.append_nil]
    exact hwhy

theorem fits_candidate {items errors : List Json} {scanned : ℕ} {r : Dict × BudgetMeasurement}
    (h : candidate enc x start items errors scanned = .ok r) : Fits enc x start items errors scanned ↔ r.2.fits = true := by
  rw [Fits, fitsReply_of_ok h]

theorem takeItems_went {items : List Json} (hs : Stands start limit before s) (h : takeItems enc x start limit s items = .ok s') :
    Went enc x start limit before (items.map fun item => ⟨s.errors, s.scanned, some item⟩) s' ∧ s'.errors = s.errors ∧
      s'.scanned = s.scanned := by
  induction items generalizing before s with
  | nil =>
    cases Except.ok.inj h
    exact ⟨hs.went, rfl, rfl⟩
  | cons item items ih =>
    rw [takeItems] at h
    split at h
    · next hskip =>
      rw [hs.seen] at hskip
      have hstep : Stands start limit (before ++ [⟨s.errors, s.scanned, some item⟩]) { s with seen := s.seen + 1 } := by
        refine ⟨?_, ?_, hs.within, hs.goes⟩
        · rw [itemsIn_item rfl, hs.items, List.drop_of_length_le (Nat.le_of_lt hskip), List.drop_of_length_le]
          rw [List.length_append, List.length_singleton]
          exact hskip
        · rw [itemsIn_item rfl, List.length_append, List.length_singleton, ← hs.seen]
      obtain ⟨hwent, herrors, hscanned⟩ := ih hstep h
      have hpasses : Passes enc x start before ⟨s.errors, s.scanned, some item⟩ := Or.inl hskip
      exact ⟨(went_one hpasses hstep).append hstep.goes hwent, herrors, hscanned⟩
    · next hskip =>
      rw [hs.seen] at hskip
      split at h
      · next hfull =>
        cases Except.ok.inj h
        exact ⟨went_none hs.items hs.within rfl (.inr ⟨by simp, Nat.not_lt.mp hskip, hfull⟩), rfl, rfl⟩
      · next hfull =>
        obtain ⟨r, hr, h⟩ := bind_eq_ok.mp h
        rw [hs.items] at hr
        split at h
        · next hfits =>
          have hpasses : Passes enc x start before ⟨s.errors, s.scanned, some item⟩ := Or.inr ((fits_candidate hr).mpr hfits)
          have hstep : Stands start limit (before ++ [⟨s.errors, s.scanned, some item⟩])
              { s with items := s.items ++ [item], seen := s.seen + 1 } := by
            refine ⟨?_, ?_, ?_, hs.goes⟩
            · rw [itemsIn_item rfl, List.drop_append_of_le_length (Nat.not_lt.mp hskip), hs.items]
            · rw [itemsIn_item rfl, List.length_append, List.length_singleton, ← hs.seen]
            · rw [List.length_append, List.length_singleton]
              exact Nat.lt_of_not_le hfull
          obtain ⟨hwent, herrors, hscanned⟩ := ih hstep h
          exact ⟨(went_one hpasses hstep).append hstep.goes hwent, herrors, hscanned⟩
        · next hfits =>
          cases Except.ok.inj h
          have hfails : ¬Passes enc x start before ⟨s.errors, s.scanned, some item⟩ := fun hpasses =>
            Or.elim hpasses hskip fun hfit => hfits ((fits_candidate hr).mp hfit)
          exact ⟨went_none hs.items hs.within rfl (.inl hfails), rfl, rfl⟩

/-- Where the checks go on, the page stands behind them. -/
theorem Went.stands (h : Went enc x start limit before steps s) (hgoes : s.truncated = false) : Stands start limit (before ++ steps) s := by
  obtain ⟨front, rest, rfl, -, hitems, hwithin, hend⟩ := h
  cases hend with
  | inl hdone =>
    obtain ⟨rfl, -, hseen⟩ := hdone
    rw [List.append_nil]
    exact ⟨hitems, hseen, hwithin, hgoes⟩
  | inr hstopped =>
    obtain ⟨c, after, -, hstop, -⟩ := hstopped
    exact absurd (hgoes.symm.trans hstop) Bool.false_ne_true

theorem errorsFit_iff {b : Bool} (hs : s.items = (itemsIn before).drop start) (h : errorsFit enc x start s = .ok b) :
    Passes enc x start before ⟨s.errors, s.scanned, none⟩ ↔ b = true := by
  rw [errorsFit] at h
  split at h
  · next hnone =>
    cases Except.ok.inj h
    exact iff_of_true (Or.inl hnone) rfl
  · next hsome =>
    obtain ⟨r, hr, h⟩ := bind_eq_ok.mp h
    rw [hs] at hr
    cases Except.ok.inj h
    exact (or_iff_right hsome).trans (fits_candidate hr)

theorem itemsIn_check {c : Step} (hc : c.item = none) (before : List Step) : itemsIn (before ++ [c]) = itemsIn before := by
  rw [itemsIn_append]
  simp [itemsIn, hc]

/-- A check of the errors leaves the page as it is. -/
theorem Stands.check {c : Step} (hs : Stands start limit before s) (hc : c.item = none) {errors : List Json} {scanned : ℕ} :
    Stands start limit (before ++ [c]) { s with errors, scanned } := by
  have hsame := itemsIn_check hc before
  exact ⟨hsame ▸ hs.items, hsame ▸ hs.seen, hs.within, hs.goes⟩

theorem scanFiles_went {files : List Scan} (hs : Stands start limit before s) (h : scanFiles enc x start limit s files = .ok s') :
    Went enc x start limit before (stepsFrom s.errors s.scanned files) s' := by
  induction files generalizing before s with
  | nil =>
    cases Except.ok.inj h
    exact hs.went
  | cons f files ih =>
    cases f with
    | unreadable =>
      have hone : Stands start limit before { s with scanned := s.scanned + 1 } := ⟨hs.items, hs.seen, hs.within, hs.goes⟩
      exact ih hone h
    | parsed items =>
      rw [scanFiles] at h
      obtain ⟨b, hb, h⟩ := bind_eq_ok.mp h
      have hcheck : Passes enc x start before ⟨s.errors, s.scanned + 1, none⟩ ↔ b = true :=
        errorsFit_iff (s := { s with scanned := s.scanned + 1 }) hs.items hb
      split at h
      · next hfits =>
        obtain ⟨s₁, hs₁, h⟩ := bind_eq_ok.mp h
        have hone : Stands start limit (before ++ [⟨s.errors, s.scanned + 1, none⟩]) { s with scanned := s.scanned + 1 } := hs.check rfl
        obtain ⟨hwent, herrors, hscanned⟩ := takeItems_went hone hs₁
        have hfront := (went_one (hcheck.mpr hfits) hone).append hone.goes hwent
        split at h
        · next hstop =>
          cases Except.ok.inj h
          exact hfront.stop hstop
        · next hgoes =>
          have hgoes : s₁.truncated = false := Bool.eq_false_iff.mpr hgoes
          have hrest := ih (hfront.stands hgoes) h
          rw [herrors, hscanned] at hrest
          exact hfront.append hgoes hrest
      · next hfits =>
        cases Except.ok.inj h
        exact went_none hs.items hs.within rfl (.inl fun hpasses => hfits (hcheck.mp hpasses))
    | failed error =>
      rw [scanFiles] at h
      obtain ⟨b, hb, h⟩ := bind_eq_ok.mp h
      have hcheck : Passes enc x start before ⟨s.errors ++ [error], s.scanned + 1, none⟩ ↔ b = true :=
        errorsFit_iff (s := { s with scanned := s.scanned + 1, errors := s.errors ++ [error] }) hs.items hb
      split at h
      · next hfits =>
        have hone : Stands start limit (before ++ [⟨s.errors ++ [error], s.scanned + 1, none⟩])
            { s with scanned := s.scanned + 1, errors := s.errors ++ [error] } := hs.check rfl
        exact (went_one (hcheck.mpr hfits) hone).append hone.goes (ih hone h)
      · next hfits =>
        cases Except.ok.inj h
        exact went_none hs.items hs.within rfl (.inl fun hpasses => hfits (hcheck.mp hpasses))

/-! ## Pages that return -/

theorem key_benign (x : CodeMap) : isBenign x.key = true := by
  have hall : ∀ key ∈ mapKeys, isBenign key = true := by decide
  exact hall x.key x.known

theorem language_benign (x : CodeMap) : isBenign x.language = true := by
  have hall : ∀ language ∈ supportedLanguages, isBenign language = true := by decide
  exact hall x.language x.supported

theorem key_free (x : CodeMap) : x.key ∉ contractKeys := by
  have hall : ∀ key ∈ mapKeys, key ∉ contractKeys := by decide
  exact hall x.key x.known

theorem fields_clean_iff {items errors : List Json} {scanned : ℕ} {next : Option ℕ} :
    CleanPayload (x.fields items errors scanned next) ↔
      Measurable x.path ∧ (∀ j ∈ items, CleanJson j) ∧ ∀ e ∈ errors, CleanJson e := by
  have hkeys : ∀ f ∈ x.fields items errors scanned next, f.1 ∉ contractKeys := by
    simp only [CodeMap.fields, List.forall_mem_cons, List.not_mem_nil, false_implies, implies_true, and_true]
    refine ⟨by decide, by decide, by decide, key_free x, by decide, by decide, by decide⟩
  have hnext : CleanField (txt "next_offset", optionalCount next) := cleanField_of_strings_nil (by decide) (strings_optionalCount next)
  rw [CleanPayload, SearchPages.cleanExcept_iff hkeys]
  simp only [CodeMap.fields, List.forall_mem_cons, List.not_mem_nil, false_implies, implies_true, and_true]
  rw [and_iff_right (cleanField_bool (by decide)), cleanField_str_iff (by decide), and_iff_right (cleanField_benign (by decide) (language_benign x)),
    cleanField_iff (key_benign x), cleanJson_arr, and_iff_right (cleanField_nat (by decide)), cleanField_iff (by decide), cleanJson_arr,
    and_iff_left hnext]

theorem clean_of_fits {items errors : List Json} {scanned : ℕ} (h : Fits enc x start items errors scanned) :
    (∀ j ∈ items, CleanJson j) ∧ ∀ e ∈ errors, CleanJson e := by
  rw [Fits, fitsReply] at h
  split at h
  · next r hr => exact (fields_clean_iff.mp ((withBudgetMetadata_returns_iff enc _ _ _ _).mp ⟨r, hr⟩).1).2
  · exact absurd h Bool.false_ne_true

theorem itemsIn_parsed (errors : List Json) (scanned : ℕ) (items : List Json) (files : List Scan) :
    itemsIn (stepsFrom errors scanned (.parsed items :: files)) = items ++ itemsIn (stepsFrom errors (scanned + 1) files) := by
  have hall : items.filterMap (fun item => some item) = items := List.filterMap_some
  rw [stepsFrom, itemsIn_append, itemsIn, List.filterMap_cons_none rfl, List.filterMap_map]
  exact congrArg (· ++ _) hall

/-- The checks are about the items of the files. -/
theorem itemsIn_stepsFrom (errors : List Json) (scanned : ℕ) (files : List Scan) :
    itemsIn (stepsFrom errors scanned files) = files.flatMap Scan.items := by
  induction files generalizing errors scanned with
  | nil => rfl
  | cons f files ih =>
    rw [List.flatMap_cons]
    cases f with
    | unreadable => exact ih errors (scanned + 1)
    | parsed items =>
      rw [itemsIn_parsed, ih]
      rfl
    | failed error => exact ih (errors ++ [error]) (scanned + 1)

/-- What the checks from here on measure can be rendered. -/
structure CleanSteps (steps : List Step) : Prop where
  items : ∀ j ∈ itemsIn steps, CleanJson j
  errors : ∀ c ∈ steps, c.item = none → ∀ e ∈ c.errors, CleanJson e

theorem CleanSteps.right {a b : List Step} (h : CleanSteps (a ++ b)) : CleanSteps b :=
  ⟨fun j hj => h.items j (itemsIn_append a b ▸ List.mem_append_right _ hj), fun c hc => h.errors c (List.mem_append_right _ hc)⟩

section
variable (hpath : Measurable x.path)
include hpath

theorem candidate_returns {items errors : List Json} {scanned : ℕ} (hitems : ∀ j ∈ items, CleanJson j) (herrors : ∀ e ∈ errors, CleanJson e) :
    ∃ r, candidate enc x start items errors scanned = .ok r :=
  (withBudgetMetadata_returns_iff enc _ _ _ _).mpr ⟨fields_clean_iff.mpr ⟨hpath, hitems, herrors⟩, measurable_of_isBenign (by decide)⟩

theorem takeItems_returns {items : List Json} (hs : ∀ j ∈ s.items, CleanJson j) (herrors : ∀ e ∈ s.errors, CleanJson e)
    (hitems : ∀ j ∈ items, CleanJson j) : ∃ s', takeItems enc x start limit s items = .ok s' ∧ (∀ j ∈ s'.items, CleanJson j) ∧
      s'.errors = s.errors ∧ s'.scanned = s.scanned := by
  induction items generalizing s with
  | nil => exact ⟨s, rfl, hs, rfl, rfl⟩
  | cons item items ih =>
    obtain ⟨hitem, hrest⟩ := List.forall_mem_cons.mp hitems
    rw [takeItems]
    split
    · exact ih (s := { s with seen := s.seen + 1 }) hs herrors hrest
    · split
      · exact ⟨_, rfl, hs, rfl, rfl⟩
      · have hmore : ∀ j ∈ s.items ++ [item], CleanJson j := by
          rw [List.forall_mem_append, List.forall_mem_singleton]
          exact ⟨hs, hitem⟩
        have hreply : ∃ r, candidate enc x start (s.items ++ [item]) s.errors s.scanned = .ok r := candidate_returns hpath hmore herrors
        obtain ⟨r, hr⟩ := hreply
        by_cases hfits : r.2.fits = true
        · obtain ⟨s', hs', hclean⟩ := ih (s := { s with items := s.items ++ [item], seen := s.seen + 1 }) hmore herrors hrest
          exact ⟨s', bind_eq_ok.mpr ⟨r, hr, (if_pos hfits).trans hs'⟩, hclean⟩
        · exact ⟨_, bind_eq_ok.mpr ⟨r, hr, if_neg hfits⟩, hs, rfl, rfl⟩

theorem errorsFit_returns (hs : ∀ j ∈ s.items, CleanJson j) (herrors : ∀ e ∈ s.errors, CleanJson e) :
    ∃ b, errorsFit enc x start s = .ok b := by
  rw [errorsFit]
  split
  · exact ⟨true, rfl⟩
  · have hreply : ∃ r, candidate enc x start s.items s.errors s.scanned = .ok r := candidate_returns hpath hs herrors
    obtain ⟨r, hr⟩ := hreply
    exact ⟨r.2.fits, bind_eq_ok.mpr ⟨r, hr, rfl⟩⟩

theorem scanFiles_returns {files : List Scan} (hs : ∀ j ∈ s.items, CleanJson j) (herrors : ∀ e ∈ s.errors, CleanJson e)
    (hclean : CleanSteps (stepsFrom s.errors s.scanned files)) : ∃ s', scanFiles enc x start limit s files = .ok s' ∧
      (∀ j ∈ s'.items, CleanJson j) ∧ ∀ e ∈ s'.errors, CleanJson e := by
  induction files generalizing s with
  | nil => exact ⟨s, rfl, hs, herrors⟩
  | cons f files ih =>
    cases f with
    | unreadable => exact ih (s := { s with scanned := s.scanned + 1 }) hs herrors hclean
    | parsed items =>
      have hcheck : ∃ b, errorsFit enc x start { s with scanned := s.scanned + 1 } = .ok b := errorsFit_returns hpath hs herrors
      obtain ⟨b, hb⟩ := hcheck
      have hitems : ∀ j ∈ items, CleanJson j := by
        refine fun j hj => hclean.items j ?_
        rw [itemsIn_parsed]
        exact List.mem_append_left _ hj
      rw [scanFiles]
      cases b with
      | false => exact ⟨_, bind_eq_ok.mpr ⟨_, hb, rfl⟩, hs, herrors⟩
      | true =>
        have htaken : ∃ s', takeItems enc x start limit { s with scanned := s.scanned + 1 } items = .ok s' ∧
            (∀ j ∈ s'.items, CleanJson j) ∧ s'.errors = s.errors ∧ s'.scanned = s.scanned + 1 :=
          takeItems_returns hpath hs herrors hitems
        obtain ⟨s₁, hs₁, hitems₁, herrors₁, hscanned₁⟩ := htaken
        by_cases hstop : s₁.truncated = true
        · exact ⟨s₁, bind_eq_ok.mpr ⟨_, hb, bind_eq_ok.mpr ⟨s₁, hs₁, if_pos hstop⟩⟩, hitems₁, herrors₁ ▸ herrors⟩
        · obtain ⟨s', hs', hclean'⟩ := ih (s := s₁) hitems₁ (herrors₁ ▸ herrors) (herrors₁ ▸ hscanned₁ ▸ hclean.right)
          exact ⟨s', bind_eq_ok.mpr ⟨_, hb, bind_eq_ok.mpr ⟨s₁, hs₁, (if_neg hstop).trans hs'⟩⟩, hclean'⟩
    | failed error =>
      have hmore := hclean.errors _ (List.mem_cons_self ..) rfl
      have hcheck : ∃ b, errorsFit enc x start { s with scanned := s.scanned + 1, errors := s.errors ++ [error] } = .ok b :=
        errorsFit_returns hpath hs hmore
      have hrest : CleanSteps (stepsFrom (s.errors ++ [error]) (s.scanned + 1) files) := CleanSteps.right (a := [_]) hclean
      obtain ⟨b, hb⟩ := hcheck
      rw [scanFiles]
      cases b with
      | false => exact ⟨_, bind_eq_ok.mpr ⟨_, hb, rfl⟩, hs, herrors⟩
      | true =>
        obtain ⟨s', hs', hclean'⟩ := ih (s := { s with scanned := s.scanned + 1, errors := s.errors ++ [error] }) hs hmore hrest
        exact ⟨s', bind_eq_ok.mpr ⟨_, hb, hs'⟩, hclean'⟩

end

/-! ## Following the offsets -/

def pager (key : Text) (reply : ℤ → ℤ → Except Raised Dict) (limit : ℕ+) (i : ℕ) : Option (Page Json) :=
  (reply limit i).toOption.map fun d => ⟨shownItems key d, nextOffsetOf d⟩

/-- What a page shows of the checks that it went through. -/
structure Shows (enc : TokenEncoding) (x : CodeMap) (limit : ℕ+) (i : ℕ) (p : Page Json) (s : MapState) : Prop where
  went : Went enc x i limit [] x.steps s
  items : p.items = s.items
  next : p.next = if s.truncated then some (i + s.items.length) else none
  path : Measurable x.path
  clean : ∀ j ∈ s.items, CleanJson j

theorem truncated_own {d : Dict} {b : Bool} : CleanPayload (d ++ [(txt "truncated", .bool b)]) ↔ CleanPayload d := by
  have hreserved : txt "truncated" ∈ contractKeys := by decide
  rw [CleanPayload, CleanExcept, List.forall_mem_append, List.forall_mem_singleton]
  exact and_iff_left fun hfree => absurd hreserved hfree

theorem shownItems_fields (x : CodeMap) (items errors : List Json) (scanned : ℕ) (next : Option ℕ) (more : Dict) :
    shownItems x.key (x.fields items errors scanned next ++ more) = items ∧ nextOffsetOf (x.fields items errors scanned next ++ more) = next := by
  have hkey : x.key = txt "symbols" ∨ x.key = txt "imports" := by
    have hknown := x.known
    rwa [mapKeys, List.mem_cons, List.mem_singleton] at hknown
  rw [CodeMap.fields]
  cases hkey with
  | inl hsymbols =>
    rw [hsymbols]
    exact ⟨rfl, countOf_optionalCount next⟩
  | inr himports =>
    rw [himports]
    exact ⟨rfl, countOf_optionalCount next⟩

theorem mapPage_shows {limit : ℕ+} {i : ℕ} {p : Page Json} (h : pager x.key (mapPage enc x) limit i = some p) :
    ∃ s, Shows enc x limit i p s := by
  obtain ⟨d, hd, rfl⟩ := Option.map_eq_some_iff.mp h
  have hd : mapPage enc x limit i = .ok d := by
    cases hreply : mapPage enc x limit i with
    | error e => rw [hreply] at hd; exact absurd hd (by simp [Except.toOption])
    | ok d' => rw [hreply] at hd; exact congrArg Except.ok (Option.some.inj hd)
  have hlimit : ¬(limit : ℤ) < 1 := not_lt.mpr (Int.ofNat_le.mpr limit.2)
  rw [mapPage, if_neg hlimit] at hd
  obtain ⟨s, hs, hd⟩ := bind_eq_ok.mp hd
  obtain ⟨r, hr, hd⟩ := bind_eq_ok.mp hd
  cases Except.ok.inj hd
  have hstands : Stands i limit [] ({} : MapState) := ⟨List.drop_nil.symm, rfl, Nat.zero_le _, rfl⟩
  have hclean := fields_clean_iff.mp (truncated_own.mp ((withBudgetMetadata_returns_iff enc _ _ _ _).mp ⟨r, hr⟩).1)
  refine ⟨s, scanFiles_went hstands hs, ?_, ?_, hclean.1, hclean.2.1⟩
  · refine (shownItems_reply (key_free x) hr).trans ?_
    exact (shownItems_fields x _ _ _ _ _).1
  · refine (nextOffsetOf_reply hr).trans ?_
    exact (shownItems_fields x _ _ _ _ _).2

theorem mapPage_returns {limit : ℕ+} {i : ℕ} (hpath : Measurable x.path) (hclean : CleanSteps x.steps) :
    ∃ p, pager x.key (mapPage enc x) limit i = some p := by
  have hscan : ∃ s, scanFiles enc x i limit {} x.files = .ok s ∧ (∀ j ∈ s.items, CleanJson j) ∧ ∀ e ∈ s.errors, CleanJson e :=
    scanFiles_returns hpath (fun j hj => absurd hj List.not_mem_nil) (fun e he => absurd he List.not_mem_nil) hclean
  have hlimit : ¬(limit : ℤ) < 1 := not_lt.mpr (Int.ofNat_le.mpr limit.2)
  obtain ⟨s, hs, hitems, herrors⟩ := hscan
  have hreply : ∃ d, mapPage enc x limit i = .ok d := by
    rw [mapPage, if_neg hlimit]
    have hreason : Measurable (if s.truncated && decide ((s.items.length : ℤ) < limit) then txt "token_budget"
        else if s.truncated then txt "limit" else txt "end_of_results") := by
      refine measurable_of_isBenign ?_
      split_ifs
      · decide
      · decide
      · decide
    obtain ⟨r, hr⟩ := (withBudgetMetadata_returns_iff enc _ x.budget s.truncated _).mpr
      ⟨truncated_own.mpr (fields_clean_iff.mpr ⟨hpath, hitems, herrors⟩), hreason⟩
    exact ⟨r.1, bind_eq_ok.mpr ⟨s, hs, bind_eq_ok.mpr ⟨r, hr, rfl⟩⟩⟩
  obtain ⟨d, hd⟩ := hreply
  refine ⟨⟨shownItems x.key d, nextOffsetOf d⟩, ?_⟩
  rw [pager, hd]
  rfl

/-- The check of an item, behind those of the items before it. -/
structure IsItem (x : CodeMap) (i : ℕ) (front : List Step) (c : Step) (rest : List Step) : Prop where
  split : x.steps = front ++ c :: rest
  item : c.item ≠ none
  count : (itemsIn front).length = i

theorem exists_split {i : ℕ} (hi : i < (itemsIn steps).length) :
    ∃ front c rest, steps = front ++ c :: rest ∧ c.item ≠ none ∧ (itemsIn front).length = i := by
  induction steps generalizing i with
  | nil => exact absurd hi (Nat.not_lt_zero i)
  | cons c steps ih =>
    cases hc : c.item with
    | none =>
      rw [itemsIn, List.filterMap_cons_none hc] at hi
      obtain ⟨front, c', rest, rfl, hitem, hcount⟩ := ih hi
      refine ⟨c :: front, c', rest, rfl, hitem, ?_⟩
      rw [itemsIn, List.filterMap_cons_none hc]
      exact hcount
    | some item =>
      cases i with
      | zero => exact ⟨[], c, steps, rfl, by rw [hc]; exact Option.some_ne_none item, rfl⟩
      | succ i =>
        rw [itemsIn, List.filterMap_cons_some hc] at hi
        obtain ⟨front, c', rest, rfl, hitem, hcount⟩ := ih (Nat.lt_of_succ_lt_succ hi)
        refine ⟨c :: front, c', rest, rfl, hitem, ?_⟩
        rw [itemsIn, List.filterMap_cons_some hc]
        exact congrArg Nat.succ hcount

theorem items_eq (x : CodeMap) : itemsIn x.steps = x.items := itemsIn_stepsFrom [] 0 x.files

theorem exists_isItem {i : ℕ} (hi : i < x.items.length) : ∃ front c rest, IsItem x i front c rest := by
  rw [← items_eq] at hi
  obtain ⟨front, c, rest, hsplit, hitem, hcount⟩ := exists_split hi
  exact ⟨front, c, rest, hsplit, hitem, hcount⟩

theorem items_le_of_front {a b : List Step} (h : a <+: b) : itemsIn a <+: itemsIn b := by
  obtain ⟨c, rfl⟩ := h
  rw [itemsIn_append]
  exact List.prefix_append _ _

/-- Of two ways to split the checks, one splits earlier. -/
theorem split_earlier {a b r t : List Step} {c d : Step} (h : a ++ c :: r = b ++ d :: t) : a ++ [c] <+: b ∨ b <+: a := by
  cases List.append_eq_append_iff.mp h with
  | inl hlater =>
    obtain ⟨middle, rfl, hrest⟩ := hlater
    cases middle with
    | nil =>
      rw [List.append_nil]
      exact .inr (List.prefix_refl a)
    | cons e middle =>
      obtain ⟨rfl, -⟩ := List.cons.inj hrest
      refine .inl ⟨middle, ?_⟩
      rw [List.append_assoc]
      rfl
  | inr hearlier =>
    obtain ⟨middle, rfl, -⟩ := hearlier
    exact .inr (List.prefix_append b middle)

theorem Clear.passes {c : Step} (h : Clear enc x start [] steps) (hc : before ++ [c] <+: steps) : Passes enc x start before c := by
  obtain ⟨rest, rfl⟩ := hc
  refine h before c rest ?_
  rw [List.append_assoc]
  rfl

/-- Checks that all succeed end before one that fails. -/
theorem prefix_of_fails {i : ℕ} {front rest gone left : List Step} {c : Step} (hsplit : x.steps = front ++ c :: rest)
    (hfails : ¬Passes enc x i front c) (hgone : x.steps = gone ++ left) (hclear : Clear enc x i [] gone) : gone <+: front ∧ left ≠ [] := by
  cases left with
  | nil =>
    rw [List.append_nil] at hgone
    refine absurd (hclear.passes ⟨rest, ?_⟩) hfails
    rw [← hgone, hsplit, List.append_assoc]
    rfl
  | cons d left =>
    refine ⟨?_, List.cons_ne_nil d left⟩
    cases split_earlier (hsplit.symm.trans hgone) with
    | inl hearlier => exact absurd (hclear.passes hearlier) hfails
    | inr hlater => exact hlater

/-- Where a check fails behind no more items than are skipped, every page leads back to its offset. -/
theorem stuck {i : ℕ} {front rest : List Step} {c : Step} (hsplit : x.steps = front ++ c :: rest) (hfails : ¬Passes enc x i front c)
    (hfew : (itemsIn front).length ≤ i) {limit : ℕ+} {p : Page Json} (hp : pager x.key (mapPage enc x) limit i = some p) :
    p.next = some i := by
  obtain ⟨s, hs⟩ := mapPage_shows hp
  obtain ⟨gone, left, hgone, hclear, hitems, -, hend⟩ := hs.went
  obtain ⟨hinit, hleft⟩ := prefix_of_fails hsplit hfails hgone hclear
  have hnone : s.items = [] := by
    rw [hitems, List.nil_append]
    exact List.drop_of_length_le (Nat.le_trans (items_le_of_front hinit).length_le hfew)
  have hstop : s.truncated = true := by
    cases hend with
    | inl hdone => exact absurd hdone.1 hleft
    | inr hstopped =>
      obtain ⟨d, more, -, hstop, -⟩ := hstopped
      exact hstop
  rw [hs.next, hstop, hnone, if_pos rfl]
  rfl

variable (enc x) in
/-- A page from an offset on shows all further items, but not all errors behind them. -/
def Spills : Prop := ∃ i < x.items.length, ∃ front c rest, x.steps = front ++ c :: rest ∧ itemsIn front = x.items ∧
  Clear enc x i [] front ∧ ¬Passes enc x i front c

variable (enc x) in
/-- All texts can be rendered. Each item fits on the page that begins with it, with the errors
before it, and so do these errors. Where a page is stopped behind the last item, or there is
none, all errors fit on an empty page. -/
structure RoomForErrors : Prop where
  path : Measurable x.path
  clean : CleanSteps x.steps
  shown : ∀ i front c rest, IsItem x i front c rest → Clear enc x i [] (front ++ [c])
  ended : x.items = [] ∨ Spills enc x → Clear enc x x.items.length [] x.steps

/-- Where the checks up to the item succeed, it is shown. -/
theorem Shows.pos {limit : ℕ+} {i : ℕ} {p : Page Json} {front rest : List Step} {c : Step} (hs : Shows enc x limit i p s)
    (hitem : IsItem x i front c rest) (hclear : Clear enc x i [] (front ++ [c])) : s.items ≠ [] := by
  intro hnone
  obtain ⟨gone, left, hgone, -, hitems, -, hend⟩ := hs.went
  have hfew : (itemsIn gone).length ≤ i := List.drop_eq_nil_iff.mp (hitems.symm.trans hnone)
  have hlonger : ¬front ++ [c] <+: gone := by
    intro hinit
    have hle := (items_le_of_front hinit).length_le
    obtain ⟨item, hc⟩ := Option.ne_none_iff_exists'.mp hitem.item
    rw [itemsIn_item hc, List.length_append, hitem.count, List.length_singleton] at hle
    omega
  cases hend with
  | inl hdone =>
    obtain ⟨rfl, -, -⟩ := hdone
    refine hlonger ⟨rest, ?_⟩
    rw [List.append_nil] at hgone
    rw [← hgone, hitem.split, List.append_assoc]
    rfl
  | inr hstopped =>
    obtain ⟨d, more, rfl, -, hwhy⟩ := hstopped
    have hinit : gone ++ [d] <+: front ++ [c] := by
      cases split_earlier (hgone.symm.trans hitem.split) with
      | inl hearlier => exact hearlier.trans (List.prefix_append _ _)
      | inr hahead =>
        have hbehind := (split_earlier (hitem.split.symm.trans hgone)).resolve_left hlonger
        cases hahead.eq_of_length_le hbehind.length_le
        cases (List.cons.inj (List.append_cancel_left (hgone.symm.trans hitem.split))).1
        exact List.prefix_refl _
    cases hwhy with
    | inl hfails => exact hfails (hclear.passes hinit)
    | inr hlimit =>
      have hfull := hlimit.2.2
      rw [hnone] at hfull
      exact absurd limit.2 (Nat.not_lt.mpr hfull)

/-- What a page shows are the next items. -/
theorem Shows.prefix_items {limit : ℕ+} {i : ℕ} {p : Page Json} (hs : Shows enc x limit i p s) : s.items <+: x.items.drop i := by
  obtain ⟨gone, left, hgone, -, hitems, -, -⟩ := hs.went
  rw [hitems, ← items_eq, List.nil_append]
  exact (items_le_of_front ⟨left, hgone.symm⟩).drop i

/-- A page that is not cut shows all items that are left. -/
theorem Shows.last {limit : ℕ+} {i : ℕ} {p : Page Json} (hs : Shows enc x limit i p s) (hgoes : s.truncated = false) :
    s.items = x.items.drop i ∧ Clear enc x i [] x.steps := by
  obtain ⟨gone, left, hgone, hclear, hitems, -, hend⟩ := hs.went
  cases hend with
  | inl hdone =>
    obtain ⟨rfl, -, -⟩ := hdone
    rw [List.append_nil] at hgone
    rw [hgone]
    refine ⟨?_, hclear⟩
    rw [hitems, ← items_eq, hgone]
    rfl
  | inr hstopped =>
    obtain ⟨d, more, -, hstop, -⟩ := hstopped
    exact absurd (hgoes.symm.trans hstop) Bool.false_ne_true

theorem Shows.goes_of_next {limit : ℕ+} {i : ℕ} {p : Page Json} (hs : Shows enc x limit i p s) (hnext : p.next = none) :
    s.truncated = false := by
  cases hstop : s.truncated with
  | false => rfl
  | true =>
    have hsome := hs.next
    rw [hstop, if_pos rfl, hnext] at hsome
    exact absurd hsome.symm (Option.some_ne_none _)

theorem Shows.cut_of_next {limit : ℕ+} {i j : ℕ} {p : Page Json} (hs : Shows enc x limit i p s) (hnext : p.next = some j) :
    j = i + s.items.length := by
  have hsome := hs.next.symm.trans hnext
  split at hsome
  · exact (Option.some.inj hsome).symm
  · exact absurd hsome.symm (Option.some_ne_none j)

/-- A page that is cut behind the last item. -/
theorem Shows.spills {limit : ℕ+} {i : ℕ} {p : Page Json} (hs : Shows enc x limit i p s) (hi : i < x.items.length)
    (hstop : s.truncated = true) (hall : s.items = x.items.drop i) : Spills enc x := by
  obtain ⟨gone, left, hgone, hclear, hitems, -, hend⟩ := hs.went
  have hinit : itemsIn gone <+: x.items := items_eq x ▸ items_le_of_front ⟨left, hgone.symm⟩
  have hsame : itemsIn gone = x.items := by
    have hlength := congrArg List.length (hitems.symm.trans hall)
    rw [List.nil_append, List.length_drop, List.length_drop] at hlength
    exact hinit.eq_of_length_le (by omega)
  cases hend with
  | inl hdone => exact absurd (hdone.2.1.symm.trans hstop) Bool.false_ne_true
  | inr hstopped =>
    obtain ⟨d, more, rfl, -, hwhy⟩ := hstopped
    refine ⟨i, hi, gone, d, more, hgone, hsame, hclear, hwhy.resolve_right fun hlimit => ?_⟩
    obtain ⟨item, hd⟩ := Option.ne_none_iff_exists'.mp hlimit.1
    have htoo := congrArg itemsIn hgone
    rw [items_eq, itemsIn_append, hsame, itemsIn, List.filterMap_cons_some hd] at htoo
    have hlength := congrArg List.length htoo
    rw [List.length_append, List.length_cons] at hlength
    omega

/-- Where all errors fit on an empty page, the page behind the last item is the last. -/
theorem Shows.ends {limit : ℕ+} {p : Page Json} (hs : Shows enc x limit x.items.length p s) (hclear : Clear enc x x.items.length [] x.steps) :
    s.items = [] ∧ s.truncated = false := by
  have hnone : s.items = [] := List.prefix_nil.mp (List.drop_length ▸ hs.prefix_items)
  obtain ⟨gone, left, hgone, -, hitems, -, hend⟩ := hs.went
  refine ⟨hnone, ?_⟩
  cases hend with
  | inl hdone => exact hdone.2.1
  | inr hstopped =>
    obtain ⟨d, more, rfl, -, hwhy⟩ := hstopped
    cases hwhy with
    | inl hfails => exact absurd (hclear gone d more hgone) hfails
    | inr hlimit =>
      have hfull := hlimit.2.2
      rw [hnone] at hfull
      exact absurd limit.2 (Nat.not_lt.mpr hfull)

theorem page_of_room (hroom : RoomForErrors enc x) (limit : ℕ+) (i : ℕ) : ∃ p, pager x.key (mapPage enc x) limit i = some p :=
  mapPage_returns hroom.path hroom.clean

theorem walk_end (hroom : RoomForErrors enc x) (hclear : Clear enc x x.items.length [] x.steps) (reqs : ℕ → ℕ+) :
    Walk (pager x.key (mapPage enc x)) reqs x.items.length [] := by
  obtain ⟨p, hp⟩ := page_of_room hroom (reqs 0) x.items.length
  obtain ⟨s, hs⟩ := mapPage_shows hp
  obtain ⟨hnone, hgoes⟩ := hs.ends hclear
  have hlast : p.next = none := by rw [hs.next, hgoes, if_neg Bool.false_ne_true]
  rw [← hnone, ← hs.items]
  exact .last hp hlast

theorem walk_of_room (hroom : RoomForErrors enc x) (reqs : ℕ → ℕ+) {i : ℕ} (hi : i < x.items.length) :
    Walk (pager x.key (mapPage enc x)) reqs i (x.items.drop i) := by
  induction hn : x.items.length - i using Nat.strongRecOn generalizing reqs i with
  | ind n ih =>
    obtain ⟨p, hp⟩ := page_of_room hroom (reqs 0) i
    obtain ⟨s, hs⟩ := mapPage_shows hp
    obtain ⟨front, c, rest, hitem⟩ := exists_isItem hi
    have hpos := List.length_pos_iff.mpr (hs.pos hitem (hroom.shown i front c rest hitem))
    obtain ⟨more, hmore⟩ := hs.prefix_items
    cases hstop : s.truncated with
    | false =>
      have hlast : p.next = none := by rw [hs.next, hstop, if_neg Bool.false_ne_true]
      rw [← (hs.last hstop).1, ← hs.items]
      exact .last hp hlast
    | true =>
      have hnext : p.next = some (i + s.items.length) := by rw [hs.next, hstop, if_pos rfl]
      have hrest : x.items.drop i = p.items ++ x.items.drop (i + s.items.length) := by
        rw [← List.drop_drop, ← hmore, List.drop_left, hs.items]
      rw [hrest]
      refine .more hp hnext ?_
      by_cases hlt : i + s.items.length < x.items.length
      · exact ih _ (by omega) _ hlt rfl
      · have hlength := congrArg List.length hmore
        rw [List.length_append, List.length_drop] at hlength
        have hend : i + s.items.length = x.items.length := by omega
        have hall : s.items = x.items.drop i := by
          have hnil : more = [] := List.length_eq_zero_iff.mp (by omega)
          rw [← hmore, hnil, List.append_nil]
        rw [hend, List.drop_length]
        exact walk_end hroom (hroom.ended (.inr (hs.spills hi hstop hall))) _

theorem enumerates_of_room (hroom : RoomForErrors enc x) : Enumerates (pager x.key (mapPage enc x)) x.items := by
  intro reqs
  cases hnone : x.items with
  | nil =>
    have hend := walk_end hroom (hroom.ended (.inl hnone)) reqs
    rwa [hnone] at hend
  | cons j items =>
    rw [← hnone]
    exact walk_of_room hroom reqs (hnone ▸ Nat.succ_pos _)

/-! ## Only then -/

/-- What a walk shows can be rendered. -/
theorem clean_of_walk {reqs : ℕ → ℕ+} {i : ℕ} {ys : List Json} (h : Walk (pager x.key (mapPage enc x)) reqs i ys) :
    ∀ j ∈ ys, CleanJson j := by
  induction h with
  | last hp hnext =>
    obtain ⟨s, hs⟩ := mapPage_shows hp
    rw [hs.items]
    exact hs.clean
  | more hp hnext _ ih =>
    obtain ⟨s, hs⟩ := mapPage_shows hp
    rw [List.forall_mem_append, hs.items]
    exact ⟨hs.clean, ih⟩

/-- The last page of a walk has gone through all checks. -/
theorem clear_of_walk {reqs : ℕ → ℕ+} {i : ℕ} {ys : List Json} (h : Walk (pager x.key (mapPage enc x)) reqs i ys) :
    ∃ start, Clear enc x start [] x.steps := by
  induction h with
  | last hp hnext =>
    obtain ⟨s, hs⟩ := mapPage_shows hp
    exact ⟨_, (hs.last (hs.goes_of_next hnext)).2⟩
  | more _ _ _ ih => exact ih

theorem clear_of_walk_item {reqs : ℕ → ℕ+} {i : ℕ} {ys : List Json} (h : Walk (pager x.key (mapPage enc x)) reqs i ys)
    {front rest : List Step} {c : Step} (hitem : IsItem x i front c rest) : Clear enc x i [] (front ++ [c]) := by
  intro before d more hsplit
  by_contra hfails
  have hinit : before <+: front := by
    have hlength := congrArg List.length hsplit
    simp only [List.length_append, List.length_cons, List.length_nil] at hlength
    exact List.prefix_of_prefix_length_le ⟨d :: more, hsplit.symm⟩ (List.prefix_append front [c]) (by omega)
  have hall : x.steps = before ++ d :: (more ++ rest) := by
    rw [hitem.split, List.append_cons, hsplit, List.append_assoc]
    rfl
  exact not_walk_of_stuck (fun limit p hp => stuck hall hfails (hitem.count ▸ (items_le_of_front hinit).length_le) hp) h

/-- A walk may begin with this request. -/
def first (limit : ℕ+) (reqs : ℕ → ℕ+) : ℕ → ℕ+
  | 0 => limit
  | n + 1 => reqs n

/-- A page of one item. -/
theorem single_page {i : ℕ} {p : Page Json} (hp : pager x.key (mapPage enc x) ⟨1, Nat.one_pos⟩ i = some p) :
    Single x.items i p := by
  obtain ⟨s, hs⟩ := mapPage_shows hp
  obtain ⟨gone, left, -, -, -, hone, -⟩ := hs.went
  refine ⟨?_, fun j hnext => ?_, fun hnext => ?_⟩
  · rw [hs.items]
    exact hone
  · rw [hs.items]
    exact hs.cut_of_next hnext
  · rw [hs.items]
    exact (hs.last (hs.goes_of_next hnext)).1

/-- With pages of one item, every item is arrived at. -/
theorem walk_from (h : Enumerates (pager x.key (mapPage enc x)) x.items) {i : ℕ} (hi : i < x.items.length) (reqs : ℕ → ℕ+) :
    ∃ ys, Walk (pager x.key (mapPage enc x)) reqs i ys :=
  OffsetPaging.walk_from (fun _ _ _ hp => single_page hp) h hi reqs

/-- A page that spills leads behind the last item. -/
theorem walk_behind (h : Enumerates (pager x.key (mapPage enc x)) x.items) (hspills : Spills enc x) (reqs : ℕ → ℕ+) :
    ∃ ys, Walk (pager x.key (mapPage enc x)) reqs x.items.length ys := by
  obtain ⟨i, hi, front, c, rest, hsplit, hall, hclear, hfails⟩ := hspills
  have hpos : 0 < x.items.length := Nat.lt_of_le_of_lt (Nat.zero_le i) hi
  obtain ⟨ys, hwalk⟩ := walk_from h hi (first ⟨x.items.length, hpos⟩ reqs)
  have hbehind : ∀ {p : Page Json}, pager x.key (mapPage enc x) ⟨x.items.length, hpos⟩ i = some p → p.next = some x.items.length := by
    intro p hp
    obtain ⟨s, hs⟩ := mapPage_shows hp
    obtain ⟨gone, left, hgone, hgoneclear, hitems, -, hend⟩ := hs.went
    obtain ⟨hinit, hleft⟩ := prefix_of_fails hsplit hfails hgone hgoneclear
    have hcount : s.items.length = (itemsIn gone).length - i := by
      rw [hitems, List.nil_append, List.length_drop]
    have hle := (items_le_of_front hinit).length_le
    rw [hall] at hle
    cases hend with
    | inl hdone => exact absurd hdone.1 hleft
    | inr hstopped =>
      obtain ⟨d, more, rfl, hstop, hwhy⟩ := hstopped
      -- the page is full, or it stops at the check that fails
      have hfull : x.items.length ≤ (itemsIn gone).length := by
        cases hwhy with
        | inl hfails' =>
          obtain ⟨hbehind, -⟩ := prefix_of_fails hgone hfails' hsplit hclear
          rw [hinit.eq_of_length_le hbehind.length_le, hall]
        | inr hlimit =>
          have hmany : x.items.length ≤ s.items.length := hlimit.2.2
          omega
      rw [hs.next, hstop, if_pos rfl]
      exact congrArg some (by omega)
  cases hwalk with
  | last hp hnext => exact absurd ((hbehind hp).symm.trans hnext) (Option.some_ne_none _)
  | more hp hnext hrest =>
    cases (hbehind hp).symm.trans hnext
    exact ⟨_, hrest⟩

theorem clear_of_walk_end {reqs : ℕ → ℕ+} {ys : List Json} (h : Walk (pager x.key (mapPage enc x)) reqs x.items.length ys) :
    Clear enc x x.items.length [] x.steps := by
  intro front c rest hsplit
  by_contra hfails
  have hfew : (itemsIn front).length ≤ x.items.length := items_eq x ▸ (items_le_of_front ⟨c :: rest, hsplit.symm⟩).length_le
  exact not_walk_of_stuck (fun limit p hp => stuck hsplit hfails hfew hp) h

theorem room_of_enumerates (h : Enumerates (pager x.key (mapPage enc x)) x.items) : RoomForErrors enc x := by
  have hfirst := h fun _ => ⟨1, Nat.one_pos⟩
  refine ⟨?_, ⟨?_, ?_⟩, ?_, ?_⟩
  · obtain ⟨p, hp⟩ := hfirst.reply
    obtain ⟨s, hs⟩ := mapPage_shows hp
    exact hs.path
  · rw [items_eq]
    exact clean_of_walk hfirst
  · intro c hc hnone e he
    obtain ⟨start, hclear⟩ := clear_of_walk hfirst
    obtain ⟨front, rest, hsplit⟩ := List.append_of_mem hc
    have hpasses := hclear front c rest hsplit
    rw [Passes, hnone] at hpasses
    exact (clean_of_fits (Or.resolve_left hpasses (List.ne_nil_of_mem he))).2 e he
  · intro i front c rest hitem
    have hlt : i < x.items.length := by
      obtain ⟨item, hc⟩ := Option.ne_none_iff_exists'.mp hitem.item
      have hinit := (items_le_of_front (⟨rest, by rw [hitem.split, List.append_assoc]; rfl⟩ : front ++ [c] <+: x.steps)).length_le
      rw [itemsIn_item hc, List.length_append, hitem.count, List.length_singleton, items_eq] at hinit
      exact hinit
    obtain ⟨ys, hwalk⟩ := walk_from h hlt fun _ => ⟨1, Nat.one_pos⟩
    exact clear_of_walk_item hwalk hitem
  · intro hends
    cases hends with
    | inl hnone =>
      have hwalk : Walk (pager x.key (mapPage enc x)) (fun _ => ⟨1, Nat.one_pos⟩) x.items.length x.items := by
        rw [hnone] at hfirst ⊢
        exact hfirst
      exact clear_of_walk_end hwalk
    | inr hspills =>
      obtain ⟨ys, hwalk⟩ := walk_behind h hspills fun _ => ⟨1, Nat.one_pos⟩
      exact clear_of_walk_end hwalk

theorem enumerates_iff_room : Enumerates (pager x.key (mapPage enc x)) x.items ↔ RoomForErrors enc x :=
  ⟨room_of_enumerates, enumerates_of_room⟩

/-! ## Trees of source files -/

/-- All symbols of the files that can be parsed, in scan order. -/
def SourceTree.symbols (t : SourceTree) : List Json := t.files.flatMap fun f => (f.scan f.symbols).items

def SourceTree.importEntries (t : SourceTree) : List Json := t.files.flatMap fun f => (f.scan f.importItems).items

/-- The offsets of both maps lead through all items exactly when there is room for the errors. -/
theorem maps_enumerate_iff (enc : TokenEncoding) (t : SourceTree) :
    (Enumerates (pager (txt "symbols") (codeMapSymbols enc t)) t.symbols ↔ RoomForErrors enc t.symbolMap) ∧
      (Enumerates (pager (txt "imports") (codeMapImports enc t)) t.importEntries ↔ RoomForErrors enc t.importMap) := by
  have hsymbols : t.symbolMap.items = t.symbols := List.flatMap_map ..
  have himports : t.importMap.items = t.importEntries := List.flatMap_map ..
  rw [← hsymbols, ← himports]
  exact ⟨enumerates_iff_room, enumerates_iff_room⟩

/-- The errors of a check are those of files, and no more files are counted than there are. -/
theorem step_bounds {errors : List Json} {scanned : ℕ} {files : List Scan} {c : Step} (h : c ∈ stepsFrom errors scanned files) :
    c.scanned ≤ scanned + files.length ∧ ∀ e ∈ c.errors, e ∈ errors ∨ Scan.failed e ∈ files := by
  induction files generalizing errors scanned with
  | nil => exact absurd h List.not_mem_nil
  | cons f files ih =>
    have hlater : ∀ {errors' : List Json}, c ∈ stepsFrom errors' (scanned + 1) files →
        (∀ e ∈ errors', e ∈ errors ∨ Scan.failed e ∈ f :: files) →
        c.scanned ≤ scanned + (f :: files).length ∧ ∀ e ∈ c.errors, e ∈ errors ∨ Scan.failed e ∈ f :: files := by
      intro errors' hmem herrors
      obtain ⟨hscanned, hfrom⟩ := ih hmem
      rw [List.length_cons]
      exact ⟨by omega, fun e he => (hfrom e he).elim (herrors e) fun hfile => .inr (List.mem_cons_of_mem f hfile)⟩
    have hhere : ∀ {item : Option Json}, c = ⟨errors, scanned + 1, item⟩ →
        c.scanned ≤ scanned + (f :: files).length ∧ ∀ e ∈ c.errors, e ∈ errors ∨ Scan.failed e ∈ f :: files := by
      intro item hc
      rw [hc, List.length_cons]
      exact ⟨by simp only; omega, fun e he => .inl he⟩
    cases f with
    | unreadable => exact hlater h fun e he => .inl he
    | parsed items =>
      rw [stepsFrom, List.mem_append, List.mem_cons, List.mem_map] at h
      cases h with
      | inl hnow =>
        cases hnow with
        | inl hcheck => exact hhere hcheck
        | inr hitem =>
          obtain ⟨item, -, hc⟩ := hitem
          exact hhere hc.symm
      | inr hrest => exact hlater hrest fun e he => .inl he
    | failed error =>
      have hmore : ∀ e ∈ errors ++ [error], e ∈ errors ∨ Scan.failed e ∈ Scan.failed error :: files := by
        intro e he
        cases List.mem_append.mp he with
        | inl hold => exact .inl hold
        | inr hnew =>
          cases List.mem_singleton.mp hnew
          exact .inr (List.mem_cons_self ..)
      cases List.mem_cons.mp h with
      | inl hcheck =>
        rw [hcheck, List.length_cons]
        exact ⟨by simp only; omega, hmore⟩
      | inr hrest => exact hlater hrest hmore

def brokenError : Json :=
  .obj [(txt "file", .str (txt "/srv/broken.py")), (txt "line", natJson 1), (txt "message", .str (txt "invalid syntax"))]

def mainSymbol : Json := .obj [(txt "name", .str (txt "main")), (txt "kind", .str (txt "function")),
  (txt "file", .str (txt "/srv/sound.py")), (txt "line", natJson 1)]

theorem thousand_pos : 0 < 1000 := by decide

/-- Twenty files that cannot be parsed, and one that can. -/
def brokenTree : SourceTree where
  path := txt "/srv"
  language := txt "python"
  files := List.replicate 20 ⟨txt "/srv/broken.py", true, some brokenError, [], []⟩ ++ [⟨txt "/srv/sound.py", true, none, [mainSymbol], []⟩]
  maxTokens := ⟨1000, thousand_pos⟩
  supported := by decide

/-- One error and the symbol take less than half of the budget. -/
theorem length_pair {i n : ℕ} (hi : i ≤ 1) (hn : n ≤ 21) : (render (.obj (withContract
    (brokenTree.symbolMap.fields [mainSymbol] [brokenError] n (some (i + 1))) brokenTree.symbolMap.budget true (txt "token_budget")))).length ≤ 479 := by
  have hfields : withContract (brokenTree.symbolMap.fields [mainSymbol] [brokenError] n (some (i + 1))) brokenTree.symbolMap.budget true
      (txt "token_budget") = [(txt "success", .bool true), (txt "path", .str (txt "/srv")), (txt "language", .str (txt "python")),
        (txt "symbols", .arr [mainSymbol]), (txt "scanned_files", natJson n), (txt "errors", .arr [brokenError]),
        (txt "next_offset", natJson (i + 1)), (txt "complete", .bool false), (txt "partial", .bool true), (txt "truncated", .bool true),
        (txt "stop_reason", .str (txt "token_budget")), (txt "estimated_tokens", natJson 0),
        (txt "effective_budget", effectiveBudget brokenTree.symbolMap.budget)] := rfl
  have hsymbols : fieldLength (txt "symbols", .arr [mainSymbol]) = 77 := by
    rw [fieldLength_eq, length_render_single, mainSymbol, length_render_fields]
    decide
  have herrors : fieldLength (txt "errors", .arr [brokenError]) = 72 := by
    rw [fieldLength_eq, length_render_single, brokenError, length_render_fields]
    decide
  have hbudget : fieldLength (txt "effective_budget", effectiveBudget brokenTree.symbolMap.budget) ≤ 80 := by
    rw [fieldLength_eq, effectiveBudget, length_render_fields]
    decide
  have hcounts : fieldLength (txt "scanned_files", natJson n) + fieldLength (txt "next_offset", natJson (i + 1)) ≤ 50 := by
    have hscanned := length_decimal_le n
    have hnext := length_decimal_le (i + 1)
    have hnames : (quoted (txt "scanned_files")).length = 15 ∧ (quoted (txt "next_offset")).length = 13 := by decide
    rw [fieldLength_eq, fieldLength_eq, length_natJson, length_natJson, hnames.1, hnames.2]
    omega
  have hplain : fieldLength (txt "success", .bool true) + (fieldLength (txt "path", .str (txt "/srv")) +
      (fieldLength (txt "language", .str (txt "python")) + (fieldLength (txt "complete", .bool false) +
      (fieldLength (txt "partial", .bool true) + (fieldLength (txt "truncated", .bool true) +
      (fieldLength (txt "stop_reason", .str (txt "token_budget")) + fieldLength (txt "estimated_tokens", natJson 0))))))) ≤ 160 := by decide
  rw [hfields, length_render_fields]
  simp only [List.map_cons, List.map_nil, List.sum_cons, List.sum_nil, List.length_cons, List.length_nil]
  omega

theorem not_fits_twenty (items : List Json) (start scanned : ℕ) :
    ¬Fits perCharacter brokenTree.symbolMap start items (List.replicate 20 brokenError) scanned := by
  have hlong : fitsReply perCharacter brokenTree.symbolMap.budget (brokenTree.symbolMap.fields items (List.replicate 20 brokenError) scanned
      (some (start + items.length))) true (txt "token_budget") = false := by
    refine not_fits_of_longer fun d hd => ?_
    have herrors : dictGet (txt "errors") d = some (.arr (List.replicate 20 brokenError)) := hd (txt "errors") (by decide)
    have hlonger := length_field_lt herrors
    have hone : (render brokenError).length = 61 := by
      rw [brokenError, length_render_fields]
      decide
    have hall : 1000 ≤ (render (.arr (List.replicate 20 brokenError))).length := by
      rw [length_render_arr, length_joinCommas]
      simp only [List.replicate, renderItems, List.map_cons, List.map_nil, List.sum_cons, List.sum_nil, hone]
      omega
    have hbudget : (brokenTree.symbolMap.budget.maxTokens : ℕ) = 1000 := rfl
    omega
  exact fun hfits => Bool.false_ne_true (hlong.symm.trans hfits)

/-- Each error fits together with the symbol, but the errors of all files hide it. -/
theorem broken_files_hide_symbol :
    (∀ c ∈ brokenTree.symbolMap.steps, ∀ e ∈ c.errors, ∀ j ∈ brokenTree.symbols, ∀ i ≤ 1,
      Fits perCharacter brokenTree.symbolMap i [j] [e] c.scanned) ∧
      ¬Enumerates (pager (txt "symbols") (codeMapSymbols perCharacter brokenTree)) brokenTree.symbols := by
  have hitems : brokenTree.symbolMap.items = brokenTree.symbols := List.flatMap_map ..
  constructor
  · intro c hc e he j hj i hi
    obtain ⟨hscanned, herrors⟩ := step_bounds hc
    have hbroken : e = brokenError := by
      have hfile := (herrors e he).resolve_left List.not_mem_nil
      simpa [SourceTree.symbolMap, brokenTree, Source.scan] using hfile
    have hmain : j = mainSymbol := by
      simpa [SourceTree.symbols, brokenTree, Source.scan, Scan.items] using hj
    have hclean : CleanPayload (brokenTree.symbolMap.fields [mainSymbol] [brokenError] c.scanned (some (i + 1))) := by
      have hbenign : ∀ j ∈ [mainSymbol, brokenError], (strings j).all isBenign = true := by decide
      have hone : ∀ j ∈ [mainSymbol, brokenError], CleanJson j := fun j hj t ht =>
        measurable_of_isBenign (List.all_eq_true.mp (hbenign j hj) t ht)
      refine fields_clean_iff.mpr ⟨measurable_of_isBenign (by decide), ?_, ?_⟩
      · exact List.forall_mem_singleton.mpr (hone _ (by simp))
      · exact List.forall_mem_singleton.mpr (hone _ (by simp))
    have hkeys : (keys (brokenTree.symbolMap.fields [mainSymbol] [brokenError] c.scanned (some (i + 1)))).Nodup := by
      have hall : [txt "success", txt "path", txt "language", txt "symbols", txt "scanned_files", txt "errors", txt "next_offset"].Nodup := by
        decide
      exact hall
    have hroom : 2 * (479 + 21) ≤ (brokenTree.symbolMap.budget.maxTokens : ℕ) := Nat.le_refl 1000
    rw [hbroken, hmain]
    exact fits_of_room hroom rfl hkeys hclean (measurable_of_isBenign (by decide)) (length_pair hi hscanned)
  · intro h
    rw [← hitems] at h
    have hroom : RoomForErrors perCharacter brokenTree.symbolMap := room_of_enumerates h
    have hitem : IsItem brokenTree.symbolMap 0 (brokenTree.symbolMap.steps.take 21)
        ⟨List.replicate 20 brokenError, 21, some mainSymbol⟩ [] := ⟨rfl, Option.some_ne_none _, rfl⟩
    have hinit : brokenTree.symbolMap.steps.take 20 ++ [⟨List.replicate 20 brokenError, 21, none⟩] <+:
        brokenTree.symbolMap.steps.take 21 ++ [⟨List.replicate 20 brokenError, 21, some mainSymbol⟩] := ⟨[_], rfl⟩
    have hcheck := (hroom.shown 0 _ _ _ hitem).passes hinit
    cases hcheck with
    | inl hnone => exact List.cons_ne_nil _ _ hnone
    | inr hfits => exact not_fits_twenty _ _ _ hfits

end WebOauthMcp.CodeMapPaging
