import WebOauthMcp.FormEncoding

/-!
# The consent page

The page that asks for the login token carries the parameters of the request in hidden
inputs. Reading the inputs as a browser does and submitting them gives the parameters back.
-/

namespace WebOauthMcp.ConsentPage
open CodePoints Utf8Units FormEncoding
open JsonDecoding (dictOf getField setField)

/-! ## The page -/

def escapeChar (c : CodePoint) : Text :=
  if c.val = 0x26 then txt "&amp;"
  else if c.val = 0x3C then txt "&lt;"
  else if c.val = 0x3E then txt "&gt;"
  else if c.val = 0x22 then txt "&quot;"
  else if c.val = 0x27 then txt "&#x27;"
  else [c]

/-- `html.escape`. -/
def escape (t : Text) : Text := t.flatMap escapeChar

def hiddenInput (f : Text × Text) : Text :=
  txt "<input type=\"hidden\" name=\"" ++ (escape f.1 ++ (txt "\" value=\"" ++ (escape f.2 ++ txt "\">")))

def newline : CodePoint := 0x0A

def hiddenInputs (payload : List (Text × Text)) : Text := List.intercalate [newline] (payload.map hiddenInput)

/-- The page up to its hidden inputs. -/
def pageHead : Text :=
  txt (
    "<!doctype html>\n" ++
    "<html>\n" ++
    "  <head><meta charset=\"utf-8\"><title>Authorize chatgpt-web-oauth-mcp</title></head>\n" ++
    "  <body>\n" ++
    "    <main style=\"font-family: system-ui; max-width: 480px; margin: 48px auto;\">\n" ++
    "      <h1>Authorize local MCP access</h1>\n" ++
    "      <p>Enter your local ops token to let this ChatGPT session call the MCP server.</p>\n" ++
    "      <form id=\"oauth-authorize-form\" method=\"post\" action=\"/oauth/authorize\">\n" ++
    "        ")

/-- The page after its hidden inputs. -/
def pageTail : Text :=
  newline :: (txt "        " ++ txt (
    "<label>Token <input id=\"oauth-login-token\" name=\"login_token\" type=\"password\" autocomplete=\"current-password\" autofocus></label>\n" ++
    "        <button type=\"submit\">Authorize</button>\n" ++
    "      </form>\n" ++
    "    </main>\n" ++
    "    <script>\n" ++
    "      (function () \x7b\n" ++
    "        var storageKey = \"chatgpt-web-oauth-mcp.oauth.login_token\";\n" ++
    "        var requiredFields = [\n" ++
    "          \"client_id\",\n" ++
    "          \"redirect_uri\",\n" ++
    "          \"response_type\",\n" ++
    "          \"resource\",\n" ++
    "          \"code_challenge\",\n" ++
    "          \"code_challenge_method\"\n" ++
    "        ];\n" ++
    "        var form = document.getElementById(\"oauth-authorize-form\");\n" ++
    "        var tokenInput = document.getElementById(\"oauth-login-token\");\n" ++
    "\n" ++
    "        function readStoredToken() \x7b\n" ++
    "          try \x7b\n" ++
    "            return window.localStorage.getItem(storageKey) || \"\";\n" ++
    "          \x7d catch (error) \x7b\n" ++
    "            return \"\";\n" ++
    "          \x7d\n" ++
    "        \x7d\n" ++
    "\n" ++
    "        function saveToken(token) \x7b\n" ++
    "          try \x7b\n" ++
    "            if (token) \x7b\n" ++
    "              window.localStorage.setItem(storageKey, token);\n" ++
    "            \x7d\n" ++
    "          \x7d catch (error) \x7b\n" ++
    "            // Some browser privacy modes block localStorage; normal form auth still works.\n" ++
    "          \x7d\n" ++
    "        \x7d\n" ++
    "\n" ++
    "        function hasCompleteOAuthRequest() \x7b\n" ++
    "          return requiredFields.every(function (name) \x7b\n" ++
    "            return Boolean(form.querySelector('input[name=\"' + name + '\"]'));\n" ++
    "          \x7d);\n" ++
    "        \x7d\n" ++
    "\n" ++
    "        if (!form || !tokenInput) \x7b\n" ++
    "          return;\n" ++
    "        \x7d\n" ++
    "\n" ++
    "        form.addEventListener(\"submit\", function () \x7b\n" ++
    "          saveToken(tokenInput.value);\n" ++
    "        \x7d);\n" ++
    "\n" ++
    "        var storedToken = readStoredToken();\n" ++
    "        if (storedToken && !tokenInput.value) \x7b\n" ++
    "          tokenInput.value = storedToken;\n" ++
    "        \x7d\n" ++
    "        if (storedToken && hasCompleteOAuthRequest()) \x7b\n" ++
    "          window.setTimeout(function () \x7b\n" ++
    "            if (form.requestSubmit) \x7b\n" ++
    "              form.requestSubmit();\n" ++
    "            \x7d else \x7b\n" ++
    "              form.submit();\n" ++
    "            \x7d\n" ++
    "          \x7d, 0);\n" ++
    "        \x7d\n" ++
    "      \x7d)();\n" ++
    "    </script>\n" ++
    "  </body>\n" ++
    "</html>"))

/-- `authorize_page`. -/
def authorizePage (payload : List (Text × Text)) : Text := pageHead ++ (hiddenInputs payload ++ pageTail)

/-! ## How a browser reads it -/

def references : List (Text × CodePoint) :=
  [(txt "&amp;", 0x26), (txt "&lt;", 0x3C), (txt "&gt;", 0x3E), (txt "&quot;", 0x22), (txt "&#x27;", 0x27)]

/-- `skip` characters still belong to the reference already read. -/
def unescapeAfter : ℕ → Text → Text
  | _, [] => []
  | skip + 1, _ :: t => unescapeAfter skip t
  | 0, c :: t =>
    match references.find? fun r => r.1.isPrefixOf (c :: t) with
    | some r => r.2 :: unescapeAfter (r.1.length - 1) t
    | none => c :: unescapeAfter 0 t

def quoteMark : CodePoint := 0x22

/-- `t` without `piece` in front. -/
def expect (piece t : Text) : Option Text := if piece.isPrefixOf t then some (t.drop piece.length) else none

/-- An attribute value ends at the next quote. -/
def readValue (t : Text) : Option (Text × Text) :=
  match t.dropWhile fun c => c != quoteMark with
  | [] => none
  | _ :: rest => some (unescapeAfter 0 (t.takeWhile fun c => c != quoteMark), rest)

def readInput (t : Text) : Option ((Text × Text) × Text) := do
  let t ← expect (txt "<input type=\"hidden\" name=\"") t
  let (name, t) ← readValue t
  let t ← expect (txt " value=\"") t
  let (value, t) ← readValue t
  let t ← expect (txt ">") t
  some ((name, value), t)

/-- The hidden inputs in front of a text, a line each. -/
def readInputs : ℕ → Text → List (Text × Text)
  | 0, _ => []
  | n + 1, t =>
    match readInput t with
    | none => []
    | some (field, rest) => field :: readInputs n (rest.drop 1)

def formFields (page : Text) : List (Text × Text) := readInputs page.length (page.drop pageHead.length)

def loginTokenKey : Text := txt "login_token"

/-- The form with the token the user typed, which comes last in it. -/
def submitted (safe : SafeOctets) (page typed : Text) : Text :=
  encodeForm safe (formFields page ++ [(loginTokenKey, typed)])

/-! ## Reading the page back -/

theorem unescapeAfter_escapeChar (c : CodePoint) (t : Text) : unescapeAfter 0 (escapeChar c ++ t) = c :: unescapeAfter 0 t := by
  rw [escapeChar]
  split_ifs with hamp hlt hgt hquote hsingle
  · obtain rfl : c = 0x26 := Fin.ext hamp
    rfl
  · obtain rfl : c = 0x3C := Fin.ext hlt
    rfl
  · obtain rfl : c = 0x3E := Fin.ext hgt
    rfl
  · obtain rfl : c = 0x22 := Fin.ext hquote
    rfl
  · obtain rfl : c = 0x27 := Fin.ext hsingle
    rfl
  · have hnone : references.find? (fun r => r.1.isPrefixOf (c :: t)) = none := by
      apply List.find?_eq_none.mpr
      intro r hr hprefix
      have hhead : ∀ r ∈ references, r.1.head? = some 0x26 := by decide
      obtain ⟨rest, hrest⟩ := List.isPrefixOf_iff_prefix.mp hprefix
      rcases hcs : r.1 with _ | ⟨d, ds⟩
      · exact absurd (hhead r hr) (by simp [hcs])
      · have hd := hhead r hr
        rw [hcs] at hd hrest
        exact hamp (by rw [← (List.cons.inj hrest).1, Option.some.inj hd]; rfl)
    rw [List.singleton_append, unescapeAfter, hnone]

theorem unescape_escape (t : Text) : unescapeAfter 0 (escape t) = t := by
  induction t with
  | nil => rfl
  | cons c t ih => rw [escape, List.flatMap_cons, unescapeAfter_escapeChar, ← escape, ih]

/-- No character of an escaped text ends an attribute value. -/
theorem escape_noQuote (t : Text) : ∀ c ∈ escape t, (c != quoteMark) = true := by
  intro c hc
  obtain ⟨d, -, hd⟩ := List.mem_flatMap.mp hc
  have hliteral : ∀ s : Text, s.all (fun c => c != quoteMark) = true → c ∈ s → (c != quoteMark) = true := fun s hs hmem =>
    List.all_eq_true.mp hs c hmem
  rw [escapeChar] at hd
  split_ifs at hd with hamp hlt hgt hquote hsingle
  · exact hliteral _ (by decide) hd
  · exact hliteral _ (by decide) hd
  · exact hliteral _ (by decide) hd
  · exact hliteral _ (by decide) hd
  · exact hliteral _ (by decide) hd
  · rw [List.mem_singleton.mp hd]
    exact bne_iff_ne.mpr fun h => hquote (congrArg Fin.val h)

theorem expect_append (piece rest : Text) : expect piece (piece ++ rest) = some rest := by
  rw [expect, if_pos (List.isPrefixOf_iff_prefix.mpr (List.prefix_append piece rest)), List.drop_left]

theorem readValue_escape (t rest : Text) : readValue (escape t ++ quoteMark :: rest) = some (t, rest) := by
  have hfront := escape_noQuote t
  have hstop : ¬(quoteMark != quoteMark) = true := by simp
  rw [readValue, List.dropWhile_append_of_pos hfront, List.dropWhile_cons_of_neg (p := fun c => c != quoteMark) hstop,
    List.takeWhile_append_of_pos hfront, List.takeWhile_cons_of_neg (p := fun c => c != quoteMark) hstop, List.append_nil, unescape_escape]

/-- Whatever the texts of a parameter are, its input is read as this parameter. -/
theorem readInput_hiddenInput (f : Text × Text) (rest : Text) : readInput (hiddenInput f ++ rest) = some (f, rest) := by
  have hmiddle : ∀ s, txt "\" value=\"" ++ s = quoteMark :: (txt " value=\"" ++ s) := fun _ => rfl
  have hend : ∀ s, txt "\">" ++ s = quoteMark :: (txt ">" ++ s) := fun _ => rfl
  simp only [hiddenInput, List.append_assoc, List.cons_append, readInput, hmiddle, hend, expect_append, readValue_escape, Option.bind_eq_bind,
    Option.bind_some]

theorem readInput_newline (t : Text) : readInput (newline :: t) = none := rfl

theorem readInput_blank (t : Text) : readInput (txt "        " ++ t) = none := rfl

theorem readInputs_page {n : ℕ} {payload : List (Text × Text)} (h : payload.length < n) :
    readInputs n (hiddenInputs payload ++ pageTail) = payload := by
  induction payload generalizing n with
  | nil =>
    obtain ⟨n, rfl⟩ := Nat.exists_eq_add_of_lt h
    rfl
  | cons f fs ih =>
    rcases n with _ | n
    · exact absurd h (Nat.not_lt_zero _)
    · have hlater : fs.length < n := Nat.succ_lt_succ_iff.mp h
      rcases fs with _ | ⟨g, gs⟩
      · rcases n with _ | n
        · exact absurd hlater (Nat.not_lt_zero _)
        · simp only [hiddenInputs, List.map_cons, List.map_nil, List.intercalate_singleton, readInputs, readInput_hiddenInput,
            pageTail, List.drop_one, List.tail_cons, readInput_blank]
      · have hnext : hiddenInputs (f :: g :: gs) ++ pageTail = hiddenInput f ++ (newline :: (hiddenInputs (g :: gs) ++ pageTail)) := by
          simp [hiddenInputs, List.intercalate]
        rw [hnext, readInputs, readInput_hiddenInput]
        simp only [List.drop_one, List.tail_cons]
        rw [ih hlater]

theorem length_le_inputs (payload : List (Text × Text)) : payload.length ≤ (hiddenInputs payload).length := by
  have hpos : ∀ f, 1 ≤ (hiddenInput f).length := fun f => Nat.succ_pos _
  induction payload with
  | nil => exact Nat.le_refl 0
  | cons f fs ih =>
    rcases fs with _ | ⟨g, gs⟩
    · simpa [hiddenInputs, List.intercalate] using hpos f
    · have hnext : hiddenInputs (f :: g :: gs) = hiddenInput f ++ (newline :: hiddenInputs (g :: gs)) := by
        simp [hiddenInputs, List.intercalate]
      rw [hnext, List.length_append, List.length_cons (a := newline), List.length_cons (a := f)]
      omega

theorem length_payload_lt (payload : List (Text × Text)) : payload.length < (authorizePage payload).length := by
  have htail : 0 < pageTail.length := List.length_pos_of_ne_nil (List.cons_ne_nil newline _)
  have hinputs := length_le_inputs payload
  rw [authorizePage, List.length_append, List.length_append]
  omega

/-- The form of the page holds the parameters of the request, whatever texts they are. -/
theorem formFields_page (payload : List (Text × Text)) : formFields (authorizePage payload) = payload := by
  rw [formFields, authorizePage, List.drop_left]
  exact readInputs_page (length_payload_lt payload)

/-! ## What is submitted -/

section
variable {α : Type} {fields : List (Text × α)}

theorem mem_setField_iff {f g : Text × α} : g ∈ setField fields f ↔ g = f ∨ g.1 ≠ f.1 ∧ g ∈ fields := by
  rw [setField]
  by_cases hany : (fields.any fun g => decide (g.1 = f.1)) = true
  · rw [if_pos hany, List.mem_map]
    constructor
    · rintro ⟨e, he, rfl⟩
      split_ifs with hkey
      · exact .inl rfl
      · exact .inr ⟨hkey, he⟩
    · rintro (rfl | ⟨hkey, hg⟩)
      · obtain ⟨e, he, hkey⟩ := List.any_eq_true.mp hany
        exact ⟨e, he, if_pos (of_decide_eq_true hkey)⟩
      · exact ⟨g, hg, if_neg hkey⟩
  · rw [if_neg hany, List.mem_append, List.mem_singleton]
    constructor
    · rintro (hg | rfl)
      · exact .inr ⟨fun hkey => hany (List.any_eq_true.mpr ⟨g, hg, decide_eq_true hkey⟩), hg⟩
      · exact .inl rfl
    · rintro (rfl | ⟨-, hg⟩)
      · exact .inr rfl
      · exact .inl hg

theorem getField_setField (h : (fields.map Prod.fst).Nodup) (f : Text × α) (key : Text) :
    getField key (setField fields f) = if key = f.1 then some f.2 else getField key fields := by
  ext a
  rw [JsonDecoding.getField_eq_some_iff (JsonDecoding.nodup_setField h f), mem_setField_iff]
  split_ifs with hkey
  · simp [Prod.ext_iff, hkey, eq_comm]
  · rw [JsonDecoding.getField_eq_some_iff h]
    simp [Prod.ext_iff, hkey]

/-- The last value of a key wins. -/
theorem getField_dictOf_append (fs : List (Text × α)) (f : Text × α) (key : Text) :
    getField key (dictOf (fs ++ [f])) = if key = f.1 then some f.2 else getField key (dictOf fs) := by
  rw [dictOf, List.foldl_append]
  exact getField_setField (JsonDecoding.nodup_dictOf fs) f key

end

theorem isEncodable_plusToSpace {t : Text} (h : isEncodable t = true) : isEncodable (t.map plusToSpace) = true := by
  rw [isEncodable_iff] at h ⊢
  intro c hc
  obtain ⟨d, hd, rfl⟩ := List.mem_map.mp hc
  rw [plusToSpace]
  split_ifs
  · decide
  · exact h d hd

theorem isEncodable_unquotePlus {t : Text} (h : isEncodable t = true) : isEncodable (unquotePlus t) = true := by
  have hspaced := (isEncodable_iff _).mp (isEncodable_plusToSpace h)
  rw [unquotePlus, unquote, isEncodable_iff]
  intro c hc
  obtain ⟨run, hrun, hmem⟩ := List.mem_flatMap.mp hc
  split_ifs at hmem
  · exact (isEncodable_iff _).mp (isEncodable_decodeReplace _) c hmem
  · apply hspaced c
    rw [← List.flatten_splitBy (fun c d => isAsciiChar c == isAsciiChar d) (t.map plusToSpace)]
    exact List.mem_flatten.mpr ⟨run, hrun, hmem⟩

theorem mem_of_mem_piece {t p : Text} {a c : CodePoint} (hp : p ∈ t.splitOn a) (hc : c ∈ p) : c ∈ t := by
  induction t generalizing p with
  | nil => simp_all
  | cons d t ih =>
    rw [List.splitOn_cons_eq_if_modifyHead] at hp
    split_ifs at hp
    · rcases List.mem_cons.mp hp with rfl | hp
      · exact absurd hc List.not_mem_nil
      · exact List.mem_cons_of_mem d (ih hp hc)
    · rcases hsplit : t.splitOn a with _ | ⟨q, qs⟩
      · exact absurd hsplit (List.splitOn_ne_nil a t)
      · rw [hsplit] at hp ih
        rcases List.mem_cons.mp hp with rfl | hp
        · exact List.mem_cons.mpr ((List.mem_cons.mp hc).imp_right (ih List.mem_cons_self))
        · exact List.mem_cons_of_mem d (ih (List.mem_cons_of_mem q hp) hc)

/-- What is parsed from text that can be encoded can be encoded. -/
theorem isEncodable_parseQsl {t : Text} (h : isEncodable t = true) :
    ∀ f ∈ parseQsl t, isEncodable f.1 = true ∧ isEncodable f.2 = true := by
  intro f hf
  obtain ⟨p, hp, rfl⟩ := List.mem_map.mp hf
  have hpart : isEncodable p = true :=
    isEncodable_sublist (fun c hc => mem_of_mem_piece (List.mem_filter.mp hp).1 hc) h
  constructor
  · exact isEncodable_unquotePlus (isEncodable_sublist (fun c hc => (List.takeWhile_prefix _).subset hc) hpart)
  · exact isEncodable_unquotePlus (isEncodable_sublist
      (fun c hc => (List.dropWhile_suffix _).subset ((List.drop_suffix _ _).subset hc)) hpart)

theorem isEncodable_loginTokenKey : isEncodable loginTokenKey = true := by decide

/-- The consent page passes the request on: what is submitted with the typed token has the parameters of
the query, whatever texts they are and whatever octets the encoder keeps, and the typed token as its login
token, even if the query has one of its own. -/
theorem submitted_page (safe : SafeOctets) {query typed : Text} (hquery : isEncodable query = true)
    (htyped : isEncodable typed = true) (key : Text) :
    getField key (dictOf (parseQsl (submitted safe (authorizePage (dictOf (parseQsl query))) typed))) =
      if key = loginTokenKey then some typed else getField key (dictOf (parseQsl query)) := by
  have hfields : ∀ f ∈ dictOf (parseQsl query) ++ [(loginTokenKey, typed)], isEncodable f.1 = true ∧ isEncodable f.2 = true := by
    intro f hf
    rcases List.mem_append.mp hf with hparam | htoken
    · exact isEncodable_parseQsl hquery f (JsonDecoding.mem_dictOf hparam)
    · rw [List.mem_singleton.mp htoken]
      exact ⟨isEncodable_loginTokenKey, htyped⟩
  rw [submitted, formFields_page, parseQsl_encodeForm safe hfields, getField_dictOf_append,
    JsonDecoding.dictOf_nodup (JsonDecoding.nodup_dictOf (parseQsl query))]

/-- Forms are ASCII. -/
theorem isEncodable_submitted (safe : SafeOctets) (page typed : Text) : isEncodable (submitted safe page typed) = true := by
  apply isEncodable_of_isAscii
  simp only [isAscii, List.all_eq_true, decide_eq_true_eq]
  exact encodeForm_ascii safe _

end WebOauthMcp.ConsentPage
