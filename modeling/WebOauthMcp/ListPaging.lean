import WebOauthMcp.SearchPaging

/-!
# Following the offsets of a listing

A listing fills its page as a collector does, but measures the finished page from the start.
-/

namespace WebOauthMcp.ListPaging
open CodePoints JsonText ExceptSteps ResponseBudget BudgetMetadata FileReplies OffsetPaging ReplyOffsets ReplyFields SearchPaging

variable {enc : TokenEncoding} {l : Listing} {maxTokens : ℕ+}

/-- The page with these entries fits as a candidate. -/
def EntriesFit (enc : TokenEncoding) (l : Listing) (maxTokens : ℕ+) (start : ℕ) (entries : List ListedEntry) : Prop :=
  fitsReply enc { maxTokens } (listPayload l entries (some (start + entries.length))) true (txt "token_budget") = true

theorem takeEntries_reaches {start limit : ℕ} {records entries : List ListedEntry} {page : ListPage}
    (hwithin : limit ≠ 0 → entries.length ≤ limit)
    (h : takeEntries enc { maxTokens } l start limit entries.length records entries = .ok page) : ∃ k e,
      Reaches (fun k => EntriesFit enc l maxTokens start (entries ++ records.take k)) limit entries.length records.length k e ∧
        page.entries = entries ++ records.take k ∧ page.truncated = e.truncated := by
  induction records generalizing entries with
  | nil =>
    cases Except.ok.inj h
    exact ⟨0, .exhausted, ⟨Nat.le_refl 0, fun j hj => absurd hj (Nat.not_lt_zero j), hwithin, rfl⟩, (List.append_nil _).symm, rfl⟩
  | cons record records ih =>
    rw [takeEntries] at h
    split at h
    · next hlimit =>
      cases Except.ok.inj h
      exact ⟨0, .limit, ⟨Nat.zero_le _, fun j hj => absurd hj (Nat.not_lt_zero j), hwithin, ⟨Nat.succ_pos _, hlimit.1, hlimit.2⟩⟩,
        (List.append_nil _).symm, rfl⟩
    · next hlimit =>
      have hroom : limit ≠ 0 → entries.length < limit := fun hne => Nat.lt_of_not_le fun hle => hlimit ⟨hne, hle⟩
      obtain ⟨candidate, hcandidate, h⟩ := bind_eq_ok.mp h
      have hlength : (entries ++ [record]).length = entries.length + 1 := by rw [List.length_append, List.length_singleton]
      have hone : EntriesFit enc l maxTokens start (entries ++ [record]) ↔ candidate.2.fits = true := by
        rw [EntriesFit, hlength, ← fitsReply_of_ok hcandidate, Nat.add_assoc]
      split at h
      · next hfits =>
        rw [← hlength] at h
        obtain ⟨k, e, hreach, hentries, htruncated⟩ := ih (fun hne => hlength ▸ hroom hne) h
        rw [hlength] at hreach
        have hshift : ∀ j, entries ++ (record :: records).take (j + 1) = entries ++ [record] ++ records.take j := fun j => by
          rw [List.take_succ_cons, List.append_cons]
        refine ⟨k + 1, e, ⟨Nat.succ_le_succ hreach.le, fun j hj => ?_, fun hne => ?_, ?_⟩, ?_, htruncated⟩
        · rw [hshift]
          cases j with
          | zero =>
            rw [List.take_zero, List.append_nil]
            exact hone.mpr hfits
          | succ j => exact hreach.fitted j (Nat.lt_of_succ_lt_succ hj)
        · have hle := hreach.within hne
          omega
        · have hending := hreach.ending
          cases e with
          | exhausted => exact congrArg Nat.succ hending
          | limit => exact ⟨Nat.succ_lt_succ hending.1, hending.2.1, by omega⟩
          | budget =>
            refine ⟨Nat.succ_lt_succ hending.1, ?_, fun hne => by have := hending.2.2 hne; omega⟩
            rw [hshift]
            exact hending.2.1
        · rw [hentries, hshift]
      · next hfits =>
        cases Except.ok.inj h
        refine ⟨0, .budget, ⟨Nat.zero_le _, fun j hj => absurd hj (Nat.not_lt_zero j), hwithin, Nat.succ_pos _, ?_, hroom⟩,
          (List.append_nil _).symm, rfl⟩
        exact fun hfit => hfits (hone.mp hfit)

variable (enc l maxTokens) in
/-- The page that begins with `k` records at an offset fits as a candidate. -/
def RecordsFit (i k : ℕ) : Prop := EntriesFit enc l maxTokens i ((l.records.drop i).take k)

/-- What a listing returns. -/
theorem listFiles_spec {i limit : ℕ} {d : Dict} (h : listFiles enc l i limit maxTokens = .ok d) : ∃ k e,
    Reaches (RecordsFit enc l maxTokens i) limit 0 (l.records.length - i) k e ∧ ∃ r,
      withBudgetMetadata enc (listPayload l ((l.records.drop i).take k) (if e.truncated then some (i + k) else none)) { maxTokens }
        e.truncated e.reason = .ok r ∧ d = r.1 := by
  obtain ⟨page, hpage, h⟩ := bind_eq_ok.mp h
  have hstart : takeEntries enc { maxTokens } l i limit ([] : List ListedEntry).length (l.records.drop i) [] = .ok page := hpage
  obtain ⟨k, e, hreach, hentries, htruncated⟩ := takeEntries_reaches (fun _ => Nat.zero_le _) hstart
  have hentries : page.entries = (l.records.drop i).take k := hentries
  have hreach : Reaches (RecordsFit enc l maxTokens i) limit 0 (l.records.length - i) k e := by
    rw [← List.length_drop]
    exact hreach
  have hle := hreach.le
  have hcount : page.entries.length = k := by
    rw [hentries, List.length_take, List.length_drop]
    exact Nat.min_eq_left hle
  have hflag : (page.truncated || decide (i + page.entries.length < l.records.length)) = e.truncated := by
    have hending := hreach.ending
    rw [htruncated, hcount]
    cases e with
    | exhausted =>
      have hall : k = l.records.length - i := hending
      have hend : ¬i + k < l.records.length := by omega
      rw [decide_eq_false hend]
      rfl
    | limit => rfl
    | budget => rfl
  have hreason : (if e.truncated = true then if limit = 0 ∨ page.entries.length < limit then txt "token_budget" else txt "limit"
      else txt "end_of_results") = e.reason := by
    have hending := hreach.ending
    rw [hcount]
    cases e with
    | exhausted => rfl
    | limit =>
      have hfull : ¬(limit = 0 ∨ k < limit) := by
        have hne := hending.2.1
        have hreached := hending.2.2
        omega
      exact if_neg hfull
    | budget =>
      have hfree : limit = 0 ∨ k < limit := by
        by_cases hzero : limit = 0
        · exact .inl hzero
        · have hless := hending.2.2 hzero
          exact .inr (by omega)
      exact if_pos hfree
  simp only [hflag, hreason] at h
  obtain ⟨r, hr, h⟩ := bind_eq_ok.mp h
  rw [hcount, hentries] at hr
  exact ⟨k, e, hreach, r, hr, (Except.ok.inj h).symm⟩

theorem entries_notContract : txt "entries" ∉ contractKeys := by decide

/-- The items and the offset of that reply. -/
theorem listReply_shows {entries : List ListedEntry} {next : Option ℕ} {truncated : Bool} {reason : Text} {budget : Budget}
    {r : Dict × BudgetMeasurement} (h : withBudgetMetadata enc (listPayload l entries next) budget truncated reason = .ok r) :
    shownItems (txt "entries") r.1 = entries.map entryPayload ∧ nextOffsetOf r.1 = next := by
  refine ⟨(shownItems_reply entries_notContract h).trans rfl, (nextOffsetOf_reply h).trans ?_⟩
  exact countOf_optionalCount next

/-- All texts can be rendered, and each entry fits alone on the page that begins with it. -/
structure ListRoomy (enc : TokenEncoding) (l : Listing) (maxTokens : ℕ+) : Prop where
  base : l.CleanBase
  entries : ∀ e ∈ l.records, e.Clean
  first : ∀ i < l.records.length, RecordsFit enc l maxTokens i 1

theorem listFiles_serves (hroom : ListRoomy enc l maxTokens) {i limit : ℕ} {d : Dict} (h : listFiles enc l i limit maxTokens = .ok d)
    (hi : i ≤ l.records.length) : Serves (l.records.map entryPayload) i ⟨shownItems (txt "entries") d, nextOffsetOf d⟩ := by
  obtain ⟨k, e, hreach, r, hr, rfl⟩ := listFiles_spec h
  obtain ⟨hitems, hnext⟩ := listReply_shows hr
  have hle := hreach.le
  have hlength : (((l.records.drop i).take k).map entryPayload).length = k := by
    rw [List.length_map, List.length_take, List.length_drop]
    exact Nat.min_eq_left hle
  rw [hitems, hnext]
  refine ⟨?_, ?_, fun hlt hnil => ?_⟩
  · rw [List.map_take, List.map_drop]
    exact List.take_prefix _ _
  · rw [hlength, List.length_map]
    have hending := hreach.ending
    cases e with
    | exhausted =>
      have hall : k = l.records.length - i := hending
      have hend : ¬i + k < l.records.length := by omega
      exact (if_neg hend).symm
    | limit =>
      have hless := hending.1
      have hmore : i + k < l.records.length := by omega
      exact (if_pos hmore).symm
    | budget =>
      have hless := hending.1
      have hmore : i + k < l.records.length := by omega
      exact (if_pos hmore).symm
  · rw [List.length_map] at hlt
    have hpos := hreach.pos (Nat.sub_pos_of_lt hlt) (hroom.first i hlt)
    have hnone : ((l.records.drop i).take k).map entryPayload = [] := hnil
    rw [hnone] at hlength
    exact absurd hlength (Nat.ne_of_lt hpos)

theorem listFiles_paged (hroom : ListRoomy enc l maxTokens) :
    Paged (txt "entries") (fun limit i => listFiles enc l i limit maxTokens) (l.records.map entryPayload) := by
  have hreply := (listFiles_returns_iff enc l).mpr ⟨hroom.base, hroom.entries⟩
  refine ⟨enumerates_of_serves fun limit i hi => ?_, fun limit i => ?_⟩
  · obtain ⟨d, hd⟩ := hreply i limit maxTokens
    refine ⟨_, ?_, listFiles_serves hroom hd (List.length_map entryPayload ▸ hi)⟩
    dsimp only
    rw [hd]
    rfl
  · obtain ⟨d, hd⟩ := hreply i limit maxTokens
    refine ⟨d, hd, fun htruncated => ?_⟩
    obtain ⟨k, e, hreach, r, hr, rfl⟩ := listFiles_spec hd
    obtain ⟨-, hnext⟩ := listReply_shows hr
    have hending := hreach.ending
    cases e with
    | exhausted =>
      refine .inr ⟨hnext, ?_⟩
      cases reply_flags hr with
      | inl hflags => exact absurd (htruncated.symm.trans hflags.1) (by decide)
      | inr hflags => exact hflags.2
    | limit =>
      have hless := hending.1
      have hpos := hreach.pos (by omega) (hroom.first i (by omega))
      exact .inl ⟨i + k, hnext, by omega⟩
    | budget =>
      have hless := hending.1
      have hpos := hreach.pos (by omega) (hroom.first i (by omega))
      exact .inl ⟨i + k, hnext, by omega⟩

theorem roomy_of_listFiles_paged
    (h : Paged (txt "entries") (fun limit i => listFiles enc l i limit maxTokens) (l.records.map entryPayload)) : ListRoomy enc l maxTokens := by
  have hreply : ∀ i, ∃ d, listFiles enc l i 0 maxTokens = .ok d := fun i => (h.2 0 i).imp fun d hd => hd.1
  refine ⟨?_, fun e he => ?_, fun i hi => ?_⟩
  · obtain ⟨d, hd⟩ := hreply 0
    obtain ⟨k, e, -, r, hr, -⟩ := listFiles_spec hd
    exact ((listPayload_clean_iff l _ _).mp ((withBudgetMetadata_returns_iff enc _ _ _ _).mp ⟨r, hr⟩).1).1
  · obtain ⟨i, hi, rfl⟩ := List.getElem_of_mem he
    obtain ⟨d, hd⟩ := hreply i
    obtain ⟨page, hpage, -⟩ := bind_eq_ok.mp hd
    rw [List.drop_eq_getElem_cons hi, takeEntries, if_neg (by simp)] at hpage
    obtain ⟨candidate, hcandidate, -⟩ := bind_eq_ok.mp hpage
    have hclean := (withBudgetMetadata_returns_iff enc _ _ _ _).mp ⟨candidate, hcandidate⟩
    exact ((listPayload_clean_iff l _ _).mp hclean.1).2 _ (by simp)
  · obtain ⟨d, hd, hprogress⟩ := h.2 0 i
    obtain ⟨k, e, hreach, r, hr, rfl⟩ := listFiles_spec hd
    obtain ⟨-, hnext⟩ := listReply_shows hr
    have hpos : 0 < k := by
      by_contra hzero
      have hnone : k = 0 := Nat.le_zero.mp (Nat.not_lt.mp hzero)
      have hending := hreach.ending
      cases e with
      | exhausted =>
        have hall : k = l.records.length - i := hending
        omega
      | limit => exact hending.2.1 rfl
      | budget =>
        have hflag : truncatedOf r.1 = true := (reply_flags hr).elim (fun hflag => hflag.1) fun hflag => hflag.1
        cases hprogress hflag with
        | inl hsome =>
          obtain ⟨j, hj, hlt⟩ := hsome
          have hsame : i + k = j := Option.some.inj (hnext.symm.trans hj)
          omega
        | inr hnone => exact absurd (hnext.symm.trans hnone.1) (Option.some_ne_none _)
    exact hreach.fitted 0 hpos

/-- A listing and a search are paged without loss, each exactly when there is room on its pages. -/
theorem paged_iff_roomy (enc : TokenEncoding) (l : Listing) (maxTokens : ℕ+) (x : Search) :
    (Paged (txt "entries") (fun limit i => listFiles enc l i limit maxTokens) (l.records.map entryPayload) ↔ ListRoomy enc l maxTokens) ∧
      (Paged x.key (fun limit i => searchPage enc x i limit) x.items ↔ Roomy enc x) :=
  ⟨⟨roomy_of_listFiles_paged, listFiles_paged⟩, ⟨roomy_of_paged, paged_of_roomy⟩⟩

def oneFile : Listing where
  basePath := txt "/srv"
  records := [⟨txt "notes.txt", txt "/srv/notes.txt", false, some 0, none⟩]
  sort := .path
  filterMode := .all
  filesOnly := false
  dirsOnly := false
  includeHidden := false
  respectGitignore := false
  gitignoreApplied := false
  patterns := []

def oneMatch : Search where
  key := txt "matches"
  base := [(txt "success", .bool true)]
  mode := txt "glob"
  query := none
  maxTokens := ⟨1, Nat.one_pos⟩
  items := [.str (txt "/srv/notes.txt")]
  known := by decide
  distinct := by decide
  success := by decide

/-- Where an entry does not fit, its offset is returned for ever. -/
theorem first_entry_repeats :
    ¬Paged (txt "entries") (fun limit i => listFiles perCharacter oneFile i limit ⟨1, Nat.one_pos⟩) (oneFile.records.map entryPayload) ∧
      ¬Paged oneMatch.key (fun limit i => searchPage perCharacter oneMatch i limit) oneMatch.items := by
  refine ⟨fun h => ?_, fun h => ?_⟩
  · have hfit := (roomy_of_listFiles_paged h).first 0 Nat.one_pos
    exact Bool.false_ne_true (not_fits_oneToken.symm.trans hfit)
  · have hfit := (roomy_of_paged h).first 0 Nat.one_pos
    exact Bool.false_ne_true (not_fits_oneToken.symm.trans hfit)

end WebOauthMcp.ListPaging
