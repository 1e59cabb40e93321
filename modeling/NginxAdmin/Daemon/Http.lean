import NginxAdmin.Daemon.StateStore
import NginxAdmin.Lib.Decimal

/-!
# Revisions in HTTP headers (`api.rs`)

`get_state` and `put_state` answer with the revision as an `ETag`, and `put_state` reads the expected revision from
`If-Match`. `ifMatch_round_trip`: a header that carries a revision is read as that revision, and what is read as a
revision is a decimal numeral of it.
-/

namespace NginxAdmin.Daemon

/-- `http::HeaderValue`: no control character but the tab. -/
structure HeaderValue where
  bytes : Bytes
  valid : ∀ b ∈ bytes, b.toNat = 9 ∨ 32 ≤ b.toNat ∧ b.toNat ≠ 127

/-- `HeaderValue::from_str`. -/
def HeaderValue.fromStr (s : String) : Option HeaderValue :=
  if h : (Text.utf8 s).all (fun b => decide (b.toNat = 9 ∨ 32 ≤ b.toNat ∧ b.toNat ≠ 127)) = true then
    some ⟨Text.utf8 s, fun b hb => of_decide_eq_true (List.all_eq_true.1 h b hb)⟩
  else none

/-- `HeaderValue::to_str`: only tabs and visible ASCII characters. -/
def HeaderValue.toStr (v : HeaderValue) : Option String :=
  if v.bytes.all fun b => decide (b.toNat = 9 ∨ 32 ≤ b.toNat ∧ b.toNat < 127) then
    some (String.ofList (v.bytes.map fun b => Char.ofNat b.toNat))
  else none

/-- `HeaderMap`: the values under their names, which are in lower case. -/
abbrev HeaderMap := List (String × HeaderValue)

/-- `parse_if_match`. -/
def parseIfMatch (headers : HeaderMap) : Except DaemonError UInt64 :=
  match headers.lookup "if-match" with
  | none => .error .preconditionRequired
  | some value =>
    match value.toStr with
    | none => .error (.invalidInput "invalid If-Match header")
    | some raw =>
      match Text.parseU64 (Text.trimMatches '"' (Text.trim raw)) with
      | none => .error (.invalidInput "If-Match must be an integer revision")
      | some revision => .ok revision

/-- `etag_for_revision`. -/
def etagForRevision (revision : UInt64) : Except DaemonError HeaderValue :=
  match HeaderValue.fromStr ("\"" ++ toString revision ++ "\"") with
  | none => .error (.internal "invalid ETag value: failed to parse header value")
  | some value => .ok value

/-- The handler of `GET /v1/state`: the `ETag` and the body of the answer. -/
def getStateHandler : Fallible (HeaderValue × ControlPlaneState) := do
  let state ← ExceptT.lift getState
  let etag ← check (etagForRevision state.revision)
  pure (etag, state)

/-- The handler of `PUT /v1/state`. -/
def putStateHandler (serde : Serde) (headers : HeaderMap) (draft : ControlPlaneState) :
    Fallible (HeaderValue × ControlPlaneState) := do
  let expectedRevision ← check (parseIfMatch headers)
  let state ← ExceptT.mk (putState serde expectedRevision draft)
  let etag ← check (etagForRevision state.revision)
  pure (etag, state)

/-- A tab or a visible ASCII character. -/
def Visible (c : Char) : Prop := c.toNat = 9 ∨ 32 ≤ c.toNat ∧ c.toNat < 127

theorem utf8_visible {s : String} (h : ∀ c ∈ s.toList, Visible c) :
    Text.utf8 s = s.toList.map fun c => UInt8.ofNat c.toNat :=
  Text.utf8_ascii fun c hc => by
    have hv := h c hc
    unfold Visible at hv
    omega

theorem toNat_visible {c : Char} (h : Visible c) : (UInt8.ofNat c.toNat).toNat = c.toNat := by
  refine UInt8.toNat_ofNat_of_lt' ?_
  unfold Visible at h
  show c.toNat < 256
  omega

theorem HeaderValue.toStr_of_visible {v : HeaderValue} {s : String} (hv : v.bytes = Text.utf8 s)
    (h : ∀ c ∈ s.toList, Visible c) : v.toStr = some s := by
  have hall : (v.bytes.all fun b => decide (b.toNat = 9 ∨ 32 ≤ b.toNat ∧ b.toNat < 127)) = true := by
    rw [hv, utf8_visible h, List.all_map, List.all_eq_true]
    intro c hc
    rw [Function.comp_apply, toNat_visible (h c hc)]
    exact decide_eq_true (h c hc)
  have hback : (v.bytes.map fun b => Char.ofNat b.toNat) = s.toList := by
    rw [hv, utf8_visible h, List.map_map]
    refine (List.map_congr_left fun c hc => ?_).trans (List.map_id _)
    rw [Function.comp_apply, toNat_visible (h c hc), Char.ofNat_toNat]
    rfl
  rw [HeaderValue.toStr, if_pos hall, hback, String.ofList_toList]

theorem HeaderValue.fromStr_of_visible {s : String} (h : ∀ c ∈ s.toList, Visible c) :
    ∃ v, HeaderValue.fromStr s = some v ∧ v.bytes = Text.utf8 s := by
  have hvalid : (Text.utf8 s).all (fun b => decide (b.toNat = 9 ∨ 32 ≤ b.toNat ∧ b.toNat ≠ 127)) = true := by
    rw [List.all_eq_true]
    intro b hb
    rw [utf8_visible h] at hb
    obtain ⟨c, hc, rfl⟩ := List.mem_map.1 hb
    have hv := h c hc
    rw [toNat_visible hv]
    unfold Visible at hv
    exact decide_eq_true (by omega)
  exact ⟨_, dif_pos hvalid, rfl⟩

/-! ### Revisions -/

theorem isDigit_toString {r : UInt64} {c : Char} (h : c ∈ (toString r).toList) : c.isDigit = true :=
  Nat.isDigit_of_mem_toDigits (by decide) (by decide) (Nat.toList_repr (n := r.toNat) ▸ h)

theorem visible_of_isDigit {c : Char} (h : c.isDigit = true) : Visible c := by
  have hbounds : 48 ≤ c.toNat ∧ c.toNat ≤ 57 := by
    simpa [Char.isDigit, UInt32.le_iff_toNat_le] using h
  exact .inr ⟨by omega, by omega⟩

/-- The two forms of a revision in a header. -/
def revisionTexts (r : UInt64) : List String := ["\"" ++ toString r ++ "\"", toString r]

theorem visible_revisionText {r : UInt64} {text : String} (h : text ∈ revisionTexts r) : ∀ c ∈ text.toList, Visible c := by
  have hplain : ∀ c ∈ (toString r).toList, Visible c := fun c hc => visible_of_isDigit (isDigit_toString hc)
  have hquote : Visible '"' := .inr (by decide)
  rw [revisionTexts, List.mem_cons, List.mem_singleton] at h
  rcases h with rfl | rfl
  · intro c hc
    simp only [String.toList_append, List.mem_append] at hc
    rcases hc with (hc | hc) | hc
    · exact List.mem_singleton.1 hc ▸ hquote
    · exact hplain c hc
    · exact List.mem_singleton.1 hc ▸ hquote
  · exact hplain

theorem toString_ne_nil (r : UInt64) : (toString r).toList ≠ [] :=
  Nat.toList_repr (n := r.toNat) ▸ Nat.toDigits_ne_nil

theorem etagForRevision_eq (r : UInt64) :
    ∃ etag, etagForRevision r = .ok etag ∧ etag.bytes = Text.utf8 ("\"" ++ toString r ++ "\"") := by
  obtain ⟨v, hv, hbytes⟩ := HeaderValue.fromStr_of_visible (visible_revisionText (r := r) List.mem_cons_self)
  exact ⟨v, by rw [etagForRevision, hv], hbytes⟩

/-- Quotes around digits go. -/
theorem trimMatches_revisionText {r : UInt64} {text : String} (h : text ∈ revisionTexts r) :
    Text.trimMatches '"' text = toString r := by
  have hquote : ∀ c ∈ (toString r).toList, (c == '"') = false := by
    intro c hc
    refine beq_false_of_ne ?_
    rintro rfl
    exact absurd (isDigit_toString hc) (by decide)
  have hstrip : ∀ q, (∀ c ∈ q, (c == '"') = true) → Text.strip (· == '"') (q ++ ((toString r).toList ++ q)) =
      (toString r).toList := fun q hq =>
    Text.strip_append hq hq (toString_ne_nil r) (fun c hc => hquote c (List.mem_of_mem_head? hc))
      fun c hc => hquote c (List.mem_of_mem_getLast? hc)
  rw [revisionTexts, List.mem_cons, List.mem_singleton] at h
  rw [← String.toList_inj, Text.trimMatches, String.toList_ofList]
  rcases h with rfl | rfl
  · have htext : ("\"" ++ toString r ++ "\"").toList = ['"'] ++ ((toString r).toList ++ ['"']) := by
      simp [String.toList_append]
    rw [htext, hstrip _ (List.forall_mem_singleton.2 rfl)]
  · have hnone := hstrip [] (List.forall_mem_nil _)
    rwa [List.nil_append, List.append_nil] at hnone

theorem trim_revisionText {r : UInt64} {text pad pad' : String} (h : text ∈ revisionTexts r)
    (hpad : ∀ c ∈ pad.toList, c = ' ' ∨ c = '\t') (hpad' : ∀ c ∈ pad'.toList, c = ' ' ∨ c = '\t') :
    Text.trim (pad ++ text ++ pad') = text := by
  have hblank : ∀ c : Char, c = ' ' ∨ c = '\t' → Text.isWhitespace c = true := by
    rintro c (rfl | rfl) <;> decide
  have hsolid : ∀ c ∈ text.toList.head?.toList ++ text.toList.getLast?.toList, Text.isWhitespace c = false := by
    have hdigit : ∀ c : Char, c.isDigit = true → Text.isWhitespace c = false := by
      intro c hc
      have hbounds : 48 ≤ c.toNat ∧ c.toNat ≤ 57 := by
        simpa [Char.isDigit, UInt32.le_iff_toNat_le] using hc
      simp only [Text.isWhitespace]
      grind
    rw [revisionTexts, List.mem_cons, List.mem_singleton] at h
    intro c hc
    rcases h with rfl | rfl
    · have hends : ("\"" ++ toString r ++ "\"").toList.head? = some '"' ∧
          ("\"" ++ toString r ++ "\"").toList.getLast? = some '"' := by
        rw [String.toList_append, String.toList_append]
        exact ⟨rfl, List.getLast?_concat⟩
      rw [hends.1, hends.2] at hc
      obtain rfl : c = '"' := by simpa using hc
      decide
    · rcases List.mem_append.1 hc with hc | hc
      · exact hdigit c (isDigit_toString (List.mem_of_mem_head? (Option.mem_toList.1 hc)))
      · exact hdigit c (isDigit_toString (List.mem_of_mem_getLast? (Option.mem_toList.1 hc)))
  have hne : text.toList ≠ [] := by
    rw [revisionTexts, List.mem_cons, List.mem_singleton] at h
    rcases h with rfl | rfl
    · simp [String.toList_append]
    · exact toString_ne_nil r
  rw [← String.toList_inj, Text.toList_trim, String.toList_append, String.toList_append, List.append_assoc]
  exact Text.strip_append (fun c hc => hblank c (hpad c hc)) (fun c hc => hblank c (hpad' c hc)) hne
    (fun c hc => hsolid c (List.mem_append_left _ (Option.mem_toList.2 hc)))
    fun c hc => hsolid c (List.mem_append_right _ (Option.mem_toList.2 hc))

theorem parseIfMatch_of_text {headers : HeaderMap} {value : HeaderValue} {r : UInt64} {text pad pad' : String}
    (h : text ∈ revisionTexts r) (hpad : ∀ c ∈ pad.toList, c = ' ' ∨ c = '\t')
    (hpad' : ∀ c ∈ pad'.toList, c = ' ' ∨ c = '\t') (hvalue : headers.lookup "if-match" = some value)
    (hbytes : value.bytes = Text.utf8 (pad ++ text ++ pad')) : parseIfMatch headers = .ok r := by
  have hblank : ∀ c : Char, c = ' ' ∨ c = '\t' → Visible c := by
    rintro c (rfl | rfl)
    · exact .inr (by decide)
    · exact .inl (by decide)
  have hstr : value.toStr = some (pad ++ text ++ pad') := by
    refine HeaderValue.toStr_of_visible hbytes fun c hc => ?_
    simp only [String.toList_append, List.mem_append] at hc
    rcases hc with (hc | hc) | hc
    · exact hblank c (hpad c hc)
    · exact visible_revisionText h c hc
    · exact hblank c (hpad' c hc)
  simp only [parseIfMatch, hvalue, hstr, trim_revisionText h hpad hpad', trimMatches_revisionText h, Text.parseU64_toString]

theorem parseIfMatch_eq_ok_iff {headers : HeaderMap} {r : UInt64} : parseIfMatch headers = .ok r ↔
    ∃ value raw, headers.lookup "if-match" = some value ∧ value.toStr = some raw ∧
      Text.parseU64 (Text.trimMatches '"' (Text.trim raw)) = some r := by
  unfold parseIfMatch
  cases headers.lookup "if-match" with
  | none => simp
  | some value =>
    cases hstr : value.toStr with
    | none => simp [hstr]
    | some raw =>
      simp only [hstr]
      cases hread : Text.parseU64 (Text.trimMatches '"' (Text.trim raw)) with
      | none => simp [hstr, hread]
      | some revision => simp [hstr, hread]

/-- A header that carries a revision is read as it, and what is read is a numeral of the revision. -/
theorem ifMatch_round_trip (r : UInt64) :
    (∃ etag, etagForRevision r = .ok etag ∧ etag.bytes = Text.utf8 ("\"" ++ toString r ++ "\"")) ∧
    (∀ (headers : HeaderMap) value text pad pad', headers.lookup "if-match" = some value →
      text ∈ ["\"" ++ toString r ++ "\"", toString r] → (∀ c ∈ pad.toList, c = ' ' ∨ c = '\t') →
      (∀ c ∈ pad'.toList, c = ' ' ∨ c = '\t') → value.bytes = Text.utf8 (pad ++ text ++ pad') →
      parseIfMatch headers = .ok r) ∧
    ∀ headers, parseIfMatch headers = .ok r ↔ ∃ value raw ds,
      headers.lookup "if-match" = some value ∧ value.toStr = some raw ∧
      ((Text.trimMatches '"' (Text.trim raw)).toList = ds ∨ (Text.trimMatches '"' (Text.trim raw)).toList = '+' :: ds) ∧
      ds ≠ [] ∧ (∀ c ∈ ds, c.isDigit = true) ∧ Nat.ofDigitChars 10 ds 0 = r.toNat ∧
      Nat.ofDigitChars 10 ds 0 < 18446744073709551616 := by
  refine ⟨etagForRevision_eq r, fun headers value text pad pad' hvalue htext hpad hpad' hbytes => ?_, fun headers => ?_⟩
  · exact parseIfMatch_of_text htext hpad hpad' hvalue hbytes
  · rw [parseIfMatch_eq_ok_iff]
    constructor
    · rintro ⟨value, raw, hvalue, hstr, hread⟩
      obtain ⟨ds, hds⟩ := Text.parseU64_eq_some_iff.1 hread
      exact ⟨value, raw, ds, hvalue, hstr, hds⟩
    · rintro ⟨value, raw, ds, hvalue, hstr, hds⟩
      exact ⟨value, raw, hvalue, hstr, Text.parseU64_eq_some_iff.2 ⟨ds, hds⟩⟩

/-- The greatest revision, with blanks around its `ETag`. -/
theorem ifMatch_round_trip_max : ∃ value, parseIfMatch [("if-match", value)] = .ok 18446744073709551615 := by
  have hvisible : ((" " ++ "\"18446744073709551615\"" ++ "\t").toList.all fun c =>
      decide (c.toNat = 9 ∨ 32 ≤ c.toNat ∧ c.toNat < 127)) = true := by decide +kernel
  obtain ⟨value, -, hbytes⟩ := HeaderValue.fromStr_of_visible fun c hc => by
    simpa [Visible] using List.all_eq_true.1 hvisible c hc
  exact ⟨value, (ifMatch_round_trip 18446744073709551615).2.1 _ value "\"18446744073709551615\"" " " "\t" rfl
    (by decide +kernel) (List.forall_mem_singleton.2 (.inl rfl)) (List.forall_mem_singleton.2 (.inr rfl)) hbytes⟩

/-- A `PUT` with the `ETag` of a state in `If-Match` expects the revision of that state. -/
theorem putStateHandler_etag {serde : Serde} {x draft : ControlPlaneState} {etag : HeaderValue}
    (h : etagForRevision x.revision = .ok etag) : putStateHandler serde [("if-match", etag)] draft = (do
      let state ← ExceptT.mk (putState serde x.revision draft)
      let etag ← check (etagForRevision state.revision)
      pure (etag, state)) := by
  obtain ⟨etag', hetag', hbytes⟩ := etagForRevision_eq x.revision
  obtain rfl := Except.ok.inj (h.symm.trans hetag')
  have hread : parseIfMatch [("if-match", etag)] = .ok x.revision :=
    @parseIfMatch_of_text _ etag x.revision _ "" "" List.mem_cons_self (List.forall_mem_nil _) (List.forall_mem_nil _) rfl
      (by simp [hbytes])
  rw [putStateHandler, hread]
  rfl

end NginxAdmin.Daemon
