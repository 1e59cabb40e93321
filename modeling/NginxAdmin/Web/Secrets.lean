import NginxAdmin.Lib.LowerCase
import NginxAdmin.Lib.Js

/-!
# The detectors of the client (`packages/core/src/security/secrets.ts`)
-/

namespace NginxAdmin.Web

open Regex

/-- `SENSITIVE_KEY_PATTERN` -/
def sensitiveKeyPattern : Regex :=
  let mark := opt (char fun c => c == '-' || c == '_')
  alts [seq (literalI "access") (seq mark (literalI "token")), seq (literalI "refresh") (seq mark (literalI "token")),
    seq (literalI "api") (seq mark (literalI "key")), literalI "authorization", literalI "cookie", literalI "token",
    literalI "secret", literalI "password", literalI "passphrase", seq (literalI "private") (opt (literalI "key")),
    literalI "auth", literalI "credential", literalI "jwt", literalI "session", literalI "bearer"]

def nonSecretPathKeys : List String := ["ssl_certificate_key", "certificateKey", "certificate_key"]

/-- `"[^"]*"|'[^']*'|` and what a bare value is made of. -/
def valuePattern (bare : Char → Bool) : Regex :=
  alts [seq (literal "\"") (seq (star (char fun c => c != '"')) (literal "\"")),
    seq (literal "'") (seq (star (char fun c => c != '\'')) (literal "'")), plus (char bare)]

/-- `\s*[:=]\s*` -/
def assignPattern : Regex :=
  seq (star (char isSpace)) (seq (char fun c => c == ':' || c == '=') (star (char isSpace)))

/-- `[^\s,;]` -/
def isBareChar (c : Char) : Bool := !isSpace c && c != ',' && c != ';'

/-- `/\b(authorization)\s*[:=]\s*(bearer\s+)?("[^"]*"|'[^']*'|[^\s,;]+)/giu` -/
def authorizationPattern : Grouped where
  before := wordBoundaryI
  key := literalI "authorization"
  rest := seq assignPattern (seq (opt (seq (literalI "bearer") (plus (char isSpace)))) (valuePattern isBareChar))

/-- `/\b(cookie|set-cookie)\s*[:=]\s*("[^"]*"|'[^']*'|[^\r\n]+)/giu` -/
def cookiePattern : Grouped where
  before := wordBoundaryI
  key := alt (literalI "cookie") (literalI "set-cookie")
  rest := seq assignPattern (valuePattern fun c => c != '\r' && c != '\n')

/-- The third of the patterns: the sensitive words as whole words, with their values. -/
def assignedPattern : Grouped where
  before := wordBoundaryI
  key :=
    let mark := opt (char fun c => c == '-' || c == '_')
    alts [seq (literalI "access") (seq mark (literalI "token")), seq (literalI "refresh") (seq mark (literalI "token")),
      seq (literalI "api") (seq mark (literalI "key")), literalI "token", literalI "secret", literalI "password",
      literalI "passphrase", seq (literalI "private") (opt (literalI "key")), literalI "auth", literalI "credential",
      literalI "jwt", literalI "session"]
  rest := seq wordBoundaryI (seq assignPattern (valuePattern isBareChar))

/-- `[a-z0-9._~+/=-]` with the flags `iu`. -/
def isTokenChar (c : Char) : Bool :=
  isLetterI c || c.isDigit || c == '.' || c == '_' || c == '~' || c == '+' || c == '/' || c == '=' || c == '-'

/-- `/\bbearer\s+[a-z0-9._~+/=-]+/giu`, without a group. -/
def bearerPattern : Grouped where
  before := nil
  key := nil
  rest := seq wordBoundaryI (seq (literalI "bearer") (seq (plus (char isSpace)) (plus (char isTokenChar))))

/-- A private key in PEM format, to the nearest end; the pattern has no group. -/
def privateKeyPattern : Grouped where
  before := nil
  key := nil
  rest :=
    let kind := star (char fun c => c.isUpper || c == ' ')
    seq (literal "-----BEGIN ") (seq kind (seq (literal "PRIVATE KEY-----") (seq (lazy (char fun _ => true))
      (seq (literal "-----END ") (seq kind (literal "PRIVATE KEY-----"))))))

/-- `[a-z0-9+.-]` with the flags `iu`. -/
def isSchemeChar (c : Char) : Bool := isLetterI c || c.isDigit || c == '+' || c == '.' || c == '-'

/-- `/\b([a-z][a-z0-9+.-]*:\/\/)([^/?#\s@]+@)/giu` -/
def urlWithCredentialsPattern : Grouped where
  before := wordBoundaryI
  key := seq (char isLetterI) (seq (star (char isSchemeChar)) (literal "://"))
  rest := seq (plus (char isUserChar)) (literal "@")

/-! ### Redaction -/

def isSensitiveFieldName (key : String) : Bool := test sensitiveKeyPattern key && !nonSecretPathKeys.contains key

/-- The callback for a pattern with a group. -/
def redactKeyed (key _ : List Char) : List Char := key ++ "=[redacted]".toList

/-- The callback for a pattern without one: its second argument is then the offset of the match. -/
def redactPlain (_ before : List Char) : List Char :=
  let offset := utf16Length before
  if offset = 0 then "[redacted]".toList else (toString offset).toList ++ "=[redacted]".toList

def redactPotentialSecrets (value : String) : String :=
  let next := urlWithCredentialsPattern.replace (fun key _ => key ++ "[redacted]@".toList) value
  let next := authorizationPattern.replace redactKeyed next
  let next := cookiePattern.replace redactKeyed next
  let next := assignedPattern.replace redactKeyed next
  let next := bearerPattern.replace redactPlain next
  privateKeyPattern.replace redactPlain next

/-- A text without the characters that every pattern needs one of. -/
theorem redact_of_needs {p : Char → Prop} (hurl : Needs p urlWithCredentialsPattern.regex)
    (hauthorization : Needs p authorizationPattern.regex) (hcookie : Needs p cookiePattern.regex)
    (hassigned : Needs p assignedPattern.regex) (hbearer : Needs p bearerPattern.regex)
    (hprivate : Needs p privateKeyPattern.regex) {s : String} (h : ∀ c ∈ s.toList, ¬ p c) : redactPotentialSecrets s = s := by
  have kurl := Grouped.replace_of_test_eq_false (f := fun key _ => key ++ "[redacted]@".toList) (hurl.test_eq_false h)
  have kauthorization := Grouped.replace_of_test_eq_false (f := redactKeyed) (hauthorization.test_eq_false h)
  have kcookie := Grouped.replace_of_test_eq_false (f := redactKeyed) (hcookie.test_eq_false h)
  have kassigned := Grouped.replace_of_test_eq_false (f := redactKeyed) (hassigned.test_eq_false h)
  have kbearer := Grouped.replace_of_test_eq_false (f := redactPlain) (hbearer.test_eq_false h)
  have kprivate := Grouped.replace_of_test_eq_false (f := redactPlain) (hprivate.test_eq_false h)
  simp only [redactPotentialSecrets, kurl, kauthorization, kcookie, kassigned, kbearer, kprivate]

def containsSecretLikeValue (value : String) : Bool := redactPotentialSecrets value != value

mutual

def sanitizeForJson : Js → Js
  | .arr items => .arr (sanitizeItems items)
  | .str s => .str (redactPotentialSecrets s)
  | .obj members => .obj (sanitizeMembers members)
  | value => value

def sanitizeItems : List Js → List Js
  | [] => []
  | x :: xs => sanitizeForJson x :: sanitizeItems xs

def sanitizeMembers : List (String × Js) → List (String × Js)
  | [] => []
  | (key, item) :: rest =>
    if isSensitiveFieldName key then sanitizeMembers rest else (key, sanitizeForJson item) :: sanitizeMembers rest

end

def sensitiveWords : List String :=
  ["authorization", "cookie", "proxy_set_header auth", "password", "token", "secret", "credential", "jwt", "session",
    "bearer"]

/-- `containsSensitiveDirective`; `lower` is `String.prototype.toLowerCase`. -/
def containsSensitiveDirective (lower : LowerCase) (value : String) : Bool :=
  let normalized := lower.toLowerCase value.toList
  sensitiveWords.any fun needle => decide (needle.toList <:+: normalized)

theorem word_of_mem {needle : String} (h : needle ∈ sensitiveWords) : LowerCase.Word needle.toList := by
  have hwords : ∀ needle ∈ sensitiveWords,
      needle.toList.all (fun c => c.toNat < 128) = true ∧ needle.toList.getLast? ≠ some 'i' := by decide
  exact ⟨fun c hc => of_decide_eq_true (List.all_eq_true.1 (hwords needle h).1 c hc), (hwords needle h).2⟩

theorem containsSensitiveDirective_iff (lower : LowerCase) {v : String} : containsSensitiveDirective lower v = true ↔
    ∃ needle ∈ sensitiveWords, needle.toList <:+: v.toList.map LowerCase.fold := by
  have hne : ∀ needle ∈ sensitiveWords, needle.toList ≠ [] := by decide
  simp only [containsSensitiveDirective, List.any_eq_true, decide_eq_true_eq]
  refine exists_congr fun needle => and_congr_right fun hmem => ?_
  exact lower.infix_toLowerCase_iff (word_of_mem hmem) (hne needle hmem)

/-- `rest` follows the scheme of a URL in `cs`, and starts with a user and an `@`. -/
def UrlAt (cs rest : List Char) : Prop :=
  ∃ x c s, cs = x ++ c :: (s ++ ("://".toList ++ rest)) ∧ x.getLast?.any isWordI = false ∧ isLetterI c = true ∧
    (∀ d ∈ s, isSchemeChar d = true) ∧ ∃ u y, rest = u ++ '@' :: y ∧ u ≠ [] ∧ ∀ d ∈ u, isUserChar d = true

theorem isWordI_of_isLetterI {c : Char} (h : isLetterI c = true) : isWordI c = true := by
  rw [isWordI, h, Bool.or_true]

theorem matches_boundary {x w r : List Char} {c : Char} (hc : isLetterI c = true) :
    Matches wordBoundaryI x.reverse w (c :: r) ↔ x.getLast?.any isWordI = false ∧ w = [] := by
  rw [wordBoundaryI, matches_look, List.head?_reverse, List.head?_cons, Option.any_some, isWordI_of_isLetterI hc, bne_iff_ne,
    ne_eq, Bool.not_eq_true]

theorem test_urlWithCredentials {v : String} :
    test urlWithCredentialsPattern.regex v = true ↔ ∃ rest, UrlAt v.toList rest := by
  rw [test_iff]
  constructor
  · rintro ⟨x, _, y, hv, w₀, _, rfl, hbound, _, _, rfl, ⟨_, _, rfl, ⟨c, hc, rfl⟩, s, w₂, rfl, hs, hsep⟩, u, w₃, rfl, hu,
      hat⟩
    obtain rfl := matches_literal.1 hsep
    obtain rfl := matches_literal.1 hat
    obtain ⟨hx, rfl⟩ := (matches_boundary hc).1 hbound
    refine ⟨u ++ '@' :: y, x, c, s, ?_, hx, hc, matches_star_char.1 hs, u, y, rfl, matches_plus_char.1 hu⟩
    rw [hv]
    simp
  · rintro ⟨_, x, c, s, hv, hx, hc, hs, u, y, rfl, hu⟩
    refine ⟨x, [] ++ (([c] ++ (s ++ "://".toList)) ++ (u ++ "@".toList)), y, ?_, [], _, rfl,
      (matches_boundary hc).2 ⟨hx, rfl⟩, _, _, rfl, ?_, u, _, rfl, matches_plus_char.2 hu, matches_literal.2 rfl⟩
    · rw [hv]
      simp
    · exact ⟨[c], _, rfl, ⟨c, hc, rfl⟩, s, _, rfl, matches_star_char.2 hs, matches_literal.2 rfl⟩

end NginxAdmin.Web
