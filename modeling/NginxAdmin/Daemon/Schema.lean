import NginxAdmin.Lib.JsonSchema
import NginxAdmin.Daemon.Accepted
import NginxAdmin.Daemon.Codec

/-!
# The published schema (`state-schema/state.schema.json`)

The definitions of the schema, keyword by keyword, as far as they are about the servers and the author of a
state.
-/

namespace NginxAdmin.Daemon

open Regex

namespace StateSchema

def isIdChar (c : Char) : Bool := c.isAlphanum || c == '.' || c == '_' || c == ':' || c == '-'

/-- `^[a-zA-Z0-9._:-]{1,128}$` -/
def idPattern : Regex := seq bol (seq (seq (char isIdChar) (upto (char isIdChar) 127)) eol)

/-- `^/` -/
def pathPattern : Regex := seq bol (literal "/")

/-- A word in which each letter stands in both cases, `[Tt][Oo][Kk][Ee][Nn]`. -/
def anyCase (word : String) : Regex := literalBy (fun c d => d == c.toUpper || d == c) word.toList

def directiveWords : List String :=
  ["authorization", "cookie", "token", "secret", "password", "credential", "jwt", "session"]

def nameWords : List String :=
  ["token", "secret", "password", "passphrase", "private", "auth", "credential", "key", "jwt", "session", "cookie"]

/-- `^/.*` -/
def absolutePattern : Regex := seq bol (seq (literal "/") (star (char isDot)))

def isHostChar (c : Char) : Bool := c != '/' && c != '@' && c != '?' && c != '#'

/-- `^(https?://[^/@?#]+(:[0-9]+)?(/.*)?|http://unix:.+)$` -/
def targetPattern : Regex :=
  seq bol (seq
    (alt
      (seq (literal "http") (seq (opt (literal "s")) (seq (literal "://") (seq (plus (char isHostChar))
        (seq (opt (seq (literal ":") (plus (char Char.isDigit)))) (opt (seq (literal "/") (star (char isDot)))))))))
      (seq (literal "http://unix:") (plus (char isDot))))
    eol)

/-- `://[^/?#\s@]+@` -/
def userInfoPattern : Regex := seq (literal "://") (seq (plus (char isUserChar)) (literal "@"))

/-- `^[0-9]+r/[smh]$` -/
def ratePattern : Regex :=
  seq bol (seq (plus (char Char.isDigit)) (seq (literal "r/")
    (seq (char fun c => c == 's' || c == 'm' || c == 'h') eol)))

open Schema

def tls : Schema :=
  object ["certificate", "certificateKey"]
    [("certificate", all [type .string, pattern absolutePattern]),
     ("certificateKey", all [type .string, pattern absolutePattern])]

def listen : Schema :=
  object ["port", "ssl"]
    [("port", all [type .integer, minimum 1, maximum 65535]),
     ("ssl", type .boolean),
     ("http2", type .boolean),
     ("defaultServer", type .boolean)]

/-- The three alternatives of `action`. -/
def proxyPass : Schema :=
  object ["type", "target"]
    [("type", const "proxy_pass"),
     ("target", all [type .string, pattern targetPattern,
        Schema.not (pattern (alts ((directiveWords ++ ["bearer"]).map anyCase)))])]

def static : Schema :=
  object ["type", "root"]
    [("type", const "static"),
     ("root", all [type .string, pattern absolutePattern]),
     ("index", type .string)]

def redirect : Schema :=
  object ["type", "url", "code"]
    [("type", const "redirect"),
     ("url", all [type .string,
        Schema.not (pattern (alts ((directiveWords ++ ["bearer"]).map anyCase ++ [userInfoPattern])))]),
     ("code", all [type .integer, enumInt [301, 302, 307, 308]])]

def action : Schema := oneOf [proxyPass, static, redirect]

def header : Schema :=
  object ["name", "value"]
    [("name", all [type .string, minLength 1, Schema.not (pattern (alts (nameWords.map anyCase)))]),
     ("value", all [type .string, Schema.not (pattern (alts ((directiveWords ++ ["bearer"]).map anyCase)))])]

def rateLimit : Schema :=
  object ["zone", "rate"]
    [("zone", type .string),
     ("rate", all [type .string, pattern ratePattern]),
     ("burst", all [type .integer, minimum 0]),
     ("nodelay", type .boolean)]

def route : Schema :=
  object ["id", "path", "action", "enabled"]
    [("id", all [type .string, pattern idPattern]),
     ("path", all [type .string, pattern pathPattern]),
     ("matchType", all [type .string, enumStr ["prefix", "exact", "regex"]]),
     ("action", action),
     ("headers", all [type .array, items header]),
     ("rateLimit", rateLimit),
     ("enabled", type .boolean)]

def server : Schema :=
  object ["id", "serverName", "listen", "routes", "enabled"]
    [("id", all [type .string, pattern idPattern]),
     ("serverName", all [type .string, minLength 1, maxLength 253]),
     ("listen", all [type .array, minItems 1, items listen]),
     ("routes", all [type .array, items route]),
     ("tls", tls),
     ("extraDirectives", all [type .array,
        items (all [type .string, Schema.not (pattern (alts (directiveWords.map anyCase)))])]),
     ("enabled", type .boolean)]

/-- The properties of the document that `put_state` takes from the draft. -/
def committed : Schema :=
  properties
    [("updatedBy", all [type .string, minLength 1, maxLength 256]),
     ("servers", all [type .array, items server])]

/-! ### What the patterns say -/

theorem test_idPattern {s : String} : test idPattern s = true ↔
    (1 ≤ s.length ∧ s.length ≤ 128) ∧ ∀ c ∈ s.toList, isIdChar c = true := by
  rw [idPattern, test_whole, matches_seq, ← String.length_toList]
  constructor
  · rintro ⟨w₁, w₂, hs, ⟨c, hc, rfl⟩, hw⟩
    obtain ⟨hlen, hall⟩ := matches_upto_char.1 hw
    rw [hs]
    exact ⟨by rw [List.length_append, List.length_singleton]; omega, List.forall_mem_cons.2 ⟨hc, hall⟩⟩
  · rintro ⟨hlen, hall⟩
    cases hs : s.toList with
    | nil => simp [hs] at hlen
    | cons c w =>
      rw [hs] at hlen hall
      obtain ⟨hc, hw⟩ := List.forall_mem_cons.1 hall
      exact ⟨[c], w, rfl, ⟨c, hc, rfl⟩, matches_upto_char.2 ⟨by rw [List.length_cons] at hlen; omega, hw⟩⟩

theorem startsWithChar_iff {s : String} {c : Char} : Text.startsWithChar s c = true ↔ ∃ r, s.toList = c :: r := by
  rw [Text.startsWithChar, beq_iff_eq]
  cases s.toList with
  | nil => simp
  | cons d r => simp [eq_comm]

theorem test_pathPattern {s : String} : test pathPattern s = true ↔ Text.startsWithChar s '/' = true := by
  rw [pathPattern, test_start, startsWithChar_iff]
  simp only [matches_literal]
  constructor
  · rintro ⟨w, r, hs, rfl⟩
    exact ⟨r, hs⟩
  · rintro ⟨r, hs⟩
    exact ⟨_, r, hs, rfl⟩

theorem test_absolutePattern {s : String} : test absolutePattern s = true ↔ Text.startsWithChar s '/' = true := by
  rw [absolutePattern, test_start, startsWithChar_iff]
  constructor
  · rintro ⟨w, r, hs, w₁, w₂, rfl, hw₁, -⟩
    obtain rfl := matches_literal.1 hw₁
    exact ⟨w₂ ++ r, by simpa using hs⟩
  · rintro ⟨r, hs⟩
    exact ⟨['/'], r, hs, ['/'], [], rfl, matches_literal.2 rfl, matches_star_char.2 (List.forall_mem_nil _)⟩

theorem matches_anyCase {word : String} (hword : word.toList.all Char.isLower = true) {l w r : List Char} :
    Matches (anyCase word) l w r ↔ w.map Char.toLower = word.toList := by
  rw [anyCase, matches_literalBy]
  generalize word.toList = cs at *
  induction cs generalizing w with
  | nil => simp
  | cons c cs ih =>
    rw [List.all_cons, Bool.and_eq_true] at hword
    rw [List.forall₂_cons_left_iff]
    have hletter : ∀ d, (d == c.toUpper || d == c) = true ↔ d.toLower = c := by
      simp [Text.toLower_eq_iff hword.1]
    constructor
    · rintro ⟨d, w, hd, hw, rfl⟩
      rw [List.map_cons, (hletter d).1 hd, (ih hword.2).1 hw]
    · intro h
      obtain ⟨d, w, rfl, hd, hw⟩ := List.map_eq_cons_iff.1 h
      exact ⟨d, w, (hletter d).2 hd, (ih hword.2).2 hw, rfl⟩

theorem test_anyCase {word : String} (hword : word.toList.all Char.isLower = true) {s : String} :
    test (anyCase word) s = Text.contains (Text.toAsciiLowercase s) word := by
  rw [Bool.eq_iff_iff, test_iff, Text.contains_toAsciiLowercase]
  simp only [matches_anyCase hword]

theorem test_words {words : List String} (hwords : words.all (fun w => w.toList.all Char.isLower) = true) {s : String} :
    test (alts (words.map anyCase)) s = true ↔ ∃ w ∈ words, Text.contains (Text.toAsciiLowercase s) w = true := by
  rw [test_alts]
  simp only [List.mem_map, exists_exists_and_eq_and]
  refine exists_congr fun w => and_congr_right fun hw => ?_
  rw [test_anyCase (List.all_eq_true.1 hwords w hw)]

/-- After `http://` or `https://` a host and perhaps a path on one line, or after `http://unix:` one line. -/
def IsTarget (cs : List Char) : Prop :=
  (∃ scheme host path, cs = scheme ++ host ++ path ∧ (scheme = "http://".toList ∨ scheme = "https://".toList) ∧
    (host ≠ [] ∧ ∀ c ∈ host, isHostChar c = true) ∧
    (path = [] ∨ ∃ p, path = '/' :: p ∧ ∀ c ∈ p, isDot c = true)) ∨
  ∃ p, cs = "http://unix:".toList ++ p ∧ p ≠ [] ∧ ∀ c ∈ p, isDot c = true

theorem matches_scheme {l w r : List Char} :
    Matches (seq (literal "http") (seq (opt (literal "s")) (literal "://"))) l w r ↔
      w = "http://".toList ∨ w = "https://".toList := by
  constructor
  · rintro ⟨w₁, w₂, rfl, hhttp, w₃, w₄, rfl, hs, hcolon⟩
    obtain rfl := matches_literal.1 hhttp
    obtain rfl := matches_literal.1 hcolon
    rcases matches_opt.1 hs with hs | rfl
    · obtain rfl := matches_literal.1 hs
      exact .inr rfl
    · exact .inl rfl
  · rintro (rfl | rfl)
    · exact ⟨"http".toList, "://".toList, rfl, matches_literal.2 rfl, [], "://".toList, rfl, .inr rfl,
        matches_literal.2 rfl⟩
    · exact ⟨"http".toList, "s://".toList, rfl, matches_literal.2 rfl, "s".toList, "://".toList, rfl,
        .inl (matches_literal.2 rfl), matches_literal.2 rfl⟩

theorem isHostChar_of_isDigit {c : Char} (h : c.isDigit = true) : isHostChar c = true := by
  have hne : ∀ d : Char, d.isDigit = false → c ≠ d := fun d hd he => by rw [he, hd] at h; cases h
  simp [isHostChar, hne '/' (by decide), hne '@' (by decide), hne '?' (by decide), hne '#' (by decide)]

/-- The port, too, is made of characters of the host. -/
theorem matches_host {l w r : List Char} :
    Matches (seq (plus (char isHostChar)) (opt (seq (literal ":") (plus (char Char.isDigit))))) l w r ↔
      w ≠ [] ∧ ∀ c ∈ w, isHostChar c = true := by
  constructor
  · rintro ⟨host, port, rfl, hhost, hport⟩
    obtain ⟨hne, hhost⟩ := matches_plus_char.1 hhost
    have hport : ∀ c ∈ port, isHostChar c = true := by
      rcases matches_opt.1 hport with ⟨w₁, w₂, rfl, hcolon, hdigits⟩ | rfl
      · obtain rfl := matches_literal.1 hcolon
        exact List.forall_mem_cons.2 ⟨by decide, fun c hc => isHostChar_of_isDigit ((matches_plus_char.1 hdigits).2 c hc)⟩
      · exact List.forall_mem_nil _
    exact ⟨by simp [hne], List.forall_mem_append.2 ⟨hhost, hport⟩⟩
  · intro h
    exact ⟨w, [], by simp, matches_plus_char.2 h, .inr rfl⟩

theorem matches_path {l w r : List Char} : Matches (opt (seq (literal "/") (star (char isDot)))) l w r ↔
    w = [] ∨ ∃ p, w = '/' :: p ∧ ∀ c ∈ p, isDot c = true := by
  rw [matches_opt, or_comm, matches_seq]
  refine or_congr_right ?_
  simp only [matches_literal, matches_star_char]
  constructor
  · rintro ⟨_, p, rfl, rfl, hp⟩
    exact ⟨p, rfl, hp⟩
  · rintro ⟨p, rfl, hp⟩
    exact ⟨_, p, rfl, rfl, hp⟩

theorem test_targetPattern {s : String} : test targetPattern s = true ↔ IsTarget s.toList := by
  rw [targetPattern, test_whole, matches_alt, IsTarget]
  refine or_congr ?_ ?_
  · -- the scheme, the host with its port, and the path
    rw [matches_seq_congr (fun _ _ _ => matches_seq_congr (fun _ _ _ => matches_seq_congr fun _ _ _ => matches_seq_assoc)),
      matches_seq_assoc₃, matches_seq]
    constructor
    · rintro ⟨scheme, _, hs, hscheme, w, path, rfl, hhost, hpath⟩
      exact ⟨scheme, w, path, by simpa using hs, matches_scheme.1 hscheme, matches_host.1 hhost, matches_path.1 hpath⟩
    · rintro ⟨scheme, w, path, hs, hscheme, hhost, hpath⟩
      exact ⟨scheme, w ++ path, by simpa using hs, matches_scheme.2 hscheme, w, path, rfl, matches_host.2 hhost,
        matches_path.2 hpath⟩
  · rw [matches_seq]
    simp only [matches_literal, matches_plus_char]
    constructor
    · rintro ⟨_, p, hs, rfl, hp⟩
      exact ⟨p, hs, hp⟩
    · rintro ⟨p, hs, hp⟩
      exact ⟨_, p, hs, rfl, hp⟩

/-- Somewhere after `://` a user stands before an `@`. -/
def HasUserInfo (cs : List Char) : Prop :=
  ∃ x u y, cs = x ++ ("://".toList ++ u ++ '@' :: y) ∧ u ≠ [] ∧ ∀ c ∈ u, isUserChar c = true

theorem test_userInfoPattern {s : String} : test userInfoPattern s = true ↔ HasUserInfo s.toList := by
  rw [test_iff, HasUserInfo]
  constructor
  · rintro ⟨x, _, y, hs, w₁, _, rfl, h₁, u, w₃, rfl, hu, h₃⟩
    obtain rfl := matches_literal.1 h₁
    obtain rfl := matches_literal.1 h₃
    exact ⟨x, u, y, by simpa using hs, matches_plus_char.1 hu⟩
  · rintro ⟨x, u, y, hs, hu⟩
    exact ⟨x, "://".toList ++ (u ++ ['@']), y, by simpa using hs, _, _, rfl, matches_literal.2 rfl, u, ['@'], rfl,
      matches_plus_char.2 hu, matches_literal.2 rfl⟩

/-- A number of requests for a second, a minute or an hour. -/
def IsRate (cs : List Char) : Prop :=
  ∃ n unit, cs = n ++ "r/".toList ++ [unit] ∧ (n ≠ [] ∧ ∀ c ∈ n, c.isDigit = true) ∧ unit ∈ ['s', 'm', 'h']

theorem test_ratePattern {s : String} : test ratePattern s = true ↔ IsRate s.toList := by
  have hunit : ∀ c : Char, (c == 's' || c == 'm' || c == 'h') = true ↔ c ∈ ['s', 'm', 'h'] := by
    simp [or_assoc]
  rw [ratePattern, test_start, IsRate]
  constructor
  · rintro ⟨_, r, hs, n, _, rfl, hn, w₂, _, rfl, h₂, w₃, w₄, rfl, ⟨c, hc, rfl⟩, h₄⟩
    obtain rfl := matches_literal.1 h₂
    obtain ⟨rfl, rfl⟩ := matches_eol.1 h₄
    exact ⟨n, c, by simpa using hs, matches_plus_char.1 hn, (hunit c).1 hc⟩
  · rintro ⟨n, c, hs, hn, hc⟩
    exact ⟨n ++ ("r/".toList ++ ([c] ++ [])), [], by simpa using hs, n, _, rfl, matches_plus_char.2 hn, _, _, rfl,
      matches_literal.2 rfl, [c], [], rfl, ⟨c, (hunit c).2 hc, rfl⟩, matches_eol.2 ⟨rfl, rfl⟩⟩

end StateSchema

end NginxAdmin.Daemon
