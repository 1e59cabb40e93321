import Mathlib.Tactic.Linarith
import NginxAdmin.Web.ConfigGenerator

/-!
# What the preview shows

`showsRoute_iff`: the preview of an accepted route has a directive for each setting, and nothing else, exactly when the
route is not proxied as a whole (the generator has no directive for that) and its free texts read as arguments.
`previewKept_of_legible`: it is one `server` block with a `location` block for each location when they read as words.
-/

namespace NginxAdmin.Web

open NginxConf Zod

variable (browser : Browser)

def setting (name : String) (a : Js) : List (String × String) := if a.truthy then [(name, template browser a)] else []

/-- The settings of the server, each a name and the text of its value. -/
def settings (route : Js) : List (String × String) :=
  let adv := route.get "advanced"
  [("listen", template browser (route.get "port") ++ if (route.get "ssl").truthy then " ssl" else ""),
   ("server_name", template browser (route.get "domain"))] ++
  setting browser "root" (route.get "root") ++ setting browser "proxy_pass" (route.get "proxy_pass") ++
  (if (route.get "ssl").truthy then [("ssl_certificate", template browser (route.get "ssl_certificate")),
    ("ssl_certificate_key", template browser (route.get "ssl_certificate_key"))] else []) ++
  (if adv = .undefined then []
    else [("client_max_body_size", template browser (adv.get "client_max_body_size")),
      ("keepalive_timeout", template browser (adv.get "keepalive_timeout"))] ++
      (if (adv.get "gzip").truthy then [("gzip", "on"), ("gzip_types", template browser (adv.get "gzip_types"))] else []) ++
      (if (adv.get "caching").truthy then [("proxy_cache_valid", template browser (adv.get "cache_valid"))] else []))

def isProper (w : String) : Bool := w ≠ "" && w ≠ "undefined"

/-- `d` is the directive of a setting: the arguments are the words of its text. -/
def Shows (line : String × String) (d : Directive) : Prop :=
  ∃ ws, ws ≠ [] ∧ d = .simple (line.1 :: ws) ∧ Reads line.2.toList ws

/-- `d` is the block of a location, with its settings and the directives of its `extra_directives`. -/
def ShowsLocation (loc : Js) (d : Directive) : Prop :=
  ∃ path shown extra, loc.get "path" = .str path ∧ d = .block ["location", path] (shown ++ extra) ∧
    List.Forall₂ Shows (locationLines browser loc) shown ∧ Writes ((extraText loc).toList ++ ['\n']) extra

/-- The preview is a `server` block with the directives of the settings and the blocks of the locations. -/
def ShowsRoute (route : Js) : Prop :=
  ∃ simples blocks, parse (generateConfigPreview browser route) = some [.block ["server"] (simples ++ blocks)] ∧
    List.Forall₂ Shows (settings browser route) simples ∧ List.Forall₂ (ShowsLocation browser) (locationsOf route) blocks ∧
    Directive.allWordsIn isProper (simples ++ blocks) = true

/-- The text reads as arguments, and as the same ones when its runs of newlines are shortened. -/
def Argument (v : String) : Prop :=
  ∃ ws, ws ≠ [] ∧ ws.all isProper = true ∧ Reads v.toList ws ∧ Reads (shortenFrom 0 v.toList) ws

structure ShowableLocation (loc : Js) : Prop where
  lines : ∀ line ∈ locationLines browser loc, Argument line.2
  extra : ∃ ds, Directive.allWordsIn isProper ds = true ∧ Writes ((extraText loc).toList ++ ['\n']) ds ∧
    Writes (shortenFrom 0 (extraText loc).toList ++ ['\n']) ds

structure Showable (route : Js) : Prop where
  proxied : route.get "proxy_pass" = .undefined
  gzipTypes : ((route.get "advanced").get "gzip").truthy = true →
    Argument (template browser ((route.get "advanced").get "gzip_types"))
  locations : ∀ loc ∈ locationsOf route, ShowableLocation browser loc

variable {browser}

theorem isPlain_of_isNameChar {c : Char} (h : isNameChar c = true) : isPlain c = true := by
  have hne : ∀ d : Char, isNameChar d = false → c ≠ d := fun d hd he => by rw [he, hd] at h; cases h
  simp [isPlain, NginxConf.isBlank, hne ' ' (by decide), hne '\t' (by decide), hne '\r' (by decide), hne '\n' (by decide),
    hne ';' (by decide), hne '\x7b' (by decide), hne '\x7d' (by decide), hne '#' (by decide), hne '\\' (by decide),
    hne '"' (by decide), hne '\'' (by decide), hne '$' (by decide)]

theorem isWord_of_names {s : String} (hne : s ≠ "") (h : ∀ c ∈ s.toList, isNameChar c = true) : IsWord s :=
  ⟨fun hnil => hne (String.toList_eq_nil_iff.1 hnil), fun c hc => isPlain_of_isNameChar (h c hc)⟩

theorem isProper_of_isWord {s : String} (h : IsWord s) (hne : s ≠ "undefined") : isProper s = true := by
  have hempty : s ≠ "" := fun hnil => h.1 (String.toList_eq_nil_iff.2 hnil)
  simp [isProper, hempty, hne]

theorem argument_of_no_newline {v : String} {ws : List String} (hne : ws ≠ []) (hproper : ws.all isProper = true)
    (hv : Reads v.toList ws) (hno : '\n' ∉ v.toList) : Argument v :=
  ⟨ws, hne, hproper, hv, by rwa [shortenFrom_of_not_mem hno]⟩

theorem argument_word {s : String} (h : IsWord s) (hne : s ≠ "undefined") : Argument s := by
  refine argument_of_no_newline (List.cons_ne_nil _ _) ?_ (reads_word h) h.no_newline
  rw [List.all_cons, isProper_of_isWord h hne]
  rfl

theorem Argument.legible {v : String} (h : Argument v) : ∃ ws, Reads (shortenFrom 0 v.toList) ws := by
  obtain ⟨ws, -, -, -, hws⟩ := h
  exact ⟨ws, hws⟩

theorem template_nat {n : Nat} (h : n ≤ 65535) : template browser (.num n) = toString n := by
  have hn : (n : Rat) ≤ 65535 := by exact_mod_cast h
  have hn' : (0 : Rat) ≤ n := by exact_mod_cast Nat.zero_le n
  have hbounds : (n : Rat).den = 1 ∧ (-1000000000000000000000 : Rat) < n ∧ (n : Rat) < 1000000000000000000000 :=
    ⟨Rat.den_natCast n, by linarith, by linarith⟩
  rw [template, if_pos hbounds, Rat.num_natCast]
  rfl

theorem toString_ne_undefined (n : Nat) : toString n ≠ "undefined" := by
  intro h
  have hmem : 'u' ∈ Nat.toDigits 10 n := by
    rw [← Nat.toList_repr, ← Nat.toString_eq_repr, h]
    decide
  exact absurd (Nat.isDigit_of_mem_toDigits (by decide) (by decide) hmem) (by decide)

variable {platform : Platform} {input route loc a b : Js}

theorem argument_listen (h : routeSchema platform input = some route) :
    Argument (template browser (route.get "port") ++ if (route.get "ssl").truthy then " ssl" else "") := by
  obtain ⟨n, hn, -, hhi, -⟩ := (route_output h).port
  rw [hn, template_nat hhi]
  split
  · have htext : (toString n ++ " ssl").toList = (toString n).toList ++ ' ' :: "ssl".toList := by simp
    have hssl : IsWord "ssl" := by decide
    refine argument_of_no_newline (List.cons_ne_nil _ _) ?_ (htext ▸ reads_cons (isWord_toString n) (reads_word hssl)) ?_
    · rw [List.all_cons, isProper_of_isWord (isWord_toString n) (toString_ne_undefined n)]
      decide
    · rw [htext, List.mem_append, not_or]
      exact ⟨(isWord_toString n).no_newline, by decide⟩
  · rw [String.append_empty]
    exact argument_word (isWord_toString n) (toString_ne_undefined n)

/-- A text of a pattern that takes neither nothing nor `undefined`. -/
theorem argument_of_test {r : Regex} (hempty : Regex.test r "" = false) (hundefined : Regex.test r "undefined" = false)
    (hchars : ∀ s, Regex.test r s = true → ∀ c ∈ s.toList, isNameChar c = true) {s : String} (hs : Regex.test r s = true) :
    IsWord s ∧ Argument (template browser (.str s)) := by
  have hne : s ≠ "" := by
    rintro rfl
    rw [hempty] at hs
    cases hs
  have hdefined : s ≠ "undefined" := by
    rintro rfl
    rw [hundefined] at hs
    cases hs
  have hword := isWord_of_names hne (hchars s hs)
  exact ⟨hword, argument_word hword hdefined⟩

theorem argument_unixPath {s : String} (hs : Regex.test unixPathPattern s = true) :
    Argument (template browser (.str s)) :=
  (argument_of_test (by decide) (by decide +kernel) (fun _ => chars_of_unixPath) hs).2

/-- A domain has a dot. -/
theorem needs_domain : Regex.Needs (· = '.') domainPattern := by
  have hdot : Regex.Needs (· = '.') (Regex.literal ".") := Regex.needs_literal (c := '.') (by decide) rfl
  exact hdot.seq_right.seq_right.seq_left.seq_left.seq_right

theorem argument_domain (h : routeSchema platform input = some route) : Argument (template browser (route.get "domain")) := by
  obtain ⟨s, hs, htest⟩ := regex_out (route_field h "domain" domainSchema (by simp [routeFields]) (by decide))
  rw [hs]
  exact (argument_of_test (needs_domain.test_eq_false (List.forall_mem_nil _)) (needs_domain.test_eq_false (by simp))
    (fun _ => chars_of_domain) htest).2

theorem argument_root (browser : Browser) (h : routeSchema platform input = some route) : route.get "root" = .str "" ∨
    (route.get "root").truthy = true ∧ Argument (template browser (route.get "root")) := by
  obtain ⟨s, hs, htest⟩ := unixPath_out (route_field h "root" unixPathSchema (by simp [routeFields]) (by decide))
  rw [hs]
  by_cases hempty : s = ""
  · exact .inl (by rw [hempty])
  · exact .inr ⟨truthy_str.2 hempty, argument_unixPath (htest hempty)⟩

theorem argument_certificate (browser : Browser) (h : routeSchema platform input = some route) (hssl : (route.get "ssl").truthy = true) :
    ∀ key ∈ certificates, (route.get key).truthy = true ∧ Argument (template browser (route.get key)) := by
  intro key hkey
  rcases (route_output h).ssl with ⟨-, hset⟩ | ⟨hoff, -⟩
  · obtain ⟨s, hs, hne⟩ := hset key hkey
    have hmem : (key, optional unixPathSchema) ∈ routeFields platform := by
      simp only [certificates, List.mem_cons, List.not_mem_nil, or_false] at hkey
      rcases hkey with rfl | rfl
      · simp [routeFields]
      · simp [routeFields]
    rw [hs]
    refine ⟨truthy_str.2 hne, ?_⟩
    rcases certificate_field h hmem with hu | ⟨t, ht, htest⟩
    · rw [hu] at hs
      cases hs
    · rw [hs] at ht
      cases ht
      exact argument_unixPath (htest hne)
  · rw [hoff] at hssl
    cases hssl

theorem argument_unit {units : List Char} (hunits : ∀ c ∈ units, c.isAlphanum = true)
    (hempty : Regex.test (unitPattern units) "" = false) (hundefined : Regex.test (unitPattern units) "undefined" = false)
    {s : String} (hs : Regex.test (unitPattern units) s = true) : Argument (template browser (.str s)) :=
  (argument_of_test hempty hundefined (fun _ => chars_of_unit hunits) hs).2

theorem argument_advanced (browser : Browser) (h : advancedConfigSchema a = some b) :
    Argument (template browser (b.get "client_max_body_size")) ∧
    Argument (template browser (b.get "keepalive_timeout")) ∧
    ((b.get "caching").truthy = true → Argument (template browser (b.get "cache_valid"))) := by
  obtain ⟨size, hsize, hsizeTest⟩ := regex_out (advanced_field h "client_max_body_size" sizeUnitSchema (by simp [advancedFields])
    (by decide))
  obtain ⟨time, htime, htimeTest⟩ := timeUnit_out (advanced_field h "keepalive_timeout" timeUnitSchema (by simp [advancedFields])
    (by decide))
  rw [hsize, htime]
  refine ⟨argument_unit (List.all_eq_true.1 rfl) (by decide) (by decide +kernel) hsizeTest,
    argument_unit (List.all_eq_true.1 rfl) (by decide) (by decide +kernel) htimeTest, fun hon => ?_⟩
  rcases cacheValid_field h with hu | ⟨s, hs, htest⟩
  · rcases (advanced_output h).caching with ⟨-, s, hs, -⟩ | ⟨hoff, -⟩
    · rw [hu] at hs
      cases hs
    · rw [hoff] at hon
      cases hon
  · rw [hs]
    exact argument_unit (List.all_eq_true.1 rfl) (by decide) (by decide +kernel) htest

theorem word_path (h : locationConfigSchema platform a = some b) : ∃ path, b.get "path" = .str path ∧ IsWord path ∧
    path ≠ "undefined" := by
  obtain ⟨hfields, -⟩ := location_fields h
  have hmem : ("path", urlPathSchema) ∈ locationFields := by simp [locationFields]
  obtain ⟨s, hs, htest⟩ := regex_out (get_object (by decide) hfields hmem)
  refine ⟨s, hs, (@argument_of_test Browser.plain urlPathPattern (by decide) (by decide +kernel)
    (fun _ => chars_of_urlPath) s htest).1, ?_⟩
  rintro rfl
  exact absurd htest (by decide +kernel)

/-! ### The lines of an accepted route -/

/-- The names of the directives that the generator writes for a server. -/
def serverNames : List String :=
  ["listen", "server_name", "root", "ssl_certificate", "ssl_certificate_key", "client_max_body_size", "keepalive_timeout",
    "gzip", "gzip_types", "proxy_cache_valid"]

def serverLines (browser : Browser) (route : Js) : List (String × String) :=
  baseLines browser route ++ certificateLines browser route ++ advancedLines browser route

theorem mem_serverNames {line : String × String} (h : line ∈ serverLines browser route) : line.1 ∈ serverNames := by
  rcases List.mem_append.1 h with h | h
  · rcases List.mem_append.1 h with h | h
    · simp only [baseLines, List.mem_cons, List.not_mem_nil, or_false] at h
      rcases h with rfl | rfl | rfl <;> simp [serverNames]
    · rw [certificateLines] at h
      split at h
      · simp only [List.mem_cons, List.not_mem_nil, or_false] at h
        rcases h with rfl | rfl <;> simp [serverNames]
      · cases h
  · simp only [advancedLines] at h
    split at h
    · rcases List.mem_append.1 h with h | h
      · rcases List.mem_append.1 h with h | h
        · simp only [List.mem_cons, List.not_mem_nil, or_false] at h
          rcases h with rfl | rfl <;> simp [serverNames]
        · split at h
          · simp only [List.mem_cons, List.not_mem_nil, or_false] at h
            rcases h with rfl | rfl <;> simp [serverNames]
          · cases h
      · split at h
        · rw [List.mem_singleton.1 h]
          simp [serverNames]
        · cases h
    · cases h

theorem isWord_serverNames : ∀ name ∈ serverNames, IsWord name := by
  decide

theorem isProper_serverNames : ∀ name ∈ serverNames, isProper name = true := by
  decide

theorem argument_baseLines (h : routeSchema platform input = some route) : ∀ line ∈ baseLines browser route,
    Argument line.2 ∨ line = ("root", "") ∧ route.get "root" = .str "" := by
  intro line hline
  simp only [baseLines, List.mem_cons, List.not_mem_nil, or_false] at hline
  rcases hline with rfl | rfl | rfl
  · exact .inl (argument_listen h)
  · exact .inl (argument_domain h)
  · rcases argument_root browser h with hempty | ⟨-, hroot⟩
    · rw [hempty]
      exact .inr ⟨rfl, rfl⟩
    · exact .inl hroot

theorem argument_certificateLines (h : routeSchema platform input = some route) :
    ∀ line ∈ certificateLines browser route, Argument line.2 := by
  intro line hline
  rw [certificateLines] at hline
  split at hline
  next hset =>
    rw [Bool.and_eq_true, Bool.and_eq_true] at hset
    have hcertificate := argument_certificate browser h hset.1.1
    simp only [certificates, List.forall_mem_cons] at hcertificate
    simp only [List.mem_cons, List.not_mem_nil, or_false] at hline
    rcases hline with rfl | rfl
    · exact hcertificate.1.2
    · exact hcertificate.2.1.2
  next => cases hline

theorem argument_advancedLines (h : routeSchema platform input = some route) : ∀ line ∈ advancedLines browser route,
    Argument line.2 ∨ ((route.get "advanced").get "gzip").truthy = true ∧
      line = ("gzip_types", template browser ((route.get "advanced").get "gzip_types")) := by
  intro line hline
  simp only [advancedLines] at hline
  split at hline
  next hset =>
    obtain ⟨adv, hadv⟩ : ∃ adv, advancedConfigSchema adv = some (route.get "advanced") := by
      have hread := route_field h "advanced" (optional advancedConfigSchema) (by simp [routeFields]) (by decide)
      rw [Zod.optional] at hread
      split at hread
      · rw [← Option.some.inj hread] at hset
        cases hset
      · exact ⟨_, hread⟩
    obtain ⟨hsize, htime, hvalid⟩ := argument_advanced browser hadv
    rcases List.mem_append.1 hline with hline | hline
    · rcases List.mem_append.1 hline with hline | hline
      · simp only [List.mem_cons, List.not_mem_nil, or_false] at hline
        rcases hline with rfl | rfl
        · exact .inl hsize
        · exact .inl htime
      · split at hline
        next hon =>
          simp only [List.mem_cons, List.not_mem_nil, or_false] at hline
          rcases hline with rfl | rfl
          · exact .inl (argument_word (by decide) (by decide))
          · exact .inr ⟨hon, rfl⟩
        next => cases hline
    · split at hline
      next hon =>
        rw [List.mem_singleton.1 hline]
        exact .inl (hvalid hon)
      next => cases hline
  next => cases hline

/-- The only text of the server that no pattern restricts, apart from a root that is empty. -/
theorem argument_serverLines (h : routeSchema platform input = some route) : ∀ line ∈ serverLines browser route,
    Argument line.2 ∨ line = ("root", "") ∧ route.get "root" = .str "" ∨
      ((route.get "advanced").get "gzip").truthy = true ∧
        line = ("gzip_types", template browser ((route.get "advanced").get "gzip_types")) := by
  intro line hline
  rcases List.mem_append.1 hline with hline | hline
  · rcases List.mem_append.1 hline with hline | hline
    · exact (argument_baseLines h line hline).imp_right .inl
    · exact .inl (argument_certificateLines h line hline)
  · exact (argument_advancedLines h line hline).imp_right .inr

theorem legible_serverLines (h : routeSchema platform input = some route)
    (hgzip : ((route.get "advanced").get "gzip").truthy = true →
      ∃ ws, Reads (shortenFrom 0 (template browser ((route.get "advanced").get "gzip_types")).toList) ws) :
    Legible (serverLines browser route) := by
  intro line hline
  refine ⟨isWord_serverNames _ (mem_serverNames hline), ?_⟩
  rcases argument_serverLines h line hline with harg | ⟨rfl, -⟩ | ⟨hon, rfl⟩
  · exact harg.legible
  · exact ⟨[], rfl⟩
  · exact hgzip hon

/-- The generator leaves out nothing but a proxy. -/
theorem settings_eq (h : routeSchema platform input = some route) (hproxy : route.get "proxy_pass" = .undefined) :
    settings browser route = serverLines browser route := by
  obtain ⟨root, hroot, hblank⟩ := (route_output h).root hproxy
  have hrootLine : setting browser "root" (route.get "root") = [("root", template browser (route.get "root"))] := by
    rw [setting, if_pos (by rw [hroot]; exact truthy_str.2 (ne_empty_of_trim hblank))]
  have hcertificates : certificateLines browser route = if (route.get "ssl").truthy then
      [("ssl_certificate", template browser (route.get "ssl_certificate")),
        ("ssl_certificate_key", template browser (route.get "ssl_certificate_key"))] else [] := by
    rw [certificateLines]
    cases hssl : (route.get "ssl").truthy with
    | false => rfl
    | true =>
      have hset := argument_certificate browser h hssl
      simp only [certificates, List.forall_mem_cons] at hset
      rw [hset.1.1, hset.2.1.1]
      rfl
  have hadvanced : (route.get "advanced").truthy = decide (route.get "advanced" ≠ .undefined) := by
    rcases optional_out (fun _ _ => advanced_typed)
      (route_field h "advanced" (optional advancedConfigSchema) (by simp [routeFields]) (by decide)) with hu | ⟨ms, hms, -⟩
    · rw [hu]
      rfl
    · rw [hms]
      rfl
  simp only [settings, serverLines, baseLines, advancedLines, hrootLine, hproxy, hcertificates, hadvanced]
  by_cases hu : route.get "advanced" = .undefined
  · simp [hu, setting, Js.truthy]
  · simp [hu, setting, Js.truthy]

theorem exists_of_forall₂ {α β : Type} {R : α → β → Prop} {l : List α} {l' : List β} (h : List.Forall₂ R l l') {a : α}
    (ha : a ∈ l) : ∃ b ∈ l', R a b := by
  induction h with
  | nil => cases ha
  | cons hab _ ih =>
    rcases List.mem_cons.1 ha with rfl | ha
    · exact ⟨_, List.mem_cons_self, hab⟩
    · obtain ⟨b, hb, hR⟩ := ih ha
      exact ⟨b, List.mem_cons_of_mem _ hb, hR⟩

variable {line : String × String} {d : Directive}

theorem argument_of_shows (h : Shows line d) (h' : Written line d) (hd : d.allWords isProper = true) : Argument line.2 := by
  obtain ⟨ws, hne, rfl, hws⟩ := h
  obtain ⟨ws', heq, hws'⟩ := h'
  obtain rfl : ws = ws' := (List.cons.inj (Directive.simple.inj heq)).2
  rw [Directive.allWords, List.all_cons, Bool.and_eq_true] at hd
  exact ⟨ws, hne, hd.2, hws, hws'⟩

theorem shows_of_argument (h : Argument line.2) (hname : isProper line.1 = true) (h' : Written line d) :
    Shows line d ∧ d.allWords isProper = true := by
  obtain ⟨ws, hne, hproper, hws, hshort⟩ := h
  obtain ⟨ws', rfl, hws'⟩ := h'
  obtain rfl := hshort.unique hws'
  refine ⟨⟨ws, hne, rfl, hws⟩, ?_⟩
  rw [Directive.allWords, List.all_cons, hname, hproper]
  rfl

/-- Every line is shown when every text is an argument. -/
theorem shows_lines {lines : List (String × String)} {ds : List Directive} (h : List.Forall₂ Written lines ds)
    (hnames : ∀ line ∈ lines, isProper line.1 = true) (hargs : ∀ line ∈ lines, Argument line.2) :
    List.Forall₂ Shows lines ds ∧ Directive.allWordsIn isProper ds = true := by
  have hall : ∀ line ∈ lines, isProper line.1 = true ∧ Argument line.2 := fun line hline =>
    ⟨hnames line hline, hargs line hline⟩
  have hboth := (List.forall₂_and_left _ _).2 ⟨hall, h⟩
  refine ⟨hboth.imp fun _ _ hd => (shows_of_argument hd.1.2 hd.1.1 hd.2).1, ?_⟩
  rw [allWordsIn_eq_all, List.all_eq_true]
  intro d hd
  obtain ⟨line, -, hline⟩ := exists_of_forall₂ hboth.flip hd
  exact (shows_of_argument hline.1.2 hline.1.1 hline.2).2

theorem isProper_locationLines (h : line ∈ locationLines browser loc) : isProper line.1 = true := by
  have hnames : ∀ name ∈ ["proxy_pass", "try_files", "index"], isProper name = true := by decide
  exact hnames _ (mem_locationLines h).1

theorem shortenFrom_extraText : shortenFrom 0 ((extraText loc).toList ++ ['\n']) =
    shortenFrom 0 (extraText loc).toList ++ ['\n'] := by
  by_cases hempty : extraText loc = ""
  · rw [hempty]
    rfl
  · obtain ⟨-, t, ht⟩ := extraText_eq rfl hempty
    rw [← ht] at hempty ⊢
    obtain ⟨l, c, hlast, hc⟩ := exists_last_of_trim hempty
    rw [hlast, List.append_assoc, List.singleton_append, shortenFrom_append_of_ne hc, shortenFrom_append_of_ne hc]
    simp [shortenFrom]

theorem showsLocation_of_showable (h : ShowableLocation browser loc) (hpath : ∃ path, loc.get "path" = .str path ∧
    isProper path = true) (h' : WrittenLocation browser loc d) : ShowsLocation browser loc d ∧ d.allWords isProper = true := by
  obtain ⟨path, shown, extra, hloc, rfl, hshown, hextra⟩ := h'
  obtain ⟨path', hloc', hproper⟩ := hpath
  rw [hloc] at hloc'
  cases hloc'
  obtain ⟨hshows, hwords⟩ := shows_lines hshown (fun _ => isProper_locationLines) h.lines
  obtain ⟨ds, hds, hraw, hshort⟩ := h.extra
  obtain rfl := hshort.unique hextra
  refine ⟨⟨path, shown, ds, hloc, rfl, hshows, hraw⟩, ?_⟩
  rw [allWordsIn_eq_all] at hwords hds
  rw [Directive.allWords, allWordsIn_eq_all, List.all_append, hwords, hds, List.all_cons, List.all_cons, hproper]
  rfl

theorem showable_of_showsLocation (h : ShowsLocation browser loc d) (h' : WrittenLocation browser loc d)
    (hd : d.allWords isProper = true) : ShowableLocation browser loc := by
  obtain ⟨path, shown, extra, -, rfl, hshows, hraw⟩ := h
  obtain ⟨path', shown', extra', -, heq, hshown, hshort⟩ := h'
  obtain ⟨-, hbody⟩ := Directive.block.inj heq
  have hlength : shown.length = shown'.length := hshows.length_eq.symm.trans hshown.length_eq
  obtain ⟨rfl, rfl⟩ := List.append_inj hbody hlength
  rw [Directive.allWords, allWordsIn_eq_all, List.all_append, Bool.and_eq_true, Bool.and_eq_true] at hd
  constructor
  · intro line hline
    have hboth := List.Forall₂.mp (fun _ _ hs hw => And.intro hs hw) hshows hshown
    obtain ⟨d, hmem, hs, hw⟩ := exists_of_forall₂ hboth hline
    exact argument_of_shows hs hw (List.all_eq_true.1 hd.2.1 d hmem)
  · exact ⟨extra, by rw [allWordsIn_eq_all]; exact hd.2.2, hraw, hshort⟩

theorem legible_of_showsLocation (hpath : ∃ path, loc.get "path" = .str path ∧ IsWord path) (h : ShowsLocation browser loc d) :
    LegibleLocation browser loc := by
  obtain ⟨-, shown, extra, -, -, hshows, hraw⟩ := h
  refine ⟨hpath, fun line hline => ⟨isWord_location _ (mem_locationLines hline).1, ?_⟩, ?_⟩
  · obtain ⟨-, -, ws, -, -, hws⟩ := exists_of_forall₂ hshows hline
    exact hws.shorten
  · have hwrites := hraw.shorten
    rwa [shortenFrom_extraText] at hwrites

/-! ### Accepted routes -/

theorem word_locations (h : routeSchema platform input = some route) (hloc : loc ∈ locationsOf route) :
    ∃ path, loc.get "path" = .str path ∧ IsWord path ∧ path ≠ "undefined" := by
  obtain ⟨ls, hls, hpaths⟩ := array_out (fun _ _ => word_path)
    (route_field h "locations" (array (locationConfigSchema platform)) (by simp [routeFields]) (by decide))
  rw [locationsOf, hls] at hloc
  exact hpaths loc hloc

theorem mem_settings_gzipTypes (browser : Browser) (hon : ((route.get "advanced").get "gzip").truthy = true) :
    ("gzip_types", template browser ((route.get "advanced").get "gzip_types")) ∈ settings browser route := by
  have hne : route.get "advanced" ≠ .undefined := by
    intro hu
    rw [hu] at hon
    cases hon
  simp [settings, hon, hne]

theorem mem_settings_proxy (h : routeSchema platform input = some route) (hproxy : route.get "proxy_pass" ≠ .undefined) :
    ∃ target, ("proxy_pass", target) ∈ settings browser route := by
  rcases proxyTarget_out (route_field h "proxy_pass" proxyTargetSchema (by simp [routeFields]) (by decide)) with hu | ⟨s, hs, hne⟩
  · exact absurd hu hproxy
  · have htruthy : (route.get "proxy_pass").truthy = true := by
      rw [hs]
      exact truthy_str.2 hne
    exact ⟨template browser (route.get "proxy_pass"), by simp [settings, setting, htruthy]⟩

theorem showable_of_showsRoute (h : routeSchema platform input = some route) (hshows : ShowsRoute browser route) :
    Showable browser route := by
  obtain ⟨simples, blocks, hparse, hsimples, hblocks, hproper⟩ := hshows
  have hgzip (hon : ((route.get "advanced").get "gzip").truthy = true) :
      ∃ ws, Reads (shortenFrom 0 (template browser ((route.get "advanced").get "gzip_types")).toList) ws := by
    obtain ⟨-, -, ws, -, -, hws⟩ := exists_of_forall₂ hsimples (mem_settings_gzipTypes browser hon)
    exact hws.shorten
  have hlocations : ∀ loc ∈ locationsOf route, LegibleLocation browser loc := by
    intro loc hloc
    obtain ⟨path, hpath, hword, -⟩ := word_locations h hloc
    obtain ⟨d, -, hd⟩ := exists_of_forall₂ hblocks hloc
    exact legible_of_showsLocation ⟨path, hpath, hword⟩ hd
  have hlegible := legible_serverLines h hgzip
  obtain ⟨simples', blocks', hwrites, hsimples', hblocks'⟩ := writes_preview
    (fun line hline => hlegible line (List.mem_append_left _ (List.mem_append_left _ hline)))
    (fun line hline => hlegible line (List.mem_append_left _ (List.mem_append_right _ hline)))
    (fun line hline => hlegible line (List.mem_append_right _ hline)) hlocations
  -- the text is read in one way
  have hbody : simples ++ blocks = simples' ++ blocks' := by
    rw [parse_of_writes hwrites, Option.some.injEq, List.cons.injEq] at hparse
    exact (Directive.block.inj hparse.1).2.symm
  have hproxy : route.get "proxy_pass" = .undefined := by
    by_contra hset
    obtain ⟨target, htarget⟩ := mem_settings_proxy h hset
    obtain ⟨d, hd, ws, -, rfl, -⟩ := exists_of_forall₂ hsimples htarget
    have hmem : Directive.simple ("proxy_pass" :: ws) ∈ simples' ++ blocks' := hbody ▸ List.mem_append_left _ hd
    rcases List.mem_append.1 hmem with hmem | hmem
    · obtain ⟨line, hline, ws', heq, -⟩ := exists_of_forall₂ hsimples'.flip hmem
      have hname := mem_serverNames hline
      rw [← (List.cons.inj (Directive.simple.inj heq)).1] at hname
      exact absurd hname (by decide)
    · obtain ⟨loc, -, path, shown, extra, -, heq, -⟩ := exists_of_forall₂ hblocks'.flip hmem
      cases heq
  rw [settings_eq h hproxy] at hsimples
  obtain ⟨rfl, rfl⟩ := List.append_inj hbody (hsimples.length_eq.symm.trans hsimples'.length_eq)
  rw [allWordsIn_eq_all, List.all_append, Bool.and_eq_true, List.all_eq_true, List.all_eq_true] at hproper
  refine ⟨hproxy, fun hon => ?_, fun loc hloc => ?_⟩
  · have hline := mem_settings_gzipTypes browser hon
    rw [settings_eq h hproxy] at hline
    obtain ⟨d, hd, hs, hw⟩ := exists_of_forall₂ (List.Forall₂.mp (fun _ _ hs hw => And.intro hs hw) hsimples hsimples') hline
    have harg := argument_of_shows hs hw (hproper.1 d hd)
    exact harg
  · obtain ⟨d, hd, hs, hw⟩ := exists_of_forall₂ (List.Forall₂.mp (fun _ _ hs hw => And.intro hs hw) hblocks hblocks') hloc
    exact showable_of_showsLocation hs hw (hproper.2 d hd)

theorem showsRoute_of_showable (h : routeSchema platform input = some route) (hshowable : Showable browser route) :
    ShowsRoute browser route := by
  have hargs : ∀ line ∈ serverLines browser route, Argument line.2 := by
    intro line hline
    rcases argument_serverLines h line hline with harg | ⟨-, hempty⟩ | ⟨hon, rfl⟩
    · exact harg
    · obtain ⟨root, hroot, hblank⟩ := (route_output h).root hshowable.proxied
      rw [hempty] at hroot
      cases hroot
      exact absurd rfl (ne_empty_of_trim hblank)
    · exact hshowable.gzipTypes hon
  have hlegible := legible_serverLines h fun hon => (hshowable.gzipTypes hon).legible
  have hlocations : ∀ loc ∈ locationsOf route, LegibleLocation browser loc := by
    intro loc hloc
    obtain ⟨path, hpath, hword, -⟩ := word_locations h hloc
    obtain ⟨hlines, ds, -, -, hds⟩ := hshowable.locations loc hloc
    exact ⟨⟨path, hpath, hword⟩, fun line hline => ⟨isWord_location _ (mem_locationLines hline).1, (hlines line hline).legible⟩,
      ds, hds⟩
  obtain ⟨simples, blocks, hwrites, hsimples, hblocks⟩ := writes_preview
    (fun line hline => hlegible line (List.mem_append_left _ (List.mem_append_left _ hline)))
    (fun line hline => hlegible line (List.mem_append_left _ (List.mem_append_right _ hline)))
    (fun line hline => hlegible line (List.mem_append_right _ hline)) hlocations
  obtain ⟨hshown, hproper⟩ := shows_lines hsimples (fun line hline => isProper_serverNames _ (mem_serverNames hline)) hargs
  have hshow : ∀ loc ∈ locationsOf route, ∀ d, WrittenLocation browser loc d →
      ShowsLocation browser loc d ∧ d.allWords isProper = true := by
    intro loc hloc d hd
    obtain ⟨path, hpath, hword, hne⟩ := word_locations h hloc
    exact showsLocation_of_showable (hshowable.locations loc hloc) ⟨path, hpath, isProper_of_isWord hword hne⟩ hd
  have hboth := (List.forall₂_and_left _ _).2 ⟨hshow, hblocks⟩
  refine ⟨simples, blocks, parse_of_writes hwrites, ?_, hboth.imp fun loc d hd => (hd.1 d hd.2).1, ?_⟩
  · rw [settings_eq h hshowable.proxied]
    exact hshown
  · rw [allWordsIn_eq_all] at hproper
    rw [allWordsIn_eq_all, List.all_append, hproper, Bool.true_and, List.all_eq_true]
    intro d hd
    obtain ⟨loc, -, hloc⟩ := exists_of_forall₂ hboth.flip hd
    exact (hloc.1 d hloc.2).2

/-- The preview of an accepted route shows it exactly when it is not proxied as a whole and its free texts are arguments. -/
theorem showsRoute_iff (browser : Browser) (h : routeSchema browser.toPlatform input = some route) :
    ShowsRoute browser route ↔ Showable browser route :=
  ⟨showable_of_showsRoute h, showsRoute_of_showable h⟩

/-- A route with one location. -/
def locationRoute (location : List (String × Js)) : Js :=
  .obj [("id", .str "a"), ("domain", .str "a.com"), ("port", .num 80), ("root", .str "/var"), ("enabled", .bool true),
    ("ssl", .bool false), ("locations", .arr [.obj (("path", .str "/") :: location)])]

def indexLocation : List (String × Js) := [("index", .str "a.html b.html")]

theorem accepted_index : ∃ route, routeSchema Browser.plain.toPlatform (locationRoute indexLocation) = some route ∧
    locationsOf route = [.obj (("path", .str "/") :: indexLocation)] ∧ route.get "advanced" = .undefined := by
  have hread : (routeSchema Browser.plain.toPlatform (locationRoute indexLocation)).map (fun r =>
      (locationsOf r, r.get "advanced")) = some ([.obj (("path", .str "/") :: indexLocation)], .undefined) := by
    decide +kernel
  obtain ⟨route, hroute, hfields⟩ := Option.map_eq_some_iff.1 hread
  obtain ⟨hlocations, hadvanced⟩ := Prod.mk.inj hfields
  exact ⟨route, hroute, hlocations, hadvanced⟩

theorem showsRoute_iff_index : ∃ route, routeSchema Browser.plain.toPlatform (locationRoute indexLocation) = some route ∧
    (ShowsRoute Browser.plain route ↔ Showable Browser.plain route) := by
  obtain ⟨route, hroute, -⟩ := accepted_index
  exact ⟨route, hroute, showsRoute_iff Browser.plain hroute⟩

/-- The target of a route that is proxied is not in its preview. -/
theorem proxy_not_shown : ∃ route, routeSchema Browser.plain.toPlatform (plainRoute "a" true) = some route ∧
    ¬ ShowsRoute Browser.plain route := by
  have haccepted : (routeSchema Browser.plain.toPlatform (plainRoute "a" true)).map (·.get "proxy_pass") =
      some (.str "http://b:80") := by decide +kernel
  obtain ⟨route, hroute, hproxy⟩ := Option.map_eq_some_iff.1 haccepted
  refine ⟨route, hroute, fun hshows => ?_⟩
  have hnone := (showable_of_showsRoute hroute hshows).proxied
  rw [hproxy] at hnone
  cases hnone

/-- `d` is the block of a location, with the directives that the generator writes for it and no others. -/
def LocationKept (browser : Browser) (loc : Js) (d : Directive) : Prop :=
  ∃ path body, loc.get "path" = .str path ∧ d = .block ["location", path] body ∧
    body.map Directive.heading = (locationLines browser loc).map fun line => (false, some line.1)

/-- The preview is one `server` block with the directives that the generator writes and the blocks of the locations. -/
def PreviewKept (browser : Browser) (route : Js) : Prop :=
  ∃ body, parse (generateConfigPreview browser route) = some [.block ["server"] body] ∧
    body.filterMap Directive.simpleName? = (serverLines browser route).map Prod.fst ∧
    List.Forall₂ (LocationKept browser) (locationsOf route) (body.filter fun d => d.block?.isSome)

/-- The free texts of a route without `extra_directives` read as words. -/
structure LegibleTexts (browser : Browser) (route : Js) : Prop where
  gzipTypes : ((route.get "advanced").get "gzip").truthy = true →
    ∃ ws, Reads (shortenFrom 0 (template browser ((route.get "advanced").get "gzip_types")).toList) ws
  locations : ∀ loc ∈ locationsOf route, ∀ line ∈ locationLines browser loc,
    ∃ ws, Reads (shortenFrom 0 line.2.toList) ws

theorem headings_of_written {lines : List (String × String)} {ds : List Directive} (h : List.Forall₂ Written lines ds) :
    ds.map Directive.heading = lines.map (fun line => (false, some line.1)) ∧
      ds.filterMap Directive.simpleName? = lines.map Prod.fst ∧ ds.filter (fun d => d.block?.isSome) = [] := by
  induction h with
  | nil => exact ⟨rfl, rfl, rfl⟩
  | cons hd _ ih =>
    obtain ⟨ws, rfl, -⟩ := hd
    obtain ⟨hheadings, hnames, hblocks⟩ := ih
    refine ⟨?_, ?_, ?_⟩
    · rw [List.map_cons, List.map_cons, hheadings]
      rfl
    · rw [List.filterMap_cons, hnames]
      rfl
    · rw [List.filter_cons_of_neg (by exact Bool.false_ne_true), hblocks]

theorem blocks_of_written {locations : List Js} {ds : List Directive} (h : List.Forall₂ (WrittenLocation browser) locations ds) :
    ds.filterMap Directive.simpleName? = [] ∧ ds.filter (fun d => d.block?.isSome) = ds := by
  induction h with
  | nil => exact ⟨rfl, rfl⟩
  | cons hd _ ih =>
    obtain ⟨path, shown, extra, -, rfl, -, -⟩ := hd
    refine ⟨?_, ?_⟩
    · rw [List.filterMap_cons_none rfl, ih.1]
    · rw [List.filter_cons_of_pos (by exact rfl), ih.2]

theorem locationKept_of_written (hextra : (loc.get "extra_directives").truthy = false) (h : WrittenLocation browser loc d) :
    LocationKept browser loc d := by
  obtain ⟨path, shown, extra, hpath, rfl, hshown, hwrites⟩ := h
  have hnone : extraText loc = "" := by
    by_contra hne
    rw [(extraText_eq rfl hne).1] at hextra
    cases hextra
  rw [hnone] at hwrites
  have hempty : Writes (shortenFrom 0 "".toList ++ ['\n']) [] := ⟨[], rfl, .nil⟩
  obtain rfl := hwrites.unique hempty
  exact ⟨path, shown ++ [], hpath, rfl, by rw [List.append_nil]; exact (headings_of_written hshown).1⟩

/-- The preview of a route without `extra_directives` keeps its structure when the free texts read as words. -/
theorem previewKept_of_legible (browser : Browser) (h : routeSchema browser.toPlatform input = some route)
    (hextra : ∀ loc ∈ locationsOf route, (loc.get "extra_directives").truthy = false) (hlegible : LegibleTexts browser route) :
    PreviewKept browser route := by
  have hserver := legible_serverLines h hlegible.gzipTypes
  have hlocations : ∀ loc ∈ locationsOf route, LegibleLocation browser loc := by
    intro loc hloc
    obtain ⟨path, hpath, hword, -⟩ := word_locations h hloc
    have hnone : extraText loc = "" := by
      by_contra hne
      have hoff := hextra loc hloc
      rw [(extraText_eq rfl hne).1] at hoff
      cases hoff
    refine ⟨⟨path, hpath, hword⟩, fun line hline => ⟨isWord_location _ (mem_locationLines hline).1, ?_⟩, [], ?_⟩
    · exact hlegible.locations loc hloc line hline
    · rw [hnone]
      exact ⟨[], rfl, .nil⟩
  obtain ⟨simples, blocks, hwrites, hsimples, hblocks⟩ := writes_preview
    (fun line hline => hserver line (List.mem_append_left _ (List.mem_append_left _ hline)))
    (fun line hline => hserver line (List.mem_append_left _ (List.mem_append_right _ hline)))
    (fun line hline => hserver line (List.mem_append_right _ hline)) hlocations
  obtain ⟨-, hnames, hnone⟩ := headings_of_written hsimples
  obtain ⟨hnone', hall⟩ := blocks_of_written hblocks
  refine ⟨simples ++ blocks, parse_of_writes hwrites, ?_, ?_⟩
  · rw [List.filterMap_append, hnames, hnone', List.append_nil]
    rfl
  · rw [List.filter_append, hnone, hall, List.nil_append]
    have hboth := (List.forall₂_and_left _ _).2 ⟨hextra, hblocks⟩
    exact hboth.imp fun loc d hd => locationKept_of_written hd.1 hd.2

theorem previewKept_index : ∃ route, routeSchema Browser.plain.toPlatform (locationRoute indexLocation) = some route ∧
    PreviewKept Browser.plain route := by
  obtain ⟨route, hroute, hlocations, hadvanced⟩ := accepted_index
  have hlines : locationLines Browser.plain (.obj (("path", .str "/") :: indexLocation)) = [("index", "a.html b.html")] := by
    decide +kernel
  refine ⟨route, hroute, previewKept_of_legible Browser.plain hroute ?_ ⟨fun hon => ?_, ?_⟩⟩
  · rw [hlocations, List.forall_mem_singleton]
    rfl
  · rw [hadvanced] at hon
    cases hon
  · rw [hlocations, List.forall_mem_singleton, hlines, List.forall_mem_singleton]
    exact ⟨["a.html", "b.html"], by decide +kernel⟩

/-- The files to try end their block and start another one. -/
def brokenLocation : List (String × Js) := [("try_files", .str "/a; \x7d location /b \x7b return 200")]

/-- The blocks of the outermost block. -/
def blockCount : List Directive → Nat
  | [.block _ body] => (body.filter fun d => d.block?.isSome).length
  | _ => 0

theorem preview_broken : ∃ route, routeSchema Browser.plain.toPlatform (locationRoute brokenLocation) = some route ∧
    (∀ loc ∈ locationsOf route, (loc.get "extra_directives").truthy = false) ∧ ¬ PreviewKept Browser.plain route := by
  have hread : (routeSchema Browser.plain.toPlatform (locationRoute brokenLocation)).map (fun r =>
      ((locationsOf r).map fun loc => (loc.get "extra_directives").truthy,
        (parse (generateConfigPreview Browser.plain r)).map blockCount)) = some ([false], some 2) := by decide +kernel
  obtain ⟨route, hroute, hfields⟩ := Option.map_eq_some_iff.1 hread
  obtain ⟨hextra, hblocks⟩ := Prod.mk.inj hfields
  obtain ⟨loc, hloc, hnone⟩ := List.map_eq_singleton_iff.1 hextra
  refine ⟨route, hroute, by rw [hloc, List.forall_mem_singleton]; exact hnone, ?_⟩
  rintro ⟨body, hparse, -, hkept⟩
  rw [hparse] at hblocks
  -- two blocks for one location
  have hcount : (body.filter fun d => d.block?.isSome).length = 2 := Option.some.inj hblocks
  rw [← hkept.length_eq, hloc] at hcount
  exact absurd hcount (by simp)

end NginxAdmin.Web
