import NginxAdmin.Daemon.Crash
import NginxAdmin.Daemon.PutResult
import NginxAdmin.Daemon.Schema

/-!
# Committed documents and the published schema

`validate_state` checks a part of what the schema asks for. For an accepted state, `Publishable` is the rest, and
`committed_iff` says that nothing else is missing: most of all, an absent option is written as `null`, which no
property of the schema admits.
-/

namespace NginxAdmin.Daemon

/-- The word `bearer` in any case. -/
def hasBearer (s : String) : Bool := Text.contains (Text.toAsciiLowercase s) "bearer"

def isName (s : String) : Bool := decide (1 ≤ s.length ∧ s.length ≤ 128) && s.toList.all StateSchema.isIdChar

structure Listen.Publishable (l : Listen) : Prop where
  port : l.port ≠ 0
  http2 : l.http2 ≠ none
  defaultServer : l.defaultServer ≠ none

structure Tls.Publishable (t : Tls) : Prop where
  certificate : Text.startsWithChar t.certificate '/' = true
  certificateKey : Text.startsWithChar t.certificateKey '/' = true

def RouteAction.Publishable : RouteAction → Prop
  | proxyPass target => StateSchema.IsTarget target.toList ∧ hasBearer target = false
  | static root index => Text.startsWithChar root '/' = true ∧ index ≠ none
  | redirect url code => hasBearer url = false ∧ ¬ StateSchema.HasUserInfo url.toList ∧ code ∈ [301, 302, 307, 308]

structure Header.Publishable (h : Header) : Prop where
  name : h.name ≠ ""
  value : hasBearer h.value = false

structure RateLimit.Publishable (r : RateLimit) : Prop where
  rate : StateSchema.IsRate r.rate.toList
  burst : r.burst ≠ none
  nodelay : r.nodelay ≠ none

structure Route.Publishable (r : Route) : Prop where
  id : isName r.id = true
  matchType : ∃ m ∈ ["prefix", "exact", "regex"], r.matchType = some m
  action : r.action.Publishable
  headers : ∃ hs, r.headers = some hs ∧ ∀ h ∈ hs, h.Publishable
  rateLimit : ∃ limit, r.rateLimit = some limit ∧ limit.Publishable

structure Server.Publishable (s : Server) : Prop where
  id : isName s.id = true
  serverName : 1 ≤ s.serverName.length ∧ s.serverName.length ≤ 253
  listen : s.listen ≠ [] ∧ ∀ l ∈ s.listen, l.Publishable
  routes : ∀ r ∈ s.routes, r.Publishable
  tls : ∃ t, s.tls = some t ∧ t.Publishable
  extraDirectives : s.extraDirectives ≠ none

structure ControlPlaneState.Publishable (x : ControlPlaneState) : Prop where
  updatedBy : x.updatedBy.length ≤ 256
  servers : ∀ s ∈ x.servers, s.Publishable

open Regex Json Schema

theorem containsSensitiveDirective_false {v : String} (h : containsSensitiveDirective v = false) :
    ∀ w ∈ StateSchema.directiveWords, Text.contains (Text.toAsciiLowercase v) w = false := by
  simp only [containsSensitiveDirective, List.any_eq_false, Bool.not_eq_true] at h
  intro w hw
  exact h w (by revert w; decide)

theorem test_directiveWords {v : String} (h : containsSensitiveDirective v = false) :
    test (alts (StateSchema.directiveWords.map StateSchema.anyCase)) v = false := by
  rw [← Bool.not_eq_true, StateSchema.test_words (by decide)]
  rintro ⟨w, hw, hv⟩
  rw [containsSensitiveDirective_false h w hw] at hv
  cases hv

/-- The words of the schema are those of the validator and `bearer`. -/
theorem test_bearerWords {v : String} (h : containsSensitiveDirective v = false) :
    test (alts ((StateSchema.directiveWords ++ ["bearer"]).map StateSchema.anyCase)) v = hasBearer v := by
  rw [Bool.eq_iff_iff, StateSchema.test_words (by decide)]
  constructor
  · rintro ⟨w, hw, hv⟩
    rcases List.mem_append.1 hw with hw | hw
    · rw [containsSensitiveDirective_false h w hw] at hv
      cases hv
    · rwa [List.mem_singleton.1 hw] at hv
  · intro hv
    exact ⟨"bearer", by decide, hv⟩

theorem test_urlWords {v : String} (h : containsSensitiveDirective v = false) :
    test (alts ((StateSchema.directiveWords ++ ["bearer"]).map StateSchema.anyCase ++ [StateSchema.userInfoPattern])) v =
      false ↔ hasBearer v = false ∧ ¬ StateSchema.HasUserInfo v.toList := by
  have hboth : test (alts ((StateSchema.directiveWords ++ ["bearer"]).map StateSchema.anyCase ++
      [StateSchema.userInfoPattern])) v = true ↔ hasBearer v = true ∨ StateSchema.HasUserInfo v.toList := by
    rw [← test_bearerWords h, test_alts, test_alts, ← StateSchema.test_userInfoPattern]
    simp only [List.mem_append, List.mem_singleton, or_and_right, exists_or, exists_eq_left]
  rw [← Bool.not_eq_true, hboth, not_or, Bool.not_eq_true]

theorem test_nameWords {v : String} (h : isSensitiveName v = false) :
    test (alts (StateSchema.nameWords.map StateSchema.anyCase)) v = false := by
  simp only [isSensitiveName, List.any_eq_false, Bool.not_eq_true] at h
  rw [← Bool.not_eq_true, StateSchema.test_words (by decide)]
  rintro ⟨w, hw, hv⟩
  rw [h w hw] at hv
  cases hv

@[simp] theorem type_ofOption_bool (o : Option Bool) : type .boolean (ofOption bool o) = true ↔ o ≠ none := by
  cases o <;> simp [type, ofOption]

theorem Listen.published_iff (l : Listen) : StateSchema.listen l.toJson = true ↔ l.Publishable := by
  have hport : (1 ≤ l.port.toNat ∧ l.port.toNat ≤ 65535) ↔ l.port ≠ 0 := by
    have hlt := l.port.toNat_lt_size
    rw [UInt16.size] at hlt
    rw [ne_eq, ← UInt16.toNat_inj, UInt16.toNat_zero]
    omega
  rw [StateSchema.listen, toJson, object_obj rfl (by decide) (by decide)]
  simp only [List.forall₂_cons, List.Forall₂.nil, and_true, type_ofOption_bool, Schema.all_cons, Schema.all_nil]
  simp only [type, minimum, maximum, Bool.true_and, Bool.and_true, Bool.and_eq_true, decide_eq_true_eq, true_and]
  have hport' : ((1 : Int) ≤ l.port.toNat ∧ (l.port.toNat : Int) ≤ 65535) ↔ l.port ≠ 0 := by
    rw [← hport]
    omega
  rw [hport']
  constructor
  · rintro ⟨hport, hhttp2, hdefault⟩
    exact ⟨hport, hhttp2, hdefault⟩
  · exact fun h => ⟨h.port, h.http2, h.defaultServer⟩

theorem Tls.published_iff (t : Tls) : StateSchema.tls t.toJson = true ↔ t.Publishable := by
  rw [StateSchema.tls, toJson, object_obj rfl (by decide) (by decide)]
  simp only [List.forall₂_cons, List.Forall₂.nil, and_true, Schema.all_cons, Schema.all_nil, pattern_str, type,
    Bool.true_and, Bool.and_true, StateSchema.test_absolutePattern]
  constructor
  · rintro ⟨hcertificate, hkey⟩
    exact ⟨hcertificate, hkey⟩
  · exact fun h => ⟨h.certificate, h.certificateKey⟩

theorem Header.published_iff {h : Header} (hname : isSensitiveName h.name = false)
    (hvalue : containsSensitiveDirective h.value = false) : StateSchema.header h.toJson = true ↔ h.Publishable := by
  have hne : 1 ≤ h.name.length ↔ h.name ≠ "" := by
    rw [Nat.one_le_iff_ne_zero, ne_eq, String.length_eq_zero_iff]
  rw [StateSchema.header, toJson, object_obj rfl (by decide) (by decide)]
  simp only [List.forall₂_cons, List.Forall₂.nil, and_true, Schema.all_cons, Schema.all_nil, pattern_str, type, minLength,
    not_apply, Bool.true_and, Bool.and_true, test_nameWords hname, test_bearerWords hvalue, Bool.not_false,
    decide_eq_true_eq, hne, Bool.not_eq_true']
  constructor
  · rintro ⟨hn, hv⟩
    exact ⟨hn, hv⟩
  · exact fun h => ⟨h.name, h.value⟩

theorem RateLimit.published_iff (r : RateLimit) : StateSchema.rateLimit r.toJson = true ↔ r.Publishable := by
  have hburst : Schema.all [type .integer, minimum 0] (ofOption (fun n : UInt32 => int n.toNat) r.burst) = true ↔
      r.burst ≠ none := by
    cases r.burst <;> simp [type, minimum, ofOption]
  rw [StateSchema.rateLimit, toJson, object_obj rfl (by decide) (by decide)]
  simp only [List.forall₂_cons, List.Forall₂.nil, and_true, hburst, type_ofOption_bool]
  simp only [Schema.all_cons, Schema.all_nil, pattern_str, type, Bool.true_and, Bool.and_true,
    StateSchema.test_ratePattern, true_and]
  constructor
  · rintro ⟨hrate, hburst, hnodelay⟩
    exact ⟨hrate, hburst, hnodelay⟩
  · exact fun h => ⟨h.rate, h.burst, h.nodelay⟩

/-- The object of one variant lacks a property of each of the others. -/
theorem RouteAction.published_variant (a : RouteAction) : StateSchema.action a.toJson = true ↔ match a with
    | .proxyPass _ => StateSchema.proxyPass a.toJson = true
    | .static _ _ => StateSchema.static a.toJson = true
    | .redirect _ _ => StateSchema.redirect a.toJson = true := by
  have hmissing : ∀ {names : List String} {ps : List (String × Schema)} {ms : List (String × Json)} (name : String),
      name ∈ names → name ∉ ms.map Prod.fst → object names ps (obj ms) = false := fun _ => object_missing
  cases a with
  | proxyPass target =>
    have hs : StateSchema.static (toJson (.proxyPass target)) = false := hmissing "root" (by decide) (by simp)
    have hr : StateSchema.redirect (toJson (.proxyPass target)) = false := hmissing "url" (by decide) (by simp)
    simp [StateSchema.action, oneOf, List.countP_cons, hs, hr]
  | static root index =>
    have hp : StateSchema.proxyPass (toJson (.static root index)) = false := hmissing "target" (by decide) (by simp)
    have hr : StateSchema.redirect (toJson (.static root index)) = false := hmissing "url" (by decide) (by simp)
    simp [StateSchema.action, oneOf, List.countP_cons, hp, hr]
  | redirect url code =>
    have hp : StateSchema.proxyPass (toJson (.redirect url code)) = false := hmissing "target" (by decide) (by simp)
    have hs : StateSchema.static (toJson (.redirect url code)) = false := hmissing "root" (by decide) (by simp)
    simp [StateSchema.action, oneOf, List.countP_cons, hp, hs]

theorem RouteAction.published_iff {a : RouteAction}
    (hlink : ∀ v ∈ a.link, targetContainsCredentials v = false ∧ containsSensitiveDirective v = false) :
    StateSchema.action a.toJson = true ↔ a.Publishable := by
  rw [published_variant]
  cases a with
  | proxyPass target =>
    have hwords := (hlink target rfl).2
    dsimp only
    rw [StateSchema.proxyPass, toJson, object_obj rfl (by decide) (by decide)]
    simp only [List.forall₂_cons, List.Forall₂.nil, and_true, Schema.all_cons, Schema.all_nil, pattern_str, type, const,
      enumStr, not_apply, Bool.true_and, Bool.and_true, test_bearerWords hwords, Bool.and_eq_true,
      StateSchema.test_targetPattern, Bool.not_eq_true', List.mem_singleton, decide_true, true_and, Publishable]
  | static root index =>
    have hindex : type .string (ofOption str index) = true ↔ index ≠ none := by
      cases index <;> simp [type, ofOption]
    dsimp only
    rw [StateSchema.static, toJson, object_obj rfl (by decide) (by decide)]
    simp only [List.forall₂_cons, List.Forall₂.nil, and_true, hindex, Schema.all_cons, Schema.all_nil, pattern_str,
      const, enumStr, List.mem_singleton, decide_true, true_and, Publishable, StateSchema.test_absolutePattern,
      Bool.and_eq_true]
    simp only [type, true_and]
  | redirect url code =>
    have hwords := (hlink url rfl).2
    have hcode : enumInt [301, 302, 307, 308] (int code.toNat) = true ↔ code ∈ [301, 302, 307, 308] := by
      have hnat : ∀ k : UInt16, (code.toNat : Int) = k.toNat ↔ code = k := fun k => by
        rw [← UInt16.toNat_inj]
        omega
      simp only [enumInt, decide_eq_true_eq, List.mem_cons, List.not_mem_nil, or_false]
      exact or_congr (hnat 301) (or_congr (hnat 302) (or_congr (hnat 307) (hnat 308)))
    dsimp only
    rw [StateSchema.redirect, toJson, object_obj rfl (by decide) (by decide)]
    simp only [List.forall₂_cons, List.Forall₂.nil, and_true, Schema.all_cons, Schema.all_nil, pattern_str, type, const,
      enumStr, not_apply, Bool.true_and, Bool.and_true, test_urlWords hwords, Bool.not_eq_true', List.mem_singleton,
      decide_true, true_and, Publishable, hcode, and_assoc]

theorem test_isName {s : String} : test StateSchema.idPattern s = true ↔ isName s = true := by
  rw [StateSchema.test_idPattern, isName, Bool.and_eq_true, decide_eq_true_eq, List.all_eq_true]

theorem Route.published_iff {r : Route} (hr : r.Accepted) : StateSchema.route r.toJson = true ↔ r.Publishable := by
  have hmatch : Schema.all [type .string, enumStr ["prefix", "exact", "regex"]] (ofOption str r.matchType) = true ↔
      ∃ m ∈ ["prefix", "exact", "regex"], r.matchType = some m := by
    cases r.matchType <;> simp [type, enumStr, ofOption]
  have hheaders : Schema.all [type .array, items StateSchema.header]
      (ofOption (fun hs : List Header => arr (hs.map Header.toJson)) r.headers) = true ↔
      ∃ hs, r.headers = some hs ∧ ∀ h ∈ hs, h.Publishable := by
    have haccepted := hr.headers
    cases hs : r.headers with
    | none => simp [type, ofOption]
    | some hs' =>
      rw [hs, Option.getD_some] at haccepted
      simp only [ofOption, Schema.all_cons, Schema.all_nil, type, Bool.true_and, Bool.and_true, items_map, List.all_eq_true,
        Option.some.injEq, exists_eq_left']
      exact forall₂_congr fun h hh => Header.published_iff (haccepted h hh).1 (haccepted h hh).2
  have hlimit : StateSchema.rateLimit (ofOption RateLimit.toJson r.rateLimit) = true ↔
      ∃ limit, r.rateLimit = some limit ∧ limit.Publishable := by
    cases r.rateLimit with
    | none => simp [StateSchema.rateLimit, object, type, ofOption]
    | some limit => simp [ofOption, RateLimit.published_iff]
  have haction := RouteAction.published_iff hr.link
  have hpath := StateSchema.test_pathPattern.2 hr.path
  rw [StateSchema.route, toJson, object_obj rfl (by decide) (by decide)]
  simp only [List.forall₂_cons, List.Forall₂.nil, and_true, hmatch, hheaders, hlimit, haction]
  simp only [Schema.all_cons, Schema.all_nil, pattern_str, type, Bool.true_and, Bool.and_true, test_isName, hpath, true_and,
    and_true]
  constructor
  · rintro ⟨hid, hm, ha, hh, hl⟩
    exact ⟨hid, hm, ha, hh, hl⟩
  · exact fun h => ⟨h.id, h.matchType, h.action, h.headers, h.rateLimit⟩

theorem Server.published_iff {s : Server} (hs : s.Accepted) : StateSchema.server s.toJson = true ↔ s.Publishable := by
  have htls : StateSchema.tls (ofOption Tls.toJson s.tls) = true ↔ ∃ t, s.tls = some t ∧ t.Publishable := by
    cases s.tls with
    | none => simp [StateSchema.tls, object, type, ofOption]
    | some t => simp [ofOption, Tls.published_iff]
  have hextra : Schema.all [type .array,
        items (Schema.all [type .string, Schema.not (pattern (alts (StateSchema.directiveWords.map StateSchema.anyCase)))])]
      (ofOption (fun ds : List String => arr (ds.map str)) s.extraDirectives) = true ↔ s.extraDirectives ≠ none := by
    have haccepted := hs.directives
    cases hd : s.extraDirectives with
    | none => simp [type, ofOption]
    | some ds =>
      rw [hd, Option.getD_some] at haccepted
      simp only [ofOption, Schema.all_cons, Schema.all_nil, type, Bool.true_and, Bool.and_true, items_map, List.all_eq_true,
        not_apply, pattern_str, ne_eq, reduceCtorEq, not_false_eq_true, iff_true]
      intro d hd'
      rw [test_directiveWords (haccepted d hd')]
      rfl
  have hlisten : (s.listen.all fun l => StateSchema.listen l.toJson) = true ↔ ∀ l ∈ s.listen, l.Publishable := by
    rw [List.all_eq_true]
    exact forall₂_congr fun l _ => l.published_iff
  have hroutes : (s.routes.all fun r => StateSchema.route r.toJson) = true ↔ ∀ r ∈ s.routes, r.Publishable := by
    rw [List.all_eq_true]
    exact forall₂_congr fun r hr => Route.published_iff (hs.routes r hr)
  have hsome : 1 ≤ s.listen.length ↔ s.listen ≠ [] := List.length_pos_iff
  rw [StateSchema.server, toJson, object_obj rfl (by decide) (by decide)]
  simp only [List.forall₂_cons, List.Forall₂.nil, and_true, htls, hextra]
  simp only [Schema.all_cons, Schema.all_nil, pattern_str, type, minLength, maxLength, minItems, Bool.true_and,
    Bool.and_true, Bool.and_eq_true, decide_eq_true_eq, items_map, List.length_map, hlisten, hroutes, hsome, test_isName,
    and_true]
  constructor
  · rintro ⟨hid, hn, hl, hr, ht, he⟩
    exact ⟨hid, hn, hl, hr, ht, he⟩
  · exact fun h => ⟨h.id, h.serverName, h.listen, h.routes, h.tls, h.extraDirectives⟩

theorem ControlPlaneState.published_iff {formatTime : DateTime → String} {x : ControlPlaneState} (hvalid : validateState x = .ok ())
    (hby : x.updatedBy ≠ "") : StateSchema.committed (x.toJson formatTime) = true ↔ x.Publishable := by
  have hservers : (x.servers.all fun s => StateSchema.server s.toJson) = true ↔ ∀ s ∈ x.servers, s.Publishable := by
    rw [List.all_eq_true]
    exact forall₂_congr fun s hs => Server.published_iff ((validateState_ok_iff x).1 hvalid s hs)
  have hlen : 1 ≤ x.updatedBy.length := by
    rw [Nat.one_le_iff_ne_zero, ne_eq, String.length_eq_zero_iff]
    exact hby
  have hlookup : StateSchema.committed (x.toJson formatTime) =
      (decide (x.updatedBy.length ≤ 256) && x.servers.all fun s => StateSchema.server s.toJson) := by
    simp [StateSchema.committed, properties, ControlPlaneState.toJson, List.lookup_cons, type, minLength, maxLength, hlen,
      Function.comp_def]
  rw [hlookup, Bool.and_eq_true, decide_eq_true_eq, hservers]
  constructor
  · rintro ⟨hupdated, hall⟩
    exact ⟨hupdated, hall⟩
  · exact fun h => ⟨h.updatedBy, h.servers⟩

theorem trim_empty : Text.trim "" = "" := by decide

/-- What `put_state` commits satisfies the schema if and only if the draft was publishable. -/
theorem committed_iff (format : Format) {cfg : DaemonConfig} {w : World} {reqs : List Request}
    {p : Pool Op.Res Moment Response} (hp : (start cfg format.serde w reqs).Reach machine.machine p) {t : Nat}
    {expected : UInt64} {draft x : ControlPlaneState} (hreq : reqs[t]? = some (.putState expected draft))
    (hret : p.threads t = some (.ret (.put (.ok x)))) :
    StateSchema.committed (x.toJson format.formatTime) = true ↔ draft.Publishable := by
  obtain ⟨hby, ⟨current, n, -, rfl⟩, hvalid⟩ := acceptedAs_of_put hp hreq hret
  have hne : draft.updatedBy ≠ "" := fun he => hby (by rw [he, trim_empty])
  rw [ControlPlaneState.published_iff hvalid hne]
  exact ⟨fun ⟨h, h'⟩ => ⟨h, h'⟩, fun ⟨h, h'⟩ => ⟨h, h'⟩⟩

/-- A server of which everything is given. -/
def fullServer : Server where
  id := "web"
  serverName := "example.org"
  listen := [⟨443, true, some true, some false⟩]
  routes := [⟨"home", "/", some "prefix", .redirect "https://example.org/start" 302, some [⟨"X-Frame-Options", "DENY"⟩],
    some ⟨"web", "10r/s", some 5, some true⟩, true⟩]
  tls := some ⟨"/etc/ssl/web.pem", "/etc/ssl/web.pk"⟩
  extraDirectives := some ["gzip on"]
  enabled := true

def putServer (server : Server) : Request := .putState 0 { sampleDraft with servers := [server] }

/-- A put of one server: whether the document that it commits satisfies the schema. -/
def putDocument (server : Server) : Option Bool :=
  (machine.schedule (turns 0 7) (start .defaults Format.text.serde textWorld [putServer server])).bind fun p =>
    (putResult p 0).bind fun r => r.toOption.map fun x => StateSchema.committed (x.toJson Format.text.formatTime)

theorem exists_of_putDocument {server : Server} {b : Bool} (h : putDocument server = some b) :
    ∃ p x, (start .defaults Format.text.serde textWorld [putServer server]).Reach machine.machine p ∧
      p.threads 0 = some (.ret (.put (.ok x))) ∧ StateSchema.committed (x.toJson Format.text.formatTime) = b := by
  obtain ⟨p, hp, hres⟩ := Option.bind_eq_some_iff.1 h
  obtain ⟨r, hr, hok⟩ := Option.bind_eq_some_iff.1 hres
  obtain ⟨x, hx, hschema⟩ := Option.map_eq_some_iff.1 hok
  cases r with
  | error e => cases hx
  | ok y =>
    obtain rfl := Option.some.inj hx
    exact ⟨p, y, Exec.reach_of_schedule hp, putResult_eq_some.1 hr, hschema⟩

theorem committed_iff_full : ∃ p x, (start .defaults Format.text.serde textWorld [putServer fullServer]).Reach
      machine.machine p ∧ p.threads 0 = some (.ret (.put (.ok x))) ∧
    StateSchema.committed (x.toJson Format.text.formatTime) = true ∧
    ControlPlaneState.Publishable { sampleDraft with servers := [fullServer] } := by
  have hrun : putDocument fullServer = some true := by decide +kernel
  obtain ⟨p, x, hp, hret, hschema⟩ := exists_of_putDocument hrun
  exact ⟨p, x, hp, hret, hschema, (committed_iff Format.text hp rfl hret).1 hschema⟩

/-- A server without TLS: `"tls": null` is not what the schema says of `tls`. -/
theorem committed_not_conforming : ∃ p x, (start .defaults Format.text.serde textWorld [putServer (sampleServer "a")]).Reach
      machine.machine p ∧ p.threads 0 = some (.ret (.put (.ok x))) ∧
    StateSchema.committed (x.toJson Format.text.formatTime) = false := by
  have hrun : putDocument (sampleServer "a") = some false := by decide +kernel
  exact exists_of_putDocument hrun

end NginxAdmin.Daemon
