import NginxAdmin.Daemon.Accepted
import NginxAdmin.Daemon.Crash
import NginxAdmin.Daemon.PutResult
import NginxAdmin.Web.Secrets

/-!
# The detectors of the client against those of the daemon

Both sides look for credentials in a text. The daemon knows one word less, folds ASCII only, and looks at the
authority of the first URL only; `stricter_iff` says for which texts it is nevertheless as strict as the client.
-/

namespace NginxAdmin.Web

open Daemon (ControlPlaneState DaemonConfig Serde World Server Op Moment Format start machine)

/-- `v` is a directive of a server or the value of a header. -/
def CarriesText (v : String) (draft : ControlPlaneState) : Prop :=
  ∃ s ∈ draft.servers, v ∈ s.extraDirectives.getD [] ∨ ∃ r ∈ s.routes, ∃ h ∈ r.headers.getD [], h.value = v

/-- `v` is the target of a proxy or the url of a redirect. -/
def CarriesLink (v : String) (draft : ControlPlaneState) : Prop :=
  ∃ s ∈ draft.servers, ∃ r ∈ s.routes, v ∈ r.action.link

/-- In no run of the daemon does `put_state` return a state for such a draft. -/
def Rejects (C : ControlPlaneState → Prop) : Prop :=
  ∀ draft, C draft → ∀ (cfg : DaemonConfig) (serde : Serde) (w : World) (reqs : List Daemon.Request)
    (p : Pool Op.Res Moment Daemon.Response), (start cfg serde w reqs).Reach machine.machine p →
    ∀ t expected, reqs[t]? = some (.putState expected draft) → ∀ x, p.threads t ≠ some (.ret (.put (.ok x)))

/-- What the client flags, the daemon rejects. -/
def Stricter (lower : LowerCase) (v : String) : Prop :=
  (containsSensitiveDirective lower v = true → Rejects (CarriesText v)) ∧
  (containsSensitiveDirective lower v = true ∨ Regex.test urlWithCredentialsPattern.regex v = true →
    Rejects (CarriesLink v))

/-- A word of the client that the daemon lacks, or that it misses when the `k` is a Kelvin sign. -/
def HasClientWord (v : String) : Prop :=
  ∃ word ∈ ["bearer", "cookie", "token"], word.toList <:+: v.toList.map LowerCase.fold

/-- A URL with credentials elsewhere than at the first `://`. -/
def LaterUrl (v : String) : Prop :=
  ∃ rest, UrlAt v.toList rest ∧ Text.afterFirst "://".toList v.toList ≠ some rest

/-- Where the two sides agree about `v`. -/
def Agreed (v : String) : Prop :=
  Daemon.containsSensitiveDirective v = true ∨
    (¬ HasClientWord v ∧ (Daemon.targetContainsCredentials v = true ∨ ¬ LaterUrl v))

theorem rejects_of_not_accepted {C : ControlPlaneState → Prop}
    (h : ∀ draft, C draft → ¬ ∀ s ∈ draft.servers, Server.Accepted s) : Rejects C := by
  intro draft hC cfg serde w reqs p hp t expected hreq x hret
  obtain ⟨-, ⟨current, n, -, rfl⟩, hvalid⟩ := Daemon.acceptedAs_of_put hp hreq hret
  exact h draft hC ((Daemon.validateState_ok_iff _).1 hvalid)

/-- A draft of one server. -/
def draftOf (server : Server) : ControlPlaneState := { Daemon.sampleDraft with servers := [server] }

theorem not_rejects_of_accepted {C : ControlPlaneState → Prop} {server : Server} (hC : C (draftOf server))
    (hserver : server.Accepted) : ¬ Rejects C := by
  intro h
  have hvalid : Daemon.validateState (Daemon.commitDraft Daemon.textWorld.state (draftOf server) 0) = .ok () :=
    (Daemon.validateState_ok_iff _).2 fun s hs => by rw [List.mem_singleton.1 hs]; exact hserver
  have hby : Text.trim (draftOf server).updatedBy ≠ "" := by
    have hsample : Text.trim Daemon.sampleDraft.updatedBy ≠ "" := by decide
    exact hsample
  have hpayload : Format.text.serde.toVecPretty (Daemon.commitDraft Daemon.textWorld.state (draftOf server) 0) =
      .ok _ := rfl
  obtain ⟨p, hp, hret⟩ := Daemon.exists_put .defaults (w := Daemon.textWorld) rfl hby hvalid hpayload
  exact h _ hC _ _ _ _ p hp 0 _ rfl _ hret

/-- A server with one directive and no routes. -/
def directiveServer (v : String) : Server := ⟨"a", "a", [], [], none, some [v], true⟩

/-- A server with one proxy. -/
def proxyServer (v : String) : Server := ⟨"a", "a", [], [⟨"r", "/", none, .proxyPass v, none, none, true⟩], none, none, true⟩

theorem trim_a : Text.trim "a" ≠ "" := by decide

theorem accepted_directiveServer {v : String} (hv : Daemon.containsSensitiveDirective v = false) :
    (directiveServer v).Accepted where
  id := trim_a
  listens := List.nodup_nil
  directives d hd := by rw [List.mem_singleton.1 hd]; exact hv
  paths := List.nodup_nil
  routes := List.forall_mem_nil _

theorem accepted_proxyServer {v : String} (hcredentials : Daemon.targetContainsCredentials v = false)
    (hv : Daemon.containsSensitiveDirective v = false) : (proxyServer v).Accepted where
  id := trim_a
  listens := List.nodup_nil
  directives := List.forall_mem_nil _
  paths := List.nodup_singleton _
  routes r hr := by
    obtain rfl := List.mem_singleton.1 hr
    have hpath : Text.startsWithChar "/" '/' = true := by decide
    exact ⟨hpath, List.forall_mem_nil _, fun u hu => by rw [← Option.some.inj hu]; exact ⟨hcredentials, hv⟩⟩

theorem rejects_text_iff {v : String} : Rejects (CarriesText v) ↔ Daemon.containsSensitiveDirective v = true := by
  constructor
  · intro h
    by_contra hv
    have hserver := accepted_directiveServer (Bool.eq_false_iff.2 hv)
    exact not_rejects_of_accepted ⟨_, List.mem_cons_self, .inl List.mem_cons_self⟩ hserver h
  · rintro hv
    refine rejects_of_not_accepted ?_
    rintro draft ⟨s, hs, hdirective | ⟨r, hr, header, hheader, rfl⟩⟩ haccepted
    · have := (haccepted s hs).directives v hdirective
      rw [hv] at this
      cases this
    · have := (((haccepted s hs).routes r hr).headers header hheader).2
      rw [hv] at this
      cases this

theorem rejects_link_iff {v : String} : Rejects (CarriesLink v) ↔
    Daemon.targetContainsCredentials v = true ∨ Daemon.containsSensitiveDirective v = true := by
  constructor
  · intro h
    by_contra hv
    obtain ⟨hcredentials, hv⟩ := not_or.1 hv
    have hserver := accepted_proxyServer (Bool.eq_false_iff.2 hcredentials) (Bool.eq_false_iff.2 hv)
    exact not_rejects_of_accepted ⟨_, List.mem_cons_self, _, List.mem_cons_self, rfl⟩ hserver h
  · intro hv
    refine rejects_of_not_accepted ?_
    rintro draft ⟨s, hs, r, hr, hlink⟩ haccepted
    obtain ⟨h₁, h₂⟩ := ((haccepted s hs).routes r hr).link v hlink
    rw [h₁, h₂] at hv
    rcases hv with hv | hv <;> cases hv

theorem daemon_containsSensitiveDirective_iff {v : String} : Daemon.containsSensitiveDirective v = true ↔
    ∃ needle ∈ sensitiveWords.dropLast, needle.toList <:+: v.toList.map Char.toLower := by
  have hwords : Daemon.containsSensitiveDirective v =
      sensitiveWords.dropLast.any fun needle => Text.contains (Text.toAsciiLowercase v) needle := rfl
  rw [hwords, List.any_eq_true]
  simp only [Text.contains, Text.toAsciiLowercase, String.toList_ofList, decide_eq_true_eq]

theorem flagged_iff (lower : LowerCase) {v : String} : containsSensitiveDirective lower v = true ↔
    Daemon.containsSensitiveDirective v = true ∨ HasClientWord v := by
  rw [containsSensitiveDirective_iff, daemon_containsSensitiveDirective_iff]
  constructor
  · rintro ⟨needle, hmem, hneedle⟩
    by_cases hclient : needle ∈ ["bearer", "cookie", "token"]
    · exact .inr ⟨needle, hclient, hneedle⟩
    · have hplain : ∀ needle ∈ sensitiveWords, needle ∉ ["bearer", "cookie", "token"] →
          needle ∈ sensitiveWords.dropLast ∧ 'k' ∉ needle.toList := by decide
      obtain ⟨hdaemon, hk⟩ := hplain needle hmem hclient
      exact .inl ⟨needle, hdaemon, LowerCase.infix_toLower_of_fold hk hneedle⟩
  · rintro (⟨needle, hmem, hneedle⟩ | ⟨needle, hmem, hneedle⟩)
    · have hmem' := List.mem_of_mem_dropLast hmem
      exact ⟨needle, hmem', LowerCase.infix_fold_of_toLower (word_of_mem hmem') hneedle⟩
    · have hsub : ∀ needle ∈ ["bearer", "cookie", "token"], needle ∈ sensitiveWords := by decide
      exact ⟨needle, hsub needle hmem, hneedle⟩

/-- The daemon sees the user of the first URL. -/
theorem credentials_of_urlAt {v : String} {rest : List Char} (h : UrlAt v.toList rest)
    (hfirst : Text.afterFirst "://".toList v.toList = some rest) : Daemon.targetContainsCredentials v = true := by
  obtain ⟨x, c, s, -, -, -, -, u, y, rfl, -, hu⟩ := h
  have huser : ∀ d ∈ u, decide (d ≠ '/' ∧ d ≠ '?' ∧ d ≠ '#') = true := by
    intro d hd
    have := hu d hd
    simp only [Regex.isUserChar, Bool.and_eq_true, bne_iff_ne] at this
    simp [this]
  rw [Daemon.targetContainsCredentials, hfirst]
  simp only [decide_eq_true_eq]
  rw [List.takeWhile_append_of_pos huser]
  exact List.mem_append_right u (by rw [List.takeWhile_cons_of_pos (by decide)]; exact List.mem_cons_self)

theorem url_flagged_iff {v : String} (h : Daemon.targetContainsCredentials v = false) :
    Regex.test urlWithCredentialsPattern.regex v = true ↔ LaterUrl v := by
  rw [test_urlWithCredentials]
  refine exists_congr fun rest => ⟨fun hurl => ⟨hurl, fun hfirst => ?_⟩, And.left⟩
  rw [credentials_of_urlAt hurl hfirst] at h
  cases h

/-- The daemon is as strict as the client about `v` exactly when they agree about it. -/
theorem stricter_iff (lower : LowerCase) (v : String) : Stricter lower v ↔ Agreed v := by
  rw [Stricter, Agreed, rejects_text_iff, rejects_link_iff, flagged_iff]
  cases hc : Daemon.targetContainsCredentials v with
  | true =>
    cases hd : Daemon.containsSensitiveDirective v with
    | true => simp
    | false => simp
  | false =>
    rw [url_flagged_iff hc]
    cases hd : Daemon.containsSensitiveDirective v with
    | true => simp
    | false => simp

/-- The client flags this directive, and the daemon stores it. -/
theorem stricter_not_bearer : containsSensitiveDirective .simple "proxy_set_header X-Upstream bearer" = true ∧
    ¬ Stricter .simple "proxy_set_header X-Upstream bearer" := by
  refine ⟨by decide, fun h => ?_⟩
  have hdaemon := rejects_text_iff.1 (h.1 (by decide))
  exact absurd hdaemon (by decide)

end NginxAdmin.Web
