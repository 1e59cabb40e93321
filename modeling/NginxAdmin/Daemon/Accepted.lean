import NginxAdmin.Lib.Except
import NginxAdmin.Daemon.Validate

/-!
# What `validate_state` accepts

One statement for each loop of `validate_state`, put together in `validateState_ok_iff`: a state is
accepted if and only if each of its servers is `Server.Accepted`.
-/

namespace NginxAdmin.Daemon

/-- The text that is checked for credentials: the target of a proxy, the url of a redirect. -/
def RouteAction.link : RouteAction → Option String
  | proxyPass target => some target
  | static .. => none
  | redirect url _ => some url

structure Route.Accepted (route : Route) : Prop where
  path : Text.startsWithChar route.path '/' = true
  headers : ∀ h ∈ route.headers.getD [], isSensitiveName h.name = false ∧ containsSensitiveDirective h.value = false
  link : ∀ v ∈ route.action.link, targetContainsCredentials v = false ∧ containsSensitiveDirective v = false

structure Server.Accepted (server : Server) : Prop where
  id : Text.trim server.id ≠ ""
  listens : (server.listen.map Listen.key).Nodup
  directives : ∀ d ∈ server.extraDirectives.getD [], containsSensitiveDirective d = false
  paths : (server.routes.map (·.path)).Nodup
  routes : ∀ r ∈ server.routes, r.Accepted

theorem validateListens_ok_iff (server : Server) (l : List Listen) (seen : List (UInt16 × Bool × Bool × Bool)) :
    validateListens server l seen = .ok () ↔ (l.map Listen.key).Nodup ∧ ∀ x ∈ l, x.key ∉ seen := by
  induction l generalizing seen with
  | nil => simp [validateListens]
  | cons x l ih =>
    rw [validateListens]
    by_cases hx : x.key ∈ seen
    · simp [hx]
    · rw [if_neg hx, ih]
      simp only [List.map_cons, List.nodup_cons, List.mem_cons, List.mem_map, not_or, forall_eq_or_imp]
      constructor
      · rintro ⟨hnodup, hseen⟩
        exact ⟨⟨fun ⟨y, hy, he⟩ => (hseen y hy).1 he, hnodup⟩, hx, fun y hy => (hseen y hy).2⟩
      · rintro ⟨⟨hx', hnodup⟩, -, hseen⟩
        exact ⟨hnodup, fun y hy => ⟨fun he => hx' ⟨y, hy, he⟩, hseen y hy⟩⟩

theorem validateDirectives_ok_iff (server : Server) (l : List String) :
    validateDirectives server l = .ok () ↔ ∀ d ∈ l, containsSensitiveDirective d = false := by
  induction l with
  | nil => simp [validateDirectives]
  | cons d l ih => cases hd : containsSensitiveDirective d <;> simp [validateDirectives, hd, ih]

theorem validateHeaders_ok_iff (l : List Header) :
    validateHeaders l = .ok () ↔
      ∀ h ∈ l, isSensitiveName h.name = false ∧ containsSensitiveDirective h.value = false := by
  induction l with
  | nil => simp [validateHeaders]
  | cons h l ih =>
    cases hn : isSensitiveName h.name <;> cases hv : containsSensitiveDirective h.value <;>
      simp [validateHeaders, hn, hv, ih]

theorem validateAction_ok_iff (server : Server) (route : Route) :
    validateAction server route = .ok () ↔
      ∀ v ∈ route.action.link, targetContainsCredentials v = false ∧ containsSensitiveDirective v = false := by
  unfold validateAction
  cases route.action with
  | proxyPass target =>
    cases hc : targetContainsCredentials target <;> cases hs : containsSensitiveDirective target <;>
      simp [RouteAction.link, hc, hs]
  | static root index => simp [RouteAction.link]
  | redirect url code =>
    cases hc : targetContainsCredentials url <;> cases hs : containsSensitiveDirective url <;>
      simp [RouteAction.link, hc, hs]

theorem validateRoutes_ok_iff (server : Server) (l : List Route) (seen : List String) :
    validateRoutes server l seen = .ok () ↔
      (l.map (·.path)).Nodup ∧ (∀ r ∈ l, r.path ∉ seen) ∧ ∀ r ∈ l, r.Accepted := by
  induction l generalizing seen with
  | nil => simp [validateRoutes]
  | cons r l ih =>
    rw [validateRoutes, guard_eq_ok, guard_eq_ok, then_eq_ok, then_eq_ok, validateHeaders_ok_iff,
      validateAction_ok_iff, ih]
    simp only [List.map_cons, List.nodup_cons, List.mem_cons, List.mem_map, not_or, forall_eq_or_imp]
    constructor
    · rintro ⟨hpath, hr, hheaders, hlink, hnodup, hseen, hall⟩
      exact ⟨⟨fun ⟨q, hq, he⟩ => (hseen q hq).1 he, hnodup⟩, ⟨hr, fun q hq => (hseen q hq).2⟩,
        ⟨by simpa using hpath, hheaders, hlink⟩, hall⟩
    · rintro ⟨⟨hr', hnodup⟩, ⟨hr, hseen⟩, hacc, hall⟩
      exact ⟨by simp [hacc.path], hr, hacc.headers, hacc.link, hnodup,
        fun q hq => ⟨fun he => hr' ⟨q, hq, he⟩, hseen q hq⟩, hall⟩

theorem validateServer_ok_iff (server : Server) : validateServer server = .ok () ↔ server.Accepted := by
  rw [validateServer, guard_eq_ok, then_eq_ok, then_eq_ok, validateListens_ok_iff, validateDirectives_ok_iff,
    validateRoutes_ok_iff]
  simp only [List.not_mem_nil, not_false_eq_true, implies_true, and_true, true_and]
  exact ⟨fun ⟨hid, hl, hd, hp, hr⟩ => ⟨hid, hl, hd, hp, hr⟩, fun h => ⟨h.id, h.listens, h.directives, h.paths, h.routes⟩⟩

theorem forM_eq_ok {α ε : Type} {f : α → Except ε Unit} (l : List α) :
    l.forM f = .ok () ↔ ∀ a ∈ l, f a = .ok () := by
  induction l with
  | nil => simp [List.forM, pure, Except.pure]
  | cons a l ih =>
    show (do f a; l.forM f) = .ok () ↔ _
    rw [then_eq_ok, ih]
    simp

/-- `validate_state`. -/
theorem validateState_ok_iff (state : ControlPlaneState) :
    validateState state = .ok () ↔ ∀ server ∈ state.servers, server.Accepted := by
  simp only [validateState, forM_eq_ok, validateServer_ok_iff]

end NginxAdmin.Daemon
