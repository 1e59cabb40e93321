import NginxAdmin.Web.UseCases

/-!
# The store of the routes and its auto-save (`routesSlice.ts`, `storeIntegrations.ts`)

The actions of `createRoutesStore` work on the repository and leave the map of the store as it is; only `loadRoutes` reads it
again. A subscription to the store starts a timer at every change while the map is not empty, and the timer writes the map.
The actions only wait for promises, so a timer fires between two of them.
-/

namespace NginxAdmin.Web.RoutesStore

/-- The store, the item of the repository, and the number of timers that are running. -/
structure State where
  routes : JsMap
  currentRouteId : Option String
  item : Item
  timers : Nat

inductive Action where
  /-- With the id that is generated. -/
  | addRoute (id : String) (routeData : Js)
  | updateRoute (id : String) (updates : Js)
  | deleteRoute (id : String)
  | toggleRouteStatus (id : String)
  | setCurrentRoute (id : Option String)
  | loadRoutes

def initial (item : Item) : State := ⟨[], none, item, 0⟩

namespace State

/-- `set` has changed the store: the subscription is told. -/
def notify (s : State) : State := { s with timers := if s.routes.length > 0 then s.timers + 1 else s.timers }

/-- After a call of the repository; an error is put in the store. -/
def after {α : Type} (s : State) (call : UseCase α) (clock : Nat → Int) (succeeds : State → State) : State :=
  match alone call.run clock s.item with
  | (.ok _, item) => succeeds { s with item := item }
  | (.error _, item) => { s with item := item }.notify

end State

def sanitizeRoutesMap (routes : JsMap) : JsMap := JsMap.ofEntries (routes.map fun e => (e.1, sanitizeForJson e.2))

variable (browser : Browser)

/-- The actions over the repository of the core. -/
def act (s : State) (clock : Nat → Int) : Action → State
  | .addRoute id routeData => s.after (createRoute browser .core id routeData) clock fun s => s
  | .updateRoute id updates => s.after (updateRoute browser .core id updates) clock fun s => s
  | .deleteRoute id =>
    s.after (Repository.core.delete browser id) clock fun s =>
      { s with currentRouteId := if s.currentRouteId = some id then none else s.currentRouteId }.notify
  | .toggleRouteStatus id => s.after (toggleRouteStatus browser .core id) clock fun s => s
  | .setCurrentRoute id => { s with currentRouteId := id }.notify
  | .loadRoutes =>
    { s.notify with routes := sanitizeRoutesMap (LocalStorageRouteRepository.loadAll s.item) }.notify

inductive Event where
  | act (action : Action) (clock : Nat → Int)
  | fire

def Event.isAct : Event → Bool
  | act .. => true
  | fire => false

def step (s : State) : Event → Option State
  | .act action clock => some (act browser s clock action)
  | .fire =>
    if s.timers = 0 then none
    else some { s with timers := s.timers - 1, item := LocalStorageRouteRepository.saveAll browser.dates s.routes }

def run (s : State) : List Event → Option State
  | [] => some s
  | e :: events => (step browser s e).bind fun s' => run s' events

/-- The repository holds the same routes as after the run without the timers. -/
def Kept (item : Item) (events : List Event) (s : State) : Prop :=
  ∃ u, run browser (initial item) (events.filter Event.isAct) = some u ∧
    ∀ key, (LocalStorageRouteRepository.loadAll s.item).find key = (LocalStorageRouteRepository.loadAll u.item).find key

/-- `a` is the same after it has been written and read. -/
def Durable (a : Js) : Prop := sanitizeForJson a = a ∧ a.isJson = true

/-- The map of the store is the one that the repository loads, and writing does not change it. -/
structure Current (s : State) : Prop where
  routes : s.routes = LocalStorageRouteRepository.loadAll s.item
  durable : ∀ e ∈ s.routes, Durable e.1 ∧ Durable e.2

/-- Every timer fires when the map of the store is current. -/
def FiresCurrent : State → List Event → Prop
  | _, [] => True
  | s, e :: events => (e = .fire → Current s) ∧ ∀ s', step browser s e = some s' → FiresCurrent s' events

variable {browser}

theorem run_append (s : State) (events later : List Event) :
    run browser s (events ++ later) = (run browser s events).bind fun s' => run browser s' later := by
  induction events generalizing s with
  | nil => rfl
  | cons e events ih => simp only [List.cons_append, run, ih, Option.bind_assoc]

theorem distinct_loadAll (item : Item) : (LocalStorageRouteRepository.loadAll item).Distinct := by
  rcases item with _ | _ | ⟨value, hvalue⟩
  · exact List.Pairwise.nil
  · exact List.Pairwise.nil
  · show (LocalStorageRouteRepository.ofJson value).Distinct
    cases value with
    | arr xs =>
      rw [LocalStorageRouteRepository.ofJson]
      cases xs.mapM LocalStorageRouteRepository.entry with
      | none => exact List.Pairwise.nil
      | some entries => exact JsMap.distinct_ofEntries entries
    | _ => exact List.Pairwise.nil

theorem written_of_durable (dates : Js.Dates) {m : JsMap} (h : ∀ e ∈ m, Durable e.1 ∧ Durable e.2) :
    Js.jsonItems dates (sanitizeItems (m.map fun e => .arr [e.1, e.2])) = m.map fun e => .arr [e.1, e.2] := by
  induction m with
  | nil => rfl
  | cons e m ih =>
    obtain ⟨⟨⟨hk, hkj⟩, hv, hvj⟩, hm⟩ := List.forall_mem_cons.1 h
    have hentry : sanitizeForJson (.arr [e.1, e.2]) = .arr [e.1, e.2] := by
      simp only [sanitizeForJson, sanitizeItems, hk, hv]
    have hjson : Js.isJson (.arr [e.1, e.2]) = true := by
      simp only [Js.isJson, Js.isJsonItems, hkj, hvj, Bool.and_self]
    rw [List.map_cons, sanitizeItems, hentry, Js.jsonItems, Js.json_of_isJson dates hjson, ih hm]
    rfl

theorem mapM_entry (m : JsMap) :
    (m.map fun e => Js.arr [e.1, e.2]).mapM LocalStorageRouteRepository.entry = some m := by
  induction m with
  | nil => rfl
  | cons e m ih =>
    rw [List.map_cons, List.mapM_cons, ih]
    rfl

theorem loadAll_saveAll (dates : Js.Dates) {m : JsMap} (hm : m.Distinct) (h : ∀ e ∈ m, Durable e.1 ∧ Durable e.2) :
    LocalStorageRouteRepository.loadAll (LocalStorageRouteRepository.saveAll dates m) = m := by
  show LocalStorageRouteRepository.ofJson (.arr (Js.jsonItems dates (sanitizeItems (m.map fun e => .arr [e.1, e.2])))) = m
  rw [written_of_durable dates h, LocalStorageRouteRepository.ofJson, mapM_entry]
  exact JsMap.ofEntries_of_distinct hm

/-- A program that sees nothing of the item but the routes that the repository loads from it. -/
def SeesRoutes {α : Type} : Prog StorageOp.Res α → Prop
  | .ret _ => True
  | .call .getItem k =>
    (∀ item item' now, LocalStorageRouteRepository.loadAll item = LocalStorageRouteRepository.loadAll item' →
      k (item, now) = k (item', now)) ∧ ∀ read, SeesRoutes (k read)
  | .call (.setItem _) k => SeesRoutes (k ())
  | .call .now k => ∀ now, SeesRoutes (k now)

theorem alone_congr {α : Type} {p : Prog StorageOp.Res α} (hp : SeesRoutes p) {item item' : Item} (clock : Nat → Int)
    (h : LocalStorageRouteRepository.loadAll item = LocalStorageRouteRepository.loadAll item') :
    (alone p clock item).1 = (alone p clock item').1 ∧
      LocalStorageRouteRepository.loadAll (alone p clock item).2 = LocalStorageRouteRepository.loadAll (alone p clock item').2 := by
  induction p generalizing clock item item' with
  | ret a => exact ⟨rfl, h⟩
  | call o k ih =>
    cases o with
    | getItem =>
      simp only [alone]
      rw [hp.1 item item' (clock 0) h]
      exact ih _ (hp.2 _) _ h
    | setItem next => exact ⟨rfl, rfl⟩
    | now => exact ih _ (hp _) _ h

/-! ### What the use cases see -/

theorem sees_getItem {α : Type} {f : Item × Int → UseCase α}
    (hf : ∀ item item' now, LocalStorageRouteRepository.loadAll item = LocalStorageRouteRepository.loadAll item' →
      f (item, now) = f (item', now)) (hs : ∀ read, SeesRoutes (f read).run) : SeesRoutes (ask .getItem >>= f).run := by
  rw [run_ask_bind]
  exact ⟨fun item item' now h => congrArg ExceptT.run (hf item item' now h), hs⟩

theorem sees_write (next : Option Item) : SeesRoutes (Repository.write next).run := by
  cases next <;> exact trivial

theorem sees_save (route : Js) : SeesRoutes (Repository.core.save browser route).run := by
  refine sees_getItem (fun item item' now h => ?_) fun read => sees_write _
  simp only [Repository.saved, LocalStorageRouteRepository.save, h]

theorem sees_delete (id : String) : SeesRoutes (Repository.core.delete browser id).run := by
  refine sees_getItem (fun item item' now h => ?_) fun read => sees_write _
  simp only [Repository.deleted, LocalStorageRouteRepository.delete, h]

theorem sees_bind {α β : Type} {x : UseCase α} {f : α → UseCase β} (hx : SeesRoutes x.run) (hf : ∀ a, SeesRoutes (f a).run) :
    SeesRoutes (x >>= f).run := by
  rw [ExceptT.run_bind]
  generalize x.run = p at hx
  induction p with
  | ret r =>
    cases r with
    | ok a => exact hf a
    | error e => exact trivial
  | call o k ih =>
    cases o with
    | getItem =>
      refine ⟨fun item item' now h => ?_, fun read => ih read (hx.2 read)⟩
      simp only [hx.1 item item' now h]
    | setItem next => exact ih () hx
    | now => exact fun now => ih now (hx now)

theorem sees_findById (id : String) : SeesRoutes (Repository.core.findById browser id).run := by
  refine sees_getItem (fun item item' now h => ?_) fun read => trivial
  simp only [Repository.found, LocalStorageRouteRepository.findById, h]

theorem sees_updateRoute (id : String) (updates : Js) : SeesRoutes (updateRoute browser .core id updates).run := by
  refine sees_bind (sees_findById id) fun existing => ?_
  cases existing with
  | none => exact trivial
  | some existing =>
    intro now
    show SeesRoutes (ExceptT.run (if _ then _ else _))
    split
    · exact trivial
    · exact sees_save _

theorem sees_toggleRouteStatus (id : String) : SeesRoutes (toggleRouteStatus browser .core id).run := by
  refine sees_bind (sees_findById id) fun route => ?_
  cases route with
  | none => exact trivial
  | some route => exact sees_updateRoute id (toggled route)

theorem sees_createRoute (id : String) (routeData : Js) : SeesRoutes (createRoute browser .core id routeData).run := by
  unfold createRoute
  iterate 3
    split
    · exact trivial
  intro createdAt updatedAt
  show SeesRoutes (ExceptT.run (if _ then _ else _))
  split
  · exact trivial
  · exact sees_bind (sees_save _) fun _ => trivial

/-- The two states differ in nothing that a later action sees. -/
structure Agree (s u : State) : Prop where
  routes : s.routes = u.routes
  currentRouteId : s.currentRouteId = u.currentRouteId
  loadAll : LocalStorageRouteRepository.loadAll s.item = LocalStorageRouteRepository.loadAll u.item

theorem Agree.notify {s u : State} (h : Agree s u) : Agree s.notify u.notify := ⟨h.routes, h.currentRouteId, h.loadAll⟩

theorem Agree.after {α : Type} {s u : State} (h : Agree s u) {call : UseCase α} (hcall : SeesRoutes call.run) (clock : Nat → Int)
    {succeeds : State → State} (hs : ∀ s u, Agree s u → Agree (succeeds s) (succeeds u)) :
    Agree (s.after call clock succeeds) (u.after call clock succeeds) := by
  obtain ⟨hresult, hitem⟩ := alone_congr hcall clock h.loadAll
  unfold State.after
  rcases hs' : alone call.run clock s.item with ⟨r, item⟩
  rcases hu' : alone call.run clock u.item with ⟨r', item'⟩
  rw [hs', hu'] at hresult hitem
  obtain rfl : r = r' := hresult
  have hagree : Agree { s with item := item } { u with item := item' } := ⟨h.routes, h.currentRouteId, hitem⟩
  cases r with
  | ok a => exact hs _ _ hagree
  | error e => exact hagree.notify

theorem Agree.act {s u : State} (h : Agree s u) (clock : Nat → Int) (action : Action) :
    Agree (act browser s clock action) (act browser u clock action) := by
  cases action with
  | addRoute id routeData => exact h.after (sees_createRoute id routeData) clock fun _ _ h => h
  | updateRoute id updates => exact h.after (sees_updateRoute id updates) clock fun _ _ h => h
  | deleteRoute id =>
    unfold RoutesStore.act
    refine h.after (sees_delete id) clock fun s u h => ?_
    exact Agree.notify ⟨h.routes, by simp only [h.currentRouteId], h.loadAll⟩
  | toggleRouteStatus id => exact h.after (sees_toggleRouteStatus id) clock fun _ _ h => h
  | setCurrentRoute id => exact Agree.notify ⟨h.routes, rfl, h.loadAll⟩
  | loadRoutes => exact Agree.notify ⟨congrArg sanitizeRoutesMap h.loadAll, h.currentRouteId, h.loadAll⟩

/-- A timer that fires when the map is current changes nothing. -/
theorem Agree.fire {s s' u : State} (h : Agree s u) (hc : Current s) (hs : step browser s .fire = some s') : Agree s' u := by
  rw [step] at hs
  split at hs
  · cases hs
  · cases hs
    have hdistinct : s.routes.Distinct := hc.routes ▸ distinct_loadAll s.item
    refine ⟨h.routes, h.currentRouteId, ?_⟩
    show LocalStorageRouteRepository.loadAll (LocalStorageRouteRepository.saveAll browser.dates s.routes) = _
    rw [loadAll_saveAll browser.dates hdistinct hc.durable, hc.routes]
    exact h.loadAll

theorem agree_run {events : List Event} {s s' u : State} (h : Agree s u) (hc : FiresCurrent browser s events)
    (hrun : run browser s events = some s') : ∃ u', run browser u (events.filter Event.isAct) = some u' ∧ Agree s' u' := by
  induction events generalizing s u with
  | nil =>
    cases hrun
    exact ⟨u, rfl, h⟩
  | cons e events ih =>
    obtain ⟨s₁, hstep, hrest⟩ := Option.bind_eq_some_iff.1 hrun
    have hc' := hc.2 s₁ hstep
    cases e with
    | act action clock =>
      cases hstep
      exact ih (h.act clock action) hc' hrest
    | fire => exact ih (h.fire (hc.1 rfl) hstep) hc' hrest

/-- Timers that fire while the map of the store is current do not undo an action. -/
theorem kept_of_firesCurrent (item : Item) {events : List Event} {s : State} (hc : FiresCurrent browser (initial item) events)
    (hrun : run browser (initial item) events = some s) : Kept browser item events s := by
  obtain ⟨u, hu, hagree⟩ := agree_run ⟨rfl, rfl, rfl⟩ hc hrun
  exact ⟨u, hu, fun key => by rw [hagree.loadAll]⟩

/-- A repository with one route. -/
def plainItem : Item := LocalStorageRouteRepository.saveAll .iso [(.str "a", plainRoute "a" true)]

/-- What a form passes to `addRoute`. -/
def plainData : Js :=
  .obj [("domain", .str "a.com"), ("port", .num 80), ("root", .str ""), ("enabled", .bool true), ("ssl", .bool false),
    ("proxy_pass", .str "http://b:80"), ("locations", .arr [])]

/-- The routes are loaded, and the timer that this starts fires. -/
theorem kept_loaded : ∃ s, run .plain (initial plainItem) [.act .loadRoutes fun _ => 0, .fire] = some s ∧
    Kept .plain plainItem [.act .loadRoutes fun _ => 0, .fire] s := by
  have hfires : FiresCurrent .plain (initial plainItem) [.act .loadRoutes fun _ => 0, .fire] := by
    refine ⟨fun h => (by cases h), fun s hs => ⟨fun _ => ?_, fun _ _ => trivial⟩⟩
    cases hs
    refine ⟨by decide +kernel, ?_⟩
    unfold Durable
    decide +kernel
  obtain ⟨s, hs⟩ : ∃ s, run .plain (initial plainItem) [.act .loadRoutes fun _ => 0, .fire] = some s := ⟨_, rfl⟩
  exact ⟨s, hs, kept_of_firesCurrent plainItem hfires hs⟩

/-- The routes are loaded, another one is added, and the timer writes the routes without it. -/
theorem added_not_kept : ∃ s, run .plain (initial plainItem)
      [.act .loadRoutes fun _ => 0, .act (.addRoute "b" plainData) fun _ => 0, .fire] = some s ∧
    ¬ Kept .plain plainItem [.act .loadRoutes fun _ => 0, .act (.addRoute "b" plainData) fun _ => 0, .fire] s := by
  have hadded : (run .plain (initial plainItem)
      [.act .loadRoutes fun _ => 0, .act (.addRoute "b" plainData) fun _ => 0]).map
      (fun s => (s.timers, ((LocalStorageRouteRepository.loadAll s.item).find (.str "b")).isSome,
        ((LocalStorageRouteRepository.loadAll (LocalStorageRouteRepository.saveAll .iso s.routes)).find (.str "b")).isSome)) =
      some (1, true, false) := by
    decide +kernel
  obtain ⟨u, hu, hseen⟩ := Option.map_eq_some_iff.1 hadded
  obtain ⟨htimers, hfound, hlost⟩ : u.timers = 1 ∧ _ = true ∧ _ = false := by simpa only [Prod.mk.injEq] using hseen
  have hfire : run .plain (initial plainItem)
      [.act .loadRoutes fun _ => 0, .act (.addRoute "b" plainData) fun _ => 0, .fire] =
      some { u with timers := u.timers - 1, item := LocalStorageRouteRepository.saveAll .iso u.routes } := by
    show run .plain (initial plainItem)
      ([.act .loadRoutes fun _ => 0, .act (.addRoute "b" plainData) fun _ => 0] ++ [.fire]) = _
    rw [run_append, hu, Option.bind_some, run, step, if_neg (by simp [htimers])]
    rfl
  refine ⟨_, hfire, fun ⟨u', hu', hsame⟩ => ?_⟩
  obtain rfl : u = u' := Option.some.inj (hu.symm.trans hu')
  have hb := congrArg Option.isSome (hsame (.str "b"))
  rw [hfound, hlost] at hb
  cases hb

end NginxAdmin.Web.RoutesStore
