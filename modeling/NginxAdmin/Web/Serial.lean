import NginxAdmin.Lib.History
import NginxAdmin.Lib.Pool
import NginxAdmin.Web.UseCases

/-!
# Use cases that overlap

Calls of the use cases and of `delete` that are made before the others have finished. Each reads the item of the storage,
waits, and writes the whole item again, so a call that writes what it made of an old item undoes what was written in
between. When every call writes only while what it has read still stands, the item is what the successful calls leave one
after the other, in the order in which they write (`serial_of_unchanged`).
-/

namespace NginxAdmin.Web.Serial

inductive Call where
  /-- With the id that is generated. -/
  | create (id : String) (routeData : Js)
  | update (id : String) (updates : Js)
  | toggle (id : String)
  | delete (id : String)

/-- The storage, for which the world decides the times. -/
def storage : Exec StorageOp.Res Item Int where
  step _ o now item :=
    match o with
    | .getItem => some ((item, now), item)
    | .setItem next => some ((), next)
    | .now => some (now, item)
  cancel _ _ _ := none

/-- An answer that a call has got. -/
inductive Answer where
  | read (item : Item) (now : Int)
  | time (now : Int)
  | written

def Answer.of : (o : StorageOp) → o.Res → Answer
  | .getItem, r => .read r.1 r.2
  | .setItem _, _ => .written
  | .now, r => .time r

/-- The answers that thread `t` has got, in their order. -/
def answers (t : Nat) : List (NginxAdmin.Event StorageOp.Res Item) → List Answer
  | [] => []
  | .did u o r _ _ :: log => if u = t then answers t log ++ [.of o r] else answers t log
  | .dropped .. :: log => answers t log

def Answer.item : Answer → Option Item
  | read item _ => some item
  | _ => none

variable (browser : Browser) (repository : Repository)

namespace Call

def id : Call → String
  | create id _ | update id _ | toggle id | delete id => id

def code : Call → UseCase Unit
  | create id routeData => do
    let _ ← createRoute browser repository id routeData
    pure ()
  | update id updates => updateRoute browser repository id updates
  | toggle id => toggleRouteStatus browser repository id
  | delete id => repository.delete browser id

end Call

/-- The entries of the map that the repository makes of an item. -/
def routes (now : Int) (item : Item) : List (Js × Js) :=
  match repository with
  | .core => LocalStorageRouteRepository.loadAll item
  | .infra => (BrowserLocalStorageRouteRepository.findAll browser now item).map fun r => (r.get "id", r)

/-- The routes are the same. -/
def SameRoutes (item item' : Item) : Prop := ∀ now, routes browser repository now item = routes browser repository now item'

/-- The route is the same. -/
def SameRoute (id : String) (item item' : Item) : Prop :=
  ∀ now, repository.found browser now item id = repository.found browser now item' id

/-- The route is enabled in both, or disabled in both, or missing in both. -/
def SameStatus (id : String) (item item' : Item) : Prop :=
  ∀ now, (repository.found browser now item id).map toggled = (repository.found browser now item' id).map toggled

/-- What the call has read still stands: the routes of its last reading; the route that `updateRoute` has looked up in the
reading before; the status that `toggleRouteStatus` has looked up in the reading before that. -/
structure Stands (id : String) (readings : List Item) (item : Item) : Prop where
  last : ∀ r, readings.reverse[0]? = some r → SameRoutes browser repository r item
  lookup : ∀ r, readings.reverse[1]? = some r → SameRoute browser repository id r item
  status : ∀ r, readings.reverse[2]? = some r → SameStatus browser repository id r item

/-- A call writes only while what it has read still stands. -/
def Unchanged (calls : List Call) (t : Nat) (o : StorageOp) (s : Traced StorageOp.Res Item) : Prop :=
  ∀ next c, o = .setItem next → calls[t]? = some c →
    Stands browser repository c.id ((answers t s.log).filterMap Answer.item) s.now

/-- The calls at these positions all succeed, one after the other, and make `item'` of `item`. -/
def OneByOne (calls : List Call) : Item → List Nat → Item → Prop
  | item, [], item' => item' = item
  | item, t :: ts, item' => ∃ c clock item₁, calls[t]? = some c ∧
      alone (c.code browser repository).run clock item = (.ok (), item₁) ∧ OneByOne calls item₁ ts item'

theorem OneByOne.concat {browser : Browser} {repository : Repository} {calls : List Call} {item item₁ item₂ : Item} {ts : List Nat}
    {t : Nat} {c : Call} {clock : Nat → Int} (h : OneByOne browser repository calls item ts item₁) (hc : calls[t]? = some c)
    (hrun : alone (c.code browser repository).run clock item₁ = (.ok (), item₂)) :
    OneByOne browser repository calls item (ts ++ [t]) item₂ := by
  induction ts generalizing item with
  | nil =>
    obtain rfl : item₁ = item := h
    exact ⟨c, clock, item₂, hc, hrun, rfl⟩
  | cons u ts ih =>
    obtain ⟨c', clock', item', hc', hrun', h⟩ := h
    exact ⟨c', clock', item', hc', hrun', ih h⟩

abbrev State := Pool StorageOp.Res (Traced StorageOp.Res Item) (Except UseCaseError Unit)

/-- All calls have been made, and none has gone on. -/
def start (calls : List Call) (item : Item) : State :=
  ⟨⟨item, []⟩, fun t => (calls[t]?).map fun c => (c.code browser repository).run⟩

/-- The repository has the map that the calls that have succeeded leave, one after the other in some order. -/
def Serialised (calls : List Call) (item : Item) (s : State) : Prop :=
  ∃ (ts : List Nat) (item' : Item), ts.Nodup ∧ (∀ t, t ∈ ts ↔ s.threads t = some (.ret (.ok ()))) ∧
    OneByOne browser repository calls item ts item' ∧
    ∀ now key, (repository.loadAll browser now s.shared.now).find key = (repository.loadAll browser now item').find key

variable {browser repository} {α : Type}

/-- What is left of a program that gets an answer. -/
def advance : Prog StorageOp.Res α → Answer → Option (Prog StorageOp.Res α)
  | .call .getItem k, .read item now => some (k (item, now))
  | .call (.setItem _) k, .written => some (k ())
  | .call .now k, .time now => some (k now)
  | _, _ => none

def feed (p : Prog StorageOp.Res α) (as : List Answer) : Option (Prog StorageOp.Res α) := as.foldlM advance p

theorem feed_concat {p : Prog StorageOp.Res α} {as : List Answer} {o : StorageOp} {k : o.Res → Prog StorageOp.Res α} (r : o.Res)
    (h : feed p as = some (.call o k)) : feed p (as ++ [.of o r]) = some (k r) := by
  have hlast : advance (.call o k) (.of o r) = some (k r) := by cases o <;> rfl
  rw [feed] at h
  simp [feed, List.foldlM_append, h, hlast]

theorem feed_cons {p q : Prog StorageOp.Res α} {a : Answer} {as : List Answer} (h : feed p (a :: as) = some q) :
    ∃ p', advance p a = some p' ∧ feed p' as = some q :=
  Option.bind_eq_some_iff.1 h

theorem feed_getItem {f : Item × Int → Prog StorageOp.Res α} {as : List Answer} {next : Item} {k : Unit → Prog StorageOp.Res α}
    (h : feed (.call .getItem f) as = some (.call (.setItem next) k)) :
    ∃ item now as', as = .read item now :: as' ∧ feed (f (item, now)) as' = some (.call (.setItem next) k) := by
  cases as with
  | nil => cases h
  | cons a as =>
    obtain ⟨p', hp', h⟩ := feed_cons h
    cases a with
    | read item now =>
      cases hp'
      exact ⟨item, now, as, rfl, h⟩
    | time now => cases hp'
    | written => cases hp'

theorem feed_now {f : Int → Prog StorageOp.Res α} {as : List Answer} {next : Item} {k : Unit → Prog StorageOp.Res α}
    (h : feed (.call .now f) as = some (.call (.setItem next) k)) :
    ∃ now as', as = .time now :: as' ∧ feed (f now) as' = some (.call (.setItem next) k) := by
  cases as with
  | nil => cases h
  | cons a as =>
    obtain ⟨p', hp', h⟩ := feed_cons h
    cases a with
    | read item now => cases hp'
    | time now =>
      cases hp'
      exact ⟨now, as, rfl, h⟩
    | written => cases hp'

theorem feed_ret {a : α} {as : List Answer} {o : StorageOp} {k : o.Res → Prog StorageOp.Res α} :
    feed (.ret a) as ≠ some (.call o k) := by
  intro h
  cases as with
  | nil => cases h
  | cons a as =>
    obtain ⟨p', hp', -⟩ := feed_cons h
    cases hp'

/-- The program succeeds only by a write, which is the last thing it does. -/
def Commits : Prog StorageOp.Res (Except UseCaseError Unit) → Prop
  | .ret r => r ≠ .ok ()
  | .call .getItem k => ∀ r, Commits (k r)
  | .call (.setItem _) k => k () = .ret (.ok ())
  | .call .now k => ∀ r, Commits (k r)

theorem commits_write (next : Option Item) : Commits (Repository.write next).run := by
  cases next with
  | none => exact fun h => (by cases h)
  | some next => exact rfl

theorem commits_updateRoute (id : String) (updates : Js) : Commits (updateRoute browser repository id updates).run := by
  unfold updateRoute
  rw [Repository.run_findById_bind]
  intro r
  dsimp only
  cases repository.found browser r.2 r.1 id with
  | none => exact fun h => (by cases h)
  | some existing =>
    intro now
    show Commits (ExceptT.run (if _ then _ else _))
    split
    · exact fun h => (by cases h)
    · exact fun r => commits_write _

theorem commits_createRoute (id : String) (routeData : Js) :
    Commits (createRoute browser repository id routeData >>= fun _ => pure ()).run := by
  unfold createRoute
  iterate 3
    split
    · exact fun h => (by cases h)
  intro createdAt updatedAt
  show Commits (ExceptT.run ((if _ then _ else _) >>= _))
  split
  · exact fun h => (by cases h)
  · intro r
    show Commits (ExceptT.run ((Repository.write (repository.saved browser r.2 r.1 _) >>= fun _ => pure id) >>= _))
    cases repository.saved browser r.2 r.1 _ with
    | none => exact fun h => (by cases h)
    | some next => exact rfl

theorem commits_code (browser : Browser) (repository : Repository) (c : Call) : Commits (c.code browser repository).run := by
  cases c with
  | create id routeData => exact commits_createRoute id routeData
  | update id updates => exact commits_updateRoute id updates
  | toggle id =>
    show Commits (toggleRouteStatus browser repository id).run
    unfold toggleRouteStatus
    rw [Repository.run_findById_bind]
    intro r
    dsimp only
    cases repository.found browser r.2 r.1 id with
    | none => exact fun h => (by cases h)
    | some route => exact commits_updateRoute id (toggled route)
  | delete id => exact fun r => commits_write _

/-! ### A call that writes -/

theorem feed_write {next' : Option Item} {as : List Answer} {next : Item} {k : Unit → Prog StorageOp.Res (Except UseCaseError Unit)}
    (h : feed (Repository.write next').run as = some (.call (.setItem next) k)) : as = [] ∧ next' = some next := by
  cases next' with
  | none => exact absurd h feed_ret
  | some next' =>
    cases as with
    | nil =>
      cases h
      exact ⟨rfl, rfl⟩
    | cons a as =>
      obtain ⟨p', hp', h⟩ := feed_cons h
      cases a with
      | read item now => cases hp'
      | time now => cases hp'
      | written =>
        cases hp'
        exact absurd h feed_ret

theorem feed_save {route : Js} {as : List Answer} {next : Item} {k : Unit → Prog StorageOp.Res (Except UseCaseError Unit)}
    (h : feed (repository.save browser route).run as = some (.call (.setItem next) k)) :
    ∃ item now, as = [.read item now] ∧ repository.saved browser now item route = some next := by
  obtain ⟨item, now, as', rfl, h⟩ := feed_getItem h
  obtain ⟨rfl, hnext⟩ := feed_write h
  exact ⟨item, now, rfl, hnext⟩

theorem feed_delete {id : String} {as : List Answer} {next : Item} {k : Unit → Prog StorageOp.Res (Except UseCaseError Unit)}
    (h : feed (repository.delete browser id).run as = some (.call (.setItem next) k)) :
    ∃ item now, as = [.read item now] ∧ repository.deleted browser now item id = some next := by
  obtain ⟨item, now, as', rfl, h⟩ := feed_getItem h
  obtain ⟨rfl, hnext⟩ := feed_write h
  exact ⟨item, now, rfl, hnext⟩

theorem feed_updateRoute {id : String} {updates : Js} {as : List Answer} {next : Item}
    {k : Unit → Prog StorageOp.Res (Except UseCaseError Unit)}
    (h : feed (updateRoute browser repository id updates).run as = some (.call (.setItem next) k)) :
    ∃ item₁ now₁ existing now item₂ now₂, as = [.read item₁ now₁, .time now, .read item₂ now₂] ∧
      repository.found browser now₁ item₁ id = some existing ∧
      (routeSchema browser.toPlatform (updatedRoute existing updates now)).isNone = false ∧
      repository.saved browser now₂ item₂ (updatedRoute existing updates now) = some next := by
  unfold updateRoute at h
  rw [Repository.run_findById_bind] at h
  obtain ⟨item₁, now₁, as₁, rfl, h₁⟩ := feed_getItem h
  rcases hfound : repository.found browser now₁ item₁ id with _ | existing
  · simp only [hfound] at h₁
    exact absurd h₁ feed_ret
  · simp only [hfound] at h₁
    rw [run_ask_bind] at h₁
    obtain ⟨now, as₂, rfl, h₂⟩ := feed_now h₁
    by_cases hschema : (routeSchema browser.toPlatform (updatedRoute existing updates now)).isNone = true
    · simp only [hschema, if_true] at h₂
      exact absurd h₂ feed_ret
    · simp only [hschema, if_false, Bool.false_eq_true] at h₂
      obtain ⟨item₂, now₂, rfl, hsaved⟩ := feed_save h₂
      exact ⟨item₁, now₁, existing, now, item₂, now₂, rfl, hfound, eq_false_of_ne_true hschema, hsaved⟩

theorem feed_toggleRouteStatus {id : String} {as : List Answer} {next : Item}
    {k : Unit → Prog StorageOp.Res (Except UseCaseError Unit)}
    (h : feed (toggleRouteStatus browser repository id).run as = some (.call (.setItem next) k)) :
    ∃ item₀ now₀ route as', as = .read item₀ now₀ :: as' ∧ repository.found browser now₀ item₀ id = some route ∧
      feed (updateRoute browser repository id (toggled route)).run as' = some (.call (.setItem next) k) := by
  unfold toggleRouteStatus at h
  rw [Repository.run_findById_bind] at h
  obtain ⟨item₀, now₀, as', rfl, h₁⟩ := feed_getItem h
  rcases hfound : repository.found browser now₀ item₀ id with _ | route
  · simp only [hfound] at h₁
    exact absurd h₁ feed_ret
  · simp only [hfound] at h₁
    exact ⟨item₀, now₀, route, as', rfl, hfound, h₁⟩

/-- What `createRoute` checks before it asks for anything. -/
def validated (routeData : Js) : Bool :=
  validateDomain (routeData.get "domain") && validatePort (routeData.get "port") && validateUnixPath (routeData.get "root")

theorem feed_createRoute {id : String} {routeData : Js} {as : List Answer} {next : Item}
    {k : Unit → Prog StorageOp.Res (Except UseCaseError Unit)}
    (h : feed (createRoute browser repository id routeData >>= fun _ => pure ()).run as = some (.call (.setItem next) k)) :
    ∃ createdAt updatedAt item now, as = [.time createdAt, .time updatedAt, .read item now] ∧ validated routeData = true ∧
      (routeSchema browser.toPlatform (createdRoute id routeData createdAt updatedAt)).isNone = false ∧
      repository.saved browser now item (createdRoute id routeData createdAt updatedAt) = some next := by
  unfold createRoute at h
  by_cases hdomain : validateDomain (routeData.get "domain") = true
  · by_cases hport : validatePort (routeData.get "port") = true
    · by_cases hroot : validateUnixPath (routeData.get "root") = true
      · simp only [hdomain, hport, hroot, Bool.not_true, Bool.false_eq_true, if_false, bind_assoc] at h
        rw [run_ask_bind] at h
        obtain ⟨createdAt, as₁, rfl, h₁⟩ := feed_now h
        rw [run_ask_bind] at h₁
        obtain ⟨updatedAt, as₂, rfl, h₂⟩ := feed_now h₁
        by_cases hschema : (routeSchema browser.toPlatform (createdRoute id routeData createdAt updatedAt)).isNone = true
        · simp only [hschema, if_true] at h₂
          exact absurd h₂ feed_ret
        · simp only [hschema, if_false, Bool.false_eq_true, bind_assoc, pure_bind, bind_pure_unit] at h₂
          obtain ⟨item, now, rfl, hsaved⟩ := feed_save h₂
          exact ⟨createdAt, updatedAt, item, now, rfl, by simp [validated, hdomain, hport, hroot], eq_false_of_ne_true hschema, hsaved⟩
      · simp only [hdomain, hport, hroot, Bool.not_true, Bool.not_false, Bool.false_eq_true, if_false, if_true] at h
        exact absurd h feed_ret
    · simp only [hdomain, hport, Bool.not_true, Bool.not_false, Bool.false_eq_true, if_false, if_true] at h
      exact absurd h feed_ret
  · simp only [hdomain, Bool.not_false, if_true] at h
    exact absurd h feed_ret

theorem alone_save {route : Js} {item next : Item} {clock : Nat → Int}
    (h : repository.saved browser (clock 0) item route = some next) :
    alone (repository.save browser route).run clock item = (.ok (), next) := by
  show alone (Repository.write (repository.saved browser (clock 0) item route)).run _ item = _
  rw [h]
  rfl

theorem alone_delete {id : String} {item next : Item} {clock : Nat → Int}
    (h : repository.deleted browser (clock 0) item id = some next) :
    alone (repository.delete browser id).run clock item = (.ok (), next) := by
  show alone (Repository.write (repository.deleted browser (clock 0) item id)).run _ item = _
  rw [h]
  rfl

theorem alone_updateRoute {id : String} {existing updates : Js} {item next : Item} {clock : Nat → Int}
    (hfound : repository.found browser (clock 0) item id = some existing)
    (hschema : (routeSchema browser.toPlatform (updatedRoute existing updates (clock 1))).isNone = false)
    (hsaved : repository.saved browser (clock 2) item (updatedRoute existing updates (clock 1)) = some next) :
    alone (updateRoute browser repository id updates).run clock item = (.ok (), next) := by
  unfold updateRoute
  rw [Repository.run_findById_bind]
  simp only [alone, hfound]
  rw [run_ask_bind]
  simp only [alone, hschema, Bool.false_eq_true, if_false]
  exact alone_save hsaved

theorem alone_toggleRouteStatus {id : String} {route : Js} {item next : Item} {clock : Nat → Int}
    (hfound : repository.found browser (clock 0) item id = some route)
    (hupdate : alone (updateRoute browser repository id (toggled route)).run (fun n => clock (n + 1)) item = (.ok (), next)) :
    alone (toggleRouteStatus browser repository id).run clock item = (.ok (), next) := by
  unfold toggleRouteStatus
  rw [Repository.run_findById_bind]
  simp only [alone, hfound]
  exact hupdate

theorem alone_createRoute {id : String} {routeData : Js} {item next : Item} {clock : Nat → Int}
    (hvalid : validated routeData = true)
    (hschema : (routeSchema browser.toPlatform (createdRoute id routeData (clock 0) (clock 1))).isNone = false)
    (hsaved : repository.saved browser (clock 2) item (createdRoute id routeData (clock 0) (clock 1)) = some next) :
    alone (createRoute browser repository id routeData >>= fun _ => pure ()).run clock item = (.ok (), next) := by
  simp only [validated, Bool.and_eq_true] at hvalid
  obtain ⟨⟨hdomain, hport⟩, hroot⟩ := hvalid
  unfold createRoute
  simp only [hdomain, hport, hroot, Bool.not_true, Bool.false_eq_true, if_false, bind_assoc]
  rw [run_ask_bind]
  simp only [alone]
  rw [run_ask_bind]
  simp only [alone, hschema, Bool.false_eq_true, if_false, bind_assoc, pure_bind, bind_pure_unit]
  exact alone_save hsaved

/-- The times of a list. -/
def times (ns : List Int) (n : Nat) : Int := ns.getD n 0

theorem findAll_of_sameRoutes {item item' : Item} (h : SameRoutes browser .infra item item') (now : Int) :
    BrowserLocalStorageRouteRepository.findAll browser now item = BrowserLocalStorageRouteRepository.findAll browser now item' := by
  have hvalues := congrArg (List.map Prod.snd) (h now)
  simpa [routes, Function.comp_def] using hvalues

theorem loadAll_of_sameRoutes {item item' : Item} (h : SameRoutes browser .core item item') :
    LocalStorageRouteRepository.loadAll item = LocalStorageRouteRepository.loadAll item' := h 0

theorem saved_congr {item item' : Item} (h : SameRoutes browser repository item item') (now : Int) (route : Js) :
    repository.saved browser now item route = repository.saved browser now item' route := by
  cases repository with
  | core => simp only [Repository.saved, LocalStorageRouteRepository.save, loadAll_of_sameRoutes h]
  | infra => simp only [Repository.saved, BrowserLocalStorageRouteRepository.save, findAll_of_sameRoutes h]

theorem deleted_congr {item item' : Item} (h : SameRoutes browser repository item item') (now : Int) (id : String) :
    repository.deleted browser now item id = repository.deleted browser now item' id := by
  cases repository with
  | core => simp only [Repository.deleted, LocalStorageRouteRepository.delete, loadAll_of_sameRoutes h]
  | infra => simp only [Repository.deleted, BrowserLocalStorageRouteRepository.delete, findAll_of_sameRoutes h]

/-- An update that writes while its readings stand is an update by itself. -/
theorem alone_of_updateRoute {id : String} {updates : Js} {as : List Answer} {item next : Item}
    {k : Unit → Prog StorageOp.Res (Except UseCaseError Unit)}
    (h : feed (updateRoute browser repository id updates).run as = some (.call (.setItem next) k))
    (hlast : ∀ r, (as.filterMap Answer.item).reverse[0]? = some r → SameRoutes browser repository r item)
    (hlookup : ∀ r, (as.filterMap Answer.item).reverse[1]? = some r → SameRoute browser repository id r item) :
    ∃ ns : List Int, ∀ clock, (∀ n, n < 3 → clock n = times ns n) →
      alone (updateRoute browser repository id updates).run clock item = (.ok (), next) := by
  obtain ⟨item₁, now₁, existing, now, item₂, now₂, rfl, hfound, hschema, hsaved⟩ := feed_updateRoute h
  refine ⟨[now₁, now, now₂], fun clock hclock => ?_⟩
  have h₀ : clock 0 = now₁ := hclock 0 (by omega)
  have h₁ : clock 1 = now := hclock 1 (by omega)
  have h₂ : clock 2 = now₂ := hclock 2 (by omega)
  have hfound' : repository.found browser (clock 0) item id = some existing := by
    rw [h₀, ← hlookup item₁ rfl now₁, hfound]
  refine alone_updateRoute hfound' ?_ ?_
  · rw [h₁, hschema]
  · rw [h₁, h₂, ← saved_congr (hlast item₂ rfl), hsaved]

/-- A call that writes while what it has read stands does what it does by itself. -/
theorem alone_of_stands {c : Call} {as : List Answer} {item next : Item} {k : Unit → Prog StorageOp.Res (Except UseCaseError Unit)}
    (h : feed (c.code browser repository).run as = some (.call (.setItem next) k))
    (hs : Stands browser repository c.id (as.filterMap Answer.item) item) :
    ∃ clock, alone (c.code browser repository).run clock item = (.ok (), next) := by
  cases c with
  | create id routeData =>
    obtain ⟨createdAt, updatedAt, item', now, rfl, hvalid, hschema, hsaved⟩ := feed_createRoute h
    refine ⟨times [createdAt, updatedAt, now], alone_createRoute hvalid hschema ?_⟩
    show repository.saved browser now item _ = _
    rw [← saved_congr (hs.last item' rfl)]
    exact hsaved
  | update id updates =>
    obtain ⟨ns, hns⟩ := alone_of_updateRoute h hs.last hs.lookup
    exact ⟨times ns, hns _ fun _ _ => rfl⟩
  | toggle id =>
    obtain ⟨item₀, now₀, route, as', rfl, hfound, hupdate⟩ := feed_toggleRouteStatus h
    obtain ⟨_, _, _, _, _, _, has, -⟩ := feed_updateRoute hupdate
    subst has
    obtain ⟨ns, hns⟩ := alone_of_updateRoute hupdate hs.last hs.lookup
    -- the status is that of another route, but the update is the same
    have hstatus : (repository.found browser now₀ item₀ id).map toggled = (repository.found browser now₀ item id).map toggled :=
      hs.status item₀ rfl now₀
    rw [hfound] at hstatus
    obtain ⟨route', hfound', htoggled⟩ := Option.map_eq_some_iff.1 hstatus.symm
    refine ⟨times (now₀ :: ns), alone_toggleRouteStatus hfound' ?_⟩
    rw [htoggled]
    exact hns _ fun _ _ => rfl
  | delete id =>
    obtain ⟨item', now, rfl, hdeleted⟩ := feed_delete h
    refine ⟨times [now], alone_delete ?_⟩
    show repository.deleted browser now item id = _
    rw [← deleted_congr (hs.last item' rfl)]
    exact hdeleted

/-! ### Runs -/

variable (browser repository) in
/-- The runs in which every call writes only while what it has read still stands. -/
def orderly (calls : List Call) : Machine StorageOp.Res (Traced StorageOp.Res Item) :=
  storage.traced.machine.restrict (fun t o s _ _ => Unchanged browser repository calls t o s) fun _ _ _ => True

variable (browser repository) in
structure Inv (calls : List Call) (item : Item) (s : State) : Prop where
  left : ∀ t q, s.threads t = some q → ∃ c, calls[t]? = some c ∧
    feed (c.code browser repository).run (answers t s.shared.log) = some q
  commits : ∀ t q, s.threads t = some q → Commits q ∨ q = .ret (.ok ())
  serial : ∃ ts : List Nat, ts.Nodup ∧ (∀ t, t ∈ ts ↔ s.threads t = some (.ret (.ok ()))) ∧
    OneByOne browser repository calls item ts s.shared.now

theorem inv_start (calls : List Call) (item : Item) : Inv browser repository calls item (start browser repository calls item) where
  left t q ht := by
    obtain ⟨c, hc, rfl⟩ := Option.map_eq_some_iff.1 ht
    exact ⟨c, hc, rfl⟩
  commits t q ht := by
    obtain ⟨c, -, rfl⟩ := Option.map_eq_some_iff.1 ht
    exact .inl (commits_code browser repository c)
  serial := by
    refine ⟨[], List.nodup_nil, fun t => ?_, rfl⟩
    refine ⟨fun h => absurd h List.not_mem_nil, fun ht => ?_⟩
    obtain ⟨c, -, hret⟩ := Option.map_eq_some_iff.1 ht
    have hcommits := commits_code browser repository c
    rw [hret] at hcommits
    exact absurd rfl hcommits

theorem answers_did (u t : Nat) (o : StorageOp) (r : o.Res) (pre post : Item) (log : List (NginxAdmin.Event StorageOp.Res Item)) :
    answers u (.did t o r pre post :: log) = if t = u then answers u log ++ [.of o r] else answers u log := rfl

/-- A call that has gone on without a write has not succeeded. -/
theorem commits_of_read {o : StorageOp} {k : o.Res → Prog StorageOp.Res (Except UseCaseError Unit)} {r : o.Res} {item item' : Item}
    {now : Int} (h : Commits (.call o k)) (hexec : storage.step 0 o now item = some (r, item')) :
    (∃ next, o = .setItem next ∧ item' = next ∧ k r = .ret (.ok ())) ∨ (item' = item ∧ Commits (k r)) := by
  cases o with
  | getItem =>
    cases hexec
    exact .inr ⟨rfl, h _⟩
  | setItem next =>
    cases hexec
    exact .inl ⟨_, rfl, rfl, h⟩
  | now =>
    cases hexec
    exact .inr ⟨rfl, h _⟩

/-- A call that has written is one more of those that have succeeded. -/
theorem succeeded_append {s : State} {t : Nat} {ts : List Nat} (hmem : ∀ u, u ∈ ts ↔ s.threads u = some (.ret (.ok ())))
    (m : Traced StorageOp.Res Item) (u : Nat) :
    u ∈ ts ++ [t] ↔ (s.move t (some (.ret (.ok ()))) m).threads u = some (.ret (.ok ())) := by
  by_cases hut : u = t
  · subst hut
    simp
  · rw [Pool.move_threads_ne s hut, ← hmem u]
    simp [hut]

theorem succeeded_same {s : State} {t : Nat} {ts : List Nat} (hmem : ∀ u, u ∈ ts ↔ s.threads u = some (.ret (.ok ())))
    (htnot : t ∉ ts) {q : Prog StorageOp.Res (Except UseCaseError Unit)} (hq : q ≠ .ret (.ok ()))
    (m : Traced StorageOp.Res Item) (u : Nat) : u ∈ ts ↔ (s.move t (some q) m).threads u = some (.ret (.ok ())) := by
  by_cases hut : u = t
  · subst hut
    rw [Pool.move_threads_self, Option.some.injEq]
    exact ⟨fun hin => absurd hin htnot, fun hret => absurd hret hq⟩
  · rw [Pool.move_threads_ne s hut]
    exact hmem u

theorem Inv.step {calls : List Call} {item : Item} {s s' : State} (h : Inv browser repository calls item s)
    (hs : s.Step (orderly browser repository calls) s') : Inv browser repository calls item s' := by
  cases hs with
  | @op t o k r m ht hstep =>
    obtain ⟨hstep, hok⟩ := hstep
    obtain ⟨⟨now, -, hexec⟩, hlog⟩ := Exec.traced_step.1 hstep
    obtain ⟨c, hc, hfeed⟩ := h.left t _ ht
    have hcommits : Commits (.call o k) := (h.commits t _ ht).resolve_right fun he => (by cases he)
    refine ⟨fun u q hu => ?_, fun u q hu => ?_, ?_⟩
    · rw [Pool.move_shared, hlog, answers_did]
      rcases Pool.move_threads_cases hu with ⟨rfl, hq⟩ | ⟨hut, hu⟩
      · cases hq
        rw [if_pos rfl]
        exact ⟨c, hc, feed_concat r hfeed⟩
      · rw [if_neg (Ne.symm hut)]
        exact h.left u q hu
    · rcases Pool.move_threads_cases hu with ⟨rfl, hq⟩ | ⟨-, hu⟩
      · cases hq
        rcases commits_of_read hcommits hexec with ⟨-, -, -, hret⟩ | ⟨-, hk⟩
        · exact .inr hret
        · exact .inl hk
      · exact h.commits u q hu
    · obtain ⟨ts, hnodup, hmem, hone⟩ := h.serial
      have htnot : t ∉ ts := by
        intro hin
        rw [hmem t, ht] at hin
        cases hin
      rw [Pool.move_shared]
      rcases commits_of_read hcommits hexec with ⟨next, rfl, hnext, hret⟩ | ⟨hitem, hk⟩
      · -- the call writes: it is the last of those that have succeeded
        obtain ⟨clock, halone⟩ := alone_of_stands hfeed (hok next c rfl hc)
        have hnodup' : (ts ++ [t]).Nodup :=
          List.nodup_append.2 ⟨hnodup, by simp, by simpa using fun u hu => ne_of_mem_of_not_mem hu htnot⟩
        rw [hret, hnext]
        exact ⟨ts ++ [t], hnodup', succeeded_append hmem m, hone.concat hc halone⟩
      · have hne : k r ≠ .ret (.ok ()) := by
          intro hret
          rw [hret] at hk
          exact absurd rfl hk
        rw [hitem]
        exact ⟨ts, hnodup, succeeded_same hmem htnot hne m, hone⟩
  | drop ht hcancel =>
    obtain ⟨hcancel, -⟩ := hcancel
    obtain ⟨hcancel, -⟩ := Exec.traced_cancel.1 hcancel
    cases hcancel

theorem inv_reach {calls : List Call} {item : Item} {s : State}
    (h : Pool.Reach (orderly browser repository calls) (start browser repository calls item) s) :
    Inv browser repository calls item s := by
  induction h with
  | refl => exact inv_start calls item
  | tail _ hs ih => exact ih.step hs

/-- Calls that write only while what they have read still stands are as good as calls that wait for each other. -/
theorem serial_of_unchanged {calls : List Call} {item : Item} {s : State}
    (h : Pool.Reach (orderly browser repository calls) (start browser repository calls item) s) :
    Serialised browser repository calls item s := by
  obtain ⟨ts, hnodup, hmem, hone⟩ := (inv_reach h).serial
  exact ⟨ts, s.shared.now, hnodup, hmem, hone, fun _ _ => rfl⟩

/-- An item with two routes. -/
def twoRoutes : Item :=
  LocalStorageRouteRepository.saveAll .iso [(.str "a", plainRoute "a" true), (.str "b", plainRoute "b" true)]

theorem reach_delete {calls : List Call} {s₀ s : State} (h : Pool.Reach (orderly browser .core calls) s₀ s) {t : Nat} {id : String}
    (hc : calls[t]? = some (.delete id)) (ht : s.threads t = some (Repository.core.delete browser id).run)
    (has : answers t s.shared.log = []) :
    ∃ s', Pool.Reach (orderly browser .core calls) s₀ s' ∧ s'.threads t = some (.ret (.ok ())) ∧
      ∀ u, u ≠ t → s'.threads u = s.threads u ∧ answers u s'.shared.log = answers u s.shared.log := by
  let item := s.shared.now
  let read : Traced StorageOp.Res Item := ⟨item, .did t .getItem (item, 0) item item :: s.shared.log⟩
  let next := LocalStorageRouteRepository.delete browser.dates item id
  have hread : Pool.Reach (orderly browser .core calls) s₀ (s.move t (some (Repository.write (some next)).run) read) := by
    have hstep : (orderly browser .core calls).step t .getItem s.shared (item, 0) read :=
      ⟨⟨0, trivial, rfl⟩, fun _ _ ho => (by cases ho)⟩
    exact h.tail (.op ht hstep)
  have hstands : Stands browser .core id ((answers t read.log).filterMap Answer.item) item := by
    have hreadings : (answers t read.log).filterMap Answer.item = [item] := by
      show (answers t (.did t .getItem (item, 0) item item :: s.shared.log)).filterMap Answer.item = [item]
      rw [answers_did, if_pos rfl, has]
      rfl
    rw [hreadings]
    refine ⟨fun r hr => ?_, fun r hr => ?_, fun r hr => ?_⟩
    · cases hr
      exact fun _ => rfl
    · cases hr
    · cases hr
  have hwrite : (orderly browser .core calls).step t (.setItem next) read ()
      ⟨next, .did t (.setItem next) () item next :: read.log⟩ := by
    refine ⟨⟨0, trivial, rfl⟩, fun _ c ho hcall => ?_⟩
    cases ho
    rw [hc] at hcall
    cases hcall
    exact hstands
  refine ⟨_, hread.tail (.op (Pool.move_threads_self ..) hwrite), Pool.move_threads_self .., fun u hu => ?_⟩
  refine ⟨?_, ?_⟩
  · rw [Pool.move_threads_ne _ hu, Pool.move_threads_ne _ hu]
  · rw [Pool.move_shared, answers_did, if_neg (Ne.symm hu), answers_did, if_neg (Ne.symm hu)]

theorem serial_deletions : ∃ s,
    Pool.Reach (orderly .plain .core [.delete "a", .delete "b"]) (start .plain .core [.delete "a", .delete "b"] twoRoutes) s ∧
      (∀ t < 2, s.threads t = some (.ret (.ok ()))) ∧ Serialised .plain .core [.delete "a", .delete "b"] twoRoutes s := by
  have hstart : Pool.Reach (orderly .plain .core [.delete "a", .delete "b"])
      (start .plain .core [.delete "a", .delete "b"] twoRoutes) (start .plain .core [.delete "a", .delete "b"] twoRoutes) := .refl
  obtain ⟨s₁, hs₁, h₀, hothers⟩ := reach_delete hstart (t := 0) rfl rfl rfl
  obtain ⟨s₂, hs₂, h₁, hothers₂⟩ := reach_delete hs₁ (t := 1) rfl (hothers 1 (by decide)).1 (hothers 1 (by decide)).2
  refine ⟨s₂, hs₂, fun t ht => ?_, serial_of_unchanged hs₂⟩
  obtain rfl | rfl : t = 0 ∨ t = 1 := by omega
  · rw [(hothers₂ 0 (by decide)).1, h₀]
  · exact h₁

theorem alone_delete_core (id : String) (clock : Nat → Int) (item : Item) :
    alone ((Call.delete id).code browser .core).run clock item =
      (.ok (), LocalStorageRouteRepository.delete browser.dates item id) := rfl

/-- Two routes are deleted at the same time, and the second call writes the first route again. -/
theorem deleted_twice_not_serial :
    ∃ s, Pool.Reach storage.traced.machine (start .plain .core [.delete "a", .delete "b"] twoRoutes) s ∧
      (∀ t < 2, s.threads t = some (.ret (.ok ()))) ∧ ¬ Serialised .plain .core [.delete "a", .delete "b"] twoRoutes s := by
  obtain ⟨s, hs, h₀, h₁, h₂, hitem⟩ : ∃ s, storage.traced.schedule [.op 0 0, .op 1 0, .op 0 0, .op 1 0]
      (start .plain .core [.delete "a", .delete "b"] twoRoutes) = some s ∧ s.threads 0 = some (.ret (.ok ())) ∧
      s.threads 1 = some (.ret (.ok ())) ∧ (∀ t, s.threads (t + 2) = none) ∧
      s.shared.now = LocalStorageRouteRepository.delete .iso twoRoutes "b" := ⟨_, rfl, rfl, rfl, fun t => rfl, rfl⟩
  refine ⟨s, Exec.reach_of_schedule hs, fun t ht => ?_, ?_⟩
  · obtain rfl | rfl : t = 0 ∨ t = 1 := by omega
    · exact h₀
    · exact h₁
  rintro ⟨ts, item', hnodup, hmem, hone, hsame⟩
  have hperm : ts.Perm [0, 1] := by
    refine (List.perm_ext_iff_of_nodup hnodup (by decide)).2 fun t => ?_
    rw [hmem t]
    rcases t with _ | _ | t
    · simp [h₀]
    · simp [h₁]
    · simp [h₂ t]
  have hboth : (LocalStorageRouteRepository.loadAll item').find (.str "a") = none := by
    obtain ⟨x, y, rfl⟩ := List.length_eq_two.1 hperm.length_eq
    have hx : x = 0 ∨ x = 1 := by simpa using hperm.mem_iff.1 (List.mem_cons_self : x ∈ [x, y])
    have hy : y = 0 ∨ y = 1 := by simpa using hperm.mem_iff.1 (List.mem_cons_of_mem x List.mem_cons_self : y ∈ [x, y])
    have hxy : x ≠ y := by simpa using hnodup
    obtain ⟨c, clock, item₁, hc, hrun, c', clock', item₂, hc', hrun', rfl⟩ := hone
    rcases hx with rfl | rfl
    · obtain rfl : y = 1 := by omega
      cases hc
      cases hc'
      rw [alone_delete_core] at hrun hrun'
      cases hrun
      cases hrun'
      decide +kernel
    · obtain rfl : y = 0 := by omega
      cases hc
      cases hc'
      rw [alone_delete_core] at hrun hrun'
      cases hrun
      cases hrun'
      decide +kernel
  have ha : (LocalStorageRouteRepository.loadAll s.shared.now).find (.str "a") =
      (LocalStorageRouteRepository.loadAll item').find (.str "a") := hsame 0 (.str "a")
  have hkept : ((LocalStorageRouteRepository.loadAll (LocalStorageRouteRepository.delete .iso twoRoutes "b")).find
      (.str "a")).isSome = true := by
    decide +kernel
  rw [← hitem, ha, hboth] at hkept
  cases hkept

end NginxAdmin.Web.Serial
