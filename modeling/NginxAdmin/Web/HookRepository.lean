import NginxAdmin.Web.Repositories

/-!
# The repository that a component gets from `useRoutesRepository`

The hook gives `createRouteRepositoryAdapter` the routes of the render that called it: every call of the repository
applies its change to these routes, puts the result in the store and has the store write it. Nothing is awaited between
these, so that a call is one step.
-/

namespace NginxAdmin.Web.HookRepository

/-- A call of `save` or `delete`. -/
inductive Call where
  | save (route : RouteValue)
  | delete (id : String)

namespace Call

def id : Call → String
  | save route => route.id
  | delete id => id

/-- What the call leaves under its id. -/
def result : Call → Option Js
  | save route => some route.js
  | delete _ => none

/-- The updater that the adapter passes to `set`. -/
def update (routes : JsMap) : Call → JsMap
  | save route => routes.set (route.js.get "id") route.js
  | delete id => routes.delete (.str id)

end Call

/-- The store, and the item that `saveRoutes` writes. -/
structure Store where
  routes : JsMap
  item : Item

/-- A call of the repository that was made for the routes `rendered`. -/
def call (dates : Js.Dates) (rendered : JsMap) (_ : Store) (c : Call) : Store :=
  let routes := c.update rendered
  { routes := routes, item := LocalStorageRouteRepository.saveAll dates routes }

/-- The calls of one repository. -/
def calls (dates : Js.Dates) (rendered : JsMap) (s : Store) (cs : List Call) : Store :=
  cs.foldl (call dates rendered) s

def SameMap (m m' : JsMap) : Prop := ∀ key, m.find key = m'.find key

/-- The store has the map that the calls make of `m` one after the other, and it has been written. -/
def Reflects (dates : Js.Dates) (m : JsMap) (cs : List Call) (s : Store) : Prop :=
  SameMap s.routes (cs.foldl Call.update m) ∧
  (cs ≠ [] → ∃ written, SameMap written (cs.foldl Call.update m) ∧
    s.item = LocalStorageRouteRepository.saveAll dates written)

/-- The last of the calls for an id. -/
def lastOn (id : String) (cs : List Call) : Option Call := cs.reverse.find? fun c => c.id = id

/-- Every other id than the one of the last call is left by the calls as `m` has it: the last call for it saves the route
that `m` has, or deletes an id that `m` lacks. -/
def OthersKept (m : JsMap) (cs : List Call) : Prop :=
  ∀ last, cs.getLast? = some last → ∀ id ≠ last.id, ∀ c, lastOn id cs = some c → c.result = m.find (.str id)

theorem find_update (c : Call) (m : JsMap) (key : Js) :
    (c.update m).find key = if key = .str c.id then c.result else m.find key := by
  cases c with
  | save route =>
    rw [Call.update, route.id_eq, JsMap.find_set]
    rfl
  | delete id => exact JsMap.find_delete m id key

theorem lastOn_concat (id : String) (cs : List Call) (c : Call) :
    lastOn id (cs ++ [c]) = if c.id = id then some c else lastOn id cs := by
  by_cases h : c.id = id <;> simp [lastOn, h]

/-- The calls one after the other: the last call for an id says what is under it. -/
theorem find_updates (m : JsMap) (cs : List Call) (id : String) :
    (cs.foldl Call.update m).find (.str id) = ((lastOn id cs).map Call.result).getD (m.find (.str id)) := by
  induction cs using List.reverseRecOn with
  | nil => rfl
  | append_singleton cs c ih =>
    rw [List.foldl_append, List.foldl_cons, List.foldl_nil, find_update, lastOn_concat]
    by_cases h : c.id = id
    · rw [if_pos h, if_pos (by rw [h])]
      rfl
    · rw [if_neg h, if_neg fun heq => h (Js.str.inj heq).symm, ih]

theorem find_updates_other (m : JsMap) (cs : List Call) {key : Js} (h : ∀ id, key ≠ .str id) :
    (cs.foldl Call.update m).find key = m.find key := by
  induction cs generalizing m with
  | nil => rfl
  | cons c cs ih => rw [List.foldl_cons, ih, find_update, if_neg (h c.id)]

theorem calls_concat (dates : Js.Dates) (rendered : JsMap) (s : Store) (cs : List Call) (c : Call) :
    calls dates rendered s (cs ++ [c]) =
      ⟨c.update rendered, LocalStorageRouteRepository.saveAll dates (c.update rendered)⟩ := by
  rw [calls, List.foldl_append]
  rfl

theorem othersKept_concat (m : JsMap) (cs : List Call) (last : Call) : OthersKept m (cs ++ [last]) ↔
    ∀ id ≠ last.id, ∀ c, lastOn id cs = some c → c.result = m.find (.str id) := by
  constructor
  · intro h id hid c hc
    refine h last (by simp) id hid c ?_
    rw [lastOn_concat, if_neg (Ne.symm hid), hc]
  · intro h last' hlast id hid c hc
    obtain rfl : last = last' := by simpa using hlast
    rw [lastOn_concat, if_neg (Ne.symm hid)] at hc
    exact h id hid c hc

/-- What the last call makes of the rendered map, against what all of them make of it. -/
theorem sameMap_last_iff (m : JsMap) (cs : List Call) (last : Call) :
    SameMap (last.update m) ((cs ++ [last]).foldl Call.update m) ↔ OthersKept m (cs ++ [last]) := by
  rw [othersKept_concat, List.foldl_append]
  constructor
  · intro h id hid c hc
    have hkey := h (.str id)
    have hne : ¬ Js.str id = .str last.id := fun heq => hid (Js.str.inj heq)
    rw [find_update, if_neg hne, List.foldl_cons, List.foldl_nil, find_update, if_neg hne, find_updates, hc] at hkey
    exact hkey.symm
  · intro h key
    rw [List.foldl_cons, List.foldl_nil, find_update, find_update]
    by_cases hkey : key = .str last.id
    · rw [if_pos hkey, if_pos hkey]
    · rw [if_neg hkey, if_neg hkey]
      by_cases hstr : ∃ id, key = .str id
      · obtain ⟨id, rfl⟩ := hstr
        rw [find_updates]
        rcases hc : lastOn id cs with _ | c
        · rfl
        · exact (h id (fun heq => hkey (by rw [heq])) c hc).symm
      · rw [find_updates_other m cs fun id hid => hstr ⟨id, hid⟩]

/-- The calls of one repository are all reflected just when the calls before the last one, for other ids, come to
nothing. -/
theorem reflects_iff (dates : Js.Dates) (m : JsMap) (item : Item) (cs : List Call) :
    Reflects dates m cs (calls dates m ⟨m, item⟩ cs) ↔ OthersKept m cs := by
  induction cs using List.reverseRecOn with
  | nil => exact ⟨fun _ last hlast => by simp at hlast, fun _ => ⟨fun key => rfl, fun hne => absurd rfl hne⟩⟩
  | append_singleton cs last =>
    rw [calls_concat, ← sameMap_last_iff]
    constructor
    · rintro ⟨hsame, -⟩
      exact hsame
    · intro hsame
      exact ⟨hsame, fun _ => ⟨last.update m, hsame, rfl⟩⟩

theorem saves_not_reflected :
    ¬ Reflects .iso [] [.save ⟨plainRoute "a" true, "a", rfl⟩, .save ⟨plainRoute "b" true, "b", rfl⟩]
      (calls .iso [] ⟨[], .absent⟩ [.save ⟨plainRoute "a" true, "a", rfl⟩, .save ⟨plainRoute "b" true, "b", rfl⟩]) := by
  rintro ⟨hsame, -⟩
  exact absurd (hsame (.str "a")) (by decide +kernel)

end NginxAdmin.Web.HookRepository
