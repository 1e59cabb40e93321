import NginxAdmin.Lib.Prog
import NginxAdmin.Web.Repositories

/-!
# The use cases of routes (`packages/core/src/useCases/routes.ts`)

The use cases over the two repositories, as programs that ask for the item of the storage, for its replacement and for the
time. There is an `await` between any two accesses to the storage, and none between an access and what is computed from it.
-/

namespace NginxAdmin.Web

inductive StorageOp where
  /-- `localStorage.getItem`, with the time for the dates that are missing in it. -/
  | getItem
  | setItem (item : Item)
  /-- `new Date()` -/
  | now

abbrev StorageOp.Res : StorageOp → Type
  | getItem => Item × Int
  | setItem _ => Unit
  | now => Int

inductive UseCaseError where
  | error (message : String)
  | zodError
  /-- A date cannot be written. -/
  | dateError
deriving DecidableEq

abbrev UseCase (α : Type) := ExceptT UseCaseError (Prog StorageOp.Res) α

def ask (o : StorageOp) : UseCase o.Res := ExceptT.lift (Prog.perform o)

theorem run_ask_bind {α : Type} (o : StorageOp) (f : o.Res → UseCase α) :
    (ask o >>= f).run = .call o fun r => (f r).run := rfl

namespace Repository

variable (browser : Browser) (repository : Repository)

/-- What `findById` returns when it has read `item`. -/
def found (now : Int) (item : Item) (id : String) : Option Js :=
  match repository with
  | core => LocalStorageRouteRepository.findById item id
  | infra => BrowserLocalStorageRouteRepository.findById browser now item id

/-- What `save` writes when it has read `item`. -/
def saved (now : Int) (item : Item) (route : Js) : Option Item :=
  match repository with
  | core => some (LocalStorageRouteRepository.save browser.dates item route)
  | infra => BrowserLocalStorageRouteRepository.save browser now item route

/-- What `delete` writes when it has read `item`. -/
def deleted (now : Int) (item : Item) (id : String) : Option Item :=
  match repository with
  | core => some (LocalStorageRouteRepository.delete browser.dates item id)
  | infra => BrowserLocalStorageRouteRepository.delete browser now item id

def write (next : Option Item) : UseCase Unit :=
  match next with
  | none => throw .dateError
  | some next => ask (.setItem next)

def findById (id : String) : UseCase (Option Js) := do
  let read ← ask .getItem
  pure (repository.found browser read.2 read.1 id)

theorem run_findById_bind {α : Type} (id : String) (f : Option Js → UseCase α) :
    (repository.findById browser id >>= f).run = .call .getItem fun r => (f (repository.found browser r.2 r.1 id)).run := rfl

def save (route : Js) : UseCase Unit := do
  let read ← ask .getItem
  write (repository.saved browser read.2 read.1 route)

def delete (id : String) : UseCase Unit := do
  let read ← ask .getItem
  write (repository.deleted browser read.2 read.1 id)

end Repository

/-! ### The use cases -/

section

variable (browser : Browser) (repository : Repository)

/-- The route that `createRoute` saves. -/
def createdRoute (id : String) (routeData : Js) (createdAt updatedAt : Int) : Js :=
  routeData.spread (.obj [("id", .str id), ("metadata", .obj [("createdAt", .date (some createdAt)),
    ("updatedAt", .date (some updatedAt)), ("createdBy", .str "system"), ("tags", .arr [])])])

/-- `createRoute`; the time and the random number in the id are the caller's. -/
def createRoute (id : String) (routeData : Js) : UseCase String :=
  if !validateDomain (routeData.get "domain") then throw (.error "Invalid domain format")
  else if !validatePort (routeData.get "port") then throw (.error "Port must be between 1 and 65535")
  else if !validateUnixPath (routeData.get "root") then throw (.error "Invalid path format")
  else do
    let createdAt ← ask .now
    let updatedAt ← ask .now
    let route := createdRoute id routeData createdAt updatedAt
    if (routeSchema browser.toPlatform route).isNone then throw .zodError
    else do
      repository.save browser route
      pure id

/-- The route that `updateRoute` saves. -/
def updatedRoute (existing updates : Js) (now : Int) : Js :=
  let metadata := existing.get "metadata"
  (existing.spread updates).spread (.obj [("metadata",
    if metadata.truthy then metadata.spread (.obj [("updatedAt", .date (some now))]) else .undefined)])

def updateRoute (id : String) (updates : Js) : UseCase Unit := do
  let existing ← repository.findById browser id
  match existing with
  | none => throw (.error "Route not found")
  | some existing => do
    let now ← ask .now
    let route := updatedRoute existing updates now
    if (routeSchema browser.toPlatform route).isNone then throw .zodError
    else repository.save browser route

/-- The updates of `toggleRouteStatus`. -/
def toggled (route : Js) : Js := .obj [("enabled", .bool (!(route.get "enabled").truthy))]

def toggleRouteStatus (id : String) : UseCase Unit := do
  let route ← repository.findById browser id
  match route with
  | none => throw (.error "Route not found")
  | some route => updateRoute browser repository id (toggled route)

end

/-- What a program returns and leaves when nobody else acts; `clock` gives the times that it reads. -/
def alone {α : Type} : Prog StorageOp.Res α → (Nat → Int) → Item → α × Item
  | .ret a, _, item => (a, item)
  | .call .getItem k, clock, item => alone (k (item, clock 0)) (fun n => clock (n + 1)) item
  | .call (.setItem next) k, clock, _ => alone (k ()) clock next
  | .call .now k, clock, item => alone (k (clock 0)) (fun n => clock (n + 1)) item

end NginxAdmin.Web
