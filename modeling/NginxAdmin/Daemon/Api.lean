import NginxAdmin.Daemon.Http
import NginxAdmin.Daemon.Rules
import NginxAdmin.Daemon.Service

/-!
# The API (`api.rs`, `error.rs`)

`handle` answers one HTTP request with the program of its handler, in terms of the operations of `World`. What is left
to `axum` and given as a parameter is the extractor of a JSON body, which runs before the handler and may reject the
request.
-/

namespace NginxAdmin.Daemon

/-- `http::Method`. -/
inductive Method where
  | get
  | head
  | put
  | post
  | other (token : String)
deriving DecidableEq

structure HttpRequest where
  method : Method
  path : String
  headers : HeaderMap
  body : Bytes

/-- The body of an answer, before it is serialised. -/
inductive Body where
  | empty
  | state (state : ControlPlaneState)
  | status (status : RuntimeStatus)
  /-- `CommandAccepted`; the status of a command is always `ACCEPTED`. -/
  | commandAccepted (commandId : String)
  /-- `ErrorBody`. -/
  | error (error : String)
  | text (text : String)
deriving DecidableEq

structure HttpResponse where
  statusCode : Nat
  etag : Option HeaderValue
  body : Body

/-- `JsonRejection`: why the body of a request is not a draft. -/
structure JsonRejection where
  statusCode : Nat
  text : String

/-- The extractor `Json<ControlPlaneState>`. -/
abbrev JsonExtractor := HeaderMap → Bytes → Except JsonRejection ControlPlaneState

/-- `impl IntoResponse for DaemonError`. -/
def DaemonError.statusCode : DaemonError → Nat
  | conflict _ => 409
  | invalidInput _ => 400
  | preconditionRequired => 428
  | io _ | json _ | internal _ => 500

def DaemonError.intoResponse (e : DaemonError) : HttpResponse := ⟨e.statusCode, none, .error e.toString⟩

/-- The answer of a handler that can fail. -/
def respond {α : Type} (x : Fallible α) (ok : α → HttpResponse) : Code HttpResponse := do
  return match ← x.run with
    | .ok a => ok a
    | .error e => e.intoResponse

theorem respond_all {α : Type} {K : Op → Prop} {f : Fallible α} (hf : f.run.All K) {ok : α → HttpResponse} :
    (respond f ok).All K :=
  hf.bind fun _ => trivial

/-- The milliseconds of a `DateTime`. -/
def timestampMillis (t : DateTime) : Nat := t / 1000000

/-- `new_command_id`. -/
def newCommandId (commandPrefix : String) : Fallible String := do
  return commandPrefix ++ "-" ++ toString (timestampMillis (← ask .now))

/-- `trigger_reconcile`. -/
def triggerReconcile (cfg : DaemonConfig) : Fallible String := do
  let commandId ← newCommandId "reconcile"
  ExceptT.mk (reconcileOnce cfg)
  pure commandId

/-- `MethodRouter`: the handlers of a path. -/
structure MethodRouter where
  get : Option (HttpRequest → Code HttpResponse)
  put : Option (HttpRequest → Code HttpResponse)
  post : Option (HttpRequest → Code HttpResponse)

def HttpResponse.withoutBody (r : HttpResponse) : HttpResponse := { r with body := .empty }

/-- The handler for the method of the request; that of `GET` also answers `HEAD`. -/
def MethodRouter.call (router : MethodRouter) (req : HttpRequest) : Code HttpResponse :=
  let run (handler : Option (HttpRequest → Code HttpResponse)) : Code HttpResponse :=
    match handler with
    | some handler => handler req
    | none => pure ⟨405, none, .empty⟩
  match req.method with
  | .get => run router.get
  | .head => do return (← run router.get).withoutBody
  | .put => run router.put
  | .post => run router.post
  | .other _ => run none

section Router

variable (cfg : DaemonConfig) (serde : Serde) (extract : JsonExtractor)

def stateResponse (a : HeaderValue × ControlPlaneState) : HttpResponse := ⟨200, some a.1, .state a.2⟩

/-- `PUT /v1/state`: the body is extracted before the handler runs. -/
def putStateRoute (req : HttpRequest) : Code HttpResponse :=
  match extract req.headers req.body with
  | .error rejection => pure ⟨rejection.statusCode, none, .text rejection.text⟩
  | .ok draft => respond (putStateHandler serde req.headers draft) stateResponse

/-- What `put_state` does while it holds the state lock. -/
def Op.OfPut : Op → Prop
  | now | writeStateTmp _ | renameStateTmp | writeState _ | updateStatus (.pendingApply _) => True
  | _ => False

theorem putStateLocked_ofPut (current : ControlPlaneState) (expected : UInt64) (draft : ControlPlaneState) :
    (putStateLocked serde current expected draft).run.All Op.OfPut := by
  have hwrite : ∀ x, (writeStateFile serde x).run.All Op.OfPut := fun x =>
    all_bind (all_check _) fun payload => all_bind (all_attempt (.perform (o := Op.writeStateTmp payload) trivial)) fun _ =>
      all_attempt (.perform (o := Op.renameStateTmp) trivial)
  unfold putStateLocked
  split
  · exact trivial
  split
  · exact trivial
  refine all_bind (all_ask (o := .now) trivial) fun n => all_bind (all_check _) fun _ => all_bind (hwrite _) fun _ => ?_
  exact all_bind (all_ask (o := .writeState _) trivial) fun _ => all_bind (all_ask (o := .updateStatus (.pendingApply _)) trivial)
    fun _ => trivial

theorem putStateRoute_all {K : Op → Prop} (hlock : K .lockState) (hunlock : K .unlockState) (hK : ∀ o : Op, o.OfPut → K o)
    (req : HttpRequest) : (putStateRoute serde extract req).All K := by
  have hput : ∀ expected draft, (putState serde expected draft).All K := fun expected draft =>
    .bind (.perform hlock) fun current => .bind ((putStateLocked_ofPut serde current expected draft).mono hK) fun _ =>
      .bind (.perform hunlock) fun _ => trivial
  unfold putStateRoute
  split
  · exact trivial
  · refine respond_all (all_bind (all_check _) fun expected => all_bind (hput expected _) fun x => ?_)
    exact all_bind (all_check _) fun _ => trivial

/-- `build_router`. -/
def buildRouter : List (String × MethodRouter) :=
  [("/v1/state", ⟨some fun _ => respond getStateHandler stateResponse, some (putStateRoute serde extract), none⟩),
    ("/v1/runtime/status", ⟨some fun _ => do return ⟨200, none, .status (← getStatus)⟩, none, none⟩),
    ("/v1/reconcile", ⟨none, none, some fun _ => respond (triggerReconcile cfg) fun id => ⟨202, none, .commandAccepted id⟩⟩),
    ("/healthz", ⟨some fun _ => pure ⟨200, none, .empty⟩, none, none⟩)]

def handle (req : HttpRequest) : Code HttpResponse :=
  match (buildRouter cfg serde extract).lookup req.path with
  | some router => router.call req
  | none => pure ⟨404, none, .empty⟩

variable {cfg serde extract}

/-- The path of a request and the handlers under it. -/
theorem buildRouter_cases {path : String} {router : MethodRouter}
    (h : (buildRouter cfg serde extract).lookup path = some router) :
    path = "/v1/state" ∧
      router = ⟨some fun _ => respond getStateHandler stateResponse, some (putStateRoute serde extract), none⟩ ∨
    router = ⟨some fun _ => do return ⟨200, none, .status (← getStatus)⟩, none, none⟩ ∨
    router = ⟨none, none, some fun _ => respond (triggerReconcile cfg) fun id => ⟨202, none, .commandAccepted id⟩⟩ ∨
    router = ⟨some fun _ => pure ⟨200, none, .empty⟩, none, none⟩ := by
  simp only [buildRouter, List.lookup_cons, List.lookup_nil] at h
  split at h
  · rename_i heq
    exact .inl ⟨of_decide_eq_true heq, (Option.some.inj h).symm⟩
  split at h
  · exact .inr (.inl (Option.some.inj h).symm)
  split at h
  · exact .inr (.inr (.inl (Option.some.inj h).symm))
  split at h
  · exact .inr (.inr (.inr (Option.some.inj h).symm))
  · cases h

/-- What holds of every handler, and of a handler without its body, holds of every answer. -/
theorem handle_cases {C : Code HttpResponse → Prop} {req : HttpRequest} (hpure : ∀ res, C (pure res))
    (hhead : ∀ p, C p → C (do return (← p).withoutBody))
    (hstate : C (respond getStateHandler stateResponse)) (hput : C (putStateRoute serde extract req))
    (hstatus : C (do return ⟨200, none, .status (← getStatus)⟩))
    (hreconcile : C (respond (triggerReconcile cfg) fun id => ⟨202, none, .commandAccepted id⟩)) :
    C (handle cfg serde extract req) := by
  have hcall : ∀ router : MethodRouter, (∀ f, router.get = some f → C (f req)) → (∀ f, router.put = some f → C (f req)) →
      (∀ f, router.post = some f → C (f req)) → C (router.call req) := by
    intro router hget hput hpost
    have run : ∀ handler : Option (HttpRequest → Code HttpResponse), (∀ f, handler = some f → C (f req)) →
        C (match handler with | some handler => handler req | none => pure ⟨405, none, .empty⟩) := by
      intro handler hf
      cases handler with
      | none => exact hpure _
      | some f => exact hf f rfl
    unfold MethodRouter.call
    cases req.method with
    | get => exact run _ hget
    | head => exact hhead _ (run _ hget)
    | put => exact run _ hput
    | post => exact run _ hpost
    | other token => exact hpure _
  unfold handle
  split
  · rename_i router hrouter
    rcases buildRouter_cases hrouter with ⟨-, rfl⟩ | rfl | rfl | rfl
    · refine hcall _ (fun f hf => ?_) (fun f hf => ?_) fun f hf => by cases hf
      · cases hf; exact hstate
      · cases hf; exact hput
    · refine hcall _ (fun f hf => ?_) (fun f hf => by cases hf) fun f hf => by cases hf
      cases hf; exact hstatus
    · refine hcall _ (fun f hf => by cases hf) (fun f hf => by cases hf) fun f hf => ?_
      cases hf; exact hreconcile
    · refine hcall _ (fun f hf => ?_) (fun f hf => by cases hf) fun f hf => by cases hf
      cases hf; exact hpure _
  · exact hpure _

end Router

/-- What a process does besides loading its state: it answers requests, and its background loop calls
`reconcile_once`; somebody else edits the runtime directory. -/
inductive Task where
  | request (req : HttpRequest)
  | loop
  | externalEdit (content : Option Dir)

/-- The answer to a request; the other tasks answer nobody. -/
def Task.code (cfg : DaemonConfig) (serde : Serde) (extract : JsonExtractor) : Task → Code (Option HttpResponse)
  | request req => do return some (← handle cfg serde extract req)
  | loop => do
    -- an error is only logged
    let _ ← reconcileOnce cfg
    return none
  | externalEdit content => do
    perform (.externalEdit cfg.runtime content)
    return none

/-- A process that serves. -/
def serve (cfg : DaemonConfig) (serde : Serde) (extract : JsonExtractor) (w : World) (tasks : List Task) :
    Pool Op.Res Moment (Option HttpResponse) where
  shared := ⟨w, []⟩
  threads t := (tasks[t]?).map (Task.code cfg serde extract)

end NginxAdmin.Daemon
