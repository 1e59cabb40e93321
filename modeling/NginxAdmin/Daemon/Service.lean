import NginxAdmin.Daemon.Apply
import NginxAdmin.Lib.Pool

/-!
# The running daemon

The requests that reach one daemon process, each run by its own thread: the API calls, the calls of
`reconcile_once` by the background loop, and, from outside, edits of the runtime directory and the
work of the blocking pool. A request that has not done its first operation is the same as one that has
not arrived yet, so a list of requests stands for every order of their arrival.
-/

namespace NginxAdmin.Daemon

inductive Request where
  | getState
  | getStatus
  | putState (expectedRevision : UInt64) (draft : ControlPlaneState)
  | reconcile
  | externalEdit (content : Option Dir)
  | finishJob

def Request.isPut : Request → Bool
  | putState .. => true
  | _ => false

inductive Response where
  | state (s : ControlPlaneState)
  | status (s : RuntimeStatus)
  | put (r : Except DaemonError ControlPlaneState)
  | reconciled (r : Except DaemonError Unit)
  | done

variable (cfg : DaemonConfig) (serde : Serde)

def Request.code : Request → Code Response
  | getState => do return .state (← Daemon.getState)
  | getStatus => do return .status (← Daemon.getStatus)
  | putState expectedRevision draft => do return .put (← Daemon.putState serde expectedRevision draft)
  | reconcile => do return .reconciled (← reconcileOnce cfg)
  | externalEdit content => do
    perform (.externalEdit cfg.runtime content)
    return .done
  | finishJob => do
    perform .runJob
    return .done

/-- The daemon at the start, with the requests that it is going to get. -/
def start (w : World) (reqs : List Request) : Pool Op.Res Moment Response where
  shared := ⟨w, []⟩
  threads t := (reqs[t]?).map (Request.code cfg serde)

end NginxAdmin.Daemon
