import NginxAdmin.Daemon.ApplyRun
import NginxAdmin.Daemon.Revisions

/-!
# The commit gate

In every run, with drops and with edits of the runtime directory between the reconciles, a tree gets into
the runtime directory only through the gate, one pipeline at a time. This needs the three directories of
the pipeline to be apart: with the staging directory in the place of the runtime directory the rendering
itself changes the runtime. It also needs the existence tests of `.previous` and of the staging directory to be
right: a `.previous` that is not seen is not removed, and is put back when the switch fails; a staging directory
that is not seen is rendered over.
-/

namespace NginxAdmin.Daemon

open Protocol

/-- What of an event the samples look at. -/
inductive Kind where
  | lock
  | test
  | edit
  | commit
  | other
deriving DecidableEq

/-- The entry `name` is in the directory. -/
def carries (name : String) (d : Option Dir) : Bool := (d.bind (Dir.entryAt [name])).isSome

end NginxAdmin.Daemon
