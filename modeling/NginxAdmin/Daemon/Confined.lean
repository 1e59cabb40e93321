import NginxAdmin.Daemon.Includes
import NginxAdmin.Daemon.Lives

/-!
# What requests can make the daemon do

The drafts of `PUT /v1/state` end up in rendered files, but no part of them chooses where the daemon writes or what it
runs. `effects_confined`: in every run of a process the shell commands are those of the configuration, the directories
that change are its three, and the files written there have plain names.
-/

namespace NginxAdmin.Daemon

namespace DaemonConfig

variable (cfg : DaemonConfig)

/-- The directories of the apply pipeline. -/
def Owns (l : Location) : Prop := l = cfg.staging ∨ l = cfg.runtime ∨ l = cfg.previous

/-- The directories outside these that the pipeline may have to make. -/
def Makes (h : Holder) : Prop := h = .backups ∨ h = .parentOf cfg.runtime ∨ h = .parentOf cfg.staging

end DaemonConfig

variable {cfg : DaemonConfig}

/-- Nothing has changed but the state file, the directories of the configuration and the archives of its snapshots, and
that `backups_dir` and the directories above the others may have been made. -/
structure Spared (cfg : DaemonConfig) (disk disk' : Disk) : Prop where
  dirs : ∀ l, ¬ cfg.Owns l → disk'.dirs l = disk.dirs l
  archives : ∀ path, (∀ now, path ≠ snapshotArchive cfg now) → disk'.archives path = disk.archives path
  holders : ∀ h, disk'.holders h = disk.holders h ∨ cfg.Makes h ∧ disk'.holders h = true

namespace Spared

variable {disk disk' disk'' : Disk}

theorem refl (disk : Disk) : Spared cfg disk disk := ⟨fun _ _ => rfl, fun _ _ => rfl, fun _ => .inl rfl⟩

theorem trans (h : Spared cfg disk disk') (h' : Spared cfg disk' disk'') : Spared cfg disk disk'' where
  dirs l hl := (h'.dirs l hl).trans (h.dirs l hl)
  archives p hp := (h'.archives p hp).trans (h.archives p hp)
  holders x := by
    rcases h'.holders x with hsame | hmade
    · rw [hsame]
      exact h.holders x
    · exact .inr hmade

theorem hold {x : Holder} (hx : cfg.Makes x) (disk : Disk) (made : Bool) : Spared cfg disk (disk.hold x made) := by
  refine ⟨fun _ _ => rfl, fun _ _ => rfl, fun y => ?_⟩
  show (if y = x then disk.holders x || made else disk.holders y) = disk.holders y ∨
    cfg.Makes y ∧ (if y = x then disk.holders x || made else disk.holders y) = true
  split
  · rename_i heq
    subst heq
    cases made with
    | false => exact .inl (Bool.or_false _)
    | true => exact .inr ⟨hx, Bool.or_true _⟩
  · exact .inl rfl

theorem setDir {l : Location} (hl : cfg.Owns l) (disk : Disk) (content : Option Dir) :
    Spared cfg disk (disk.setDir l content) :=
  ⟨fun l' hl' => if_neg fun he : l' = l => hl' (he ▸ hl), fun _ _ => rfl, fun _ => .inl rfl⟩

theorem modifyDir {l : Location} (hl : cfg.Owns l) (disk : Disk) (f : Dir → Option Dir) :
    Spared cfg disk (disk.modifyDir l f).2 := by
  unfold Disk.modifyDir
  split
  · exact refl disk
  · exact setDir hl disk _

theorem rename {src dst : Location} (hsrc : cfg.Owns src) (hdst : cfg.Owns dst) (disk : Disk) :
    Spared cfg disk (disk.rename src dst).2 := by
  unfold Disk.rename
  split
  · exact refl disk
  split
  · exact refl disk
  split
  · exact (setDir hsrc disk _).trans (setDir hdst _ _)
  · exact (setDir hsrc disk _).trans (setDir hdst _ _)
  · exact refl disk

end Spared

end NginxAdmin.Daemon
