import NginxAdmin.Daemon.Rules
import NginxAdmin.Daemon.Timestamp
import NginxAdmin.Lib.Shell

/-!
# What the shell makes of the daemon's commands

The paths that the daemon puts into commands are quoted by `shell_escape`, which `apply.rs` and `main.rs` both have. The
shell reads them back as they were: `backup_tars`, `tokens_chgrpCommand`.
-/

namespace NginxAdmin.Daemon

open Shell

/-- `shell_escape` of `main.rs`. -/
def Main.shellEscape (path : PathBuf) : String := "'" ++ Text.replace path "'" "'\"'\"'" ++ "'"

/-- The command of `configure_unix_socket_permissions` for a group that exists. -/
def Main.chgrpCommand (socketGroup : String) (path : PathBuf) : String :=
  "chgrp " ++ socketGroup ++ " " ++ Main.shellEscape path

theorem toList_shellEscape (path : PathBuf) : (shellEscape path).toList = quoted path.toList := by
  have hreplace : (Text.replace path "'" "'\"'\"'").toList = path.toList.flatMap escapeQuote := by
    rw [Text.replace, String.toList_ofList]
    exact Text.replaceAux_singleton '\'' "'\"'\"'".toList path.toList
  rw [shellEscape, String.toList_append, String.toList_append, hreplace]
  rfl

theorem Main.toList_shellEscape (path : PathBuf) : (Main.shellEscape path).toList = quoted path.toList :=
  Daemon.toList_shellEscape path

/-- Whatever the group reads as, the socket's path is the last argument. -/
theorem Main.tokens_chgrpCommand {group : String} {ts : List Token} {path : PathBuf} (hgroup : Separated (group ++ " ") ts)
    (h : '\x00' ∉ path.toList) : tokens (chgrpCommand group path) = some (.word "chgrp" :: (ts ++ [.word path])) := by
  have hstart : Separated "chgrp " [.word "chgrp"] := by decide
  have hread := tokens_quoted (toList_shellEscape path) h (hstart.append hgroup) spaced_empty tokens_empty
  rw [String.append_empty, ← String.append_assoc] at hread
  exact hread

theorem not_nul_snapshotArchive {cfg : DaemonConfig} (h : '\x00' ∉ cfg.backupsDir.toList) (now : DateTime) :
    '\x00' ∉ (snapshotArchive cfg now).toList := by
  have hpad : ∀ width n, '\x00' ∉ (padLeft width n).toList := fun width n hc =>
    absurd (isDigit_padLeft width n _ hc) (by decide)
  have hyear : ∀ year, '\x00' ∉ (formatYear year).toList := by
    intro year hc
    unfold formatYear at hc
    split at hc
    · exact hpad _ _ hc
    · rw [String.toList_append] at hc
      rcases List.mem_append.1 hc with hc | hc
      · exact absurd hc (by decide)
      · exact absurd (Nat.isDigit_of_mem_toDigits (b := 10) (n := year) (by decide) (by decide) (by simpa using hc))
          (by decide)
  have hdir : '\x00' ∉ (PathBuf.withSlash cfg.backupsDir).toList := by
    unfold PathBuf.withSlash
    split
    · decide
    split
    · exact h
    · rw [String.toList_append, List.mem_append, not_or]
      exact ⟨h, by decide⟩
  simp only [snapshotArchive, PathBuf.join, snapshotId, String.toList_append, List.mem_append, not_or]
  exact ⟨hdir, ⟨⟨⟨⟨⟨hyear _, hpad _ _⟩, hpad _ _⟩, hpad _ _⟩, hpad _ _⟩, hpad _ _⟩, by decide⟩

theorem tokens_tar {archive state : PathBuf} (harchive : '\x00' ∉ archive.toList) (hstate : '\x00' ∉ state.toList) :
    tokens ("tar -czf " ++ shellEscape archive ++ " " ++ shellEscape "/etc/nginx" ++ " " ++ shellEscape state) =
      some [.word "tar", .word "-czf", .word archive, .word "/etc/nginx", .word state] := by
  have hblank : Spaced (" " ++ shellEscape "/etc/nginx" ++ " " ++ shellEscape state) := by
    intro c hc
    rw [String.append_assoc, String.append_assoc, String.toList_append] at hc
    obtain rfl : ' ' = c := Option.some.inj hc
    rfl
  have hlast : tokens (" " ++ shellEscape "/etc/nginx" ++ " " ++ shellEscape state) =
      some [.word "/etc/nginx", .word state] := by
    have hnginx : Separated (" " ++ shellEscape "/etc/nginx" ++ " ") [.word "/etc/nginx"] := by decide
    have hread := tokens_quoted (toList_shellEscape state) hstate hnginx spaced_empty tokens_empty
    rwa [String.append_empty] at hread
  have hstart : Separated "tar -czf " [.word "tar", .word "-czf"] := by decide
  have hread := tokens_quoted (toList_shellEscape archive) harchive hstart hblank hlast
  simp only [String.append_assoc] at hread ⊢
  exact hread

/-- A `tar` command reads as the archive to write, `/etc/nginx` and the state file. -/
def Op.TarsAsTold (cfg : DaemonConfig) : Op → Prop
  | .sh (.tar text archive) =>
    tokens text = some [.word "tar", .word "-czf", .word archive, .word "/etc/nginx", .word cfg.statePath]
  | _ => True

theorem backup_tars {cfg : DaemonConfig} (hdir : '\x00' ∉ cfg.backupsDir.toList) (hstate : '\x00' ∉ cfg.statePath.toList) :
    (backup cfg).run.All (Op.TarsAsTold cfg) := by
  refine all_bind (all_ask (o := .now) trivial) fun now => ?_
  refine all_bind (all_attempt (.perform (o := Op.createBackupsDir) trivial)) fun _ => ?_
  refine all_bind (all_bind (all_ask ?_) fun _ => all_check _) fun _ => trivial
  exact tokens_tar (not_nul_snapshotArchive hdir now) hstate

end NginxAdmin.Daemon
