import NginxAdmin.Daemon.Quoting

/-!
# The commands of the bootstrap (`registerBootstrapHandlers.ts`)

`quoteForShell` is the third copy of `shell_escape`; `shell_quoting_exact` is about all of them.
-/

namespace NginxAdmin.Desktop

open Shell

/-- `quoteForShell`. -/
def quoteForShell (value : String) : String := "'" ++ Text.replace value "'" "'\"'\"'" ++ "'"

def installCommand (installScriptUrl : String) : String := "curl -fsSL " ++ quoteForShell installScriptUrl ++ " | sudo bash"

def isActiveCommand (serviceName : String) : String := "systemctl is-active " ++ quoteForShell serviceName

def isEnabledCommand (serviceName : String) : String := "systemctl is-enabled " ++ quoteForShell serviceName

/-- What the handler of `BOOTSTRAP_INSTALL_DAEMON_CHANNEL` runs, in this order. -/
def installDaemon (installScriptUrl serviceName healthCommand : String) : List String :=
  [installCommand installScriptUrl, isActiveCommand serviceName, isEnabledCommand serviceName, healthCommand]

theorem toList_quoteForShell (value : String) : (quoteForShell value).toList = quoted value.toList :=
  Daemon.toList_shellEscape value

/-- A command that ends with a quoted argument. -/
theorem tokens_quoteForShell {pre s : String} {ts : List Token} (hpre : Separated pre ts) (h : '\x00' ∉ s.toList) :
    tokens (pre ++ quoteForShell s) = some (ts ++ [.word s]) := by
  have hread := tokens_quoted (toList_quoteForShell s) h hpre spaced_empty tokens_empty
  rwa [String.append_empty] at hread

/-- Each of the three functions makes one word of a text, and that word is the text, wherever words may stand; so the
commands that are built with them get their arguments as they were. -/
theorem shell_quoting_exact {s : String} (h : '\x00' ∉ s.toList) :
    (∀ q ∈ [Daemon.shellEscape s, Daemon.Main.shellEscape s, quoteForShell s], tokens q = some [.word s] ∧
      ∀ pre post ts us, Separated pre ts → Spaced post → tokens post = some us →
        tokens (pre ++ q ++ post) = some (ts ++ .word s :: us)) ∧
    (∀ cfg : Daemon.DaemonConfig, '\x00' ∉ cfg.backupsDir.toList → '\x00' ∉ cfg.statePath.toList →
      (Daemon.backup cfg).run.All (Daemon.Op.TarsAsTold cfg)) ∧
    (∀ group ts, Separated (group ++ " ") ts →
      tokens (Daemon.Main.chgrpCommand group s) = some (.word "chgrp" :: (ts ++ [.word s]))) ∧
    tokens (installCommand s) =
      some [.word "curl", .word "-fsSL", .word s, .operator '|', .word "sudo", .word "bash"] ∧
    tokens (isActiveCommand s) = some [.word "systemctl", .word "is-active", .word s] ∧
    tokens (isEnabledCommand s) = some [.word "systemctl", .word "is-enabled", .word s] := by
  refine ⟨fun q hq => ?_, fun cfg => Daemon.backup_tars, fun group ts hgroup => ?_, ?_, ?_, ?_⟩
  · have hquoted : q.toList = quoted s.toList := by
      simp only [List.mem_cons, List.not_mem_nil, or_false] at hq
      rcases hq with rfl | rfl | rfl
      · exact Daemon.toList_shellEscape s
      · exact Daemon.Main.toList_shellEscape s
      · exact toList_quoteForShell s
    exact ⟨tokens_quoted_alone hquoted h, fun pre post ts us hpre hspaced => tokens_quoted hquoted h hpre hspaced⟩
  · exact Daemon.Main.tokens_chgrpCommand hgroup h
  · have hstart : Separated "curl -fsSL " [.word "curl", .word "-fsSL"] := by decide
    have hend : tokens " | sudo bash" = some [.operator '|', .word "sudo", .word "bash"] := by decide
    exact tokens_quoted (toList_quoteForShell s) h hstart (fun c hc => by cases hc; rfl) hend
  · have hstart : Separated "systemctl is-active " [.word "systemctl", .word "is-active"] := by decide
    exact tokens_quoteForShell hstart h
  · have hstart : Separated "systemctl is-enabled " [.word "systemctl", .word "is-enabled"] := by decide
    exact tokens_quoteForShell hstart h

/-- Quotes at both ends, a substitution, a backslash and a new line. -/
theorem shell_quoting_exact_sample : tokens (installCommand "''$(id)\\\n'") =
    some [.word "curl", .word "-fsSL", .word "''$(id)\\\n'", .operator '|', .word "sudo", .word "bash"] :=
  (shell_quoting_exact (s := "''$(id)\\\n'") (by decide)).2.2.2.1

end NginxAdmin.Desktop
