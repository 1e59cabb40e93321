import NginxAdmin.Desktop.SSHExecutor
import NginxAdmin.Lib.Base64
import NginxAdmin.Lib.Shell
import NginxAdmin.Lib.Utf8

/-!
# The command line of a remote command (`SSHExecutor.execute`)

`execute` puts the path of the command-line tool, the name of the command and the payload into one line, which a shell on
the host takes apart again. `payload_delivered`: whatever the payload is, each line that is run has three words, and the
last one is the payload.
-/

namespace NginxAdmin.Desktop.SSHExecutor

open Shell (PlainWord isPlain)

/-- The commands of `RouteCommandMap`. -/
inductive RouteCommand where
  | list
  | save
  | toggle
deriving DecidableEq

def RouteCommand.name : RouteCommand → String
  | list => "routes:list"
  | save => "routes:save"
  | toggle => "routes:toggle"

/-- `Buffer.from(text, "utf8").toString("base64")` -/
def serialized (text : String) : String := String.ofList (Base64.encode (Utf8.encode text.toList))

/-- What the last word of a command line says. -/
def deserialized (word : String) : Option String :=
  (Base64.decode word.toList).map fun bytes => String.ofList (Utf8.decode bytes)

/-- `execute(command, payload)`; `text` is `JSON.stringify(payload)`. -/
def executing (cliPath : String) (command : RouteCommand) (text : String) : Request :=
  .execute cliPath command.name (serialized text)

theorem deserialized_serialized (text : String) : deserialized (serialized text) = some text := by
  rw [deserialized, serialized, String.toList_ofList, Base64.decode_encode, Option.map_some, Utf8.decode_encode,
    String.ofList_toList]

theorem encode_ne_nil {cs : List Char} (h : cs ≠ []) : Utf8.encode cs ≠ [] := fun hnil => by
  have hback := Utf8.decode_encode cs
  rw [hnil] at hback
  exact h hback.symm

theorem plainWord_serialized {text : String} (h : text ≠ "") : PlainWord (serialized text) := by
  constructor
  · intro hempty
    have hnil : (serialized text).toList = [] := String.toList_eq_nil_iff.2 hempty
    rw [serialized, String.toList_ofList] at hnil
    exact Base64.encode_ne_nil (encode_ne_nil fun hnil => h (String.toList_eq_nil_iff.1 hnil)) hnil
  · rw [serialized, String.toList_ofList]
    refine Base64.encode_forall (fun n hn => ?_) (by decide) _
    have hall : ∀ n : Fin 64, isPlain (Base64.digit n) = true := by decide
    exact hall ⟨n, hn⟩

theorem plainWord_name (command : RouteCommand) : PlainWord command.name := by
  cases command <;> exact Shell.plainWord_of_all (by decide) (by decide)

/-- The words of the line. -/
theorem simpleCommand_executing {cliPath : String} (hcli : PlainWord cliPath) (heq : '=' ∉ cliPath.toList)
    (command : RouteCommand) {text : String} (htext : text ≠ "") :
    Shell.simpleCommand (executing cliPath command text).remoteCommand =
      some [cliPath, command.name, serialized text] := by
  have hline : (executing cliPath command text).remoteCommand = Text.join " " [cliPath, command.name, serialized text] := by
    simp [executing, Request.remoteCommand, Text.join, String.append_assoc]
  have hwords : Shell.plainWords [] (Text.join " " [cliPath, command.name, serialized text]).toList =
      some [cliPath, command.name, serialized text] := by
    refine Shell.plainWords_join ?_
    simp only [List.forall_mem_cons]
    exact ⟨hcli, plainWord_name command, plainWord_serialized htext, by simp⟩
  rw [hline, Shell.simpleCommand, hwords]
  exact if_neg heq

/-- Only the given command is run, by however many attempts. -/
theorem eq_of_mem_execs {retries : Retries} {command : String} {world : Nat → Attempt} {n : Nat} {line : String}
    (h : line ∈ (execWithRetry retries command world n).execs) : line = command := by
  induction n with
  | zero => cases h
  | succ n ih =>
    rw [execWithRetry] at h
    rcases @next_execs retries command (execWithRetry retries command world n) (world n) with he | ⟨-, he⟩
    · exact ih (he ▸ h)
    · rw [he, List.mem_append, List.mem_singleton] at h
      exact h.elim ih id

/-- Whatever happens to the connection, each line that is run reads as the path of the tool, the name of the command and
one more word, and that word gives back the text of the payload. -/
theorem payload_delivered {cliPath : String} (hcli : PlainWord cliPath) (heq : '=' ∉ cliPath.toList)
    (command : RouteCommand) {text : String} (htext : text ≠ "") (retries : Retries) (world : Nat → Attempt) (n : Nat) :
    ∀ line ∈ (execWithRetry retries (executing cliPath command text).remoteCommand world n).execs,
      ∃ word, Shell.simpleCommand line = some [cliPath, command.name, word] ∧ deserialized word = some text := by
  intro line hline
  obtain rfl := eq_of_mem_execs hline
  exact ⟨serialized text, simpleCommand_executing hcli heq command htext, deserialized_serialized text⟩

/-- A payload that would be a command of its own. -/
theorem payload_delivered_toggle : ∃ line word, Shell.simpleCommand line =
      some ["/usr/local/bin/nginx-admin-cli", "routes:toggle", word] ∧
    deserialized word = some "\x7b\"id\":\"'; reboot #\",\"enabled\":false\x7d" := by
  let request := executing "/usr/local/bin/nginx-admin-cli" .toggle "\x7b\"id\":\"'; reboot #\",\"enabled\":false\x7d"
  let world : Nat → Attempt
    | 0 => ⟨.error (.remote "connect ECONNREFUSED" connectFailedCode), false, .aborted, false⟩
    | _ => ⟨.ok (), false, .closed (.code 0) "\x7b\x7d" "", false⟩
  have hrun : (execWithRetry (.number 1) request.remoteCommand world 2).execs.length = 1 := by decide +kernel
  obtain ⟨line, hline⟩ := List.length_eq_one_iff.1 hrun
  have hcli : PlainWord "/usr/local/bin/nginx-admin-cli" := Shell.plainWord_of_all (by decide) (by decide)
  obtain ⟨word, hwords, hword⟩ := payload_delivered hcli (by decide) .toggle (by decide) (.number 1) world 2 line
    (hline ▸ List.mem_singleton_self line)
  exact ⟨line, word, hwords, hword⟩

end NginxAdmin.Desktop.SSHExecutor
