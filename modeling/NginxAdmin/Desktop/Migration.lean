import NginxAdmin.Desktop.EnvFile
import NginxAdmin.Lib.Triple

/-!
# The migration of the SSH credentials (`secrets/migrateDesktopSecrets.ts`, `secrets/SecretsRepository.ts`)

`runDesktopSecretsMigration` moves the credentials of the `.env` file to the secrets repository: it stores them, cleans the
file, and sets a marker. A process can stop at any operation and any operation can fail, and the next process runs the
migration again. An existence test that fails answers false, and what follows is right only where none does (`sighted`). Only four disks are ever seen (`Stage`): each process finds one of them and leaves one of them, so the
credentials are always in the file or in the repository, and every way to the end leaves the same record. It is so just when
no line of the file sets a secret variable behind the back of the cleaner (`survives_iff`).
-/

namespace NginxAdmin.Desktop

structure HostSecrets where
  username : Option String
  password : Option String
  token : Option String
  privateKey : Option String
  passphrase : Option String
deriving DecidableEq

/-- `HOST_SECRET_KEYS`. -/
inductive SecretKey where
  | username
  | password
  | token
  | privateKey
  | passphrase

namespace HostSecrets

def get (secrets : HostSecrets) : SecretKey → Option String
  | .username => secrets.username
  | .password => secrets.password
  | .token => secrets.token
  | .privateKey => secrets.privateKey
  | .passphrase => secrets.passphrase

def empty : HostSecrets := ⟨none, none, none, none, none⟩

end HostSecrets

/-- The item, unless it is the empty string. -/
def filled (item : Option String) : Option String := item.filter fun s => s ≠ ""

def normalizeHostSecrets (source : HostSecrets) : HostSecrets where
  username := filled source.username
  password := filled source.password
  token := filled source.token
  privateKey := filled source.privateKey
  passphrase := filled source.passphrase

def hasHostSecrets : Option HostSecrets → Bool
  | none => false
  | some secrets =>
    (filled secrets.username).isSome || (filled secrets.password).isSome || (filled secrets.token).isSome ||
      (filled secrets.privateKey).isSome || (filled secrets.passphrase).isSome

theorem filled_filled (item : Option String) : filled (filled item) = filled item := by
  simp [filled, Option.filter_filter]

theorem get_normalizeHostSecrets (secrets : HostSecrets) (key : SecretKey) :
    (normalizeHostSecrets secrets).get key = filled (secrets.get key) := by
  cases key <;> rfl

namespace Migration

inductive Node where
  | file (text : String)
  | directory
deriving DecidableEq

abbrev Files := String → Option Node

/-- What outlives a process: the files, and what the secrets repository returns for each id. -/
structure Disk where
  files : Files
  secrets : String → Option HostSecrets

structure World where
  env : Env
  disk : Disk

/-- A `SecretsRepositoryError` with the code `MIGRATION_FAILED`, or the error of an operation. -/
inductive Thrown where
  | migrationFailed (message : String)
  | failed
deriving DecidableEq

def readFile (files : Files) (path : String) : Except Thrown String :=
  match files path with
  | some (.file text) => .ok text
  | _ => .error .failed

/-- The file that `loadDesktopEnv` finds. -/
def findEnv (candidates : List String) (files : Files) : Option String :=
  (candidates.filter (· ≠ "")).find? fun candidate => (files candidate).isSome

variable (P : ProcessEnv) in
/-- `loadDesktopEnv`: the path of the file, and the environment with what the file sets. -/
def loadDesktopEnv (candidates : List String) (files : Files) (env : Env) : Except Thrown (Option String × Env) :=
  match findEnv candidates files with
  | none => .ok (none, env)
  | some envPath => (readFile files envPath).map fun content => (some envPath, EnvFile.loadContent P content env)

/-- The keys that are read here are names of variables. -/
def getEnv (env : Env) (key : String) : Option String := (env key).filter fun value => Js.trim value ≠ ""

/-- What `readPrivateKeyFromEnv` returns when nothing fails. -/
def readPrivateKeyFromEnv (files : Files) (env : Env) : Except Thrown (Option String) :=
  match getEnv env "SSH_PRIVATE_KEY_PATH" with
  | some explicitPath =>
    if (files explicitPath).isNone then .error (.migrationFailed "SSH private key file was not found")
    else (readFile files explicitPath).map some
  | none =>
    match getEnv env "SSH_PRIVATE_KEY" with
    | none => .ok none
    | some legacyValue =>
      if (files legacyValue).isSome then (readFile files legacyValue).map some else .ok (some legacyValue)

/-- What `collectEnvSecrets` returns when nothing fails. -/
def collectEnvSecrets (files : Files) (env : Env) : Except Thrown HostSecrets :=
  (readPrivateKeyFromEnv files env).map fun privateKey =>
    { username := getEnv env "SSH_USERNAME"
      password := getEnv env "SSH_PASSWORD"
      token := none
      privateKey := privateKey
      passphrase := getEnv env "SSH_PASSPHRASE" }

/-- The operations that a process can be stopped at. -/
inductive Op where
  | get (hostId : String)
  | set (hostId : String) (secrets : HostSecrets)
  | getEnv (key : String)
  | clearSecretProcessEnv
  | existsSync (path : String)
  | readFileSync (path : String)
  | writeFileSync (path text : String)

abbrev Op.Value : Op → Type
  | get _ => Option HostSecrets
  | set _ _ => Unit
  | getEnv _ => Option String
  | clearSecretProcessEnv => Unit
  | existsSync _ => Bool
  | readFileSync _ => String
  | writeFileSync _ _ => Unit

abbrev Op.Res (o : Op) : Type := Except Thrown o.Value

/-- What an operation does that does not fail. -/
def Op.exec (w : World) : (o : Op) → o.Res × World
  | get hostId => (.ok (w.disk.secrets hostId), w)
  | set hostId secrets =>
    (.ok (), { w with disk.secrets := Function.update w.disk.secrets hostId (some (normalizeHostSecrets secrets)) })
  | getEnv key => (.ok (Migration.getEnv w.env key), w)
  | clearSecretProcessEnv => (.ok (), { w with env := fun key => if key ∈ secretEnvKeys then none else w.env key })
  | existsSync path => (.ok (w.disk.files path).isSome, w)
  | readFileSync path => (readFile w.disk.files path, w)
  | writeFileSync path text =>
    (.ok (), { w with disk.files := Function.update w.disk.files path (some (.file text)) })

/-- Operations that never fail. -/
def Op.safe : Op → Bool
  | getEnv _ | clearSecretProcessEnv => true
  | _ => false

def Op.isTest : Op → Bool
  | existsSync _ => true
  | _ => false

/-- What a process sees of an operation that fails: `fs.existsSync` answers false, the others throw. -/
def Op.failed : (o : Op) → o.Res
  | existsSync _ => .ok false
  | _ => .error .failed

/-- A process; the world decides which operations succeed, apart from those that are `safe`. -/
def failing (safe : Op → Bool) : Exec Op.Res World Bool where
  step _ o succeeds w := some (if succeeds || safe o then o.exec w else (o.failed, w))
  cancel _ _ _ := none

/-- The machine of a process. -/
abbrev machine : Exec Op.Res World Bool := failing Op.safe

/-- The machine of a process whose existence tests are right. -/
abbrev sighted : Exec Op.Res World Bool := failing fun o => o.safe || o.isTest

abbrev Script (α : Type) := ExceptT Thrown (Prog Op.Res) α

def perform (o : Op) : Script o.Value := ExceptT.mk (Prog.perform o)

def Script.readPrivateKeyFromEnv : Script (Option String) := do
  match (← perform (.getEnv "SSH_PRIVATE_KEY_PATH")) with
  | some explicitPath => do
    let found ← perform (.existsSync explicitPath)
    if found then do
      let text ← perform (.readFileSync explicitPath)
      pure (some text)
    else throw (.migrationFailed "SSH private key file was not found")
  | none => do
    match (← perform (.getEnv "SSH_PRIVATE_KEY")) with
    | none => pure none
    | some legacyValue => do
      let found ← perform (.existsSync legacyValue)
      if found then do
        let text ← perform (.readFileSync legacyValue)
        pure (some text)
      else pure (some legacyValue)

def Script.collectEnvSecrets : Script HostSecrets := do
  let username ← perform (.getEnv "SSH_USERNAME")
  let password ← perform (.getEnv "SSH_PASSWORD")
  let privateKey ← Script.readPrivateKeyFromEnv
  let passphrase ← perform (.getEnv "SSH_PASSPHRASE")
  pure ⟨username, password, none, privateKey, passphrase⟩

def markerHostId : String := "__migration_desktop_env_v1__"

def completed : HostSecrets := { HostSecrets.empty with token := some "completed" }

/-- `{ ...existing, ...envSecrets }`: the four properties of `envSecrets` are there even when they are undefined. -/
def merge (existing : Option HostSecrets) (envSecrets : HostSecrets) : HostSecrets :=
  { envSecrets with token := existing.bind HostSecrets.token }

def cleanupEnvFile : Option String → Script Bool
  | none => pure false
  | some envPath =>
    if envPath = "" then pure false
    else do
      let found ← perform (.existsSync envPath)
      if found then do
        let original ← perform (.readFileSync envPath)
        let next := EnvFile.withoutSecrets original
        if next = original then pure false
        else do
          perform (.writeFileSync envPath next)
          pure true
      else pure false

structure DesktopSecretsMigrationResult where
  hostId : String
  migrated : Bool
  cleanedEnvFile : Bool
  secrets : Option HostSecrets

def runDesktopSecretsMigration (envPath : Option String) (hostId : String) : Script DesktopSecretsMigrationResult := do
  let marker ← perform (.get markerHostId)
  let existing ← perform (.get hostId)
  if marker.isSome then do
    perform .clearSecretProcessEnv
    pure ⟨hostId, false, false, existing⟩
  else do
    let envSecrets ← Script.collectEnvSecrets
    if hasHostSecrets (some envSecrets) then do
      perform (.set hostId (merge existing envSecrets))
      let verified ← perform (.get hostId)
      if hasHostSecrets verified then do
        let cleanedEnvFile ← cleanupEnvFile envPath
        perform .clearSecretProcessEnv
        perform (.set markerHostId completed)
        pure ⟨hostId, true, cleanedEnvFile, verified⟩
      else throw (.migrationFailed "Unable to verify migrated host credentials")
    else do
      perform (.set markerHostId completed)
      perform .clearSecretProcessEnv
      pure ⟨hostId, false, false, existing⟩

variable (P : ProcessEnv)

/-- An environment without the secret variables. -/
def Bare (env : Env) : Prop := ∀ key ∈ secretEnvKeys, env key = none

/-- The disks that are left when processes start, run the migration, and stop at any point, one after the other. The secret
variables of each come from the file only, and its existence tests are right. -/
inductive Restarted (candidates : List String) (hostId : String) (disk : Disk) : Disk → Prop
  | none : Restarted candidates hostId disk disk
  | process {d : Disk} {base env : Env} {envPath : Option String}
      {pool : Pool Op.Res World (Except Thrown DesktopSecretsMigrationResult)} (h : Restarted candidates hostId disk d)
      (hbase : Bare base) (hload : loadDesktopEnv P candidates d.files base = .ok (envPath, env))
      (hrun : Pool.Reach sighted.machine (.single 0 (runDesktopSecretsMigration envPath hostId).run ⟨env, d⟩) pool) :
      Restarted candidates hostId disk pool.shared.disk

/-- A process that starts on `d`, sees what is there, meets only what `ok` allows, and completes the migration leaves `d'`. -/
def Completes (ok : Bool → Prop) (candidates : List String) (hostId : String) (d d' : Disk) : Prop :=
  ∃ base env envPath result env', Bare base ∧ loadDesktopEnv P candidates d.files base = .ok (envPath, env) ∧
    (runDesktopSecretsMigration envPath hostId).run.Eval (sighted.machineOn ok) 0 ⟨env, d⟩ (.ok result) ⟨env', d'⟩

/-- A process that starts on these files collects the credential. -/
def Obtainable (candidates : List String) (files : Files) (key : SecretKey) (value : String) : Prop :=
  ∀ base, Bare base → ∃ envPath env secrets, loadDesktopEnv P candidates files base = .ok (envPath, env) ∧
    collectEnvSecrets files env = .ok secrets ∧ secrets.get key = some value

/-- The file that a process loads assigns no secret variable. -/
def FreeOfSecrets (candidates : List String) (files : Files) : Prop :=
  ∃ envPath text, findEnv candidates files = some envPath ∧ files envPath = some (.file text) ∧
    ∀ line ∈ EnvFile.lines text, ∀ name ∈ secretEnvKeys, ¬ EnvFile.Assigns P line name

/-- No line of the file that a process loads has a secret variable in disguise. -/
def Undisguised (candidates : List String) (files : Files) : Prop :=
  ∀ envPath text, findEnv candidates files = some envPath → files envPath = some (.file text) →
    ∀ line ∈ EnvFile.lines text, ∀ name, ¬ EnvFile.Disguises P line name

/-- Wherever the processes that run the migration stop, each credential that was collected can still be collected or is
stored, and the migration can be completed; and when it is, the marker is set, the file sets no secret variable, and the
record is that of a run without any failure. -/
def Survives (candidates : List String) (hostId : String) (disk : Disk) (secrets : HostSecrets) : Prop :=
  (∀ d, Restarted P candidates hostId disk d →
    (∀ key value, secrets.get key = some value → value ≠ "" →
      Obtainable P candidates d.files key value ∨ ∃ record, d.secrets hostId = some record ∧ record.get key = some value) ∧
    ∃ d', Completes P (· = true) candidates hostId d d') ∧
  ∀ d d', Restarted P candidates hostId disk d → Completes P (fun _ => True) candidates hostId d d' →
    d'.secrets markerHostId ≠ none ∧ FreeOfSecrets P candidates d'.files ∧
      ∀ u, Completes P (· = true) candidates hostId disk u → d'.secrets hostId = u.secrets hostId

variable {P}

theorem failed_of_not_isTest {o : Op} (h : o.isTest = false) : o.failed = .error .failed := by
  cases o <;> first | rfl | cases h

theorem step_failing {safe : Op → Bool} {ok : Bool → Prop} {t : Nat} {o : Op} {w w' : World} {r : o.Res}
    (h : ((failing safe).machineOn ok).step t o w r w') :
    o.exec w = (r, w') ∨ ok false ∧ safe o = false ∧ r = o.failed ∧ w' = w := by
  obtain ⟨c, hc, hs⟩ := h
  simp only [failing, Option.some.injEq] at hs
  split at hs
  · exact .inl hs
  · rename_i hcond
    cases hs
    simp only [Bool.or_eq_true, not_or, Bool.not_eq_true] at hcond
    exact .inr ⟨hcond.1 ▸ hc, hcond.2, rfl, rfl⟩

/-- Where the existence tests are right, an operation that fails throws. -/
theorem step_sighted {ok : Bool → Prop} {t : Nat} {o : Op} {w w' : World} {r : o.Res}
    (h : (sighted.machineOn ok).step t o w r w') :
    o.exec w = (r, w') ∨ ok false ∧ r = .error .failed ∧ w' = w := by
  refine (step_failing h).imp_right ?_
  rintro ⟨hok, hsafe, hr, hw⟩
  exact ⟨hok, hr.trans (failed_of_not_isTest (Bool.or_eq_false_iff.1 hsafe).2), hw⟩

/-- Where nothing fails, the script only reads, and it returns `v`. -/
def Reads {α : Type} (ok : Bool → Prop) (w : World) (script : Script α) (v : Except Thrown α) : Prop :=
  ∀ I : World → Prop, I w → (Protocol.keeping 0 I).Triple (sighted.machineOn ok) 0 (· = w) script.run fun r s =>
    s = w ∧ (r = v ∨ ok false ∧ ∃ e, r = .error e)

section Reads

variable {ok : Bool → Prop} {w : World} {α β : Type} {v : Except Thrown α}

theorem Reads.ret : Reads ok w (ExceptT.mk (pure v)) v :=
  fun _ _ => .pure (Protocol.stable_keeping _) fun _ _ hs => ⟨hs, .inl rfl⟩

theorem Reads.perform {o : Op} {v : o.Res} (h : o.exec w = (v, w)) : Reads ok w (perform o) v := by
  refine fun I hI => .perform (Protocol.stable_keeping _) (fun r => Protocol.stable_keeping _) ?_
  refine Protocol.performs_keeping (fun s s' hs => by cases hs) ?_
  rintro s rfl r s' hstep
  rcases step_sighted hstep with hs | ⟨hok, rfl, rfl⟩
  · rw [h] at hs
    cases hs
    exact ⟨hI, rfl, .inl rfl⟩
  · exact ⟨hI, rfl, .inr ⟨hok, _, rfl⟩⟩

theorem Reads.bind {x : Script β} {f : β → Script α} {u : Except Thrown β} (hx : Reads ok w x u)
    (hf : ∀ b, u = .ok b → Reads ok w (f b) v) (he : ∀ e, u = .error e → v = .error e) : Reads ok w (x >>= f) v := by
  intro I hI
  refine Protocol.Triple.tryBind (hx I hI) ?_ (fun e => Protocol.stable_keeping _) ?_
  · rintro b s ⟨rfl, hb | ⟨-, e, hb⟩⟩
    · exact hf b hb.symm I hI s rfl
    · cases hb
  · rintro e s - ⟨rfl, hb | ⟨hok, -⟩⟩
    · exact ⟨rfl, .inl (he e hb.symm).symm⟩
    · exact ⟨rfl, .inr ⟨hok, e, rfl⟩⟩

theorem Reads.perform_bind {o : Op} {b : o.Value} {f : o.Value → Script α} (h : o.exec w = (.ok b, w))
    (hf : Reads ok w (f b) v) : Reads ok w (Migration.perform o >>= f) v := by
  refine .bind (.perform h) (fun b' hb => ?_) fun e he => by cases he
  cases hb
  exact hf

theorem reads_readFile (path : String) : Reads ok w (do
    let text ← perform (.readFileSync path)
    pure (some text)) ((readFile w.disk.files path).map some) := by
  refine .bind (.perform rfl) (fun text h => ?_) fun e h => ?_
  · rw [h]
    exact .ret
  · rw [h]
    rfl

theorem reads_readPrivateKeyFromEnv :
    Reads ok w Script.readPrivateKeyFromEnv (readPrivateKeyFromEnv w.disk.files w.env) := by
  unfold Script.readPrivateKeyFromEnv readPrivateKeyFromEnv
  refine .perform_bind rfl ?_
  cases getEnv w.env "SSH_PRIVATE_KEY_PATH" with
  | some path =>
    refine .perform_bind rfl ?_
    simp only [← Option.not_isSome]
    cases (w.disk.files path).isSome
    · exact .ret
    · exact reads_readFile path
  | none =>
    refine .perform_bind rfl ?_
    cases getEnv w.env "SSH_PRIVATE_KEY" with
    | none => exact .ret
    | some legacyValue =>
      refine .perform_bind rfl ?_
      dsimp only
      cases (w.disk.files legacyValue).isSome
      · exact .ret
      · exact reads_readFile legacyValue

theorem reads_collectEnvSecrets : Reads ok w Script.collectEnvSecrets (collectEnvSecrets w.disk.files w.env) := by
  refine .perform_bind rfl (.perform_bind rfl (.bind reads_readPrivateKeyFromEnv (fun privateKey h => ?_) fun e h => ?_))
  · rw [collectEnvSecrets, h]
    exact .perform_bind rfl .ret
  · rw [collectEnvSecrets, h]
    rfl

end Reads

theorem getEnv_congr {env env' : Env} {key : String} (h : env key = env' key) : getEnv env key = getEnv env' key := by
  simp only [getEnv, h]

/-- What is collected depends on the secret variables only. -/
theorem collectEnvSecrets_congr {files : Files} {env : Env} (env' : Env) (h : ∀ key ∈ secretEnvKeys, env key = env' key) :
    collectEnvSecrets files env = collectEnvSecrets files env' := by
  have hget : ∀ key ∈ secretEnvKeys, getEnv env key = getEnv env' key := fun key hkey => getEnv_congr (h key hkey)
  simp only [secretEnvKeys, List.forall_mem_cons, List.not_mem_nil, false_imp_iff, implies_true, and_true] at hget
  obtain ⟨husername, hpassword, hprivateKey, hpath, hpassphrase⟩ := hget
  simp only [collectEnvSecrets, readPrivateKeyFromEnv, husername, hpassword, hprivateKey, hpath, hpassphrase]

theorem collectEnvSecrets_of_bare {files : Files} {env : Env} (h : Bare env) :
    collectEnvSecrets files env = .ok .empty := by
  rw [collectEnvSecrets_congr (fun _ => none) h]
  rfl

theorem token_of_collect {files : Files} {env : Env} {secrets : HostSecrets}
    (h : collectEnvSecrets files env = .ok secrets) : secrets.token = none := by
  unfold collectEnvSecrets at h
  rcases hkey : readPrivateKeyFromEnv files env with e | privateKey
  · rw [hkey] at h
    cases h
  · rw [hkey] at h
    cases h
    rfl

inductive Stage where
  | untouched
  | stored
  | cleaned
  | marked

variable (P) in
/-- What a whole run starts from. -/
structure Start where
  candidates : List String
  hostId : String
  disk : Disk
  envPath : String
  content : String
  secrets : HostSecrets
  hostId_ne : hostId ≠ markerHostId
  marker : disk.secrets markerHostId = none
  found : findEnv candidates disk.files = some envPath
  file : disk.files envPath = some (.file content)
  collects : ∀ base, Bare base → collectEnvSecrets disk.files (EnvFile.loadContent P content base) = .ok secrets
  has : hasHostSecrets (some secrets) = true

namespace Start

variable (S : Start P)

/-- What ends up under `hostId`. -/
def record : HostSecrets := normalizeHostSecrets (merge (S.disk.secrets S.hostId) S.secrets)

def storedSecrets : String → Option HostSecrets := Function.update S.disk.secrets S.hostId (some S.record)

def cleanedFiles : Files := Function.update S.disk.files S.envPath (some (.file (EnvFile.withoutSecrets S.content)))

def diskAt : Stage → Disk
  | .untouched => S.disk
  | .stored => ⟨S.disk.files, S.storedSecrets⟩
  | .cleaned => ⟨S.cleanedFiles, S.storedSecrets⟩
  | .marked => ⟨S.cleanedFiles, Function.update S.storedSecrets markerHostId (some (normalizeHostSecrets completed))⟩

/-- One of the four disks. -/
def Seen (w : World) : Prop := ∃ stage, w.disk = S.diskAt stage

/-- The variables that a process has when it starts at the stage. -/
def Loaded (stage : Stage) (env : Env) : Prop :=
  match stage with
  | .untouched | .stored => collectEnvSecrets S.disk.files env = .ok S.secrets
  | .cleaned | .marked => Bare env

theorem envPath_ne : S.envPath ≠ "" := by
  have hmem := List.mem_of_find?_eq_some S.found
  simpa using (List.mem_filter.1 hmem).2

theorem secrets_token : S.secrets.token = none :=
  token_of_collect (S.collects (fun _ => none) fun _ _ => rfl)

/-- Storing the credentials once more changes nothing. -/
theorem record_again : normalizeHostSecrets (merge (some S.record) S.secrets) = S.record := by
  simp [record, merge, normalizeHostSecrets, filled_filled]

theorem get_record {key : SecretKey} {value : String} (h : S.secrets.get key = some value) (hne : value ≠ "") :
    S.record.get key = some value := by
  have hfilled : filled (some value) = some value := by simp [filled, hne]
  cases key with
  | token =>
    have ht := S.secrets_token
    rw [show S.secrets.token = some value from h] at ht
    cases ht
  | _ => exact (congrArg filled h).trans hfilled

theorem has_record : hasHostSecrets (some S.record) = true := by
  have h := S.has
  have ht := S.secrets_token
  simp only [hasHostSecrets, ht] at h
  simp only [hasHostSecrets, record, merge, normalizeHostSecrets, filled_filled]
  revert h
  cases (filled S.secrets.username).isSome <;> cases (filled S.secrets.password).isSome <;>
    cases (filled S.secrets.privateKey).isSome <;> cases (filled S.secrets.passphrase).isSome <;> simp [filled]

theorem isSome_cleanedFiles (path : String) : (S.cleanedFiles path).isSome = (S.disk.files path).isSome := by
  unfold cleanedFiles
  by_cases h : path = S.envPath
  · subst h
    rw [Function.update_self, S.file]
    rfl
  · rw [Function.update_of_ne h]

theorem findEnv_diskAt (stage : Stage) : findEnv S.candidates (S.diskAt stage).files = some S.envPath := by
  have hcleaned : findEnv S.candidates S.cleanedFiles = some S.envPath := by
    simp only [findEnv, S.isSome_cleanedFiles]
    exact S.found
  cases stage
  · exact S.found
  · exact S.found
  · exact hcleaned
  · exact hcleaned

theorem readFile_cleanedFiles : readFile S.cleanedFiles S.envPath = .ok (EnvFile.withoutSecrets S.content) := by
  simp [readFile, cleanedFiles]

theorem readFile_file : readFile S.disk.files S.envPath = .ok S.content := by
  simp [readFile, S.file]

/-- No line of the file has a secret variable in disguise. -/
def Plain : Prop := ∀ line ∈ EnvFile.lines S.content, ∀ name, ¬ EnvFile.Disguises P line name

/-- A process that starts at a stage finds the file, and the variables of the stage. -/
theorem load_diskAt {stage : Stage} (h : stage = .untouched ∨ S.Plain) {base : Env} (hbase : Bare base) :
    ∃ env, loadDesktopEnv P S.candidates (S.diskAt stage).files base = .ok (some S.envPath, env) ∧ S.Loaded stage env := by
  have hkept : loadDesktopEnv P S.candidates S.disk.files base = .ok (some S.envPath, EnvFile.loadContent P S.content base) := by
    simp [loadDesktopEnv, S.found, S.readFile_file, Except.map]
  have hcleaned : loadDesktopEnv P S.candidates S.cleanedFiles base =
      .ok (some S.envPath, EnvFile.loadContent P (EnvFile.withoutSecrets S.content) base) := by
    simp [loadDesktopEnv, show findEnv S.candidates S.cleanedFiles = some S.envPath from S.findEnv_diskAt .cleaned,
      S.readFile_cleanedFiles, Except.map]
  have hbare : S.Plain → Bare (EnvFile.loadContent P (EnvFile.withoutSecrets S.content) base) := by
    intro hplain key hkey
    rw [(EnvFile.loadContent_withoutSecrets_iff hkey).2 fun line hline hd => absurd hd (hplain line hline key)]
    exact hbase key hkey
  cases stage with
  | untouched => exact ⟨_, hkept, S.collects base hbase⟩
  | stored => exact ⟨_, hkept, S.collects base hbase⟩
  | cleaned => exact ⟨_, hcleaned, hbare (h.resolve_left (by simp))⟩
  | marked => exact ⟨_, hcleaned, hbare (h.resolve_left (by simp))⟩

variable {S} {ok : Bool → Prop} {α : Type}

theorem triple_perform {o : Op} {w w' : World} {v : o.Value} {f : o.Value → Script α} {Q : Except Thrown α → World → Prop}
    (hexec : o.exec w = (.ok v, w')) (hw : S.Seen w) (hw' : S.Seen w') (hfail : ok false → ∀ e s, Q (.error e) s)
    (hf : (Protocol.keeping 0 S.Seen).Triple (sighted.machineOn ok) 0 (· = w') (f v).run Q) :
    (Protocol.keeping 0 S.Seen).Triple (sighted.machineOn ok) 0 (· = w) (perform o >>= f).run Q := by
  refine Protocol.Triple.tryBind (B := fun r s => r = .ok v ∧ s = w' ∨ ok false ∧ ∃ e, r = .error e)
    (.perform (Protocol.stable_keeping _) (fun r => Protocol.stable_keeping _) ?_) ?_ (fun e => Protocol.stable_keeping _) ?_
  · refine Protocol.performs_keeping (fun s s' h => by cases h) ?_
    rintro s rfl r s' hstep
    rcases step_sighted hstep with hs | ⟨hok, rfl, rfl⟩
    · rw [hexec] at hs
      cases hs
      exact ⟨hw', .inl ⟨rfl, rfl⟩⟩
    · exact ⟨hw, .inr ⟨hok, _, rfl⟩⟩
  · intro b s hs
    rcases hs with ⟨hb, rfl⟩ | ⟨-, e, he⟩
    · cases hb
      exact hf s rfl
    · cases he
  · intro e s hs h
    rcases h with ⟨he, -⟩ | ⟨hok, -⟩
    · cases he
    · exact hfail hok e s

variable (S ok) in
/-- The migration completes and leaves the last disk, or an operation has failed. -/
def Ends (r : Except Thrown DesktopSecretsMigrationResult) (w : World) : Prop :=
  (∃ result, r = .ok result ∧ w.disk = S.diskAt .marked) ∨ (ok false ∧ ∃ e, r = .error e)

theorem ends_of_failed (h : ok false) (e : Thrown) (w : World) : S.Ends ok (.error e) w := .inr ⟨h, e, rfl⟩

/-- `script`, run from `w`, completes the migration. -/
def Runs (S : Start P) (ok : Bool → Prop) (w : World) (script : Script DesktopSecretsMigrationResult) : Prop :=
  (Protocol.keeping 0 S.Seen).Triple (sighted.machineOn ok) 0 (· = w) script.run (S.Ends ok)

theorem runs_pure {w : World} (h : w.disk = S.diskAt .marked) (result : DesktopSecretsMigrationResult) :
    S.Runs ok w (pure result) := by
  refine Protocol.Triple.pure (Protocol.stable_keeping _) ?_
  rintro s - rfl
  exact .inl ⟨result, rfl, h⟩

theorem runs_perform {o : Op} {w w' : World} {v : o.Value} {f : o.Value → Script DesktopSecretsMigrationResult}
    (hexec : o.exec w = (.ok v, w')) (hw : S.Seen w) (hw' : S.Seen w') (hf : S.Runs ok w' (f v)) :
    S.Runs ok w (perform o >>= f) :=
  triple_perform hexec hw hw' ends_of_failed hf

theorem runs_collectEnvSecrets {w : World} (hw : S.Seen w) {secrets : HostSecrets}
    (hcollect : collectEnvSecrets w.disk.files w.env = .ok secrets)
    {f : HostSecrets → Script DesktopSecretsMigrationResult} (hf : S.Runs ok w (f secrets)) :
    S.Runs ok w (Script.collectEnvSecrets >>= f) := by
  have hreads : Reads ok w Script.collectEnvSecrets (.ok secrets) := hcollect ▸ reads_collectEnvSecrets
  refine Protocol.Triple.tryBind (hreads S.Seen hw) ?_ (fun e => Protocol.stable_keeping _) ?_
  · rintro b s ⟨rfl, hb | ⟨-, e, he⟩⟩
    · cases hb
      exact hf s rfl
    · cases he
  · rintro e s - ⟨-, he | ⟨hok, -⟩⟩
    · cases he
    · exact ends_of_failed hok e s

theorem runs_mark {w : World} (h : w.disk = S.diskAt .cleaned) {f : Unit → Script DesktopSecretsMigrationResult}
    (hf : ∀ w', w'.disk = S.diskAt .marked → S.Runs ok w' (f ())) :
    S.Runs ok w (perform (.set markerHostId completed) >>= f) := by
  have hw' : (Op.exec w (.set markerHostId completed)).2.disk = S.diskAt .marked := by
    simp only [Op.exec, h]
    rfl
  exact runs_perform rfl ⟨_, h⟩ ⟨_, hw'⟩ (hf _ hw')

theorem runs_clear {w : World} {stage : Stage} (h : w.disk = S.diskAt stage) {f : Unit → Script DesktopSecretsMigrationResult}
    (hf : ∀ w', w'.disk = S.diskAt stage → S.Runs ok w' (f ())) : S.Runs ok w (perform .clearSecretProcessEnv >>= f) :=
  runs_perform rfl ⟨_, h⟩ ⟨_, h⟩ (hf _ h)

theorem runs_cleanup {w : World} (h : w.disk = S.diskAt .stored) {f : Bool → Script DesktopSecretsMigrationResult}
    (hf : ∀ w' b, w'.disk = S.diskAt .cleaned → S.Runs ok w' (f b)) :
    S.Runs ok w (cleanupEnvFile (some S.envPath) >>= f) := by
  have hfiles : w.disk.files = S.disk.files := by rw [h]; rfl
  have hexists : Op.exec w (.existsSync S.envPath) = (.ok true, w) := by
    simp only [Op.exec, hfiles, S.file]
    rfl
  have hread : Op.exec w (.readFileSync S.envPath) = (.ok S.content, w) := by
    simp only [Op.exec, hfiles, S.readFile_file]
  simp only [cleanupEnvFile, if_neg S.envPath_ne, bind_assoc]
  refine runs_perform hexists ⟨_, h⟩ ⟨_, h⟩ ?_
  simp only [if_true, bind_assoc]
  refine runs_perform hread ⟨_, h⟩ ⟨_, h⟩ ?_
  by_cases hsame : EnvFile.withoutSecrets S.content = S.content
  · -- nothing is written, and the file is clean already
    rw [if_pos hsame, pure_bind]
    refine hf w false (h.trans ?_)
    have hclean : S.cleanedFiles = S.disk.files := by
      rw [cleanedFiles, hsame, ← S.file, Function.update_eq_self]
    rw [diskAt, diskAt, hclean]
  · rw [if_neg hsame]
    simp only [bind_assoc, pure_bind]
    have hw' : (Op.exec w (.writeFileSync S.envPath (EnvFile.withoutSecrets S.content))).2.disk = S.diskAt .cleaned := by
      simp only [Op.exec, h]
      rfl
    exact runs_perform rfl ⟨_, h⟩ ⟨_, hw'⟩ (hf _ true hw')

/-- Before the file is cleaned, the whole migration is run. -/
theorem runs_store {env : Env} {d : Disk} (hd : S.Seen ⟨env, d⟩) (hfiles : d.files = S.disk.files)
    (hmarker : d.secrets markerHostId = none)
    (hset : Function.update d.secrets S.hostId (some (normalizeHostSecrets (merge (d.secrets S.hostId) S.secrets))) =
      S.storedSecrets) (henv : collectEnvSecrets S.disk.files env = .ok S.secrets) :
    S.Runs ok ⟨env, d⟩ (runDesktopSecretsMigration (some S.envPath) S.hostId) := by
  unfold runDesktopSecretsMigration
  refine runs_perform rfl hd hd (runs_perform rfl hd hd ?_)
  simp only [hmarker, Option.isSome_none, Bool.false_eq_true, if_false]
  refine runs_collectEnvSecrets hd (show collectEnvSecrets d.files env = .ok S.secrets by rw [hfiles, henv]) ?_
  simp only [S.has, if_true]
  have hw' : (⟨d.files, S.storedSecrets⟩ : Disk) = S.diskAt .stored := by rw [hfiles]; rfl
  have hstore : Op.exec ⟨env, d⟩ (.set S.hostId (merge (d.secrets S.hostId) S.secrets)) =
      (.ok (), ⟨env, d.files, S.storedSecrets⟩) := by
    simp only [Op.exec, hset]
  refine runs_perform hstore hd ⟨_, hw'⟩ ?_
  have hverify : Op.exec ⟨env, d.files, S.storedSecrets⟩ (.get S.hostId) =
      (.ok (some S.record), ⟨env, d.files, S.storedSecrets⟩) := by
    simp only [Op.exec, storedSecrets, Function.update_self]
  refine runs_perform hverify ⟨_, hw'⟩ ⟨_, hw'⟩ ?_
  simp only [S.has_record, if_true]
  refine runs_cleanup hw' fun w' b h' => runs_clear h' fun w'' h'' => runs_mark h'' fun w₃ h₃ => ?_
  exact runs_pure h₃ _

/-- A process that starts at any stage completes the migration, or meets a failing operation. -/
theorem runs_diskAt (ok : Bool → Prop) (stage : Stage) {env : Env} (henv : S.Loaded stage env) :
    S.Runs ok ⟨env, S.diskAt stage⟩ (runDesktopSecretsMigration (some S.envPath) S.hostId) := by
  have hmarker : S.storedSecrets markerHostId = none := by
    rw [storedSecrets, Function.update_of_ne (Ne.symm S.hostId_ne), S.marker]
  cases stage with
  | untouched => exact runs_store ⟨.untouched, rfl⟩ rfl S.marker rfl henv
  | stored =>
    refine runs_store ⟨.stored, rfl⟩ rfl hmarker ?_ henv
    simp only [diskAt, storedSecrets, Function.update_self, S.record_again, Function.update_idem]
  | cleaned =>
    unfold runDesktopSecretsMigration
    have hseen : S.Seen ⟨env, S.diskAt .cleaned⟩ := ⟨.cleaned, rfl⟩
    refine runs_perform rfl hseen hseen (runs_perform rfl hseen hseen ?_)
    simp only [show (S.diskAt .cleaned).secrets markerHostId = none from hmarker, Option.isSome_none, Bool.false_eq_true,
      if_false]
    refine runs_collectEnvSecrets hseen (collectEnvSecrets_of_bare henv) ?_
    have hempty : hasHostSecrets (some .empty) = false := rfl
    simp only [hempty, Bool.false_eq_true, if_false]
    exact runs_mark rfl fun w' h' => runs_clear h' fun w'' h'' => runs_pure h'' _
  | marked =>
    unfold runDesktopSecretsMigration
    have hseen : S.Seen ⟨env, S.diskAt .marked⟩ := ⟨.marked, rfl⟩
    refine runs_perform rfl hseen hseen (runs_perform rfl hseen hseen ?_)
    have hsome : ((S.diskAt .marked).secrets markerHostId).isSome = true := by
      simp [diskAt]
    simp only [hsome, if_true]
    exact runs_clear rfl fun w' h' => runs_pure h' _

theorem exists_of_load {candidates : List String} {hostId : String} {disk : Disk} {base env : Env} {envPath : Option String}
    {secrets : HostSecrets} (hid : hostId ≠ markerHostId) (hmarker : disk.secrets markerHostId = none) (hbase : Bare base)
    (hload : loadDesktopEnv P candidates disk.files base = .ok (envPath, env))
    (hcollect : collectEnvSecrets disk.files env = .ok secrets) (hhas : hasHostSecrets (some secrets) = true) :
    ∃ S : Start P, S.candidates = candidates ∧ S.hostId = hostId ∧ S.disk = disk ∧ S.secrets = secrets := by
  rcases hfound : findEnv candidates disk.files with _ | path
  · -- without a file nothing is collected
    simp only [loadDesktopEnv, hfound] at hload
    cases hload
    rw [collectEnvSecrets_of_bare hbase] at hcollect
    cases hcollect
    cases hhas
  · simp only [loadDesktopEnv, hfound, readFile] at hload
    rcases hfile : disk.files path with _ | ⟨content⟩ | _
    · simp only [hfile] at hload
      cases hload
    · simp only [hfile] at hload
      cases hload
      refine ⟨⟨candidates, hostId, disk, path, content, secrets, hid, hmarker, hfound, hfile, ?_, hhas⟩, rfl, rfl, rfl, rfl⟩
      intro base' hbase'
      rw [← hcollect]
      refine collectEnvSecrets_congr _ fun key hkey => EnvFile.loadContent_congr content ?_
      rw [hbase' key hkey, hbase key hkey]
    · simp only [hfile] at hload
      cases hload

/-- Every process finds one of the four disks. -/
theorem diskAt_of_restarted (hplain : S.Plain) {d : Disk} (h : Restarted P S.candidates S.hostId S.disk d) :
    ∃ stage, d = S.diskAt stage := by
  induction h with
  | none => exact ⟨.untouched, rfl⟩
  | process _ hbase hload hrun ih =>
    obtain ⟨stage, rfl⟩ := ih
    obtain ⟨env, hload', henv⟩ := S.load_diskAt (.inr hplain) hbase
    rw [hload'] at hload
    cases hload
    exact (Protocol.Triple.reach (runs_diskAt (fun _ => True) stage henv) rfl ⟨stage, rfl⟩ hrun).1

theorem diskAt_of_completes {stage : Stage} (hstage : stage = .untouched ∨ S.Plain) {d' : Disk}
    (h : Completes P ok S.candidates S.hostId (S.diskAt stage) d') : d' = S.diskAt .marked := by
  obtain ⟨base, env, envPath, result, env', hbase, hload, heval⟩ := h
  obtain ⟨env₁, hload', henv⟩ := S.load_diskAt hstage hbase
  rw [hload'] at hload
  cases hload
  obtain ⟨hends, -⟩ := Protocol.Triple.eval (runs_diskAt ok stage henv) rfl ⟨stage, rfl⟩ heval
  rcases hends with ⟨-, -, hd⟩ | ⟨-, e, he⟩
  · exact hd
  · cases he

theorem exists_completes {stage : Stage} (hstage : stage = .untouched ∨ S.Plain) :
    ∃ d', Completes P (· = true) S.candidates S.hostId (S.diskAt stage) d' := by
  have hbase : Bare fun _ => none := fun _ _ => rfl
  obtain ⟨env, hload, henv⟩ := S.load_diskAt hstage hbase
  have henabled : ∀ o : Op, True → ∀ w : World, True → ∃ r w', (sighted.machineOn (· = true)).step 0 o w r w' ∧ True :=
    fun o _ w _ => ⟨_, _, ⟨true, rfl, rfl⟩, trivial⟩
  obtain ⟨r, w', heval, -⟩ := Prog.exists_eval (s := ⟨env, S.diskAt stage⟩) henabled
    (p := (runDesktopSecretsMigration (some S.envPath) S.hostId).run) (Prog.all_true _) trivial
  obtain ⟨hends, -⟩ := Protocol.Triple.eval (runs_diskAt (· = true) stage henv) rfl ⟨stage, rfl⟩ heval
  rcases hends with ⟨result, rfl, -⟩ | ⟨hfalse, -⟩
  · exact ⟨w'.disk, _, _, _, _, _, hbase, hload, heval⟩
  · cases hfalse

/-- The file that the migration leaves sets a secret variable just when a line has it in disguise. -/
theorem freeOfSecrets_iff : FreeOfSecrets P S.candidates S.cleanedFiles ↔ S.Plain := by
  have hfound : findEnv S.candidates S.cleanedFiles = some S.envPath := S.findEnv_diskAt .cleaned
  have hfile : S.cleanedFiles S.envPath = some (.file (EnvFile.withoutSecrets S.content)) := Function.update_self ..
  have hfree : FreeOfSecrets P S.candidates S.cleanedFiles ↔
      ∀ name ∈ secretEnvKeys, ∀ line ∈ EnvFile.lines (EnvFile.withoutSecrets S.content), EnvFile.Assigns P line name → False := by
    constructor
    · rintro ⟨envPath, text, hpath, htext, hno⟩ name hname line hline
      cases hfound.symm.trans hpath
      cases hfile.symm.trans htext
      exact hno line hline name hname
    · exact fun hno => ⟨_, _, hfound, hfile, fun line hline name hname => hno name hname line hline⟩
  rw [hfree]
  constructor
  · intro hno line hline name hd
    exact (EnvFile.assigns_withoutSecrets hd.1).1 (hno name hd.1) line hline hd
  · intro hplain name hname
    exact (EnvFile.assigns_withoutSecrets hname).2 fun line hline => hplain line hline name

theorem undisguised_iff : Undisguised P S.candidates S.disk.files ↔ S.Plain := by
  constructor
  · exact fun h => h _ _ S.found S.file
  · intro h envPath text hpath htext
    cases S.found.symm.trans hpath
    cases S.file.symm.trans htext
    exact h

theorem survives_of_plain (hplain : S.Plain) : Survives P S.candidates S.hostId S.disk S.secrets := by
  refine ⟨fun d hd => ?_, fun d d' hd hc => ?_⟩
  · obtain ⟨stage, rfl⟩ := diskAt_of_restarted hplain hd
    refine ⟨fun key value hget hne => ?_, exists_completes (.inr hplain)⟩
    have hobtain : Obtainable P S.candidates S.disk.files key value := by
      intro base' hbase'
      obtain ⟨env', hload', henv'⟩ := S.load_diskAt (.inl rfl) hbase'
      exact ⟨_, env', S.secrets, hload', henv', hget⟩
    have hstored : ∃ record, S.storedSecrets S.hostId = some record ∧ record.get key = some value :=
      ⟨S.record, Function.update_self .., S.get_record hget hne⟩
    cases stage with
    | untouched => exact .inl hobtain
    | stored => exact .inl hobtain
    | cleaned => exact .inr hstored
    | marked =>
      obtain ⟨record, hrecord, hkey⟩ := hstored
      exact .inr ⟨record, (Function.update_of_ne S.hostId_ne ..).trans hrecord, hkey⟩
  · obtain ⟨stage, rfl⟩ := diskAt_of_restarted hplain hd
    obtain rfl := diskAt_of_completes (.inr hplain) hc
    refine ⟨?_, freeOfSecrets_iff.2 hplain, fun u hu => ?_⟩
    · simp [diskAt]
    · have hu' : Completes P (· = true) S.candidates S.hostId (S.diskAt .untouched) u := hu
      rw [diskAt_of_completes (.inl rfl) hu']

end Start

/-- The migration survives every interruption just when no line of the file has a secret variable in disguise. -/
theorem survives_iff {candidates : List String} {hostId : String} {disk : Disk} {base env : Env} {envPath : Option String}
    {secrets : HostSecrets} (hid : hostId ≠ markerHostId) (hmarker : disk.secrets markerHostId = none) (hbase : Bare base)
    (hload : loadDesktopEnv P candidates disk.files base = .ok (envPath, env))
    (hcollect : collectEnvSecrets disk.files env = .ok secrets) (hhas : hasHostSecrets (some secrets) = true) :
    Survives P candidates hostId disk secrets ↔ Undisguised P candidates disk.files := by
  obtain ⟨S, rfl, rfl, rfl, rfl⟩ := Start.exists_of_load hid hmarker hbase hload hcollect hhas
  rw [Start.undisguised_iff]
  refine ⟨fun h => ?_, Start.survives_of_plain⟩
  -- a run without a failure is enough: it leaves the line in the file
  obtain ⟨d', hc⟩ := S.exists_completes (.inl rfl)
  obtain rfl := Start.diskAt_of_completes (.inl rfl) hc
  have hc' : Completes P (fun _ => True) S.candidates S.hostId (S.diskAt .untouched) (S.diskAt .marked) := by
    obtain ⟨base', env', path, result, env'', hbase', hload', heval⟩ := hc
    refine ⟨base', env', path, result, env'', hbase', hload', heval.imp ?_⟩
    rintro o s r s' ⟨c, -, hstep⟩
    exact ⟨c, trivial, hstep⟩
  exact Start.freeOfSecrets_iff.1 (h.2 S.disk _ .none hc').2.1

/-- A disk with a password in its `.env` file. -/
def exampleDisk : Disk where
  files path := if path = "/app/.env" then some (.file "# SSH\r\nSSH_PASSWORD = 'p'\nSSH_HOST=h") else none
  secrets _ := none

theorem undisguised_exampleDisk : Undisguised .posix ["/app/.env"] exampleDisk.files := by
  have hnames : (EnvFile.lines "# SSH\r\nSSH_PASSWORD = 'p'\nSSH_HOST=h").all (fun line =>
      (EnvFile.readLine line).all fun (key, _) => untilNul key = key) = true := by
    decide +kernel
  rintro envPath text hpath htext line hline name ⟨hname, key, rawValue, hr, hkey, rfl, -⟩
  cases hpath
  cases htext
  have hline' := List.all_eq_true.1 hnames line hline
  rw [hr, Option.all_some, decide_eq_true_iff] at hline'
  exact hkey (hline' ▸ hname)

theorem survives_exampleDisk :
    Survives .posix ["/app/.env"] "default" exampleDisk ⟨none, some "p", none, none, none⟩ := by
  have hbase : Bare fun _ => none := fun _ _ => rfl
  have hsecrets : collectEnvSecrets exampleDisk.files
      (EnvFile.loadContent .posix "# SSH\r\nSSH_PASSWORD = 'p'\nSSH_HOST=h" fun _ => none) =
      .ok ⟨none, some "p", none, none, none⟩ := by
    decide +kernel
  exact (@survives_iff .posix ["/app/.env"] "default" exampleDisk _ _ _ _ (by decide) rfl hbase rfl hsecrets rfl).2
    undisguised_exampleDisk

/-- A process that does not see the file leaves the password in it, and sets the marker. -/
example : ((machine.run 0 (runDesktopSecretsMigration (some "/app/.env") "default").run
      (List.replicate 9 true ++ [false, true, true])
      ⟨EnvFile.loadContent .posix "# SSH\r\nSSH_PASSWORD = 'p'\nSSH_HOST=h" fun _ => none, exampleDisk⟩).map fun r =>
    (r.2.disk.files "/app/.env", r.2.disk.secrets markerHostId)) =
    some (exampleDisk.files "/app/.env", some completed) := by
  decide +kernel

/-- A disk with a user name, and with a password under a key that ends at its NUL only for `process.env`. -/
def disguisedDisk : Disk where
  files path := if path = "/app/.env" then some (.file "SSH_USERNAME=u\nSSH_PASSWORD\x00x=pw") else none
  secrets _ := none

/-- The disk of a process that has cleaned the file, and has not set the marker. -/
def stoppedDisk : Disk where
  files := Function.update disguisedDisk.files "/app/.env" (some (.file "SSH_PASSWORD\x00x=pw"))
  secrets := Function.update disguisedDisk.secrets "default" (some ⟨some "u", some "pw", none, none, none⟩)

/-- The first process cannot set the marker. The second one finds the password again, and the user name is lost. -/
theorem disguised_erases :
    loadDesktopEnv .posix ["/app/.env"] disguisedDisk.files (fun _ => none) = .ok (some "/app/.env",
        EnvFile.loadContent .posix "SSH_USERNAME=u\nSSH_PASSWORD\x00x=pw" fun _ => none) ∧
      collectEnvSecrets disguisedDisk.files (EnvFile.loadContent .posix "SSH_USERNAME=u\nSSH_PASSWORD\x00x=pw" fun _ => none) =
        .ok ⟨some "u", some "pw", none, none, none⟩ ∧
      (∃ d', Restarted .posix ["/app/.env"] "default" disguisedDisk stoppedDisk ∧
        Completes .posix (fun _ => True) ["/app/.env"] "default" stoppedDisk d' ∧
        (d'.secrets "default").bind HostSecrets.username = none) ∧
      ¬ Survives .posix ["/app/.env"] "default" disguisedDisk ⟨some "u", some "pw", none, none, none⟩ := by
  have hbase : Bare fun _ => none := fun _ _ => rfl
  have hload : loadDesktopEnv .posix ["/app/.env"] disguisedDisk.files (fun _ => none) = .ok (some "/app/.env",
      EnvFile.loadContent .posix "SSH_USERNAME=u\nSSH_PASSWORD\x00x=pw" fun _ => none) := rfl
  have hstop : (runDesktopSecretsMigration (some "/app/.env") "default").run.Eval sighted.machine 0
      ⟨EnvFile.loadContent .posix "SSH_USERNAME=u\nSSH_PASSWORD\x00x=pw" fun _ => none, disguisedDisk⟩ (.error .failed)
      ⟨_, stoppedDisk⟩ :=
    Prog.eval_of_run (fun c (_ : c ∈ List.replicate 13 true ++ [false]) => trivial) rfl
  have hstopped : Restarted .posix ["/app/.env"] "default" disguisedDisk stoppedDisk := by
    obtain ⟨pool, hreach, -, hshared⟩ := Pool.Reach.of_eval (p := .single 0 _ _) (if_pos rfl) hstop
    have h := Restarted.process .none hbase hload hreach
    rwa [hshared] at h
  have hagain : (runDesktopSecretsMigration (some "/app/.env") "default").run.Eval sighted.machine 0
      ⟨EnvFile.loadContent .posix "SSH_PASSWORD\x00x=pw" fun _ => none, stoppedDisk⟩ (.ok _) _ :=
    Prog.eval_of_run (fun c (_ : c ∈ List.replicate 13 true) => trivial) rfl
  have hagain' : Completes .posix (fun _ => True) ["/app/.env"] "default" stoppedDisk _ :=
    ⟨_, _, _, _, _, hbase, rfl, hagain⟩
  have hwhole : (runDesktopSecretsMigration (some "/app/.env") "default").run.Eval (sighted.machineOn (· = true)) 0
      ⟨EnvFile.loadContent .posix "SSH_USERNAME=u\nSSH_PASSWORD\x00x=pw" fun _ => none, disguisedDisk⟩ (.ok _) _ :=
    Prog.eval_of_run (fun c (hc : c ∈ List.replicate 14 true) => List.eq_of_mem_replicate hc) rfl
  refine ⟨hload, by decide +kernel, ⟨_, hstopped, hagain', rfl⟩, fun h => ?_⟩
  have hsame := (h.2 _ _ hstopped hagain').2.2 _ ⟨_, _, _, _, _, hbase, hload, hwhole⟩
  have hname := congrArg (fun record => record.bind HostSecrets.username) hsame
  exact absurd hname (by decide +kernel)

end Migration

end NginxAdmin.Desktop
