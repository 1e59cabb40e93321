import NginxAdmin.Lib.Except
import NginxAdmin.Lib.JsonWrite
import NginxAdmin.Desktop.Migration
import NginxAdmin.Web.Secrets

/-!
# The key store (`secrets/KeytarSecretsRepository.ts`, `secrets/SecretsRepository.ts`)

A record of a host is normalised, written as JSON and kept under the service and the account of the host; what is read is
parsed and normalised again. `Holds`: the store has the records of a vault, a map from hosts to normalised records.
`keytar_refines`: `get` returns what the last call for the host has left, and a text that is no record is reported.
-/

namespace NginxAdmin.Desktop

open Web (redactPotentialSecrets)

inductive SecretsRepositoryErrorCode where
  | keytarUnavailable
  | corruptedCredentials
  | invalidSecretFormat
  | accessDenied
  | credentialManagerUnavailable
  | migrationFailed
deriving DecidableEq, Repr

structure SecretsRepositoryError where
  message : String
  code : SecretsRepositoryErrorCode
deriving DecidableEq, Repr

/-- What is thrown: an error of the repository, or another one by its text. -/
inductive StoreError where
  | repository (e : SecretsRepositoryError)
  | other (text : String)
deriving DecidableEq, Repr

namespace SecretKey

def name : SecretKey → String
  | username => "username"
  | password => "password"
  | token => "token"
  | privateKey => "privateKey"
  | passphrase => "passphrase"

def all : List SecretKey := [username, password, token, privateKey, passphrase]

end SecretKey

namespace HostSecrets

/-- The properties that are defined, in the order of `HOST_SECRET_KEYS`. -/
def members (secrets : HostSecrets) : List (String × String) :=
  SecretKey.all.filterMap fun key => (secrets.get key).map fun item => (key.name, item)

def toJs (secrets : HostSecrets) : Js := .obj (secrets.members.map fun m => (m.1, .str m.2))

end HostSecrets

namespace SecretsRepository

/-- `typeof value === "object"`, and neither `null` nor an array. -/
def isRecord : Js → Bool
  | .obj _ | .date _ => true
  | _ => false

/-- A round of the loop. -/
def field (source : Js) (key : SecretKey) : Except SecretsRepositoryError (Option String) :=
  match source.get key.name with
  | .undefined | .null => .ok none
  | .str item => .ok (filled (some item))
  | _ => .error ⟨"Stored host secret field is invalid: " ++ key.name, .invalidSecretFormat⟩

def normalizeHostSecrets (value : Js) : Except SecretsRepositoryError HostSecrets :=
  if isRecord value then do
    let username ← field value .username
    let password ← field value .password
    let token ← field value .token
    let privateKey ← field value .privateKey
    let passphrase ← field value .passphrase
    return { username, password, token, privateKey, passphrase }
  else .error ⟨"Stored host secret payload is not an object", .invalidSecretFormat⟩

end SecretsRepository

structure KeytarLike (σ : Type) where
  getPassword (service account : String) (s : σ) : Except StoreError (Option String) × σ
  setPassword (service account password : String) (s : σ) : Except StoreError Unit × σ
  deletePassword (service account : String) (s : σ) : Except StoreError Bool × σ

def accountForHost (hostId : String) : String := "host:" ++ hostId

def mapKeytarError (lower : LowerCase) (error : StoreError) (fallbackMessage : String) : SecretsRepositoryError :=
  match error with
  | .repository e => e
  | .other text =>
    let message := redactPotentialSecrets text
    let normalized := lower.toLowerCase message.toList
    let includes (word : String) : Bool := decide (word.toList <:+: normalized)
    let code :=
      if includes "denied" || includes "access" then .accessDenied
      else if includes "secret service" || includes "credential" || includes "keychain" || includes "libsecret" then
        .credentialManagerUnavailable
      else .keytarUnavailable
    ⟨fallbackMessage ++ ": " ++ message, code⟩

structure KeytarSecretsRepository (σ : Type) where
  service : String := "nginx-admin"
  store : Option (KeytarLike σ) := none
  /-- What `loadKeytar` comes to. -/
  loadKeytar : Except StoreError (KeytarLike σ)

namespace KeytarSecretsRepository

variable {σ : Type} (r : KeytarSecretsRepository σ) (lower : LowerCase)

def getStore : Except SecretsRepositoryError (KeytarLike σ) :=
  match r.store with
  | some store => .ok store
  | none => r.loadKeytar.mapError fun e => mapKeytarError lower e "Unable to load keytar"

/-- `normalizeHostSecrets(JSON.parse(raw))` in its `try`. -/
def readRecord (raw : String) : Except StoreError HostSecrets :=
  match (JsonText.parse raw).map SecretsRepository.normalizeHostSecrets with
  | some (.ok secrets) => .ok secrets
  | _ => .error (.repository ⟨"Stored host credentials are invalid", .corruptedCredentials⟩)

/-- What is made of the text that the store returns. -/
def readRaw : Option String → Except StoreError (Option HostSecrets)
  | none => .ok none
  | some raw => if raw = "" then .ok none else (readRecord raw).map some

def get (hostId : String) (s : σ) : Except SecretsRepositoryError (Option HostSecrets) × σ :=
  let failed (e : StoreError) := mapKeytarError lower e "Unable to read host credentials"
  match r.getStore lower with
  | .error e => (.error (failed (.repository e)), s)
  | .ok store =>
    match store.getPassword r.service (accountForHost hostId) s with
    | (.error e, s) => (.error (failed e), s)
    | (.ok raw, s) => ((readRaw raw).mapError failed, s)

def set (hostId : String) (secrets : HostSecrets) (s : σ) : Except SecretsRepositoryError Unit × σ :=
  let failed (e : StoreError) := mapKeytarError lower e "Unable to write host credentials"
  match SecretsRepository.normalizeHostSecrets secrets.toJs with
  | .error e => (.error e, s)
  | .ok normalized =>
    match r.getStore lower with
    | .error e => (.error (failed (.repository e)), s)
    | .ok store =>
      let (result, s) := store.setPassword r.service (accountForHost hostId) (JsonText.stringify normalized.members) s
      (result.mapError failed, s)

def delete (hostId : String) (s : σ) : Except SecretsRepositoryError Unit × σ :=
  let failed (e : StoreError) := mapKeytarError lower e "Unable to delete host credentials"
  match r.getStore lower with
  | .error e => (.error (failed (.repository e)), s)
  | .ok store =>
    let (result, s) := store.deletePassword r.service (accountForHost hostId) s
    ((result.mapError failed).map fun _ => (), s)

/-- A call that changes the store. -/
inductive Call where
  | set (hostId : String) (secrets : HostSecrets)
  | delete (hostId : String)

def Call.hostId : Call → String
  | set hostId _ => hostId
  | delete hostId => hostId

def perform (c : Call) (s : σ) : Except SecretsRepositoryError Unit × σ :=
  match c with
  | .set hostId secrets => r.set lower hostId secrets s
  | .delete hostId => r.delete lower hostId s

/-- The store after the calls. -/
def run (calls : List Call) (s : σ) : σ := calls.foldl (fun s c => (r.perform lower c s).2) s

end KeytarSecretsRepository

/-! ### Normalisation -/

theorem SecretKey.name_injective : Function.Injective SecretKey.name := by
  intro key key' h
  cases key <;> cases key' <;> first | rfl | exact absurd h (by decide)

theorem SecretKey.pairwise_name : SecretKey.all.Pairwise fun key key' => key.name ≠ key'.name := by decide

theorem SecretKey.nodup_all : SecretKey.all.Nodup := SecretKey.pairwise_name.imp fun hne he => hne (congrArg _ he)

theorem SecretKey.mem_all (key : SecretKey) : key ∈ SecretKey.all := by
  cases key <;> simp [SecretKey.all]

namespace HostSecrets

variable (secrets : HostSecrets)

theorem lookup_filterMap {keys : List SecretKey} (hkeys : keys.Nodup) {key : SecretKey} (hkey : key ∈ keys) :
    ((keys.filterMap fun key => (secrets.get key).map fun item => (key.name, item)).map fun m => (m.1, Js.str m.2)).lookup
      key.name = (secrets.get key).map .str := by
  induction keys with
  | nil => cases hkey
  | cons k keys ih =>
    obtain ⟨hk, hkeys⟩ := List.nodup_cons.1 hkeys
    have hnone : key ∉ keys → ((keys.filterMap fun key => (secrets.get key).map fun item => (key.name, item)).map
        fun m => (m.1, Js.str m.2)).lookup key.name = none := by
      intro hnot
      rw [List.lookup_eq_none_iff]
      intro m hm
      obtain ⟨m', hm', rfl⟩ := List.mem_map.1 hm
      obtain ⟨k', hk', hitem⟩ := List.mem_filterMap.1 hm'
      obtain ⟨item, -, rfl⟩ := Option.map_eq_some_iff.1 hitem
      have hne : key ≠ k' := fun he => hnot (he ▸ hk')
      simpa using fun he => hne (SecretKey.name_injective he)
    rw [List.filterMap_cons]
    by_cases hsame : key = k
    · subst hsame
      cases hitem : secrets.get key with
      | none => exact hnone hk
      | some item => simp
    · have hrest := ih hkeys ((List.mem_cons.1 hkey).resolve_left hsame)
      have hname : (key.name == k.name) = false := beq_false_of_ne fun he => hsame (SecretKey.name_injective he)
      cases hitem : secrets.get k with
      | none => exact hrest
      | some item => simpa [List.lookup_cons, hname] using hrest

theorem get_toJs (key : SecretKey) : secrets.toJs.get key.name = ((secrets.get key).map Js.str).getD .undefined := by
  have hlookup := secrets.lookup_filterMap SecretKey.nodup_all key.mem_all
  exact congrArg (fun o : Option Js => o.getD .undefined) hlookup

theorem pairwise_members : secrets.members.Pairwise fun m m' => m.1 ≠ m'.1 := by
  refine List.pairwise_filterMap.2 (SecretKey.pairwise_name.imp ?_)
  intro key key' hne m hm m' hm'
  obtain ⟨item, -, rfl⟩ := Option.map_eq_some_iff.1 hm
  obtain ⟨item', -, rfl⟩ := Option.map_eq_some_iff.1 hm'
  exact hne

theorem get_ext {secrets secrets' : HostSecrets} (h : ∀ key, secrets.get key = secrets'.get key) : secrets = secrets' := by
  cases secrets
  cases secrets'
  rw [HostSecrets.mk.injEq]
  exact ⟨h .username, h .password, h .token, h .privateKey, h .passphrase⟩

/-- The fields that are not empty. -/
theorem get_normalize_iff {key : SecretKey} {item : String} :
    (normalizeHostSecrets secrets).get key = some item ↔ secrets.get key = some item ∧ item ≠ "" := by
  rw [get_normalizeHostSecrets, filled, Option.filter_eq_some_iff, decide_eq_true_eq]

end HostSecrets

namespace SecretsRepository

/-- Neither a text nor missing nor `null`. -/
def NotText : Js → Prop
  | .undefined | .null | .str _ => False
  | _ => True

/-- Not an object, or with a secret that is not a text. -/
def Invalid (value : Js) : Prop := isRecord value = false ∨ ∃ key : SecretKey, NotText (value.get key.name)

theorem field_cases (source : Js) (key : SecretKey) :
    (∃ item, field source key = .ok item ∧ filled item = item ∧ ¬ NotText (source.get key.name)) ∨
      (∃ e, field source key = .error e) ∧ NotText (source.get key.name) := by
  unfold field
  split
  next hitem => exact .inl ⟨none, rfl, rfl, by simp [hitem, NotText]⟩
  next hitem => exact .inl ⟨none, rfl, rfl, by simp [hitem, NotText]⟩
  next item hitem => exact .inl ⟨_, rfl, filled_filled _, by simp [hitem, NotText]⟩
  next hundefined hnull hstr =>
    refine .inr ⟨⟨_, rfl⟩, ?_⟩
    cases hitem : source.get key.name with
    | undefined => exact absurd hitem hundefined
    | null => exact absurd hitem hnull
    | str item => exact absurd hitem (hstr item)
    | bool | num | date | arr | obj => trivial

/-- The fields of a record one by one. -/
theorem normalize_eq_ok_iff {value : Js} {n : HostSecrets} :
    normalizeHostSecrets value = .ok n ↔ isRecord value = true ∧ ∀ key, field value key = .ok (n.get key) := by
  unfold normalizeHostSecrets
  split
  next hrecord =>
    simp only [bind_eq_ok]
    constructor
    · rintro ⟨username, husername, password, hpassword, token, htoken, privateKey, hprivateKey, passphrase, hpassphrase, hn⟩
      obtain rfl := Except.ok.inj hn
      refine ⟨hrecord, fun key => ?_⟩
      cases key with
      | username => exact husername
      | password => exact hpassword
      | token => exact htoken
      | privateKey => exact hprivateKey
      | passphrase => exact hpassphrase
    · rintro ⟨-, h⟩
      exact ⟨_, h .username, _, h .password, _, h .token, _, h .privateKey, _, h .passphrase, rfl⟩
  next hrecord => simp [hrecord]

theorem exists_normalize_iff {value : Js} : (∃ n, normalizeHostSecrets value = .ok n) ↔ ¬ Invalid value := by
  constructor
  · rintro ⟨n, hn⟩ hinvalid
    obtain ⟨hrecord, hfields⟩ := normalize_eq_ok_iff.1 hn
    obtain hnot | ⟨key, hkey⟩ := hinvalid
    · simp [hnot] at hrecord
    · obtain ⟨item, -, -, htext⟩ | ⟨⟨e, herror⟩, -⟩ := field_cases value key
      · exact htext hkey
      · simp [hfields key] at herror
  · intro hvalid
    obtain ⟨hrecord, htexts⟩ := not_or.1 hvalid
    have hfield : ∀ key, ∃ item, field value key = .ok item := by
      intro key
      obtain ⟨item, hitem, -, -⟩ | ⟨-, hkey⟩ := field_cases value key
      · exact ⟨item, hitem⟩
      · exact absurd ⟨key, hkey⟩ htexts
    obtain ⟨item, hitem⟩ := Classical.axiomOfChoice hfield
    refine ⟨⟨item .username, item .password, item .token, item .privateKey, item .passphrase⟩, ?_⟩
    refine normalize_eq_ok_iff.2 ⟨by simpa using hrecord, fun key => ?_⟩
    rw [hitem key]
    cases key <;> rfl

/-- What is normalised stays as it is. -/
theorem normal_of_ok {value : Js} {n : HostSecrets} (h : normalizeHostSecrets value = .ok n) :
    Desktop.normalizeHostSecrets n = n := by
  refine HostSecrets.get_ext fun key => ?_
  rw [get_normalizeHostSecrets]
  obtain ⟨item, hfield, hfilled, -⟩ | ⟨⟨e, hfield⟩, -⟩ := field_cases value key
  · rw [(normalize_eq_ok_iff.1 h).2 key, Except.ok.injEq] at hfield
    rw [hfield, hfilled]
  · rw [(normalize_eq_ok_iff.1 h).2 key] at hfield
    cases hfield

theorem normalize_toJs (secrets : HostSecrets) :
    normalizeHostSecrets secrets.toJs = .ok (Desktop.normalizeHostSecrets secrets) := by
  refine normalize_eq_ok_iff.2 ⟨rfl, fun key => ?_⟩
  rw [field, secrets.get_toJs, get_normalizeHostSecrets]
  cases secrets.get key with
  | none => rfl
  | some item => rfl

end SecretsRepository

namespace KeytarSecretsRepository

open SecretsRepository (Invalid exists_normalize_iff normal_of_ok normalize_toJs)

def corrupted : SecretsRepositoryError := ⟨"Stored host credentials are invalid", .corruptedCredentials⟩

/-- No JSON, or not of a record. -/
def Corrupted (raw : String) : Prop := ∀ value, JsonText.parse raw = some value → Invalid value

theorem readRecord_of_corrupted {raw : String} (h : Corrupted raw) : readRecord raw = .error (.repository corrupted) := by
  unfold readRecord
  cases hparse : JsonText.parse raw with
  | none => rfl
  | some value =>
    cases hvalue : SecretsRepository.normalizeHostSecrets value with
    | error e => simp [hvalue, corrupted]
    | ok n => exact absurd (h value hparse) (exists_normalize_iff.1 ⟨n, hvalue⟩)

theorem readRecord_stringify {n : HostSecrets} (hn : normalizeHostSecrets n = n) :
    readRecord (JsonText.stringify n.members) = .ok n := by
  have hvalue := normalize_toJs n
  rw [hn] at hvalue
  unfold readRecord
  rw [JsonText.parse_stringify n.pairwise_members, ← HostSecrets.toJs, Option.map_some, hvalue]

theorem stringify_ne_empty (ms : List (String × String)) : JsonText.stringify ms ≠ "" := by
  intro h
  have htext := congrArg String.toList h
  cases ms with
  | nil => simp [JsonText.stringify] at htext
  | cons m ms => simp [JsonText.stringify] at htext

theorem readRaw_stringify {n : HostSecrets} (hn : normalizeHostSecrets n = n) :
    readRaw (some (JsonText.stringify n.members)) = .ok (some n) := by
  rw [readRaw, if_neg (stringify_ne_empty _), readRecord_stringify hn]
  rfl

/-! ### A store that is a map -/

/-- The store keeps texts under services and accounts, as `view` shows them. -/
structure IsMap {σ : Type} (store : KeytarLike σ) (view : σ → String × String → Option String) : Prop where
  get (service account : String) (s : σ) : store.getPassword service account s = (.ok (view s (service, account)), s)
  set (service account password : String) (s : σ) :
    ∃ s', store.setPassword service account password s = (.ok (), s') ∧
      view s' = Function.update (view s) (service, account) (some password)
  delete (service account : String) (s : σ) :
    ∃ found s', store.deletePassword service account s = (.ok found, s') ∧
      view s' = Function.update (view s) (service, account) none

theorem accountForHost_injective : Function.Injective accountForHost := by
  intro hostId hostId' h
  have htext := congrArg String.toList h
  rw [accountForHost, accountForHost, String.toList_append, String.toList_append] at htext
  exact String.toList_inj.1 (List.append_cancel_left htext)

/-- The record that a call leaves. -/
def Call.record : Call → Option HostSecrets
  | set _ secrets => some (normalizeHostSecrets secrets)
  | delete _ => none

/-- How a record stands in the store. -/
def textOf (record : Option HostSecrets) : Option String := record.map fun n => JsonText.stringify n.members

/-- What the last of the calls for the host leaves. -/
def lastRecord (hostId : String) (calls : List Call) (record : Option HostSecrets) : Option HostSecrets :=
  (calls.filter fun c => c.hostId = hostId).getLast?.elim record Call.record

/-- A vault: the normalised record of each host. -/
abbrev Vault := String → Option HostSecrets

def Call.apply (c : Call) (vault : Vault) : Vault := Function.update vault c.hostId c.record

theorem lastRecord_cons (hostId : String) (c : Call) (calls : List Call) (record : Option HostSecrets) :
    lastRecord hostId (c :: calls) record = lastRecord hostId calls (if c.hostId = hostId then c.record else record) := by
  unfold lastRecord
  by_cases h : c.hostId = hostId
  · rw [List.filter_cons_of_pos (by simpa using h), List.getLast?_cons, if_pos h]
    cases (calls.filter fun c => c.hostId = hostId).getLast? with
    | none => rfl
    | some c' => rfl
  · rw [List.filter_cons_of_neg (by simpa using h), if_neg h]

/-- The calls for a host are all that counts for it. -/
theorem foldl_apply (calls : List Call) (vault : Vault) (hostId : String) :
    calls.foldl (fun vault c => c.apply vault) vault hostId = lastRecord hostId calls (vault hostId) := by
  induction calls generalizing vault with
  | nil => rfl
  | cons c calls ih =>
    rw [List.foldl_cons, ih, lastRecord_cons, Call.apply, Function.update_apply]
    simp only [eq_comm]

section

variable {σ : Type} {store : KeytarLike σ} {view : σ → String × String → Option String} (hstore : IsMap store view)
  (lower : LowerCase) {r : KeytarSecretsRepository σ} (hr : r.store = some store)
include hstore hr

/-- What `get` returns is made of the text under the account. -/
theorem get_eq (hostId : String) (s : σ) :
    r.get lower hostId s = ((readRaw (view s (r.service, accountForHost hostId))).mapError fun e =>
      mapKeytarError lower e "Unable to read host credentials", s) := by
  simp only [get, getStore, hr, hstore.get]

/-- A call succeeds, and changes the text under the account of its host only. -/
theorem perform_spec (c : Call) (s : σ) :
    ∃ s', r.perform lower c s = (.ok (), s') ∧
      view s' = Function.update (view s) (r.service, accountForHost c.hostId) (textOf c.record) := by
  cases c with
  | set hostId secrets =>
    obtain ⟨s', hs', hview⟩ := hstore.set r.service (accountForHost hostId)
      (JsonText.stringify (normalizeHostSecrets secrets).members) s
    refine ⟨s', ?_, hview⟩
    simp only [perform, set, normalize_toJs, getStore, hr, hs']
    rfl
  | delete hostId =>
    obtain ⟨found, s', hs', hview⟩ := hstore.delete r.service (accountForHost hostId) s
    refine ⟨s', ?_, hview⟩
    simp only [perform, delete, getStore, hr, hs']
    rfl

theorem view_perform_of_ne {c : Call} {hostId : String} (h : c.hostId ≠ hostId) (s : σ) :
    view (r.perform lower c s).2 (r.service, accountForHost hostId) = view s (r.service, accountForHost hostId) := by
  obtain ⟨s', hs', hview⟩ := perform_spec hstore lower hr c s
  have hkey : (r.service, accountForHost hostId) ≠ (r.service, accountForHost c.hostId) := by
    intro he
    exact h (accountForHost_injective (Prod.mk.inj he).2).symm
  rw [hs', hview, Function.update_of_ne hkey]

theorem get_of_corrupted {hostId raw : String} {s : σ} (h : view s (r.service, accountForHost hostId) = some raw)
    (hne : raw ≠ "") (hraw : Corrupted raw) : r.get lower hostId s = (.error corrupted, s) := by
  rw [get_eq hstore lower hr, h, readRaw, if_neg hne, readRecord_of_corrupted hraw]
  rfl

/-- A call for another host changes nothing for this one. -/
theorem get_perform_of_ne {c : Call} {hostId : String} (h : c.hostId ≠ hostId) (s : σ) :
    (r.get lower hostId (r.perform lower c s).2).1 = (r.get lower hostId s).1 := by
  rw [get_eq hstore lower hr, get_eq hstore lower hr, view_perform_of_ne hstore lower hr h]

omit hstore hr in
theorem normal_record (c : Call) : ∀ n ∈ c.record, normalizeHostSecrets n = n := by
  cases c with
  | set hostId secrets =>
    rintro n ⟨⟩
    exact normal_of_ok (normalize_toJs secrets)
  | delete hostId => exact fun n hn => by cases hn

/-- The store has this record of the host. -/
structure Stored (r : KeytarSecretsRepository σ) (view : σ → String × String → Option String) (s : σ) (hostId : String)
    (record : Option HostSecrets) : Prop where
  normal : ∀ n ∈ record, normalizeHostSecrets n = n
  text : view s (r.service, accountForHost hostId) = textOf record

theorem Stored.get {s : σ} {hostId : String} {record : Option HostSecrets} (h : Stored r view s hostId record) :
    r.get lower hostId s = (.ok record, s) := by
  rw [get_eq hstore lower hr, h.text]
  cases record with
  | none => rfl
  | some n =>
    rw [textOf, Option.map_some, readRaw_stringify (h.normal n rfl)]
    rfl

theorem Stored.perform {s : σ} {hostId : String} {record : Option HostSecrets} (h : Stored r view s hostId record) (c : Call) :
    Stored r view (r.perform lower c s).2 hostId (if c.hostId = hostId then c.record else record) := by
  by_cases hhost : c.hostId = hostId
  · subst hhost
    obtain ⟨s', hs', hview⟩ := perform_spec hstore lower hr c s
    rw [if_pos rfl, hs']
    exact ⟨normal_record c, by rw [hview, Function.update_self]⟩
  · rw [if_neg hhost]
    exact ⟨h.normal, by rw [view_perform_of_ne hstore lower hr hhost, h.text]⟩

theorem Stored.run {s : σ} {hostId : String} {record : Option HostSecrets} (h : Stored r view s hostId record)
    (calls : List Call) : Stored r view (r.run lower calls s) hostId (lastRecord hostId calls record) := by
  induction calls generalizing s record with
  | nil => exact h
  | cons c calls ih =>
    rw [lastRecord_cons]
    exact ih (h.perform hstore lower hr c)

/-- The store has the records of the vault. -/
def Holds (r : KeytarSecretsRepository σ) (view : σ → String × String → Option String) (s : σ) (vault : Vault) : Prop :=
  ∀ hostId, Stored r view s hostId (vault hostId)

theorem Holds.run {s : σ} {vault : Vault} (h : Holds r view s vault) (calls : List Call) :
    Holds r view (r.run lower calls s) (calls.foldl (fun vault c => c.apply vault) vault) := by
  intro hostId
  rw [foldl_apply]
  exact (h hostId).run hstore lower hr calls

/-- The records of the migration are those of the key store: it reads the same, -/
theorem Holds.exec_get {s : σ} {w : Migration.World} (h : Holds r view s w.disk.secrets) (hostId : String) :
    (r.get lower hostId s).1 = .ok (w.disk.secrets hostId) ∧
      (Migration.Op.get hostId).exec w = (.ok (w.disk.secrets hostId), w) := by
  rw [(h hostId).get hstore lower hr]
  exact ⟨rfl, rfl⟩

/-- and it writes the same. -/
theorem Holds.exec_set {s : σ} {w : Migration.World} (h : Holds r view s w.disk.secrets) (hostId : String)
    (secrets : HostSecrets) :
    Holds r view (r.set lower hostId secrets s).2 ((Migration.Op.set hostId secrets).exec w).2.disk.secrets :=
  h.run hstore lower hr [.set hostId secrets]

/-- The repository is a map of normalised records: `get` returns what the last call for the host has left; a call for another
host does not matter; a text that is no record is reported and left where it is. -/
theorem keytar_refines :
    (∀ (c : Call) (s : σ), (r.perform lower c s).1 = .ok ()) ∧
    (∀ (s : σ) (calls : List Call) (hostId : String), view s (r.service, accountForHost hostId) = none →
      r.get lower hostId (r.run lower calls s) = (.ok (lastRecord hostId calls none), r.run lower calls s)) ∧
    (∀ (secrets : HostSecrets) (key : SecretKey) (item : String),
      (normalizeHostSecrets secrets).get key = some item ↔ secrets.get key = some item ∧ item ≠ "") ∧
    (∀ (c : Call) (hostId : String) (s : σ), c.hostId ≠ hostId →
      (r.get lower hostId (r.perform lower c s).2).1 = (r.get lower hostId s).1) ∧
    (∀ (value : Js) (n : HostSecrets), SecretsRepository.normalizeHostSecrets value = .ok n →
      SecretsRepository.normalizeHostSecrets n.toJs = .ok n) ∧
    ∀ (s : σ) (hostId raw : String), view s (r.service, accountForHost hostId) = some raw → raw ≠ "" → Corrupted raw →
      ∃ e, r.get lower hostId s = (.error e, s) ∧ e.code = .corruptedCredentials := by
  refine ⟨fun c s => ?_, fun s calls hostId hnone => ?_, fun secrets key item => secrets.get_normalize_iff,
    fun c hostId s hne => get_perform_of_ne hstore lower hr hne s, fun value n hn => ?_,
    fun s hostId raw hview hne hraw => ⟨corrupted, get_of_corrupted hstore lower hr hview hne hraw, rfl⟩⟩
  · obtain ⟨s', hs', -⟩ := perform_spec hstore lower hr c s
    rw [hs']
  · have hstart : Stored r view s hostId none := ⟨fun n hn => (by cases hn), hnone⟩
    exact (hstart.run hstore lower hr calls).get hstore lower hr
  · rw [normalize_toJs, normal_of_ok hn]

end

/-- A store that is a map. -/
def passwords : KeytarLike (String × String → Option String) where
  getPassword service account s := (.ok (s (service, account)), s)
  setPassword service account password s := (.ok (), Function.update s (service, account) (some password))
  deletePassword service account s := (.ok (s (service, account)).isSome, Function.update s (service, account) none)

theorem isMap_passwords : IsMap passwords id where
  get _ _ _ := rfl
  set _ _ _ _ := ⟨_, rfl, rfl⟩
  delete _ _ _ := ⟨_, _, rfl, rfl⟩

/-- Two hosts, one of which is deleted; an empty password is not kept. -/
theorem keytar_refines_passwords :
    let r : KeytarSecretsRepository (String × String → Option String) :=
      { store := some passwords, loadKeytar := .error (.other "Cannot find module 'keytar'") }
    let s := r.run .simple [.set "a" { HostSecrets.empty with username := some "root", password := some "" },
      .set "b" { HostSecrets.empty with token := some "t" }, .delete "b"] fun _ => none
    r.get .simple "a" s = (.ok (some { HostSecrets.empty with username := some "root" }), s) ∧
      r.get .simple "b" s = (.ok none, s) := by
  intro r s
  have h := (keytar_refines isMap_passwords .simple (rfl : r.store = some passwords)).2.1 fun _ => none
  exact ⟨h _ "a" rfl, h _ "b" rfl⟩

end KeytarSecretsRepository

end NginxAdmin.Desktop
