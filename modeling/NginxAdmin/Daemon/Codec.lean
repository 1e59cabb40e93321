import NginxAdmin.Lib.Json
import NginxAdmin.Daemon.StateStore
import NginxAdmin.Daemon.Timestamp

/-!
# The document of a state (`model.rs`)

`toJson` and `fromJson` are what `#[derive(Serialize, Deserialize)]` makes of the types of `model.rs`: camelCase
names in the order of the fields, `null` for an absent option, and the tag `type` in the object of a
`RouteAction`. `Format` is what is left to the libraries, the text of a document and of a point in time;
`Format.serde` is the `Serde` that they give together.
-/

namespace NginxAdmin.Daemon

open Json

def Listen.toJson (l : Listen) : Json :=
  obj [("port", int l.port.toNat), ("ssl", bool l.ssl), ("http2", ofOption bool l.http2),
    ("defaultServer", ofOption bool l.defaultServer)]

def asUInt16 (j : Json) : Option UInt16 := (asUnsigned UInt16.size j).map UInt16.ofNat

def asUInt32 (j : Json) : Option UInt32 := (asUnsigned UInt32.size j).map UInt32.ofNat

def asUInt64 (j : Json) : Option UInt64 := (asUnsigned UInt64.size j).map UInt64.ofNat

def Listen.fromJson (j : Json) : Option Listen := do
  let [port, ssl, http2, defaultServer] ← fields ["port", "ssl", "http2", "defaultServer"] j | none
  return ⟨← required asUInt16 port, ← required asBool ssl, ← optional asBool http2, ← optional asBool defaultServer⟩

def Tls.toJson (t : Tls) : Json :=
  obj [("certificate", str t.certificate), ("certificateKey", str t.certificateKey)]

def Tls.fromJson (j : Json) : Option Tls := do
  let [certificate, certificateKey] ← fields ["certificate", "certificateKey"] j | none
  return ⟨← required asString certificate, ← required asString certificateKey⟩

def RouteAction.toJson : RouteAction → Json
  | proxyPass target => obj [("type", str "proxy_pass"), ("target", str target)]
  | static root index => obj [("type", str "static"), ("root", str root), ("index", ofOption str index)]
  | redirect url code => obj [("type", str "redirect"), ("url", str url), ("code", int code.toNat)]

/-- The variant of the tag, from the other members. -/
def RouteAction.fromTagged (tag : String) (j : Json) : Option RouteAction :=
  if tag = "proxy_pass" then do
    let [target] ← fields ["target"] j | none
    return .proxyPass (← required asString target)
  else if tag = "static" then do
    let [root, index] ← fields ["root", "index"] j | none
    return .static (← required asString root) (← optional asString index)
  else if tag = "redirect" then do
    let [url, code] ← fields ["url", "code"] j | none
    return .redirect (← required asString url) (← required asUInt16 code)
  else none

def RouteAction.fromJson : Json → Option RouteAction
  | obj ms => do
    let tag ← required asString (← member ms "type")
    fromTagged tag (obj (ms.filter (·.1 != "type")))
  | arr (str tag :: items) => fromTagged tag (arr items)
  | _ => none

def Header.toJson (h : Header) : Json := obj [("name", str h.name), ("value", str h.value)]

def Header.fromJson (j : Json) : Option Header := do
  let [name, value] ← fields ["name", "value"] j | none
  return ⟨← required asString name, ← required asString value⟩

def RateLimit.toJson (r : RateLimit) : Json :=
  obj [("zone", str r.zone), ("rate", str r.rate), ("burst", ofOption (fun n : UInt32 => int n.toNat) r.burst),
    ("nodelay", ofOption bool r.nodelay)]

def RateLimit.fromJson (j : Json) : Option RateLimit := do
  let [zone, rate, burst, nodelay] ← fields ["zone", "rate", "burst", "nodelay"] j | none
  return ⟨← required asString zone, ← required asString rate, ← optional asUInt32 burst, ← optional asBool nodelay⟩

def Route.toJson (r : Route) : Json :=
  obj [("id", str r.id), ("path", str r.path), ("matchType", ofOption str r.matchType), ("action", r.action.toJson),
    ("headers", ofOption (fun hs : List Header => arr (hs.map Header.toJson)) r.headers),
    ("rateLimit", ofOption RateLimit.toJson r.rateLimit), ("enabled", bool r.enabled)]

def Route.fromJson (j : Json) : Option Route := do
  let [id, path, matchType, action, headers, rateLimit, enabled] ←
    fields ["id", "path", "matchType", "action", "headers", "rateLimit", "enabled"] j | none
  return ⟨← required asString id, ← required asString path, ← optional asString matchType,
    ← required RouteAction.fromJson action, ← optional (asVec Header.fromJson) headers,
    ← optional RateLimit.fromJson rateLimit, ← required asBool enabled⟩

def Server.toJson (s : Server) : Json :=
  obj [("id", str s.id), ("serverName", str s.serverName), ("listen", arr (s.listen.map Listen.toJson)),
    ("routes", arr (s.routes.map Route.toJson)), ("tls", ofOption Tls.toJson s.tls),
    ("extraDirectives", ofOption (fun ds : List String => arr (ds.map str)) s.extraDirectives),
    ("enabled", bool s.enabled)]

def Server.fromJson (j : Json) : Option Server := do
  let [id, serverName, listen, routes, tls, extraDirectives, enabled] ←
    fields ["id", "serverName", "listen", "routes", "tls", "extraDirectives", "enabled"] j | none
  return ⟨← required asString id, ← required asString serverName, ← required (asVec Listen.fromJson) listen,
    ← required (asVec Route.fromJson) routes, ← optional Tls.fromJson tls,
    ← optional (asVec asString) extraDirectives, ← required asBool enabled⟩

section State

variable (formatTime : DateTime → String) (parseTime : String → Option DateTime)

def ControlPlaneState.toJson (x : ControlPlaneState) : Json :=
  obj [("schemaVersion", str x.schemaVersion), ("revision", int x.revision.toNat),
    ("updatedAt", str (formatTime x.updatedAt)), ("updatedBy", str x.updatedBy),
    ("servers", arr (x.servers.map Server.toJson))]

def ControlPlaneState.fromJson (j : Json) : Option ControlPlaneState := do
  let [schemaVersion, revision, updatedAt, updatedBy, servers] ←
    fields ["schemaVersion", "revision", "updatedAt", "updatedBy", "servers"] j | none
  return ⟨← required asString schemaVersion, ← required asUInt64 revision,
    ← required (fun j => (asString j).bind parseTime) updatedAt, ← required asString updatedBy,
    ← required (asVec Server.fromJson) servers⟩

end State

/-! ### What is written can be read back -/

theorem asUInt16_toNat (n : UInt16) : asUInt16 (int n.toNat) = some n := by
  rw [asUInt16, asUnsigned_int n.toNat_lt_size]
  simp

theorem asUInt32_toNat (n : UInt32) : asUInt32 (int n.toNat) = some n := by
  rw [asUInt32, asUnsigned_int n.toNat_lt_size]
  simp

theorem asUInt64_toNat (n : UInt64) : asUInt64 (int n.toNat) = some n := by
  rw [asUInt64, asUnsigned_int n.toNat_lt_size]
  simp

@[simp] theorem optional_bool (o : Option Bool) : optional asBool (some (ofOption bool o)) = some o :=
  @optional_ofOption _ asBool bool (fun _ => rfl) (fun _ h => by cases h) o

@[simp] theorem optional_string (o : Option String) : optional asString (some (ofOption str o)) = some o :=
  @optional_ofOption _ asString str (fun _ => rfl) (fun _ h => by cases h) o

@[simp] theorem optional_uint32 (o : Option UInt32) :
    optional asUInt32 (some (ofOption (fun n : UInt32 => int n.toNat) o)) = some o :=
  optional_ofOption asUInt32_toNat (fun _ h => by cases h) o

theorem Listen.fromJson_toJson (l : Listen) : fromJson l.toJson = some l := by
  simp [fromJson, toJson, fields_obj, required, asBool, asUInt16_toNat]

theorem Tls.fromJson_toJson (t : Tls) : fromJson t.toJson = some t := by
  simp [fromJson, toJson, fields_obj, required, asString]

theorem RouteAction.fromJson_toJson (a : RouteAction) : fromJson a.toJson = some a := by
  cases a with
  | proxyPass target =>
    simp [fromJson, toJson, fromTagged, member, required, asString, fields_obj]
  | static root index =>
    simp [fromJson, toJson, fromTagged, member, required, asString, fields_obj]
  | redirect url code =>
    simp [fromJson, toJson, fromTagged, member, required, asString, asUInt16_toNat, fields_obj]

theorem Header.fromJson_toJson (h : Header) : fromJson h.toJson = some h := by
  simp [fromJson, toJson, fields_obj, required, asString]

theorem RateLimit.fromJson_toJson (r : RateLimit) : fromJson r.toJson = some r := by
  simp [fromJson, toJson, fields_obj, required, asString]

theorem Route.fromJson_toJson (r : Route) : fromJson r.toJson = some r := by
  have hheaders := optional_ofOption (asVec_map Header.fromJson_toJson) (fun _ h => by cases h) r.headers
  have hlimit := optional_ofOption RateLimit.fromJson_toJson (fun _ h => by cases h) r.rateLimit
  simp [fromJson, toJson, fields_obj, required, asString, asBool, RouteAction.fromJson_toJson, hheaders, hlimit]

theorem Server.fromJson_toJson (s : Server) : fromJson s.toJson = some s := by
  have hlisten := asVec_map Listen.fromJson_toJson s.listen
  have hroutes := asVec_map Route.fromJson_toJson s.routes
  have htls := optional_ofOption Tls.fromJson_toJson (fun _ h => by cases h) s.tls
  have hextra := optional_ofOption (asVec_map (fun s => rfl : ∀ s, asString (str s) = some s))
    (fun _ h => by cases h) s.extraDirectives
  simp [fromJson, toJson, fields_obj, required, asString, asBool, hlisten, hroutes, htls, hextra]

theorem ControlPlaneState.fromJson_toJson {formatTime : DateTime → String} {parseTime : String → Option DateTime}
    (htime : ∀ n, parseTime (formatTime n) = some n) (x : ControlPlaneState) :
    fromJson parseTime (x.toJson formatTime) = some x := by
  have hservers := asVec_map Server.fromJson_toJson x.servers
  simp [fromJson, toJson, fields_obj, required, asString, asUInt64_toNat, htime, hservers]

theorem Listen.within_toJson (l : Listen) : Within UInt64.size 1 l.toJson := by
  have hport : l.port.toNat < UInt64.size := l.port.toNat_lt_size.trans (by decide)
  refine within_obj ?_
  simp only [List.forall_mem_cons]
  exact ⟨within_int hport, within_bool _, within_ofOption within_bool _, within_ofOption within_bool _,
    List.forall_mem_nil _⟩

theorem Tls.within_toJson (t : Tls) : Within UInt64.size 1 t.toJson :=
  within_obj (by simp [within_str])

theorem RouteAction.within_toJson (a : RouteAction) : Within UInt64.size 1 a.toJson := by
  cases a with
  | proxyPass target => exact within_obj (by simp [within_str])
  | static root index => exact within_obj (by simp [within_str, within_ofOption within_str])
  | redirect url code =>
    have hcode : code.toNat < UInt64.size := code.toNat_lt_size.trans (by decide)
    exact within_obj (by simp [within_str, within_int hcode])

theorem Header.within_toJson (h : Header) : Within UInt64.size 1 h.toJson :=
  within_obj (by simp [within_str])

theorem RateLimit.within_toJson (r : RateLimit) : Within UInt64.size 1 r.toJson := by
  have hburst : ∀ n : UInt32, Within UInt64.size 0 (int n.toNat) :=
    fun n => within_int (n.toNat_lt_size.trans (by decide))
  exact within_obj (by simp [within_str, within_ofOption within_bool, within_ofOption hburst])

theorem Route.within_toJson (r : Route) : Within UInt64.size 3 r.toJson := by
  have haction := r.action.within_toJson.mono (Nat.le_succ 1)
  have hheaders := within_ofOption (within_map Header.within_toJson) r.headers
  have hlimit := (within_ofOption RateLimit.within_toJson r.rateLimit).mono (Nat.le_succ 1)
  refine within_obj ?_
  simp only [List.forall_mem_cons]
  exact ⟨within_str _, within_str _, within_ofOption within_str _, haction, hheaders, hlimit, within_bool _,
    List.forall_mem_nil _⟩

theorem Server.within_toJson (s : Server) : Within UInt64.size 5 s.toJson := by
  have hlisten := (within_map Listen.within_toJson s.listen).mono (by decide : 2 ≤ 4)
  have hroutes := within_map Route.within_toJson s.routes
  have htls := (within_ofOption Tls.within_toJson s.tls).mono (by decide : 1 ≤ 4)
  have hextra : Within UInt64.size 4 (ofOption (fun ds : List String => arr (ds.map str)) s.extraDirectives) :=
    within_ofOption (within_map within_str) _
  refine within_obj ?_
  simp only [List.forall_mem_cons]
  exact ⟨within_str _, within_str _, hlisten, hroutes, htls, hextra, within_bool _, List.forall_mem_nil _⟩

theorem ControlPlaneState.within_toJson (formatTime : DateTime → String) (x : ControlPlaneState) :
    Within UInt64.size 7 (x.toJson formatTime) := by
  have hservers := within_map Server.within_toJson x.servers
  refine within_obj ?_
  simp only [List.forall_mem_cons]
  exact ⟨within_str _, within_int x.revision.toNat_lt_size, within_str _, within_str _, hservers,
    List.forall_mem_nil _⟩

/-- How `serde_json` writes and reads documents, with at most 127 containers inside each other and numbers of type
`u64`, and how `chrono` writes and reads points in time. -/
structure Format where
  toVecPretty : Json → Bytes
  fromStr : Bytes → Except DaemonError Json
  formatTime : DateTime → String
  parseTime : String → Option DateTime
  /-- The message about a document that is no state. -/
  unexpected : Json → String
  fromStr_toVecPretty : ∀ j, Json.Within UInt64.size 127 j → fromStr (toVecPretty j) = .ok j
  parseTime_formatTime : ∀ n, parseTime (formatTime n) = some n

namespace Format

variable (format : Format)

def encode (x : ControlPlaneState) : Bytes := format.toVecPretty (x.toJson format.formatTime)

def decode (raw : Bytes) : Except DaemonError ControlPlaneState := do
  let j ← format.fromStr raw
  match ControlPlaneState.fromJson format.parseTime j with
  | some x => return x
  | none => throw (.json (format.unexpected j))

theorem decode_encode (x : ControlPlaneState) : format.decode (format.encode x) = .ok x := by
  have hsize := (x.within_toJson format.formatTime).mono (by decide : 7 ≤ 127)
  have hread := format.fromStr_toVecPretty (x.toJson format.formatTime) hsize
  rw [decode, encode, hread]
  simp only [bind, Except.bind, ControlPlaneState.fromJson_toJson format.parseTime_formatTime]
  rfl

/-- `serde_json` for `ControlPlaneState`. -/
def serde : Serde where
  toVecPretty x := .ok (format.encode x)
  fromStr := format.decode
  fromStr_toVecPretty h := by
    cases h
    exact format.decode_encode _

/-- UTF-8 text and RFC 3339. -/
def text : Format where
  toVecPretty j := Text.utf8 (Json.print j)
  fromStr raw :=
    match Text.fromUtf8 raw with
    | none => .error (.io "stream did not contain valid UTF-8")
    | some s => ((Json.parse 127 s).map .ok).getD (.error (.json "expected value"))
  formatTime := formatRfc3339
  parseTime := parseRfc3339
  unexpected _ := "invalid type"
  fromStr_toVecPretty j hj := by
    rw [Text.fromUtf8_utf8]
    simp only [Json.parse_print hj.depth]
    rfl
  parseTime_formatTime := parseRfc3339_formatRfc3339

end Format

end NginxAdmin.Daemon
