import NginxAdmin.Lib.Zod
import NginxAdmin.Web.Secrets

/-!
# The schemas of the client (`packages/core/src/entities/types.ts`, `utils/validators.ts`)

The schema of a route and of what it is made of, line by line.
-/

namespace NginxAdmin.Web

open Regex Zod

/-- What the schemas take from the language: lower case and dates. -/
structure Platform where
  lower : LowerCase
  dates : Js.Dates

/-- `/^([a-zA-Z0-9]([a-zA-Z0-9-]{0,61}[a-zA-Z0-9])?\.)+[a-zA-Z]{2,}$/` -/
def domainPattern : Regex :=
  let label := seq (char Char.isAlphanum) (seq
    (opt (seq (upto (char fun c => c.isAlphanum || c == '-') 61) (char Char.isAlphanum))) (literal "."))
  seq bol (seq (plus label) (seq (char Char.isAlpha) (seq (plus (char Char.isAlpha)) eol)))

def domainSchema : Zod := Zod.regex domainPattern string

/-- The preprocessing of `PortSchema`. -/
def portOf : Js → Js
  | .str s =>
    if Js.trim s = "" then .str s
    else
      match Js.toNumber s with
      | some x => .num x
      | none => .str s
  | a => a

def portSchema : Zod := preprocess portOf (int 1 65535)

def isPathChar (c : Char) : Bool := c.isAlphanum || c == '_' || c == '.' || c == '-'

/-- `/^\/([a-zA-Z0-9_.-]+(\/[a-zA-Z0-9_.-]+)*)?$/` -/
def unixPathPattern : Regex :=
  let name := plus (char isPathChar)
  seq bol (seq (Regex.literal "/") (seq (opt (seq name (star (seq (Regex.literal "/") name)))) eol))

def unixPathSchema : Zod := Zod.or (Zod.regex unixPathPattern string) (Zod.literal "")

/-- A slash, then characters of names and slashes. -/
def urlPathPattern : Regex :=
  seq bol (seq (Regex.literal "/") (seq (star (char fun c => isPathChar c || c == '/')) eol))

def urlPathSchema : Zod := Zod.regex urlPathPattern string

/-- `/^\d+[kmg]$/i`, `/^\d+[smhd]$/i` -/
def unitPattern (units : List Char) : Regex :=
  seq bol (seq (plus (char Char.isDigit)) (seq (char fun c => units.contains c.toLower) eol))

def sizeUnitSchema : Zod := Zod.regex (unitPattern ['k', 'm', 'g']) string

def timeUnitSchema : Zod := Zod.regex (unitPattern ['s', 'm', 'h', 'd']) string

/-- `/^(https?:\/\/)?([a-zA-Z0-9.-]+)(:\d+)?(\/.*)?$/` -/
def proxyTargetPattern : Regex :=
  seq bol (seq (opt (seq (Regex.literal "http") (seq (opt (Regex.literal "s")) (Regex.literal "://"))))
    (seq (plus (char fun c => c.isAlphanum || c == '.' || c == '-'))
      (seq (opt (seq (Regex.literal ":") (plus (char Char.isDigit))))
        (seq (opt (seq (Regex.literal "/") (star (char isDot)))) eol))))

def noSecret : Js → Bool
  | .str s => !containsSecretLikeValue s
  | _ => false

def proxyTargetSchema : Zod := optional (refine noSecret (Zod.regex proxyTargetPattern string))

variable (platform : Platform)

def sensitive : Js → Bool
  | .str s => containsSensitiveDirective platform.lower s
  | _ => false

/-- The `superRefine` of `LocationConfigSchema`. -/
def refineLocation (loc : Js) : Option Js :=
  if (loc.get "proxy_pass").truthy && (loc.get "try_files").truthy then none
  else if (loc.get "extra_directives").truthy && sensitive platform (loc.get "extra_directives") then none
  else some loc

def locationConfigSchema : Zod :=
  superRefine (refineLocation platform) (object
    [("path", urlPathSchema),
     ("proxy_pass", proxyTargetSchema),
     ("try_files", optional string),
     ("index", optional string),
     ("extra_directives", optional string)])

def isBlank : Js → Bool
  | .str s => Js.trim s == ""
  | _ => false

/-- An assignment to a property. -/
def assign (key : String) (x : Js) : Js → Js
  | .obj ms => .obj (Js.setMember key x ms)
  | a => a

/-- The `superRefine` of `AdvancedConfigSchema`: what does not apply is cleared. -/
def refineAdvanced (adv : Js) : Option Js :=
  if (adv.get "gzip").truthy && (!(adv.get "gzip_types").truthy || isBlank (adv.get "gzip_types")) then none
  else if (adv.get "caching").truthy && !(adv.get "cache_valid").truthy then none
  else
    let adv := if !(adv.get "gzip").truthy && (adv.get "gzip_types").truthy then assign "gzip_types" .undefined adv else adv
    some (if !(adv.get "caching").truthy && (adv.get "cache_valid").truthy then assign "cache_valid" .undefined adv else adv)

def advancedConfigSchema : Zod :=
  superRefine refineAdvanced (object
    [("client_max_body_size", sizeUnitSchema),
     ("keepalive_timeout", timeUnitSchema),
     ("gzip", boolean),
     ("gzip_types", optional string),
     ("caching", boolean),
     ("cache_valid", optional timeUnitSchema)])

/-! ### Routes -/

/-- The preprocessing of the dates: a string is read as a date. -/
def dateOf : Js → Js
  | .str s => .date (platform.dates.parse s)
  | a => a

def metadataSchema : Zod :=
  object
    [("createdAt", preprocess (dateOf platform) date),
     ("updatedAt", preprocess (dateOf platform) date),
     ("createdBy", string),
     ("tags", array string)]

/-- `route.locations` -/
def locationsOf (route : Js) : List Js :=
  match route.get "locations" with
  | .arr xs => xs
  | _ => []

/-- The `superRefine` of `RouteSchema`. -/
def refineRoute (route : Js) : Option Js :=
  let proxied := (route.get "proxy_pass").truthy
  let ssl := (route.get "ssl").truthy
  if ssl && (!(route.get "ssl_certificate").truthy || !(route.get "ssl_certificate_key").truthy) then none
  else if proxied && !(locationsOf route).isEmpty then none
  else if !proxied && isBlank (route.get "root") then none
  else if route.get "port" = .num 443 && !ssl then none
  else if route.get "port" = .num 80 && ssl then none
  else if ¬ ((locationsOf route).map (·.get "path")).Nodup then none
  else some (if ssl then route else
    assign "ssl_certificate_key" .undefined (assign "ssl_certificate" .undefined route))

def routeSchema : Zod :=
  superRefine refineRoute (object
    [("id", string),
     ("domain", domainSchema),
     ("port", portSchema),
     ("root", unixPathSchema),
     ("enabled", boolean),
     ("ssl", boolean),
     ("ssl_certificate", optional unixPathSchema),
     ("ssl_certificate_key", optional unixPathSchema),
     ("proxy_pass", proxyTargetSchema),
     ("locations", array (locationConfigSchema platform)),
     ("advanced", optional advancedConfigSchema),
     ("metadata", optional (metadataSchema platform))])

/-- The fields of `RouteSchema`. -/
def routeFields : List (String × Zod) :=
  [("id", string), ("domain", domainSchema), ("port", portSchema), ("root", unixPathSchema), ("enabled", boolean),
    ("ssl", boolean), ("ssl_certificate", optional unixPathSchema), ("ssl_certificate_key", optional unixPathSchema),
    ("proxy_pass", proxyTargetSchema), ("locations", array (locationConfigSchema platform)),
    ("advanced", optional advancedConfigSchema), ("metadata", optional (metadataSchema platform))]

theorem nodup_routeFields : ((routeFields platform).map Prod.fst).Nodup := by
  show ["id", "domain", "port", "root", "enabled", "ssl", "ssl_certificate", "ssl_certificate_key", "proxy_pass",
    "locations", "advanced", "metadata"].Nodup
  decide

def validateDomain (value : Js) : Bool := accepts domainSchema value

def validatePort (value : Js) : Bool := accepts portSchema value

def validateUnixPath (value : Js) : Bool := accepts unixPathSchema value

end NginxAdmin.Web
