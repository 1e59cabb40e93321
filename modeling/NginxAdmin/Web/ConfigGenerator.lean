import NginxAdmin.Lib.Lines
import NginxAdmin.Web.Repositories
import NginxAdmin.Web.SchemaOutput

/-!
# The preview of a route (`packages/core/src/services/ConfigGenerator.ts`)

`generateConfigPreview` line by line, and the directives that its text reads as (`writes_preview`). The directives of the
server are `serverLines` and those of a location `locationLines`, each a name and the text that is put after it. The
clean-up of the joined text takes away nothing but empty lines (`preview_keeps_lines`).
-/

namespace NginxAdmin.Web

open NginxConf

section Generator

/-- A value in a template. -/
def template (browser : Browser) : Js → String
  | .str s => s
  | .undefined => "undefined"
  | .null => "null"
  | .bool b => toString b
  | .num x =>
    if x.den = 1 ∧ -1000000000000000000000 < x ∧ x < 1000000000000000000000 then toString x.num else browser.text (.num x)
  | a => browser.text a

/-- `"    ".repeat(level) + line` for each line that is not empty. -/
def indent (lines : List String) (level : Nat) : String :=
  Text.join "\n" ((lines.filter fun line => line ≠ "").map fun line => String.ofList (List.replicate (4 * level) ' ') ++ line)

/-- `${name} ${text};` -/
def directiveLine (line : String × String) : String := line.1 ++ " " ++ line.2 ++ ";"

/-- `.replace(/\n{3,}/g, "\n\n")` -/
def shortenNewlines (s : String) : String := String.ofList (shortenFrom 0 s.toList)

/-- `String.prototype.trimEnd`. -/
def trimEnd (s : String) : String := String.ofList (s.toList.reverse.dropWhile Regex.isSpace).reverse

variable (browser : Browser)

def locationLines (loc : Js) : List (String × String) :=
  ["proxy_pass", "try_files", "index"].filterMap fun key =>
    if (loc.get key).truthy then some (key, template browser (loc.get key)) else none

/-- `loc.extra_directives.trim()` -/
def extraText (loc : Js) : String :=
  match loc.get "extra_directives" with
  | .str s => Js.trim s
  | _ => ""

def extraLines (loc : Js) : List String := if (loc.get "extra_directives").truthy then [extraText loc] else []

def renderLocationBlock (loc : Js) : String :=
  Text.join "\n" ["    location " ++ template browser (loc.get "path") ++ " \x7b",
    indent ((locationLines browser loc).map directiveLine ++ extraLines loc) 2, "    \x7d"]

def baseLines (route : Js) : List (String × String) :=
  [("listen", template browser (route.get "port") ++ if (route.get "ssl").truthy then " ssl" else ""),
   ("server_name", template browser (route.get "domain")), ("root", template browser (route.get "root"))]

def certificateLines (route : Js) : List (String × String) :=
  if (route.get "ssl").truthy && (route.get "ssl_certificate").truthy && (route.get "ssl_certificate_key").truthy then
    [("ssl_certificate", template browser (route.get "ssl_certificate")),
     ("ssl_certificate_key", template browser (route.get "ssl_certificate_key"))]
  else []

def advancedLines (route : Js) : List (String × String) :=
  let adv := route.get "advanced"
  if adv.truthy then
    [("client_max_body_size", template browser (adv.get "client_max_body_size")),
     ("keepalive_timeout", template browser (adv.get "keepalive_timeout"))] ++
    (if (adv.get "gzip").truthy then [("gzip", "on"), ("gzip_types", template browser (adv.get "gzip_types"))] else []) ++
    (if (adv.get "caching").truthy then [("proxy_cache_valid", template browser (adv.get "cache_valid"))] else [])
  else []

/-- An empty line and the lines of a section, if it has some. -/
def paragraph (lines : List (String × String)) : List String :=
  if lines = [] then [] else ["", indent (lines.map directiveLine) 1]

def locationSection (route : Js) : List String :=
  if locationsOf route = [] then []
  else "" :: (locationsOf route).flatMap fun loc => [renderLocationBlock browser loc, ""]

def generateConfigPreview (route : Js) : String :=
  let lines := ["server \x7b", indent ((baseLines browser route).map directiveLine) 1] ++
    paragraph (certificateLines browser route) ++ paragraph (advancedLines browser route) ++
    locationSection browser route ++ ["\x7d"]
  trimEnd (shortenNewlines (Text.join "\n" lines)) ++ "\n"

end Generator

theorem toList_join {lines : List String} (hne : lines ≠ []) :
    (Text.join "\n" lines).toList ++ ['\n'] = lines.flatMap fun l => l.toList ++ ['\n'] := by
  induction lines with
  | nil => exact absurd rfl hne
  | cons l lines ih =>
    cases lines with
    | nil => simp [Text.join]
    | cons l' lines =>
      have hrest := ih (List.cons_ne_nil _ _)
      rw [List.flatMap_cons, ← hrest]
      simp [Text.join]

def visible (lines : List String) : List String := lines.filter fun line => line ≠ ""

theorem toList_indent (lines : List String) (level : Nat) : (indent lines level).toList ++ ['\n'] =
    if visible lines = [] then ['\n']
    else (visible lines).flatMap fun l => List.replicate (4 * level) ' ' ++ l.toList ++ ['\n'] := by
  have hindent : indent lines level =
      Text.join "\n" ((visible lines).map fun line => String.ofList (List.replicate (4 * level) ' ') ++ line) := rfl
  rw [hindent]
  split
  next hnil =>
    rw [hnil]
    rfl
  next hne =>
    rw [toList_join (by simpa using hne), List.flatMap_map]
    exact List.flatMap_congr fun l _ => by simp

theorem visible_directiveLines (lines : List (String × String)) :
    visible (lines.map directiveLine) = lines.map directiveLine := by
  refine List.filter_eq_self.2 fun l hl => decide_eq_true fun hempty => ?_
  obtain ⟨line, -, rfl⟩ := List.mem_map.1 hl
  have hlist := congrArg String.toList hempty
  simp [directiveLine] at hlist

/-! ### What is written -/

/-- `d` is the directive that a line is read as. -/
def Written (line : String × String) (d : Directive) : Prop :=
  ∃ ws, d = .simple (line.1 :: ws) ∧ Reads (shortenFrom 0 line.2.toList) ws

/-- The lines have names, and their texts read as arguments. -/
def Legible (lines : List (String × String)) : Prop :=
  ∀ line ∈ lines, IsWord line.1 ∧ ∃ ws, Reads (shortenFrom 0 line.2.toList) ws

theorem shortens_directiveLines {lines : List (String × String)} (h : Legible lines) (level : Nat) :
    ∃ ds, List.Forall₂ Written lines ds ∧ ∀ n, Shortens n ((lines.map directiveLine).flatMap fun l =>
      List.replicate (4 * level) ' ' ++ l.toList ++ ['\n']) (if lines = [] then n else 1) ds := by
  rw [List.flatMap_map]
  refine shortens_flatMap fun line hline => ?_
  obtain ⟨hname, ws, hws⟩ := h line hline
  refine ⟨.simple (line.1 :: ws), ⟨ws, rfl, hws⟩, fun n => ?_⟩
  have hline := shortens_directive hname hws n (4 * level)
  simpa [directiveLine] using hline

variable {browser : Browser} {loc route : Js}

theorem isWord_location : ∀ name ∈ ["proxy_pass", "try_files", "index"], IsWord name := by
  decide

theorem mem_locationLines {line : String × String} (h : line ∈ locationLines browser loc) :
    line.1 ∈ ["proxy_pass", "try_files", "index"] ∧ (loc.get line.1).truthy = true ∧ line.2 = template browser (loc.get line.1) := by
  obtain ⟨key, hkey, hsome⟩ := List.mem_filterMap.1 h
  split at hsome
  next htruthy =>
    cases hsome
    exact ⟨hkey, htruthy, rfl⟩
  next => cases hsome

/-- `d` is the block that the lines of a location are read as. -/
def WrittenLocation (browser : Browser) (loc : Js) (d : Directive) : Prop :=
  ∃ path shown extra, loc.get "path" = .str path ∧ d = .block ["location", path] (shown ++ extra) ∧
    List.Forall₂ Written (locationLines browser loc) shown ∧ Writes (shortenFrom 0 (extraText loc).toList ++ ['\n']) extra

structure LegibleLocation (browser : Browser) (loc : Js) : Prop where
  path : ∃ path, loc.get "path" = .str path ∧ IsWord path
  lines : Legible (locationLines browser loc)
  extra : ∃ ds, Writes (shortenFrom 0 (extraText loc).toList ++ ['\n']) ds

theorem exists_last_of_trim {s : String} (h : Js.trim s ≠ "") : ∃ l c, (Js.trim s).toList = l ++ [c] ∧ c ≠ '\n' := by
  have htrim : (Js.trim s).toList = ((s.toList.dropWhile Regex.isSpace).reverse.dropWhile Regex.isSpace).reverse :=
    String.toList_ofList
  have hhead := List.head?_dropWhile_not Regex.isSpace (s.toList.dropWhile Regex.isSpace).reverse
  cases hrest : (s.toList.dropWhile Regex.isSpace).reverse.dropWhile Regex.isSpace with
  | nil =>
    rw [hrest, List.reverse_nil] at htrim
    exact absurd (String.toList_eq_nil_iff.1 htrim) h
  | cons c l =>
    rw [hrest] at hhead htrim
    refine ⟨l.reverse, c, by rw [htrim, List.reverse_cons], ?_⟩
    rintro rfl
    have hspace : Regex.isSpace '\n' = false := hhead
    exact absurd hspace (by decide)

theorem extraText_eq {s : String} (h : extraText loc = s) (hne : s ≠ "") : (loc.get "extra_directives").truthy = true ∧
    ∃ t, Js.trim t = s := by
  subst h
  rw [extraText] at hne ⊢
  split at hne
  next t ht =>
    rw [ht]
    exact ⟨truthy_str.2 (ne_empty_of_trim hne), t, rfl⟩
  next => exact absurd rfl hne

theorem visible_extraLines : visible (extraLines loc) = if extraText loc = "" then [] else [extraText loc] := by
  by_cases hempty : extraText loc = ""
  · rw [if_pos hempty, extraLines, hempty]
    split
    · rfl
    · rfl
  · rw [if_neg hempty, extraLines, if_pos (extraText_eq rfl hempty).1]
    exact List.filter_eq_self.2 fun l hl => decide_eq_true (by rwa [List.mem_singleton.1 hl])

theorem shortens_extra (h : ∃ ds, Writes (shortenFrom 0 (extraText loc).toList ++ ['\n']) ds) :
    ∃ extra, Writes (shortenFrom 0 (extraText loc).toList ++ ['\n']) extra ∧
      ∀ n, Shortens n ((visible (extraLines loc)).flatMap fun l => List.replicate (4 * 2) ' ' ++ l.toList ++ ['\n'])
        (if visible (extraLines loc) = [] then n else 1) extra := by
  rw [visible_extraLines]
  by_cases hempty : extraText loc = ""
  · rw [if_pos hempty, hempty]
    exact ⟨[], ⟨[], rfl, .nil⟩, fun n => .nil n⟩
  · obtain ⟨ds, hds⟩ := h
    refine ⟨ds, hds, fun n => ?_⟩
    obtain ⟨-, t, ht⟩ := extraText_eq rfl hempty
    rw [← ht] at hempty hds ⊢
    obtain ⟨l, c, hlast, hc⟩ := exists_last_of_trim hempty
    rw [hlast] at hds
    rw [if_neg hempty, if_neg (List.cons_ne_nil _ _), List.flatMap_singleton, hlast]
    exact shortens_line hc hds n

theorem shortens_body (h : LegibleLocation browser loc) : ∃ m shown extra, List.Forall₂ Written (locationLines browser loc) shown ∧
    Writes (shortenFrom 0 (extraText loc).toList ++ ['\n']) extra ∧
    Shortens 1 ((indent ((locationLines browser loc).map directiveLine ++ extraLines loc) 2).toList ++ ['\n']) m
      (shown ++ extra) := by
  obtain ⟨shown, hshown, hlines⟩ := shortens_directiveLines h.lines 2
  obtain ⟨extra, hextra, hrest⟩ := shortens_extra h.extra
  have hvisible : visible ((locationLines browser loc).map directiveLine ++ extraLines loc) =
      (locationLines browser loc).map directiveLine ++ visible (extraLines loc) := by
    rw [visible, List.filter_append]
    exact congrArg (· ++ _) (visible_directiveLines _)
  have hbody := (hlines 1).append (hrest _)
  rw [toList_indent, hvisible]
  split
  next hnil =>
    -- a block without directives holds an empty line
    obtain ⟨hnone, hnone'⟩ := List.append_eq_nil_iff.1 hnil
    rw [hnone, hnone', List.flatMap_nil, ite_self, if_pos rfl] at hbody
    have hblank := hbody.append shortens_newline
    exact ⟨2, shown, extra, hshown, hextra, by simpa using hblank⟩
  next =>
    rw [List.flatMap_append]
    exact ⟨_, shown, extra, hshown, hextra, hbody⟩

theorem shortens_location (h : LegibleLocation browser loc) : ∃ d, WrittenLocation browser loc d ∧
    ∀ n, Shortens n ((renderLocationBlock browser loc).toList ++ ['\n'] ++ ['\n']) 2 [d] := by
  obtain ⟨path, hpath, hword⟩ := h.path
  obtain ⟨m, shown, extra, hshown, hextra, hbody⟩ := shortens_body h
  refine ⟨_, ⟨path, shown, extra, hpath, rfl, hshown, hextra⟩, fun n => ?_⟩
  have hpre : Scans "    location ".toList [.word "location"] := by decide +kernel
  have hmark : Scans ['\x7b', '\n'] [.lbrace] := by decide +kernel
  have hopen : Scans ("    location ".toList ++ (path.toList ++ [' ', '\x7b']) ++ ['\n'])
      (["location", path].map .word ++ [.lbrace]) := by
    have hline := (hpre.append (scans_word_blank hword)).append hmark
    simpa using hline
  have hfront : '\n' ∉ "    location ".toList ++ (path.toList ++ [' ', '\x7b']) := by
    have hno := hword.no_newline
    simp [hno]
  have hclose : Scans ("    \x7d".toList ++ ['\n']) [.rbrace] := by decide +kernel
  have hblock := (Shortens.block (n := n) (List.cons_ne_nil _ _) ⟨by simp, hfront⟩ hopen hbody ⟨by simp, by decide⟩
    hclose).append shortens_newline
  have htext : (renderLocationBlock browser loc).toList ++ ['\n'] =
      "    location ".toList ++ (path.toList ++ [' ', '\x7b']) ++ ['\n'] ++
        ((indent ((locationLines browser loc).map directiveLine ++ extraLines loc) 2).toList ++ ['\n']) ++
        ("    \x7d".toList ++ ['\n']) := by
    rw [renderLocationBlock, toList_join (List.cons_ne_nil _ _), hpath]
    simp [template]
  rw [htext]
  exact hblock

theorem shortens_paragraph {lines : List (String × String)} (h : Legible lines) : ∃ ds, List.Forall₂ Written lines ds ∧
    Shortens 1 ((paragraph lines).flatMap fun l => l.toList ++ ['\n']) 1 ds := by
  obtain ⟨ds, hds, hlines⟩ := shortens_directiveLines h 1
  refine ⟨ds, hds, ?_⟩
  by_cases hnil : lines = []
  · subst hnil
    cases hds
    exact .nil 1
  · have hblock := shortens_newline.append (hlines 2)
    rw [if_neg hnil] at hblock
    rw [paragraph, if_neg hnil, List.flatMap_cons, List.flatMap_singleton, toList_indent, visible_directiveLines, if_neg]
    · exact hblock
    · simpa using hnil

theorem shortens_locations (h : ∀ loc ∈ locationsOf route, LegibleLocation browser loc) : ∃ m blocks,
    List.Forall₂ (WrittenLocation browser) (locationsOf route) blocks ∧
    Shortens 1 ((locationSection browser route).flatMap fun l => l.toList ++ ['\n']) m blocks := by
  obtain ⟨blocks, hblocks, hall⟩ := shortens_flatMap fun loc hloc => shortens_location (h loc hloc)
  rw [locationSection]
  split
  next hnil =>
    rw [hnil] at hblocks ⊢
    cases hblocks
    exact ⟨1, [], .nil, .nil 1⟩
  next =>
    have hsection := shortens_newline.append (hall 2)
    rw [ite_self] at hsection
    refine ⟨2, blocks, hblocks, ?_⟩
    rw [List.flatMap_cons, List.flatMap_assoc]
    simpa using hsection

variable (browser route) in
/-- The lines that the generator joins. -/
def previewLines : List String :=
  ["server \x7b", indent ((baseLines browser route).map directiveLine) 1] ++
    paragraph (certificateLines browser route) ++ paragraph (advancedLines browser route) ++
    locationSection browser route

/-- Nothing follows the last brace but a newline. -/
theorem toList_generateConfigPreview : (generateConfigPreview browser route).toList =
    shortenFrom 0 ((previewLines browser route ++ ["\x7d"]).flatMap fun l => l.toList ++ ['\n']) := by
  obtain ⟨l, hl⟩ : ∃ l, l = (previewLines browser route).flatMap fun l => l.toList ++ ['\n'] := ⟨_, rfl⟩
  have hjoin : (Text.join "\n" (previewLines browser route ++ ["\x7d"])).toList = l ++ ['\x7d'] := by
    have htext := @toList_join (previewLines browser route ++ ["\x7d"]) (by simp)
    rw [List.flatMap_append, ← hl, List.flatMap_singleton, ← List.append_assoc] at htext
    exact List.append_cancel_right htext
  have hpreview : generateConfigPreview browser route =
      trimEnd (shortenNewlines (Text.join "\n" (previewLines browser route ++ ["\x7d"]))) ++ "\n" := rfl
  rw [hpreview, List.flatMap_append, ← hl, String.toList_append, trimEnd, String.toList_ofList, shortenNewlines,
    String.toList_ofList, hjoin, shortenFrom_append_of_ne (by decide)]
  show _ = shortenFrom 0 (l ++ '\x7d' :: ['\n'])
  rw [shortenFrom_append_of_ne (by decide), List.reverse_append]
  simp [shortenFrom, Regex.isSpace]

theorem writes_preview (hbase : Legible (baseLines browser route)) (hcertificates : Legible (certificateLines browser route))
    (hadvanced : Legible (advancedLines browser route)) (hlocations : ∀ loc ∈ locationsOf route, LegibleLocation browser loc) :
    ∃ simples blocks, Writes (generateConfigPreview browser route).toList [.block ["server"] (simples ++ blocks)] ∧
      List.Forall₂ Written (baseLines browser route ++ certificateLines browser route ++ advancedLines browser route) simples ∧
      List.Forall₂ (WrittenLocation browser) (locationsOf route) blocks := by
  obtain ⟨base, hbase', hbaseText⟩ := shortens_directiveLines hbase 1
  obtain ⟨certificates, hcertificates', hcertificatesText⟩ := shortens_paragraph hcertificates
  obtain ⟨advanced, hadvanced', hadvancedText⟩ := shortens_paragraph hadvanced
  obtain ⟨m, blocks, hblocks, hblocksText⟩ := shortens_locations hlocations
  have hbody := (((hbaseText 1).append hcertificatesText).append hadvancedText).append hblocksText
  have hopen : Scans ("server \x7b".toList ++ ['\n']) (["server"].map .word ++ [.lbrace]) := by decide +kernel
  have hclose : Scans ("\x7d".toList ++ ['\n']) [.rbrace] := by decide +kernel
  have hserver := (Shortens.block (n := 0) (List.cons_ne_nil _ _) ⟨by simp, by decide⟩ hopen hbody ⟨by simp, by decide⟩
    hclose).writes
  refine ⟨base ++ certificates ++ advanced, blocks, ?_, List.rel_append (List.rel_append hbase' hcertificates') hadvanced',
    hblocks⟩
  rw [toList_generateConfigPreview, previewLines]
  have hindent : (indent ((baseLines browser route).map directiveLine) 1).toList ++ ['\n'] =
      ((baseLines browser route).map directiveLine).flatMap fun l => List.replicate (4 * 1) ' ' ++ l.toList ++ ['\n'] := by
    rw [toList_indent, visible_directiveLines, if_neg (by simp [baseLines])]
  simp only [List.flatMap_append, List.flatMap_cons, List.flatMap_nil, List.append_nil, hindent] at hserver ⊢
  simpa only [List.append_assoc] using hserver

variable (browser route) in
/-- The text before its newlines are cut and its end is trimmed. -/
def joinedLines : String := Text.join "\n" (previewLines browser route ++ ["\x7d"])

theorem toList_preview_joined :
    (generateConfigPreview browser route).toList = shortenFrom 0 ((joinedLines browser route).toList ++ ['\n']) := by
  rw [toList_generateConfigPreview, joinedLines, toList_join (by simp)]

/-- The lines before the last brace end in a newline. -/
theorem exists_toList_preview : ∃ front, (generateConfigPreview browser route).toList = front ++ '\n' :: ['\x7d', '\n'] := by
  have hne : previewLines browser route ≠ [] := by simp [previewLines]
  rw [toList_generateConfigPreview, List.flatMap_append, ← toList_join hne]
  obtain ⟨front, hfront⟩ := Text.shortenFrom_append_newline (Text.join "\n" (previewLines browser route)).toList (n := 0) (by omega)
  refine ⟨front, ?_⟩
  have hlast : ["\x7d"].flatMap (fun l => l.toList ++ ['\n']) = '\x7d' :: ['\n'] := rfl
  rw [hlast, shortenFrom_append_of_ne (by decide), hfront]
  simp [shortenFrom]

/-- The lines that are not empty are those of the joined text, in their order; there are never three newlines in a row; and
the last line is the brace, with one newline after it. -/
theorem preview_keeps_lines (browser : Browser) (route : Js) :
    Text.filledLines (generateConfigPreview browser route) = Text.filledLines (joinedLines browser route) ∧
    ¬ "\n\n\n".toList <:+: (generateConfigPreview browser route).toList ∧
    ∃ front, Text.lines (generateConfigPreview browser route) = front ++ ["\x7d", ""] := by
  refine ⟨?_, ?_, ?_⟩
  · rw [Text.filledLines_eq, Text.filledLines_eq, toList_preview_joined, Text.filled_shortenFrom, Text.filled_append_newline]
  · rw [toList_preview_joined]
    exact Text.not_infix_shortenFrom (by omega) _
  · obtain ⟨front, hfront⟩ := @exists_toList_preview browser route
    exact ⟨_, Text.lines_of_toList hfront⟩

end NginxAdmin.Web
