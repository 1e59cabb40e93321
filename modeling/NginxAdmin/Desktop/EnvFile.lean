import Mathlib.Data.List.TakeWhile
import Mathlib.Logic.Function.Basic
import NginxAdmin.Lib.Js

/-!
# The `.env` file (`main.ts`, `secrets/migrateDesktopSecrets.ts`)

`loadDesktopEnv` copies the assignments of the file to `process.env`, and `cleanupEnvFile` takes those of the secret
variables out of it. Both read a line in the same way, but the cleaner compares the key as it stands there, and `process.env`
can take another key for a secret variable (`Disguises`). From a cleaned file the other variables are set as before
(`loadContent_withoutSecrets_of_not_mem`), and a secret variable by such a line only (`loadContent_withoutSecrets_iff`).
-/

namespace NginxAdmin.Desktop

/-- The variables of a process by their names. -/
abbrev Env := String → Option String

/-- What `process.env` makes of keys and values, which depends on the system: names and values end at a NUL, and on Windows
small letters in a key count as capitals. -/
structure ProcessEnv where
  /-- The variable that a key stands for. -/
  name : String → String
  /-- The text that an assignment leaves in the variable, unless the system ignores it. -/
  stores : String → String → Option String
  name_plain : ∀ key, key.toList.all (fun c => c.isUpper || c.isDigit || c == '_') = true → name key = key

def untilNul (text : String) : String := String.ofList (text.toList.takeWhile (· ≠ '\x00'))

theorem untilNul_plain (key : String) (h : key.toList.all (fun c => c.isUpper || c.isDigit || c == '_') = true) :
    untilNul key = key := by
  have hall : ∀ c ∈ key.toList, decide (c ≠ '\x00') = true := by
    intro c hc
    have hplain := List.all_eq_true.1 h c hc
    rw [decide_eq_true_iff]
    rintro rfl
    exact absurd hplain (by decide)
  rw [untilNul, List.takeWhile_eq_self_iff.2 hall, String.ofList_toList]

/-- `setenv` takes no empty name. -/
def ProcessEnv.posix : ProcessEnv where
  name := untilNul
  stores key value := if untilNul key = "" then none else some (untilNul value)
  name_plain := untilNul_plain

def secretEnvKeys : List String :=
  ["SSH_USERNAME", "SSH_PASSWORD", "SSH_PRIVATE_KEY", "SSH_PRIVATE_KEY_PATH", "SSH_PASSPHRASE"]

theorem ProcessEnv.name_secret (P : ProcessEnv) {key : String} (h : key ∈ secretEnvKeys) : P.name key = key := by
  refine P.name_plain key ?_
  simp only [secretEnvKeys, List.mem_cons, List.not_mem_nil, or_false] at h
  rcases h with rfl | rfl | rfl | rfl | rfl <;> decide

namespace EnvFile

/-- A carriage return belongs to the line feed after it. -/
def dropCr : List (List Char) → List (List Char)
  | [] => []
  | [line] => [line]
  | line :: next :: rest =>
    (if line.getLast? = some '\r' then line.dropLast else line) :: dropCr (next :: rest)

/-- `content.split(/\r?\n/u)`. -/
def lines (content : String) : List String := (dropCr (content.toList.splitOn '\n')).map String.ofList

/-- What a line assigns: the name, and the value as it stands there. -/
def readLine (rawLine : String) : Option (String × String) :=
  let line := (Js.trim rawLine).toList
  if line = [] ∨ line.head? = some '#' then none
  else
    match line.idxOf? '=' with
    | none | some 0 => none
    | some separatorIndex =>
      some (Js.trim (String.ofList (line.take separatorIndex)), String.ofList (line.drop (separatorIndex + 1)))

def parseEnvValue (rawValue : String) : String :=
  let value := (Js.trim rawValue).toList
  if value = [] then ""
  else if (value.head? = some '"' ∧ value.getLast? = some '"') ∨ (value.head? = some '\'' ∧ value.getLast? = some '\'') then
    String.ofList (value.drop 1).dropLast
  else String.ofList value

example : (lines "A=1\r\n# B=2\n =3\n C = \"x=y\" ").map (fun l => (readLine l).map fun (k, v) => (k, parseEnvValue v)) =
    [some ("A", "1"), none, none, some ("C", "x=y")] := by
  decide +kernel

variable (P : ProcessEnv)

/-- The first assignment of a variable counts, and none when the process has it already. -/
def applyLine (env : Env) (rawLine : String) : Env :=
  match readLine rawLine with
  | none => env
  | some (key, rawValue) =>
    if key = "" ∨ env (P.name key) ≠ none then env
    else
      match P.stores key (parseEnvValue rawValue) with
      | none => env
      | some value => Function.update env (P.name key) (some value)

def loadContent (content : String) (env : Env) : Env := (lines content).foldl (applyLine P) env

/-- The line assigns the variable. -/
def Assigns (rawLine name : String) : Prop :=
  ∃ key rawValue, readLine rawLine = some (key, rawValue) ∧ key ≠ "" ∧ P.name key = name ∧
    (P.stores key (parseEnvValue rawValue)).isSome = true

variable {P}

theorem applyLine_of_not_assigns {env : Env} {line name : String} (h : ¬ Assigns P line name) :
    applyLine P env line name = env name := by
  unfold applyLine
  rcases hr : readLine line with _ | ⟨key, rawValue⟩
  · rfl
  · simp only
    split
    · rfl
    rename_i hfree
    rcases hs : P.stores key (parseEnvValue rawValue) with _ | value
    · rfl
    · refine Function.update_of_ne ?_ ..
      rintro rfl
      exact h ⟨key, rawValue, hr, fun hkey => hfree (.inl hkey), rfl, by rw [hs]; rfl⟩

theorem applyLine_of_set {env : Env} {line name : String} (h : env name ≠ none) : applyLine P env line name = env name := by
  unfold applyLine
  rcases readLine line with _ | ⟨key, rawValue⟩
  · rfl
  · simp only
    split
    · rfl
    rename_i hfree
    rcases P.stores key (parseEnvValue rawValue) with _ | value
    · rfl
    · refine Function.update_of_ne ?_ ..
      rintro rfl
      exact hfree (.inr h)

theorem applyLine_of_assigns {env : Env} {line name : String} (h : Assigns P line name) (hnone : env name = none) :
    ∃ value, ∀ env' : Env, env' name = none → applyLine P env' line name = some value := by
  obtain ⟨key, rawValue, hr, hkey, rfl, hs⟩ := h
  obtain ⟨value, hs⟩ := Option.isSome_iff_exists.1 hs
  refine ⟨value, fun env' hnone' => ?_⟩
  have hfree : ¬ (key = "" ∨ env' (P.name key) ≠ none) := by simp [hkey, hnone']
  simp only [applyLine, hr, if_neg hfree, hs, Function.update_self]

theorem applyLine_congr {env env' : Env} {name : String} (h : env name = env' name) (line : String) :
    applyLine P env line name = applyLine P env' line name := by
  by_cases hset : env name = none
  · by_cases ha : Assigns P line name
    · obtain ⟨value, hvalue⟩ := applyLine_of_assigns ha hset
      rw [hvalue env hset, hvalue env' (h ▸ hset)]
    · rw [applyLine_of_not_assigns ha, applyLine_of_not_assigns ha, h]
  · rw [applyLine_of_set hset, applyLine_of_set (h ▸ hset), h]

/-- A variable is loaded from the file whatever the others are. -/
theorem loadContent_congr {env env' : Env} {name : String} (content : String) (h : env name = env' name) :
    loadContent P content env name = loadContent P content env' name := by
  unfold loadContent
  generalize lines content = ls
  induction ls generalizing env env' with
  | nil => exact h
  | cons line ls ih => exact ih (applyLine_congr h line)

theorem foldl_applyLine_of_set {ls : List String} {env : Env} {name : String} (h : env name ≠ none) :
    ls.foldl (applyLine P) env name = env name := by
  induction ls generalizing env with
  | nil => rfl
  | cons line ls ih =>
    have hline : applyLine P env line name = env name := applyLine_of_set h
    rw [List.foldl_cons, ih (by rwa [hline]), hline]

/-- A variable that is not set stays so just when no line assigns it. -/
theorem loadContent_eq_iff {env : Env} {content name : String} :
    loadContent P content env name = env name ↔ ∀ line ∈ lines content, Assigns P line name → env name ≠ none := by
  by_cases hset : env name = none
  · simp only [hset, ne_eq, not_true_eq_false, imp_false]
    unfold loadContent
    generalize lines content = ls
    induction ls generalizing env with
    | nil => simp [hset]
    | cons line ls ih =>
      rw [List.foldl_cons, List.forall_mem_cons]
      by_cases ha : Assigns P line name
      · obtain ⟨value, hvalue⟩ := applyLine_of_assigns ha hset
        have hline := hvalue env hset
        rw [foldl_applyLine_of_set (by rw [hline]; simp), hline]
        simp [ha]
      · rw [ih ((applyLine_of_not_assigns ha).trans hset)]
        simp [ha]
  · simp only [ne_eq, hset, not_false_eq_true, implies_true, iff_true]
    exact foldl_applyLine_of_set hset

/-- The line does not assign a secret variable. -/
def keeps (rawLine : String) : Bool :=
  match readLine rawLine with
  | none => true
  | some (key, _) => !secretEnvKeys.contains key

/-- The text that `cleanupEnvFile` leaves in the file. -/
def withoutSecrets (original : String) : String := String.intercalate "\n" ((lines original).filter keeps)

variable (P) in
/-- The line assigns a secret variable by a key that is not the name of one, so it is not cleaned. -/
def Disguises (rawLine name : String) : Prop :=
  name ∈ secretEnvKeys ∧ ∃ key rawValue, readLine rawLine = some (key, rawValue) ∧ key ∉ secretEnvKeys ∧ P.name key = name ∧
    (P.stores key (parseEnvValue rawValue)).isSome = true

theorem disguises_iff {line name : String} (hname : name ∈ secretEnvKeys) :
    Disguises P line name ↔ keeps line = true ∧ Assigns P line name := by
  constructor
  · rintro ⟨-, key, rawValue, hr, hkey, rfl, hs⟩
    refine ⟨by simp [keeps, hr, hkey], key, rawValue, hr, ?_, rfl, hs⟩
    rintro rfl
    rw [P.name_plain "" rfl] at hname
    exact hkey hname
  · rintro ⟨hkeeps, key, rawValue, hr, -, rfl, hs⟩
    exact ⟨hname, key, rawValue, hr, by simpa [keeps, hr] using hkeeps, rfl, hs⟩

theorem isSpace_cr : Regex.isSpace '\r' = true := by decide

theorem trim_append_cr (cs : List Char) : Js.trim (String.ofList (cs ++ ['\r'])) = Js.trim (String.ofList cs) := by
  simp only [Js.trim, String.toList_ofList]
  by_cases h : ∀ c ∈ cs, Regex.isSpace c = true
  · have hcs : cs.dropWhile Regex.isSpace = [] := List.dropWhile_eq_nil_iff.2 h
    rw [List.dropWhile_append, hcs]
    simp [isSpace_cr]
  · have hcs : cs.dropWhile Regex.isSpace ≠ [] := fun he => h (List.dropWhile_eq_nil_iff.1 he)
    rw [List.dropWhile_append]
    simp [hcs, isSpace_cr]

theorem readLine_append_cr (cs : List Char) : readLine (String.ofList (cs ++ ['\r'])) = readLine (String.ofList cs) := by
  unfold readLine
  rw [trim_append_cr]

/-- What the lines assign does not depend on the carriage returns. -/
theorem map_readLine_dropCr (ls : List (List Char)) :
    (dropCr ls).map (fun l => readLine (String.ofList l)) = ls.map fun l => readLine (String.ofList l) := by
  induction ls with
  | nil => rfl
  | cons line ls ih =>
    cases ls with
    | nil => rfl
    | cons next rest =>
      have hline : readLine (String.ofList (if line.getLast? = some '\r' then line.dropLast else line)) =
          readLine (String.ofList line) := by
        split
        · rename_i hlast
          obtain ⟨cs, rfl⟩ := List.getLast?_eq_some_iff.1 hlast
          rw [List.dropLast_concat, readLine_append_cr]
        · rfl
      rw [dropCr, List.map_cons, ih, hline]
      simp only [List.map_cons]

theorem dropCr_subset {ls : List (List Char)} {c : Char} (h : ∀ l ∈ ls, c ∉ l) : ∀ l ∈ dropCr ls, c ∉ l := by
  induction ls with
  | nil => exact h
  | cons line ls ih =>
    cases ls with
    | nil => exact h
    | cons next rest =>
      rw [dropCr, List.forall_mem_cons]
      rw [List.forall_mem_cons] at h
      refine ⟨?_, ih h.2⟩
      split
      · exact fun hc => h.1 (List.mem_of_mem_dropLast hc)
      · exact h.1

theorem not_mem_splitOn (cs : List Char) : ∀ l ∈ cs.splitOn '\n', '\n' ∉ l := by
  induction cs with
  | nil => simp
  | cons c cs ih =>
    rw [List.splitOn_cons_eq_if_modifyHead]
    split
    · simpa using ih
    · rename_i hc
      cases hs : cs.splitOn '\n' with
      | nil => simp
      | cons l ls =>
        rw [hs, List.forall_mem_cons] at ih
        rw [List.modifyHead_cons, List.forall_mem_cons]
        refine ⟨fun hm => ?_, ih.2⟩
        rcases List.mem_cons.1 hm with rfl | hm
        · exact hc (by simp)
        · exact ih.1 hm

theorem map_readLine_lines_intercalate {ls : List String} (h : ∀ l ∈ ls, '\n' ∉ l.toList) (hne : ls ≠ []) :
    (lines (String.intercalate "\n" ls)).map readLine = ls.map readLine := by
  have hsplit : (String.intercalate "\n" ls).toList.splitOn '\n' = ls.map String.toList := by
    rw [String.toList_intercalate]
    exact List.splitOn_intercalate '\n' (by simpa using h) (by simpa using hne)
  rw [lines, List.map_map, hsplit]
  have := map_readLine_dropCr (ls.map String.toList)
  simpa [Function.comp_def] using this

/-- The cleaned file has the lines that are kept, or one empty line. -/
theorem lines_withoutSecrets (original : String) :
    ((lines original).filter keeps = [] ∧ lines (withoutSecrets original) = [""]) ∨
      (lines (withoutSecrets original)).map readLine = ((lines original).filter keeps).map readLine := by
  by_cases hnil : (lines original).filter keeps = []
  · left
    rw [withoutSecrets, hnil]
    exact ⟨rfl, by decide⟩
  · right
    refine map_readLine_lines_intercalate (fun l hl => ?_) hnil
    obtain ⟨cs, hcs, rfl⟩ := List.mem_map.1 (List.mem_filter.1 hl).1
    rw [String.toList_ofList]
    exact dropCr_subset (not_mem_splitOn _) cs hcs

theorem readLine_empty : readLine "" = none := by decide

/-- What is said of the lines of the cleaned file is said of those that are kept. -/
theorem forall_lines_withoutSecrets {p : Option (String × String) → Prop} (hnone : p none) (original : String) :
    (∀ line ∈ lines (withoutSecrets original), p (readLine line)) ↔
      ∀ line ∈ lines original, keeps line = true → p (readLine line) := by
  have hmap : ∀ ls : List String, (∀ line ∈ ls, p (readLine line)) ↔ ∀ r ∈ ls.map readLine, p r := fun ls => by
    rw [List.forall_mem_map]
  rw [hmap]
  rcases lines_withoutSecrets original with ⟨hnil, hempty⟩ | hlines
  · have hno : ∀ line ∈ lines original, ¬ keeps line = true := by simpa [List.filter_eq_nil_iff] using hnil
    rw [hempty, List.map_singleton, readLine_empty]
    simp only [List.mem_singleton, forall_eq, hnone, true_iff]
    exact fun line hline hkeeps => absurd hkeeps (hno line hline)
  · rw [hlines, ← hmap]
    simp only [List.mem_filter, and_imp]

theorem assigns_withoutSecrets {original name : String} (hname : name ∈ secretEnvKeys) {q : Prop} :
    (∀ line ∈ lines (withoutSecrets original), Assigns P line name → q) ↔
      ∀ line ∈ lines original, Disguises P line name → q := by
  refine (forall_lines_withoutSecrets (p := fun r => (∃ key rawValue, r = some (key, rawValue) ∧ key ≠ "" ∧
    P.name key = name ∧ (P.stores key (parseEnvValue rawValue)).isSome = true) → q) (by simp) original).trans ?_
  refine forall₂_congr fun line _ => ?_
  rw [disguises_iff hname, and_imp]
  rfl

/-- A secret variable is left as it is by the cleaned file, unless a line has it in disguise. -/
theorem loadContent_withoutSecrets_iff {env : Env} {original name : String} (hname : name ∈ secretEnvKeys) :
    loadContent P (withoutSecrets original) env name = env name ↔
      ∀ line ∈ lines original, Disguises P line name → env name ≠ none := by
  rw [loadContent_eq_iff, assigns_withoutSecrets hname]

theorem applyLine_of_readLine {l l' : String} (h : readLine l = readLine l') (env : Env) :
    applyLine P env l = applyLine P env l' := by
  unfold applyLine
  rw [h]

theorem foldl_applyLine_of_readLine {ls ls' : List String} (h : ls.map readLine = ls'.map readLine) (env : Env) :
    ls.foldl (applyLine P) env = ls'.foldl (applyLine P) env := by
  induction ls generalizing ls' env with
  | nil =>
    have hnil : ls' = [] := by simpa using h.symm
    rw [hnil]
  | cons l ls ih =>
    obtain ⟨l', ls'', rfl⟩ : ∃ l' ls'', ls' = l' :: ls'' := List.exists_cons_of_ne_nil (by rintro rfl; simp at h)
    rw [List.map_cons, List.map_cons, List.cons.injEq] at h
    rw [List.foldl_cons, List.foldl_cons, applyLine_of_readLine h.1, ih h.2]

theorem not_assigns_of_not_keeps {line name : String} (h : keeps line = false) (hname : name ∉ secretEnvKeys) :
    ¬ Assigns P line name := by
  rintro ⟨key, rawValue, hr, -, rfl, -⟩
  have hkey : key ∈ secretEnvKeys := by simpa [keeps, hr] using h
  rw [P.name_secret hkey] at hname
  exact hname hkey

/-- Lines that assign other variables do not matter for a variable. -/
theorem foldl_filter_keeps {name : String} (hname : name ∉ secretEnvKeys) (ls : List String) {env env' : Env}
    (h : env name = env' name) : (ls.filter keeps).foldl (applyLine P) env name = ls.foldl (applyLine P) env' name := by
  induction ls generalizing env env' with
  | nil => exact h
  | cons l ls ih =>
    rw [List.foldl_cons, List.filter_cons]
    split
    · rw [List.foldl_cons]
      exact ih (applyLine_congr h l)
    · rename_i hdropped
      refine ih ?_
      rw [applyLine_of_not_assigns (not_assigns_of_not_keeps (by simpa using hdropped) hname), h]

/-- The other variables are set from a cleaned file as from the original one. -/
theorem loadContent_withoutSecrets_of_not_mem {name : String} (original : String) (env : Env) (hname : name ∉ secretEnvKeys) :
    loadContent P (withoutSecrets original) env name = loadContent P original env name := by
  show (lines (withoutSecrets original)).foldl (applyLine P) env name = _
  rw [loadContent, ← foldl_filter_keeps hname (lines original) rfl]
  rcases lines_withoutSecrets original with ⟨hnil, hempty⟩ | hmap
  · rw [hnil, hempty]
    show applyLine P env "" name = env name
    rw [applyLine, readLine_empty]
  · rw [foldl_applyLine_of_readLine hmap]

end EnvFile

end NginxAdmin.Desktop
