import NginxAdmin.Lib.Text

/-!
# Paths and directory trees

A path is its text (`PathBuf`); the directory it denotes is given by its components (`location`).
A directory is the list of its entries in the order in which they are enumerated.
-/

namespace NginxAdmin

abbrev PathBuf := String

/-- The components of a path: `/` for the root, then the names between the separators. -/
abbrev Location := List String

namespace PathBuf

/-- The names between the separators: repeated separators and `.` do not count. -/
def names (l : List Char) : List (List Char) :=
  (l.splitOn '/').filter fun c => decide (c ≠ [] ∧ c ≠ ['.'])

def location (p : PathBuf) : Location :=
  (if p.toList.head? = some '/' then ["/"] else []) ++ (names p.toList).map String.ofList

/-- `p` with the separator that `join` puts between `p` and a name. -/
def withSlash (p : PathBuf) : PathBuf :=
  if p = "" then "" else if Text.endsWith p "/" then p else p ++ "/"

/-- `Path::join` with a relative name. -/
def join (p : PathBuf) (name : String) : PathBuf := p.withSlash ++ name

/-- Neither of two directories lies in the other (in particular they differ). -/
def Apart (l l' : Location) : Prop := ¬ l <+: l' ∧ ¬ l' <+: l

instance (l l' : Location) : Decidable (Apart l l') := inferInstanceAs (Decidable (_ ∧ _))

theorem Apart.ne {l l' : Location} (h : Apart l l') : l ≠ l' := fun e => h.1 (e ▸ List.prefix_rfl)

theorem names_append_slash (l l' : List Char) : names (l ++ '/' :: l') = names l ++ names l' := by
  simp only [names, List.splitOn_append_cons_self, List.filter_append]

theorem names_nil : names [] = [] := by decide

/-- A non-empty path with its separator is some text followed by the separator. -/
theorem withSlash_eq {p : PathBuf} (hp : p ≠ "") :
    ∃ l, p.withSlash.toList = l ++ ['/'] ∧ names l = names p.toList ∧
      p.withSlash.toList.head? = p.toList.head? := by
  simp only [withSlash, hp, ↓reduceIte]
  split
  · rename_i h
    obtain ⟨l, hl⟩ : "/".toList <:+ p.toList := by simpa [Text.endsWith] using h
    refine ⟨l, hl.symm, ?_, rfl⟩
    rw [← hl, show "/".toList = '/' :: [] from rfl, names_append_slash, names_nil, List.append_nil]
  · refine ⟨p.toList, by simp, rfl, ?_⟩
    have : p.toList ≠ [] := by simpa using hp
    cases h : p.toList with
    | nil => exact absurd h this
    | cons c l => simp [h]

/-- Texts with their separators are prefixes of each other only along the directory tree. -/
theorem location_prefix {p q : PathBuf} (h : p.withSlash.toList <+: q.withSlash.toList) :
    p.location <+: q.location := by
  by_cases hp : p = ""
  · subst hp; simp [location, names_nil]
  have hq : q ≠ "" := by
    rintro rfl
    obtain ⟨l, hl, -⟩ := withSlash_eq hp
    rw [hl, show withSlash "" = "" from rfl] at h
    simp at h
  obtain ⟨l, hl, hln, hlh⟩ := withSlash_eq hp
  obtain ⟨m, hm, hmn, hmh⟩ := withSlash_eq hq
  obtain ⟨z, hz⟩ := h
  have hhead : p.toList.head? = q.toList.head? := by
    rw [← hlh, ← hmh, ← hz, hl]
    cases l <;> rfl
  have hnames : names q.toList = names p.toList ++ names z := by
    have hslash : names (m ++ '/' :: []) = names (l ++ '/' :: z) := by
      rw [← hm, ← hz, hl, List.append_assoc]; rfl
    rw [names_append_slash, names_append_slash, names_nil, List.append_nil, hmn, hln] at hslash
    exact hslash
  rw [location, location, hhead, hnames, List.map_append, ← List.append_assoc]
  exact List.prefix_append _ _

end PathBuf

namespace Location

/-- `Path::file_stem` of a name: the text before the last dot, unless the name only starts with one. -/
def fileStem (name : String) : String :=
  let before := (name.toList.reverse.dropWhile (· ≠ '.')).drop 1
  if before = [] then name else String.ofList before.reverse

/-- `Path::with_extension`. -/
def withExtension (l : Location) (ext : String) : Location :=
  match l.getLast? with
  | none => l
  | some name => if name = "/" ∨ name = ".." then l else l.dropLast ++ [fileStem name ++ "." ++ ext]

/-- The order of paths: component by component. -/
def le : Location → Location → Bool
  | [], _ => true
  | _ :: _, [] => false
  | a :: l, b :: m => if a = b then le l m else decide (a ≤ b)

end Location

/-- A directory entry: a file with its bytes, or a directory with its entries. -/
inductive Node where
  | file (content : Bytes)
  | dir (entries : List (String × Node))

abbrev Dir := List (String × Node)

namespace Dir

/-- The node at a relative path. -/
def get? : List String → Dir → Option Node
  | [], d => some (.dir d)
  | n :: rest, d =>
    match d.lookup n with
    | some (.dir d') => get? rest d'
    | some (.file c) => if rest = [] then some (.file c) else none
    | none => none

/-- What is visible at a relative path: nothing, a directory (`some none`) or a file's bytes. -/
def entryAt (p : List String) (d : Dir) : Option (Option Bytes) :=
  match get? p d with
  | none => none
  | some (.dir _) => some none
  | some (.file c) => some (some c)

/-- Puts `node` under `name`, in the place of an entry of that name if there is one. -/
def put (name : String) (node : Node) : Dir → Dir
  | [] => [(name, node)]
  | (n, old) :: rest => if n = name then (name, node) :: rest else (n, old) :: put name node rest

/-- Writes a file; its parent directories must exist, and an old file is replaced. -/
def write : List String → Bytes → Dir → Option Dir
  | [], _, _ => none
  | [n], c, d =>
    match d.lookup n with
    | some (.dir _) => none
    | _ => some (d.put n (.file c))
  | n :: m :: rest, c, d =>
    match d.lookup n with
    | some (.dir d') => (write (m :: rest) c d').map fun d'' => d.put n (.dir d'')
    | _ => none

/-- Creates the directories on a path. -/
def mkdirs : List String → Dir → Option Dir
  | [], d => some d
  | n :: rest, d =>
    match d.lookup n with
    | none => (mkdirs rest []).map fun d' => d.put n (.dir d')
    | some (.dir d') => (mkdirs rest d').map fun d'' => d.put n (.dir d'')
    | some (.file _) => none

theorem mem_put {d : Dir} {name : String} {node : Node} {e : String × Node} (h : e ∈ d.put name node) :
    e = (name, node) ∨ e ∈ d := by
  induction d with
  | nil => exact .inl (List.mem_singleton.1 h)
  | cons e' d ih =>
    obtain ⟨n, old⟩ := e'
    rw [put] at h
    split at h
    · rcases List.mem_cons.1 h with h | h
      · exact .inl h
      · exact .inr (List.mem_cons_of_mem _ h)
    · rcases List.mem_cons.1 h with rfl | h
      · exact .inr List.mem_cons_self
      · exact (ih h).imp_right (List.mem_cons_of_mem _)

@[simp] theorem lookup_put_self (name : String) (node : Node) (d : Dir) :
    (d.put name node).lookup name = some node := by
  induction d with
  | nil => simp [put]
  | cons e d ih =>
    obtain ⟨n, old⟩ := e
    by_cases h : n = name
    · simp [put, h]
    · simp [put, h, List.lookup_cons, beq_false_of_ne (Ne.symm h), ih]

theorem lookup_put_ne {name name' : String} (h : name' ≠ name) (node : Node) (d : Dir) :
    (d.put name node).lookup name' = d.lookup name' := by
  induction d with
  | nil => simp [put, List.lookup_cons, beq_false_of_ne h]
  | cons e d ih =>
    obtain ⟨n, old⟩ := e
    by_cases hn : n = name
    · subst hn; simp [put, List.lookup_cons, beq_false_of_ne h]
    · simp only [put, hn, ↓reduceIte, List.lookup_cons, ih]

/-- Two directories (or absences of one) with the same directories and files below them. -/
def SameTree (o o' : Option Dir) : Prop :=
  ∀ p, o.bind (entryAt p) = o'.bind (entryAt p)

theorem SameTree.refl (o : Option Dir) : SameTree o o := fun _ => rfl

end Dir

mutual

/-- The files below a node that stands at `path`, in the order in which a recursive walk meets them. -/
def Node.collect (path : PathBuf) : Node → List (PathBuf × Bytes)
  | .file c => [(path, c)]
  | .dir d => Dir.collect path d

/-- `collect_files`: the files below a directory. -/
def Dir.collect (path : PathBuf) : List (String × Node) → List (PathBuf × Bytes)
  | [] => []
  | (name, node) :: rest => node.collect (path.join name) ++ Dir.collect path rest

end

theorem Dir.mem_collect_put (path : PathBuf) (name : String) (content : Bytes) (d : Dir) :
    (path.join name, content) ∈ Dir.collect path (d.put name (.file content)) := by
  induction d with
  | nil => simp [put, Dir.collect, Node.collect]
  | cons e d ih =>
    obtain ⟨n, old⟩ := e
    by_cases h : n = name
    · simp [put, h, Dir.collect, Node.collect]
    · simp [put, h, Dir.collect, ih]

theorem withSlash_prefix_join (p : PathBuf) (name : String) :
    p.withSlash.toList <+: (p.join name).withSlash.toList := by
  have h : p.withSlash.toList <+: (p.join name).toList := by
    rw [PathBuf.join, String.toList_append]
    exact List.prefix_append _ _
  refine h.trans ?_
  simp only [PathBuf.withSlash]
  split
  · simp [*]
  · split
    · exact List.prefix_rfl
    · rw [String.toList_append]; exact List.prefix_append _ _

mutual

theorem Node.collect_prefix {path : PathBuf} {root : List Char} (node : Node)
    (h : root <+: path.toList) (h' : root <+: path.withSlash.toList) :
    ∀ f ∈ node.collect path, root <+: f.1.toList := by
  cases node with
  | file c =>
    intro f hf
    simp only [Node.collect, List.mem_singleton] at hf
    subst hf; exact h
  | dir d =>
    simp only [Node.collect]
    exact Dir.collect_prefix d h'

theorem Dir.collect_prefix {path : PathBuf} {root : List Char} (d : List (String × Node))
    (h : root <+: path.withSlash.toList) : ∀ f ∈ Dir.collect path d, root <+: f.1.toList := by
  cases d with
  | nil => simp [Dir.collect]
  | cons e d =>
    obtain ⟨name, node⟩ := e
    intro f hf
    simp only [Dir.collect, List.mem_append] at hf
    rcases hf with hf | hf
    · refine Node.collect_prefix node (h.trans ?_) (h.trans (withSlash_prefix_join path name)) f hf
      rw [PathBuf.join, String.toList_append]
      exact List.prefix_append _ _
    · exact Dir.collect_prefix d h f hf

end

end NginxAdmin
