import Mathlib.Data.List.Lex
import NginxAdmin.Lib.Utf8

/-!
# Paths of bytes

Names are bytes, and a path is the bytes of its names with separators between them. Paths are compared by their components, not
by their bytes, and need not be text (`lossy`). `components_joinAll`, `joinAll_inj`: below a root the names tell paths apart.
-/

namespace NginxAdmin

/-- The bytes of a path or of a name. -/
abbrev OsPath := List UInt8

namespace OsPath

def slash : UInt8 := 0x2F

def dot : UInt8 := 0x2E

/-- What `join` puts between a path and a name. -/
def separator (path : OsPath) : OsPath :=
  match path.getLast? with
  | none => []
  | some b => if b = slash then [] else [slash]

/-- `Path::join` with the name of an entry. -/
def join (path name : OsPath) : OsPath := path ++ path.separator ++ name

inductive Component where
  | rootDir
  | curDir
  | parentDir
  | normal (name : OsPath)
deriving DecidableEq, Repr

/-- The component that stands between two separators; `.` is none there. -/
def component (piece : OsPath) : Option Component :=
  if piece = [] ∨ piece = [dot] then none
  else if piece = [dot, dot] then some .parentDir
  else some (.normal piece)

def pieces (path : OsPath) : List OsPath := path.splitOn slash

/-- What a path starts with: the root, or a first `.`. -/
def start (path : OsPath) : List Component :=
  if path.head? = some slash then [.rootDir]
  else if path.pieces.head? = some [dot] then [.curDir]
  else []

def components (path : OsPath) : List Component := path.start ++ path.pieces.filterMap component

/-- The derived order: by the kind, then by the bytes of the name. -/
def Component.rank : Component → List Nat
  | rootDir => [0]
  | curDir => [1]
  | parentDir => [2]
  | normal name => 3 :: name.map UInt8.toNat

/-- The key that paths are sorted by. -/
def key (path : OsPath) : List (List Nat) := path.components.map Component.rank

/-- `to_string_lossy().as_bytes()` -/
def lossy (path : OsPath) : List UInt8 := Utf8.encode (Utf8.decode path)

/-- The name of a directory entry. -/
structure IsName (name : OsPath) : Prop where
  ne_empty : name ≠ []
  ne_dot : name ≠ [dot]
  ne_dots : name ≠ [dot, dot]
  no_slash : slash ∉ name
  no_nul : 0 ∉ name

instance (name : OsPath) : Decidable name.IsName :=
  decidable_of_iff (name ≠ [] ∧ name ≠ [dot] ∧ name ≠ [dot, dot] ∧ slash ∉ name ∧ 0 ∉ name)
    ⟨fun ⟨h₁, h₂, h₃, h₄, h₅⟩ => ⟨h₁, h₂, h₃, h₄, h₅⟩, fun ⟨h₁, h₂, h₃, h₄, h₅⟩ => ⟨h₁, h₂, h₃, h₄, h₅⟩⟩

/-- The path of an entry below a root. -/
def joinAll (root : OsPath) (names : List OsPath) : OsPath := names.foldl join root

variable {path name : OsPath} {l l' : List OsPath}

theorem IsName.component (h : IsName name) : component name = some (.normal name) := by
  rw [OsPath.component, if_neg (by simpa using ⟨h.ne_empty, h.ne_dot⟩), if_neg h.ne_dots]

theorem IsName.pieces (h : IsName name) : pieces name = [name] := List.splitOn_eq_singleton h.no_slash

theorem pieces_ne_nil (path : OsPath) : pieces path ≠ [] := List.splitOn_ne_nil _ _

theorem join_slash (path name : OsPath) : join (path ++ [slash]) name = path ++ slash :: name := by simp [join, separator]

theorem join_of_ne {b : UInt8} (hb : b ≠ slash) (hlast : path.getLast? = some b) : path.join name = path ++ slash :: name := by
  simp [join, separator, hlast, hb]

theorem pieces_append_slash (path rest : OsPath) : pieces (path ++ slash :: rest) = pieces path ++ pieces rest :=
  List.splitOn_append_cons_self _ _

/-- A path with its separator and a name. -/
theorem exists_join (hpath : path ≠ []) (name : OsPath) : ∃ before : OsPath, path.join name = before ++ slash :: name ∧
    (before = path ∨ path = before ++ [slash]) := by
  obtain ⟨b, hb⟩ := Option.ne_none_iff_exists'.1 (mt List.getLast?_eq_none_iff.1 hpath)
  by_cases hslash : b = slash
  · obtain ⟨before, rfl⟩ := List.getLast?_eq_some_iff.1 (hslash ▸ hb)
    exact ⟨before, join_slash before name, .inr rfl⟩
  · exact ⟨path, join_of_ne hslash hb, .inl rfl⟩

theorem start_join (hpath : path ≠ []) (name : OsPath) : start (path.join name) = start path := by
  have hhead : (path.join name).head? = path.head? := by
    rw [join, List.append_assoc, List.head?_append_of_ne_nil _ hpath]
  have hpieces : (pieces (path.join name)).head? = (pieces path).head? := by
    obtain ⟨before, hjoin, hbefore⟩ := exists_join hpath name
    rw [hjoin, pieces_append_slash, List.head?_append_of_ne_nil _ (pieces_ne_nil _)]
    obtain rfl | rfl := hbefore
    · rfl
    · rw [pieces_append_slash, List.head?_append_of_ne_nil _ (pieces_ne_nil _)]
  rw [start, start, hhead, hpieces]

/-- The last separator of a path does not count. -/
theorem filterMap_pieces_slash (path : OsPath) :
    (pieces (path ++ [slash])).filterMap component = (pieces path).filterMap component := by
  rw [pieces_append_slash, List.filterMap_append]
  simp [pieces, component]

theorem components_join (h : IsName name) (path : OsPath) : components (path.join name) = components path ++ [.normal name] := by
  by_cases hpath : path = []
  · subst hpath
    have hhead : name.head? ≠ some slash := fun he => h.no_slash (List.mem_of_head? he)
    have hpieces : (pieces name).head? ≠ some [dot] := by
      rw [h.pieces]
      exact fun he => h.ne_dot (Option.some.inj he)
    have hjoin : join [] name = name := rfl
    rw [hjoin, components, start, if_neg hhead, if_neg hpieces, h.pieces, List.filterMap_cons_some h.component]
    rfl
  · obtain ⟨before, hjoin, hbefore⟩ := exists_join hpath name
    have hcomponents : (pieces before).filterMap component = (pieces path).filterMap component := by
      obtain rfl | rfl := hbefore
      · rfl
      · rw [filterMap_pieces_slash]
    rw [components, start_join hpath, hjoin, pieces_append_slash, List.filterMap_append, hcomponents, h.pieces,
      List.filterMap_cons_some h.component, components, List.append_assoc]
    rfl

theorem components_joinAll (h : ∀ n ∈ l, IsName n) (root : OsPath) :
    components (joinAll root l) = components root ++ l.map .normal := by
  induction l generalizing root with
  | nil => exact (List.append_nil _).symm
  | cons n l ih =>
    rw [List.forall_mem_cons] at h
    rw [joinAll, List.foldl_cons, ← joinAll, ih h.2, components_join h.1, List.append_assoc]
    rfl

theorem joinAll_inj (h : ∀ n ∈ l, IsName n) (h' : ∀ n ∈ l', IsName n) {root : OsPath}
    (heq : components (joinAll root l) = components (joinAll root l')) : l = l' := by
  rw [components_joinAll h, components_joinAll h'] at heq
  exact List.map_injective_iff.2 (fun a b => Component.normal.inj) (List.append_cancel_left heq)

theorem rank_injective : Function.Injective Component.rank := by
  have hbytes : Function.Injective (List.map UInt8.toNat) := List.map_injective_iff.2 fun a b => UInt8.toNat_inj.1
  intro a b h
  cases a with
  | normal name =>
    cases b with
    | normal name' => rw [hbytes (List.cons.inj h).2]
    | rootDir | curDir | parentDir => simp [Component.rank] at h
  | rootDir | curDir | parentDir =>
    cases b with
    | normal name' => simp [Component.rank] at h
    | rootDir | curDir | parentDir => first | rfl | simp [Component.rank] at h

/-- Paths that are sorted alike have the same components. -/
theorem key_inj {p q : OsPath} : key p = key q ↔ components p = components q :=
  (List.map_injective_iff.2 rank_injective).eq_iff

theorem key_joinAll (h : ∀ n ∈ l, IsName n) (root : OsPath) :
    key (joinAll root l) = key root ++ l.map fun n => 3 :: n.map UInt8.toNat := by
  rw [key, components_joinAll h, List.map_append, List.map_map]
  rfl

end OsPath

end NginxAdmin
