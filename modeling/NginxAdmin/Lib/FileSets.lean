import NginxAdmin.Lib.Files

/-!
# The files of a tree

A directory tree as the set of its files, each with its relative path: `Dir.files`. A walk from a root lists the same files
under their full paths, `Dir.collect_eq`.
-/

namespace NginxAdmin

namespace PathBuf

/-- A name of a directory entry. -/
structure IsName (name : String) : Prop where
  ne_empty : name ≠ ""
  ne_dot : name ≠ "."
  ne_dots : name ≠ ".."
  no_slash : '/' ∉ name.toList
  no_nul : '\x00' ∉ name.toList

/-- A relative path of a file. -/
structure IsRelative (l : List String) : Prop where
  ne_nil : l ≠ []
  names : ∀ n ∈ l, IsName n

def joinAll (root : PathBuf) (l : List String) : PathBuf := l.foldl join root

theorem joinAll_cons (root : PathBuf) (n : String) (l : List String) : joinAll root (n :: l) = joinAll (root.join n) l := rfl

theorem joinAll_ne_empty {root : PathBuf} {l : List String} (h : IsRelative l) : joinAll root l ≠ "" := by
  rw [← List.dropLast_append_getLast h.ne_nil, joinAll, List.foldl_append]
  intro hempty
  obtain ⟨-, hlast⟩ := String.append_eq_empty_iff.1 hempty
  exact (h.names _ (List.getLast_mem h.ne_nil)).ne_empty hlast

theorem names_of_isName {name : String} (h : IsName name) : names name.toList = [name.toList] := by
  have hdot : name.toList ≠ ['.'] := fun he => h.ne_dot (String.toList_inj.1 he)
  rw [names, List.splitOn_eq_singleton h.no_slash, List.filter_cons_of_pos (by simpa using ⟨h.ne_empty, hdot⟩), List.filter_nil]

theorem location_join {name : String} (h : IsName name) (p : PathBuf) : (p.join name).location = p.location ++ [name] := by
  by_cases hp : p = ""
  · subst hp
    have hhead : name.toList.head? ≠ some '/' := fun he => h.no_slash (List.mem_of_head? he)
    have hjoin : join "" name = name := String.empty_append
    rw [hjoin, location, if_neg hhead, names_of_isName h]
    simp [location, names_nil]
  · obtain ⟨l, hl, hnames, hhead⟩ := withSlash_eq hp
    have htext : (p.join name).toList = l ++ '/' :: name.toList := by
      rw [join, String.toList_append, hl, List.append_assoc]
      rfl
    have hfirst : (p.join name).toList.head? = p.toList.head? := by
      rw [htext, ← hhead, hl]
      cases l <;> rfl
    rw [location, hfirst, htext, names_append_slash, hnames, names_of_isName h, location, List.map_append, List.append_assoc]
    simp

theorem location_joinAll {l : List String} (h : ∀ n ∈ l, IsName n) (root : PathBuf) :
    (joinAll root l).location = root.location ++ l := by
  induction l generalizing root with
  | nil => exact (List.append_nil _).symm
  | cons n l ih =>
    rw [joinAll_cons, ih (fun m hm => h m (List.mem_cons_of_mem _ hm)), location_join (h n List.mem_cons_self),
      List.append_assoc]
    rfl

end PathBuf

namespace Location

theorem le_append_left (l a b : Location) : le (l ++ a) (l ++ b) = le a b := by
  induction l with
  | nil => rfl
  | cons x l ih => rw [List.cons_append, List.cons_append, le, if_pos rfl, ih]

theorem le_total (a b : Location) : le a b = true ∨ le b a = true := by
  induction a generalizing b with
  | nil => exact .inl rfl
  | cons x a ih =>
    cases b with
    | nil => exact .inr rfl
    | cons y b =>
      rw [le, le]
      by_cases h : x = y
      · rw [if_pos h, if_pos h.symm]
        exact ih b
      · rw [if_neg h, if_neg (Ne.symm h), decide_eq_true_eq, decide_eq_true_eq]
        exact String.le_total x y

theorem le_cons {x y : String} {a b : Location} : le (x :: a) (y :: b) = true ↔ x ≤ y ∧ (x = y → le a b = true) := by
  rw [le]
  split
  next h => simp [h]
  next h => simp [h]

theorem le_trans {a b c : Location} (h : le a b = true) (h' : le b c = true) : le a c = true := by
  induction a generalizing b c with
  | nil => rfl
  | cons x a ih =>
    cases b with
    | nil => cases h
    | cons y b =>
      cases c with
      | nil => cases h'
      | cons z c =>
        rw [le_cons] at h h' ⊢
        refine ⟨String.le_trans h.1 h'.1, fun hxz => ?_⟩
        have hxy : x = y := String.le_antisymm h.1 (hxz ▸ h'.1)
        exact ih (h.2 hxy) (h'.2 (hxy ▸ hxz))

theorem eq_of_le_of_prefix {a b : Location} (h : le a b = true) (hp : b <+: a) : a = b := by
  induction a generalizing b with
  | nil => exact (List.prefix_nil.1 hp).symm
  | cons x a ih =>
    cases b with
    | nil => cases h
    | cons y b =>
      obtain ⟨rfl, htail⟩ := List.cons_prefix_cons.1 hp
      rw [ih ((le_cons.1 h).2 rfl) htail]

end Location

mutual

def Node.files : Node → List (List String × Bytes)
  | .file c => [([], c)]
  | .dir d => Dir.files d

/-- The files below a directory with their relative paths. -/
def Dir.files : List (String × Node) → List (List String × Bytes)
  | [] => []
  | (name, node) :: rest => (node.files.map fun f => (name :: f.1, f.2)) ++ Dir.files rest

end

mutual

def Node.WellFormed : Node → Prop
  | .file _ => True
  | .dir d => Dir.WellFormed d

/-- Every entry has a name of its own, at every depth. -/
def Dir.WellFormed : List (String × Node) → Prop
  | [] => True
  | (name, node) :: rest => PathBuf.IsName name ∧ name ∉ rest.map Prod.fst ∧ node.WellFormed ∧ Dir.WellFormed rest

end

open PathBuf

mutual

theorem Node.collect_eq (node : Node) (path : PathBuf) :
    node.collect path = node.files.map fun f => (joinAll path f.1, f.2) := by
  cases node with
  | file c => rfl
  | dir d => exact Dir.collect_eq d path

/-- `collect_files` lists the files under their full paths. -/
theorem Dir.collect_eq (d : List (String × Node)) (path : PathBuf) :
    Dir.collect path d = (Dir.files d).map fun f => (joinAll path f.1, f.2) := by
  cases d with
  | nil => rfl
  | cons e d =>
    obtain ⟨name, node⟩ := e
    rw [Dir.collect, Dir.files, List.map_append, List.map_map, Node.collect_eq node, Dir.collect_eq d]
    rfl

end

mutual

theorem Node.names_of_files {node : Node} (h : node.WellFormed) : ∀ f ∈ node.files, ∀ n ∈ f.1, IsName n := by
  cases node with
  | file c =>
    intro f hf n hn
    rw [Node.files, List.mem_singleton] at hf
    rw [hf] at hn
    cases hn
  | dir d =>
    rw [Node.WellFormed] at h
    exact fun f hf => (Dir.isRelative_of_files h f hf).names

theorem Dir.isRelative_of_files {d : List (String × Node)} (h : Dir.WellFormed d) : ∀ f ∈ Dir.files d, IsRelative f.1 := by
  cases d with
  | nil => exact fun f hf => by cases hf
  | cons e d =>
    obtain ⟨name, node⟩ := e
    obtain ⟨hname, -, hnode, hd⟩ := h
    intro f hf
    rw [Dir.files, List.mem_append] at hf
    rcases hf with hf | hf
    · obtain ⟨g, hg, rfl⟩ := List.mem_map.1 hf
      exact ⟨List.cons_ne_nil _ _, List.forall_mem_cons.2 ⟨hname, Node.names_of_files hnode g hg⟩⟩
    · exact Dir.isRelative_of_files hd f hf

end

/-- The path of a file starts with the name of an entry. -/
theorem Dir.cons_of_files {d : List (String × Node)} {f : List String × Bytes} (hf : f ∈ Dir.files d) :
    ∃ n ∈ d.map Prod.fst, ∃ l, f.1 = n :: l := by
  induction d with
  | nil => cases hf
  | cons e d ih =>
    obtain ⟨name, node⟩ := e
    rw [Dir.files, List.mem_append] at hf
    rcases hf with hf | hf
    · obtain ⟨g, -, rfl⟩ := List.mem_map.1 hf
      exact ⟨name, List.mem_cons_self, g.1, rfl⟩
    · obtain ⟨n, hn, hcons⟩ := ih hf
      exact ⟨n, List.mem_cons_of_mem _ hn, hcons⟩

theorem PathBuf.Apart.cons {l m : Location} (h : Apart l m) (n : String) : Apart (n :: l) (n :: m) :=
  ⟨fun hp => h.1 (List.cons_prefix_cons.1 hp).2, fun hp => h.2 (List.cons_prefix_cons.1 hp).2⟩

theorem PathBuf.Apart.of_cons {l m : Location} {n : String} (h : Apart (n :: l) (n :: m)) : Apart l m :=
  ⟨fun hp => h.1 (List.cons_prefix_cons.2 ⟨rfl, hp⟩), fun hp => h.2 (List.cons_prefix_cons.2 ⟨rfl, hp⟩)⟩

theorem PathBuf.Apart.of_head {l m : Location} {n n' : String} (h : n ≠ n') : Apart (n :: l) (n' :: m) :=
  ⟨fun hp => h (List.cons_prefix_cons.1 hp).1, fun hp => h (List.cons_prefix_cons.1 hp).1.symm⟩

mutual

theorem Node.apart_files {node : Node} (h : node.WellFormed) : node.files.Pairwise fun f g => Apart f.1 g.1 := by
  cases node with
  | file c => exact List.pairwise_singleton _ _
  | dir d =>
    rw [Node.WellFormed] at h
    exact Dir.apart_files h

/-- No file stands in the place of a directory of another. -/
theorem Dir.apart_files {d : List (String × Node)} (h : Dir.WellFormed d) :
    (Dir.files d).Pairwise fun f g => Apart f.1 g.1 := by
  cases d with
  | nil => exact .nil
  | cons e d =>
    obtain ⟨name, node⟩ := e
    obtain ⟨-, hnew, hnode, hd⟩ := h
    rw [Dir.files, List.pairwise_append, List.pairwise_map]
    refine ⟨(Node.apart_files hnode).imp fun h => h.cons name, Dir.apart_files hd, ?_⟩
    intro f hf g hg
    obtain ⟨f', -, rfl⟩ := List.mem_map.1 hf
    obtain ⟨n, hn, l, hcons⟩ := Dir.cons_of_files hg
    rw [hcons]
    exact .of_head fun heq => hnew (heq ▸ hn)

end

/-- A file under some directories. -/
def Node.single : List String → Bytes → Node
  | [], c => .file c
  | n :: l, c => .dir [(n, .single l c)]

theorem Node.files_single (l : List String) (c : Bytes) : (Node.single l c).files = [(l, c)] := by
  induction l with
  | nil => rfl
  | cons n l ih =>
    rw [Node.single, Node.files, Dir.files, ih]
    rfl

theorem Node.wellFormed_single {l : List String} (h : ∀ n ∈ l, IsName n) (c : Bytes) : (Node.single l c).WellFormed := by
  induction l with
  | nil => exact trivial
  | cons n l ih => exact ⟨h n List.mem_cons_self, List.not_mem_nil, ih fun m hm => h m (List.mem_cons_of_mem _ hm), trivial⟩

theorem Dir.exists_single {l : List String} (h : IsRelative l) (c : Bytes) :
    ∃ d, Dir.WellFormed d ∧ Dir.files d = [(l, c)] := by
  cases l with
  | nil => exact absurd rfl h.ne_nil
  | cons n l =>
    have htail : ∀ m ∈ l, IsName m := fun m hm => h.names m (List.mem_cons_of_mem _ hm)
    refine ⟨[(n, .single l c)], ⟨h.names n List.mem_cons_self, List.not_mem_nil, Node.wellFormed_single htail c, trivial⟩, ?_⟩
    rw [Dir.files, Node.files_single]
    rfl

/-- Two files whose paths are apart share a tree. -/
theorem Dir.exists_pair {l m : List String} (hl : ∀ n ∈ l, IsName n) (hm : ∀ n ∈ m, IsName n) (h : Apart l m) (x y : Bytes) :
    ∃ d, Dir.WellFormed d ∧ Dir.files d = [(l, x), (m, y)] := by
  induction l generalizing m with
  | nil => exact absurd List.nil_prefix h.1
  | cons a l ih =>
    cases m with
    | nil => exact absurd List.nil_prefix h.2
    | cons b m =>
      rw [List.forall_mem_cons] at hl hm
      by_cases hab : a = b
      · subst hab
        obtain ⟨d, hd, hfiles⟩ := ih hl.2 hm.2 h.of_cons
        refine ⟨[(a, .dir d)], ⟨hl.1, List.not_mem_nil, hd, trivial⟩, ?_⟩
        rw [Dir.files, Node.files, hfiles]
        rfl
      · refine ⟨[(a, .single l x), (b, .single m y)], ⟨hl.1, by simpa using hab, Node.wellFormed_single hl.2 x, hm.1,
          List.not_mem_nil, Node.wellFormed_single hm.2 y, trivial⟩, ?_⟩
        rw [Dir.files, Dir.files, Node.files_single, Node.files_single]
        rfl

end NginxAdmin
