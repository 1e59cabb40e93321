import Mathlib.Data.List.Basic
import Mathlib.Tactic.Common

/-!
# The syntax of nginx configuration files

A file is scanned into words, `;`, `{` and `}`: blanks separate words, a word that starts with a quote ends at the next
one, `\` protects the character after it, `${` is part of a word and `#` starts a comment where a word could start. The
tokens are then read as simple directives and blocks (`parse`).

`Writes text ds` says that `text`, wherever a directive may start, reads as the directives `ds`.
-/

namespace NginxAdmin.NginxConf

inductive Token where
  | word (w : String)
  | semicolon
  | lbrace
  | rbrace
deriving DecidableEq

inductive Quote where
  | bare
  | double
  | single
deriving DecidableEq

/-- Where the scanner is: between words, in a comment, after a closing quote, or in a word (after a `$`, after a
backslash) of which `acc` is the part so far, last character first. -/
inductive Mode where
  | between
  | comment
  | closed
  | word (quote : Quote) (dollar escaped : Bool) (acc : List Char)
deriving DecidableEq

def isBlank (c : Char) : Bool := c == ' ' || c == '\t' || c == '\r' || c == '\n'

/-- The character that a backslash and `c` stand for. -/
def escapeOf (c : Char) : Option Char :=
  if c = '"' || c = '\'' || c = '\\' then some c
  else if c = 't' then some '\t'
  else if c = 'r' then some '\r'
  else if c = 'n' then some '\n'
  else none

def unescape : List Char → List Char
  | [] => []
  | [c] => [c]
  | c :: d :: cs =>
    match if c = '\\' then escapeOf d else none with
    | some e => e :: unescape cs
    | none => c :: unescape (d :: cs)

def wordOf (acc : List Char) : Token := .word (String.ofList (unescape acc.reverse))

/-- A character where a word could start. -/
def Mode.begin (c : Char) : Mode × List Token :=
  if isBlank c then (between, [])
  else if c = ';' then (between, [.semicolon])
  else if c = '\x7b' then (between, [.lbrace])
  else if c = '\x7d' then (between, [.rbrace])
  else if c = '#' then (comment, [])
  else if c = '\\' then (word .bare false true [c], [])
  else if c = '"' then (word .double false false [], [])
  else if c = '\'' then (word .single false false [], [])
  else if c = '$' then (word .bare true false [c], [])
  else (word .bare false false [c], [])

/-- A character of a word that is not quoted: a `}` is one like the others. -/
def Mode.inBare (acc : List Char) (c : Char) : Mode × List Token :=
  if isBlank c then (between, [wordOf acc])
  else if c = ';' then (between, [wordOf acc, .semicolon])
  else if c = '\x7b' then (between, [wordOf acc, .lbrace])
  else (word .bare false false (c :: acc), [])

def Mode.inQuotes (quote : Quote) (mark : Char) (acc : List Char) (c : Char) : Mode × List Token :=
  if c = mark then (closed, [wordOf acc]) else (word quote false false (c :: acc), [])

def Mode.inWord (quote : Quote) (dollar escaped : Bool) (acc : List Char) (c : Char) : Mode × List Token :=
  if escaped then (word quote dollar false (c :: acc), [])
  else if c = '\x7b' && dollar then (word quote dollar false (c :: acc), [])
  else if c = '\\' then (word quote false true (c :: acc), [])
  else if c = '$' then (word quote true false (c :: acc), [])
  else
    match quote with
    | .bare => inBare acc c
    | .double => inQuotes .double '"' acc c
    | .single => inQuotes .single '\'' acc c

/-- One character; `none` is a syntax error. -/
def Mode.step : Mode → Char → Option (Mode × List Token)
  | between, c => some (begin c)
  | comment, c => some (if c = '\n' then between else comment, [])
  | closed, c =>
    if isBlank c then some (between, [])
    else if c = ';' then some (between, [.semicolon])
    else if c = '\x7b' then some (between, [.lbrace])
    else if c = ')' then some (begin c)
    else none
  | word quote dollar escaped acc, c => some (inWord quote dollar escaped acc c)

def scan : Mode → List Char → Option (Mode × List Token)
  | m, [] => some (m, [])
  | m, c :: cs => (m.step c).bind fun p => (scan p.1 cs).map fun q => (q.1, p.2 ++ q.2)

inductive Directive where
  | simple (args : List String)
  | block (args : List String) (body : List Directive)

namespace Directive

/-- The first word of a simple directive. -/
def simpleName? : Directive → Option String
  | simple args => args.head?
  | block .. => none

/-- The first word of a directive, and whether it is a block. -/
def heading : Directive → Bool × Option String
  | simple args => (false, args.head?)
  | block args _ => (true, args.head?)

/-- The first word of a block, and the directives in it. -/
def block? : Directive → Option (Option String × List (Bool × Option String))
  | simple _ => none
  | block args body => some (args.head?, body.map heading)

end Directive

/-- What has been read: the open blocks, innermost first, each with the directives before it; the words since the last
directive; the directives of the innermost block. -/
structure Reader where
  stack : List (List String × List Directive)
  args : List String
  done : List Directive

def Reader.feed (r : Reader) : Token → Option Reader
  | .word w => some { r with args := r.args ++ [w] }
  | .semicolon => if r.args = [] then none else some { r with args := [], done := r.done ++ [.simple r.args] }
  | .lbrace => if r.args = [] then none else some ⟨(r.args, r.done) :: r.stack, [], []⟩
  | .rbrace =>
    if r.args = [] then
      match r.stack with
      | [] => none
      | (args, outer) :: stack => some ⟨stack, [], outer ++ [.block args r.done]⟩
    else none

def Reader.feedAll (r : Reader) (ts : List Token) : Option Reader := ts.foldlM feed r

/-- A whole file. -/
def parse (text : String) : Option (List Directive) :=
  (scan .between text.toList).bind fun p =>
    if p.1 = .between ∨ p.1 = .comment then
      (Reader.feedAll ⟨[], [], []⟩ p.2).bind fun r => if r.args = [] ∧ r.stack.isEmpty then some r.done else none
    else none

/-! ### Texts that read as directives wherever they stand -/

theorem scan_append {m : Mode} {cs ds : List Char} :
    scan m (cs ++ ds) = (scan m cs).bind fun p => (scan p.1 ds).map fun q => (q.1, p.2 ++ q.2) := by
  induction cs generalizing m with
  | nil => simp [scan]
  | cons c cs ih =>
    rw [List.cons_append, scan, scan]
    cases m.step c with
    | none => rfl
    | some p =>
      simp only [Option.bind_some, ih]
      cases scan p.1 cs with
      | none => rfl
      | some q => simp [Option.map_map, Function.comp_def]

/-- From between words to between words. -/
def Scans (cs : List Char) (ts : List Token) : Prop := scan .between cs = some (.between, ts)

instance (cs : List Char) (ts : List Token) : Decidable (Scans cs ts) := inferInstanceAs (Decidable (_ = _))

theorem Scans.append {cs ds : List Char} {ts us : List Token} (h : Scans cs ts) (h' : Scans ds us) :
    Scans (cs ++ ds) (ts ++ us) := by
  rw [Scans] at *
  rw [scan_append, h, Option.bind_some, h']
  rfl

/-- The tokens of the directives `ds`. -/
def Produces (ts : List Token) (ds : List Directive) : Prop :=
  ∀ r : Reader, r.args = [] → r.feedAll ts = some { r with done := r.done ++ ds }

theorem Produces.nil : Produces [] [] := fun r _ => by simp [Reader.feedAll]

theorem Produces.append {ts us : List Token} {ds es : List Directive} (h : Produces ts ds) (h' : Produces us es) :
    Produces (ts ++ us) (ds ++ es) := by
  intro r hr
  have hfirst := h r hr
  have hsecond := h' { r with done := r.done ++ ds } hr
  rw [Reader.feedAll] at *
  rw [List.foldlM_append, hfirst]
  exact hsecond.trans (by rw [List.append_assoc])

theorem feedAll_words (r : Reader) (ws : List String) (ts : List Token) :
    r.feedAll (ws.map .word ++ ts) = { r with args := r.args ++ ws }.feedAll ts := by
  induction ws generalizing r with
  | nil => simp
  | cons w ws ih =>
    have hstep : r.feedAll (.word w :: (ws.map .word ++ ts)) =
        { r with args := r.args ++ [w] }.feedAll (ws.map Token.word ++ ts) := rfl
    rw [List.map_cons, List.cons_append, hstep, ih]
    simp

theorem Produces.simple {ws : List String} (hne : ws ≠ []) : Produces (ws.map .word ++ [.semicolon]) [.simple ws] := by
  intro r hr
  rw [feedAll_words]
  simp [Reader.feedAll, Reader.feed, hr, hne]

theorem Produces.block {ws : List String} {ts : List Token} {ds : List Directive} (hne : ws ≠ []) (h : Produces ts ds) :
    Produces (ws.map .word ++ [.lbrace] ++ ts ++ [.rbrace]) [.block ws ds] := by
  intro r hr
  have hbody := h ⟨(ws, r.done) :: r.stack, [], []⟩ rfl
  rw [List.append_assoc, List.append_assoc, feedAll_words, hr, List.nil_append]
  rw [Reader.feedAll] at *
  have hopen : Reader.feed { r with args := ws } .lbrace = some ⟨(ws, r.done) :: r.stack, [], []⟩ := by
    simp [Reader.feed, hne]
  rw [List.singleton_append, List.foldlM_cons, hopen]
  rw [Option.bind_eq_bind, Option.bind_some, List.foldlM_append, hbody]
  simp [Reader.feed]

/-- The text `cs` reads as the directives `ds`. -/
def Writes (cs : List Char) (ds : List Directive) : Prop := ∃ ts, Scans cs ts ∧ Produces ts ds

theorem Writes.nil : Writes [] [] := ⟨[], rfl, .nil⟩

theorem Writes.append {cs cs' : List Char} {ds ds' : List Directive} (h : Writes cs ds) (h' : Writes cs' ds') :
    Writes (cs ++ cs') (ds ++ ds') := by
  obtain ⟨ts, hscan, hds⟩ := h
  obtain ⟨ts', hscan', hds'⟩ := h'
  exact ⟨ts ++ ts', hscan.append hscan', hds.append hds'⟩

theorem Writes.simple {cs : List Char} {ws : List String} (h : Scans cs (ws.map .word ++ [.semicolon])) (hne : ws ≠ []) :
    Writes cs [.simple ws] := ⟨_, h, .simple hne⟩

theorem Writes.block {cs cs' cs'' : List Char} {ws : List String} {ds : List Directive}
    (h : Scans cs (ws.map .word ++ [.lbrace])) (hne : ws ≠ []) (hbody : Writes cs' ds) (hend : Scans cs'' [.rbrace]) :
    Writes (cs ++ cs' ++ cs'') [.block ws ds] := by
  obtain ⟨ts, hscan, hds⟩ := hbody
  exact ⟨_, (h.append hscan).append hend, .block hne hds⟩

theorem parse_of_writes {text : String} {ds : List Directive} (h : Writes text.toList ds) : parse text = some ds := by
  obtain ⟨ts, hscan, hds⟩ := h
  have hread := hds ⟨[], [], []⟩ rfl
  rw [Scans] at hscan
  simp [parse, hscan, hread]

theorem Writes.flatMap {α : Type} {f : α → List Char} {g : α → Directive} {l : List α}
    (h : ∀ a ∈ l, Writes (f a) [g a]) : Writes (l.flatMap f) (l.map g) := by
  induction l with
  | nil => exact .nil
  | cons a l ih =>
    obtain ⟨ha, hl⟩ := List.forall_mem_cons.1 h
    exact ha.append (ih hl)

/-- A character that means nothing to the scanner. -/
def isPlain (c : Char) : Bool :=
  !isBlank c && c != ';' && c != '\x7b' && c != '\x7d' && c != '#' && c != '\\' && c != '"' && c != '\'' && c != '$'

theorem begin_plain {c : Char} (h : isPlain c = true) : Mode.begin c = (.word .bare false false [c], []) := by
  simp only [isPlain, Bool.and_eq_true, Bool.not_eq_true', bne_iff_ne, ne_eq] at h
  simp [Mode.begin, h]

theorem inWord_plain {c : Char} (h : isPlain c = true) (acc : List Char) :
    Mode.inWord .bare false false acc c = (.word .bare false false (c :: acc), []) := by
  simp only [isPlain, Bool.and_eq_true, Bool.not_eq_true', bne_iff_ne, ne_eq] at h
  simp [Mode.inWord, Mode.inBare, h]

theorem scan_word {w : List Char} (h : ∀ c ∈ w, isPlain c = true) (acc : List Char) :
    scan (.word .bare false false acc) w = some (.word .bare false false (w.reverse ++ acc), []) := by
  induction w generalizing acc with
  | nil => rfl
  | cons c w ih =>
    obtain ⟨hc, hw⟩ := List.forall_mem_cons.1 h
    rw [scan, Mode.step, inWord_plain hc, Option.bind_some, ih hw]
    simp

theorem scan_plain {w : List Char} (hne : w ≠ []) (h : ∀ c ∈ w, isPlain c = true) :
    scan .between w = some (.word .bare false false w.reverse, []) := by
  obtain ⟨c, w, rfl⟩ := List.exists_cons_of_ne_nil hne
  obtain ⟨hc, hw⟩ := List.forall_mem_cons.1 h
  rw [scan, Mode.step, begin_plain hc, Option.bind_some, scan_word hw]
  simp

theorem unescape_plain {w : List Char} (h : ∀ c ∈ w, isPlain c = true) : unescape w = w := by
  induction w with
  | nil => rfl
  | cons c w ih =>
    obtain ⟨hc, hw⟩ := List.forall_mem_cons.1 h
    have hne : c ≠ '\\' := by
      rintro rfl
      exact absurd hc (by decide)
    cases w with
    | nil => rfl
    | cons d w =>
      rw [unescape, if_neg hne, ih hw]

/-- A word made of plain characters. -/
def IsWord (w : String) : Prop := w.toList ≠ [] ∧ ∀ c ∈ w.toList, isPlain c = true

instance (w : String) : Decidable (IsWord w) :=
  @instDecidableAnd _ _ inferInstance (List.decidableBAll _ w.toList)

theorem wordOf_reverse {w : String} (h : IsWord w) : wordOf w.toList.reverse = .word w := by
  rw [wordOf, List.reverse_reverse, unescape_plain h.2, String.ofList_toList]

theorem scans_word_blank {w : String} (h : IsWord w) : Scans (w.toList ++ [' ']) [.word w] := by
  rw [Scans, scan_append, scan_plain h.1 h.2, Option.bind_some, ← wordOf_reverse h]
  rfl

theorem scans_word_end {w : String} (h : IsWord w) : Scans (w.toList ++ [';', '\n']) [.word w, .semicolon] := by
  rw [Scans, scan_append, scan_plain h.1 h.2, Option.bind_some, ← wordOf_reverse h]
  rfl

theorem isWord_toString (n : Nat) : IsWord (toString n) := by
  have hdigit : ∀ c : Char, c.isDigit = true → isPlain c = true := by
    intro c hc
    have hne : ∀ d : Char, d.isDigit = false → c ≠ d := fun d hd he => by rw [he, hd] at hc; cases hc
    simp [isPlain, isBlank, hne ' ' (by decide), hne '\t' (by decide), hne '\r' (by decide), hne '\n' (by decide),
      hne ';' (by decide), hne '\x7b' (by decide), hne '\x7d' (by decide), hne '#' (by decide), hne '\\' (by decide),
      hne '"' (by decide), hne '\'' (by decide), hne '$' (by decide)]
  rw [IsWord, Nat.toString_eq_repr, Nat.toList_repr]
  exact ⟨Nat.toDigits_ne_nil, fun c hc => hdigit c (Nat.isDigit_of_mem_toDigits (by decide) (by decide) hc)⟩

end NginxAdmin.NginxConf
