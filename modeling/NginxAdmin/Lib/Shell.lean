import NginxAdmin.Lib.Text

/-!
# The words of a shell command

A command is read character by character: blanks separate words, single quotes protect all that stands between them,
double quotes all but `$`, the backquote and the backslash, and a backslash protects one character. Where the shell would
expand something, start a comment or continue a line, the reader gives up, and so it does at a NUL.

`tokens_quoted`: a text in single quotes, in which each single quote is replaced by `'"'"'`, is one word, wherever a word
can start.
-/

namespace NginxAdmin.Shell

inductive Token where
  | word (w : String)
  | operator (c : Char)
deriving DecidableEq

/-- Where the reader is: between words, or in a word of which `acc` is the part so far, last character first. -/
inductive Mode where
  | between
  | bare (acc : List Char)
  | escape (acc : List Char)
  | single (acc : List Char)
  | double (acc : List Char)
  | doubleEscape (acc : List Char)
deriving DecidableEq

def isBlank (c : Char) : Bool := c == ' ' || c == '\t'

def isOperator (c : Char) : Bool := ['|', '&', ';', '<', '>', '(', ')', '\n'].contains c

/-- Outside quotes the shell would do more with this character than to take it for itself. -/
def isExpanded (c : Char) : Bool :=
  ['$', '\x60', '*', '?', '[', ']', '#', '~', '=', '%', '\x7b', '\x7d', '\x00'].contains c

def wordOf (acc : List Char) : Token := .word (String.ofList acc.reverse)

def Mode.acc : Mode → List Char
  | between => []
  | bare acc | escape acc | single acc | double acc | doubleEscape acc => acc

/-- The word that ends here. -/
def Mode.ended : Mode → List Token
  | bare acc => [wordOf acc]
  | _ => []

/-- A character outside quotes. -/
def Mode.outside (m : Mode) (c : Char) : Option (Mode × List Token) :=
  if isBlank c then some (between, m.ended)
  else if isOperator c then some (between, m.ended ++ [.operator c])
  else if c = '\'' then some (single m.acc, [])
  else if c = '"' then some (double m.acc, [])
  else if c = '\\' then some (escape m.acc, [])
  else if isExpanded c then none
  else some (bare (c :: m.acc), [])

/-- One character: where the reader is after it, and the tokens that it ends. -/
def Mode.step : Mode → Char → Option (Mode × List Token)
  | between, c => outside between c
  | bare acc, c => outside (bare acc) c
  | escape acc, c => if c = '\n' ∨ c = '\x00' then none else some (bare (c :: acc), [])
  | single acc, c =>
    if c = '\'' then some (bare acc, []) else if c = '\x00' then none else some (single (c :: acc), [])
  | double acc, c =>
    if c = '"' then some (bare acc, [])
    else if c = '\\' then some (doubleEscape acc, [])
    else if c = '$' ∨ c = '\x60' ∨ c = '\x00' then none
    else some (double (c :: acc), [])
  | doubleEscape acc, c =>
    if c = '$' ∨ c = '\x60' ∨ c = '"' ∨ c = '\\' then some (double (c :: acc), [])
    else if c = '\n' ∨ c = '\x00' then none
    else some (double (c :: '\\' :: acc), [])

def feed (s : Mode × List Token) (c : Char) : Option (Mode × List Token) :=
  (s.1.step c).map fun p => (p.1, s.2 ++ p.2)

/-- The words and operators of a command, if the quoting rules alone decide them. -/
def tokens (text : String) : Option (List Token) :=
  (text.toList.foldlM feed (.between, [])).bind fun s =>
    match s.1 with
    | .between | .bare _ => some (s.2 ++ s.1.ended)
    | _ => none

/-- What has been read before does not matter to what comes. -/
theorem foldlM_feed (cs : List Char) (m : Mode) (done : List Token) :
    cs.foldlM feed (m, done) = (cs.foldlM feed (m, [])).map fun s => (s.1, done ++ s.2) := by
  induction cs generalizing m done with
  | nil => simp
  | cons c cs ih =>
    rw [List.foldlM_cons, List.foldlM_cons]
    cases hstep : m.step c with
    | none => simp [feed, hstep]
    | some p =>
      obtain ⟨m', ts⟩ := p
      simp only [feed, hstep, Option.map_some, List.nil_append, Option.bind_eq_bind, Option.bind_some]
      rw [ih m' (done ++ ts), ih m' ts, Option.map_map]
      simp [Function.comp_def]

/-- `text` reads as the tokens `ts`, and nothing is left open behind it. -/
def Separated (text : String) (ts : List Token) : Prop :=
  text.toList.foldlM feed (.between, []) = some (.between, ts)

instance (text : String) (ts : List Token) : Decidable (Separated text ts) := inferInstanceAs (Decidable (_ = _))

/-- The text starts with a blank, or there is none. -/
def Spaced (text : String) : Prop := ∀ c ∈ text.toList.head?, isBlank c = true

theorem Separated.append {a b : String} {ts us : List Token} (ha : Separated a ts) (hb : Separated b us) :
    Separated (a ++ b) (ts ++ us) := by
  rw [Separated] at *
  rw [String.toList_append, List.foldlM_append, ha]
  show List.foldlM feed (.between, ts) b.toList = _
  rw [foldlM_feed, hb]
  rfl

/-- Between words, a text goes on with its own tokens. -/
theorem tokens_append {pre post : String} {ts us : List Token} (hpre : Separated pre ts) (hpost : tokens post = some us) :
    tokens (pre ++ post) = some (ts ++ us) := by
  obtain ⟨s, hs, hus⟩ := Option.bind_eq_some_iff.1 hpost
  rw [tokens, String.toList_append, List.foldlM_append, hpre]
  show (List.foldlM feed (.between, ts) post.toList).bind _ = _
  rw [foldlM_feed, hs]
  obtain ⟨m, done⟩ := s
  cases m <;> first | cases hus; simp [Mode.ended] | cases hus

/-- After a word that has ended at its last character, a text that starts with a blank goes on with its own tokens. -/
theorem tokens_word_append {q post : String} {acc : List Char} {us : List Token}
    (hq : q.toList.foldlM feed (.between, []) = some (.bare acc, [])) (hspaced : Spaced post)
    (hpost : tokens post = some us) : tokens (q ++ post) = some (wordOf acc :: us) := by
  cases hcs : post.toList with
  | nil =>
    obtain rfl : post = "" := String.toList_eq_nil_iff.1 hcs
    obtain rfl : [] = us := Option.some.inj hpost
    rw [String.append_empty, tokens, hq]
    rfl
  | cons c cs =>
    have hblank : isBlank c = true := hspaced c (by rw [hcs]; rfl)
    obtain ⟨s, hs, hus⟩ := Option.bind_eq_some_iff.1 hpost
    have hopen : feed (.bare acc, []) c = some (.between, [wordOf acc]) := by
      simp [feed, Mode.step, Mode.outside, hblank, Mode.ended]
    have hfirst : feed (.between, []) c = some (.between, []) := by
      simp [feed, Mode.step, Mode.outside, hblank, Mode.ended]
    rw [hcs, List.foldlM_cons, hfirst, Option.bind_eq_bind, Option.bind_some] at hs
    rw [tokens, String.toList_append, List.foldlM_append, hq, hcs]
    show ((feed (.bare acc, []) c).bind fun s => cs.foldlM feed s).bind _ = _
    rw [hopen, Option.bind_some, foldlM_feed, hs]
    obtain ⟨m, done⟩ := s
    cases m <;> first | cases hus; simp [Mode.ended] | cases hus

/-- The text between single quotes, with the way out for a single quote of its own. -/
def escapeQuote (c : Char) : List Char := if c = '\'' then "'\"'\"'".toList else [c]

def quoted (s : List Char) : List Char := '\'' :: (s.flatMap escapeQuote ++ ['\''])

theorem foldlM_escapeQuote {c : Char} (hc : c ≠ '\x00') (acc : List Char) :
    (escapeQuote c).foldlM feed (.single acc, []) = some (.single (c :: acc), []) := by
  by_cases hquote : c = '\''
  · subst hquote
    rfl
  · simp [escapeQuote, hquote, feed, Mode.step, hc]

theorem foldlM_flatMap_escapeQuote {s : List Char} (h : '\x00' ∉ s) (acc : List Char) :
    (s.flatMap escapeQuote).foldlM feed (.single acc, []) = some (.single (s.reverse ++ acc), []) := by
  induction s generalizing acc with
  | nil => rfl
  | cons c s ih =>
    rw [List.mem_cons, not_or] at h
    rw [List.flatMap_cons, List.foldlM_append, foldlM_escapeQuote (Ne.symm h.1), Option.bind_eq_bind, Option.bind_some,
      ih h.2]
    simp

theorem foldlM_quoted {s : List Char} (h : '\x00' ∉ s) :
    (quoted s).foldlM feed (.between, []) = some (.bare s.reverse, []) := by
  have hopen : feed (.between, []) '\'' = some (.single [], []) := rfl
  rw [quoted, List.foldlM_cons, hopen, Option.bind_eq_bind, Option.bind_some, List.foldlM_append,
    foldlM_flatMap_escapeQuote h, List.append_nil]
  rfl

/-- A quoted text is one word, between whatever words stand before and after it. -/
theorem tokens_quoted {s q : String} (hq : q.toList = quoted s.toList) (h : '\x00' ∉ s.toList) {pre post : String}
    {ts us : List Token} (hpre : Separated pre ts) (hspaced : Spaced post) (hpost : tokens post = some us) :
    tokens (pre ++ q ++ post) = some (ts ++ .word s :: us) := by
  have hword : wordOf s.toList.reverse = .word s := by rw [wordOf, List.reverse_reverse, String.ofList_toList]
  rw [String.append_assoc]
  exact tokens_append hpre (hword ▸ tokens_word_append (hq ▸ foldlM_quoted h) hspaced hpost)

theorem separated_empty : Separated "" [] := rfl

theorem spaced_empty : Spaced "" := fun _ h => by cases h

theorem tokens_empty : tokens "" = some [] := rfl

/-- On its own. -/
theorem tokens_quoted_alone {s q : String} (hq : q.toList = quoted s.toList) (h : '\x00' ∉ s.toList) :
    tokens q = some [.word s] := by
  have halone := tokens_quoted hq h separated_empty spaced_empty tokens_empty
  simpa using halone

/-- A character that stands for itself in the words of every shell. -/
def isPlain (c : Char) : Bool := c.isAlphanum || ['+', '/', '=', '-', '_', '.', ',', ':', '@'].contains c

/-- The words of a text of blanks and plain characters; `acc` is the word so far, last character first. -/
def plainWords (acc : List Char) : List Char → Option (List String)
  | [] => some (if acc = [] then [] else [String.ofList acc.reverse])
  | c :: cs =>
    if isBlank c then (plainWords [] cs).map fun ws => if acc = [] then ws else String.ofList acc.reverse :: ws
    else if isPlain c then plainWords (c :: acc) cs
    else none

/-- The name and the arguments of a simple command without quotes. A first word with `=` would be an assignment. -/
def simpleCommand (text : String) : Option (List String) :=
  (plainWords [] text.toList).bind fun ws =>
    match ws with
    | [] => none
    | name :: _ => if '=' ∈ name.toList then none else some ws

def PlainWord (w : String) : Prop := w ≠ "" ∧ ∀ c ∈ w.toList, isPlain c = true

theorem plainWord_of_all {w : String} (hne : w ≠ "") (h : w.toList.all isPlain = true) : PlainWord w :=
  ⟨hne, List.all_eq_true.1 h⟩

theorem not_isBlank_of_isPlain {c : Char} (h : isPlain c = true) : isBlank c = false := by
  rw [Bool.eq_false_iff]
  intro hblank
  simp only [isBlank, Bool.or_eq_true, beq_iff_eq] at hblank
  rcases hblank with rfl | rfl <;> exact absurd h (by decide)

theorem plainWords_append {w : List Char} (h : ∀ c ∈ w, isPlain c = true) (acc cs : List Char) :
    plainWords acc (w ++ cs) = plainWords (w.reverse ++ acc) cs := by
  induction w generalizing acc with
  | nil => rfl
  | cons c w ih =>
    rw [List.forall_mem_cons] at h
    rw [List.cons_append, plainWords, not_isBlank_of_isPlain h.1, if_neg Bool.false_ne_true, if_pos h.1, ih h.2]
    simp

/-- The words of a command are those that were put together. -/
theorem plainWords_join {w : String} {ws : List String} (h : ∀ w' ∈ w :: ws, PlainWord w') :
    plainWords [] (Text.join " " (w :: ws)).toList = some (w :: ws) := by
  have hne : ∀ {w : String}, PlainWord w → w.toList.reverse ≠ [] := fun hw hnil =>
    hw.1 (String.toList_eq_nil_iff.1 (List.reverse_eq_nil_iff.1 hnil))
  induction ws generalizing w with
  | nil =>
    have hw := h w List.mem_cons_self
    have hlast := plainWords_append hw.2 [] []
    rw [List.append_nil, List.append_nil] at hlast
    rw [Text.join, hlast, plainWords, if_neg (hne hw), List.reverse_reverse, String.ofList_toList]
  | cons w' ws ih =>
    have hw := h w List.mem_cons_self
    have hrest := ih fun v hv => h v (List.mem_cons_of_mem _ hv)
    have hjoin : Text.join " " (w :: w' :: ws) = w ++ " " ++ Text.join " " (w' :: ws) := rfl
    rw [hjoin, String.toList_append, String.toList_append, List.append_assoc, plainWords_append hw.2, List.append_nil]
    show plainWords w.toList.reverse (' ' :: (Text.join " " (w' :: ws)).toList) = _
    rw [plainWords, if_pos (by decide), hrest, Option.map_some, if_neg (hne hw), List.reverse_reverse, String.ofList_toList]

end NginxAdmin.Shell
