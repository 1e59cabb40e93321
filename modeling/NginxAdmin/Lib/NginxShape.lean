import NginxAdmin.Lib.NginxConf

/-!
# What the words of a configuration do not decide

The scanner and the reader go on in the same way whatever the characters of the words before are. `Writes.shorten`: a text
that reads as directives still does when every run of newlines is cut to two, although quoted words change.
-/

namespace NginxAdmin.NginxConf

def Mode.forget : Mode → Mode
  | word quote dollar escaped _ => word quote dollar escaped []
  | m => m

def Token.forget : Token → Token
  | word _ => word ""
  | t => t

def forget (p : Mode × List Token) : Mode × List Token := (p.1.forget, p.2.map Token.forget)

theorem step_forget (m : Mode) (c : Char) : (m.step c).map forget = (m.forget.step c).map forget := by
  cases m with
  | word quote dollar escaped acc =>
    simp only [Mode.forget, Mode.step, Option.map_some, Mode.inWord]
    split
    · rfl
    split
    · rfl
    split
    · rfl
    split
    · rfl
    cases quote with
    | bare =>
      simp only [Mode.inBare]
      split
      · rfl
      split
      · rfl
      split
      · rfl
      · rfl
    | double =>
      simp only [Mode.inQuotes]
      split <;> rfl
    | single =>
      simp only [Mode.inQuotes]
      split <;> rfl
  | _ => rfl

theorem scan_cons_forget (m : Mode) (c : Char) (cs : List Char) : (scan m (c :: cs)).map forget =
    (m.step c).bind fun p => ((scan p.1 cs).map forget).map fun q => (q.1, p.2.map Token.forget ++ q.2) := by
  rw [scan]
  cases m.step c with
  | none => rfl
  | some p =>
    rw [Option.bind_some, Option.bind_some, Option.map_map, Option.map_map]
    refine congrArg (Option.map · _) (funext fun q => ?_)
    show (_, _) = (_, _)
    rw [List.map_append]
    rfl

theorem scan_forget {m m' : Mode} (h : m.forget = m'.forget) (cs : List Char) :
    (scan m cs).map forget = (scan m' cs).map forget := by
  induction cs generalizing m m' with
  | nil =>
    show some (m.forget, _) = some (m'.forget, _)
    rw [h]
  | cons c cs ih =>
    have hstep : (m.step c).map forget = (m'.step c).map forget := by rw [step_forget, h, ← step_forget]
    rw [scan_cons_forget, scan_cons_forget]
    cases hm : m.step c with
    | none =>
      rw [hm, Option.map_none, eq_comm, Option.map_eq_none_iff] at hstep
      rw [hstep]
    | some p =>
      rw [hm, Option.map_some, eq_comm, Option.map_eq_some_iff] at hstep
      obtain ⟨p', hp', heq⟩ := hstep
      have hmodes : p'.1.forget = p.1.forget := congrArg Prod.fst heq
      have htokens : p'.2.map Token.forget = p.2.map Token.forget := congrArg Prod.snd heq
      rw [hp', Option.bind_some, Option.bind_some, ih hmodes, htokens]

/-- At most two newlines in a row, `n` of which are before. -/
def shortenFrom : Nat → List Char → List Char
  | _, [] => []
  | n, c :: cs =>
    if c = '\n' then if n < 2 then c :: shortenFrom (n + 1) cs else shortenFrom n cs
    else c :: shortenFrom 0 cs

theorem shortenFrom_cons_of_ne {c : Char} (hc : c ≠ '\n') (n : Nat) (cs : List Char) :
    shortenFrom n (c :: cs) = c :: shortenFrom 0 cs := by rw [shortenFrom, if_neg hc]

/-- No run of newlines goes on over another character. -/
theorem shortenFrom_append_of_ne {c : Char} (hc : c ≠ '\n') (n : Nat) (cs ds : List Char) :
    shortenFrom n (cs ++ c :: ds) = shortenFrom n cs ++ c :: shortenFrom 0 ds := by
  induction cs generalizing n with
  | nil => exact shortenFrom_cons_of_ne hc n ds
  | cons d cs ih =>
    rw [List.cons_append, shortenFrom, shortenFrom]
    split
    · split
      · rw [ih, List.cons_append]
      · exact ih n
    · rw [ih, List.cons_append]

theorem shortenFrom_of_not_mem {cs : List Char} (h : '\n' ∉ cs) (n : Nat) : shortenFrom n cs = cs := by
  induction cs generalizing n with
  | nil => rfl
  | cons c cs ih =>
    rw [List.mem_cons, not_or] at h
    rw [shortenFrom_cons_of_ne (Ne.symm h.1), ih h.2]

/-- A newline changes nothing but a word. -/
def Quiet (m : Mode) : Prop := ∃ m', m.step '\n' = some (m', []) ∧ m'.forget = m.forget

theorem step_newline {m m' : Mode} {ts : List Token} (h : m.step '\n' = some (m', ts)) :
    m' = .between ∨ ∃ quote dollar acc, m' = .word quote dollar false acc := by
  cases m with
  | word quote dollar escaped acc =>
    cases escaped with
    | true =>
      cases h
      exact .inr ⟨_, _, _, rfl⟩
    | false =>
      cases quote with
      | bare =>
        cases h
        exact .inl rfl
      | _ =>
        cases h
        exact .inr ⟨_, _, _, rfl⟩
  | _ =>
    cases h
    exact .inl rfl

theorem quiet_of_newlines {m m' m'' : Mode} {ts ts' : List Token} (h : m.step '\n' = some (m', ts))
    (h' : m'.step '\n' = some (m'', ts')) : Quiet m'' := by
  rcases step_newline h with rfl | ⟨quote, dollar, acc, rfl⟩
  · cases h'
    exact ⟨_, rfl, rfl⟩
  · cases quote with
    | _ =>
      cases h'
      exact ⟨_, rfl, rfl⟩

/-- What is known of the mode after `n` newlines. -/
def Settled (n : Nat) (m : Mode) : Prop :=
  (n = 1 → ∃ (m₀ : Mode) (ts : List Token), m₀.step '\n' = some (m, ts)) ∧ (2 ≤ n → Quiet m)

theorem settled_zero (m : Mode) : Settled 0 m := by
  refine ⟨fun h => ?_, fun h => ?_⟩
  · cases h
  · cases h

theorem Settled.next {n : Nat} {m m' : Mode} {ts : List Token} (h : Settled n m) (hn : n < 2)
    (hstep : m.step '\n' = some (m', ts)) : Settled (n + 1) m' := by
  refine ⟨fun _ => ⟨m, ts, hstep⟩, fun htwo => ?_⟩
  obtain ⟨m₀, ts₀, h₀⟩ := h.1 (by omega)
  exact quiet_of_newlines h₀ hstep

theorem scan_shortenFrom {n : Nat} {m : Mode} (h : Settled n m) (cs : List Char) :
    (scan m (shortenFrom n cs)).map forget = (scan m cs).map forget := by
  induction cs generalizing n m with
  | nil => rfl
  | cons c cs ih =>
    have hcons {k : Nat} (hk : ∀ m' ts, m.step c = some (m', ts) → Settled k m') :
        (scan m (c :: shortenFrom k cs)).map forget = (scan m (c :: cs)).map forget := by
      rw [scan_cons_forget, scan_cons_forget]
      cases hm : m.step c with
      | none => rfl
      | some p => rw [Option.bind_some, Option.bind_some, ih (hk p.1 p.2 hm)]
    rw [shortenFrom]
    split
    next hc =>
      subst hc
      split
      next hn => exact hcons fun m' ts hstep => h.next hn hstep
      next hn =>
        -- the newline that is left out
        obtain ⟨m', hstep, hforget⟩ := h.2 (by omega)
        rw [scan_cons_forget, hstep, Option.bind_some, scan_forget hforget, ih h]
        exact (congrFun Option.map_id _).symm
    next => exact hcons fun m' _ _ => settled_zero m'

theorem Scans.shorten {cs : List Char} {ts : List Token} (h : Scans cs ts) :
    ∃ us, Scans (shortenFrom 0 cs) us ∧ us.map Token.forget = ts.map Token.forget := by
  have hscan := scan_shortenFrom (settled_zero .between) cs
  rw [Scans] at h
  rw [h, Option.map_some, Option.map_eq_some_iff] at hscan
  obtain ⟨⟨m, us⟩, hus, heq⟩ := hscan
  have hm : m.forget = .between := congrArg Prod.fst heq
  have htokens : us.map Token.forget = ts.map Token.forget := congrArg Prod.snd heq
  cases m with
  | between => exact ⟨us, hus, htokens⟩
  | _ => cases hm

/-! ### Reading -/

/-- The blocks of a reader, over others that are open. -/
def framesOver (stack : List (List String × List Directive)) (done : List Directive) :
    List (List String × List Directive) → List (List String × List Directive)
  | [] => stack
  | [frame] => (frame.1, done ++ frame.2) :: stack
  | frame :: frames => frame :: framesOver stack done frames

/-- A reader that goes on where directives `done` have been read. -/
def Reader.over (stack : List (List String × List Directive)) (done : List Directive) (r : Reader) : Reader :=
  ⟨framesOver stack done r.stack, r.args, if r.stack = [] then done ++ r.done else r.done⟩

variable {stack : List (List String × List Directive)} {done : List Directive} {r r' s : Reader}

theorem args_over : (r.over stack done).args = r.args := rfl

theorem feed_over {t : Token} (h : r.feed t = some s) : (r.over stack done).feed t = some (s.over stack done) := by
  cases t with
  | word w =>
    cases h
    rfl
  | semicolon =>
    rw [Reader.feed] at h ⊢
    rw [args_over]
    split at h
    · cases h
    next hargs =>
      cases h
      rw [if_neg hargs, Reader.over, Reader.over]
      by_cases hstack : r.stack = []
      · rw [if_pos hstack, if_pos hstack, List.append_assoc]
      · rw [if_neg hstack, if_neg hstack]
  | lbrace =>
    rw [Reader.feed] at h ⊢
    rw [args_over]
    split at h
    · cases h
    next hargs =>
      cases h
      rw [if_neg hargs, Reader.over, Reader.over, if_neg (List.cons_ne_nil _ _)]
      cases hstack : r.stack with
      | nil => rfl
      | cons f fs => rfl
  | rbrace =>
    rw [Reader.feed] at h ⊢
    rw [args_over]
    split at h
    next hargs =>
      rw [if_pos hargs]
      obtain ⟨frames, args, ds⟩ := r
      cases frames with
      | nil => cases h
      | cons frame rest =>
        cases rest with
        | nil =>
          cases h
          simp [Reader.over, framesOver]
        | cons frame' frames =>
          cases h
          simp [Reader.over, framesOver]
    next => cases h

theorem feedAll_over {ts : List Token} (h : r.feedAll ts = some s) :
    (r.over stack done).feedAll ts = some (s.over stack done) := by
  induction ts generalizing r with
  | nil =>
    cases h
    rfl
  | cons t ts ih =>
    rw [Reader.feedAll, List.foldlM_cons] at h ⊢
    obtain ⟨u, hu, hrest⟩ := Option.bind_eq_some_iff.1 h
    rw [feed_over hu]
    exact ih hrest

/-- The tokens of directives are those that an empty reader reads as them. -/
theorem produces_iff {ts : List Token} {ds : List Directive} :
    Produces ts ds ↔ Reader.feedAll ⟨[], [], []⟩ ts = some ⟨[], [], ds⟩ := by
  constructor
  · exact fun h => h ⟨[], [], []⟩ rfl
  · intro h r hr
    obtain ⟨frames, args, before⟩ := r
    cases hr
    have hover := @feedAll_over frames before _ _ _ h
    simpa [Reader.over, framesOver] using hover

/-- As many open blocks, and words after them or none. -/
structure Alike (r r' : Reader) : Prop where
  stack : r.stack.length = r'.stack.length
  args : r.args = [] ↔ r'.args = []

theorem feed_alike {t t' : Token} (ha : Alike r r') (ht : t.forget = t'.forget) (h : r.feed t = some s) :
    ∃ s', r'.feed t' = some s' ∧ Alike s s' := by
  cases t with
  | word w =>
    cases t' with
    | word w' =>
      cases h
      exact ⟨_, rfl, ha.stack, by simp⟩
    | _ => cases ht
  | semicolon =>
    cases t' with
    | semicolon =>
      rw [Reader.feed] at h ⊢
      split at h
      · cases h
      next hargs =>
        cases h
        rw [if_neg fun h' => hargs (ha.args.2 h')]
        exact ⟨_, rfl, ha.stack, iff_of_true rfl rfl⟩
    | _ => cases ht
  | lbrace =>
    cases t' with
    | lbrace =>
      rw [Reader.feed] at h ⊢
      split at h
      · cases h
      next hargs =>
        cases h
        rw [if_neg fun h' => hargs (ha.args.2 h')]
        exact ⟨_, rfl, congrArg (· + 1) ha.stack, iff_of_true rfl rfl⟩
    | _ => cases ht
  | rbrace =>
    cases t' with
    | rbrace =>
      obtain ⟨frames, args, ds⟩ := r
      obtain ⟨frames', args', ds'⟩ := r'
      rw [Reader.feed] at h ⊢
      split at h
      next hargs =>
        rw [if_pos (ha.args.1 hargs)]
        have hlength := ha.stack
        cases frames with
        | nil => cases h
        | cons frame frames =>
          cases frames' with
          | nil => cases hlength
          | cons frame' frames' =>
            cases h
            exact ⟨_, rfl, Nat.succ.inj hlength, iff_of_true rfl rfl⟩
      next => cases h
    | _ => cases ht

theorem feedAll_alike {ts ts' : List Token} (ha : Alike r r') (ht : ts.map Token.forget = ts'.map Token.forget)
    (h : r.feedAll ts = some s) : ∃ s', r'.feedAll ts' = some s' ∧ Alike s s' := by
  induction ts generalizing r r' ts' with
  | nil =>
    rw [List.map_nil, eq_comm, List.map_eq_nil_iff] at ht
    subst ht
    cases h
    exact ⟨r', rfl, ha⟩
  | cons t ts ih =>
    cases ts' with
    | nil => cases ht
    | cons t' ts' =>
      rw [List.map_cons, List.map_cons, List.cons.injEq] at ht
      rw [Reader.feedAll, List.foldlM_cons] at h
      obtain ⟨u, hu, hrest⟩ := Option.bind_eq_some_iff.1 h
      obtain ⟨u', hu', ha'⟩ := feed_alike ha ht.1 hu
      rw [Reader.feedAll, List.foldlM_cons, hu']
      exact ih ha' ht.2 hrest

theorem Produces.alike {ts ts' : List Token} {ds : List Directive} (h : Produces ts ds)
    (ht : ts.map Token.forget = ts'.map Token.forget) : ∃ ds', Produces ts' ds' := by
  obtain ⟨⟨frames, args, ds'⟩, hs, ha⟩ := feedAll_alike ⟨rfl, Iff.rfl⟩ ht (produces_iff.1 h)
  have hframes : frames = [] := List.length_eq_zero_iff.1 ha.stack.symm
  have hargs : args = [] := ha.args.1 rfl
  subst hframes hargs
  exact ⟨ds', produces_iff.2 hs⟩

theorem Writes.shorten {cs : List Char} {ds : List Directive} (h : Writes cs ds) : ∃ ds', Writes (shortenFrom 0 cs) ds' := by
  obtain ⟨ts, hscan, hds⟩ := h
  obtain ⟨us, hus, hforget⟩ := hscan.shorten
  obtain ⟨ds', hds'⟩ := hds.alike hforget.symm
  exact ⟨ds', us, hus, hds'⟩

/-! ### Arguments -/

/-- The text `v`, as the arguments of a simple directive, reads as the words `ws`. -/
def Reads (v : List Char) (ws : List String) : Prop := Scans (v ++ [';']) (ws.map .word ++ [.semicolon])

instance (v : List Char) (ws : List String) : Decidable (Reads v ws) := inferInstanceAs (Decidable (Scans _ _))

theorem words_of_forget {ts : List Token} {ws : List String} (h : ts.map Token.forget = (ws.map Token.word).map Token.forget) :
    ∃ ws' : List String, ts = ws'.map Token.word := by
  induction ts generalizing ws with
  | nil => exact ⟨[], rfl⟩
  | cons t ts ih =>
    cases ws with
    | nil => cases h
    | cons w ws =>
      rw [List.map_cons, List.map_cons, List.map_cons, List.cons.injEq] at h
      obtain ⟨ws', rfl⟩ := ih h.2
      cases t with
      | word w' => exact ⟨w' :: ws', rfl⟩
      | _ => cases h.1

theorem Reads.shorten {v : List Char} {ws : List String} (h : Reads v ws) : ∃ ws', Reads (shortenFrom 0 v) ws' := by
  obtain ⟨us, hus, hforget⟩ := Scans.shorten h
  rw [shortenFrom_append_of_ne (by decide)] at hus
  rw [List.map_append, List.map_eq_append_iff] at hforget
  obtain ⟨words, rest, rfl, hwords, hrest⟩ := hforget
  obtain ⟨ws', rfl⟩ := words_of_forget hwords
  obtain ⟨t, rfl, ht⟩ := List.map_eq_singleton_iff.1 hrest
  cases t with
  | semicolon => exact ⟨ws', hus⟩
  | _ => cases ht

theorem Reads.unique {v : List Char} {ws ws' : List String} (h : Reads v ws) (h' : Reads v ws') : ws = ws' := by
  rw [Reads, Scans] at h h'
  rw [h, Option.some.injEq, Prod.mk.injEq] at h'
  exact List.map_injective_iff.2 (fun _ _ => Token.word.inj) (List.append_cancel_right h'.2)

theorem Writes.unique {cs : List Char} {ds ds' : List Directive} (h : Writes cs ds) (h' : Writes cs ds') : ds = ds' := by
  obtain ⟨ts, hts, hds⟩ := h
  obtain ⟨ts', hts', hds'⟩ := h'
  rw [Scans] at hts hts'
  rw [hts, Option.some.injEq, Prod.mk.injEq] at hts'
  obtain ⟨-, rfl⟩ := hts'
  rw [produces_iff] at hds hds'
  rw [hds, Option.some.injEq, Reader.mk.injEq] at hds'
  exact hds'.2.2

theorem reads_word {w : String} (h : IsWord w) : Reads w.toList [w] := by
  rw [Reads, Scans, scan_append, scan_plain h.1 h.2, Option.bind_some, List.map_singleton, ← wordOf_reverse h]
  rfl

theorem reads_cons {w : String} {v : List Char} {ws : List String} (h : IsWord w) (hv : Reads v ws) :
    Reads (w.toList ++ ' ' :: v) (w :: ws) := by
  have happend := (scans_word_blank h).append hv
  rw [List.append_assoc] at happend
  rw [Reads, List.append_assoc]
  exact happend

theorem IsWord.no_newline {w : String} (h : IsWord w) : '\n' ∉ w.toList := fun hmem => absurd (h.2 _ hmem) (by decide)

/-- After `n` newlines the text `cs`, its runs of newlines shortened, reads as `ds`, and `m` newlines end it. -/
def Shortens (n : Nat) (cs : List Char) (m : Nat) (ds : List Directive) : Prop :=
  ∃ out, (∀ rest, shortenFrom n (cs ++ rest) = out ++ shortenFrom m rest) ∧ Writes out ds

theorem Shortens.nil (n : Nat) : Shortens n [] n [] := ⟨[], fun _ => rfl, .nil⟩

theorem Shortens.append {n m k : Nat} {cs cs' : List Char} {ds ds' : List Directive} (h : Shortens n cs m ds)
    (h' : Shortens m cs' k ds') : Shortens n (cs ++ cs') k (ds ++ ds') := by
  obtain ⟨out, hout, hds⟩ := h
  obtain ⟨out', hout', hds'⟩ := h'
  refine ⟨out ++ out', fun rest => ?_, hds.append hds'⟩
  rw [List.append_assoc, hout, hout', List.append_assoc]

theorem shortens_newline : Shortens 1 ['\n'] 2 [] := ⟨['\n'], fun _ => rfl, [], rfl, .nil⟩

theorem Shortens.writes {n m : Nat} {cs : List Char} {ds : List Directive} (h : Shortens n cs m ds) :
    Writes (shortenFrom n cs) ds := by
  obtain ⟨out, hout, hds⟩ := h
  have hnil := hout []
  rw [List.append_nil, shortenFrom, List.append_nil] at hnil
  rwa [hnil]

theorem shortenFrom_line {l : List Char} (hne : l ≠ []) (h : '\n' ∉ l) (n : Nat) (rest : List Char) :
    shortenFrom n (l ++ '\n' :: rest) = l ++ '\n' :: shortenFrom 1 rest := by
  obtain ⟨c, l, rfl⟩ := List.exists_cons_of_ne_nil hne
  rw [List.mem_cons, not_or] at h
  rw [List.cons_append, shortenFrom_cons_of_ne (Ne.symm h.1), List.cons_append, List.cons.injEq]
  refine ⟨rfl, ?_⟩
  clear hne
  induction l with
  | nil => rfl
  | cons d l ih =>
    rw [List.mem_cons, not_or] at h
    rw [List.cons_append, shortenFrom_cons_of_ne (Ne.symm h.2.1), ih ⟨h.1, h.2.2⟩, List.cons_append]

theorem Shortens.block {n m : Nat} {front body back : List Char} {ws : List String} {ds : List Directive} (hws : ws ≠ [])
    (hfront : front ≠ [] ∧ '\n' ∉ front) (hopen : Scans (front ++ ['\n']) (ws.map .word ++ [.lbrace]))
    (hbody : Shortens 1 body m ds) (hback : back ≠ [] ∧ '\n' ∉ back) (hclose : Scans (back ++ ['\n']) [.rbrace]) :
    Shortens n (front ++ ['\n'] ++ body ++ (back ++ ['\n'])) 1 [.block ws ds] := by
  obtain ⟨out, hout, hds⟩ := hbody
  refine ⟨front ++ ['\n'] ++ out ++ (back ++ ['\n']), fun rest => ?_, hds.block hopen hws hclose⟩
  have hstart := shortenFrom_line hfront.1 hfront.2 n (body ++ (back ++ '\n' :: rest))
  rw [hout, shortenFrom_line hback.1 hback.2] at hstart
  simpa using hstart

theorem no_newline_replicate (k : Nat) : '\n' ∉ List.replicate k ' ' := by
  rw [List.mem_replicate]
  exact fun h => absurd h.2 (by decide)

theorem scans_blanks (k : Nat) : Scans (List.replicate k ' ') [] := by
  induction k with
  | zero => rfl
  | succ k ih =>
    have hblank : Scans [' '] [] := rfl
    exact hblank.append ih

/-- A line that is a simple directive. -/
theorem shortens_directive {name : String} {v : List Char} {ws : List String} (hname : IsWord name)
    (h : Reads (shortenFrom 0 v) ws) (n k : Nat) :
    Shortens n (List.replicate k ' ' ++ (name.toList ++ ' ' :: (v ++ [';'])) ++ ['\n']) 1 [.simple (name :: ws)] := by
  refine ⟨List.replicate k ' ' ++ (name.toList ++ [' '] ++ (shortenFrom 0 v ++ [';'])) ++ ['\n'], fun rest => ?_, ?_⟩
  · have hfront : '\n' ∉ List.replicate k ' ' ++ name.toList := by
      rw [List.mem_append, not_or]
      exact ⟨no_newline_replicate k, hname.no_newline⟩
    have htext : List.replicate k ' ' ++ (name.toList ++ ' ' :: (v ++ [';'])) ++ ['\n'] ++ rest =
        (List.replicate k ' ' ++ name.toList) ++ ' ' :: (v ++ ';' :: '\n' :: rest) := by simp
    rw [htext, shortenFrom_append_of_ne (by decide), shortenFrom_of_not_mem hfront, shortenFrom_append_of_ne (by decide)]
    show _ = _ ++ shortenFrom 1 rest
    simp [shortenFrom]
  · have hend : Scans ['\n'] [] := rfl
    have hline := ((scans_blanks k).append ((scans_word_blank hname).append h)).append hend
    refine .simple ?_ (List.cons_ne_nil _ _)
    simpa using hline

/-- A line of directives that ends with another character. -/
theorem shortens_line {l : List Char} {c : Char} {ds : List Directive} (hc : c ≠ '\n') {k : Nat}
    (h : Writes (shortenFrom 0 (l ++ [c]) ++ ['\n']) ds) (n : Nat) :
    Shortens n (List.replicate (k + 1) ' ' ++ (l ++ [c]) ++ ['\n']) 1 ds := by
  refine ⟨List.replicate (k + 1) ' ' ++ (shortenFrom 0 (l ++ [c]) ++ ['\n']), fun rest => ?_, ?_⟩
  · have htext : List.replicate (k + 1) ' ' ++ (l ++ [c]) ++ ['\n'] ++ rest =
        List.replicate k ' ' ++ ' ' :: (l ++ c :: '\n' :: rest) := by
      rw [List.replicate_succ']
      simp
    rw [htext, shortenFrom_append_of_ne (by decide), shortenFrom_of_not_mem (no_newline_replicate k),
      shortenFrom_append_of_ne hc, shortenFrom_append_of_ne hc, List.replicate_succ']
    simp [shortenFrom]
  · have hblanks : Writes (List.replicate (k + 1) ' ') [] := ⟨[], scans_blanks _, .nil⟩
    exact hblanks.append h

/-- Texts one after the other, each of which reads as one directive. -/
theorem shortens_flatMap {α : Type} {f : α → List Char} {R : α → Directive → Prop} {m : Nat} {l : List α}
    (h : ∀ a ∈ l, ∃ d, R a d ∧ ∀ n, Shortens n (f a) m [d]) :
    ∃ ds, List.Forall₂ R l ds ∧ ∀ n, Shortens n (l.flatMap f) (if l = [] then n else m) ds := by
  induction l with
  | nil => exact ⟨[], .nil, fun n => .nil n⟩
  | cons a l ih =>
    rw [List.forall_mem_cons] at h
    obtain ⟨d, hd, ha⟩ := h.1
    obtain ⟨ds, hds, hl⟩ := ih h.2
    refine ⟨d :: ds, .cons hd hds, fun n => ?_⟩
    have happend := (ha n).append (hl m)
    rw [ite_self] at happend
    rw [if_neg (List.cons_ne_nil _ _)]
    exact happend

mutual

/-- Every word of the directive, and of those in it, is one of `p`. -/
def Directive.allWords (p : String → Bool) : Directive → Bool
  | .simple args => args.all p
  | .block args body => args.all p && allWordsIn p body

def Directive.allWordsIn (p : String → Bool) : List Directive → Bool
  | [] => true
  | d :: ds => d.allWords p && allWordsIn p ds

end

theorem allWordsIn_eq_all (p : String → Bool) (ds : List Directive) :
    Directive.allWordsIn p ds = ds.all (Directive.allWords p) := by
  induction ds with
  | nil => rfl
  | cons d ds ih => rw [Directive.allWordsIn, List.all_cons, ih]

end NginxAdmin.NginxConf
