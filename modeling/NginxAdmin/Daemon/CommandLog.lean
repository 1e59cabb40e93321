import NginxAdmin.Daemon.Apply

/-!
# What the command log shows of a text

`redact_potential_secrets` works through the words of a text with one word of memory. `hidesAssigned_iff`: the
values that the words before them announce are all hidden exactly when every value after an announcing word is a
marker already, is hidden for its own sake, or stands at the end of an odd run of words ending in `bearer`.
-/

namespace NginxAdmin.Daemon

/-- The keywords of `contains_sensitive_assignment`. -/
def hasSensitiveKeyword (value : String) : Bool :=
  ["authorization", "cookie", "token", "secret", "password", "passphrase", "credential", "jwt", "session",
    "apikey", "api_key"].any fun needle => Text.contains value needle

/-- A word with a keyword and a separator in it. -/
def isAssignment (word : String) : Bool := containsSensitiveAssignment (Text.toAsciiLowercase word)

def endsInBearer (word : String) : Bool := Text.endsWith (Text.toAsciiLowercase word) "bearer"

/-- The next word is a value: this one ends an assignment before its value, or in a scheme. -/
def announcesValue (word : String) : Bool :=
  let normalized := Text.toAsciiLowercase word
  (hasSensitiveKeyword normalized && (Text.endsWith normalized ":" || Text.endsWith normalized "=")) ||
    Text.endsWith normalized "bearer"

/-- The word at place `i` of `value` is at its place in what the log shows. A marker in the text is no value. -/
def Copied (value : String) (i : Nat) : Prop :=
  ∃ word, (Text.splitWhitespace value)[i]? = some word ∧ word ≠ "[redacted]" ∧
    (Text.splitWhitespace (redactPotentialSecrets value))[i]? = some word

/-- No assignment is copied, and no value after the word that announces it. -/
structure HidesAssigned (value : String) : Prop where
  assignment : ∀ i word, (Text.splitWhitespace value)[i]? = some word → isAssignment word = true → ¬ Copied value i
  next : ∀ i word, (Text.splitWhitespace value)[i]? = some word → announcesValue word = true →
    ¬ Copied value (i + 1)

/-- The words ending in `bearer`, and not assignments, that stand right before place `n`. -/
def bearersBefore (words : List String) (n : Nat) : Nat :=
  ((words.take n).reverse.takeWhile fun word => endsInBearer word && !isAssignment word).length

/-- `redact_next` after one more word. -/
def remember (redactNext : Bool) (word : String) : Bool := !redactNext && !isAssignment word && endsInBearer word

theorem redactParts_cons (redactNext : Bool) (word : String) (rest : List String) :
    redactParts redactNext (word :: rest) =
      (if redactNext || isAssignment word || endsInBearer word then "[redacted]" else word) ::
        redactParts (remember redactNext word) rest := by
  have hbearer : (Text.toAsciiLowercase word == "bearer" || Text.endsWith (Text.toAsciiLowercase word) "bearer") =
      endsInBearer word := by
    rcases hword : (Text.toAsciiLowercase word == "bearer") with _ | _
    · exact Bool.false_or _
    · rw [Bool.true_or, endsInBearer, eq_of_beq hword]
      decide
  rw [redactParts, hbearer]
  show (if redactNext || isAssignment word then _ else _) = _
  rcases redactNext with _ | _ <;> rcases hassign : isAssignment word with _ | _ <;>
    rcases hends : endsInBearer word with _ | _ <;> simp [remember, hassign, hends]

theorem length_redactParts (redactNext : Bool) (words : List String) :
    (redactParts redactNext words).length = words.length := by
  induction words generalizing redactNext with
  | nil => rfl
  | cons word rest ih => rw [redactParts_cons, List.length_cons, ih, List.length_cons]

theorem redactParts_append (redactNext : Bool) (words rest : List String) :
    redactParts redactNext (words ++ rest) =
      redactParts redactNext words ++ redactParts (words.foldl remember redactNext) rest := by
  induction words generalizing redactNext with
  | nil => rfl
  | cons word words ih => rw [List.cons_append, redactParts_cons, redactParts_cons, ih]; rfl

/-- The word at place `i` after the scan. -/
theorem getElem?_redactParts {words : List String} {i : Nat} {word : String} (h : words[i]? = some word) :
    (redactParts false words)[i]? = some
      (if (words.take i).foldl remember false || isAssignment word || endsInBearer word then "[redacted]"
        else word) := by
  obtain ⟨hi, hword⟩ := List.getElem?_eq_some_iff.1 h
  have hsplit : words = words.take i ++ word :: words.drop (i + 1) := by
    rw [← hword, List.cons_getElem_drop_succ, List.take_append_drop]
  have hlength : (redactParts false (words.take i)).length = i := by
    rw [length_redactParts, List.length_take]
    omega
  conv_lhs => rw [hsplit, redactParts_append, redactParts_cons]
  rw [List.getElem?_append_right (by omega), hlength, Nat.sub_self, List.getElem?_cons_zero]

/-- The scan remembers after an odd run of words ending in `bearer`. -/
theorem foldl_remember (words : List String) : words.foldl remember false =
    ((words.reverse.takeWhile fun word => endsInBearer word && !isAssignment word).length % 2 == 1) := by
  induction words using List.reverseRecOn with
  | nil => rfl
  | append_singleton words word ih =>
    rw [List.foldl_append, List.foldl_cons, List.foldl_nil, ih, List.reverse_append, List.reverse_singleton,
      List.singleton_append, List.takeWhile_cons, remember]
    rcases hassign : isAssignment word with _ | _ <;> rcases hends : endsInBearer word with _ | _
    · simp
    · have hparity (n : Nat) : (!(n % 2 == 1)) = ((n + 1) % 2 == 1) := by
        rw [Bool.eq_iff_iff]
        simp only [Bool.not_eq_true', beq_eq_false_iff_ne, ne_eq, beq_iff_eq]
        omega
      simpa using hparity _
    · simp
    · simp

theorem isWord_redacted : Text.IsWord "[redacted]" := by
  have hwhole : "[redacted]".toList.all (fun c => !Text.isWhitespace c) = true := by decide
  rw [List.all_eq_true] at hwhole
  exact ⟨by decide, fun c hc => by simpa using hwhole c hc⟩

theorem isWord_of_mem_redactParts {redactNext : Bool} {words : List String}
    (h : ∀ word ∈ words, Text.IsWord word) : ∀ word ∈ redactParts redactNext words, Text.IsWord word := by
  induction words generalizing redactNext with
  | nil => exact fun word hword => absurd hword List.not_mem_nil
  | cons first rest ih =>
    rw [redactParts_cons]
    intro word hword
    rcases List.mem_cons.1 hword with rfl | hword
    · split
      · exact isWord_redacted
      · exact h first List.mem_cons_self
    · exact ih (fun w hw => h w (List.mem_cons_of_mem first hw)) word hword

/-- The words of what the log shows. -/
theorem splitWhitespace_redactPotentialSecrets (value : String) :
    Text.splitWhitespace (redactPotentialSecrets value) = redactParts false (Text.splitWhitespace value) :=
  Text.splitWhitespace_join (isWord_of_mem_redactParts fun _ => Text.isWord_of_mem_splitWhitespace)

/-- A word is copied when nothing hides it. -/
theorem copied_iff {value : String} {i : Nat} {word : String}
    (h : (Text.splitWhitespace value)[i]? = some word) : Copied value i ↔
      word ≠ "[redacted]" ∧ isAssignment word = false ∧ endsInBearer word = false ∧
        bearersBefore (Text.splitWhitespace value) i % 2 = 0 := by
  have hout := getElem?_redactParts h
  rw [foldl_remember] at hout
  have hiff : Copied value i ↔ word ≠ "[redacted]" ∧
      (Text.splitWhitespace (redactPotentialSecrets value))[i]? = some word := by
    constructor
    · rintro ⟨word', hword', hne, hcopy⟩
      obtain rfl : word = word' := Option.some.inj (h.symm.trans hword')
      exact ⟨hne, hcopy⟩
    · rintro ⟨hne, hcopy⟩
      exact ⟨word, h, hne, hcopy⟩
  rw [hiff, splitWhitespace_redactPotentialSecrets, hout]
  refine and_congr_right fun hne => ?_
  show some (if (bearersBefore (Text.splitWhitespace value) i % 2 == 1) || isAssignment word || endsInBearer word
    then "[redacted]" else word) = some word ↔ _
  split
  · rename_i hhide
    refine ⟨fun heq => absurd (Option.some.inj heq).symm hne, fun ⟨hassign, hends, heven⟩ => ?_⟩
    rw [hassign, hends, heven] at hhide
    exact absurd hhide (by decide)
  · rename_i hhide
    simp only [Bool.or_eq_true, not_or, Bool.not_eq_true, beq_eq_false_iff_ne] at hhide
    obtain ⟨⟨hodd, hassign⟩, hends⟩ := hhide
    exact ⟨fun _ => ⟨hassign, hends, by omega⟩, fun _ => rfl⟩

/-- Exactly which texts the command log keeps quiet about. -/
theorem hidesAssigned_iff (value : String) : HidesAssigned value ↔
    ∀ i word next, (Text.splitWhitespace value)[i]? = some word → announcesValue word = true →
      (Text.splitWhitespace value)[i + 1]? = some next →
      next = "[redacted]" ∨ isAssignment next = true ∨ endsInBearer next = true ∨
        bearersBefore (Text.splitWhitespace value) (i + 1) % 2 = 1 := by
  constructor
  · intro h i word next hword hannounce hnext
    have hnot := mt (copied_iff hnext).2 (h.next i word hword hannounce)
    by_contra hall
    simp only [not_or, Bool.not_eq_true] at hall
    obtain ⟨hne, hassign, hends, hodd⟩ := hall
    exact hnot ⟨hne, hassign, hends, by omega⟩
  · intro h
    constructor
    · intro i word hword hassign hcopied
      obtain ⟨-, hnot, -⟩ := (copied_iff hword).1 hcopied
      rw [hassign] at hnot
      cases hnot
    · rintro i word hword hannounce hcopied
      obtain ⟨next, hnext, hcopy⟩ := hcopied
      obtain ⟨hne, hassign, hends, heven⟩ := (copied_iff hnext).1 ⟨next, hnext, hcopy⟩
      rcases h i word next hword hannounce hnext with heq | heq | heq | heq
      · exact hne heq
      · rw [hassign] at heq
        cases heq
      · rw [hends] at heq
        cases heq
      · omega

/-- The value after `password:` is copied. -/
theorem copied_after_password : ¬ HidesAssigned "password: hunter2" := by
  intro h
  exact h.next 0 "password:" (by decide +kernel) (by decide +kernel)
    ⟨"hunter2", by decide +kernel, by decide, by decide +kernel⟩

end NginxAdmin.Daemon
