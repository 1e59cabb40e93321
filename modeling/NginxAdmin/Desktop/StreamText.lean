import NginxAdmin.Desktop.SSHExecutor
import NginxAdmin.Lib.Utf8

/-!
# The texts of a stream (`execOnClient` of `SSHExecutor.ts`)

The bytes of a command arrive in chunks, and every chunk is decoded by itself before its text is added. `unsplit_iff`: what is
read is the text that was written exactly when no chunk ends within a character.
-/

namespace NginxAdmin.Desktop.SSHExecutor

open Utf8

inductive Channel where
  | stdout
  | stderr
deriving DecidableEq, Repr

/-- An event `data` of the stream or of its `stderr`. -/
structure Chunk where
  channel : Channel
  bytes : List UInt8
deriving DecidableEq, Repr

structure Texts where
  stdout : String := ""
  stderr : String := ""
deriving DecidableEq, Repr

/-- `chunk.toString("utf8")` -/
def Chunk.text (chunk : Chunk) : String := String.ofList (decode chunk.bytes)

def Texts.data (t : Texts) (chunk : Chunk) : Texts :=
  match chunk.channel with
  | .stdout => { t with stdout := t.stdout ++ chunk.text }
  | .stderr => { t with stderr := t.stderr ++ chunk.text }

/-- The texts after the events. -/
def gathered (chunks : List Chunk) : Texts := chunks.foldl Texts.data {}

/-- The event `close` after them. -/
def closedAfter (chunks : List Chunk) (exit : Exit) : Ending := .closed exit (gathered chunks).stdout (gathered chunks).stderr

/-- What `execute` makes of the output. -/
def payload (output : String) : Except ExecError Js :=
  match JsonText.parse output with
  | some parsed => .ok parsed
  | none => .error (.remote "Invalid JSON from SSH target" "BAD_REMOTE_PAYLOAD")

def chunksOf (channel : Channel) (chunks : List Chunk) : List (List UInt8) :=
  (chunks.filter fun c => c.channel = channel).map Chunk.bytes

/-- The bytes of a channel. -/
def written (channel : Channel) (chunks : List Chunk) : List UInt8 := (chunksOf channel chunks).flatten

/-- The text of a channel. -/
def textOf (channel : Channel) (chunks : List Chunk) : String := String.ofList (decode (written channel chunks))

/-- The chunks do not matter: the output, the JSON in it and the text of errors are those of the bytes as a whole. -/
structure Unsplit (chunks : List Chunk) : Prop where
  output : (closedAfter chunks (.code 0)).result = .ok (Js.trim (textOf .stdout chunks))
  json : (closedAfter chunks (.code 0)).result.bind payload = payload (Js.trim (textOf .stdout chunks))
  errors : (gathered chunks).stderr = textOf .stderr chunks

theorem chunksOf_cons (channel : Channel) (c : Chunk) (chunks : List Chunk) :
    chunksOf channel (c :: chunks) = if c.channel = channel then c.bytes :: chunksOf channel chunks else chunksOf channel chunks := by
  rw [chunksOf, List.filter_cons]
  by_cases h : c.channel = channel
  · simp [chunksOf, h]
  · simp [chunksOf, h]

theorem forall_chunksOf {P : List UInt8 → Prop} {chunks : List Chunk} :
    (∀ c ∈ chunks, P c.bytes) ↔ (∀ bs ∈ chunksOf .stdout chunks, P bs) ∧ ∀ bs ∈ chunksOf .stderr chunks, P bs := by
  induction chunks with
  | nil => simp [chunksOf]
  | cons c chunks ih =>
    rw [List.forall_mem_cons, ih, chunksOf_cons, chunksOf_cons]
    rcases hc : c.channel with _ | _
    · simp [and_assoc]
    · simp [and_left_comm]

/-- The gathered texts are the texts of the chunks. -/
theorem gathered_eq (chunks : List Chunk) :
    gathered chunks = { stdout := String.ofList ((chunksOf .stdout chunks).flatMap decode)
                        stderr := String.ofList ((chunksOf .stderr chunks).flatMap decode) } := by
  suffices hfold : ∀ t : Texts, chunks.foldl Texts.data t =
      { stdout := t.stdout ++ String.ofList ((chunksOf .stdout chunks).flatMap decode)
        stderr := t.stderr ++ String.ofList ((chunksOf .stderr chunks).flatMap decode) } by
    have h := hfold {}
    simpa [gathered] using h
  induction chunks with
  | nil => simp [chunksOf]
  | cons c chunks ih =>
    intro t
    rw [List.foldl_cons, ih, chunksOf_cons, chunksOf_cons, Texts.data]
    rcases hc : c.channel with _ | _
    · simp [Chunk.text, String.append_assoc]
    · simp [Chunk.text, String.append_assoc]

/-! ### When chunks do not matter -/

/-- The characters of `Js.trim`. -/
def trimmed (cs : List Char) : List Char := ((cs.dropWhile Regex.isSpace).reverse.dropWhile Regex.isSpace).reverse

theorem trim_ofList (cs : List Char) : Js.trim (String.ofList cs) = String.ofList (trimmed cs) := by
  rw [Js.trim, String.toList_ofList]
  rfl

theorem replaced_dropWhile (cs : List Char) : replaced (cs.dropWhile Regex.isSpace) = replaced cs := by
  induction cs with
  | nil => rfl
  | cons c cs ih =>
    by_cases hc : Regex.isSpace c = true
    · have hne : c ≠ replacement := by
        rintro rfl
        exact absurd hc (by decide)
      rw [List.dropWhile_cons_of_pos hc, ih, replaced, replaced, List.count_cons_of_ne hne]
    · rw [List.dropWhile_cons_of_neg hc]

/-- Replacement characters are not trimmed. -/
theorem replaced_trimmed (cs : List Char) : replaced (trimmed cs) = replaced cs := by
  have hreverse : ∀ cs : List Char, replaced cs.reverse = replaced cs := fun cs => List.count_reverse
  rw [trimmed, hreverse, replaced_dropWhile, hreverse, replaced_dropWhile]

theorem result_closedAfter (chunks : List Chunk) :
    (closedAfter chunks (.code 0)).result = .ok (Js.trim (gathered chunks).stdout) := by
  rw [closedAfter, Ending.result, if_neg (fun h => h rfl)]

theorem output_iff {chunks : List Chunk} (h : Valid (written .stdout chunks)) :
    (closedAfter chunks (.code 0)).result = .ok (Js.trim (textOf .stdout chunks)) ↔
      ∀ bs ∈ chunksOf .stdout chunks, Valid bs := by
  rw [result_closedAfter, gathered_eq, textOf, trim_ofList, trim_ofList, Except.ok.injEq, String.ofList_inj]
  exact decode_chunks_iff replaced_trimmed h

theorem errors_iff {chunks : List Chunk} (h : Valid (written .stderr chunks)) :
    (gathered chunks).stderr = textOf .stderr chunks ↔ ∀ bs ∈ chunksOf .stderr chunks, Valid bs := by
  rw [gathered_eq, textOf, String.ofList_inj]
  exact decode_chunks_iff (f := id) (fun cs => rfl) h

/-- Of well-formed UTF-8 the text is read that was written exactly when each chunk is well-formed by itself. -/
theorem unsplit_iff {chunks : List Chunk} (hout : Valid (written .stdout chunks)) (herr : Valid (written .stderr chunks)) :
    Unsplit chunks ↔ ∀ c ∈ chunks, Valid c.bytes := by
  rw [forall_chunksOf, ← output_iff hout, ← errors_iff herr]
  constructor
  · exact fun h => ⟨h.output, h.errors⟩
  · rintro ⟨houtput, herrors⟩
    exact ⟨houtput, by rw [houtput, Except.bind], herrors⟩

/-- A string of JSON in two chunks, neither of which ends within a character. -/
theorem unsplit_iff_quoted : Unsplit [⟨.stdout, [0x22, 0xC3, 0xA9]⟩, ⟨.stdout, [0x22, 0x0A]⟩] := by
  refine (unsplit_iff ⟨['"', 'é', '"', '\n'], by decide⟩ ⟨[], rfl⟩).2 fun c hc => ?_
  simp only [List.mem_cons, List.not_mem_nil, or_false] at hc
  rcases hc with rfl | rfl
  · exact ⟨['"', 'é'], by decide⟩
  · exact ⟨['"', '\n'], by decide⟩

/-- The same bytes, cut within the letter. -/
theorem split_in_character :
    Valid (written .stdout [⟨.stdout, [0x22, 0xC3]⟩, ⟨.stdout, [0xA9, 0x22, 0x0A]⟩]) ∧
    (closedAfter [⟨.stdout, [0x22, 0xC3]⟩, ⟨.stdout, [0xA9, 0x22, 0x0A]⟩] (.code 0)).result = .ok "\"\ufffd\ufffd\"" ∧
    Js.trim (textOf .stdout [⟨.stdout, [0x22, 0xC3]⟩, ⟨.stdout, [0xA9, 0x22, 0x0A]⟩]) = "\"é\"" ∧
    ¬ Unsplit [⟨.stdout, [0x22, 0xC3]⟩, ⟨.stdout, [0xA9, 0x22, 0x0A]⟩] := by
  have hresult : (closedAfter [⟨.stdout, [0x22, 0xC3]⟩, ⟨.stdout, [0xA9, 0x22, 0x0A]⟩] (.code 0)).result =
      .ok "\"\ufffd\ufffd\"" := by decide
  have htext : Js.trim (textOf .stdout [⟨.stdout, [0x22, 0xC3]⟩, ⟨.stdout, [0xA9, 0x22, 0x0A]⟩]) = "\"é\"" := by decide
  refine ⟨⟨['"', 'é', '"', '\n'], by decide⟩, hresult, htext, fun h => ?_⟩
  have houtput := h.output
  rw [hresult, htext] at houtput
  exact absurd (Except.ok.inj houtput) (by decide)

end NginxAdmin.Desktop.SSHExecutor
