import Tactile.Lib.Regex
import Tactile.Storage.Restoring

/-!
Opening and saving notes, and what saving in source mode leaves of a note's text.
-/

namespace Tactile.Notes.Saving

open Tactile.Lib.Program Tactile.Lib.Script Tactile.Lib.FiniteMap Tactile.Lib.Regex
open Tactile.Storage.Paths Tactile.Storage.Idb Tactile.Storage.Opfs Tactile.Storage.Backend
open Tactile.Storage.Versioned (FileReads)
open Tactile.Storage.Restoring (utf8Codec)

inductive EditorMode
  | edit
  | view
  | source
  deriving DecidableEq

/-- The editor component: what it makes of markdown, and the markdown of a document. -/
structure EditorKit (Doc : Type) where
  setContent : String → Doc
  getMarkdown : Doc → String

structure Editor (Doc : Type) where
  editorInstance : Option Doc
  dirtyPath : Option Text

structure AppState (Doc : Type) where
  activeFile : Option Text
  noteHistory : List Text
  editorMode : EditorMode
  sourceContent : String
  editor : Editor Doc

abbrev NotesM (Doc α : Type) : Type := StorageM Failure (AppState Doc) α

def given : Option Text → Option Text
  | some [] => none
  | path => path

section Headings

/-- The dot of a regular expression. -/
def isDot (c : Char) : Bool := c ≠ '\n' && c ≠ '\r' && c ≠ '\u2028' && c ≠ '\u2029'

def firstHeading : Pattern Char := .seq (.literal ['#', ' ']) (.seq (.many isDot) (.literal ['\n']))

def removeHeading (content : String) : String :=
  match matchHere firstHeading content.toList with
  | some w => String.ofList w.rest
  | none => content

/-- A text that begins with a heading of the first level, which ends with a line feed. -/
def HasHeading (content : String) : Prop :=
  ∃ title rest, content.toList = '#' :: ' ' :: title ++ '\n' :: rest ∧ ∀ c ∈ title, isDot c = true

theorem reads_firstHeading {taken rest : List Char} {groups : List (Option (List Char))} :
    Reads firstHeading taken rest groups ↔
      ∃ title, taken = '#' :: ' ' :: title ++ ['\n'] ∧ (∀ c ∈ title, isDot c = true) ∧ groups = [] := by
  constructor
  · rintro ⟨t, u, g, h, hmark, ⟨title, v, g', h', ⟨htitle, rfl⟩, hend, rfl, rfl⟩, rfl, rfl⟩
    obtain ⟨rfl, rfl⟩ := reads_literal.mp hmark
    obtain ⟨rfl, rfl⟩ := reads_literal.mp hend
    exact ⟨title, rfl, htitle, rfl⟩
  · rintro ⟨title, rfl, htitle, rfl⟩
    exact ⟨['#', ' '], title ++ ['\n'], [], [], reads_literal.mpr ⟨rfl, rfl⟩,
      ⟨title, ['\n'], [], [], ⟨htitle, rfl⟩, reads_literal.mpr ⟨rfl, rfl⟩, rfl, rfl⟩, rfl, rfl⟩

theorem removeHeading_of_not {content : String} (h : ¬ HasHeading content) :
    removeHeading content = content := by
  have hnone : matchHere firstHeading content.toList = none := by
    rw [matchHere_eq_none]
    intro taken rest groups hs hreads
    obtain ⟨title, rfl, htitle, -⟩ := reads_firstHeading.mp hreads
    refine h ⟨title, rest, ?_, htitle⟩
    rw [hs, List.append_assoc]
    rfl
  rw [removeHeading, hnone]

theorem length_removeHeading_lt {content : String} (h : HasHeading content) :
    (removeHeading content).toList.length < content.toList.length := by
  obtain ⟨title, rest, hcontent, htitle⟩ := h
  cases hmatch : matchHere firstHeading content.toList with
  | none =>
      refine absurd (reads_firstHeading.mpr ⟨title, rfl, htitle, rfl⟩)
        (matchHere_eq_none.mp hmatch _ rest [] ?_)
      rw [hcontent, List.append_assoc]
      rfl
  | some w =>
      obtain ⟨hreads, hs⟩ := matchHere_reads hmatch
      obtain ⟨title', htaken, -, -⟩ := reads_firstHeading.mp hreads
      rw [removeHeading, hmatch, hs, htaken]
      simp only [String.toList_ofList, List.length_append, List.length_cons]
      omega

end Headings

variable {Doc : Type} (kit : EditorKit Doc)

def AppState.clearDirty (app : AppState Doc) : AppState Doc :=
  { app with editor := { app.editor with dirtyPath := none } }

/-- The new document counts as an edit of the active note. -/
def AppState.setEditorContent (content : String) (app : AppState Doc) : AppState Doc :=
  match app.editor.editorInstance with
  | none => app
  | some _ =>
    { app with
      editor := ⟨some (kit.setContent content), (given app.activeFile).orElse fun _ => app.editor.dirtyPath⟩ }

def AppState.pushHistory (path : Text) (app : AppState Doc) : AppState Doc :=
  if app.noteHistory.getLast? = some path then app
  else { app with noteHistory := app.noteHistory ++ [path] }

def AppState.content (app : AppState Doc) : String :=
  match app.editorMode with
  | .source => app.sourceContent
  | _ => (app.editor.editorInstance.map kit.getMarkdown).getD ""

def saveNote (path : Text) : NotesM Doc Unit := do
  let app ← Method.read
  if path = [] ∨ given app.activeFile = none then pure ()
  else ask id (.writeTextFile path (removeHeading (app.content kit)))

/-- Saves the edits that wait; a failure is only logged. -/
def savePending : NotesM Doc Unit := do
  let app ← Method.read
  match given app.editor.dirtyPath with
  | some dirtyPath => do
    Method.update AppState.clearDirty
    (saveNote kit dirtyPath).orElse fun _ => pure ()
  | none => pure ()

/-- Shows what was read of a note; that the editor takes its new document for an edit is
undone. -/
def AppState.showNote (path : Text) (fileContent : String) (skipHistory : Bool)
    (app : AppState Doc) : AppState Doc :=
  let shown := { app with sourceContent := fileContent, activeFile := some path }
  let clean := (shown.setEditorContent kit fileContent).clearDirty
  if skipHistory then clean else clean.pushHistory path

def openNote (path : Text) (skipHistory : Bool) : NotesM Doc Unit := do
  savePending kit
  let fileContent ← ask id (.readTextFile path)
  Method.update (AppState.showNote kit path fileContent skipHistory)

/-- Saves a note a number of times; which of the saves went through. -/
def saveTimes (path : Text) : ℕ → NotesM Doc (List Bool)
  | 0 => pure []
  | n + 1 => do
    let out ← (saveNote kit path).outcome
    let outs ← saveTimes path n
    pure (out.isOk :: outs)

section Runs

variable {kit} {codec : TextCodec} {clock : Clock} {app : AppState Doc} {t : Tree} {path : Text}
variable {l : List Text}

theorem meets_write {contents : String} {Q E : AppState Doc → Tree → Prop}
    (hok : ∀ l t', pathSegments path = .ok l → t' = t.insert l (.file (codec.encode contents)) →
      Q app t') (hfailed : E app t) :
    Meets (Serves codec clock) (fun _ _ => True) (fun _ => Q) (fun _ => E)
      (ask id (.writeTextFile path contents)) app t := by
  apply meets_ask (o := .writeTextFile path contents) trivial
  · intro _ t' hserved
    obtain ⟨l, hl, hwrite⟩ := of_writing hserved
    exact hok l t' hl (writeFileAt_eq_ok.mp hwrite).2.2
  · intro e t' herror
    suffices hsame : t' = t from hsame ▸ hfailed
    rcases herror with hsame | herror
    · exact hsame
    · have hwrite : writing t path (fun l => writeFileAt t l (codec.encode contents)) =
          (.error e, t') := herror
      rw [writing] at hwrite
      split at hwrite
      next => exact (Prod.mk.inj hwrite).2.symm
      next => exact writeFileAt_error hwrite

/-- A save of the active note in source mode writes the buffer without its heading. -/
theorem saveNote_writes (hsource : app.editorMode = .source) (hactive : given app.activeFile ≠ none)
    (hpath : path ≠ []) (hl : pathSegments path = .ok l) :
    Meets (Serves codec clock) (fun _ _ => True)
      (fun _ app' t' => app' = app ∧
        t'.lookup l = some (.file (codec.encode (removeHeading app.sourceContent))))
      (fun _ app' t' => app' = app ∧ t' = t) (saveNote kit path) app t := by
  rw [saveNote, meets_bind, meets_read, if_neg (by simp [hpath, hactive]), AppState.content, hsource]
  refine meets_write (fun l' t' hl' ht' => ⟨rfl, ?_⟩) ⟨rfl, rfl⟩
  rw [hl] at hl'
  cases hl'
  rw [ht', lookup_insert_eq, if_pos rfl]

/-- A save leaves the files at other paths alone, and the memory. -/
theorem saveNote_other {other : Text} (hother : pathSegments other ≠ .ok l) :
    Meets (Serves codec clock) (fun _ _ => True)
      (fun _ app' t' => app' = app ∧ t'.lookup l = t.lookup l)
      (fun _ app' t' => app' = app ∧ t'.lookup l = t.lookup l) (saveNote kit other) app t := by
  rw [saveNote, meets_bind, meets_read]
  split
  next => exact ⟨rfl, rfl⟩
  next =>
    refine meets_write (fun l' t' hl' ht' => ⟨rfl, ?_⟩) ⟨rfl, rfl⟩
    have hne : l ≠ l' := fun heq => hother (heq ▸ hl')
    rw [ht', lookup_insert_eq, if_neg hne]

theorem showNote_fields (path : Text) (fileContent : String) (skipHistory : Bool)
    (app : AppState Doc) :
    (app.showNote kit path fileContent skipHistory).editorMode = app.editorMode ∧
      (app.showNote kit path fileContent skipHistory).activeFile = some path ∧
      (app.showNote kit path fileContent skipHistory).sourceContent = fileContent := by
  rw [AppState.showNote, AppState.setEditorContent, AppState.pushHistory, AppState.clearDirty]
  split_ifs <;> split <;> exact ⟨rfl, rfl, rfl⟩

/-- The note that waits for a save is the one at the path. -/
def Unsaved (app : AppState Doc) (path : Text) : Prop :=
  ∃ dirtyPath, given app.editor.dirtyPath = some dirtyPath ∧
    pathSegments dirtyPath = pathSegments path

/-- A note that is opened is in the buffer, and its file is as it was. -/
def Opened (codec : TextCodec) (mode : EditorMode) (path : Text) (l : List Text) (t : Tree)
    (app' : AppState Doc) (t' : Tree) : Prop :=
  app'.editorMode = mode ∧ app'.activeFile = some path ∧ t'.lookup l = t.lookup l ∧
    ∃ bytes, t.lookup l = some (.file bytes) ∧ app'.sourceContent = codec.decode bytes

theorem openNote_opens (hl : pathSegments path = .ok l) (hsaved : ¬ Unsaved app path)
    (skipHistory : Bool) :
    Meets (Serves codec clock) (fun _ _ => True)
      (fun _ => Opened codec app.editorMode path l t) (fun _ _ _ => True)
      (openNote kit path skipHistory) app t := by
  rw [openNote, meets_bind]
  -- the save that waits is of another note, so the file is the same when it is read
  have hpending : Meets (Serves codec clock) (fun _ _ => True)
      (fun _ app' t' => app'.editorMode = app.editorMode ∧ t'.lookup l = t.lookup l)
      (fun _ _ _ => True) (savePending kit) app t := by
    rw [savePending, meets_bind, meets_read]
    split
    next dirtyPath hdirty =>
      have hother : pathSegments dirtyPath ≠ .ok l :=
        fun heq => hsaved ⟨dirtyPath, hdirty, heq.trans hl.symm⟩
      rw [meets_bind, meets_update, meets_orElse]
      refine (saveNote_other hother).imp (fun _ app' t' h => ?_) fun _ app' t' h => ?_
      · exact ⟨by rw [h.1]; rfl, h.2⟩
      · exact ⟨by rw [h.1]; rfl, h.2⟩
    next => exact ⟨rfl, rfl⟩
  refine hpending.imp (fun _ app₁ t₁ h => ?_) fun _ _ _ h => h
  obtain ⟨hmode, hsame⟩ := h
  rw [meets_bind]
  apply meets_ask (o := .readTextFile path) trivial
  · intro fileContent t' hserved
    obtain ⟨l', hl', hread, rfl⟩ := of_reading hserved
    rw [hl] at hl'
    cases hl'
    cases hbytes : readFileAt t' l with
    | error e =>
        rw [hbytes] at hread
        cases hread
    | ok bytes =>
        rw [hbytes] at hread
        have hstored := readFileAt_eq_ok.mp hbytes
        rw [hsame] at hstored
        obtain ⟨hmode', hactive, hbuffer⟩ :=
          @showNote_fields Doc kit path fileContent skipHistory app₁
        exact ⟨hmode'.trans hmode, hactive, hsame, bytes, hstored,
          hbuffer.trans (Except.ok.inj hread).symm⟩
  · exact fun _ _ _ => trivial

/-- After saves in source mode a file has the buffer without its heading, unless no save
went through. -/
theorem saveTimes_writes (hsource : app.editorMode = .source) (hactive : given app.activeFile ≠ none)
    (hpath : path ≠ []) (hl : pathSegments path = .ok l) (n : ℕ) :
    Meets (Serves codec clock) (fun _ _ => True)
      (fun outs app' t' => app' = app ∧ t'.lookup l =
        if true ∈ outs then some (.file (codec.encode (removeHeading app.sourceContent)))
        else t.lookup l)
      (fun _ _ _ => False) (saveTimes kit path n) app t := by
  induction n generalizing t with
  | zero => exact ⟨rfl, rfl⟩
  | succ n ih =>
      rw [saveTimes, meets_bind, meets_outcome]
      refine (saveNote_writes hsource hactive hpath hl).imp (fun _ app₁ t₁ h => ?_)
        fun _ app₁ t₁ h => ?_
      · obtain ⟨rfl, hstored⟩ := h
        rw [meets_bind]
        refine ih.imp (fun outs app' t' h => ⟨h.1, ?_⟩) fun _ _ _ h => h
        have hmem : true ∈ true :: outs := List.mem_cons_self
        rw [h.2, hstored]
        simp only [Except.isOk, Except.toBool, hmem, if_true, ite_self]
      · obtain ⟨rfl, rfl⟩ := h
        rw [meets_bind]
        refine ih.imp (fun outs app' t' h => ⟨h.1, ?_⟩) fun _ _ _ h => h
        rw [h.2]
        have hmem : true ∈ false :: outs ↔ true ∈ outs := by simp
        simp only [Except.isOk, Except.toBool, hmem]

end Runs

/-- What is read of a text that was written is the text, or the text without a byte order
mark at its start. -/
def ReadsBack (codec : TextCodec) : Prop :=
  ∀ text, codec.decode (codec.encode text) = text ∨
    text.toList = '\uFEFF' :: (codec.decode (codec.encode text)).toList

theorem readsBack_utf8 : ReadsBack utf8Codec := by
  intro text
  have hback : utf8Codec.decode (utf8Codec.encode text) =
      String.ofList (Tactile.Lib.Utf8.decode (Tactile.Lib.Text.utf8 text.toList)) := rfl
  rw [hback, String.toList_ofList]
  refine (Tactile.Lib.Utf8.decode_utf8_cases text.toList).imp (fun h => ?_) id
  rw [h, String.ofList_toList]

theorem read_removed_iff {codec : TextCodec} (hcodec : ReadsBack codec) (text : String) :
    codec.decode (codec.encode (removeHeading text)) = text ↔
      ¬ HasHeading text ∧ codec.decode (codec.encode text) = text := by
  constructor
  · intro hread
    have hnone : ¬ HasHeading text := by
      intro hheading
      have hlt := length_removeHeading_lt hheading
      -- what is read is no longer than what was written, and that is shorter than the text
      rcases hcodec (removeHeading text) with hsame | hmark
      · rw [← hsame, hread] at hlt
        exact absurd hlt (lt_irrefl _)
      · rw [hmark, hread, List.length_cons] at hlt
        omega
    rw [removeHeading_of_not hnone] at hread
    exact ⟨hnone, hread⟩
  · rintro ⟨hnone, hread⟩
    rw [removeHeading_of_not hnone, hread]

theorem fileReads_iff {codec : TextCodec} {t : Tree} {path : Text} {l : List Text}
    {bytes : List UInt8} {text : String} (hl : pathSegments path = .ok l)
    (hstored : t.lookup l = some (.file bytes)) :
    FileReads codec t path text ↔ codec.decode bytes = text := by
  constructor
  · rintro ⟨l', bytes', hl', hstored', htext⟩
    rw [hl] at hl'
    cases hl'
    rw [hstored] at hstored'
    cases hstored'
    exact htext
  · intro htext
    exact ⟨l, bytes, hl, hstored, htext⟩

/-- A note without edits that is opened and saved in source mode reads as before exactly if
no save went through, or the text begins with no heading and storing it keeps it. -/
theorem saved_note_unchanged_iff (kit : EditorKit Doc) (codec : TextCodec) (clock : Clock)
    (app app' app'' : AppState Doc) (t t' t'' : Tree) (path : Text) (skipHistory : Bool) (n : ℕ)
    (outs : List Bool) (text : String) (hcodec : ReadsBack codec)
    (hsource : app.editorMode = .source) (hsaved : ¬ Unsaved app path)
    (hfile : FileReads codec t path text)
    (hopen : Exec (Serves codec clock) t ((openNote kit path skipHistory).call app)
      (.ok (), app') t')
    (hsaves : Exec (Serves codec clock) t' ((saveTimes kit path n).call app') (.ok outs, app'') t'') :
    FileReads codec t'' path text ↔
      true ∉ outs ∨ ¬ HasHeading text ∧ codec.decode (codec.encode text) = text := by
  obtain ⟨l, bytes, hl, hstored, htext⟩ := hfile
  have hpath : path ≠ [] := by
    rintro rfl
    cases hl
  obtain ⟨hmode, hactive, hsame, bytes', hstored', hbuffer⟩ :=
    Holds.exec (openNote_opens hl hsaved skipHistory) hopen
  rw [hstored] at hstored'
  cases hstored'
  rw [htext] at hbuffer
  obtain ⟨-, hwritten⟩ :=
    Holds.exec (saveTimes_writes (hmode.trans hsource) (by simp [hactive, given, hpath]) hpath hl n)
      hsaves
  rw [hbuffer, hsame, hstored] at hwritten
  split at hwritten
  next hsome =>
    rw [fileReads_iff hl hwritten, read_removed_iff hcodec]
    simp [hsome]
  next hnone =>
    rw [fileReads_iff hl hwritten]
    simp [hnone, htext]

section Sample

/-- An editor whose documents are their markdown. -/
def plainKit : EditorKit String := ⟨id, id⟩

def planPath : Text := "/Notes/plan.md".toList

def planTree : Tree :=
  ofPairs [(["Notes".toList], .dir),
    (["Notes".toList, "plan.md".toList], .file (utf8Codec.encode "# Plan\nBuy milk"))]

def sourceApp : AppState String := ⟨none, [], .source, "", ⟨none, none⟩⟩

def someClock : Clock := ⟨0, fun _ => none⟩

def opened : (Except Failure Unit × AppState String) × Tree :=
  eval (respond utf8Codec someClock) ((openNote plainKit planPath false).call sourceApp) planTree

def savedTwice : (Except Failure (List Bool) × AppState String) × Tree :=
  eval (respond utf8Codec someClock) ((saveTimes plainKit planPath 2).call opened.1.2) opened.2

theorem plan_read : FileReads utf8Codec planTree planPath "# Plan\nBuy milk" :=
  ⟨_, _, rfl, rfl, by decide⟩

theorem plan_opened : Exec (Serves utf8Codec someClock) planTree
    ((openNote plainKit planPath false).call sourceApp) (.ok (), opened.1.2) opened.2 :=
  served_of_eval rfl

theorem plan_saved : Exec (Serves utf8Codec someClock) opened.2
    ((saveTimes plainKit planPath 2).call opened.1.2) (.ok [true, true], savedTwice.1.2)
    savedTwice.2 :=
  served_of_eval rfl

theorem plan_unchanged_iff :
    FileReads utf8Codec savedTwice.2 planPath "# Plan\nBuy milk" ↔
      true ∉ [true, true] ∨ ¬ HasHeading "# Plan\nBuy milk" ∧
        utf8Codec.decode (utf8Codec.encode "# Plan\nBuy milk") = "# Plan\nBuy milk" :=
  saved_note_unchanged_iff plainKit utf8Codec someClock sourceApp opened.1.2 savedTwice.1.2 planTree
    opened.2 savedTwice.2 planPath false 2 [true, true] "# Plan\nBuy milk" readsBack_utf8 rfl
    (by rintro ⟨_, h, -⟩; cases h) plan_read plan_opened plan_saved

theorem saved_note_loses_heading : ¬ ∀ (app app' app'' : AppState String) (t t' t'' : Tree)
    (path : Text) (skipHistory : Bool) (n : ℕ) (outs : List Bool) (text : String),
    app.editorMode = .source → ¬ Unsaved app path → FileReads utf8Codec t path text →
    Exec (Serves utf8Codec someClock) t ((openNote plainKit path skipHistory).call app)
      (.ok (), app') t' →
    Exec (Serves utf8Codec someClock) t' ((saveTimes plainKit path n).call app') (.ok outs, app'')
      t'' →
    FileReads utf8Codec t'' path text := by
  intro h
  have hkept := h sourceApp opened.1.2 savedTwice.1.2 planTree opened.2 savedTwice.2 planPath false 2
    [true, true] "# Plan\nBuy milk" rfl (by rintro ⟨_, h, -⟩; cases h) plan_read plan_opened plan_saved
  obtain ⟨l, bytes, hl, hstored, htext⟩ := hkept
  cases hl
  cases hstored
  exact absurd htext (by decide)

end Sample

end Tactile.Notes.Saving
