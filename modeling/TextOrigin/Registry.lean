import TextOrigin.LineTable
import TextOrigin.Path
import TextOrigin.Settings
import TextOrigin.Traced

/-!
The registry of source files. Files are only ever added. An id is the value of a counter and
names the file at that place of the list; both grow together, so ids run from zero in the order of
registration until the greatest word, which no file receives. A file knows its path, perhaps a line
table, and perhaps its text; a retained text always comes with its own table.
-/

namespace TextOrigin

inductive Backing where
  | nothing
  | table (lines : LineTable)
  | text (content : Text) (lines : LineTable) (lines_eq : lines = LineTable.ofText content)

namespace Backing

def ofText (content : Text) : Backing :=
  .text content (LineTable.ofText content) rfl

def lines? : Backing → Option LineTable
  | .nothing => none
  | .table lines => some lines
  | .text _ lines _ => some lines

def content? : Backing → Option Text
  | .text content _ _ => some content
  | _ => none

theorem content?_eq_some_iff {backing : Backing} {content : Text} :
    backing.content? = some content ↔ backing = .ofText content := by
  constructor
  · intro h
    cases backing with
    | nothing => contradiction
    | table lines => contradiction
    | text retained lines lines_eq =>
      subst lines_eq
      rw [← Option.some.inj h]
      rfl
  · intro h
    rw [h]
    rfl

def withoutContent : Backing → Backing
  | .text _ lines _ => .table lines
  | backing => backing

theorem lines?_withoutContent (backing : Backing) :
    backing.withoutContent.lines? = backing.lines? := by
  cases backing <;> rfl

end Backing

structure SourceFile where
  path : Bytes
  backing : Backing

structure Registry where
  files : Array SourceFile := #[]
  nextId : Word := 0

namespace Registry

def empty : Registry := {}

def exhaustedMessage : Bytes := ascii "source manager exhausted file identifier space"

/-- Adds a file under the normal form of its path. Once all ids are issued the registry stays as it
is, the id is the unknown one, and the failure is reported. -/
def add (registry : Registry) (path : Bytes) (backing : Backing) :
    Traced (FileId × Registry) :=
  if FileId.unknown.value.toUInt64 ≤ registry.nextId then
    ⟨(FileId.unknown, registry), [ascii "error: " ++ exhaustedMessage]⟩
  else
    pure (⟨registry.nextId.toUInt32⟩,
      { files := registry.files.push ⟨Path.normalize path, backing⟩
        nextId := registry.nextId + 1 })

def file? (registry : Registry) (file : FileId) : Option SourceFile :=
  if file.isKnown then registry.files[file.value.toNat]? else none

def path (registry : Registry) (file : FileId) : Bytes :=
  match registry.file? file with
  | some entry => entry.path
  | none => []

def content? (registry : Registry) (file : FileId) : Option Text :=
  (registry.file? file).bind fun entry => entry.backing.content?

theorem content?_eq_some_iff {registry : Registry} {file : FileId} {text : Text} :
    registry.content? file = some text ↔
      ∃ path, registry.file? file = some ⟨path, .ofText text⟩ := by
  rw [content?, Option.bind_eq_some_iff]
  constructor
  · intro h
    obtain ⟨entry, hentry, hcontent⟩ := h
    exact ⟨entry.path, by rw [hentry, ← Backing.content?_eq_some_iff.1 hcontent]⟩
  · intro h
    obtain ⟨path, hentry⟩ := h
    exact ⟨_, hentry, rfl⟩

def lines? (registry : Registry) (file : FileId) : Option LineTable :=
  (registry.file? file).bind fun entry => entry.backing.lines?

def positionAt? (registry : Registry) (file : FileId) (offset : Word) : Option Position :=
  (registry.lines? file).bind fun lines => lines.locate? offset

/-- The place of an offset in a file. A closest resolution moves an offset past the end of the file
to its end. -/
def place? (registry : Registry) (mode : Mode) (file : FileId) (offset : Word) :
    Option Location :=
  let exact := registry.positionAt? file offset
  let position := match exact, mode with
    | none, .closest => (registry.lines? file).bind fun lines => lines.locate? (min offset lines.total)
    | _, _ => exact
  position.map fun p => ⟨file, p⟩

def lineText? (registry : Registry) (file : FileId) (row : Word) : Option Bytes :=
  match registry.file? file with
  | some ⟨_, .text content lines _⟩ =>
    match lines.lineStart? row, lines.lineEnd? row with
    | some start, some stop => some (Bytes.slice content.bytes start (stop - start))
    | _, _ => none
  | _ => none

/-- Number of characters that start before a byte column, for display. A column inside a character
counts that character. -/
def displayColumn? (registry : Registry) (file : FileId) (row column : Word) : Option Word :=
  match registry.file? file with
  | some ⟨_, .text content lines _⟩ =>
    match lines.lineStart? row with
    | some start =>
      if content.size < start + column then none
      else some (UInt64.ofNat (Bytes.characterCount (Bytes.slice content.bytes start column)))
    | none => none
  | _ => none

/-- A registry of the same ids, paths and line tables that retains no text. -/
def withoutContent (registry : Registry) : Registry where
  files := registry.files.map fun entry => ⟨entry.path, entry.backing.withoutContent⟩
  nextId := registry.nextId

end Registry

end TextOrigin
