import TextOrigin.Pool.Decode
import TextOrigin.Proofs.Registry.Runs

/-!
Registries without their texts. Two registries that are the same once all texts are forgotten issue
the same id for a further file and are the same without texts after it, so they stay in step over
any run. Places, resolutions, headings and the rules of pools read paths and line tables only, and
cannot tell such registries apart. Main statement: `withoutContent_indistinguishable`.
-/

namespace TextOrigin

theorem Backing.withoutContent_withoutContent (backing : Backing) :
    backing.withoutContent.withoutContent = backing.withoutContent := by
  cases backing <;> rfl

namespace Registry

/-- Two registries that differ in retained texts only. -/
def InStep (first second : Registry) : Prop :=
  first.withoutContent = second.withoutContent

theorem withoutContent_inStep (registry : Registry) : registry.withoutContent.InStep registry := by
  have hfiles : registry.withoutContent.withoutContent.files = registry.withoutContent.files := by
    simp only [withoutContent, Array.map_map]
    apply Array.map_congr_left
    intro entry _
    exact congrArg (SourceFile.mk entry.path) entry.backing.withoutContent_withoutContent
  exact congrArg (Registry.mk · registry.nextId) hfiles

theorem file?_withoutContent (registry : Registry) (file : FileId) :
    registry.withoutContent.file? file =
      (registry.file? file).map fun entry => ⟨entry.path, entry.backing.withoutContent⟩ := by
  unfold file? withoutContent
  split
  · exact Array.getElem?_map
  · rfl

theorem isSome_file?_withoutContent (registry : Registry) (file : FileId) :
    (registry.withoutContent.file? file).isSome = (registry.file? file).isSome := by
  rw [file?_withoutContent, Option.isSome_map]

theorem path_withoutContent (registry : Registry) (file : FileId) :
    registry.withoutContent.path file = registry.path file := by
  unfold path
  rw [file?_withoutContent]
  cases registry.file? file <;> rfl

theorem lines?_withoutContent (registry : Registry) (file : FileId) :
    registry.withoutContent.lines? file = registry.lines? file := by
  unfold lines?
  rw [file?_withoutContent]
  cases registry.file? file with
  | none => rfl
  | some entry => exact entry.backing.lines?_withoutContent

namespace InStep

variable {first second : Registry}

theorem withoutContent_eq (h : first.InStep second) :
    first.withoutContent = second.withoutContent := h

theorem nextId_eq (h : first.InStep second) : first.nextId = second.nextId := by
  have hnext := congrArg Registry.nextId h.withoutContent_eq
  exact hnext

theorem path_eq (h : first.InStep second) (file : FileId) : first.path file = second.path file := by
  rw [← path_withoutContent, h.withoutContent_eq, path_withoutContent]

theorem lines?_eq (h : first.InStep second) (file : FileId) :
    first.lines? file = second.lines? file := by
  rw [← lines?_withoutContent, h.withoutContent_eq, lines?_withoutContent]

theorem isSome_file?_eq (h : first.InStep second) (file : FileId) :
    (first.file? file).isSome = (second.file? file).isSome := by
  rw [← isSome_file?_withoutContent, h.withoutContent_eq, isSome_file?_withoutContent]

theorem register (h : first.InStep second) (call : Registration) :
    (first.register call).value.1 = (second.register call).value.1 ∧
      (first.register call).lines = (second.register call).lines ∧
      (first.register call).value.2.InStep (second.register call).value.2 := by
  have hnext := h.nextId_eq
  by_cases hlt : first.nextId.toNat < capacity
  · rw [register_of_lt call hlt, register_of_lt call (by rwa [← hnext]), hnext]
    refine ⟨rfl, rfl, ?_⟩
    have hfiles := congrArg Registry.files h.withoutContent_eq
    simp only [withoutContent] at hfiles
    simp only [InStep, withoutContent, Traced.value_pure, Array.map_push, hfiles]
  · have hle := Nat.not_lt.1 hlt
    rw [register_of_le call hle, register_of_le call (by rwa [← hnext])]
    exact ⟨rfl, rfl, h⟩

theorem registerAll (h : first.InStep second) (calls : List Registration) :
    first.issued calls = second.issued calls ∧
      (first.registerAll calls).lines = (second.registerAll calls).lines ∧
      (first.after calls).InStep (second.after calls) := by
  induction calls generalizing first second with
  | nil => exact ⟨rfl, rfl, h⟩
  | cons call rest ih =>
    obtain ⟨hid, hlines, hnext⟩ := h.register call
    obtain ⟨hids, hothers, hlast⟩ := ih hnext
    refine ⟨?_, ?_, hlast⟩
    · rw [issued_cons, issued_cons, hid, hids]
    · rw [lines_registerAll_cons, lines_registerAll_cons, hlines, hothers]

end InStep

end Registry

namespace Record

variable {first second : Registry}

theorem resolve_congr (h : ∀ file, first.lines? file = second.lines? file) (settings : Settings)
    (mode : Mode) (record : Record) (offset : Word) :
    record.resolve first settings mode offset = record.resolve second settings mode offset := by
  have hplace : first.place? = second.place? := by
    funext mode file offset
    exact Registry.place?_congr mode offset (h file)
  simp only [resolve, hplace]

theorem nextLocation_congr (h : ∀ file, first.lines? file = second.lines? file)
    (location : Location) : nextLocation first location = nextLocation second location := by
  rw [nextLocation_eq, nextLocation_eq, Registry.positionAt?_congr (h location.file)]

theorem resolveRange_congr (h : ∀ file, first.lines? file = second.lines? file)
    (settings : Settings) (mode : Mode) (record : Record) (start stop : Word) :
    record.resolveRange first settings mode start stop =
      record.resolveRange second settings mode start stop := by
  have hnext : nextLocation first = nextLocation second := by
    funext location
    exact nextLocation_congr h location
  simp only [resolveRange, resolve_congr h, hnext]

theorem locate_congr (h : ∀ file, first.lines? file = second.lines? file) (record : Record)
    (offset : Word) : record.locate first offset = record.locate second offset := by
  rw [locate, locate, resolve_congr h]

end Record

theorem Diagnostic.heading_congr {first second : Registry}
    (h : ∀ file, first.path file = second.path file) (diagnostic : Diagnostic) :
    diagnostic.heading (some first) = diagnostic.heading (some second) := by
  rw [heading, heading, placeText, placeText, h]

namespace Pool

variable {first second : Registry}

theorem entryFault?_congr (h : ∀ file, (first.file? file).isSome = (second.file? file).isSome)
    (pool : Pool) (id : Nat) (entry : Entry) :
    pool.entryFault? (some first) id entry = pool.entryFault? (some second) id entry := by
  have hlink : pool.linkFault? (some first) id entry.length =
      pool.linkFault? (some second) id entry.length := by
    funext link
    cases link with
    | leaf file => simp only [linkFault?, h]
    | substring parent offset => rfl
    | concat pieces => rfl
    | transformed parent mapping => rfl
  unfold entryFault?
  rw [hlink]

theorem fault?_congr (h : ∀ file, (first.file? file).isSome = (second.file? file).isSome)
    (pool : Pool) : pool.fault? (some first) = pool.fault? (some second) := by
  have hentry : pool.entryFault? (some first) = pool.entryFault? (some second) := by
    funext id entry
    exact entryFault?_congr h pool id entry
  rw [fault?, fault?, hentry]

theorem decode_congr (h : ∀ file, (first.file? file).isSome = (second.file? file).isSome)
    (pool : Pool) (supply : NodeSupply) :
    pool.decode (some first) supply = pool.decode (some second) supply := by
  rw [decode, decode, fault?_congr h]

end Pool

namespace Registry

/-- Two registries that no question about places, records, diagnostics or pools tells apart. -/
structure Indistinguishable (first second : Registry) : Prop where
  positionAt? : ∀ file offset, first.positionAt? file offset = second.positionAt? file offset
  path : ∀ file, first.path file = second.path file
  resolve : ∀ (record : Record) settings mode offset,
    record.resolve first settings mode offset = record.resolve second settings mode offset
  resolveRange : ∀ (record : Record) settings mode start stop,
    record.resolveRange first settings mode start stop =
      record.resolveRange second settings mode start stop
  locate : ∀ (record : Record) offset, record.locate first offset = record.locate second offset
  heading : ∀ diagnostic : Diagnostic,
    diagnostic.heading (some first) = diagnostic.heading (some second)
  fault? : ∀ pool : Pool, pool.fault? (some first) = pool.fault? (some second)
  decode : ∀ (pool : Pool) supply,
    pool.decode (some first) supply = pool.decode (some second) supply

theorem InStep.indistinguishable {first second : Registry} (h : first.InStep second) :
    first.Indistinguishable second where
  positionAt? file := positionAt?_congr (h.lines?_eq file)
  path := h.path_eq
  resolve record settings mode := Record.resolve_congr h.lines?_eq settings mode record
  resolveRange record settings mode := Record.resolveRange_congr h.lines?_eq settings mode record
  locate := Record.locate_congr h.lines?_eq
  heading := Diagnostic.heading_congr h.path_eq
  fault? := Pool.fault?_congr h.isSome_file?_eq
  decode := Pool.decode_congr h.isSome_file?_eq

/-- A registry whose texts are dropped goes on as the registry would. Whatever files are registered
in both from then on, with texts or without, get the same ids and the same reports, and no place,
resolution, heading or rule of pools shows which of the two was asked. -/
theorem withoutContent_indistinguishable (registry : Registry) (calls : List Registration) :
    registry.withoutContent.issued calls = registry.issued calls ∧
      (registry.withoutContent.registerAll calls).lines = (registry.registerAll calls).lines ∧
      (registry.withoutContent.after calls).Indistinguishable (registry.after calls) := by
  obtain ⟨hids, hlines, hlast⟩ := registry.withoutContent_inStep.registerAll calls
  exact ⟨hids, hlines, hlast.indistinguishable⟩

end Registry

end TextOrigin
