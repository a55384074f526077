import TextOrigin.Proofs.Record.RangeEnds

/-!
Runs of registrations. A registry that grew from the empty one counts its files: the counter and the
list go up together, so the id of a new file is the number of files before it. Once all ids are
issued, a further file is refused and nothing changes. What an id names, and so what an offset
resolved to, stays as it is for the rest of the run. Main statement: `registrations_append_only`.
-/

namespace TextOrigin

/-- A file on its way into a registry: the path as it was spelled and what is kept of the text. -/
structure Registration where
  path : Bytes
  backing : Backing

namespace Registry

def capacity : Nat := FileId.unknown.value.toNat

def register (registry : Registry) (call : Registration) : Traced (FileId × Registry) :=
  registry.add call.path call.backing

def registerAll (registry : Registry) : List Registration → Traced (List FileId × Registry)
  | [] => pure ([], registry)
  | call :: rest => do
    let first ← registry.register call
    let others ← first.2.registerAll rest
    return (first.1 :: others.1, others.2)

def after (registry : Registry) (calls : List Registration) : Registry :=
  (registry.registerAll calls).value.2

/-- The ids that a run gives out, with the unknown one for each refused file. -/
def issued (registry : Registry) (calls : List Registration) : List FileId :=
  (registry.registerAll calls).value.1

@[simp] theorem after_nil (registry : Registry) : registry.after [] = registry := rfl

@[simp] theorem issued_nil (registry : Registry) : registry.issued [] = [] := rfl

theorem after_cons (registry : Registry) (call : Registration) (rest : List Registration) :
    registry.after (call :: rest) = (registry.register call).value.2.after rest := rfl

theorem issued_cons (registry : Registry) (call : Registration) (rest : List Registration) :
    registry.issued (call :: rest) =
      (registry.register call).value.1 :: (registry.register call).value.2.issued rest := rfl

theorem lines_registerAll_cons (registry : Registry) (call : Registration)
    (rest : List Registration) :
    (registry.registerAll (call :: rest)).lines = (registry.register call).lines ++
      ((registry.register call).value.2.registerAll rest).lines := by
  simp only [registerAll, Traced.lines_bind, Traced.lines_pure, List.append_nil]

theorem after_append (registry : Registry) (first second : List Registration) :
    registry.after (first ++ second) = (registry.after first).after second := by
  induction first generalizing registry with
  | nil => rw [List.nil_append, after_nil]
  | cons call rest ih => rw [List.cons_append, after_cons, ih, after_cons]

theorem positionAt?_congr {first second : Registry} {file : FileId}
    (h : first.lines? file = second.lines? file) (offset : Word) :
    first.positionAt? file offset = second.positionAt? file offset := by
  rw [positionAt?, positionAt?, h]

theorem place?_congr {first second : Registry} {file : FileId} (mode : Mode) (offset : Word)
    (h : first.lines? file = second.lines? file) :
    first.place? mode file offset = second.place? mode file offset := by
  unfold place?
  rw [positionAt?_congr h, h]

/-- The counter is the number of files, and there are no more files than ids. -/
structure Counted (registry : Registry) : Prop where
  nextId_eq : registry.nextId.toNat = registry.files.size
  size_le : registry.files.size ≤ capacity

theorem counted_empty : empty.Counted := ⟨rfl, Nat.zero_le _⟩

theorem unknown_le_iff {registry : Registry} :
    FileId.unknown.value.toUInt64 ≤ registry.nextId ↔ capacity ≤ registry.nextId.toNat :=
  UInt64.le_iff_toNat_le

theorem register_of_lt {registry : Registry} (call : Registration)
    (h : registry.nextId.toNat < capacity) :
    registry.register call = pure (⟨registry.nextId.toUInt32⟩,
      ⟨registry.files.push ⟨Path.normalize call.path, call.backing⟩, registry.nextId + 1⟩) :=
  if_neg fun hle => Nat.not_le.2 h (unknown_le_iff.1 hle)

theorem register_of_le {registry : Registry} (call : Registration)
    (h : capacity ≤ registry.nextId.toNat) :
    registry.register call =
      ⟨(FileId.unknown, registry), [ascii "error: " ++ exhaustedMessage]⟩ :=
  if_pos (unknown_le_iff.2 h)

theorem toNat_nextId {registry : Registry} (h : registry.nextId.toNat < capacity) :
    registry.nextId.toUInt32.toNat = registry.nextId.toNat := by
  have hcapacity : capacity < UInt32.size := by decide
  rw [UInt64.toNat_toUInt32]
  exact Nat.mod_eq_of_lt (Nat.lt_trans h hcapacity)

theorem isKnown_of_lt {file : FileId} (h : file.value.toNat < capacity) : file.isKnown = true := by
  apply bne_iff_ne.2
  intro heq
  rw [heq] at h
  exact Nat.lt_irrefl _ h

theorem isKnown_unknown : FileId.unknown.isKnown = false := by decide

theorem file?_register {registry : Registry} {file : FileId} {entry : SourceFile}
    (call : Registration) (h : registry.file? file = some entry) :
    (registry.register call).value.2.file? file = some entry := by
  by_cases hlt : registry.nextId.toNat < capacity
  · rw [register_of_lt call hlt]
    rw [file?] at h ⊢
    by_cases hknown : file.isKnown = true
    · rw [if_pos hknown] at h ⊢
      have hsize := (Array.getElem?_eq_some_iff.1 h).1
      exact (Array.getElem?_push_lt hsize).trans ((Array.getElem?_eq_getElem hsize).symm.trans h)
    · rw [if_neg hknown] at h
      contradiction
  · rw [register_of_le call (Nat.not_lt.1 hlt)]
    exact h

theorem file?_after {registry : Registry} {file : FileId} {entry : SourceFile}
    (calls : List Registration) (h : registry.file? file = some entry) :
    (registry.after calls).file? file = some entry := by
  induction calls generalizing registry with
  | nil => exact h
  | cons call rest ih => exact ih (file?_register call h)

namespace Counted

variable {registry : Registry}

theorem register (h : registry.Counted) (call : Registration) :
    (registry.register call).value.2.Counted := by
  by_cases hlt : registry.nextId.toNat < capacity
  · rw [register_of_lt call hlt]
    have hcapacity : capacity < UInt64.size := by decide
    have hnext : (registry.nextId + 1).toNat = registry.files.size + 1 := by
      rw [← h.nextId_eq]
      exact toNat_add_of_lt (Nat.lt_of_le_of_lt hlt hcapacity)
    rw [h.nextId_eq] at hlt
    refine ⟨hnext.trans (Array.size_push _).symm, ?_⟩
    exact Nat.le_trans (Nat.le_of_eq (Array.size_push _)) hlt
  · rw [register_of_le call (Nat.not_lt.1 hlt)]
    exact h

theorem after (h : registry.Counted) (calls : List Registration) :
    (registry.after calls).Counted := by
  induction calls generalizing registry with
  | nil => exact h
  | cons call rest ih => exact ih (h.register call)

theorem isKnown_iff (h : registry.Counted) (call : Registration) :
    (registry.register call).value.1.isKnown = true ↔ registry.files.size < capacity := by
  rw [← h.nextId_eq]
  by_cases hlt : registry.nextId.toNat < capacity
  · rw [register_of_lt call hlt]
    have hid : registry.nextId.toUInt32.toNat < capacity := by rwa [toNat_nextId hlt]
    have hknown : FileId.isKnown ⟨registry.nextId.toUInt32⟩ = true := isKnown_of_lt hid
    exact iff_of_true hknown hlt
  · rw [register_of_le call (Nat.not_lt.1 hlt)]
    exact iff_of_false (Bool.eq_false_iff.1 isKnown_unknown) hlt

theorem toNat_register (h : registry.Counted) (call : Registration)
    (hlt : registry.files.size < capacity) :
    (registry.register call).value.1.value.toNat = registry.files.size := by
  rw [← h.nextId_eq] at hlt ⊢
  rw [register_of_lt call hlt]
  exact toNat_nextId hlt

theorem size_register (h : registry.Counted) (call : Registration)
    (hlt : registry.files.size < capacity) :
    (registry.register call).value.2.files.size = registry.files.size + 1 := by
  rw [← h.nextId_eq] at hlt
  rw [register_of_lt call hlt]
  exact Array.size_push _

theorem register_of_full (h : registry.Counted) (call : Registration)
    (hfull : capacity ≤ registry.files.size) :
    (registry.register call).value = (FileId.unknown, registry) := by
  rw [← h.nextId_eq] at hfull
  rw [register_of_le call hfull]

theorem file?_registered (h : registry.Counted) (call : Registration)
    (hlt : registry.files.size < capacity) :
    (registry.register call).value.2.file? (registry.register call).value.1 =
      some ⟨Path.normalize call.path, call.backing⟩ := by
  have hknown := (h.isKnown_iff call).2 hlt
  have hplace := h.toNat_register call hlt
  rw [file?, if_pos hknown, hplace]
  rw [← h.nextId_eq] at hlt
  rw [register_of_lt call hlt]
  exact Array.getElem?_push_size

theorem known_issued (h : registry.Counted) (calls : List Registration) :
    ((registry.issued calls).filter FileId.isKnown).map (·.value.toNat) =
      List.range' registry.files.size (min calls.length (capacity - registry.files.size)) := by
  induction calls generalizing registry with
  | nil => simp
  | cons call rest ih =>
    rw [issued_cons, List.filter_cons, List.length_cons]
    by_cases hlt : registry.files.size < capacity
    · have hroom : min (rest.length + 1) (capacity - registry.files.size) =
          min rest.length (capacity - (registry.files.size + 1)) + 1 := by omega
      rw [if_pos ((h.isKnown_iff call).2 hlt), List.map_cons, ih (h.register call),
        h.toNat_register call hlt, h.size_register call hlt, hroom, List.range'_succ]
    · have hfull : capacity - registry.files.size = 0 := by omega
      have hsame := h.register_of_full call (Nat.not_lt.1 hlt)
      rw [if_neg (mt (h.isKnown_iff call).1 hlt), ih (h.register call), hsame, hfull,
        Nat.min_zero, Nat.min_zero]

theorem countP_issued (h : registry.Counted) (calls : List Registration) :
    (registry.issued calls).countP FileId.isKnown =
      min calls.length (capacity - registry.files.size) := by
  have hlength := congrArg List.length (h.known_issued calls)
  rwa [List.length_map, List.length_range', ← List.countP_eq_length_filter] at hlength

theorem nodup_issued (h : registry.Counted) (calls : List Registration) :
    ((registry.issued calls).filter FileId.isKnown).Nodup := by
  have hnodup : (((registry.issued calls).filter FileId.isKnown).map (·.value.toNat)).Nodup := by
    rw [h.known_issued calls]
    exact List.nodup_range'
  exact (List.pairwise_map.1 hnodup).imp fun hne heq => hne (by rw [heq])

theorem size_after (h : registry.Counted) (calls : List Registration) :
    (registry.after calls).files.size = min (registry.files.size + calls.length) capacity := by
  induction calls generalizing registry with
  | nil => exact (Nat.min_eq_left h.size_le).symm
  | cons call rest ih =>
    rw [after_cons, ih (h.register call), List.length_cons]
    by_cases hlt : registry.files.size < capacity
    · rw [h.size_register call hlt]
      omega
    · rw [h.register_of_full call (Nat.not_lt.1 hlt)]
      change min (registry.files.size + rest.length) capacity = _
      omega

end Counted

end Registry

namespace Record

theorem resolve_after {registry : Registry} {settings : Settings} {mode : Mode} {record : Record}
    {offset : Word} {location : Location} (calls : List Registration)
    (h : (record.resolve registry settings mode offset).value = some location) :
    record.resolve (registry.after calls) settings mode offset =
      record.resolve registry settings mode offset := by
  rw [value_resolve] at h
  obtain ⟨landing, hlanding, hplace⟩ := Option.bind_eq_some_iff.1 h
  have hlines : (registry.after calls).lines? landing.1 = registry.lines? landing.1 := by
    obtain ⟨⟨lines, hlines, -, -⟩, hfile, -⟩ := Registry.place?_inFile hplace
    rw [hfile] at hlines
    obtain ⟨entry, hentry, -⟩ := Option.bind_eq_some_iff.1 hlines
    rw [Registry.lines?, Registry.lines?, Registry.file?_after calls hentry, hentry]
  have hsame := Registry.place?_congr mode landing.2 hlines
  simp only [resolve, hlanding, Option.bind_some, hsame]

end Record

namespace Registry

/-- A run only ever appends. As long as ids are left, the next call succeeds, its id is the number of
successful calls before it, and for the rest of the run the id names the file as it was registered.
From then on every call is refused and changes nothing. No id is given out twice, and what an offset
of a record resolved to at some point it resolves to at every later one. -/
theorem registrations_append_only (before : List Registration) (call : Registration)
    (later : List Registration) :
    (empty.after before).nextId.toNat = (empty.after before).files.size ∧
      (before.length < capacity →
        ((empty.after before).register call).value.1.isKnown = true ∧
          ((empty.after before).register call).value.1.value.toNat =
            (empty.issued before).countP FileId.isKnown ∧
          (empty.after (before ++ call :: later)).file?
              ((empty.after before).register call).value.1 =
            some ⟨Path.normalize call.path, call.backing⟩) ∧
      (capacity ≤ before.length →
        ((empty.after before).register call).value = (FileId.unknown, empty.after before)) ∧
      ((empty.issued (before ++ call :: later)).filter FileId.isKnown).Nodup ∧
      ∀ (record : Record) (settings : Settings) (mode : Mode) (offset : Word) (location : Location),
        (record.resolve (empty.after before) settings mode offset).value = some location →
        record.resolve (empty.after (before ++ call :: later)) settings mode offset =
          record.resolve (empty.after before) settings mode offset := by
  have hcounted := counted_empty.after before
  have hsize : (empty.after before).files.size = min before.length capacity := by
    rw [counted_empty.size_after before]
    exact congrArg (min · capacity) (Nat.zero_add before.length)
  refine ⟨hcounted.nextId_eq, fun hlt => ?_, fun hle => ?_,
    counted_empty.nodup_issued _, fun record settings mode offset location h => ?_⟩
  · have hroom : (empty.after before).files.size < capacity := by omega
    refine ⟨(hcounted.isKnown_iff call).2 hroom, ?_, ?_⟩
    · rw [hcounted.toNat_register call hroom, hsize, counted_empty.countP_issued before]
      rfl
    · rw [after_append, after_cons]
      exact file?_after later (hcounted.file?_registered call hroom)
  · exact hcounted.register_of_full call (by omega)
  · rw [after_append]
    exact Record.resolve_after (call :: later) h

/-! A note, a text known by its lines alone and one without a file, and as many files as ids. -/

def noteCall : Registration := ⟨ascii "./notes", Backing.ofText ⟨ascii "p\nq", by decide⟩⟩

def logCall : Registration := ⟨ascii "logs//old/../new", .table ⟨[4], 9, by simp, by simp⟩⟩

def stdinCall : Registration := ⟨ascii "<stdin>", .nothing⟩

def noteEnd : Record := Record.leaf ⟨0⟩ ⟨0⟩ ⟨⟨2, 1, 0⟩, ⟨3, 1, 1⟩⟩

theorem registrations_append_only_full :
    ((empty.after [noteCall]).register logCall).value.1 = ⟨1⟩ ∧
      (empty.after [noteCall, logCall, stdinCall]).file? ⟨1⟩ =
        some ⟨ascii "logs/new", logCall.backing⟩ ∧
      (noteEnd.resolve (empty.after [noteCall, logCall, stdinCall]) {} .closest 7).value =
        some ⟨⟨0⟩, 3, 1, 1⟩ ∧
      ((empty.after (List.replicate 4294967295 stdinCall)).register logCall).value =
        (FileId.unknown, empty.after (List.replicate 4294967295 stdinCall)) := by
  have hid : ((empty.after [noteCall]).register logCall).value.1 = ⟨1⟩ := by decide
  have hresolve : (noteEnd.resolve (empty.after [noteCall]) {} .closest 7).value =
      some ⟨⟨0⟩, 3, 1, 1⟩ := by
    decide +kernel
  obtain ⟨-, hsuccess, -, -, hstable⟩ := registrations_append_only [noteCall] logCall [stdinCall]
  obtain ⟨-, -, hfile⟩ := hsuccess (by decide)
  rw [hid] at hfile
  refine ⟨hid, hfile, ?_, ?_⟩
  · exact (congrArg (·.value) (hstable noteEnd {} .closest 7 _ hresolve)).trans hresolve
  · exact (registrations_append_only (List.replicate 4294967295 stdinCall) logCall []).2.2.1
      (by rw [List.length_replicate]; decide)

end Registry

end TextOrigin
