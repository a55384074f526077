import TextOrigin.Pool.Decode
import TextOrigin.Proofs.Pool.Rules
import TextOrigin.Proofs.Record.Graph

/-!
What rebuilding makes of a pool. A pool that breaks no rule is always rebuilt: when the record of an
entry is made, those that it refers to are there already. Record `i` stands on node `i` of the fresh
ones, and refers to the records of the entries that its entry refers to.
-/

namespace TextOrigin.Pool

def recordAt (built : Array Record) (id : EntryId) : Record :=
  built.getD id.toNat (Record.unknown ⟨0⟩)

theorem recordAt_push {built : Array Record} {id : EntryId} (h : id.toNat < built.size)
    (record : Record) : recordAt (built.push record) id = recordAt built id := by
  rw [recordAt, recordAt, Array.getD_eq_getD_getElem?, Array.getD_eq_getD_getElem?,
    Array.getElem?_push_lt h, Array.getElem?_eq_getElem h]

theorem getElem?_recordAt {built : Array Record} {id : EntryId} (h : id.toNat < built.size) :
    built[id.toNat]? = some (recordAt built id) := by
  rw [recordAt, Array.getD_eq_getD_getElem?, Array.getElem?_eq_getElem h, Option.getD_some]

/-- The records of the first entries, on nodes in order. -/
structure Rebuilt (pool : Pool) (supply : NodeSupply) (built : Array Record) : Prop where
  size_le : built.size ≤ pool.size
  ordered : Record.Ordered built.toList
  record : ∀ i entry, i < built.size → pool[i]? = some entry →
    ∃ link, entry.link? = some link ∧ (∀ target ∈ link.refs, target.toNat < i) ∧
      built[i]? = some (.mk ⟨supply.next + i⟩ entry.range (link.map (recordAt built)))

theorem rebuilt_empty (pool : Pool) (supply : NodeSupply) : Rebuilt pool supply #[] where
  size_le := Nat.zero_le _
  ordered := .nil
  record i _ hi := absurd hi (Nat.not_lt_zero i)

theorem Rebuilt.node_eq {pool : Pool} {supply : NodeSupply} {built : Array Record}
    (h : Rebuilt pool supply built) {i : Nat} {record : Record} (hi : built[i]? = some record) :
    record.node = ⟨supply.next + i⟩ := by
  obtain ⟨hlt, -⟩ := Array.getElem?_eq_some_iff.1 hi
  have hsize := h.size_le
  obtain ⟨link, -, -, hrecord⟩ :=
    h.record i pool[i] hlt (Array.getElem?_eq_getElem (by omega))
  rw [hi] at hrecord
  rw [Option.some.inj hrecord]
  rfl

theorem recordOf_eq_ok {built : Array Record} {entry : Entry} {link : Link EntryId}
    (hlink : entry.link? = some link) (hrefs : ∀ target ∈ link.refs, target.toNat < built.size)
    (node : NodeId) :
    recordOf built node entry = .ok (.mk node entry.range (link.map (recordAt built))) := by
  unfold recordOf
  rw [hlink]
  refine congrArg (· >>= fun resolved => pure (Record.mk node entry.range resolved))
    (Link.mapM_eq_ok fun target htarget => ?_)
  rw [getElem?_recordAt (hrefs target htarget)]
  rfl

theorem Rebuilt.push {pool : Pool} {supply : NodeSupply} {built : Array Record}
    (h : Rebuilt pool supply built) {entry : Entry} {link : Link EntryId}
    (hentry : pool[built.size]? = some entry) (hlink : entry.link? = some link)
    (hrefs : ∀ target ∈ link.refs, target.toNat < built.size) :
    Rebuilt pool supply (built.push
      (.mk ⟨supply.next + built.size⟩ entry.range (link.map (recordAt built)))) := by
  refine ⟨?_, ?_, ?_⟩
  · obtain ⟨hlt, -⟩ := Array.getElem?_eq_some_iff.1 hentry
    rw [Array.size_push]
    exact hlt
  · rw [Array.toList_push]
    refine h.ordered.snoc ?_ ?_
    · intro child hchild
      rw [Record.link, Link.refs_map] at hchild
      obtain ⟨target, htarget, rfl⟩ := List.mem_map.1 hchild
      have hget := getElem?_recordAt (hrefs target htarget)
      rw [← Array.getElem?_toList] at hget
      exact List.mem_of_getElem? hget
    · intro other hother
      obtain ⟨i, hi⟩ := List.mem_iff_getElem?.1 hother
      rw [Array.getElem?_toList] at hi
      obtain ⟨hlt, -⟩ := Array.getElem?_eq_some_iff.1 hi
      rw [h.node_eq hi, Record.node]
      simp only [ne_eq, NodeId.mk.injEq]
      omega
  · intro i later hi hlater
    rw [Array.size_push] at hi
    by_cases hlast : i = built.size
    · subst hlast
      obtain rfl := Option.some.inj (hentry.symm.trans hlater)
      refine ⟨link, hlink, hrefs, ?_⟩
      rw [Array.getElem?_push_size]
      refine congrArg (some ∘ Record.mk _ _) (Link.map_congr fun target htarget => ?_)
      exact (recordAt_push (hrefs target htarget) _).symm
    · obtain ⟨link', hlink', hrefs', hrecord⟩ := h.record i later (by omega) hlater
      refine ⟨link', hlink', hrefs', ?_⟩
      rw [Array.getElem?_push_lt (by omega), ← Array.getElem?_eq_getElem (by omega), hrecord]
      refine congrArg (some ∘ Record.mk _ _) (Link.map_congr fun target htarget => ?_)
      have hlt := hrefs' target htarget
      exact (recordAt_push (by omega) _).symm

theorem Rebuilt.buildFrom {pool : Pool} {files? : Option Registry} {supply : NodeSupply}
    (hfault : pool.fault? files? = none) {built : Array Record} (h : Rebuilt pool supply built)
    (done : List Entry) {entries : List Entry} (hentries : pool.toList = done ++ entries)
    (hdone : done.length = built.size) :
    ∃ records, Pool.buildFrom built ⟨supply.next + built.size⟩ entries =
        .ok (records, ⟨supply.next + pool.size⟩) ∧
      records.size = pool.size ∧ Rebuilt pool supply records := by
  have hsize : pool.size = built.size + entries.length := by
    rw [← Array.length_toList, hentries, List.length_append, hdone]
  induction entries generalizing built done with
  | nil =>
    rw [List.length_nil, Nat.add_zero] at hsize
    exact ⟨built, by rw [Pool.buildFrom, hsize], hsize.symm, h⟩
  | cons entry rest ih =>
    rw [List.length_cons] at hsize
    have hentry : pool[built.size]? = some entry := by
      rw [← Array.getElem?_toList, hentries, ← hdone]
      simp
    obtain ⟨link, hlink, hbefore, -⟩ := exists_link?_of_fault?_eq_none hfault hentry
    obtain ⟨records, hbuild, hrecords⟩ := ih (h.push hentry hlink hbefore)
      (done ++ [entry]) (by simpa using hentries) (by simpa using hdone)
      (by rw [Array.size_push]; omega)
    refine ⟨records, ?_, hrecords⟩
    rw [Array.size_push] at hbuild
    rw [Pool.buildFrom, NodeSupply.fresh]
    simp only [recordOf_eq_ok hlink hbefore]
    exact hbuild

/-- Rebuilding fails only by the rules: a pool without faults gives one record for each entry. -/
theorem decode_of_fault?_eq_none {pool : Pool} {files? : Option Registry} (supply : NodeSupply)
    (hfault : pool.fault? files? = none) :
    ∃ records, pool.decode files? supply = .ok (records, ⟨supply.next + pool.size⟩) ∧
      records.size = pool.size ∧ Rebuilt pool supply records := by
  obtain ⟨records, hbuild, hrecords⟩ :=
    (rebuilt_empty pool supply).buildFrom hfault [] (List.nil_append _) rfl
  refine ⟨records, ?_, hrecords⟩
  rw [decode, hfault]
  exact hbuild

theorem rebuilt_of_decode {pool : Pool} {files? : Option Registry} {supply supply' : NodeSupply}
    {records : Array Record} (h : pool.decode files? supply = .ok (records, supply')) :
    pool.fault? files? = none ∧ records.size = pool.size ∧ Rebuilt pool supply records := by
  cases hfault : pool.fault? files? with
  | some fault =>
    rw [decode, hfault] at h
    contradiction
  | none =>
    obtain ⟨records', hdecode, hsize, hrebuilt⟩ := decode_of_fault?_eq_none supply hfault
    rw [h] at hdecode
    cases hdecode
    exact ⟨rfl, hsize, hrebuilt⟩

theorem Rebuilt.length_recordAt {pool : Pool} {supply : NodeSupply} {records : Array Record}
    (h : Rebuilt pool supply records) {id : EntryId} (hid : id.toNat < records.size) :
    (recordAt records id).length = pool.lengthAt id := by
  have hentry := Array.getElem?_eq_getElem (Nat.lt_of_lt_of_le hid h.size_le)
  obtain ⟨link, -, -, hrecord⟩ := h.record id.toNat _ hid hentry
  rw [getElem?_recordAt hid] at hrecord
  rw [Option.some.inj hrecord, lengthAt, hentry]
  rfl

theorem Rebuilt.exists_entry {pool : Pool} {supply : NodeSupply} {records : Array Record}
    (h : Rebuilt pool supply records) {record : Record} (hmem : record ∈ records.toList) :
    ∃ i entry link, pool[i]? = some entry ∧ entry.link? = some link ∧ i < records.size ∧
      (∀ target ∈ link.refs, target.toNat < i) ∧
      record = .mk ⟨supply.next + i⟩ entry.range (link.map (recordAt records)) := by
  obtain ⟨i, hi⟩ := List.mem_iff_getElem?.1 hmem
  rw [Array.getElem?_toList] at hi
  obtain ⟨hlt, -⟩ := Array.getElem?_eq_some_iff.1 hi
  have hentry := Array.getElem?_eq_getElem (Nat.lt_of_lt_of_le hlt h.size_le)
  obtain ⟨link, hlink, hrefs, hrecord⟩ := h.record i _ hlt hentry
  rw [hi] at hrecord
  exact ⟨i, _, link, hentry, hlink, hlt, hrefs, Option.some.inj hrecord⟩

theorem Rebuilt.fits {pool : Pool} {files? : Option Registry} {supply : NodeSupply}
    {records : Array Record} (h : Rebuilt pool supply records)
    (hfault : pool.fault? files? = none) {record : Record} (hmem : record ∈ records.toList) :
    record.link.Fits Record.length record.length := by
  obtain ⟨i, entry, link, hentry, hlink, hlt, hrefs, rfl⟩ := h.exists_entry hmem
  obtain ⟨link', hlink', -, hfits⟩ := exists_link?_of_fault?_eq_none hfault hentry
  obtain rfl := Option.some.inj (hlink'.symm.trans hlink)
  refine (Link.fits_map _).2 ((Link.fits_congr fun target htarget => ?_).1 hfits)
  have hbefore := hrefs target htarget
  exact (h.length_recordAt (by omega)).symm

theorem Rebuilt.valid_range {pool : Pool} {files? : Option Registry} {supply : NodeSupply}
    {records : Array Record} (h : Rebuilt pool supply records)
    (hfault : pool.fault? files? = none) {record : Record} (hmem : record ∈ records.toList) :
    record.range.Valid := by
  obtain ⟨i, entry, link, hentry, -, -, -, rfl⟩ := h.exists_entry hmem
  exact (entryFault?_eq_none_iff.1 (fault?_eq_none_iff.1 hfault i entry hentry)).1

end TextOrigin.Pool
