import VmIo.Db.Sql
import VmIo.Db.Store

/-!
What the two tables are for: files by class and key.

A file has its entry and an upload for every index that is there. The statements of the store
are what they should be on files (`Represents.upsert`, `.upsertChunk`, `.deleteEntries`): the
foreign key and the cascade of the schema keep the tables the picture of a map.
-/

namespace VmIo.Db

open VmIo.Lib

structure StoredFile where
  entry : EntryRow
  chunks : Int64 → Option ChunkReq

abbrev Files := String × String → Option StoredFile

namespace Files

def empty : Files := fun _ => none

def chunk (files : Files) (slot : String × String × Int64) : Option ChunkReq :=
  (files (slot.1, slot.2.1)).bind fun f => f.chunks slot.2.2

/-- A file that is there keeps its chunks. -/
def putEntry (files : Files) (row : EntryRow) : Files :=
  Function.update files row.pk
    (some ⟨row, fun idx => (files row.pk).bind fun f => f.chunks idx⟩)

def putChunk (files : Files) (r : ChunkReq) : Files :=
  Function.update files (r.cls, r.key) ((files (r.cls, r.key)).map fun f =>
    { f with chunks := Function.update f.chunks r.idx (some r) })

def remove (files : Files) (p : String × String → Bool) : Files :=
  fun k => if p k then none else files k

variable {files : Files} {row : EntryRow} {r : ChunkReq}

theorem chunk_putEntry (slot : String × String × Int64) :
    (files.putEntry row).chunk slot = files.chunk slot := by
  unfold chunk putEntry
  by_cases hk : (slot.1, slot.2.1) = row.pk
  · rw [hk, Function.update_self]
    rfl
  · rw [Function.update_of_ne hk]

theorem chunk_putChunk (hfile : (files (r.cls, r.key)).isSome) (slot : String × String × Int64) :
    (files.putChunk r).chunk slot = if slot = r.slot then some r else files.chunk slot := by
  obtain ⟨f, hf⟩ := Option.isSome_iff_exists.mp hfile
  obtain ⟨cls, key, idx⟩ := slot
  unfold chunk putChunk
  simp only [ChunkReq.slot, Prod.mk.injEq]
  by_cases hk : (cls, key) = (r.cls, r.key)
  · obtain ⟨rfl, rfl⟩ := Prod.mk.inj hk
    rw [Function.update_self, hf]
    simp [Function.update_apply]
  · rw [Function.update_of_ne hk, if_neg fun h => hk (by rw [h.1, h.2.1])]

/-- A chunk in another slot stays, whether there is a file or not. -/
theorem chunk_putChunk_of_ne {slot : String × String × Int64} (hslot : slot ≠ r.slot) :
    (files.putChunk r).chunk slot = files.chunk slot := by
  obtain ⟨cls, key, idx⟩ := slot
  unfold chunk putChunk
  by_cases hk : (cls, key) = (r.cls, r.key)
  · obtain ⟨rfl, rfl⟩ := Prod.mk.inj hk
    have hidx : idx ≠ r.idx := fun heq => hslot (by rw [heq, ChunkReq.slot])
    rw [Function.update_self]
    cases files (r.cls, r.key) with
    | none => rfl
    | some f => simp [Function.update_of_ne hidx]
  · rw [Function.update_of_ne hk]

theorem chunk_remove (p : String × String → Bool) (slot : String × String × Int64) :
    (files.remove p).chunk slot = if p (slot.1, slot.2.1) then none else files.chunk slot := by
  unfold chunk remove
  split <;> rfl

end Files

noncomputable def StoredFile.chunkCount (f : StoredFile) : ℕ :=
  {idx : Int64 | (f.chunks idx).isSome}.ncard

noncomputable def StoredFile.toEntry (f : StoredFile) : VmIoDbEntry :=
  ⟨f.entry.cls, f.entry.key, f.entry.modifiedAtMicros, f.entry.expiresAtMicros, f.entry.metadata,
    f.chunkCount⟩

/-- The tables hold these files. -/
structure Represents (db : VmIoDb) (files : Files) (sql : Sql) : Prop where
  entries : ∀ k, sql.entries.find? k = (files k).map StoredFile.entry
  chunks : ∀ slot, sql.entryFileChunks.find? slot = (files.chunk slot).map db.row

namespace Represents

variable {db : VmIoDb} {files : Files} {sql sql' : Sql} {row : EntryRow} {r : ChunkReq}

theorem empty (db : VmIoDb) : Represents db Files.empty Sql.empty := ⟨fun _ => rfl, fun _ => rfl⟩

theorem entry_pk (h : Represents db files sql) {k : String × String} {f : StoredFile}
    (hf : files k = some f) : f.entry.pk = k := by
  have hfind := h.entries k
  rw [hf] at hfind
  exact (Table.find?_eq_some_iff.mp hfind).2

theorem chunk_slot (h : Represents db files sql) {slot : String × String × Int64}
    (hr : files.chunk slot = some r) : r.slot = slot := by
  have hfind := h.chunks slot
  rw [hr] at hfind
  exact (Table.find?_eq_some_iff.mp hfind).2

theorem hasEntry (h : Represents db files sql) (k : String × String) :
    sql.hasEntry k = (files k).isSome := by
  rw [Sql.hasEntry, h.entries, Option.isSome_map]

theorem newer_iff (h : Represents db files sql) :
    sql.Newer row ↔ ∀ f ∈ files row.pk, f.entry.modifiedAtMicros < row.modifiedAtMicros := by
  rw [Sql.Newer, h.entries]
  simp

theorem modifiedTaken_iff (h : Represents db files sql) :
    sql.ModifiedTaken row ↔ ∃ k f, files k = some f ∧
      f.entry.modifiedAtMicros = row.modifiedAtMicros ∧ k ≠ row.pk := by
  constructor
  · rintro ⟨e, he, hmod, hpk⟩
    have hfind := Table.find?_pk he
    rw [h.entries] at hfind
    obtain ⟨f, hf, rfl⟩ := Option.map_eq_some_iff.mp hfind
    exact ⟨_, f, hf, hmod, hpk⟩
  · rintro ⟨k, f, hf, hmod, hk⟩
    have hfind : sql.entries.find? k = some f.entry := by rw [h.entries, hf, Option.map_some]
    obtain ⟨hmem, rfl⟩ := Table.find?_eq_some_iff.mp hfind
    exact ⟨f.entry, hmem, hmod, hk⟩

theorem putEntry (h : Represents db files sql) (hfree : ¬sql.ModifiedTaken row) :
    Represents db (files.putEntry row) (sql.putEntry row hfree) where
  entries k := by
    rw [Sql.putEntry_entries, Table.find?_put, h.entries, Files.putEntry, Function.update_apply]
    by_cases hk : row.pk = k
    · rw [if_pos hk, if_pos hk.symm, Option.map_some]
    · rw [if_neg hk, if_neg (Ne.symm hk)]
  chunks slot := by rw [Sql.putEntry_chunks, h.chunks, Files.chunk_putEntry]

theorem putChunk (h : Represents db files sql) {prev : Option Digest}
    (hup : sql.upsertChunk (db.row r) = .ok (sql', prev)) :
    Represents db (files.putChunk r) sql' := by
  obtain ⟨hfk, rfl, _⟩ := Sql.upsertChunk_ok hup
  have hfile : (files (r.cls, r.key)).isSome := by
    rw [← h.hasEntry]
    exact hfk
  refine ⟨fun k => ?_, fun slot => ?_⟩
  · change sql.entries.find? k = _
    rw [h.entries, Files.putChunk, Function.update_apply]
    split
    · rename_i hk
      subst hk
      rw [Option.map_map]
      rfl
    · rfl
  · change (sql.entryFileChunks.put (db.row r)).find? slot = _
    rw [Table.find?_put, h.chunks, Files.chunk_putChunk hfile, show (db.row r).pk = r.slot from rfl]
    by_cases hslot : slot = r.slot
    · subst hslot
      rw [if_pos rfl, if_pos rfl, Option.map_some]
    · rw [if_neg hslot, if_neg (Ne.symm hslot)]

theorem deleteEntries (h : Represents db files sql) (p : String × String → Bool) :
    Represents db (files.remove p) (sql.deleteEntries p) where
  entries k := by
    change (sql.entries.deleteWhere fun e => p e.pk).find? k = _
    rw [Files.remove]
    split
    · rename_i hk
      exact Table.find?_deleteWhere_of_drop fun e he => he.symm ▸ hk
    · rename_i hk
      rw [Table.find?_deleteWhere_of_keep fun e he => he.symm ▸ eq_false_of_ne_true hk, h.entries]
  chunks slot := by
    change (sql.entryFileChunks.deleteWhere fun c => p c.entryKey).find? slot = _
    have hkey : ∀ c : ChunkRow, c.pk = slot → c.entryKey = (slot.1, slot.2.1) := by
      rintro c rfl
      rfl
    rw [Files.chunk_remove]
    split
    · rename_i hk
      exact Table.find?_deleteWhere_of_drop fun c hc => by rw [hkey c hc, hk]
    · rename_i hk
      rw [Table.find?_deleteWhere_of_keep fun c hc => by
        rw [hkey c hc]
        exact eq_false_of_ne_true hk, h.chunks]

theorem chunkCount (h : Represents db files sql) {cls key : String} {f : StoredFile}
    (hf : files (cls, key) = some f) : sql.chunkCount (cls, key) = f.chunkCount := by
  have hnodup : ((sql.entryFileChunks.rows.filter
      fun c => c.entryKey = (cls, key)).map ChunkRow.idx).Nodup := by
    refine List.Nodup.of_map (fun idx => (cls, key, idx)) ?_
    rw [List.map_map]
    have hpk : ∀ c ∈ sql.entryFileChunks.rows.filter fun c => c.entryKey = (cls, key),
        ((fun idx => (cls, key, idx)) ∘ ChunkRow.idx) c = c.pk := by
      intro c hc
      have hkey := of_decide_eq_true (List.mem_filter.mp hc).2
      obtain ⟨rfl, rfl⟩ := Prod.mk.inj hkey
      rfl
    rw [List.map_congr_left hpk]
    exact (List.filter_sublist.map _).nodup sql.entryFileChunks.nodup
  have hset : {idx : Int64 | (f.chunks idx).isSome} =
      ((sql.entryFileChunks.rows.filter fun c => c.entryKey = (cls, key)).map
        ChunkRow.idx).toFinset := by
    ext idx
    have hchunk : (sql.entryFileChunks.find? (cls, key, idx)).isSome = (f.chunks idx).isSome := by
      rw [h.chunks, Option.isSome_map, Files.chunk, hf, Option.bind_some]
    rw [Set.mem_ofPred_eq, ← hchunk, Table.find?_isSome_iff]
    simp only [List.coe_toFinset, List.mem_map, List.mem_filter, decide_eq_true_eq,
      Set.mem_ofPred_eq]
    constructor
    · rintro ⟨c, hc, hpk⟩
      simp only [ChunkRow.pk, Prod.mk.injEq] at hpk
      obtain ⟨rfl, rfl, rfl⟩ := hpk
      exact ⟨c, ⟨hc, rfl⟩, rfl⟩
    · rintro ⟨c, ⟨hc, hkey⟩, rfl⟩
      obtain ⟨rfl, rfl⟩ := Prod.mk.inj hkey
      exact ⟨c, hc, rfl⟩
  rw [Sql.chunkCount, StoredFile.chunkCount, hset, Set.ncard_coe_finset,
    List.toFinset_card_of_nodup hnodup, List.length_map]

theorem get (h : Represents db files sql) (cls key : String) :
    sql.get cls key = (files (cls, key)).map StoredFile.toEntry := by
  rw [Sql.get, h.entries, Option.map_map]
  cases hf : files (cls, key) with
  | none => rfl
  | some f =>
      have hpk := h.entry_pk hf
      simp only [Option.map_some, Function.comp_apply, Sql.toEntry, StoredFile.toEntry, hpk,
        h.chunkCount hf]

end Represents

end VmIo.Db
