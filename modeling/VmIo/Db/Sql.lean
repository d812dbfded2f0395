import VmIo.Db.Blob

/-!
The sqlite database: the two tables of the schema and the statements run on
them.

The primary keys, the UNIQUE column and the foreign key are constraints sqlite
enforces, so they are fields of `Sql`: a statement that would break one fails,
and no other database can be built. Each function below is one transaction,
which sqlite runs alone.
-/

namespace VmIo.Db

open VmIo.Lib

def i64Max : ℤ := 9223372036854775807

structure EntryRow where
  cls : String
  key : String
  modifiedAtMicros : ℤ
  expiresAtMicros : Option ℤ
  metadata : Option Bytes
  deriving DecidableEq, Repr

def EntryRow.pk (r : EntryRow) : String × String := (r.cls, r.key)

structure ChunkRow where
  cls : String
  key : String
  idx : Int64
  blobId : Digest
  hash : Digest
  tag : Digest
  size : ℤ
  isFinal : Bool
  deriving DecidableEq

def ChunkRow.pk (r : ChunkRow) : String × String × Int64 := (r.cls, r.key, r.idx)

def ChunkRow.entryKey (r : ChunkRow) : String × String := (r.cls, r.key)

structure Sql where
  entries : Table EntryRow EntryRow.pk
  entryFileChunks : Table ChunkRow ChunkRow.pk
  modified_unique : ∀ a ∈ entries.rows, ∀ b ∈ entries.rows,
    a.modifiedAtMicros = b.modifiedAtMicros → a = b
  foreign_key : ∀ c ∈ entryFileChunks.rows, ∃ e ∈ entries.rows, e.pk = c.entryKey

structure VmIoDbEntry where
  cls : String
  key : String
  modifiedAtMicros : ℤ
  expiresAtMicros : Option ℤ
  metadata : Option Bytes
  chunkCount : ℤ
  deriving DecidableEq, Repr

structure Chunk where
  hash : Digest
  tag : Digest
  size : ℤ
  isFinal : Bool
  deriving DecidableEq

namespace Sql

def empty : Sql where
  entries := Table.empty
  entryFileChunks := Table.empty
  modified_unique := by simp
  foreign_key := by simp

/-! ### Writing entries -/

/-- Does another key already hold this row's timestamp? -/
def ModifiedTaken (db : Sql) (row : EntryRow) : Prop :=
  ∃ r ∈ db.entries.rows, r.modifiedAtMicros = row.modifiedAtMicros ∧ r.pk ≠ row.pk

instance (db : Sql) (row : EntryRow) : Decidable (db.ModifiedTaken row) :=
  inferInstanceAs (Decidable (∃ r ∈ _, _))

def putEntry (db : Sql) (row : EntryRow) (h : ¬db.ModifiedTaken row) : Sql where
  entries := db.entries.put row
  entryFileChunks := db.entryFileChunks
  modified_unique := by
    have clash : ∀ r, r ∈ db.entries.rows → r.pk ≠ row.pk →
        r.modifiedAtMicros ≠ row.modifiedAtMicros :=
      fun r hr hne heq => h ⟨r, hr, heq, hne⟩
    intro a ha b hb heq
    rw [Table.mem_put] at ha hb
    rcases ha with rfl | ⟨ha, hak⟩ <;> rcases hb with rfl | ⟨hb, hbk⟩
    · rfl
    · exact absurd heq.symm (clash b hb hbk)
    · exact absurd heq (clash a ha hak)
    · exact db.modified_unique a ha b hb heq
  foreign_key := by
    intro c hc
    obtain ⟨e, he, hpk⟩ := db.foreign_key c hc
    by_cases hk : e.pk = row.pk
    · exact ⟨row, by simp, hk ▸ hpk⟩
    · exact ⟨e, by simp [he, hk], hpk⟩

/-- `upsert.sql`: insert, or replace a row that is strictly older. Returns
whether a row was written. The conflict on (class, key) is looked at before
the one on the timestamp. -/
def upsert (db : Sql) (row : EntryRow) : Except SqlError (Sql × Bool) :=
  match db.entries.find? row.pk with
  | some old =>
      if old.modifiedAtMicros < row.modifiedAtMicros then
        if h : db.ModifiedTaken row then .error .uniqueModifiedAtMicros
        else .ok (db.putEntry row h, true)
      else .ok (db, false)
  | none =>
      if h : db.ModifiedTaken row then .error .uniqueModifiedAtMicros
      else .ok (db.putEntry row h, true)

/-- The stored row is older than `row`, or there is none. -/
def Newer (db : Sql) (row : EntryRow) : Prop :=
  ∀ old ∈ db.entries.find? row.pk, old.modifiedAtMicros < row.modifiedAtMicros

theorem upsert_of_newer {db : Sql} {row : EntryRow} (hnew : db.Newer row) :
    db.upsert row =
      if h : db.ModifiedTaken row then .error .uniqueModifiedAtMicros
      else .ok (db.putEntry row h, true) := by
  unfold upsert
  cases hf : db.entries.find? row.pk with
  | none => rfl
  | some old => simp only [hnew old hf, if_true]

theorem upsert_of_not_newer {db : Sql} {row : EntryRow} (hnew : ¬db.Newer row) :
    db.upsert row = .ok (db, false) := by
  simp only [Newer, Option.mem_def, not_forall, exists_prop] at hnew
  obtain ⟨old, hf, hlt⟩ := hnew
  simp only [upsert, hf, hlt, if_false]

/-- What an upsert can do: write the row as the newest of its key, leave the
table alone, or fail because another key holds the timestamp. -/
theorem upsert_cases {db : Sql} {row : EntryRow} {res : Except SqlError (Sql × Bool)}
    (h : db.upsert row = res) :
    (∃ hfree : ¬db.ModifiedTaken row, db.Newer row ∧ res = .ok (db.putEntry row hfree, true)) ∨
      (¬db.Newer row ∧ res = .ok (db, false)) ∨
      (db.ModifiedTaken row ∧ db.Newer row ∧ res = .error .uniqueModifiedAtMicros) := by
  by_cases hnew : db.Newer row
  · rw [upsert_of_newer hnew] at h
    split at h
    · rename_i ht
      exact .inr (.inr ⟨ht, hnew, h.symm⟩)
    · rename_i hfree
      exact .inl ⟨hfree, hnew, h.symm⟩
  · rw [upsert_of_not_newer hnew] at h
    exact .inr (.inl ⟨hnew, h.symm⟩)

@[simp] theorem putEntry_entries (db : Sql) (row : EntryRow) (h : ¬db.ModifiedTaken row) :
    (db.putEntry row h).entries = db.entries.put row := rfl

@[simp] theorem putEntry_chunks (db : Sql) (row : EntryRow) (h : ¬db.ModifiedTaken row) :
    (db.putEntry row h).entryFileChunks = db.entryFileChunks := rfl

theorem upsert_chunks {db db' : Sql} {row : EntryRow} {b : Bool}
    (h : db.upsert row = .ok (db', b)) : db'.entryFileChunks = db.entryFileChunks := by
  rcases upsert_cases h with ⟨_, _, heq⟩ | ⟨_, heq⟩ | ⟨_, _, heq⟩
  · cases heq
    rfl
  · cases heq
    rfl
  · contradiction

/-! ### Writing chunks -/

def hasEntry (db : Sql) (k : String × String) : Bool :=
  (db.entries.find? k).isSome

def putChunk (db : Sql) (row : ChunkRow) (h : db.hasEntry row.entryKey) : Sql where
  entries := db.entries
  entryFileChunks := db.entryFileChunks.put row
  modified_unique := db.modified_unique
  foreign_key := by
    intro c hc
    rw [Table.mem_put] at hc
    rcases hc with rfl | ⟨hc, _⟩
    · exact Table.find?_isSome_iff.mp h
    · exact db.foreign_key c hc

/-- The transaction of `upsert_chunk`: the blob id the chunk had, if it was a
different one, and the new row in its place. -/
def upsertChunk (db : Sql) (row : ChunkRow) : Except SqlError (Sql × Option Digest) :=
  let prev := (db.entryFileChunks.find? row.pk).map ChunkRow.blobId
  if h : db.hasEntry row.entryKey then
    .ok (db.putChunk row h, prev.filter (fun p => p ≠ row.blobId))
  else .error .foreignKey

theorem upsertChunk_ok {db db' : Sql} {row : ChunkRow} {prev : Option Digest}
    (h : db.upsertChunk row = .ok (db', prev)) :
    ∃ hfk : db.hasEntry row.entryKey, db' = db.putChunk row hfk ∧
      prev = ((db.entryFileChunks.find? row.pk).map ChunkRow.blobId).filter
        (fun p => p ≠ row.blobId) := by
  unfold upsertChunk at h
  split at h
  · rename_i hfk
    cases h
    exact ⟨hfk, rfl, rfl⟩
  · contradiction

def blobIdExists (db : Sql) (blobId : Digest) : Bool :=
  db.entryFileChunks.rows.any (fun c => c.blobId = blobId)

theorem blobIdExists_eq_false {db : Sql} {b : Digest} :
    db.blobIdExists b = false ↔ ∀ c ∈ db.entryFileChunks.rows, c.blobId ≠ b := by
  simp [blobIdExists]

/-! ### Deleting entries -/

/-- Delete the entries whose key satisfies `p`; their chunk rows follow by the
cascade. -/
def deleteEntries (db : Sql) (p : String × String → Bool) : Sql where
  entries := db.entries.deleteWhere (fun e => p e.pk)
  entryFileChunks := db.entryFileChunks.deleteWhere (fun c => p c.entryKey)
  modified_unique := by
    intro a ha b hb
    rw [Table.mem_deleteWhere] at ha hb
    exact db.modified_unique a ha.1 b hb.1
  foreign_key := by
    intro c hc
    rw [Table.mem_deleteWhere] at hc
    obtain ⟨e, he, hpk⟩ := db.foreign_key c hc.1
    exact ⟨e, Table.mem_deleteWhere.mpr ⟨he, by rw [hpk]; exact hc.2⟩, hpk⟩

/-- The blob ids of the chunks of the entries whose key satisfies `p`. -/
def blobIdsOf (db : Sql) (p : String × String → Bool) : List Digest :=
  (db.entryFileChunks.rows.filter (fun c => p c.entryKey)).map ChunkRow.blobId

theorem mem_blobIdsOf {db : Sql} {p : String × String → Bool} {b : Digest} :
    b ∈ db.blobIdsOf p ↔
      ∃ c ∈ db.entryFileChunks.rows, p c.entryKey = true ∧ c.blobId = b := by
  simp [blobIdsOf, List.mem_filter, and_assoc]

/-- Remove an entry and its chunk references. Returns the ids of the deleted
chunks' blobs. -/
def rm (db : Sql) (cls key : String) : Sql × List Digest :=
  (db.deleteEntries (fun k => k = (cls, key)), db.blobIdsOf (fun k => k = (cls, key)))

/-- `LIMIT ?`: a negative limit is no limit. -/
def sqlLimit {α : Type*} (limit : ℤ) (l : List α) : List α :=
  if limit < 0 then l else l.take limit.toNat

def EntryExpired (now : ℤ) (e : EntryRow) : Prop := ∃ t ∈ e.expiresAtMicros, t ≤ now

instance (now : ℤ) (e : EntryRow) : Decidable (EntryExpired now e) :=
  inferInstanceAs (Decidable (∃ t ∈ e.expiresAtMicros, _))

/-- `ORDER BY expires_at_micros, class, key` -/
def expiresOrder (e : EntryRow) : ℤ ×ₗ List ℕ ×ₗ List ℕ :=
  toLex (e.expiresAtMicros.getD 0, toLex (byteOrder e.cls, byteOrder e.key))

/-- The subquery shared by the two statements of a prune: the keys of the batch. -/
def expiredBatch (db : Sql) (nowMicros limit : ℤ) : List (String × String) :=
  (sqlLimit limit ((db.entries.rows.filter (fun e => EntryExpired nowMicros e)).insertionSort
    (fun a b => expiresOrder a ≤ expiresOrder b))).map EntryRow.pk

/-- Remove a bounded batch of expired entries. Returns how many were removed
and the ids of their chunks' blobs. -/
def pruneExpired (db : Sql) (nowMicros limit : ℤ) : Sql × ℕ × List Digest :=
  let batch := db.expiredBatch nowMicros limit
  (db.deleteEntries (fun k => k ∈ batch),
    (db.entries.rows.filter (fun e => e.pk ∈ batch)).length,
    db.blobIdsOf (fun k => k ∈ batch))

@[simp] theorem mem_deleteEntries_chunks {db : Sql} {p : String × String → Bool} {c : ChunkRow} :
    c ∈ (db.deleteEntries p).entryFileChunks.rows ↔
      c ∈ db.entryFileChunks.rows ∧ p c.entryKey = false :=
  Table.mem_deleteWhere

@[simp] theorem mem_deleteEntries_entries {db : Sql} {p : String × String → Bool} {e : EntryRow} :
    e ∈ (db.deleteEntries p).entries.rows ↔ e ∈ db.entries.rows ∧ p e.pk = false :=
  Table.mem_deleteWhere

/-! ### Reading -/

def chunkCount (db : Sql) (k : String × String) : ℤ :=
  (db.entryFileChunks.rows.filter (fun c => c.entryKey = k)).length

def toEntry (db : Sql) (e : EntryRow) : VmIoDbEntry :=
  ⟨e.cls, e.key, e.modifiedAtMicros, e.expiresAtMicros, e.metadata, db.chunkCount e.pk⟩

def get (db : Sql) (cls key : String) : Option VmIoDbEntry :=
  (db.entries.find? (cls, key)).map db.toEntry

def getChunk (db : Sql) (cls key : String) (idx : Int64) : Option Chunk :=
  (db.entryFileChunks.find? (cls, key, idx)).map
    fun c => ⟨c.hash, c.tag, c.size, c.isFinal⟩

end Sql

/-! ### Listing -/

/-- Build a sqlite `GLOB` pattern that matches keys starting with `pfx`. -/
def globPrefixPattern (pfx : String) : List Char :=
  pfx.toList.flatMap (fun c =>
    if c = '*' ∨ c = '?' ∨ c = '[' then ['[', c, ']'] else [c]) ++ ['*']

/-- The members of a `[...]` class up to its closing bracket: whether `c` is
among them, and the pattern that follows. -/
def globClass (c : Char) : Bool → Option Char → List Char → Option (Bool × List Char)
  | _, _, [] => none
  | seen, _, ']' :: ps => some (seen, ps)
  | seen, some lo, '-' :: hi :: ps =>
      if hi = ']' then some (seen || c = '-', ps)
      else globClass c (seen || (lo ≤ c && c ≤ hi)) none ps
  | seen, _, x :: ps => globClass c (seen || c = x) (some x) ps

/-- sqlite's `GLOB`, with one unit of fuel for each pattern element. -/
def globMatch : ℕ → List Char → List Char → Bool
  | 0, _, _ => false
  | _ + 1, [], s => s.isEmpty
  | fuel + 1, '*' :: ps, s => s.tails.any (globMatch fuel ps)
  | _ + 1, _ :: _, [] => false
  | fuel + 1, '?' :: ps, _ :: cs => globMatch fuel ps cs
  | fuel + 1, '[' :: ps, c :: cs =>
      let (invert, ps) := match ps with
        | '^' :: ps => (true, ps)
        | ps => (false, ps)
      let (seen, ps) := match ps with
        | ']' :: ps => (decide (c = ']'), ps)
        | ps => (false, ps)
      match globClass c seen none ps with
      | some (seen, ps) => (seen != invert) && globMatch fuel ps cs
      | none => false
  | fuel + 1, x :: ps, c :: cs => x = c && globMatch fuel ps cs

def glob (pattern s : List Char) : Bool := globMatch (pattern.length + 1) pattern s

/-- `std::ops::Bound<i64>` -/
inductive Bound
  | unbounded
  | included (t : ℤ)
  | excluded (t : ℤ)
  deriving DecidableEq, Repr

inductive VmIoDbListFilter
  | all
  | keyPrefix (pfx : String)
  | modifiedAtMicrosRange (start stop : Bound)

inductive VmIoDbListSort
  | keyAsc
  | keyDesc
  | modifiedAtMicrosAsc
  | modifiedAtMicrosDesc

def Bound.startAccepts : Bound → ℤ → Bool
  | .unbounded, m => 0 ≤ m
  | .included t, m => t ≤ m
  | .excluded t, m => t < m

def Bound.stopAccepts : Bound → ℤ → Bool
  | .unbounded, m => m ≤ i64Max
  | .included t, m => m ≤ t
  | .excluded t, m => m < t

def VmIoDbListFilter.accepts : VmIoDbListFilter → EntryRow → Bool
  | .all, _ => true
  | .keyPrefix pfx, e => glob (globPrefixPattern pfx) e.key.toList
  | .modifiedAtMicrosRange start stop, e =>
      start.startAccepts e.modifiedAtMicros && stop.stopAccepts e.modifiedAtMicros

/-- `ORDER BY class, key` -/
def keyOrder (e : EntryRow) : List ℕ ×ₗ List ℕ := toLex (byteOrder e.cls, byteOrder e.key)

def VmIoDbListSort.le : VmIoDbListSort → EntryRow → EntryRow → Prop
  | .keyAsc, a, b => keyOrder a ≤ keyOrder b
  | .keyDesc, a, b => keyOrder b ≤ keyOrder a
  | .modifiedAtMicrosAsc, a, b => a.modifiedAtMicros ≤ b.modifiedAtMicros
  | .modifiedAtMicrosDesc, a, b => b.modifiedAtMicros ≤ a.modifiedAtMicros

instance (sort : VmIoDbListSort) : DecidableRel sort.le := fun a b =>
  match sort with
  | .keyAsc => inferInstanceAs (Decidable (keyOrder a ≤ keyOrder b))
  | .keyDesc => inferInstanceAs (Decidable (keyOrder b ≤ keyOrder a))
  | .modifiedAtMicrosAsc =>
      inferInstanceAs (Decidable (a.modifiedAtMicros ≤ b.modifiedAtMicros))
  | .modifiedAtMicrosDesc =>
      inferInstanceAs (Decidable (b.modifiedAtMicros ≤ a.modifiedAtMicros))

def Sql.list (db : Sql) (cls : String) (filter : VmIoDbListFilter) (sort : VmIoDbListSort)
    (limit : ℤ) : List VmIoDbEntry :=
  (Sql.sqlLimit limit ((db.entries.rows.filter
    (fun e => e.cls = cls && filter.accepts e)).insertionSort sort.le)).map db.toEntry

end VmIo.Db
