import VmIo.Db.Sql
import VmIo.Lib.Transition

/-!
The calls of the store as step machines.

Every call is cut where another call, a crash or an I/O error can come between
two of its steps: at each file operation, each transaction and each clock
reading. A call keeps a program counter with the local variables that live
across the cut. The running calls share one `Store`, and an action names the
call that moves and how the outside world answers it (`Choice`), so a schedule
of actions is executable.
-/

namespace VmIo.Db

open VmIo.Lib

/-- The opened database: where it lives and how its blobs are keyed. -/
structure VmIoDb where
  rootDir : Path
  blobKey : Digest
  crypto : Crypto

/-- What survives a crash, and the clock. -/
structure Store where
  sql : Sql
  fs : Fs
  now : Time

/-- The arguments of `upsert_chunk`. A Rust string holds fewer than `2 ^ 63`
bytes. -/
structure ChunkReq where
  cls : String
  key : String
  idx : Int64
  data : Bytes
  isFinal : Bool
  cls_lt : cls.utf8ByteSize < 2 ^ 63
  key_lt : key.utf8ByteSize < 2 ^ 63
  deriving DecidableEq

def ChunkReq.slot (r : ChunkReq) : String × String × Int64 := (r.cls, r.key, r.idx)

/-- Size of a chunk that is not the last: 5 MiB. -/
def chunkSize : ℕ := 1024 * 1024 * 5

def pruneBatch : ℤ := 256

/-- 5 minutes. -/
def cleanupGrace : Time := 300000000

namespace VmIoDb

variable (db : VmIoDb)

def chunkId (r : ChunkReq) : ChunkId :=
  ⟨r.cls, r.key, r.idx, db.crypto.sha256 r.data, r.isFinal⟩

def encrypted (r : ChunkReq) : EncryptResult × Bytes :=
  encryptChunk db.crypto (db.chunkId r) r.data db.blobKey

def blobId (r : ChunkReq) : Digest := (db.encrypted r).1.id

def cipher (r : ChunkReq) : Bytes := (db.encrypted r).2

def path (b : Digest) : Path := idPath db.rootDir b

def row (r : ChunkReq) : ChunkRow where
  cls := r.cls
  key := r.key
  idx := r.idx
  blobId := db.blobId r
  hash := db.crypto.sha256 r.data
  tag := (db.encrypted r).1.tag
  size := (db.cipher r).length
  isFinal := r.isFinal

end VmIoDb

/-- How the outside world answers a step. -/
inductive Choice
  /-- the operation is carried out -/
  | ok
  /-- an I/O or database error -/
  | fail
  /-- only so much is done: a write call takes `n` bytes, `create_dir_all`
  fails after `n` directories -/
  | portion (n : ℕ)
  /-- the names `read_dir` is going to yield, in order -/
  | listing (names : List String)
  deriving DecidableEq

/-! ### `upsert` -/

inductive UpsertPc
  | start
  | txn
  | done (res : Except IoError Bool)

/-- The length checks of `upsert`. -/
def checkEntry (row : EntryRow) : Except IoError Unit :=
  if 256 < row.cls.utf8ByteSize then .error (.other "class cannot be > 256 bytes")
  else if 1024 < row.key.utf8ByteSize then .error (.other "key cannot be > 1024 bytes")
  else if ∃ m ∈ row.metadata, 4096 < m.length then
    .error (.other "metadata cannot be > 4096 bytes")
  else .ok ()

def upsert (sql : Sql) (row : EntryRow) : Except IoError (Sql × Bool) :=
  match checkEntry row with
  | .error e => .error e
  | .ok () =>
      match sql.upsert row with
      | .ok res => .ok res
      | .error e => .error (.sql e)

def stepUpsert (st : Store) (row : EntryRow) : UpsertPc → Choice → Option (Store × UpsertPc)
  | .start, .ok =>
      match checkEntry row with
      | .error e => some (st, .done (.error e))
      | .ok () => some (st, .txn)
  | .txn, .ok =>
      match st.sql.upsert row with
      | .ok (sql, applied) => some ({ st with sql := sql }, .done (.ok applied))
      | .error e => some (st, .done (.error (.sql e)))
  | .txn, .fail => some (st, .done (.error (.sql .failed)))
  | _, _ => none

/-! ### `upsert_chunk` -/

inductive UpsertChunkPc
  | start
  /-- `metadata(&path)` -/
  | stat
  /-- `blob::write`, `create_dir_all` of the given attempt -/
  | mkdir (attempt : ℕ)
  /-- `blob::write`, opening the file -/
  | create (attempt : ℕ)
  /-- `blob::write`, `off` bytes written through the handle -/
  | write (ino off : ℕ)
  | txn (wrote : Bool)
  /-- the error path's `remove_file` -/
  | removeOwn (err : IoError)
  /-- `remove_file` of the blob the chunk had before -/
  | removePrev (prev : Digest)
  | done (res : Except IoError Unit)

/-- The size checks of `upsert_chunk`. -/
def checkChunk (r : ChunkReq) : Except IoError Unit :=
  if r.isFinal = false ∧ r.data.length ≠ chunkSize then
    .error (.other "non-final chunks must be 5 MiB")
  else if r.isFinal = true ∧ chunkSize < r.data.length then
    .error (.other "final chunks cannot be > 5 MiB")
  else .ok ()

/-- A `remove_file` whose result is dropped. -/
def Store.removeQuiet (st : Store) (p : Path) : Store :=
  match st.fs.removeFile p st.now with
  | .ok fs => { st with fs := fs }
  | .error _ => st

def upsertChunkFailed (wrote : Bool) (e : SqlError) : UpsertChunkPc :=
  if wrote then .removeOwn (.sql e) else .done (.error (.sql e))

def upsertChunkCommitted : Option Digest → UpsertChunkPc
  | some prev => .removePrev prev
  | none => .done (.ok ())

def stepUpsertChunk (db : VmIoDb) (st : Store) (r : ChunkReq) :
    UpsertChunkPc → Choice → Option (Store × UpsertChunkPc)
  | .start, .ok =>
      match checkChunk r with
      | .error e => some (st, .done (.error e))
      | .ok () => some (st, .stat)
  | .stat, .ok =>
      -- a file already there at full length is not written again
      match st.fs.metadata (db.path (db.blobId r)) with
      | .ok info =>
          if info.len = (db.cipher r).length then some (st, .txn false)
          else some (st, .mkdir 0)
      | .error _ => some (st, .mkdir 0)
  | .stat, .fail => some (st, .mkdir 0)
  | .mkdir i, .ok =>
      match st.fs.createDirAll (db.path (db.blobId r)).dropLast st.now with
      | .ok fs => some ({ st with fs := fs }, .create i)
      | .error e => some (st, .done (.error (.fs e)))
  | .mkdir _, .portion n =>
      -- some of the ancestors are made before one cannot be
      match st.fs.createDirs ((db.path (db.blobId r)).dropLast.inits.take n) st.now with
      | .ok fs => some ({ st with fs := fs }, .done (.error (.fs .other)))
      | .error e => some (st, .done (.error (.fs e)))
  | .create i, .ok =>
      match st.fs.create (db.path (db.blobId r)) st.now with
      | .ok (fs, ino) => some ({ st with fs := fs }, .write ino 0)
      | .error .notFound =>
          -- the shard directory went away in between: one more attempt
          if i + 1 < 2 then some (st, .mkdir (i + 1))
          else some (st, .done (.error (.other "blob shard removed during write")))
      | .error e => some (st, .done (.error (.fs e)))
  | .create _, .fail => some (st, .done (.error (.fs .other)))
  | .write ino off, .portion n =>
      if 0 < n ∧ off + n ≤ (db.cipher r).length then
        let block := ((db.cipher r).drop off).take n
        let fs := st.fs.writeAt (db.path (db.blobId r)) ino off block st.now
        some ({ st with fs := fs }, .write ino (off + n))
      else none
  | .write _ off, .ok => if off = (db.cipher r).length then some (st, .txn true) else none
  | .write _ _, .fail => some (st, .done (.error (.fs .other)))
  | .txn wrote, .ok =>
      match st.sql.upsertChunk (db.row r) with
      | .ok (sql, prev) => some ({ st with sql := sql }, upsertChunkCommitted prev)
      | .error e => some (st, upsertChunkFailed wrote e)
  | .txn wrote, .fail => some (st, upsertChunkFailed wrote .failed)
  | .removeOwn e, .ok => some (st.removeQuiet (db.path (db.blobId r)), .done (.error e))
  | .removeOwn e, .fail => some (st, .done (.error e))
  | .removePrev prev, .ok => some (st.removeQuiet (db.path prev), .done (.ok ()))
  | .removePrev _, .fail => some (st, .done (.ok ()))
  | _, _ => none

/-! ### `rm` and `prune_backlog` -/

inductive RmPc
  | txn
  | removing (ids : List Digest)
  | done (res : Except IoError Unit)

def stepRm (db : VmIoDb) (st : Store) (cls key : String) :
    RmPc → Choice → Option (Store × RmPc)
  | .txn, .ok =>
      let (sql, ids) := st.sql.rm cls key
      some ({ st with sql := sql }, .removing ids)
  | .txn, .fail => some (st, .done (.error (.sql .failed)))
  | .removing (b :: ids), .ok => some (st.removeQuiet (db.path b), .removing ids)
  | .removing (_ :: ids), .fail => some (st, .removing ids)
  | .removing [], .ok => some (st, .done (.ok ()))
  | _, _ => none

inductive PrunePc
  /-- `unix_micros()` in the loop condition -/
  | clock
  | txn (nowMicros : ℤ)
  | removing (count : ℕ) (ids : List Digest)
  | done (res : Except IoError Unit)

def stepPrune (db : VmIoDb) (st : Store) : PrunePc → Choice → Option (Store × PrunePc)
  | .clock, .ok => some (st, .txn st.now)
  | .clock, .fail => some (st, .done (.ok ()))
  | .txn nowMicros, .ok =>
      let (sql, count, ids) := st.sql.pruneExpired nowMicros pruneBatch
      some ({ st with sql := sql }, .removing count ids)
  | .txn _, .fail => some (st, .done (.error (.sql .failed)))
  | .removing count (b :: ids), .ok => some (st.removeQuiet (db.path b), .removing count ids)
  | .removing count (_ :: ids), .fail => some (st, .removing count ids)
  | .removing count [], .ok =>
      if count < pruneBatch.toNat then some (st, .done (.ok ())) else some (st, .clock)
  | _, _ => none

/-! ### `cleanup_dir` -/

/-- One activation of the recursive `cleanup_dir`: the directory it walks, the
staleness its caller saw, and the names `read_dir` has yet to yield. -/
structure Frame where
  dir : Path
  depth : ℕ
  stale : Bool
  todo : List String

inductive CleanupPc
  | start
  | readDir (cutoff : Time) (dir : Path) (depth : ℕ) (stale : Bool) (stack : List Frame)
  | next (cutoff : Time) (stack : List Frame)
  /-- `item.metadata()` -/
  | stat (cutoff : Time) (name : String) (stack : List Frame)
  /-- `blob_id_exists` for a stale file -/
  | query (cutoff : Time) (id : Digest) (mtime : Time) (stack : List Frame)
  | remove (cutoff : Time) (id : Digest) (stack : List Frame)
  | removeDir (cutoff : Time) (dir : Path) (stack : List Frame)
  | done (res : Except IoError Unit)

/-- What `cleanup_dir` does with an item once it has its metadata. -/
def cleanupItem (db : VmIoDb) (cutoff : Time) (name : String) (frame : Frame)
    (stack : List Frame) (info : Meta) : CleanupPc :=
  let item := frame.dir ++ [name]
  let stale : Bool := info.mtime ≤ cutoff
  if info.isDir then
    -- only walk our own layout
    if shardDepth ≤ frame.depth ∨ isShardName name = false then .next cutoff (frame :: stack)
    else .readDir cutoff item (frame.depth + 1) stale (frame :: stack)
  else if frame.depth = shardDepth ∧ stale then
    match parseName name with
    | none => .next cutoff (frame :: stack)
    | some id =>
        if db.path id ≠ item then .next cutoff (frame :: stack)
        else .query cutoff id info.mtime (frame :: stack)
  else .next cutoff (frame :: stack)

def Store.removeDirQuiet (st : Store) (p : Path) : Store :=
  match st.fs.removeDir p st.now with
  | .ok fs => { st with fs := fs }
  | .error _ => st

def stepCleanup (db : VmIoDb) (st : Store) : CleanupPc → Choice → Option (Store × CleanupPc)
  | .start, .ok => some (st, .readDir (st.now - cleanupGrace) db.rootDir 0 false [])
  | .readDir cutoff dir depth stale stack, .listing names =>
      -- entries that come and go during the walk may or may not be yielded
      match st.fs.node? dir with
      | some (.dir _) =>
          if names.Nodup ∧ ∀ c ∈ st.fs.children dir, c ∈ names then
            some (st, .next cutoff (⟨dir, depth, stale, names⟩ :: stack))
          else none
      | _ => some (st, .done (.error (.fs .notFound)))
  | .readDir .., .fail => some (st, .done (.error (.fs .other)))
  | .next cutoff (⟨dir, _, stale, []⟩ :: stack), .ok =>
      if stack.isEmpty then some (st, .done (.ok ()))
      else if stale then some (st, .removeDir cutoff dir stack)
      else some (st, .next cutoff stack)
  | .next cutoff (⟨dir, depth, stale, name :: todo⟩ :: stack), .ok =>
      some (st, .stat cutoff name (⟨dir, depth, stale, todo⟩ :: stack))
  | .next .., .fail => some (st, .done (.error (.fs .other)))
  | .stat cutoff name (frame :: stack), .ok =>
      match st.fs.metadata (frame.dir ++ [name]) with
      | .ok info => some (st, cleanupItem db cutoff name frame stack info)
      | .error _ => some (st, .next cutoff (frame :: stack))
  | .stat cutoff _ stack, .fail => some (st, .next cutoff stack)
  | .query cutoff id _ stack, .ok =>
      if st.sql.blobIdExists id then some (st, .next cutoff stack)
      else some (st, .remove cutoff id stack)
  | .query .., .fail => some (st, .done (.error (.sql .failed)))
  | .remove cutoff id stack, .ok => some (st.removeQuiet (db.path id), .next cutoff stack)
  | .remove cutoff _ stack, .fail => some (st, .next cutoff stack)
  | .removeDir cutoff dir stack, .ok => some (st.removeDirQuiet dir, .next cutoff stack)
  | .removeDir cutoff _ stack, .fail => some (st, .next cutoff stack)
  | _, _ => none

/-! ### `get_chunk` -/

/-- The row read of `get_chunk`, with what is decided from the row alone. -/
def getChunkRow (st : Store) (cls key : String) (idx : Int64) (isFinal : Bool) :
    Except IoError (Option Chunk) :=
  match st.sql.getChunk cls key idx with
  | none => .ok none
  | some chunk =>
      if isFinal ≠ chunk.isFinal then .error (.other "chunk finality mismatch")
      else .ok (some chunk)

def getChunkFile (db : VmIoDb) (st : Store) (cls key : String) (idx : Int64) (isFinal : Bool)
    (chunk : Chunk) : Except IoError Bytes :=
  let chunkId : ChunkId := ⟨cls, key, idx, chunk.hash, isFinal⟩
  match st.fs.read (db.path (genId db.crypto chunkId db.blobKey)) with
  | .error e => .error (.fs e)
  | .ok data =>
      if (data.length : ℤ) ≠ chunk.size then .error (.other "corrupted chunk")
      else decryptChunk db.crypto chunkId data db.blobKey chunk.tag

/-- `get_chunk` with nothing else running. -/
def getChunk (db : VmIoDb) (st : Store) (cls key : String) (idx : Int64) (isFinal : Bool) :
    Except IoError (Option Bytes) :=
  match getChunkRow st cls key idx isFinal with
  | .error e => .error e
  | .ok none => .ok none
  | .ok (some chunk) => (getChunkFile db st cls key idx isFinal chunk).map some

inductive GetChunkPc
  | row
  | read (chunk : Chunk)
  | done (res : Except IoError (Option Bytes))

def stepGetChunk (db : VmIoDb) (st : Store) (cls key : String) (idx : Int64) (isFinal : Bool) :
    GetChunkPc → Choice → Option (Store × GetChunkPc)
  | .row, .ok =>
      match getChunkRow st cls key idx isFinal with
      | .error e => some (st, .done (.error e))
      | .ok none => some (st, .done (.ok none))
      | .ok (some chunk) => some (st, .read chunk)
  | .row, .fail => some (st, .done (.error (.sql .failed)))
  | .read chunk, .ok =>
      some (st, .done ((getChunkFile db st cls key idx isFinal chunk).map some))
  | .read _, .fail => some (st, .done (.error (.fs .other)))
  | _, _ => none

/-! ### The system of running calls -/

inductive Task
  | upsert (row : EntryRow) (pc : UpsertPc)
  | upsertChunk (req : ChunkReq) (pc : UpsertChunkPc)
  | rm (cls key : String) (pc : RmPc)
  | pruneBacklog (pc : PrunePc)
  | cleanupDir (pc : CleanupPc)
  | getChunk (cls key : String) (idx : Int64) (isFinal : Bool) (pc : GetChunkPc)

inductive Call
  | upsert (row : EntryRow)
  | upsertChunk (req : ChunkReq)
  | rm (cls key : String)
  | pruneBacklog
  | cleanupDir
  | getChunk (cls key : String) (idx : Int64) (isFinal : Bool)

def Call.start : Call → Task
  | .upsert row => .upsert row .start
  | .upsertChunk req => .upsertChunk req .start
  | .rm cls key => .rm cls key .txn
  | .pruneBacklog => .pruneBacklog .clock
  | .cleanupDir => .cleanupDir .start
  | .getChunk cls key idx isFinal => .getChunk cls key idx isFinal .row

def Task.finished : Task → Bool
  | .upsert _ (.done _) => true
  | .upsertChunk _ (.done _) => true
  | .rm _ _ (.done _) => true
  | .pruneBacklog (.done _) => true
  | .cleanupDir (.done _) => true
  | .getChunk _ _ _ _ (.done _) => true
  | _ => false

def stepTask (db : VmIoDb) (st : Store) : Task → Choice → Option (Store × Task)
  | .upsert row pc, c => (stepUpsert st row pc c).map (Prod.map id (.upsert row))
  | .upsertChunk r pc, c => (stepUpsertChunk db st r pc c).map (Prod.map id (.upsertChunk r))
  | .rm cls key pc, c => (stepRm db st cls key pc c).map (Prod.map id (.rm cls key))
  | .pruneBacklog pc, c => (stepPrune db st pc c).map (Prod.map id .pruneBacklog)
  | .cleanupDir pc, c => (stepCleanup db st pc c).map (Prod.map id .cleanupDir)
  | .getChunk cls key idx isFinal pc, c =>
      (stepGetChunk db st cls key idx isFinal pc c).map
        (Prod.map id (.getChunk cls key idx isFinal))

/-- The store and the calls issued since the process started. -/
structure Sys where
  st : Store
  tasks : List Task

inductive Action
  | spawn (call : Call)
  | step (t : ℕ) (c : Choice)
  /-- time passes -/
  | tick (d : ℕ)
  /-- the process dies and starts again -/
  | crash

def step (db : VmIoDb) (s : Sys) : Action → Option Sys
  | .spawn call => some { s with tasks := s.tasks ++ [call.start] }
  | .step t c =>
      match s.tasks[t]? with
      | none => none
      | some task =>
          (stepTask db s.st task c).map fun r => ⟨r.1, s.tasks.set t r.2⟩
  | .tick d => some { s with st := { s.st with now := s.st.now + d } }
  | .crash => some { s with tasks := [] }

def Sys.init (db : VmIoDb) (now : Time) : Sys :=
  ⟨⟨Sql.empty, Fs.init db.rootDir now, now⟩, []⟩

end VmIo.Db
