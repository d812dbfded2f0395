import VmIo.Db.Files
import VmIo.Db.Prune
import VmIo.Db.Tampering
import VmIo.Db.Reading

/-!
What a history of the store says about itself.

The calls of a run report when they are issued, when a transaction of theirs commits or a lookup
reads its row, and what they return. `StoreExplained` is what the store is for, one event at a
time, given the history before it: each call takes effect at most once, at a moment between its
start and its return, and what it returns tells what became of it. The tables always hold the
files that the commits so far leave (`storeTraced`). Crashes may come at any time, and all
operations may fail.
-/

namespace VmIo.Db

open VmIo.Lib

deriving instance DecidableEq for Call

inductive Answer
  | upsert (res : Except IoError Bool)
  | unit (res : Except IoError Unit)
  | chunk (res : Except IoError (Option Bytes))
  deriving DecidableEq

inductive StoreEvent
  | called (t : ℕ) (call : Call)
  | upserted (t : ℕ) (row : EntryRow)
  /-- the statement has met a row as new -/
  | superseded (t : ℕ) (row : EntryRow)
  | chunked (t : ℕ) (r : ChunkReq)
  | removed (t : ℕ) (cls key : String)
  | pruned (t : ℕ) (nowMicros : ℤ) (keys : List (String × String))
  /-- the row read of a lookup, with the upload that is held then -/
  | looked (t : ℕ) (held : Option ChunkReq)
  | answered (t : ℕ) (res : Answer)
  | crashed
  deriving DecidableEq

/-- The events so far, the latest first. -/
abbrev StoreLog := List StoreEvent

namespace StoreEvent

def task? : StoreEvent → Option ℕ
  | called t _ => some t
  | upserted t _ => some t
  | superseded t _ => some t
  | chunked t _ => some t
  | removed t _ _ => some t
  | pruned t _ _ => some t
  | looked t _ => some t
  | answered t _ => some t
  | crashed => none

def change (files : Files) : StoreEvent → Files
  | upserted _ row => files.putEntry row
  | chunked _ r => files.putChunk r
  | removed _ cls key => files.remove fun k => k = (cls, key)
  | pruned _ _ keys => files.remove keys.contains
  | _ => files

end StoreEvent

def filesAfter : StoreLog → Files
  | [] => Files.empty
  | e :: h => e.change (filesAfter h)

def taskPart (t : ℕ) : StoreLog → StoreLog
  | [] => []
  | .crashed :: _ => []
  | e :: h => if e.task? = some t then e :: taskPart t h else taskPart t h

section Explained

variable (h : StoreLog) (t : ℕ)

/-- What a call returns, given its part in the history. -/
inductive Returns : Answer → Prop
  | upserted {row : EntryRow} : taskPart t h = [.upserted t row, .called t (.upsert row)] →
      Returns (.upsert (.ok true))
  | superseded {row : EntryRow} : taskPart t h = [.superseded t row, .called t (.upsert row)] →
      Returns (.upsert (.ok false))
  | notUpserted {row : EntryRow} {e : IoError} : taskPart t h = [.called t (.upsert row)] →
      Returns (.upsert (.error e))
  | chunked {r : ChunkReq} : taskPart t h = [.chunked t r, .called t (.upsertChunk r)] →
      Returns (.unit (.ok ()))
  | notChunked {r : ChunkReq} {e : IoError} : taskPart t h = [.called t (.upsertChunk r)] →
      Returns (.unit (.error e))
  | removed {cls key : String} : taskPart t h = [.removed t cls key, .called t (.rm cls key)] →
      Returns (.unit (.ok ()))
  | notRemoved {cls key : String} {e : IoError} : taskPart t h = [.called t (.rm cls key)] →
      Returns (.unit (.error e))
  | pruned {prunes : StoreLog} {res : Except IoError Unit} :
      taskPart t h = prunes ++ [.called t .pruneBacklog] →
      (∀ e ∈ prunes, ∃ nowMicros keys, e = .pruned t nowMicros keys) → Returns (.unit res)
  | cleaned {res : Except IoError Unit} : taskPart t h = [.called t .cleanupDir] →
      Returns (.unit res)
  | missing {cls key : String} {idx : Int64} {isFinal : Bool} :
      taskPart t h = [.looked t none, .called t (.getChunk cls key idx isFinal)] →
      Returns (.chunk (.ok none))
  | found {r : ChunkReq} :
      taskPart t h = [.looked t (some r), .called t (.getChunk r.cls r.key r.idx r.isFinal)] →
      Returns (.chunk (.ok (some r.data)))
  | mismatch {r : ChunkReq} {isFinal : Bool} : isFinal ≠ r.isFinal →
      taskPart t h = [.looked t (some r), .called t (.getChunk r.cls r.key r.idx isFinal)] →
      Returns (.chunk (.error (.other "chunk finality mismatch")))
  | notLooked {cls key : String} {idx : Int64} {isFinal : Bool} {e : IoError} :
      taskPart t h = [.called t (.getChunk cls key idx isFinal)] → Returns (.chunk (.error e))
  | notRead {r : ChunkReq} {e : IoError} :
      taskPart t h = [.looked t (some r), .called t (.getChunk r.cls r.key r.idx r.isFinal)] →
      Returns (.chunk (.error e))

/-- What an event says about the history before it. -/
def StoreExplained : StoreEvent → Prop
  | .called t _ => taskPart t h = []
  | .upserted t row => taskPart t h = [.called t (.upsert row)] ∧ checkEntry row = .ok () ∧
      (∀ f ∈ filesAfter h row.pk, f.entry.modifiedAtMicros < row.modifiedAtMicros) ∧
      ∀ k f, filesAfter h k = some f → f.entry.modifiedAtMicros = row.modifiedAtMicros → k = row.pk
  | .superseded t row => taskPart t h = [.called t (.upsert row)] ∧ checkEntry row = .ok () ∧
      ∃ f ∈ filesAfter h row.pk, row.modifiedAtMicros ≤ f.entry.modifiedAtMicros
  | .chunked t r => taskPart t h = [.called t (.upsertChunk r)] ∧ checkChunk r = .ok () ∧
      (filesAfter h (r.cls, r.key)).isSome
  | .removed t cls key => taskPart t h = [.called t (.rm cls key)]
  | .pruned t nowMicros keys => (∃ prunes, taskPart t h = prunes ++ [.called t .pruneBacklog] ∧
      ∀ e ∈ prunes, ∃ nowMicros keys, e = .pruned t nowMicros keys) ∧
      ∀ k ∈ keys, ∃ f ∈ filesAfter h k, Sql.EntryExpired nowMicros f.entry
  | .looked t held => ∃ cls key idx isFinal,
      taskPart t h = [.called t (.getChunk cls key idx isFinal)] ∧
      held = (filesAfter h).chunk (cls, key, idx)
  | .answered t res => Returns h t res
  | .crashed => True

end Explained

/-! ### What a step reports -/

def Task.answer? : Task → Option Answer
  | .upsert _ (.done res) => some (.upsert res)
  | .upsertChunk _ (.done res) => some (.unit res)
  | .rm _ _ (.done res) => some (.unit res)
  | .pruneBacklog (.done res) => some (.unit res)
  | .cleanupDir (.done res) => some (.unit res)
  | .getChunk _ _ _ _ (.done res) => some (.chunk res)
  | _ => none

/-- What a call does to the database with its next step, or sees of it. -/
def commits (t : ℕ) (sql : Sql) (h : StoreLog) : Task → Choice → StoreLog
  | .upsert row .txn, .ok =>
      match sql.upsert row with
      | .ok (_, true) => [.upserted t row]
      | .ok (_, false) => [.superseded t row]
      | .error _ => []
  | .upsertChunk r (.txn _), .ok => if sql.hasEntry (r.cls, r.key) then [.chunked t r] else []
  | .rm cls key .txn, .ok => [.removed t cls key]
  | .pruneBacklog (.txn nowMicros), .ok =>
      [.pruned t nowMicros (sql.expiredBatch nowMicros pruneBatch)]
  | .getChunk cls key idx _ .row, .ok => [.looked t ((filesAfter h).chunk (cls, key, idx))]
  | _, _ => []

def taskEvents (t : ℕ) (sql : Sql) (h : StoreLog) (task : Task) (c : Choice) (task' : Task) :
    StoreLog :=
  (task'.answer?.map (.answered t)).toList ++ commits t sql h task c

def recordStore (s : Sys) (a : Action) (s' : Sys) (h : StoreLog) : StoreLog :=
  match a with
  | .spawn call => .called s.tasks.length call :: h
  | .step t c =>
      match s.tasks[t]?, s'.tasks[t]? with
      | some task, some task' => taskEvents t s.st.sql h task c task' ++ h
      | _, _ => h
  | .tick _ => h
  | .crash => .crashed :: h

/-! ### Parts of a history -/

section Parts

variable {h : StoreLog} {e : StoreEvent} {t u : ℕ}

theorem taskPart_cons (he : e.task? = some t) : taskPart t (e :: h) = e :: taskPart t h := by
  cases e with
  | crashed => cases he
  | _ => exact if_pos he

theorem taskPart_cons_of_ne (he : e.task? = some t) (hu : u ≠ t) :
    taskPart u (e :: h) = taskPart u h := by
  have hne : e.task? ≠ some u := by
    rw [he]
    exact fun heq => hu (Option.some.inj heq).symm
  cases e with
  | crashed => cases he
  | _ => exact if_neg hne

end Parts

/-! ### What holds of every state -/

/-- The part an upload has had, by where it is. -/
def UpsertChunkPc.Reported (h : StoreLog) (t : ℕ) (r : ChunkReq) : UpsertChunkPc → Prop
  | .start => taskPart t h = [.called t (.upsertChunk r)]
  | .removeOwn _ => taskPart t h = [.called t (.upsertChunk r)]
  | .removePrev _ => taskPart t h = [.chunked t r, .called t (.upsertChunk r)]
  | .done _ => True
  | _ => taskPart t h = [.called t (.upsertChunk r)] ∧ checkChunk r = .ok ()

def PruneReported (h : StoreLog) (t : ℕ) : Prop :=
  ∃ prunes, taskPart t h = prunes ++ [.called t .pruneBacklog] ∧
    ∀ e ∈ prunes, ∃ nowMicros keys, e = .pruned t nowMicros keys

/-- The part a call has had, by where it is. -/
def Task.Reported (db : VmIoDb) (P : ChunkReq → Prop) (h : StoreLog) (t : ℕ) : Task → Prop
  | .upsert row .start => taskPart t h = [.called t (.upsert row)]
  | .upsert row .txn => taskPart t h = [.called t (.upsert row)] ∧ checkEntry row = .ok ()
  | .upsert _ (.done _) => True
  | .upsertChunk r pc => pc.Reported h t r
  | .rm cls key .txn => taskPart t h = [.called t (.rm cls key)]
  | .rm cls key (.removing _) => taskPart t h = [.removed t cls key, .called t (.rm cls key)]
  | .rm _ _ (.done _) => True
  | .pruneBacklog (.done _) => True
  | .pruneBacklog _ => PruneReported h t
  | .cleanupDir (.done _) => True
  | .cleanupDir _ => taskPart t h = [.called t .cleanupDir]
  | .getChunk cls key idx isFinal .row => taskPart t h = [.called t (.getChunk cls key idx isFinal)]
  | .getChunk cls key idx isFinal (.read chunk) => ∃ r, P r ∧ r.slot = (cls, key, idx) ∧
      r.isFinal = isFinal ∧ chunk = db.chunk r ∧
      taskPart t h = [.looked t (some r), .called t (.getChunk cls key idx isFinal)]
  | .getChunk _ _ _ _ (.done _) => True

/-- The database and one call. -/
structure Reports (db : VmIoDb) (P : ChunkReq → Prop) (t : ℕ) (sql : Sql) (h : StoreLog)
    (task : Task) : Prop where
  legal : Legal StoreExplained h
  represents : Represents db (filesAfter h) sql
  uploads : ∀ slot r, (filesAfter h).chunk slot = some r → P r
  reported : task.Reported db P h t

structure StoreTraced (db : VmIoDb) (P : ChunkReq → Prop) (s : Sys) (h : StoreLog) : Prop where
  legal : Legal StoreExplained h
  represents : Represents db (filesAfter h) s.st.sql
  uploads : ∀ slot r, (filesAfter h).chunk slot = some r → P r
  tasks : ∀ (t : ℕ) (task : Task), s.tasks[t]? = some task → task.Reported db P h t
  tasks_length : ∀ t, s.tasks.length ≤ t → taskPart t h = []

section Step

variable {db : VmIoDb} {P : ChunkReq → Prop} {t : ℕ} {st st' : Store} {h : StoreLog} {c : Choice}

theorem Reports.answer {sql : Sql} {task task' : Task} {res : Answer}
    (hs : Reports db P t sql h task) (hret : Returns h t res)
    (hdone : task'.Reported db P (.answered t res :: h) t) :
    Reports db P t sql (.answered t res :: h) task' :=
  ⟨⟨hret, hs.legal⟩, hs.represents, hs.uploads, hdone⟩

theorem reports_upsert {row : EntryRow} {pc pc' : UpsertPc}
    (hs : Reports db P t st.sql h (.upsert row pc))
    (hstep : stepUpsert st row pc c = some (st', pc')) :
    Reports db P t st'.sql
      (taskEvents t st.sql h (.upsert row pc) c (.upsert row pc') ++ h) (.upsert row pc') := by
  unfold stepUpsert at hstep
  split at hstep
  · split at hstep
    · cases hstep
      exact hs.answer (.notUpserted hs.reported) trivial
    · rename_i hcheck
      cases hstep
      exact ⟨hs.legal, hs.represents, hs.uploads, hs.reported, hcheck⟩
  · obtain ⟨hpart, hcheck⟩ := hs.reported
    split at hstep
    · rename_i sql applied hup
      cases hstep
      rcases Sql.upsert_cases hup with ⟨hfree, hnew, heq⟩ | ⟨hold, heq⟩ | ⟨_, _, heq⟩
      · cases heq
        have hevents : taskEvents t st.sql h (.upsert row .txn) .ok (.upsert row (.done (.ok true))) =
            [.answered t (.upsert (.ok true)), .upserted t row] := by
          simp [taskEvents, commits, Task.answer?, hup]
        rw [hevents]
        have hafter : Reports db P t (st.sql.putEntry row hfree) (.upserted t row :: h)
            (.upsert row (.done (.ok true))) := by
          refine ⟨⟨⟨hpart, hcheck, hs.represents.newer_iff.mp hnew, ?_⟩, hs.legal⟩,
            hs.represents.putEntry hfree, fun slot r hr => hs.uploads slot r ?_, trivial⟩
          · intro k f hf hmod
            by_contra hk
            exact hfree (hs.represents.modifiedTaken_iff.mpr ⟨k, f, hf, hmod, hk⟩)
          · exact (Files.chunk_putEntry slot).symm.trans hr
        exact hafter.answer (.upserted (by rw [taskPart_cons rfl, hpart])) trivial
      · cases heq
        have hevents : taskEvents t st.sql h (.upsert row .txn) .ok
            (.upsert row (.done (.ok false))) =
            [.answered t (.upsert (.ok false)), .superseded t row] := by
          simp [taskEvents, commits, Task.answer?, hup]
        rw [hevents]
        rw [hs.represents.newer_iff] at hold
        simp only [not_forall, not_lt] at hold
        have hafter : Reports db P t st.sql (.superseded t row :: h)
            (.upsert row (.done (.ok false))) :=
          ⟨⟨⟨hpart, hcheck, by simpa using hold⟩, hs.legal⟩, hs.represents, hs.uploads, trivial⟩
        exact hafter.answer (.superseded (by rw [taskPart_cons rfl, hpart])) trivial
      · contradiction
    · rename_i e hup
      cases hstep
      have hevents : taskEvents t st.sql h (.upsert row .txn) .ok
          (.upsert row (.done (.error (.sql e)))) = [.answered t (.upsert (.error (.sql e)))] := by
        simp [taskEvents, commits, Task.answer?, hup]
      rw [hevents]
      exact hs.answer (.notUpserted hpart) trivial
  · cases hstep
    exact hs.answer (.notUpserted hs.reported.1) trivial
  · contradiction

theorem Reports.still {sql : Sql} {task task' : Task} (hs : Reports db P t sql h task)
    (hreported : task'.Reported db P h t) : Reports db P t sql h task' :=
  ⟨hs.legal, hs.represents, hs.uploads, hreported⟩

theorem reports_upsertChunk {r : ChunkReq} {pc pc' : UpsertChunkPc} (hr : P r)
    (hs : Reports db P t st.sql h (.upsertChunk r pc))
    (hstep : UpsertChunkStep db st r pc c st' pc') :
    Reports db P t st'.sql
      (taskEvents t st.sql h (.upsertChunk r pc) c (.upsertChunk r pc') ++ h)
      (.upsertChunk r pc') := by
  have hreported := hs.reported
  cases hstep with
  | refuse e hcheck => exact hs.answer (.notChunked hreported) trivial
  | check hcheck => exact hs.still ⟨hreported, hcheck⟩
  | skip info hinfo hlen => exact hs.still hreported
  | miss c hmiss => exact hs.still hreported
  | mkdir i fs hfs => exact hs.still hreported
  | mkdirFailed i n fs e hfs => exact hs.answer (.notChunked hreported.1) trivial
  | mkdirRefused i c e => exact hs.answer (.notChunked hreported.1) trivial
  | create i fs ino hfs => exact hs.still hreported
  | retry i => exact hs.still hreported
  | createRefused i c e => exact hs.answer (.notChunked hreported.1) trivial
  | write ino off n hn hoff => exact hs.still hreported
  | written ino => exact hs.still hreported
  | writeFailed ino off e => exact hs.answer (.notChunked hreported.1) trivial
  | commit wrote sql prev hup =>
      obtain ⟨hpart, hcheck⟩ := hreported
      have hentry : st.sql.hasEntry (r.cls, r.key) = true := (Sql.upsertChunk_ok hup).1
      have hfile : (filesAfter h (r.cls, r.key)).isSome := hs.represents.hasEntry _ ▸ hentry
      have hlegal : Legal StoreExplained (.chunked t r :: h) :=
        ⟨⟨hpart, hcheck, hfile⟩, hs.legal⟩
      have huploads : ∀ slot r', (filesAfter (.chunked t r :: h)).chunk slot = some r' → P r' := by
        intro slot r' hr'
        have hr' := (Files.chunk_putChunk hfile slot).symm.trans hr'
        split at hr'
        · cases hr'
          exact hr
        · exact hs.uploads slot r' hr'
      have hafter : taskPart t (.chunked t r :: h) = [.chunked t r, .called t (.upsertChunk r)] := by
        rw [taskPart_cons rfl, hpart]
      have hcommits : commits t st.sql h (.upsertChunk r (.txn wrote)) .ok = [.chunked t r] := by
        rw [commits, if_pos hentry]
      rw [taskEvents, hcommits]
      cases prev with
      | none =>
          exact ⟨⟨.chunked hafter, hlegal⟩, hs.represents.putChunk hup, huploads, trivial⟩
      | some prev => exact ⟨hlegal, hs.represents.putChunk hup, huploads, hafter⟩
  | abort wrote c e habort =>
      have hcommits : commits t st.sql h (.upsertChunk r (.txn wrote)) c = [] := by
        rcases habort with rfl | ⟨rfl, hentry⟩
        · rfl
        · have hentry : st.sql.hasEntry (r.cls, r.key) = false := hentry
          simp [commits, hentry]
      rw [taskEvents, hcommits]
      cases wrote with
      | true => exact hs.still hreported.1
      | false => exact hs.answer (.notChunked hreported.1) trivial
  | removeOwn e =>
      rw [removeQuiet_sql]
      exact hs.answer (.notChunked hreported) trivial
  | keepOwn e => exact hs.answer (.notChunked hreported) trivial
  | removePrev prev =>
      rw [removeQuiet_sql]
      exact hs.answer (.chunked hreported) trivial
  | keepPrev prev => exact hs.answer (.chunked hreported) trivial

theorem reports_rm {cls key : String} {pc pc' : RmPc}
    (hs : Reports db P t st.sql h (.rm cls key pc))
    (hstep : stepRm db st cls key pc c = some (st', pc')) :
    Reports db P t st'.sql
      (taskEvents t st.sql h (.rm cls key pc) c (.rm cls key pc') ++ h) (.rm cls key pc') := by
  have hreported := hs.reported
  unfold stepRm at hstep
  split at hstep
  · cases hstep
    refine ⟨⟨hreported, hs.legal⟩, hs.represents.deleteEntries _, fun slot r hr => ?_, ?_⟩
    · have hr := (Files.chunk_remove _ slot).symm.trans hr
      split at hr
      · cases hr
      · exact hs.uploads slot r hr
    · exact (taskPart_cons rfl).trans (congrArg _ hreported)
  · cases hstep
    exact hs.answer (.notRemoved hreported) trivial
  · cases hstep
    rw [removeQuiet_sql]
    exact hs.still hreported
  · cases hstep
    exact hs.still hreported
  · cases hstep
    exact hs.answer (.removed hreported) trivial
  · contradiction

/-- The files of the keys that a prune removes have expired. -/
theorem Represents.expired {files : Files} {sql : Sql} (hs : Represents db files sql)
    {nowMicros limit : ℤ} {k : String × String} (hk : k ∈ sql.expiredBatch nowMicros limit) :
    ∃ f ∈ files k, Sql.EntryExpired nowMicros f.entry := by
  obtain ⟨row, hrow, hexpired⟩ := Sql.expiredBatch_expired hk
  rw [hs.entries] at hrow
  obtain ⟨f, hf, rfl⟩ := Option.map_eq_some_iff.mp hrow
  exact ⟨f, hf, hexpired⟩

theorem reports_prune {pc pc' : PrunePc} (hs : Reports db P t st.sql h (.pruneBacklog pc))
    (hstep : stepPrune db st pc c = some (st', pc')) :
    Reports db P t st'.sql
      (taskEvents t st.sql h (.pruneBacklog pc) c (.pruneBacklog pc') ++ h) (.pruneBacklog pc') := by
  have hreported := hs.reported
  unfold stepPrune at hstep
  split at hstep
  · cases hstep
    exact hs.still hreported
  · cases hstep
    obtain ⟨prunes, hpart, hprunes⟩ := hreported
    exact hs.answer (.pruned hpart hprunes) trivial
  · rename_i nowMicros
    cases hstep
    refine ⟨⟨⟨hreported, fun k hk => hs.represents.expired hk⟩, hs.legal⟩,
      ?_, fun slot r hr => ?_, ?_⟩
    · have hkeys : (st.sql.expiredBatch nowMicros pruneBatch).contains =
          fun k => decide (k ∈ st.sql.expiredBatch nowMicros pruneBatch) := by
        funext k
        exact List.contains_eq_mem k _
      exact hkeys ▸ hs.represents.deleteEntries _
    · have hr := (Files.chunk_remove _ slot).symm.trans hr
      split at hr
      · cases hr
      · exact hs.uploads slot r hr
    · obtain ⟨prunes, hpart, hprunes⟩ := hreported
      refine ⟨.pruned t nowMicros (st.sql.expiredBatch nowMicros pruneBatch) :: prunes,
        (taskPart_cons rfl).trans (congrArg _ hpart), List.forall_mem_cons.mpr ⟨?_, hprunes⟩⟩
      exact ⟨nowMicros, _, rfl⟩
  · cases hstep
    obtain ⟨prunes, hpart, hprunes⟩ := hreported
    exact hs.answer (.pruned hpart hprunes) trivial
  · cases hstep
    rw [removeQuiet_sql]
    exact hs.still hreported
  · cases hstep
    exact hs.still hreported
  · split at hstep
    · cases hstep
      obtain ⟨prunes, hpart, hprunes⟩ := hreported
      exact hs.answer (.pruned hpart hprunes) trivial
    · cases hstep
      exact hs.still hreported
  · contradiction

theorem CleanupStep.sql {pc pc' : CleanupPc} (hstep : CleanupStep db st pc c st' pc') :
    st'.sql = st.sql := by
  cases hstep <;> simp

theorem reports_cleanup {pc pc' : CleanupPc} (hs : Reports db P t st.sql h (.cleanupDir pc))
    (hpc : (Task.cleanupDir pc).finished = false) (hstep : CleanupStep db st pc c st' pc') :
    Reports db P t st'.sql
      (taskEvents t st.sql h (.cleanupDir pc) c (.cleanupDir pc') ++ h) (.cleanupDir pc') := by
  have hpart : taskPart t h = [.called t .cleanupDir] := by
    have hreported := hs.reported
    cases pc with
    | done res => cases hpc
    | _ => exact hreported
  have hcommits : commits t st.sql h (.cleanupDir pc) c = [] := rfl
  rw [hstep.sql, taskEvents, hcommits]
  cases pc' with
  | done res => exact hs.answer (.cleaned hpart) trivial
  | _ => exact hs.still hpart

theorem reports_getChunk {cls key : String} {idx : Int64} {isFinal : Bool} {pc pc' : GetChunkPc}
    (hcf : CollisionFree db P) (hauth : Authentic db P)
    (hs : Reports db P t st.sql h (.getChunk cls key idx isFinal pc))
    (hstep : stepGetChunk db st cls key idx isFinal pc c = some (st', pc')) :
    Reports db P t st'.sql
      (taskEvents t st.sql h (.getChunk cls key idx isFinal pc) c (.getChunk cls key idx isFinal pc')
        ++ h) (.getChunk cls key idx isFinal pc') := by
  have hreported := hs.reported
  unfold stepGetChunk at hstep
  split at hstep
  · have hfind := hs.represents.chunks (cls, key, idx)
    have hlegal : Legal StoreExplained (.looked t ((filesAfter h).chunk (cls, key, idx)) :: h) :=
      ⟨⟨cls, key, idx, isFinal, hreported, rfl⟩, hs.legal⟩
    have hafter : taskPart t (.looked t ((filesAfter h).chunk (cls, key, idx)) :: h) =
        [.looked t ((filesAfter h).chunk (cls, key, idx)),
          .called t (.getChunk cls key idx isFinal)] := by
      rw [taskPart_cons rfl, hreported]
    have hcommits : commits t st.sql h (.getChunk cls key idx isFinal .row) .ok =
        [.looked t ((filesAfter h).chunk (cls, key, idx))] := rfl
    rw [taskEvents, hcommits]
    cases hheld : (filesAfter h).chunk (cls, key, idx) with
    | none =>
        rw [hheld] at hfind hafter hlegal
        have hrow : getChunkRow st cls key idx isFinal = .ok none := by
          simp [getChunkRow, Sql.getChunk, hfind]
        rw [hrow] at hstep
        cases hstep
        exact ⟨⟨.missing hafter, hlegal⟩, hs.represents, hs.uploads, trivial⟩
    | some r =>
        rw [hheld] at hfind hafter hlegal
        have hslot := hs.represents.chunk_slot hheld
        simp only [ChunkReq.slot, Prod.mk.injEq] at hslot
        obtain ⟨rfl, rfl, rfl⟩ := hslot
        rw [getChunkRow_row isFinal hfind] at hstep
        by_cases hfinal : isFinal = r.isFinal
        · subst hfinal
          rw [if_neg (not_not.mpr rfl)] at hstep
          cases hstep
          exact ⟨hlegal, hs.represents, hs.uploads, r, hs.uploads _ r hheld, rfl, rfl, rfl, hafter⟩
        · rw [if_pos hfinal] at hstep
          cases hstep
          exact ⟨⟨.mismatch hfinal hafter, hlegal⟩, hs.represents, hs.uploads, trivial⟩
  · cases hstep
    exact hs.answer (.notLooked hreported) trivial
  · rename_i chunk
    cases hstep
    obtain ⟨r, hr, hslot, rfl, rfl, hpart⟩ := hreported
    simp only [ChunkReq.slot, Prod.mk.injEq] at hslot
    obtain ⟨rfl, rfl, rfl⟩ := hslot
    have hcommits : commits t st.sql h
        (.getChunk r.cls r.key r.idx r.isFinal (.read (db.chunk r))) .ok = [] := rfl
    rw [taskEvents, hcommits]
    rcases getChunkFile_tampered hcf hauth hr st (db.cipher r).length with ⟨e, he⟩ | hdata
    · have he : getChunkFile db st r.cls r.key r.idx r.isFinal (db.chunk r) = .error e := he
      rw [he]
      exact hs.answer (.notRead hpart) trivial
    · have hdata : getChunkFile db st r.cls r.key r.idx r.isFinal (db.chunk r) = .ok r.data := hdata
      rw [hdata]
      exact hs.answer (.found hpart) trivial
  · cases hstep
    obtain ⟨r, hr, hslot, rfl, rfl, hpart⟩ := hreported
    simp only [ChunkReq.slot, Prod.mk.injEq] at hslot
    obtain ⟨rfl, rfl, rfl⟩ := hslot
    exact hs.answer (.notRead hpart) trivial
  · contradiction

theorem reports_step {task task' : Task} (hcf : CollisionFree db P) (hauth : Authentic db P)
    (hupload : ∀ r pc, task = .upsertChunk r pc → P r) (hs : Reports db P t st.sql h task)
    (hstep : stepTask db st task c = some (st', task')) :
    Reports db P t st'.sql (taskEvents t st.sql h task c task' ++ h) task' := by
  have hfinished := unfinished_of_step hstep
  cases task with
  | upsert row pc =>
      obtain ⟨⟨st₁, pc'⟩, hpc, heq⟩ := Option.map_eq_some_iff.mp hstep
      cases heq
      exact reports_upsert hs hpc
  | upsertChunk r pc =>
      obtain ⟨⟨st₁, pc'⟩, hpc, heq⟩ := Option.map_eq_some_iff.mp hstep
      cases heq
      exact reports_upsertChunk (hupload r pc rfl) hs (stepUpsertChunk_cases hpc)
  | rm cls key pc =>
      obtain ⟨⟨st₁, pc'⟩, hpc, heq⟩ := Option.map_eq_some_iff.mp hstep
      cases heq
      exact reports_rm hs hpc
  | pruneBacklog pc =>
      obtain ⟨⟨st₁, pc'⟩, hpc, heq⟩ := Option.map_eq_some_iff.mp hstep
      cases heq
      exact reports_prune hs hpc
  | cleanupDir pc =>
      obtain ⟨⟨st₁, pc'⟩, hpc, heq⟩ := Option.map_eq_some_iff.mp hstep
      cases heq
      exact reports_cleanup hs hfinished (stepCleanup_cases hpc)
  | getChunk cls key idx isFinal pc =>
      obtain ⟨⟨st₁, pc'⟩, hpc, heq⟩ := Option.map_eq_some_iff.mp hstep
      cases heq
      exact reports_getChunk hcf hauth hs hpc

end Step

section Runs

variable {db : VmIoDb} {P : ChunkReq → Prop} {s s' : Sys} {h h' events : StoreLog} {t u : ℕ}

/-- What holds of a call depends on its part only. -/
theorem Task.Reported.congr {task : Task} (hpart : taskPart t h' = taskPart t h)
    (htask : task.Reported db P h t) : task.Reported db P h' t := by
  cases task with
  | upsertChunk r pc =>
      cases pc with
      | done res => trivial
      | _ => simpa only [Task.Reported, UpsertChunkPc.Reported, hpart] using htask
  | pruneBacklog pc =>
      cases pc with
      | done res => trivial
      | _ => simpa only [Task.Reported, PruneReported, hpart] using htask
  | upsert row pc =>
      cases pc with
      | done res => trivial
      | _ => simpa only [Task.Reported, hpart] using htask
  | rm cls key pc =>
      cases pc with
      | done res => trivial
      | _ => simpa only [Task.Reported, hpart] using htask
  | cleanupDir pc =>
      cases pc with
      | done res => trivial
      | _ => simpa only [Task.Reported, hpart] using htask
  | getChunk cls key idx isFinal pc =>
      cases pc with
      | done res => trivial
      | _ => simpa only [Task.Reported, hpart] using htask

theorem task?_of_mem_commits {sql : Sql} {task : Task} {c : Choice} :
    ∀ e ∈ commits t sql h task c, e.task? = some t := by
  intro e he
  unfold commits at he
  split at he
  · split at he
    · rw [List.mem_singleton.mp he]
      rfl
    · rw [List.mem_singleton.mp he]
      rfl
    · cases he
  · split at he
    · rw [List.mem_singleton.mp he]
      rfl
    · cases he
  · rw [List.mem_singleton.mp he]
    rfl
  · rw [List.mem_singleton.mp he]
    rfl
  · rw [List.mem_singleton.mp he]
    rfl
  · cases he

theorem task?_of_mem_taskEvents {sql : Sql} {task task' : Task} {c : Choice} :
    ∀ e ∈ taskEvents t sql h task c task', e.task? = some t := by
  intro e he
  rcases List.mem_append.mp he with he | he
  · obtain ⟨res, _, rfl⟩ := Option.map_eq_some_iff.mp (Option.mem_toList.mp he)
    rfl
  · exact task?_of_mem_commits e he

theorem taskPart_append_of_ne (hevents : ∀ e ∈ events, e.task? = some t) (hu : u ≠ t) :
    taskPart u (events ++ h) = taskPart u h := by
  induction events with
  | nil => rfl
  | cons e events ih =>
      obtain ⟨he, hevents⟩ := List.forall_mem_cons.mp hevents
      exact (taskPart_cons_of_ne he hu).trans (ih hevents)

theorem storeTraced_init (db : VmIoDb) (P : ChunkReq → Prop) (now : Time) :
    StoreTraced db P (Sys.init db now) [] where
  legal := trivial
  represents := Represents.empty db
  uploads slot r hr := by cases hr
  tasks t task ht := by simp [Sys.init] at ht
  tasks_length _ _ := rfl

theorem storeTraced_step {a : Action} (hcf : CollisionFree db P) (hauth : Authentic db P)
    (hprov : Provenance db P s) (hs : StoreTraced db P s h) (hstep : step db s a = some s') :
    StoreTraced db P s' (recordStore s a s' h) := by
  cases a with
  | spawn call =>
      cases hstep
      have hnew : taskPart s.tasks.length h = [] := hs.tasks_length _ le_rfl
      refine ⟨⟨hnew, hs.legal⟩, hs.represents, hs.uploads, fun t task ht => ?_, fun t ht => ?_⟩
      · rcases getElem?_concat_cases ht with hold | ⟨hge, rfl⟩
        · have hlt := (List.getElem?_eq_some_iff.mp hold).1
          exact (hs.tasks t task hold).congr (taskPart_cons_of_ne rfl hlt.ne)
        · obtain rfl : t = s.tasks.length := by
            have hlt := (List.getElem?_eq_some_iff.mp ht).1
            simp only [List.length_append, List.length_singleton] at hlt
            omega
          have hpart : taskPart s.tasks.length (.called s.tasks.length call :: h) =
              [.called s.tasks.length call] := by
            rw [taskPart_cons rfl, hnew]
          cases call with
          | pruneBacklog => exact ⟨[], hpart, fun _ he => absurd he List.not_mem_nil⟩
          | _ => exact hpart
      · rw [List.length_append, List.length_singleton] at ht
        exact (taskPart_cons_of_ne rfl (by omega)).trans (hs.tasks_length t (by omega))
  | step t c =>
      simp only [step] at hstep
      split at hstep
      · contradiction
      · rename_i task htask
        obtain ⟨⟨st', task'⟩, hcall, rfl⟩ := Option.map_eq_some_iff.mp hstep
        have hlt := (List.getElem?_eq_some_iff.mp htask).1
        have hrecord : recordStore s (.step t c) ⟨st', s.tasks.set t task'⟩ h =
            taskEvents t s.st.sql h task c task' ++ h := by
          simp only [recordStore, htask, List.getElem?_set_self hlt]
        rw [hrecord]
        have hreports : Reports db P t s.st.sql h task :=
          ⟨hs.legal, hs.represents, hs.uploads, hs.tasks t task htask⟩
        have hupload : ∀ r pc, task = .upsertChunk r pc → P r := by
          rintro r pc rfl
          exact hprov.uploads t r pc htask
        have hafter := reports_step hcf hauth hupload hreports hcall
        refine ⟨hafter.legal, hafter.represents, hafter.uploads, fun u other hu => ?_,
          fun u hu => ?_⟩
        · rcases getElem?_set_cases hu with ⟨rfl, rfl⟩ | ⟨hne, hold⟩
          · exact hafter.reported
          · exact (hs.tasks u other hold).congr
              (taskPart_append_of_ne task?_of_mem_taskEvents hne)
        · simp only [List.length_set] at hu
          exact (taskPart_append_of_ne task?_of_mem_taskEvents (by omega)).trans
            (hs.tasks_length u hu)
  | tick d =>
      cases hstep
      exact ⟨hs.legal, hs.represents, hs.uploads, hs.tasks, hs.tasks_length⟩
  | crash =>
      cases hstep
      exact ⟨⟨trivial, hs.legal⟩, hs.represents, hs.uploads, fun t task ht => by simp at ht,
        fun _ _ => rfl⟩

theorem storeTraced (hcf : CollisionFree db P) (hauth : Authentic db P) {now : Time}
    (hreach : Reach (observe (step db) recordStore) (fun q a => UploadsIn P q.1 a)
      (Sys.init db now, []) (s, h)) : StoreTraced db P s h := by
  have hprov : ∀ q, Reach (observe (step db) recordStore) (fun q a => UploadsIn P q.1 a)
      (Sys.init db now, []) q → Provenance db P q.1 :=
    fun q hq => provenance (fun _ _ hok => hok) (Reach.of_observe hq)
  refine Reach.invariant_of (I := fun q => StoreTraced db P q.1 q.2) hprov
    (storeTraced_init db P now) ?_ hreach
  rintro ⟨s, h⟩ a ⟨s', h'⟩ hprov _ hs _ hstep
  obtain ⟨hsys, hlog⟩ := observe_eq_some_iff.mp hstep
  have hlog : h' = recordStore s a s' h := hlog
  rw [hlog]
  exact storeTraced_step hcf hauth hprov hs hsys

end Runs

/-- Every event of every run is explained by those before it, and the tables hold the files that
the commits leave. So a call that has returned has taken effect exactly once or, if it has
failed, not at all (a prune once for every batch); a lookup that finds data has found what was
held for its slot and finality at its row read, whatever has happened to the blob files since;
and `get` returns the entry and the number of chunks of a file. -/
theorem store_explained {db : VmIoDb} {P : ChunkReq → Prop} (hcf : CollisionFree db P)
    (hauth : Authentic db P) {now : Time} {s : Sys} {h : StoreLog}
    (hreach : Reach (observe (step db) recordStore) (fun q a => UploadsIn P q.1 a)
      (Sys.init db now, []) (s, h)) :
    Legal StoreExplained h ∧ Represents db (filesAfter h) s.st.sql ∧
      ∀ cls key, s.st.sql.get cls key = (filesAfter h (cls, key)).map StoredFile.toEntry := by
  have hs := storeTraced hcf hauth hreach
  exact ⟨hs.legal, hs.represents, hs.represents.get⟩

/-- A lookup returns the data it has found the row of, although a replacement has been committed
before it reads the file. -/
theorem store_explained_replaced :
    ∃ s h, Reach (observe (step Vectors.db) recordStore)
        (fun q a => UploadsIn Vectors.uploads q.1 a) (Sys.init Vectors.db 0, []) (s, h) ∧
      s.lookupAnswer 2 "c" "k" 0 true = some (.ok (some [0x41])) ∧ Legal StoreExplained h ∧
      ((filesAfter h).chunk ("c", "k", 0)).map Vectors.db.row =
        some (Vectors.db.row Vectors.reqB) := by
  obtain ⟨⟨s, h⟩, hreach, hanswer, hrow⟩ := Reach.exists_of_runOk
    (observe (step Vectors.db) recordStore) (fun q a => UploadsIn Vectors.uploads q.1 a)
    (Sys.init Vectors.db 0, [])
    (Vectors.committedA ++ .spawn (.getChunk "c" "k" 0 true) :: Vectors.replacedB [.step 2 .ok])
    (fun q => q.1.lookupAnswer 2 "c" "k" 0 true = some (.ok (some [0x41])) ∧
      q.1.st.sql.entryFileChunks.find? ("c", "k", 0) = some (Vectors.db.row Vectors.reqB))
    (by decide +kernel)
  have hall := store_explained Vectors.collisionFree Vectors.authentic hreach
  exact ⟨s, h, hreach, hanswer, hall.1, (hall.2.1.chunks _).symm.trans hrow⟩

/-! ### Acknowledged uploads -/

/-- The event replaces or removes what is held in the slot. -/
def StoreEvent.Touches (slot : String × String × Int64) : StoreEvent → Prop
  | .chunked _ r => r.slot = slot
  | .removed _ cls key => (cls, key) = (slot.1, slot.2.1)
  | .pruned _ _ keys => (slot.1, slot.2.1) ∈ keys
  | _ => False

section Acknowledged

variable {h later : StoreLog} {t : ℕ}

theorem chunk_change {e : StoreEvent} {slot : String × String × Int64} {files : Files}
    (he : ¬e.Touches slot) : (e.change files).chunk slot = files.chunk slot := by
  cases e with
  | upserted t row => exact Files.chunk_putEntry slot
  | chunked t r => exact Files.chunk_putChunk_of_ne fun heq => he heq.symm
  | removed t cls key =>
      refine (Files.chunk_remove _ slot).trans (if_neg ?_)
      exact fun heq => he (of_decide_eq_true heq).symm
  | pruned t nowMicros keys =>
      refine (Files.chunk_remove _ slot).trans (if_neg ?_)
      intro hmem
      have hmem : (slot.1, slot.2.1) ∈ keys := by simpa using hmem
      exact he hmem
  | _ => rfl

theorem chunk_filesAfter_append {slot : String × String × Int64}
    (hlater : ∀ e ∈ later, ¬e.Touches slot) :
    (filesAfter (later ++ h)).chunk slot = (filesAfter h).chunk slot := by
  induction later with
  | nil => rfl
  | cons e later ih =>
      obtain ⟨he, hlater⟩ := List.forall_mem_cons.mp hlater
      exact (chunk_change he).trans (ih hlater)

theorem mem_of_mem_taskPart {e : StoreEvent} (he : e ∈ taskPart t h) : e ∈ h := by
  induction h with
  | nil => cases he
  | cons e' h ih =>
      cases e' with
      | crashed => cases he
      | _ =>
          simp only [taskPart] at he
          split at he
          · rcases List.mem_cons.mp he with rfl | he
            · exact List.mem_cons_self
            · exact List.mem_cons_of_mem _ (ih he)
          · exact List.mem_cons_of_mem _ (ih he)

theorem Returns.upload {r : ChunkReq} (hret : Returns h t (.unit (.ok ())))
    (hcall : .called t (.upsertChunk r) ∈ taskPart t h) : .chunked t r ∈ h := by
  generalize hres : Answer.unit (.ok ()) = res at hret
  cases hret with
  | chunked hpart =>
      rw [hpart] at hcall
      simp only [List.mem_cons, reduceCtorEq, StoreEvent.called.injEq, Call.upsertChunk.injEq,
        true_and, List.not_mem_nil, or_false, false_or] at hcall
      subst hcall
      exact mem_of_mem_taskPart (hpart ▸ List.mem_cons_self)
  | removed hpart => simp [hpart] at hcall
  | cleaned hpart => simp [hpart] at hcall
  | pruned hpart hprunes =>
      rw [hpart] at hcall
      rcases List.mem_append.mp hcall with hcall | hcall
      · obtain ⟨_, _, heq⟩ := hprunes _ hcall
        cases heq
      · simp at hcall
  | _ => cases hres

end Acknowledged

/-- An acknowledged upload is durable. Once `upsert_chunk` has returned success its chunk stays
committed, through crashes and whatever else runs, until another upload of the slot commits or
the entry is removed or pruned. -/
theorem upload_durable {db : VmIoDb} {P : ChunkReq → Prop} (hcf : CollisionFree db P)
    (hauth : Authentic db P) {now : Time} {s : Sys} {later h : StoreLog} {t : ℕ} {r : ChunkReq}
    (hreach : Reach (observe (step db) recordStore) (fun q a => UploadsIn P q.1 a)
      (Sys.init db now, []) (s, later ++ .answered t (.unit (.ok ())) :: h))
    (hcall : .called t (.upsertChunk r) ∈ taskPart t h) :
    ∃ mid earlier, h = mid ++ .chunked t r :: earlier ∧
      (s.st.sql.entryFileChunks.find? r.slot = some (db.row r) ∨
        ∃ e ∈ later ++ mid, e.Touches r.slot) := by
  have hs := storeTraced hcf hauth hreach
  have hret : Returns h t (.unit (.ok ())) := hs.legal.event
  obtain ⟨mid, earlier, rfl⟩ := List.append_of_mem (hret.upload hcall)
  refine ⟨mid, earlier, rfl, ?_⟩
  by_cases htouched : ∃ e ∈ later ++ mid, e.Touches r.slot
  · exact .inr htouched
  · left
    simp only [not_exists, not_and] at htouched
    have hcommit : StoreExplained earlier (.chunked t r) := (hs.legal.of_append).2.event
    have hheld : (filesAfter (.chunked t r :: earlier)).chunk r.slot = some r :=
      (Files.chunk_putChunk hcommit.2.2 r.slot).trans (if_pos rfl)
    have hmid : (filesAfter (mid ++ .chunked t r :: earlier)).chunk r.slot = some r :=
      (chunk_filesAfter_append fun e he => htouched e (List.mem_append_right _ he)).trans hheld
    have hlater : (filesAfter (later ++ .answered t (.unit (.ok ())) ::
        (mid ++ .chunked t r :: earlier))).chunk r.slot = some r :=
      (chunk_filesAfter_append fun e he => htouched e (List.mem_append_left _ he)).trans hmid
    rw [hs.represents.chunks, hlater, Option.map_some]

/-- The process crashes after the upload has been acknowledged. -/
theorem upload_durable_crash :
    ∃ s h, Reach (observe (step Vectors.db) recordStore)
        (fun q a => UploadsIn Vectors.uploads q.1 a) (Sys.init Vectors.db 0, [])
        (s, [.crashed] ++ .answered 1 (.unit (.ok ())) :: h) ∧
      ∃ mid earlier, h = mid ++ .chunked 1 Vectors.reqA :: earlier ∧
        (s.st.sql.entryFileChunks.find? ("c", "k", 0) = some (Vectors.db.row Vectors.reqA) ∨
          ∃ e ∈ [.crashed] ++ mid, e.Touches ("c", "k", 0)) := by
  obtain ⟨⟨s, h⟩, hreach, rfl⟩ := Reach.exists_of_runOk
    (observe (step Vectors.db) recordStore) (fun q a => UploadsIn Vectors.uploads q.1 a)
    (Sys.init Vectors.db 0, []) (Vectors.committedA ++ [.crash])
    (fun q => q.2 = [.crashed] ++ .answered 1 (.unit (.ok ())) :: [.chunked 1 Vectors.reqA,
      .called 1 (.upsertChunk Vectors.reqA), .answered 0 (.upsert (.ok true)),
      .upserted 0 Vectors.entry, .called 0 (.upsert Vectors.entry)])
    (by decide +kernel)
  exact ⟨s, _, hreach, upload_durable Vectors.collisionFree Vectors.authentic hreach
    (by simp [taskPart, StoreEvent.task?])⟩

end VmIo.Db
