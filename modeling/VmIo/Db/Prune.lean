import VmIo.Db.Vectors

/-!
`prune_backlog` run alone.

One batch deletes what its subquery selects (`Sql.mem_pruneExpired_entries`,
`Sql.pruneExpired_blobIds`), and a batch that is not full was all there was
(`Sql.pruneExpired_drained`). The loop reads the clock anew before each batch,
so what an earlier batch deleted had also expired at the last reading.
-/

namespace VmIo.Db

open VmIo.Lib

/-! ### One batch -/

namespace Sql

def expiredRows (sql : Sql) (nowMicros : ℤ) : List EntryRow :=
  (sql.entries.rows.filter (fun e => EntryExpired nowMicros e)).insertionSort
    (fun a b => expiresOrder a ≤ expiresOrder b)

def batchRows (sql : Sql) (nowMicros limit : ℤ) : List EntryRow :=
  sqlLimit limit (sql.expiredRows nowMicros)

theorem expiredBatch_eq (sql : Sql) (nowMicros limit : ℤ) :
    sql.expiredBatch nowMicros limit = (sql.batchRows nowMicros limit).map EntryRow.pk := rfl

theorem mem_expiredRows {sql : Sql} {nowMicros : ℤ} {e : EntryRow} :
    e ∈ sql.expiredRows nowMicros ↔ e ∈ sql.entries.rows ∧ EntryExpired nowMicros e := by
  rw [expiredRows, List.mem_insertionSort, List.mem_filter, decide_eq_true_eq]

theorem sqlLimit_sublist {α : Type*} (limit : ℤ) (l : List α) : (sqlLimit limit l).Sublist l := by
  unfold sqlLimit
  split
  · exact .refl _
  · exact List.take_sublist _ _

theorem mem_batchRows {sql : Sql} {nowMicros limit : ℤ} {e : EntryRow}
    (h : e ∈ sql.batchRows nowMicros limit) : e ∈ sql.entries.rows ∧ EntryExpired nowMicros e :=
  mem_expiredRows.mp ((sqlLimit_sublist _ _).subset h)

theorem expiredBatch_expired {sql : Sql} {nowMicros limit : ℤ} {key : String × String}
    (h : key ∈ sql.expiredBatch nowMicros limit) :
    ∃ row ∈ sql.entries.find? key, EntryExpired nowMicros row := by
  rw [expiredBatch_eq] at h
  obtain ⟨row, hrow, rfl⟩ := List.mem_map.mp h
  obtain ⟨hmem, hexpired⟩ := mem_batchRows hrow
  exact ⟨row, Table.find?_pk hmem, hexpired⟩

theorem mem_expiredBatch {sql : Sql} {nowMicros limit : ℤ} {e : EntryRow}
    (he : e ∈ sql.entries.rows) :
    e.pk ∈ sql.expiredBatch nowMicros limit ↔ e ∈ sql.batchRows nowMicros limit := by
  rw [expiredBatch_eq, List.mem_map]
  constructor
  · rintro ⟨e', he', hpk⟩
    rw [← sql.entries.eq_of_pk_eq (mem_batchRows he').1 he hpk]
    exact he'
  · intro h
    exact ⟨e, h, rfl⟩

theorem batchRows_nodup (sql : Sql) (nowMicros limit : ℤ) :
    (sql.batchRows nowMicros limit).Nodup := by
  refine (sqlLimit_sublist _ _).nodup ?_
  refine (List.perm_insertionSort _ _).nodup_iff.mpr (.filter _ ?_)
  exact sql.entries.nodup.of_map _

theorem pruneExpired_count (sql : Sql) (nowMicros limit : ℤ) :
    (sql.pruneExpired nowMicros limit).2.1 = (sql.batchRows nowMicros limit).length := by
  refine List.Perm.length_eq ((List.perm_ext_iff_of_nodup ?_ (sql.batchRows_nodup _ _)).mpr ?_)
  · exact (sql.entries.nodup.of_map _).filter _
  · intro e
    rw [List.mem_filter, decide_eq_true_eq]
    constructor
    · rintro ⟨he, hpk⟩
      exact (mem_expiredBatch he).mp hpk
    · intro he
      have hmem := (mem_batchRows he).1
      exact ⟨hmem, (mem_expiredBatch hmem).mpr he⟩

theorem mem_pruneExpired_entries {sql : Sql} {nowMicros limit : ℤ} {e : EntryRow} :
    e ∈ (sql.pruneExpired nowMicros limit).1.entries.rows ↔
      e ∈ sql.entries.rows ∧ e ∉ sql.batchRows nowMicros limit := by
  show e ∈ (sql.deleteEntries _).entries.rows ↔ _
  rw [mem_deleteEntries_entries, decide_eq_false_iff_not]
  exact and_congr_right fun he => not_congr (mem_expiredBatch he)

theorem mem_pruneExpired_chunks {sql : Sql} {nowMicros limit : ℤ} {c : ChunkRow} :
    c ∈ (sql.pruneExpired nowMicros limit).1.entryFileChunks.rows ↔
      c ∈ sql.entryFileChunks.rows ∧ c.entryKey ∉ sql.expiredBatch nowMicros limit := by
  show c ∈ (sql.deleteEntries _).entryFileChunks.rows ↔ _
  rw [mem_deleteEntries_chunks, decide_eq_false_iff_not]

/-- The chunk rows of `sql` that `sql'` no longer has. -/
def lostChunks (sql sql' : Sql) : List ChunkRow :=
  sql.entryFileChunks.rows.filter (fun c => c ∉ sql'.entryFileChunks.rows)

/-- The blob ids the first statement selects are those of the chunk rows the
cascade of the second deletes. -/
theorem pruneExpired_blobIds (sql : Sql) (nowMicros limit : ℤ) :
    (sql.pruneExpired nowMicros limit).2.2 =
      (sql.lostChunks (sql.pruneExpired nowMicros limit).1).map ChunkRow.blobId := by
  show sql.blobIdsOf (fun k => k ∈ sql.expiredBatch nowMicros limit) = _
  rw [blobIdsOf, lostChunks]
  congr 1
  refine List.filter_congr fun c hc => ?_
  rw [decide_eq_decide, mem_pruneExpired_chunks]
  simp [hc]

/-- A batch that is not full leaves nothing expired behind. -/
theorem pruneExpired_drained {sql : Sql} {nowMicros : ℤ} {limit : ℕ}
    (h : (sql.pruneExpired nowMicros limit).2.1 < limit) {e : EntryRow}
    (he : e ∈ (sql.pruneExpired nowMicros limit).1.entries.rows) : ¬EntryExpired nowMicros e := by
  rw [pruneExpired_count] at h
  rw [mem_pruneExpired_entries] at he
  intro hexp
  refine he.2 ?_
  have hshort : ¬(limit : ℤ) < 0 := by omega
  simp only [batchRows, sqlLimit, if_neg hshort, Int.toNat_natCast, List.length_take] at h ⊢
  rw [List.take_of_length_le (by omega)]
  exact mem_expiredRows.mpr ⟨he.1, hexp⟩

theorem pruneExpired_entries_length (sql : Sql) (nowMicros limit : ℤ) :
    (sql.pruneExpired nowMicros limit).1.entries.rows.length +
      (sql.pruneExpired nowMicros limit).2.1 = sql.entries.rows.length := by
  have hsplit := List.length_eq_length_filter_add
    (fun e : EntryRow => decide (e.pk ∈ sql.expiredBatch nowMicros limit)) (l := sql.entries.rows)
  exact (Nat.add_comm _ _).trans hsplit.symm

theorem pruneExpired_chunks_length (sql : Sql) (nowMicros limit : ℤ) :
    (sql.pruneExpired nowMicros limit).1.entryFileChunks.rows.length +
      (sql.pruneExpired nowMicros limit).2.2.length = sql.entryFileChunks.rows.length := by
  have hsplit := List.length_eq_length_filter_add
    (fun c : ChunkRow => decide (c.entryKey ∈ sql.expiredBatch nowMicros limit))
    (l := sql.entryFileChunks.rows)
  rw [show (sql.pruneExpired nowMicros limit).2.2.length =
    (sql.entryFileChunks.rows.filter _).length from List.length_map _]
  exact (Nat.add_comm _ _).trans hsplit.symm

theorem lostChunks_nodup (sql sql' : Sql) : (sql.lostChunks sql').Nodup :=
  (sql.entryFileChunks.nodup.of_map _).filter _

theorem mem_lostChunks {sql sql' : Sql} {c : ChunkRow} :
    c ∈ sql.lostChunks sql' ↔
      c ∈ sql.entryFileChunks.rows ∧ c ∉ sql'.entryFileChunks.rows := by
  rw [lostChunks, List.mem_filter, decide_eq_true_eq]

theorem lostChunks_trans {sql₀ sql₁ sql₂ : Sql}
    (h₁ : ∀ c ∈ sql₁.entryFileChunks.rows, c ∈ sql₀.entryFileChunks.rows)
    (h₂ : ∀ c ∈ sql₂.entryFileChunks.rows, c ∈ sql₁.entryFileChunks.rows) :
    (sql₀.lostChunks sql₂).Perm (sql₀.lostChunks sql₁ ++ sql₁.lostChunks sql₂) := by
  have hnodup : (sql₀.lostChunks sql₁ ++ sql₁.lostChunks sql₂).Nodup := by
    refine List.nodup_append.mpr ⟨lostChunks_nodup _ _, lostChunks_nodup _ _, ?_⟩
    rintro c hc _ hc' rfl
    exact (mem_lostChunks.mp hc).2 (mem_lostChunks.mp hc').1
  refine (List.perm_ext_iff_of_nodup (lostChunks_nodup _ _) hnodup).mpr fun c => ?_
  simp only [List.mem_append, mem_lostChunks]
  constructor
  · rintro ⟨hin, hout⟩
    by_cases hmid : c ∈ sql₁.entryFileChunks.rows
    · exact .inr ⟨hmid, hout⟩
    · exact .inl ⟨hin, hmid⟩
  · rintro (⟨hin, hmid⟩ | ⟨hmid, hout⟩)
    · exact ⟨hin, fun hlast => hmid (h₂ c hlast)⟩
    · exact ⟨h₁ c hmid, hout⟩

end Sql

/-! ### The loop -/

/-- What a run of `prune_backlog` has done so far: the steps it has made, the
clock reading its last batch was chosen by and the blob ids it has handed to
`remove_file`. -/
structure PruneLog where
  steps : ℕ
  reading : Option ℤ
  handed : List Digest

def PruneLog.after (log : PruneLog) : PrunePc → PruneLog
  | .txn nowMicros => ⟨log.steps + 1, some nowMicros, log.handed⟩
  | .removing _ (b :: _) => ⟨log.steps + 1, log.reading, log.handed ++ [b]⟩
  | _ => ⟨log.steps + 1, log.reading, log.handed⟩

def recordPrune (s : Sys) (a : Action) (_ : Sys) (log : PruneLog) : PruneLog :=
  match a, s.tasks with
  | .step _ _, [.pruneBacklog pc] => log.after pc
  | _, _ => log

/-- A step in which nothing but the removal of a file may fail. -/
def PrunePc.proceeds : PrunePc → Choice → Bool
  | .removing _ (_ :: _), .fail => true
  | _, .fail => false
  | _, _ => true

def Task.prunes : Task → Choice → Bool
  | .pruneBacklog pc, c => pc.proceeds c
  | _, _ => false

def Alone (s : Sys) : Action → Prop
  | .step t c => ∀ task ∈ s.tasks[t]?, task.prunes c = true
  | .tick _ => True
  | _ => False

instance (s : Sys) (a : Action) : Decidable (Alone s a) := by
  unfold Alone
  split <;> infer_instance

/-- One step of `prune_backlog`, by what it does. -/
inductive PruneStep (st : Store) : PrunePc → Store → PrunePc → Prop
  | clock : PruneStep st .clock st (.txn st.now)
  | txn (nowMicros : ℤ) : PruneStep st (.txn nowMicros)
      { st with sql := (st.sql.pruneExpired nowMicros pruneBatch).1 }
      (.removing (st.sql.pruneExpired nowMicros pruneBatch).2.1
        (st.sql.pruneExpired nowMicros pruneBatch).2.2)
  | remove (count : ℕ) (b : Digest) (ids : List Digest) (st' : Store) (hsql : st'.sql = st.sql)
      (hnow : st'.now = st.now) : PruneStep st (.removing count (b :: ids)) st' (.removing count ids)
  | again (count : ℕ) (h : pruneBatch.toNat ≤ count) : PruneStep st (.removing count []) st .clock
  | finish (count : ℕ) (h : count < pruneBatch.toNat) :
      PruneStep st (.removing count []) st (.done (.ok ()))

theorem pruneStep_cases {db : VmIoDb} {st st' : Store} {pc pc' : PrunePc} {c : Choice}
    (hc : pc.proceeds c = true) (h : stepPrune db st pc c = some (st', pc')) :
    PruneStep st pc st' pc' := by
  cases pc with
  | clock =>
      cases c <;> simp only [stepPrune, reduceCtorEq, PrunePc.proceeds] at h hc
      cases h
      exact .clock
  | txn nowMicros =>
      cases c <;> simp only [stepPrune, reduceCtorEq, PrunePc.proceeds] at h hc
      cases h
      exact .txn nowMicros
  | removing count ids =>
      cases ids with
      | nil =>
          cases c <;> simp only [stepPrune, reduceCtorEq, PrunePc.proceeds] at h hc
          split at h <;> cases h
          · exact .finish count ‹_›
          · exact .again count (by omega)
      | cons b ids =>
          cases c <;> simp only [stepPrune, reduceCtorEq] at h <;> cases h
          · exact .remove count b ids _ (removeQuiet_sql _ _) (removeQuiet_now _ _)
          · exact .remove count b ids _ rfl rfl
  | done res => cases c <;> simp only [stepPrune, reduceCtorEq] at h

/-- A bound on the steps the rest of the loop can take. Every full batch leaves
fewer entries. -/
def pruneWork (sql : Sql) : ℕ :=
  3 * sql.entries.rows.length + sql.entryFileChunks.rows.length + 3

def PrunePc.left (sql : Sql) : PrunePc → ℕ
  | .clock => pruneWork sql
  | .txn _ => pruneWork sql - 1
  | .removing count ids => ids.length + 1 + if count < pruneBatch.toNat then 0 else pruneWork sql
  | .done _ => 0

def PrunePc.last : PrunePc → Prop
  | .removing count _ => count < pruneBatch.toNat
  | .done _ => True
  | _ => False

theorem PruneStep.left_lt {st st' : Store} {pc pc' : PrunePc} (h : PruneStep st pc st' pc') :
    pc'.left st'.sql + 1 ≤ pc.left st.sql := by
  cases h with
  | clock => simp only [PrunePc.left, pruneWork]; omega
  | txn nowMicros =>
      have hentries := st.sql.pruneExpired_entries_length nowMicros pruneBatch
      have hchunks := st.sql.pruneExpired_chunks_length nowMicros pruneBatch
      simp only [PrunePc.left, pruneWork]
      split
      · omega
      · have hbatch : pruneBatch.toNat = 256 := rfl
        omega
  | remove count b ids st' hsql hnow =>
      simp only [PrunePc.left, hsql, List.length_cons]
      omega
  | again count h =>
      simp only [PrunePc.left, if_neg (not_lt.mpr h), List.length_nil]
      omega
  | finish count h => simp only [PrunePc.left, List.length_nil]; omega

structure PruneInv (sql₀ : Sql) (st : Store) (pc : PrunePc) (log : PruneLog) : Prop where
  kept : ∀ e ∈ st.sql.entries.rows, e ∈ sql₀.entries.rows
  expired : ∀ e ∈ sql₀.entries.rows, e ∉ st.sql.entries.rows →
    ∃ last ∈ log.reading, Sql.EntryExpired last e
  chunks : ∀ c, c ∈ st.sql.entryFileChunks.rows ↔
    c ∈ sql₀.entryFileChunks.rows ∧ ∃ e ∈ st.sql.entries.rows, e.pk = c.entryKey
  handed : (log.handed ++ pc.pending).Perm ((sql₀.lostChunks st.sql).map ChunkRow.blobId)
  /-- the clock never goes back -/
  past : ∀ last ∈ log.reading, last ≤ st.now
  chosen : ∀ nowMicros, pc = .txn nowMicros →
    nowMicros ≤ st.now ∧ ∀ last ∈ log.reading, last ≤ nowMicros
  drained : pc.last → ∃ last ∈ log.reading, ∀ e ∈ st.sql.entries.rows, ¬Sql.EntryExpired last e
  outcome : ∀ res, pc = .done res → res = .ok ()
  steps : log.steps + pc.left st.sql ≤ pruneWork sql₀

theorem pruneInv_start (st : Store) : PruneInv st.sql st .clock ⟨0, none, []⟩ where
  kept := fun _ he => he
  expired := fun e he hno => absurd he hno
  chunks := fun c => ⟨fun hc => ⟨hc, st.sql.foreign_key c hc⟩, fun hc => hc.1⟩
  handed := by
    have hnone : st.sql.lostChunks st.sql = [] := by
      rw [List.eq_nil_iff_forall_not_mem]
      intro c hc
      exact (Sql.mem_lostChunks.mp hc).2 (Sql.mem_lostChunks.mp hc).1
    simp [hnone, PrunePc.pending]
  past := by simp
  chosen := by simp
  drained := fun h => h.elim
  outcome := by simp
  steps := by simp [PrunePc.left]

theorem Sql.EntryExpired.mono {t u : ℤ} {e : EntryRow} (h : Sql.EntryExpired t e) (htu : t ≤ u) :
    Sql.EntryExpired u e := by
  obtain ⟨exp, hexp, hle⟩ := h
  exact ⟨exp, hexp, hle.trans htu⟩

theorem PruneInv.txn {sql₀ : Sql} {st : Store} {nowMicros : ℤ} {log : PruneLog}
    (hinv : PruneInv sql₀ st (.txn nowMicros) log) :
    PruneInv sql₀ { st with sql := (st.sql.pruneExpired nowMicros pruneBatch).1 }
      (.removing (st.sql.pruneExpired nowMicros pruneBatch).2.1
        (st.sql.pruneExpired nowMicros pruneBatch).2.2) (log.after (.txn nowMicros)) where
  kept := fun e he => hinv.kept e (Sql.mem_pruneExpired_entries.mp he).1
  expired := by
    intro e he hno
    refine ⟨nowMicros, rfl, ?_⟩
    -- it goes with this batch, or went with an earlier one whose clock read no later
    by_cases hmid : e ∈ st.sql.entries.rows
    · have hbatch : e ∈ st.sql.batchRows nowMicros pruneBatch := by
        by_contra hout
        exact hno (Sql.mem_pruneExpired_entries.mpr ⟨hmid, hout⟩)
      exact (Sql.mem_batchRows hbatch).2
    · obtain ⟨last, hlast, hexp⟩ := hinv.expired e he hmid
      exact hexp.mono ((hinv.chosen nowMicros rfl).2 last hlast)
  chunks := by
    intro c
    rw [Sql.mem_pruneExpired_chunks, hinv.chunks c]
    constructor
    · rintro ⟨⟨hc, e, he, hpk⟩, hout⟩
      refine ⟨hc, e, Sql.mem_pruneExpired_entries.mpr ⟨he, fun hbatch => hout ?_⟩, hpk⟩
      exact hpk ▸ (Sql.mem_expiredBatch he).mpr hbatch
    · rintro ⟨hc, e, he, hpk⟩
      obtain ⟨he, hout⟩ := Sql.mem_pruneExpired_entries.mp he
      exact ⟨⟨hc, e, he, hpk⟩, fun hbatch => hout ((Sql.mem_expiredBatch he).mp (hpk ▸ hbatch))⟩
  handed := by
    have hbefore : log.handed.Perm ((sql₀.lostChunks st.sql).map ChunkRow.blobId) := by
      simpa [PrunePc.pending] using hinv.handed
    have htrans := Sql.lostChunks_trans (fun c hc => ((hinv.chunks c).mp hc).1)
      (fun c hc => (@Sql.mem_pruneExpired_chunks st.sql nowMicros pruneBatch c).mp hc |>.1)
    show (log.handed ++ (st.sql.pruneExpired nowMicros pruneBatch).2.2).Perm _
    rw [Sql.pruneExpired_blobIds]
    refine (hbefore.append_right _).trans ?_
    rw [← List.map_append]
    exact (htrans.map ChunkRow.blobId).symm
  past := by
    rintro last hlast
    cases hlast
    exact (hinv.chosen nowMicros rfl).1
  chosen := by simp
  drained := by
    intro hlast
    refine ⟨nowMicros, rfl, fun e he => ?_⟩
    exact @Sql.pruneExpired_drained st.sql nowMicros pruneBatch.toNat hlast e he
  outcome := by simp
  steps := by
    have hlt := (@PruneStep.txn st nowMicros).left_lt
    calc log.steps + 1 + _ = log.steps + (_ + 1) := by rw [Nat.add_assoc, Nat.add_comm 1]
      _ ≤ log.steps + _ := Nat.add_le_add_left hlt _
      _ ≤ pruneWork sql₀ := hinv.steps

theorem pruneInv_step {sql₀ : Sql} {st st' : Store} {pc pc' : PrunePc} {log : PruneLog}
    (hinv : PruneInv sql₀ st pc log) (h : PruneStep st pc st' pc') :
    PruneInv sql₀ st' pc' (log.after pc) := by
  have hleft := h.left_lt
  have hsteps := hinv.steps
  cases h with
  | clock =>
      exact { hinv with
        chosen := by
          rintro nowMicros ⟨⟩
          exact ⟨le_rfl, hinv.past⟩
        drained := fun h => h.elim
        outcome := by simp
        steps := by simp only [PruneLog.after]; omega }
  | txn nowMicros => exact hinv.txn
  | remove count b ids _ hsql hnow =>
      exact {
        kept := by rw [hsql]; exact hinv.kept
        expired := by rw [hsql]; exact hinv.expired
        chunks := by rw [hsql]; exact hinv.chunks
        handed := by
          rw [hsql]
          simpa [PruneLog.after, PrunePc.pending] using hinv.handed
        past := by rw [hnow]; exact hinv.past
        chosen := by simp
        drained := by rw [hsql]; exact hinv.drained
        outcome := by simp
        steps := by simp only [PruneLog.after]; omega }
  | again count h =>
      exact { hinv with
        chosen := by simp
        drained := fun h => h.elim
        outcome := by simp
        steps := by simp only [PruneLog.after]; omega }
  | finish count h =>
      exact { hinv with
        chosen := by simp
        drained := fun _ => hinv.drained h
        outcome := by simp
        steps := by simp only [PruneLog.after]; omega }

/-- The runs of `prune_backlog` from a store, nothing else running. -/
abbrev PruneReach (db : VmIoDb) (st : Store) : Sys × PruneLog → Prop :=
  Reach (observe (step db) recordPrune) (fun p a => Alone p.1 a)
    (⟨st, [.pruneBacklog .clock]⟩, ⟨0, none, []⟩)

theorem pruneReach_inv {db : VmIoDb} {st₀ : Store} {p : Sys × PruneLog} (h : PruneReach db st₀ p) :
    ∃ st pc, p.1 = ⟨st, [.pruneBacklog pc]⟩ ∧ PruneInv st₀.sql st pc p.2 := by
  refine h.invariant (I := fun p => ∃ st pc, p.1 = ⟨st, [.pruneBacklog pc]⟩ ∧
    PruneInv st₀.sql st pc p.2) ⟨st₀, .clock, rfl, pruneInv_start st₀⟩ ?_
  rintro ⟨_, log⟩ a ⟨s', log'⟩ ⟨st, pc, rfl, hinv⟩ hok hs
  obtain ⟨hs, hlog⟩ := observe_eq_some_iff.mp hs
  have hlog : log' = recordPrune ⟨st, [.pruneBacklog pc]⟩ a s' log := hlog
  subst hlog
  rcases step_alone hs with ⟨c, st', task', rfl, rfl, hstep⟩ | ⟨d, rfl, rfl⟩ | ⟨call, rfl⟩ | rfl
  · obtain ⟨⟨st₁, pc'⟩, hprune, heq⟩ := Option.map_eq_some_iff.mp hstep
    cases heq
    have hproceeds : pc.proceeds c = true := hok (.pruneBacklog pc) rfl
    exact ⟨st₁, pc', rfl, pruneInv_step hinv (pruneStep_cases hproceeds hprune)⟩
  · exact ⟨_, pc, rfl, { hinv with
      past := fun last hlast => (hinv.past last hlast).trans (by simp)
      chosen := fun nowMicros hpc =>
        ⟨(hinv.chosen nowMicros hpc).1.trans (by simp), (hinv.chosen nowMicros hpc).2⟩ }⟩
  · exact hok.elim
  · exact hok.elim

theorem stepPrune_proceeds (db : VmIoDb) (st : Store) {pc : PrunePc}
    (h : ∀ res, pc ≠ .done res) : ∃ res, stepPrune db st pc .ok = some res := by
  cases pc with
  | clock => exact ⟨_, rfl⟩
  | txn nowMicros => exact ⟨_, rfl⟩
  | removing count ids =>
      cases ids with
      | nil =>
          simp only [stepPrune]
          split <;> exact ⟨_, rfl⟩
      | cons b ids => exact ⟨_, rfl⟩
  | done res => exact absurd rfl (h res)

/-- From every database a run can reach, `prune_backlog` run alone comes to its
end: it can always go on and makes a bounded number of steps. It then has
removed exactly the entries that had expired at the last clock reading it used,
with their chunk rows, and has handed the blob id of every chunk row it deleted
to `remove_file` once and that of no other. In each batch the blob ids selected
are those of the chunk rows that the cascade deletes. -/
theorem pruneBacklog_exact {db : VmIoDb} {P : ChunkReq → Prop} (hcf : CollisionFree db P)
    {now : Time} {s₀ : Sys} (h₀ : Reach (step db) (UploadsIn P) (Sys.init db now) s₀) :
    (∃ bound, ∀ p, PruneReach db s₀.st p → p.2.steps ≤ bound ∧
      ((∀ res, p.1.tasks ≠ [.pruneBacklog (.done res)]) →
        ∃ s', step db p.1 (.step 0 .ok) = some s')) ∧
    (∀ (sql : Sql) (nowMicros limit : ℤ), (sql.pruneExpired nowMicros limit).2.2 =
      (sql.lostChunks (sql.pruneExpired nowMicros limit).1).map ChunkRow.blobId) ∧
    ∀ s log res, PruneReach db s₀.st (s, log) → s.tasks = [.pruneBacklog (.done res)] →
      res = .ok () ∧ ∃ last, log.reading = some last ∧
        (∀ e, e ∈ s.st.sql.entries.rows ↔
          e ∈ s₀.st.sql.entries.rows ∧ ∀ t ∈ e.expiresAtMicros, last < t) ∧
        (∀ c, c ∈ s.st.sql.entryFileChunks.rows ↔
          c ∈ s₀.st.sql.entryFileChunks.rows ∧ ∃ e ∈ s.st.sql.entries.rows, e.pk = c.entryKey) ∧
        log.handed.Perm ((s₀.st.sql.lostChunks s.st.sql).map ChunkRow.blobId) ∧
        log.handed.Nodup ∧ ∀ c ∈ s.st.sql.entryFileChunks.rows, c.blobId ∉ log.handed := by
  have hinj := (provenance (fun _ _ hok => hok) h₀).row_eq hcf
  refine ⟨⟨pruneWork s₀.st.sql, fun p hp => ?_⟩, Sql.pruneExpired_blobIds, ?_⟩
  · obtain ⟨st, pc, hst, hinv⟩ := pruneReach_inv hp
    refine ⟨by have := hinv.steps; omega, fun hrunning => ?_⟩
    rw [hst] at hrunning ⊢
    have hpc : ∀ res, pc ≠ .done res := by
      rintro res rfl
      exact hrunning res rfl
    obtain ⟨⟨st', pc'⟩, hres⟩ := stepPrune_proceeds db st hpc
    exact ⟨⟨st', [.pruneBacklog pc']⟩, by simp [step, stepTask, hres]⟩
  · intro s log res hp hdone
    obtain ⟨st, pc, hst, hinv⟩ := pruneReach_inv hp
    cases hst
    cases hdone
    obtain ⟨last, hlast, hdrained⟩ := hinv.drained trivial
    have hhanded : log.handed.Perm ((s₀.st.sql.lostChunks st.sql).map ChunkRow.blobId) := by
      simpa [PrunePc.pending] using hinv.handed
    refine ⟨hinv.outcome res rfl, last, hlast, fun e => ?_, hinv.chunks, hhanded, ?_, ?_⟩
    · constructor
      · intro he
        refine ⟨hinv.kept e he, fun t ht => ?_⟩
        by_contra hle
        exact hdrained e he ⟨t, ht, by omega⟩
      · rintro ⟨he, hlive⟩
        by_contra hno
        obtain ⟨last', hlast', t, ht, hle⟩ := hinv.expired e he hno
        have hlast : log.reading = some last := hlast
        have hlast' : log.reading = some last' := hlast'
        rw [hlast] at hlast'
        cases hlast'
        have := hlive t ht
        omega
    · refine hhanded.nodup_iff.mpr ((Sql.lostChunks_nodup _ _).map_on ?_)
      intro c hc c' hc' heq
      exact hinj c (Sql.mem_lostChunks.mp hc).1 c' (Sql.mem_lostChunks.mp hc').1 heq
    · intro c hc hmem
      obtain ⟨c', hc', heq⟩ := List.mem_map.mp (hhanded.mem_iff.mp hmem)
      obtain ⟨hin, hout⟩ := Sql.mem_lostChunks.mp hc'
      have hsame := hinj c' hin c ((hinv.chunks c).mp hc).1 heq
      exact hout (hsame ▸ hc)

def Sys.pruned (s : Sys) : Bool :=
  match s.tasks with
  | [.pruneBacklog (.done (.ok ()))] => true
  | _ => false

theorem Sys.tasks_of_pruned {s : Sys} (h : s.pruned = true) :
    s.tasks = [.pruneBacklog (.done (.ok ()))] := by
  unfold Sys.pruned at h
  split at h
  · assumption
  · contradiction

/-- Two entries have expired, one of them with a chunk, and a third has not. -/
theorem pruneBacklog_exact_one :
    ∃ (s₀ s : Sys) (log : PruneLog),
      Reach (step Vectors.db) (UploadsIn Vectors.uploads) (Sys.init Vectors.db 0) s₀ ∧
      PruneReach Vectors.db s₀.st (s, log) ∧
      s₀.st.sql.entries.rows.map EntryRow.key = ["live", "gone", "k"] ∧
      Vectors.db.row Vectors.reqA ∈ s₀.st.sql.entryFileChunks.rows ∧
      s.st.sql.entries.rows.map EntryRow.key = ["live"] ∧
      log.handed = [Vectors.db.blobId Vectors.reqA] ∧
      log.handed.Perm ((s₀.st.sql.lostChunks s.st.sql).map ChunkRow.blobId) := by
  let put (t : ℕ) (row : EntryRow) : List Action :=
    [.spawn (.upsert row), .step t .ok, .step t .ok]
  let prune : List Action := List.replicate 4 (.step 0 .ok)
  obtain ⟨s₀, hreach, hkeys, hrow, hrun⟩ := Reach.exists_of_runOk
    (step Vectors.db) (UploadsIn Vectors.uploads) (Sys.init Vectors.db 0)
    (put 0 ⟨"c", "k", 1, some 5, none⟩ ++ put 1 ⟨"c", "gone", 2, some 4, none⟩ ++
      put 2 ⟨"c", "live", 3, some 6, none⟩ ++ .spawn (.upsertChunk Vectors.reqA) ::
      Vectors.writeSteps 3 ++ [.step 3 .ok, .tick 5])
    (fun s₀ => s₀.st.sql.entries.rows.map EntryRow.key = ["live", "gone", "k"] ∧
      Vectors.db.row Vectors.reqA ∈ s₀.st.sql.entryFileChunks.rows ∧
      (runOk (observe (step Vectors.db) recordPrune) (fun p a => Alone p.1 a)
        (⟨s₀.st, [.pruneBacklog .clock]⟩, ⟨0, none, []⟩) prune).any (fun p =>
          decide (p.1.pruned = true ∧ p.1.st.sql.entries.rows.map EntryRow.key = ["live"] ∧
            p.2.handed = [Vectors.db.blobId Vectors.reqA])) = true)
    (by decide +kernel)
  obtain ⟨⟨s, log⟩, hprune, hdone, hlive, hhanded⟩ := Reach.exists_of_runOk _ _ _ _
    (fun p : Sys × PruneLog => p.1.pruned = true ∧
      p.1.st.sql.entries.rows.map EntryRow.key = ["live"] ∧
      p.2.handed = [Vectors.db.blobId Vectors.reqA]) hrun
  obtain ⟨_, last, _, _, _, hperm, _⟩ := (pruneBacklog_exact Vectors.collisionFree hreach).2.2
    s log (.ok ()) hprune (Sys.tasks_of_pruned hdone)
  exact ⟨s₀, s, log, hreach, hprune, hkeys, hrow, hlive, hhanded, hperm⟩

end VmIo.Db
