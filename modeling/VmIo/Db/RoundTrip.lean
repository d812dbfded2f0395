import VmIo.Db.Tampering

/-!
Writing a file and reading it back, over whatever the store held before.

The calls run one after the other with nothing else running. An upload leaves its
row and its file in place and nothing else of the slots and blobs of the other
chunks (`upload_outline`), so after all uploads of a file its chunks are there.
But an entry keeps the chunk rows it had at other indexes, and then the number of
chunks is not that of the file (`file_roundTrip`).
-/

namespace VmIo.Db

open VmIo.Lib

/-- Calls that have been issued run on, and time passes. -/
def Undisturbed (_ : Sys) : Action → Prop
  | .step .. => True
  | .tick _ => True
  | .spawn _ => False
  | .crash => False

instance (s : Sys) (a : Action) : Decidable (Undisturbed s a) :=
  match a with
  | .step .. => isTrue trivial
  | .tick _ => isTrue trivial
  | .spawn _ => isFalse id
  | .crash => isFalse id

/-- Is an upload about to find a file of the right length that is not its own? -/
def checksDamaged (db : VmIoDb) (s : Sys) : Action → Bool
  | .step t .ok =>
      match s.tasks[t]? with
      | some (.upsertChunk r .stat) =>
          (s.st.fs.file? (db.path (db.blobId r))).any fun f =>
            f.data.length = (db.cipher r).length ∧ f.data ≠ db.cipher r
      | _ => false
  | _ => false

/-- Has an upload found such a file? -/
def recordDamage (db : VmIoDb) (s : Sys) (a : Action) (_ : Sys) (damaged : Bool) : Bool :=
  damaged || checksDamaged db s a

/-- The call runs alone from its start to the given end. -/
def RunsTo (db : VmIoDb) (p : Store × Bool) (call : Call) (p' : Store × Bool) (task : Task) :
    Prop :=
  Reach (observe (step db) (recordDamage db)) (fun q a => Undisturbed q.1 a)
    (⟨p.1, [call.start]⟩, p.2) (⟨p'.1, [task]⟩, p'.2)

/-! ### One upload alone -/

/-- The file of the blob is there at full length; it is damaged only if the upload
has found it so. -/
def InPlace (db : VmIoDb) (r : ChunkReq) (p p' : Store × Bool) : Prop :=
  ∃ f, p'.1.fs.file? (db.path (db.blobId r)) = some f ∧ f.data.length = (db.cipher r).length ∧
    (p'.2 = true ↔ p.2 = true ∨ f.data ≠ db.cipher r)

/-- The files of the other blobs, but for that of `prev`, are as they were. -/
def OthersSame (db : VmIoDb) (r : ChunkReq) (prev : Option Digest) (st st' : Store) : Prop :=
  ∀ b, b ≠ db.blobId r → b ∉ prev → st'.fs.file? (db.path b) = st.fs.file? (db.path b)

/-- What holds of the store at each step of an upload that started with the store
and record `p`. -/
def UploadOutline (db : VmIoDb) (r : ChunkReq) (p p' : Store × Bool) : UpsertChunkPc → Prop
  | .start => p'.1.sql = p.1.sql ∧ p.1.SameFiles p'.1 ∧ p'.2 = p.2
  | .stat => p'.1.sql = p.1.sql ∧ p.1.SameFiles p'.1 ∧ p'.2 = p.2
  | .mkdir _ => p'.1.sql = p.1.sql ∧ p.1.SameFiles p'.1 ∧ p'.2 = p.2
  | .create _ => p'.1.sql = p.1.sql ∧ p.1.SameFiles p'.1 ∧ p'.2 = p.2
  | .write ino off => p'.1.sql = p.1.sql ∧ OthersSame db r none p.1 p'.1 ∧ p'.2 = p.2 ∧
      ∃ f, p'.1.fs.file? (db.path (db.blobId r)) = some f ∧ f.ino = ino ∧
        f.data = (db.cipher r).take off ∧ off ≤ (db.cipher r).length
  | .txn _ => p'.1.sql = p.1.sql ∧ OthersSame db r none p.1 p'.1 ∧ InPlace db r p p'
  | .removePrev prev => p.1.sql.upsertChunk (db.row r) = .ok (p'.1.sql, some prev) ∧
      OthersSame db r none p.1 p'.1 ∧ InPlace db r p p'
  | .done (.ok ()) => ∃ prev, p.1.sql.upsertChunk (db.row r) = .ok (p'.1.sql, prev) ∧
      OthersSame db r prev p.1 p'.1 ∧ InPlace db r p p'
  | .removeOwn _ => True
  | .done (.error _) => True

section

variable {db : VmIoDb} {P : ChunkReq → Prop} {r : ChunkReq} {p p' : Store × Bool}

theorem Sql.prev_ne {sql sql' : Sql} {row : ChunkRow} {prev : Digest}
    (h : sql.upsertChunk row = .ok (sql', some prev)) : prev ≠ row.blobId := by
  obtain ⟨_, _, hprev⟩ := Sql.upsertChunk_ok h
  obtain ⟨_, hne⟩ := Option.filter_eq_some_iff.mp hprev.symm
  simpa using hne

theorem inPlace_of_skip {st : Store} (hdir : ¬st.fs.isDir (db.path (db.blobId r))) {info : Meta}
    (hinfo : st.fs.metadata (db.path (db.blobId r)) = .ok info)
    (hlen : info.len = (db.cipher r).length) :
    InPlace db r p (st, p.2 || checksDamaged db ⟨st, [.upsertChunk r .stat]⟩ (.step 0 .ok)) := by
  obtain ⟨f, hf, hsize⟩ := Fs.file?_of_metadata hdir hinfo
  rw [hsize] at hlen
  refine ⟨f, hf, hlen, ?_⟩
  show (p.2 || (st.fs.file? (db.path (db.blobId r))).any _) = true ↔ _
  rw [hf, Bool.or_eq_true, Option.any_some, decide_eq_true_iff]
  exact or_congr_right (and_iff_right hlen)

theorem checksDamaged_of_miss {st : Store}
    (hmiss : ∀ info, st.fs.metadata (db.path (db.blobId r)) = .ok info →
      info.len ≠ (db.cipher r).length) :
    checksDamaged db ⟨st, [.upsertChunk r .stat]⟩ (.step 0 .ok) = false := by
  show (st.fs.file? (db.path (db.blobId r))).any _ = false
  cases hf : st.fs.file? (db.path (db.blobId r)) with
  | none => rfl
  | some f =>
      have hne := hmiss _ (Fs.metadata_len hf)
      rw [Option.any_some, decide_eq_false_iff_not]
      exact fun h => hne h.1

theorem uploadOutline_step {st' : Store} {pc pc' : UpsertChunkPc} {c : Choice} {damaged : Bool}
    (hdir : ¬p'.1.fs.isDir (db.path (db.blobId r))) (hinv : UploadOutline db r p p' pc)
    (hdamage : damaged = (p'.2 || checksDamaged db ⟨p'.1, [.upsertChunk r pc]⟩ (.step 0 c)))
    (h : UpsertChunkStep db p'.1 r pc c st' pc') :
    UploadOutline db r p (st', damaged) pc' := by
  obtain ⟨st, found⟩ := p'
  subst hdamage
  cases h with
  | refuse e => trivial
  | check => simpa [UploadOutline, checksDamaged] using hinv
  | skip info hinfo hlen =>
      obtain ⟨hsql, hsame, hfound⟩ := hinv
      refine ⟨hsql, fun b _ _ => hsame _, ?_⟩
      dsimp only at hfound ⊢
      rw [hfound]
      -- the length is right, so the file is whole or this check has found it damaged
      exact inPlace_of_skip hdir hinfo hlen
  | miss c hc =>
      have hno : checksDamaged db ⟨st, [.upsertChunk r .stat]⟩ (.step 0 c) = false := by
        rcases hc with rfl | ⟨rfl, hmiss⟩
        · rfl
        · exact checksDamaged_of_miss hmiss
      simpa [UploadOutline, hno] using hinv
  | mkdir i fs h =>
      obtain ⟨hsql, hsame, hfound⟩ := hinv
      refine ⟨hsql, fun q => ?_, by simpa [checksDamaged] using hfound⟩
      exact (Fs.file?_createDirs h q).trans (hsame q)
  | mkdirFailed => trivial
  | mkdirRefused => trivial
  | create i fs ino h =>
      obtain ⟨hsql, hsame, hfound⟩ := hinv
      refine ⟨hsql, fun b hb _ => ?_, by simpa [checksDamaged] using hfound, ⟨ino, [], st.now⟩, ?_⟩
      · -- the other blobs lie at other paths
        show fs.file? _ = _
        rw [Fs.file?_create h, if_neg fun h => hb (db.path_injective h).symm]
        exact hsame _
      · refine ⟨?_, rfl, rfl, Nat.zero_le _⟩
        show fs.file? _ = _
        rw [Fs.file?_create h, if_pos rfl]
  | retry => simpa [UploadOutline, checksDamaged] using hinv
  | createRefused => trivial
  | write ino off n hn hoff =>
      obtain ⟨hsql, hothers, hfound, f, hf, rfl, hdata, hle⟩ := hinv
      -- what is there is a prefix of the ciphertext, and the portion extends it
      refine ⟨hsql, fun b hb hprev => ?_, by simpa [checksDamaged] using hfound, ?_⟩
      · show (st.fs.writeAt _ _ _ _ _).file? _ = _
        rw [Fs.file?_writeAt, if_neg fun h => hb (db.path_injective h).symm]
        exact hothers b hb hprev
      · refine ⟨⟨f.ino, overlay f.data off (((db.cipher r).drop off).take n), st.now⟩, ?_, rfl, ?_,
          hoff⟩
        · show (st.fs.writeAt _ _ _ _ _).file? _ = _
          rw [Fs.file?_writeAt, if_pos rfl]
          dsimp only at hf
          rw [hf, Option.map_some, if_pos rfl]
        · show overlay f.data off _ = _
          rw [hdata, overlay_take hle le_rfl hoff, Nat.max_eq_right (Nat.le_add_right _ _)]
  | written ino =>
      obtain ⟨hsql, hothers, hfound, f, hf, rfl, hdata, hle⟩ := hinv
      rw [List.take_length] at hdata
      refine ⟨hsql, hothers, f, hf, by rw [hdata], ?_⟩
      rw [hdata]
      simpa [checksDamaged] using Bool.eq_iff_iff.mp hfound
  | writeFailed => trivial
  | commit wrote sql prev h =>
      obtain ⟨hsql, hothers, hplace⟩ := hinv
      have hplace' : InPlace db r p ({ st with sql := sql }, found || false) := by
        rw [Bool.or_false]
        exact hplace
      dsimp only at hsql
      rw [hsql] at h
      cases prev with
      | none => exact ⟨none, h, hothers, hplace'⟩
      | some prev => exact ⟨h, hothers, hplace'⟩
  | abort wrote c e h => cases wrote <;> trivial
  | removeOwn => trivial
  | keepOwn => trivial
  | removePrev prev =>
      obtain ⟨hcommit, hothers, f, hf, hlen, hfound⟩ := hinv
      -- the blob that was replaced is never the one just written
      have hne : db.path prev ≠ db.path (db.blobId r) :=
        fun h => Sql.prev_ne hcommit (db.path_injective h)
      refine ⟨some prev, by simpa using hcommit, fun b hb hprev => ?_, f, ?_, hlen,
        by simpa [checksDamaged] using hfound⟩
      · show (st.removeQuiet _).fs.file? _ = _
        rw [file?_removeQuiet, if_neg fun h => hprev (congrArg some (db.path_injective h))]
        exact hothers b hb (by simp)
      · show (st.removeQuiet _).fs.file? _ = _
        rw [file?_removeQuiet, if_neg hne]
        exact hf
  | keepPrev prev =>
      obtain ⟨hcommit, hothers, f, hf, hlen, hfound⟩ := hinv
      exact ⟨some prev, hcommit, fun b hb _ => hothers b hb (by simp), f, hf, hlen,
        by simpa [checksDamaged] using hfound⟩

end

theorem step_undisturbed {db : VmIoDb} {st : Store} {task : Task} {a : Action} {s' : Sys}
    (hok : Undisturbed ⟨st, [task]⟩ a) (h : step db ⟨st, [task]⟩ a = some s') :
    (∃ c st' task', a = .step 0 c ∧ s' = ⟨st', [task']⟩ ∧ TaskStep db st task c st' task') ∨
      ∃ d, a = .tick d ∧ s' = ⟨{ st with now := st.now + d }, [task]⟩ := by
  rcases step_alone h with ⟨c, st', task', rfl, rfl, hstep⟩ | htick | ⟨call, rfl⟩ | rfl
  · exact .inl ⟨c, st', task', rfl, rfl, stepTask_cases hstep⟩
  · exact .inr htick
  · exact hok.elim
  · exact hok.elim

theorem Provenance.alone {db : VmIoDb} {P : ChunkReq → Prop} {st : Store} {tasks : List Task}
    (hinv : Provenance db P ⟨st, tasks⟩) {task : Task}
    (htask : ∀ r pc, task = .upsertChunk r pc → P r) : Provenance db P ⟨st, [task]⟩ where
  uploads t r pc ht := by
    rw [List.getElem?_singleton] at ht
    split at ht <;> cases ht
    exact htask r pc rfl
  rows := hinv.rows
  shallow := hinv.shallow

theorem provenance_undisturbed {db : VmIoDb} {P : ChunkReq → Prop} {q₀ q : Sys × Bool}
    (hinv : Provenance db P q₀.1)
    (h : Reach (observe (step db) (recordDamage db)) (fun q a => Undisturbed q.1 a) q₀ q) :
    Provenance db P q.1 := by
  have hrun : Reach (step db) Undisturbed q₀.1 q.1 := Reach.of_observe h
  refine hrun.invariant hinv fun s a s' hinv hok hs => provenance_step hinv ?_ hs
  cases a <;> first | exact hok.elim | simp [UploadsIn, Action.upload]

theorem uploadOutline_run {db : VmIoDb} {P : ChunkReq → Prop} {r : ChunkReq}
    {p : Store × Bool} (hprov : Provenance db P ⟨p.1, [.upsertChunk r .start]⟩) {q : Sys × Bool}
    (h : Reach (observe (step db) (recordDamage db)) (fun q a => Undisturbed q.1 a)
      (⟨p.1, [.upsertChunk r .start]⟩, p.2) q) :
    ∃ st pc, q.1 = ⟨st, [.upsertChunk r pc]⟩ ∧ UploadOutline db r p (st, q.2) pc := by
  refine h.invariant_of (J := fun q => Provenance db P q.1)
    (I := fun q => ∃ st pc, q.1 = ⟨st, [.upsertChunk r pc]⟩ ∧ UploadOutline db r p (st, q.2) pc)
    (fun q hq => provenance_undisturbed hprov hq) ⟨p.1, .start, rfl, rfl, fun _ => rfl, rfl⟩ ?_
  rintro ⟨_, damaged⟩ a ⟨s', damaged'⟩ hprov _ ⟨st, pc, rfl, hinv⟩ hok hs
  obtain ⟨hs, hlog⟩ := observe_eq_some_iff.mp hs
  have hlog : damaged' = recordDamage db ⟨st, [.upsertChunk r pc]⟩ a s' damaged := hlog
  subst hlog
  rcases step_undisturbed hok hs with ⟨c, st', task', rfl, rfl, hstep⟩ | ⟨d, rfl, rfl⟩
  · cases hstep with
    | upsertChunk hup =>
        exact ⟨st', _, rfl, uploadOutline_step (hprov.not_isDir _) hinv rfl hup⟩
  · refine ⟨_, pc, rfl, ?_⟩
    show UploadOutline db r p ({ st with now := st.now + d }, damaged || false) pc
    rw [Bool.or_false]
    cases pc <;> exact hinv

/-- An upload that runs alone and returns `Ok(())` has committed its row, and its
file is in place. -/
theorem upload_outline {db : VmIoDb} {P : ChunkReq → Prop} {r : ChunkReq} {p p' : Store × Bool}
    (hprov : Provenance db P ⟨p.1, [.upsertChunk r .start]⟩)
    (h : RunsTo db p (.upsertChunk r) p' (.upsertChunk r (.done (.ok ())))) :
    ∃ prev, p.1.sql.upsertChunk (db.row r) = .ok (p'.1.sql, prev) ∧
      OthersSame db r prev p.1 p'.1 ∧ InPlace db r p p' := by
  obtain ⟨st, pc, hst, hinv⟩ := uploadOutline_run hprov h
  cases hst
  exact hinv

/-! ### The uploads of a file -/

/-- The chunks are uploaded one after the other, and each call returns `Ok(())`. -/
inductive Uploads (db : VmIoDb) : Store × Bool → List ChunkReq → Store × Bool → Prop
  | nil (p : Store × Bool) : Uploads db p [] p
  | cons {p q p' : Store × Bool} {r : ChunkReq} {rs : List ChunkReq}
      (hrun : RunsTo db p (.upsertChunk r) q (.upsertChunk r (.done (.ok ()))))
      (hrest : Uploads db q rs p') : Uploads db p (r :: rs) p'

/-- The uploads `ds` have been made, from the store and record `p` on. -/
structure Stored (db : VmIoDb) (p : Store × Bool) (ds : List ChunkReq) (p' : Store × Bool) :
    Prop where
  entries : p'.1.sql.entries = p.1.sql.entries
  rows : ∀ r ∈ ds, p'.1.sql.entryFileChunks.find? r.slot = some (db.row r)
  others : ∀ slot, (∀ r ∈ ds, r.slot ≠ slot) →
    p'.1.sql.entryFileChunks.find? slot = p.1.sql.entryFileChunks.find? slot
  files : ∀ r ∈ ds, ∃ f, p'.1.fs.file? (db.path (db.blobId r)) = some f ∧
    f.data.length = (db.cipher r).length
  damaged : p'.2 = true ↔ p.2 = true ∨ ∃ r ∈ ds, ¬Complete db p'.1 r

section

variable {db : VmIoDb} {P : ChunkReq → Prop} {p q p' : Store × Bool} {ds : List ChunkReq}
  {r : ChunkReq}

theorem stored_nil (db : VmIoDb) (p : Store × Bool) : Stored db p [] p where
  entries := rfl
  rows := by simp
  others _ _ := rfl
  files := by simp
  damaged := by simp

theorem prev_ne_stored (hcf : CollisionFree db P) {sql sql' : Sql} {prev : Option Digest}
    (hrows : ∀ row ∈ sql.entryFileChunks.rows, ∃ r, P r ∧ row = db.row r)
    (h : sql.upsertChunk (db.row r) = .ok (sql', prev)) {d : ChunkReq} (hd : P d)
    (hne : d.slot ≠ r.slot) : db.blobId d ∉ prev := by
  intro hmem
  obtain ⟨_, _, hprev⟩ := Sql.upsertChunk_ok h
  rw [hprev] at hmem
  obtain ⟨hold, _⟩ := Option.filter_eq_some_iff.mp hmem
  obtain ⟨old, hfind, hblob⟩ := Option.map_eq_some_iff.mp hold
  obtain ⟨hin, hpk⟩ := Table.find?_eq_some_iff.mp hfind
  obtain ⟨r', hr', rfl⟩ := hrows old hin
  have hsame : r' = d := hcf.eq_of_blobId hr' hd hblob
  subst hsame
  exact hne hpk

theorem Stored.upload (hcf : CollisionFree db P) (hds : ∀ d ∈ ds, P d) (hr : P r)
    (hslots : ∀ d ∈ ds, d.slot ≠ r.slot)
    (hprov : Provenance db P ⟨q.1, [.upsertChunk r .start]⟩) (hinv : Stored db p ds q)
    (h : RunsTo db q (.upsertChunk r) p' (.upsertChunk r (.done (.ok ())))) :
    Stored db p (ds ++ [r]) p' := by
  obtain ⟨prev, hcommit, hothers, f, hf, hlen, hdamaged⟩ := upload_outline hprov h
  obtain ⟨hfk, hsql, hprev⟩ := Sql.upsertChunk_ok hcommit
  have hsame : ∀ d ∈ ds, p'.1.fs.file? (db.path (db.blobId d)) =
      q.1.fs.file? (db.path (db.blobId d)) := by
    intro d hd
    refine hothers _ (fun heq => ?_)
      (prev_ne_stored hcf hprov.rows hcommit (hds d hd) (hslots d hd))
    exact hslots d hd (congrArg ChunkReq.slot (hcf.eq_of_blobId (hds d hd) hr heq))
  have hcomplete : ∀ d ∈ ds, (Complete db p'.1 d ↔ Complete db q.1 d) := by
    intro d hd
    unfold Complete
    rw [hsame d hd]
  have hown : ¬Complete db p'.1 r ↔ f.data ≠ db.cipher r := by
    unfold Complete
    rw [hf]
    simp
  -- the new row and file stand beside those of the other slots
  refine ⟨?_, ?_, ?_, ?_, ?_⟩
  · rw [hsql]
    exact hinv.entries
  · intro d hd
    rw [hsql]
    show (q.1.sql.entryFileChunks.put (db.row r)).find? d.slot = _
    rcases List.mem_append.mp hd with hd | hd
    · have hne : (db.row r).pk ≠ d.slot := fun heq => hslots d hd heq.symm
      rw [Table.find?_put_ne hne]
      exact hinv.rows d hd
    · obtain rfl := List.mem_singleton.mp hd
      exact Table.find?_put_self rfl
  · intro slot hslot
    rw [hsql]
    show (q.1.sql.entryFileChunks.put (db.row r)).find? slot = _
    have hne : (db.row r).pk ≠ slot := hslot r (by simp)
    rw [Table.find?_put_ne hne]
    exact hinv.others slot fun d hd => hslot d (by simp [hd])
  · intro d hd
    rcases List.mem_append.mp hd with hd | hd
    · rw [hsame d hd]
      exact hinv.files d hd
    · obtain rfl := List.mem_singleton.mp hd
      exact ⟨f, hf, hlen⟩
  · rw [hdamaged, hinv.damaged, or_assoc, ← hown]
    refine or_congr_right ?_
    constructor
    · rintro (⟨d, hd, hno⟩ | hno)
      · exact ⟨d, by simp [hd], fun hc => hno ((hcomplete d hd).mp hc)⟩
      · exact ⟨r, by simp, hno⟩
    · rintro ⟨d, hd, hno⟩
      rcases List.mem_append.mp hd with hd | hd
      · exact .inl ⟨d, hd, fun hc => hno ((hcomplete d hd).mpr hc)⟩
      · obtain rfl := List.mem_singleton.mp hd
        exact .inr hno

/-- After all uploads of a list, with no two at one slot, all of them are stored. -/
theorem Uploads.stored (hcf : CollisionFree db P) {rs : List ChunkReq} {tasks : List Task}
    (h : Uploads db q rs p') (hP : ∀ r ∈ ds ++ rs, P r)
    (hslots : (ds ++ rs).Pairwise fun d r => d.slot ≠ r.slot)
    (hprov : Provenance db P ⟨q.1, tasks⟩) (hinv : Stored db p ds q) :
    Stored db p (ds ++ rs) p' := by
  induction h generalizing ds tasks with
  | nil q =>
      rw [List.append_nil]
      exact hinv
  | @cons q mid p' r rs hrun hrest ih =>
      have hr : P r := hP r (by simp)
      have hstart : Provenance db P ⟨q.1, [.upsertChunk r .start]⟩ :=
        hprov.alone fun r' pc heq => by
          cases heq
          exact hr
      have hmid : Provenance db P ⟨mid.1, [.upsertChunk r (.done (.ok ()))]⟩ :=
        provenance_undisturbed hstart hrun
      rw [List.append_cons] at hP hslots ⊢
      refine ih hP hslots hmid (hinv.upload hcf (fun d hd => hP d (by simp [hd])) hr ?_ hstart hrun)
      intro d hd
      have hpair := (List.pairwise_append.mp hslots).1
      exact (List.pairwise_append.mp hpair).2.2 d hd r (by simp)

end

/-! ### Whole files -/

/-- A file that is put under a class and key, split into chunks. -/
structure FileReq where
  cls : String
  key : String
  parts : List Bytes
  cls_lt : cls.utf8ByteSize < 2 ^ 63
  key_lt : key.utf8ByteSize < 2 ^ 63
  nonempty : parts ≠ []
  /-- the indexes are those of an `i64` -/
  parts_le : parts.length ≤ 2 ^ 63

namespace FileReq

def entryKey (f : FileReq) : String × String := (f.cls, f.key)

def count (f : FileReq) : ℕ := f.parts.length

/-- The upload of a part: `is_final` is set on the last. -/
def chunk (f : FileReq) (i : ℕ) (data : Bytes) : ChunkReq :=
  ⟨f.cls, f.key, Int64.ofNat i, data, decide (i + 1 = f.count), f.cls_lt, f.key_lt⟩

def chunks (f : FileReq) : List ChunkReq := f.parts.mapIdx f.chunk

end FileReq

/-- Read chunks of a file of `count` chunks one after the other, asking for finality
at the last. -/
def readChunks (db : VmIoDb) (st : Store) (cls key : String) (count : ℤ) :
    List ℕ → Except IoError (Option Bytes)
  | [] => .ok (some [])
  | i :: is =>
      match getChunk db st cls key (Int64.ofNat i) (decide ((i : ℤ) = count - 1)) with
      | .error e => .error e
      | .ok none => .ok none
      | .ok (some data) => (readChunks db st cls key count is).map (Option.map (data ++ ·))

def readFile (db : VmIoDb) (st : Store) (cls key : String) (count : ℤ) :
    Except IoError (Option Bytes) :=
  readChunks db st cls key count (List.range count.toNat)

/-- The file reads back: its entry counts its chunks, and they hold its content. -/
def RoundTrips (db : VmIoDb) (st : Store) (f : FileReq) : Prop :=
  ∃ entry, st.sql.get f.cls f.key = some entry ∧ entry.chunkCount = f.count ∧
    readFile db st f.cls f.key entry.chunkCount = .ok (some f.parts.flatten)

theorem readChunks_eq_some {db : VmIoDb} {st : Store} {cls key : String} {count : ℤ}
    {is : List ℕ} {parts : List Bytes}
    (h : List.Forall₂ (fun i data => getChunk db st cls key (Int64.ofNat i)
      (decide ((i : ℤ) = count - 1)) = .ok (some data)) is parts) :
    readChunks db st cls key count is = .ok (some parts.flatten) := by
  induction h with
  | nil => rfl
  | cons hget _ ih =>
      simp only [readChunks, hget, ih, Except.map, Option.map_some, List.flatten_cons]

theorem readChunks_error {db : VmIoDb} {st : Store} {cls key : String} {count : ℤ}
    {is : List ℕ} {i : ℕ} (hi : i ∈ is) {e : IoError}
    (h : getChunk db st cls key (Int64.ofNat i) (decide ((i : ℤ) = count - 1)) = .error e)
    (out : Bytes) : readChunks db st cls key count is ≠ .ok (some out) := by
  induction is generalizing out with
  | nil => simp at hi
  | cons j is ih =>
      unfold readChunks
      rcases List.mem_cons.mp hi with rfl | hi
      · simp only [h, ne_eq, reduceCtorEq, not_false_eq_true]
      · split
        · simp
        · simp
        · rename_i data _
          cases hrest : readChunks db st cls key count is with
          | error e => simp [Except.map]
          | ok res =>
              cases res with
              | none => simp [Except.map]
              | some rest => exact absurd hrest (ih hi rest)

namespace FileReq

variable {f : FileReq}

theorem mem_chunks {r : ChunkReq} :
    r ∈ f.chunks ↔ ∃ (i : ℕ) (_ : i < f.parts.length), r = f.chunk i f.parts[i] := by
  simp only [chunks, List.mem_mapIdx, eq_comm]

theorem idx_injective {i j : ℕ} (hi : i < 2 ^ 63) (hj : j < 2 ^ 63)
    (h : Int64.ofNat i = Int64.ofNat j) : i = j := by
  have hint := congrArg Int64.toInt h
  rw [Int64.toInt_ofNat_of_lt hi, Int64.toInt_ofNat_of_lt hj] at hint
  exact Nat.cast_inj.mp hint

theorem lt_of_lt_count {i : ℕ} (hi : i < f.count) : i < 2 ^ 63 := lt_of_lt_of_le hi f.parts_le

theorem chunks_pairwise : f.chunks.Pairwise fun d r => d.slot ≠ r.slot := by
  rw [List.pairwise_iff_getElem]
  intro i j hi hj hij heq
  simp only [chunks, List.length_mapIdx] at hi hj
  simp only [chunks, List.getElem_mapIdx, ChunkReq.slot, chunk, Prod.mk.injEq, true_and] at heq
  exact hij.ne (idx_injective (lt_of_lt_count hi) (lt_of_lt_count hj) heq)

/-- Every chunk row the entry has is at an index of the file. -/
def Covers (f : FileReq) (sql : Sql) : Prop :=
  ∀ row ∈ sql.entryFileChunks.rows, row.entryKey = f.entryKey →
    ∃ i < f.count, row.idx = Int64.ofNat i

theorem Covers.of_others {sql sql' : Sql}
    (hothers : ∀ slot, (∀ r ∈ f.chunks, r.slot ≠ slot) →
      sql'.entryFileChunks.find? slot = sql.entryFileChunks.find? slot)
    (h : f.Covers sql) : f.Covers sql' := by
  intro row hrow hkey
  by_contra hno
  have hslot : ∀ r ∈ f.chunks, r.slot ≠ row.pk := by
    intro r hr heq
    obtain ⟨i, hi, rfl⟩ := mem_chunks.mp hr
    exact hno ⟨i, hi, (congrArg (·.2.2) heq).symm⟩
  have hfind := hothers _ hslot
  rw [Table.find?_pk hrow] at hfind
  exact hno (h row (Table.find?_eq_some_iff.mp hfind.symm).1 hkey)

/-- The indexes of the chunk rows the entry has. -/
def indexes (f : FileReq) (sql : Sql) : List Int64 :=
  (sql.entryFileChunks.rows.filter (fun c => c.entryKey = f.entryKey)).map ChunkRow.idx

theorem mem_indexes {sql : Sql} {idx : Int64} :
    idx ∈ f.indexes sql ↔
      ∃ row ∈ sql.entryFileChunks.rows, row.entryKey = f.entryKey ∧ row.idx = idx := by
  simp only [indexes, List.mem_map, List.mem_filter, decide_eq_true_eq, and_assoc]

theorem indexes_nodup (sql : Sql) : (f.indexes sql).Nodup := by
  refine List.Nodup.map_on ?_ (sql.entryFileChunks.nodup.of_map.filter _)
  intro a ha b hb hidx
  simp only [List.mem_filter, decide_eq_true_eq] at ha hb
  refine sql.entryFileChunks.eq_of_pk_eq ha.1 hb.1 ?_
  have hkey : a.entryKey = b.entryKey := ha.2.trans hb.2.symm
  simp only [ChunkRow.entryKey, Prod.mk.injEq] at hkey
  rw [ChunkRow.pk, ChunkRow.pk, hkey.1, hkey.2, hidx]

/-- When every index of the file has a row, the entry counts as many chunks as the
file exactly when it has no others. -/
theorem chunkCount_eq_iff {sql : Sql}
    (hrows : ∀ i < f.count, Int64.ofNat i ∈ f.indexes sql) :
    sql.chunkCount f.entryKey = f.count ↔ f.Covers sql := by
  let own : Finset Int64 := (Finset.range f.count).image Int64.ofNat
  have hown : own.card = f.count := by
    rw [Finset.card_image_of_injOn, Finset.card_range]
    intro i hi j hj h
    simp only [Finset.coe_range, Set.mem_Iio] at hi hj
    exact idx_injective (lt_of_lt_count hi) (lt_of_lt_count hj) h
  have hall : (f.indexes sql).toFinset.card = (f.indexes sql).length :=
    List.toFinset_card_of_nodup (indexes_nodup sql)
  have hsub : own ⊆ (f.indexes sql).toFinset := by
    intro idx hidx
    obtain ⟨i, hi, rfl⟩ := Finset.mem_image.mp hidx
    exact List.mem_toFinset.mpr (hrows i (Finset.mem_range.mp hi))
  have hcount : sql.chunkCount f.entryKey = (f.indexes sql).length := by
    rw [Sql.chunkCount, indexes, List.length_map]
  rw [hcount, Nat.cast_inj]
  constructor
  · intro hlen row hrow hkey
    have heq := Finset.eq_of_subset_of_card_le hsub (by rw [hall, hlen, hown])
    have hmem : row.idx ∈ own := by
      rw [heq, List.mem_toFinset]
      exact mem_indexes.mpr ⟨row, hrow, hkey, rfl⟩
    obtain ⟨i, hi, hidx⟩ := Finset.mem_image.mp hmem
    exact ⟨i, Finset.mem_range.mp hi, hidx.symm⟩
  · intro hcovers
    have hsup : (f.indexes sql).toFinset ⊆ own := by
      intro idx hidx
      obtain ⟨row, hrow, hkey, rfl⟩ := mem_indexes.mp (List.mem_toFinset.mp hidx)
      obtain ⟨i, hi, hidx⟩ := hcovers row hrow hkey
      exact Finset.mem_image.mpr ⟨i, Finset.mem_range.mpr hi, hidx.symm⟩
    rw [← hall, ← hown, Finset.Subset.antisymm hsup hsub]

end FileReq

/-- A chunk whose file holds other bytes than its ciphertext cannot be read. -/
theorem getChunk_damaged {db : VmIoDb} {P : ChunkReq → Prop} (hcf : CollisionFree db P)
    (hauth : Authentic db P) {r : ChunkReq} (hr : P r) {st : Store}
    (h : st.sql.entryFileChunks.find? r.slot = some (db.row r)) {f : File}
    (hf : st.fs.file? (db.path (db.blobId r)) = some f) (hdata : f.data ≠ db.cipher r) :
    ∃ e, getChunk db st r.cls r.key r.idx r.isFinal = .error e := by
  have hrow : getChunkRow st r.cls r.key r.idx r.isFinal =
      .ok (some ⟨db.crypto.sha256 r.data, db.tag r, (db.cipher r).length, r.isFinal⟩) :=
    (getChunkRow_row r.isFinal h).trans (if_neg (not_not.mpr rfl))
  have hread : st.fs.read (db.path (genId db.crypto (db.chunkId r) db.blobKey)) = .ok f.data :=
    Fs.read_file hf
  have hdec : db.crypto.decryptInPlace (db.keys r).key (db.keys r).nonce (db.keys r).adata f.data
      (db.tag r) = none := by
    by_contra hsome
    obtain ⟨out, hout⟩ := Option.ne_none_iff_exists'.mp hsome
    exact hdata (hauth.cipher_eq hcf hr hout)
  have hfile : ∃ e, getChunkFile db st r.cls r.key r.idx r.isFinal
      ⟨db.crypto.sha256 r.data, db.tag r, (db.cipher r).length, r.isFinal⟩ = .error e := by
    unfold getChunkFile
    simp only [VmIoDb.chunkId] at hread
    simp only [hread]
    split
    · exact ⟨_, rfl⟩
    · refine ⟨.aead, ?_⟩
      show decryptChunk db.crypto (db.chunkId r) f.data db.blobKey (db.tag r) = _
      unfold decryptChunk
      simp only [VmIoDb.keys] at hdec
      simp only [hdec]
  obtain ⟨e, he⟩ := hfile
  exact ⟨e, by simp only [getChunk, hrow, he, Except.map]⟩

theorem stepUpsert_cases {st st' : Store} {e : EntryRow} {pc pc' : UpsertPc} {c : Choice}
    (h : stepUpsert st e pc c = some (st', pc')) :
    (st'.sql = st.sql ∧ ∀ b, pc' ≠ .done (.ok b)) ∨
      ∃ b, pc' = .done (.ok b) ∧ st.sql.upsert e = .ok (st'.sql, b) := by
  unfold stepUpsert at h
  split at h
  · split at h <;> cases h <;> exact .inl ⟨rfl, by simp⟩
  · split at h
    · rename_i hup
      cases h
      exact .inr ⟨_, rfl, hup⟩
    · cases h
      exact .inl ⟨rfl, by simp⟩
  · cases h
    exact .inl ⟨rfl, by simp⟩
  · contradiction

theorem stepUpsert_put {st st' : Store} {e : EntryRow} {pc : UpsertPc} {c : Choice}
    (h : stepUpsert st e pc c = some (st', .done (.ok true))) :
    st'.sql.entries.find? e.pk = some e := by
  rcases stepUpsert_cases h with ⟨_, hno⟩ | ⟨b, hb, hup⟩
  · exact absurd rfl (hno true)
  · cases hb
    rcases Sql.upsert_cases hup with ⟨_, _, heq⟩ | ⟨_, heq⟩ | ⟨_, _, heq⟩
    · rw [Except.ok.injEq, Prod.mk.injEq] at heq
      rw [heq.1]
      exact Table.find?_put_self rfl
    · simp at heq
    · simp at heq

/-- An entry that is put alone leaves the files and the chunk rows as they were. -/
theorem upsert_run {db : VmIoDb} {e : EntryRow} {p : Store × Bool} {q : Sys × Bool}
    (h : Reach (observe (step db) (recordDamage db)) (fun q a => Undisturbed q.1 a)
      (⟨p.1, [.upsert e .start]⟩, p.2) q) :
    ∃ st pc, q.1 = ⟨st, [.upsert e pc]⟩ ∧ st.fs = p.1.fs ∧
      st.sql.entryFileChunks = p.1.sql.entryFileChunks ∧ q.2 = p.2 ∧
      (pc = .done (.ok true) → st.sql.entries.find? e.pk = some e) := by
  refine h.invariant (I := fun q => ∃ st pc, q.1 = ⟨st, [.upsert e pc]⟩ ∧ st.fs = p.1.fs ∧
    st.sql.entryFileChunks = p.1.sql.entryFileChunks ∧ q.2 = p.2 ∧
    (pc = .done (.ok true) → st.sql.entries.find? e.pk = some e))
    ⟨p.1, .start, rfl, rfl, rfl, rfl, by simp⟩ ?_
  rintro ⟨_, damaged⟩ a ⟨s', damaged'⟩ ⟨st, pc, rfl, hfs, hchunks, hsame, hput⟩ hok hs
  obtain ⟨hs, hlog⟩ := observe_eq_some_iff.mp hs
  have hlog : damaged' = recordDamage db ⟨st, [.upsert e pc]⟩ a s' damaged := hlog
  subst hlog
  rcases step_undisturbed hok hs with ⟨c, st', task', rfl, rfl, hstep⟩ | ⟨d, rfl, rfl⟩
  · cases hstep with
    | @upsert _ _ pc' _ _ hup =>
        obtain ⟨hchunks', hfs', _⟩ := stepUpsert_frame hup
        have hdamage : recordDamage db ⟨st, [.upsert e pc]⟩ (.step 0 c) ⟨st', [.upsert e pc']⟩
            damaged = damaged := by
          cases c <;> simp [recordDamage, checksDamaged]
        refine ⟨st', pc', rfl, hfs'.trans hfs, hchunks'.trans hchunks, hdamage.trans hsame, ?_⟩
        rintro rfl
        exact stepUpsert_put hup
  · exact ⟨_, pc, rfl, hfs, hchunks, by simpa [recordDamage, checksDamaged] using hsame, hput⟩

/-- A file whose chunks are all committed and have a file each reads back exactly when
the entry has no other chunk rows and each file holds its ciphertext. -/
theorem roundTrips_iff {db : VmIoDb} {P : ChunkReq → Prop} (hcf : CollisionFree db P)
    (hauth : Authentic db P) {f : FileReq} (hP : ∀ r ∈ f.chunks, P r) {st : Store} {e : EntryRow}
    (he : st.sql.entries.find? f.entryKey = some e) (hpk : e.pk = f.entryKey)
    (hrows : ∀ r ∈ f.chunks, st.sql.entryFileChunks.find? r.slot = some (db.row r))
    (hfiles : ∀ r ∈ f.chunks, ∃ file, st.fs.file? (db.path (db.blobId r)) = some file) :
    RoundTrips db st f ↔ f.Covers st.sql ∧ ∀ r ∈ f.chunks, Complete db st r := by
  have hchunk : ∀ (i : ℕ) (hi : i < f.parts.length), f.chunk i f.parts[i] ∈ f.chunks :=
    fun i hi => FileReq.mem_chunks.mpr ⟨i, hi, rfl⟩
  have hindexes : ∀ i < f.count, Int64.ofNat i ∈ f.indexes st.sql := by
    intro i hi
    have hrow := Table.find?_eq_some_iff.mp (hrows _ (hchunk i hi))
    exact FileReq.mem_indexes.mpr ⟨_, hrow.1, rfl, rfl⟩
  have hentry : st.sql.get f.cls f.key = some (st.sql.toEntry e) := by
    unfold Sql.get
    rw [show (f.cls, f.key) = f.entryKey from rfl, he, Option.map_some]
  have hcount : (st.sql.toEntry e).chunkCount = f.count ↔ f.Covers st.sql := by
    rw [← FileReq.chunkCount_eq_iff hindexes]
    show st.sql.chunkCount e.pk = _ ↔ _
    rw [hpk]
  -- once the count is right, each chunk is asked for with its own finality
  have hfinal : ∀ (i : ℕ) (hi : i < f.parts.length),
      decide ((i : ℤ) = (f.count : ℤ) - 1) = (f.chunk i f.parts[i]).isFinal := by
    intro i hi
    exact decide_eq_decide.mpr (by omega)
  constructor
  · rintro ⟨entry, hget, hn, hread⟩
    rw [hentry, Option.some_inj] at hget
    subst hget
    rw [hn] at hread
    refine ⟨hcount.mp hn, fun r hr => ?_⟩
    by_contra hno
    obtain ⟨file, hfile⟩ := hfiles r hr
    have hdata : file.data ≠ db.cipher r := fun h => hno ⟨file, hfile, h⟩
    obtain ⟨err, herr⟩ := getChunk_damaged hcf hauth (hP r hr) (hrows r hr) hfile hdata
    obtain ⟨i, hi, rfl⟩ := FileReq.mem_chunks.mp hr
    rw [← hfinal i hi] at herr
    exact readChunks_error (List.mem_range.mpr (by simpa [FileReq.count] using hi)) herr _ hread
  · rintro ⟨hcov, hcomplete⟩
    refine ⟨_, hentry, hcount.mpr hcov, ?_⟩
    rw [hcount.mpr hcov]
    refine readChunks_eq_some ?_
    rw [List.forall₂_iff_get]
    refine ⟨by simp [FileReq.count], fun i hi hi' => ?_⟩
    have hmem := hchunk i hi'
    have hget := getChunk_row (f.chunk i f.parts[i]).isFinal (hrows _ hmem) (hcomplete _ hmem)
    rw [if_pos rfl, ← hfinal i hi'] at hget
    rw [List.get_eq_getElem, List.get_eq_getElem, List.getElem_range]
    exact hget

/-- A file is put over whatever a run has left, its entry first and then chunk after
chunk. It reads back exactly when the entry has no chunk rows at indexes beyond the
file's, and no upload takes a damaged file for its own. -/
theorem file_roundTrip {db : VmIoDb} {P : ChunkReq → Prop} (hcf : CollisionFree db P)
    (hauth : Authentic db P) {now : Time} {s₀ : Sys}
    (h₀ : Reach (step db) (UploadsIn P) (Sys.init db now) s₀) {f : FileReq}
    (hP : ∀ r ∈ f.chunks, P r) {e : EntryRow} (he : e.pk = f.entryKey) {q : Store × Bool}
    (hupsert : RunsTo db (s₀.st, false) (.upsert e) q (.upsert e (.done (.ok true))))
    {st : Store} {damaged : Bool} (huploads : Uploads db q f.chunks (st, damaged)) :
    RoundTrips db st f ↔ f.Covers s₀.st.sql ∧ damaged = false := by
  obtain ⟨st₁, pc, hst₁, hfs, hchunks, hnot, hput⟩ := upsert_run hupsert
  cases hst₁
  have hprov : Provenance db P ⟨q.1, [.upsert e (.done (.ok true))]⟩ := by
    have hprov₀ := provenance (fun _ _ hok => hok) h₀
    exact provenance_undisturbed (hprov₀.alone fun r pc h => by cases h) hupsert
  have hinv : Stored db q f.chunks (st, damaged) :=
    huploads.stored hcf hP FileReq.chunks_pairwise hprov (stored_nil db q)
  have hentry : st.sql.entries.find? f.entryKey = some e := by
    rw [hinv.entries, ← he]
    exact hput rfl
  have hfiles : ∀ r ∈ f.chunks, ∃ file, st.fs.file? (db.path (db.blobId r)) = some file :=
    fun r hr => (hinv.files r hr).imp fun _ h => h.1
  have hcovers : f.Covers st.sql ↔ f.Covers s₀.st.sql := by
    have hothers : ∀ slot, (∀ r ∈ f.chunks, r.slot ≠ slot) →
        st.sql.entryFileChunks.find? slot = s₀.st.sql.entryFileChunks.find? slot := by
      intro slot hslot
      rw [hinv.others slot hslot, hchunks]
    exact ⟨.of_others fun slot hslot => (hothers slot hslot).symm, .of_others hothers⟩
  have hwhole : damaged = false ↔ ∀ r ∈ f.chunks, Complete db st r := by
    have hdamaged := hinv.damaged
    rw [hnot, Bool.false_eq_true, false_or] at hdamaged
    rw [← Bool.not_eq_true, hdamaged]
    simp only [not_exists, not_and, not_not]
  rw [roundTrips_iff hcf hauth hP hentry he hinv.rows hfiles, hcovers, hwhole]

/-! ### Runs that can be evaluated -/

/-- Does the schedule run a call alone to an end, with a property of what it leaves? -/
def runsTo (db : VmIoDb) (p : Store × Bool) (call : Call) (as : List Action) (ends : Task → Bool)
    (good : Store × Bool → Bool) : Bool :=
  (runOk (observe (step db) (recordDamage db)) (fun q a => Undisturbed q.1 a)
    (⟨p.1, [call.start]⟩, p.2) as).any
    fun q => q.1.tasks.length = 1 && q.1.tasks.all ends && good (q.1.st, q.2)

theorem RunsTo.exists_of_runsTo {db : VmIoDb} {p : Store × Bool} {call : Call} {as : List Action}
    {task : Task} {ends : Task → Bool} (hends : ∀ t, ends t = true → t = task)
    {good : Store × Bool → Bool} (h : runsTo db p call as ends good = true) :
    ∃ p', RunsTo db p call p' task ∧ good p' = true := by
  obtain ⟨⟨⟨st, tasks⟩, damaged⟩, hreach, hall⟩ := Reach.exists_of_runOk _ _ _ _
    (fun q : Sys × Bool =>
      (q.1.tasks.length = 1 && q.1.tasks.all ends && good (q.1.st, q.2)) = true)
    (by simpa only [runsTo, Bool.decide_eq_true] using h)
  simp only [Bool.and_eq_true, decide_eq_true_eq, List.all_eq_true] at hall
  obtain ⟨⟨hlen, hends'⟩, hgood⟩ := hall
  obtain ⟨last, rfl⟩ := List.length_eq_one_iff.mp hlen
  obtain rfl := hends last (hends' last (by simp))
  exact ⟨(st, damaged), hreach, hgood⟩

def Task.applied (e : EntryRow) : Task → Bool
  | .upsert e' (.done (.ok true)) => e' = e
  | _ => false

theorem Task.eq_of_applied {e : EntryRow} (t : Task) (h : t.applied e = true) :
    t = .upsert e (.done (.ok true)) := by
  unfold Task.applied at h
  split at h
  · rw [of_decide_eq_true h]
  · contradiction

def Task.uploaded (r : ChunkReq) : Task → Bool
  | .upsertChunk r' (.done (.ok ())) => r' = r
  | _ => false

theorem Task.eq_of_uploaded {r : ChunkReq} (t : Task) (h : t.uploaded r = true) :
    t = .upsertChunk r (.done (.ok ())) := by
  unfold Task.uploaded at h
  split at h
  · rw [of_decide_eq_true h]
  · contradiction

namespace Vectors

def laterEntry : EntryRow := ⟨"c", "k", 2, none, none⟩

def fileA : FileReq :=
  ⟨"c", "k", [[0x41]], reqA.cls_lt, reqA.key_lt, List.cons_ne_nil _ _, by decide⟩

def fileB : FileReq :=
  ⟨"c", "k", [[0x42]], reqB.cls_lt, reqB.key_lt, List.cons_ne_nil _ _, by decide⟩

/-! The key schedule and ciphertext of the second byte as the chunk at index 1. -/

def keysTail : ChunkKeys where
  id := .ofNat 0x597d4ef46eac16cf41763cbe77da6db28b797d58278565f269636e1bf99778d3
  key := .ofNat 0x848a37a35df7c13b73a84b4450e3c68b1b2dba4ccd14afea394d907521b8f3d2
  nonce := .ofNat 0xcae53a546530dc07944caf49922b956f37de28f7f85a9b20df3fdd78b458ea27
  adata := ChunkId.frame ⟨"c", "k", 1, hashB, true⟩

def tagTail : Digest :=
  .ofNat 0x2e50da2b4c526f6f6f860ddfb9bc0606fd96f0d2c2a120fb3ffa1c1e78e82d5f

theorem tag_ne_tagTail (key nonce : Digest) (adata data : Bytes) :
    (encryptInPlace key nonce adata data).2 ≠ tagTail := by
  unfold encryptInPlace
  split
  · exact (by decide : tagA ≠ tagTail)
  · split
    · exact (by decide : tagB ≠ tagTail)
    · exact (by decide : zero ≠ tagTail)

def cryptoTail : Crypto where
  sha256 := crypto.sha256
  hkdf salt ikm info :=
    if salt = keysTail.adata then expand keysTail info else crypto.hkdf salt ikm info
  encryptInPlace key nonce adata data :=
    if Under keysTail key nonce adata ∧ data = [0x42] then ([0x71], tagTail)
    else encryptInPlace key nonce adata data
  decryptInPlace key nonce adata data tag :=
    if tag = tagTail then
      if Under keysTail key nonce adata ∧ data = [0x71] then some [0x42] else none
    else decryptInPlace key nonce adata data tag
  encrypt_length key nonce adata data := by
    split
    · rename_i h
      simp [h.2]
    · exact crypto.encrypt_length key nonce adata data
  decrypt_encrypt key nonce adata data := by
    split
    · rename_i h
      simp [h]
    · rw [if_neg (tag_ne_tagTail key nonce adata data)]
      exact crypto.decrypt_encrypt key nonce adata data

def dbTail : VmIoDb := ⟨["data"], zero, cryptoTail⟩

def reqTail : ChunkReq := ⟨"c", "k", 1, [0x42], true, reqB.cls_lt, reqB.key_lt⟩

end Vectors

/-- A file of one chunk is put over another of one chunk. -/
theorem file_roundTrip_replaced :
    ∃ (s₀ : Sys) (q : Store × Bool) (st : Store),
      Reach (step Vectors.db) (UploadsIn Vectors.uploads) (Sys.init Vectors.db 0) s₀ ∧
      Vectors.db.row Vectors.reqA ∈ s₀.st.sql.entryFileChunks.rows ∧
      RunsTo Vectors.db (s₀.st, false) (.upsert Vectors.laterEntry) q
        (.upsert Vectors.laterEntry (.done (.ok true))) ∧
      Uploads Vectors.db q Vectors.fileB.chunks (st, false) ∧
      RoundTrips Vectors.db st Vectors.fileB := by
  obtain ⟨s₀, h₀, hrow, hcov, hrun⟩ := Reach.exists_of_runOk (step Vectors.db)
    (UploadsIn Vectors.uploads) (Sys.init Vectors.db 0)
    (Vectors.putEntry 0 ++ .spawn (.upsertChunk Vectors.reqA) :: Vectors.writeSteps 1 ++
      [.step 1 .ok])
    (fun s => Vectors.db.row Vectors.reqA ∈ s.st.sql.entryFileChunks.rows ∧
      (∀ row ∈ s.st.sql.entryFileChunks.rows, row.idx = 0) ∧
      runsTo Vectors.db (s.st, false) (.upsert Vectors.laterEntry) [.step 0 .ok, .step 0 .ok]
        (Task.applied Vectors.laterEntry) (fun q =>
          runsTo Vectors.db q (.upsertChunk Vectors.reqB)
            (Vectors.writeSteps 0 ++ [.step 0 .ok, .step 0 .ok])
            (Task.uploaded Vectors.reqB) (fun p => !p.2)) = true)
    (by decide +kernel)
  obtain ⟨q, hupsert, hrun⟩ := RunsTo.exists_of_runsTo Task.eq_of_applied hrun
  obtain ⟨⟨st, damaged⟩, hupload, hwhole⟩ := RunsTo.exists_of_runsTo Task.eq_of_uploaded hrun
  obtain rfl : damaged = false := by simpa using hwhole
  have huploads : Uploads Vectors.db q Vectors.fileB.chunks (st, false) :=
    .cons hupload (.nil _)
  have hcovers : Vectors.fileB.Covers s₀.st.sql :=
    fun row hrow _ => ⟨0, by decide, hcov row hrow⟩
  have hP : ∀ r ∈ Vectors.fileB.chunks, Vectors.uploads r := by decide
  exact ⟨s₀, q, st, h₀, hrow, hupsert, huploads,
    (file_roundTrip Vectors.collisionFree Vectors.authentic h₀ hP rfl hupsert huploads).mpr
      ⟨hcovers, rfl⟩⟩

/-- A chunk that an earlier version left at index 1 stays there when a file of one
chunk is put: the entry counts two chunks, and reading them fails. -/
theorem file_roundTrip_fails :
    ∃ (s₀ : Sys) (q : Store × Bool) (st : Store),
      Reach (step Vectors.dbTail) (UploadsIn fun r => r = Vectors.reqTail ∨ r = Vectors.reqA)
        (Sys.init Vectors.dbTail 0) s₀ ∧
      RunsTo Vectors.dbTail (s₀.st, false) (.upsert Vectors.laterEntry) q
        (.upsert Vectors.laterEntry (.done (.ok true))) ∧
      Uploads Vectors.dbTail q Vectors.fileA.chunks (st, false) ∧
      st.sql.get "c" "k" = some ⟨"c", "k", 2, none, none, 2⟩ ∧
      readFile Vectors.dbTail st "c" "k" 2 = .error (.other "chunk finality mismatch") ∧
      ¬RoundTrips Vectors.dbTail st Vectors.fileA := by
  obtain ⟨s₀, h₀, hrun⟩ := Reach.exists_of_runOk (step Vectors.dbTail)
    (UploadsIn fun r => r = Vectors.reqTail ∨ r = Vectors.reqA) (Sys.init Vectors.dbTail 0)
    (Vectors.putEntry 0 ++ .spawn (.upsertChunk Vectors.reqTail) :: Vectors.writeSteps 1 ++
      [.step 1 .ok])
    (fun s =>
      runsTo Vectors.dbTail (s.st, false) (.upsert Vectors.laterEntry) [.step 0 .ok, .step 0 .ok]
        (Task.applied Vectors.laterEntry) (fun q =>
          runsTo Vectors.dbTail q (.upsertChunk Vectors.reqA)
            (Vectors.writeSteps 0 ++ [.step 0 .ok]) (Task.uploaded Vectors.reqA)
            (fun p => !p.2 &&
              (decide (p.1.sql.get "c" "k" = some ⟨"c", "k", 2, none, none, 2⟩) &&
                decide (readFile Vectors.dbTail p.1 "c" "k" 2 =
                  .error (.other "chunk finality mismatch"))))) = true)
    (by decide +kernel)
  obtain ⟨q, hupsert, hrun⟩ := RunsTo.exists_of_runsTo Task.eq_of_applied hrun
  obtain ⟨⟨st, damaged⟩, hupload, hend⟩ := RunsTo.exists_of_runsTo Task.eq_of_uploaded hrun
  simp only [Bool.and_eq_true, decide_eq_true_eq, Bool.not_eq_true'] at hend
  obtain ⟨rfl, hget, hread⟩ := hend
  refine ⟨s₀, q, st, h₀, hupsert, .cons hupload (.nil _), hget, hread, ?_⟩
  rintro ⟨entry, hentry, hcount, _⟩
  have hentry : st.sql.get "c" "k" = some entry := hentry
  rw [hget] at hentry
  cases hentry
  contradiction

end VmIo.Db
