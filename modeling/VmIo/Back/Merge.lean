import VmIo.Back.Node
import VmIo.Lib.Lww

/-!
Replaying config entries with their own timestamps.

The entries of a database are a last-writer-wins map whose times are unique, and
an upsert offers it a row. A put with an explicit timestamp is one upsert.
-/

namespace VmIo.Back

open VmIo.Lib VmIo.Db

/-! ### The entries as a map -/

theorem modifiedTaken_iff {sql : Sql} {row : EntryRow} :
    sql.ModifiedTaken row ↔
      Lww.Taken EntryRow.pk EntryRow.modifiedAtMicros sql.entries.find? row := by
  constructor
  · rintro ⟨r, hr, htime, hne⟩
    exact ⟨r.pk, hne, r, Table.find?_pk hr, htime⟩
  · rintro ⟨k, hne, r, hr, htime⟩
    obtain ⟨hmem, rfl⟩ := Table.find?_eq_some_iff.mp hr
    exact ⟨r, hmem, htime, hne⟩

theorem upsert_applied {sql sql' : Sql} {row : EntryRow} {applied : Bool}
    (h : sql.upsert row = .ok (sql', applied)) :
    (applied = true ∧ Lww.Fresh EntryRow.pk EntryRow.modifiedAtMicros sql.entries.find? row ∧
        ¬Lww.Taken EntryRow.pk EntryRow.modifiedAtMicros sql.entries.find? row ∧
        sql'.entries.find? =
          Lww.deliver EntryRow.pk EntryRow.modifiedAtMicros sql.entries.find? row) ∨
      (applied = false ∧ ¬Lww.Fresh EntryRow.pk EntryRow.modifiedAtMicros sql.entries.find? row ∧
        sql' = sql) := by
  rcases Sql.upsert_cases h with ⟨hfree, hnew, heq⟩ | ⟨hold, heq⟩ | ⟨_, _, heq⟩
  · cases heq
    refine .inl ⟨rfl, hnew, fun htaken => hfree (modifiedTaken_iff.mpr htaken), ?_⟩
    rw [Lww.deliver_of_lt hnew]
    funext k
    rw [Sql.putEntry_entries, Table.find?_put, Function.update_apply]
    simp only [eq_comm]
  · cases heq
    exact .inr ⟨rfl, hold, rfl⟩
  · contradiction

theorem upsert_delivers {sql sql' : Sql} {row : EntryRow} {applied : Bool}
    (h : sql.upsert row = .ok (sql', applied)) :
    ¬Lww.Rejects EntryRow.pk EntryRow.modifiedAtMicros sql.entries.find? row ∧
      sql'.entries.find? =
        Lww.deliver EntryRow.pk EntryRow.modifiedAtMicros sql.entries.find? row := by
  rcases upsert_applied h with ⟨_, _, hfree, hdeliver⟩ | ⟨_, hold, rfl⟩
  · exact ⟨fun hrej => hfree hrej.2, hdeliver⟩
  · refine ⟨fun hrej => hold hrej.1, ?_⟩
    simp only [Lww.Fresh, not_forall] at hold
    obtain ⟨old, hf, hle⟩ := hold
    exact (Lww.deliver_of_le hf (not_lt.mp hle)).symm

theorem upsert_rejects {sql : Sql} {row : EntryRow} {e : SqlError}
    (h : sql.upsert row = .error e) :
    Lww.Rejects EntryRow.pk EntryRow.modifiedAtMicros sql.entries.find? row ∧
      e = .uniqueModifiedAtMicros := by
  rcases Sql.upsert_cases h with ⟨_, _, heq⟩ | ⟨_, heq⟩ | ⟨htaken, hnew, heq⟩
  · contradiction
  · contradiction
  · cases heq
    exact ⟨⟨hnew, modifiedTaken_iff.mp htaken⟩, rfl⟩

/-! ### Puts with an explicit timestamp -/

def CfgGetItem.req (item : CfgGetItem) : CfgPutReq :=
  ⟨item.key, item.value, item.expiresAtMicros, some item.modifiedAtMicros⟩

theorem upsertValue_explicit {n : Node} {item : CfgGetItem} {clock : ℕ → ℤ}
    (h : checkValue item.key item.value = .ok ()) :
    upsertValue n item.req clock =
      match n.sql.upsert item.row with
      | .ok (sql, _) => (.ok (), ⟨sql, max n.counter item.modifiedAtMicros⟩)
      | .error e => (.error (.sql e), ⟨n.sql, max n.counter item.modifiedAtMicros⟩) := by
  have hrow := (cfgRow_ok h item.expiresAtMicros item.modifiedAtMicros).upsert n.sql
  cases hup : n.sql.upsert item.row with
  | ok res =>
      have hup : n.sql.upsert (cfgRow item.key item.value item.expiresAtMicros
        item.modifiedAtMicros) = .ok res := hup
      simp only [upsertValue, CfgGetItem.req, h, hrow, hup]
  | error e =>
      have hup : n.sql.upsert (cfgRow item.key item.value item.expiresAtMicros
        item.modifiedAtMicros) = .error e := hup
      simp only [upsertValue, CfgGetItem.req, h, hrow, hup]

/-! ### Replaying -/

/-- Replay entries one after another, going on past an error. Returns the entries
that failed. A put with an explicit timestamp does not read the clock. -/
def replay : List CfgGetItem → Node → List (CfgGetItem × IoError) × Node
  | [], n => ([], n)
  | item :: items, n =>
      match upsertValue n item.req (fun _ => 0) with
      | (.ok (), n) => replay items n
      | (.error e, n) =>
          let (rejected, n) := replay items n
          ((item, e) :: rejected, n)

theorem replay_offers {items : List CfgGetItem} {n n' : Node}
    {rejected : List (CfgGetItem × IoError)}
    (hitems : ∀ item ∈ items, checkValue item.key item.value = .ok ())
    (h : replay items n = (rejected, n')) :
    Lww.Offers EntryRow.pk EntryRow.modifiedAtMicros n.sql.entries.find?
      (items.map CfgGetItem.row) (rejected.map fun r => r.1.row) n'.sql.entries.find? ∧
    ∀ r ∈ rejected, r.2 = .sql .uniqueModifiedAtMicros := by
  induction items generalizing n rejected with
  | nil =>
      cases h
      exact ⟨.nil _, by simp⟩
  | cons item items ih =>
      have hrest : ∀ item ∈ items, checkValue item.key item.value = .ok () :=
        fun item' hmem => hitems item' (List.mem_cons_of_mem _ hmem)
      rw [replay, upsertValue_explicit (hitems item List.mem_cons_self)] at h
      cases hup : n.sql.upsert item.row with
      | ok out =>
          obtain ⟨sql, applied⟩ := out
          simp only [hup] at h
          obtain ⟨hkeep, hdeliver⟩ := upsert_delivers hup
          obtain ⟨hoffers, herrs⟩ := ih hrest h
          simp only [hdeliver] at hoffers
          exact ⟨.accept hkeep hoffers, herrs⟩
      | error e =>
          simp only [hup] at h
          obtain ⟨hrej, rfl⟩ := upsert_rejects hup
          cases hreplay : replay items ⟨n.sql, max n.counter item.modifiedAtMicros⟩ with
          | mk rejected₁ n₁ =>
              simp only [hreplay] at h
              cases h
              obtain ⟨hoffers, herrs⟩ := ih hrest hreplay
              refine ⟨.reject hrej hoffers, ?_⟩
              intro r hr
              rcases List.mem_cons.mp hr with rfl | hr
              · rfl
              · exact herrs r hr

theorem CfgOk.replay {items : List CfgGetItem} {n : Node} (hsql : CfgOk n.sql) :
    CfgOk (replay items n).2.sql := by
  induction items generalizing n with
  | nil => exact hsql
  | cons item items ih =>
      rw [Back.replay]
      split
      · rename_i heq
        exact ih (hsql.upsertValue heq)
      · rename_i heq
        exact ih (hsql.upsertValue heq)

/-! ### Convergence -/

/-- Explicit writes within the limits, each with a timestamp of its own. -/
structure WriteSet where
  writes : Finset CfgGetItem
  key_le : ∀ w ∈ writes, w.key.utf8ByteSize ≤ cfgKeyMax
  value_le : ∀ w ∈ writes, (utf8 w.value).length ≤ cfgValueMax
  distinct : ∀ v ∈ writes, ∀ w ∈ writes, v.modifiedAtMicros = w.modifiedAtMicros → v = w

def WriteSet.IsLatest (W : WriteSet) (item : CfgGetItem) : Prop :=
  item ∈ W.writes ∧ ∀ w ∈ W.writes, w.key = item.key → w.modifiedAtMicros ≤ item.modifiedAtMicros

theorem WriteSet.mem_seen (W : WriteSet) {ds : List CfgGetItem} (hds : ∀ w, w ∈ ds ↔ w ∈ W.writes)
    {item : CfgGetItem} {w : EntryRow} :
    w ∈ Lww.seen EntryRow.pk Sql.empty.entries.find? (ds.map CfgGetItem.row) item.row.pk ↔
      ∃ v ∈ W.writes, v.row = w ∧ v.key = item.key := by
  simp only [Lww.seen, Set.mem_ofPred_eq, Sql.empty, Table.find?_empty, Option.mem_def,
    reduceCtorEq, false_or, List.mem_map, hds]
  constructor
  · rintro ⟨⟨v, hv, rfl⟩, hpk⟩
    exact ⟨v, hv, rfl, (Prod.mk.inj hpk).2⟩
  · rintro ⟨v, hv, rfl, hkey⟩
    exact ⟨⟨v, hv, rfl⟩, by simp [EntryRow.pk, CfgGetItem.row, cfgRow, hkey]⟩

/-- Every delivery of a write set to an empty database succeeds, and leaves the
latest write of each key. -/
theorem WriteSet.delivered (W : WriteSet) {ds : List CfgGetItem}
    (hds : ∀ w, w ∈ ds ↔ w ∈ W.writes) (counter : ℤ) :
    (replay ds ⟨Sql.empty, counter⟩).1 = [] ∧
      ∀ item, item ∈ items (replay ds ⟨Sql.empty, counter⟩).2.sql ↔ W.IsLatest item := by
  have hlimits : ∀ item ∈ ds, checkValue item.key item.value = .ok () := fun item hmem =>
    checkValue_ok_iff.mpr ⟨W.key_le _ ((hds _).mp hmem), W.value_le _ ((hds _).mp hmem)⟩
  have hempty : CfgOk (Node.mk Sql.empty counter).sql := fun e he => absurd he List.not_mem_nil
  have hcfg : CfgOk (replay ds ⟨Sql.empty, counter⟩).2.sql := hempty.replay
  obtain ⟨hoffers, _⟩ := replay_offers (n := ⟨Sql.empty, counter⟩) hlimits rfl
  have htimes : ∀ v ∈ ds.map CfgGetItem.row, ∀ w ∈ ds.map CfgGetItem.row,
      v.modifiedAtMicros = w.modifiedAtMicros → v = w := by
    intro _ hrow _ hrow' htime
    obtain ⟨v, hv, rfl⟩ := List.mem_map.mp hrow
    obtain ⟨w, hw, rfl⟩ := List.mem_map.mp hrow'
    rw [W.distinct v ((hds v).mp hv) w ((hds w).mp hw) htime]
  -- no two keys share a time, so nothing is rejected and the replay is a fold
  obtain ⟨hnone, hfold⟩ := hoffers.eq_foldl (fun k v hv => absurd hv (by simp [Sql.empty]))
    fun v hv w hw htime => congrArg EntryRow.pk (htimes v hv w hw htime)
  refine ⟨List.map_eq_nil_iff.mp hnone, fun item => ?_⟩
  have hinj : Set.InjOn EntryRow.modifiedAtMicros (Lww.seen EntryRow.pk Sql.empty.entries.find?
      (ds.map CfgGetItem.row) item.row.pk) := by
    intro _ hrow _ hrow' htime
    obtain ⟨v, hv, rfl, _⟩ := (W.mem_seen hds).mp hrow
    obtain ⟨w, hw, rfl, _⟩ := (W.mem_seen hds).mp hrow'
    rw [W.distinct v hv w hw htime]
  have hheld : item.row ∈ (replay ds ⟨Sql.empty, counter⟩).2.sql.entries.rows ↔
      (replay ds ⟨Sql.empty, counter⟩).2.sql.entries.find? item.row.pk = some item.row := by
    simp [Table.find?_eq_some_iff]
  rw [hcfg.mem_items, hheld, hfold, Lww.foldl_deliver_eq_some_iff hinj]
  constructor
  · rintro ⟨hmem, hmax⟩
    obtain ⟨v, hv, hrow, _⟩ := (W.mem_seen hds).mp hmem
    cases row_injective hrow
    exact ⟨hv, fun w hw hkey => hmax w.row ((W.mem_seen hds).mpr ⟨w, hw, rfl, hkey⟩)⟩
  · rintro ⟨hmem, hmax⟩
    refine ⟨(W.mem_seen hds).mpr ⟨item, hmem, rfl, rfl⟩, fun w hrow => ?_⟩
    obtain ⟨v, hv, rfl, hkey⟩ := (W.mem_seen hds).mp hrow
    exact hmax v hv hkey

/-- Whatever sequence delivers the writes of a set, to whatever counter, every
delivery succeeds and `read_all` returns the latest write of each key by
ascending key, as many as its limit of `i64::MAX` lets through. -/
theorem deliveries_converge (W : WriteSet) :
    ∃ latest : List CfgGetItem, latest.Pairwise KeyLt ∧ (∀ item, item ∈ latest ↔ W.IsLatest item) ∧
      ∀ (ds : List CfgGetItem) (counter : ℤ), (∀ w, w ∈ ds ↔ w ∈ W.writes) →
        (replay ds ⟨Sql.empty, counter⟩).1 = [] ∧
        readAll (replay ds ⟨Sql.empty, counter⟩).2.sql = .ok (latest.take i64Max.toNat) := by
  have hlist : ∀ w, w ∈ W.writes.toList ↔ w ∈ W.writes := fun w => Finset.mem_toList
  refine ⟨items (replay W.writes.toList ⟨Sql.empty, 0⟩).2.sql, items_pairwise _,
    (W.delivered hlist 0).2, fun ds counter hds => ?_⟩
  obtain ⟨hok, hitems⟩ := W.delivered hds counter
  have hempty : CfgOk (Node.mk Sql.empty counter).sql := fun e he => absurd he List.not_mem_nil
  have hsame : items (replay ds ⟨Sql.empty, counter⟩).2.sql =
      items (replay W.writes.toList ⟨Sql.empty, 0⟩).2.sql :=
    (items_pairwise _).eq_of_mem_iff (items_pairwise _) fun item => by
      rw [hitems, (W.delivered hlist 0).2]
  refine ⟨hok, ?_⟩
  rw [readAll_take hempty.replay, ← hsame, items, List.map_take]

/-- Two writes of a key and one of another, the later of the two delivered first
and again at the end. -/
theorem deliveries_converge_three :
    (replay [⟨"k", "b", 7, none⟩, ⟨"k", "a", 3, some 9⟩, ⟨"j", "", 5, none⟩, ⟨"k", "b", 7, none⟩]
      Node.init).1 = [] := by
  obtain ⟨_, _, _, h⟩ := deliveries_converge
    ⟨{⟨"k", "a", 3, some 9⟩, ⟨"k", "b", 7, none⟩, ⟨"j", "", 5, none⟩}, by decide, by decide,
      by decide⟩
  exact (h _ 0 (by simp; tauto)).1

/-! ### Merging one database into another -/

theorem itemAt_time_lt {sql : Sql} {key : String} {t : ℤ} :
    (∀ b ∈ itemAt sql key, b.modifiedAtMicros < t) ↔
      ∀ e ∈ sql.entries.find? (cfgClass, key), e.modifiedAtMicros < t := by
  simp [itemAt, EntryRow.item]

/-- The entries a node exports: by ascending key, each with a timestamp of its own
and within the limits. -/
structure Exported (exported : List CfgGetItem) : Prop where
  sorted : exported.Pairwise KeyLt
  times : exported.Pairwise (fun a b => a.modifiedAtMicros ≠ b.modifiedAtMicros)
  limits : ∀ a ∈ exported, checkValue a.key a.value = .ok ()

theorem CfgOk.exported {sql : Sql} (hsql : CfgOk sql) {exported : List CfgGetItem}
    (h : readAll sql = .ok exported) : Exported exported := by
  rw [readAll_take hsql, Except.ok.injEq, List.map_take] at h
  have hsub : exported.Sublist (items sql) := h ▸ List.take_sublist _ _
  have hsorted : exported.Pairwise KeyLt := (items_pairwise sql).sublist hsub
  have hrow : ∀ a ∈ exported, a.row ∈ sql.entries.rows :=
    fun a ha => hsql.mem_items.mp (hsub.subset ha)
  refine ⟨hsorted, hsorted.imp_of_mem fun {a b} ha hb hlt htime => ?_, fun a ha => ?_⟩
  · have heq := row_injective (sql.modified_unique a.row (hrow a ha) b.row (hrow b hb) htime)
    exact lt_irrefl _ (heq ▸ hlt : KeyLt b b)
  · have hcheck := (hsql _ (hrow a ha)).checkValue
    rwa [item_row] at hcheck

theorem mem_rejected_rows {a : CfgGetItem} {rejected : List (CfgGetItem × IoError)} :
    a.row ∈ rejected.map (fun r => r.1.row) ↔ a ∈ rejected.map Prod.fst := by
  simp only [List.mem_map]
  constructor
  · rintro ⟨r, hr, hrow⟩
    exact ⟨r, hr, row_injective hrow⟩
  · rintro ⟨r, hr, rfl⟩
    exact ⟨r, hr, rfl⟩

/-- What replaying a node's entries into the database `B` comes to. An entry fails
if and only if it is newer than what `B` has under its key and another key of `B`
has its timestamp, unless a newer entry has been taken for that key before. -/
structure Merged (B B' : Sql) (exported : List CfgGetItem)
    (rejected : List (CfgGetItem × IoError)) : Prop where
  rejects : ∀ a ∈ exported, a ∈ rejected.map Prod.fst ↔
    (∀ b ∈ itemAt B a.key, b.modifiedAtMicros < a.modifiedAtMicros) ∧
    ∃ k, k ≠ a.key ∧ ∃ b ∈ itemAt B k, b.modifiedAtMicros = a.modifiedAtMicros ∧
      ¬∃ c ∈ exported, KeyLt c a ∧ c.key = k ∧ b.modifiedAtMicros < c.modifiedAtMicros ∧
        c ∉ rejected.map Prod.fst
  error : ∀ r ∈ rejected, r.1 ∈ exported ∧ r.2 = .sql .uniqueModifiedAtMicros
  takes : ∀ a ∈ exported, a ∉ rejected.map Prod.fst →
    itemAt B' a.key = Lww.later CfgGetItem.modifiedAtMicros (itemAt B a.key) a
  keeps : ∀ k, (∀ a ∈ exported, a.key = k → a ∈ rejected.map Prod.fst) →
    itemAt B' k = itemAt B k

theorem later_item (o : Option EntryRow) (a : CfgGetItem) :
    (Lww.later EntryRow.modifiedAtMicros o a.row).map EntryRow.item =
      Lww.later CfgGetItem.modifiedAtMicros (o.map EntryRow.item) a := by
  cases o with
  | none => simp [Lww.later]
  | some e =>
      by_cases hlt : e.modifiedAtMicros < a.modifiedAtMicros
      · have hrow : e.modifiedAtMicros < a.row.modifiedAtMicros := hlt
        have hitem : (EntryRow.item e).modifiedAtMicros < a.modifiedAtMicros := hlt
        simp [Lww.later, hrow, hitem]
      · have hrow : ¬e.modifiedAtMicros < a.row.modifiedAtMicros := hlt
        have hitem : ¬(EntryRow.item e).modifiedAtMicros < a.modifiedAtMicros := hlt
        simp [Lww.later, hrow, hitem]

theorem Exported.merged {exported : List CfgGetItem} (hexp : Exported exported) {B B' : Node}
    {rejected : List (CfgGetItem × IoError)} (hB : CfgOk B.sql)
    (h : replay exported B = (rejected, B')) : Merged B.sql B'.sql exported rejected := by
  obtain ⟨hoffers, herror⟩ := replay_offers hexp.limits h
  have hkeys : (exported.map CfgGetItem.row).Pairwise (fun a b => a.pk ≠ b.pk) :=
    List.pairwise_map.mpr (hexp.sorted.imp fun {a b} hlt hpk =>
      ne_of_lt hlt (congrArg byteOrder (Prod.mk.inj hpk).2))
  have htimes : (exported.map CfgGetItem.row).Pairwise
      (fun a b => a.modifiedAtMicros ≠ b.modifiedAtMicros) := List.pairwise_map.mpr hexp.times
  have hsorted : (exported.map CfgGetItem.row).Pairwise
      (fun a b => byteOrder a.key < byteOrder b.key) := List.pairwise_map.mpr hexp.sorted
  have hrejected := fun {w} hw => hoffers.mem_rejected_iff hkeys htimes
    (fun a b => lt_asymm (a := byteOrder a.key)) hsorted (w := w) hw
  refine ⟨fun a ha => ?_, fun r hr => ⟨?_, herror r hr⟩, fun a ha hnot => ?_, fun k hk => ?_⟩
  · rw [← mem_rejected_rows, hrejected (List.mem_map_of_mem ha)]
    refine and_congr itemAt_time_lt.symm ⟨?_, ?_⟩
    · rintro ⟨k, hk, v, hv, htime, hnone⟩
      obtain ⟨hmem, rfl⟩ := Table.find?_eq_some_iff.mp hv
      have hpk : v.pk = (cfgClass, v.key) := by rw [EntryRow.pk, (hB v hmem).cls]
      refine ⟨v.key, fun hkey => hk (by rw [hpk, hkey]; rfl), EntryRow.item v, ?_, htime, ?_⟩
      · rw [hpk] at hv
        exact Option.mem_map_of_mem _ hv
      · rintro ⟨c, hc, hlt, hkey, hnewer, hacc⟩
        exact hnone ⟨c.row, List.mem_map_of_mem hc, hlt, by rw [hpk, ← hkey]; rfl, hnewer,
          fun hrej => hacc (mem_rejected_rows.mp hrej)⟩
    · rintro ⟨k, hk, b, hb, htime, hnone⟩
      obtain ⟨v, hv, rfl⟩ := Option.map_eq_some_iff.mp hb
      refine ⟨(cfgClass, k), fun hpk => hk (Prod.mk.inj hpk).2, v, hv, htime, ?_⟩
      rintro ⟨u, hu, hlt, hpk, hnewer, hacc⟩
      obtain ⟨c, hc, rfl⟩ := List.mem_map.mp hu
      exact hnone ⟨c, hc, hlt, (Prod.mk.inj hpk).2, hnewer,
        fun hrej => hacc (mem_rejected_rows.mpr hrej)⟩
  · have hmem := hoffers.sublist.subset (List.mem_map_of_mem hr)
    obtain ⟨a, ha, hrow⟩ := List.mem_map.mp hmem
    rwa [← row_injective hrow]
  · rw [itemAt, itemAt, ← later_item]
    exact congrArg _ ((hoffers.result hkeys (List.mem_map_of_mem ha)).2
      fun hrej => hnot (mem_rejected_rows.mp hrej))
  · rw [itemAt, itemAt]
    congr 1
    by_cases hin : ∃ a ∈ exported, a.key = k
    · obtain ⟨a, ha, rfl⟩ := hin
      exact (hoffers.result hkeys (List.mem_map_of_mem ha)).1
        (mem_rejected_rows.mpr (hk a ha rfl))
    · refine hoffers.frame fun w hw hpk => hin ?_
      obtain ⟨a, ha, rfl⟩ := List.mem_map.mp hw
      exact ⟨a, ha, (Prod.mk.inj hpk).2⟩

/-- Replaying what one node reads into another takes every entry that is newer
than its key's, except those whose timestamp another key holds at that moment.
If there are none, every put succeeds. -/
theorem replay_merges {A B : Node} (hA : A.Reachable) (hB : B.Reachable) :
    ∃ exported, readAll A.sql = .ok exported ∧
      Merged B.sql (replay exported B).2.sql exported (replay exported B).1 ∧
      ((∀ a ∈ exported, ∀ k, ∀ b ∈ itemAt B.sql k,
        b.modifiedAtMicros = a.modifiedAtMicros → k = a.key) → (replay exported B).1 = []) := by
  have hread := readAll_take hA.cfgOk
  have hmerged := (hA.cfgOk.exported hread).merged hB.cfgOk (Prod.eta (replay _ B)).symm
  refine ⟨_, hread, hmerged, fun hfree => List.eq_nil_iff_forall_not_mem.mpr fun r hr => ?_⟩
  have hmem := (hmerged.error r hr).1
  obtain ⟨_, k, hk, b, hb, htime, _⟩ := (hmerged.rejects r.1 hmem).mp (List.mem_map_of_mem hr)
  exact hk (hfree r.1 hmem k b hb htime)

def Node.ofPut (req : CfgPutReq) : Node := (upsertValue Node.init req fun _ => 1000).2

theorem Node.ofPut_reachable (req : CfgPutReq) : (Node.ofPut req).Reachable :=
  Reach.tail (.put req fun _ => 1000) .refl trivial rfl

/-- An entry takes the place of an older one. -/
theorem replay_merges_newer :
    ∃ exported, readAll (Node.ofPut ⟨"k", "new", none, none⟩).sql = .ok exported ∧
      (replay exported (Node.ofPut ⟨"k", "old", none, some 1⟩)).1 = [] := by
  obtain ⟨exported, hread, _, hall⟩ := replay_merges
    (Node.ofPut_reachable ⟨"k", "new", none, none⟩) (Node.ofPut_reachable ⟨"k", "old", none, some 1⟩)
  have heq : readAll (Node.ofPut ⟨"k", "new", none, none⟩).sql =
      .ok [⟨"k", "new", 1000, none⟩] := by decide +kernel
  cases heq.symm.trans hread
  have htimes : ∀ e ∈ (Node.ofPut ⟨"k", "old", none, some 1⟩).sql.entries.rows,
      e.modifiedAtMicros ≠ 1000 := by decide +kernel
  refine ⟨_, hread, hall fun a ha k b hb htime => ?_⟩
  obtain ⟨e, he, rfl⟩ := Option.map_eq_some_iff.mp hb
  rw [List.mem_singleton.mp ha] at htime
  exact absurd htime (htimes e (Table.find?_eq_some_iff.mp he).1)

/-- Two nodes give two keys one timestamp. -/
theorem replay_rejects :
    ∃ (A B : Node) (exported : List CfgGetItem), A.Reachable ∧ B.Reachable ∧ readAll A.sql = .ok exported ∧
      (replay exported B).1 ≠ [] ∧ itemAt (replay exported B).2.sql "a" = none ∧
      itemAt A.sql "a" ≠ none :=
  ⟨Node.ofPut ⟨"a", "", none, none⟩, Node.ofPut ⟨"b", "", none, none⟩,
    [⟨"a", "", 1000, none⟩], Node.ofPut_reachable _, Node.ofPut_reachable _,
    by decide +kernel, by decide +kernel, by decide +kernel, by decide +kernel⟩

end VmIo.Back
