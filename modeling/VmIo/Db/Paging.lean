import VmIo.Db.Store
import VmIo.Lib.Paging

/-!
Paging through the entries of a class by timestamp.

`list` with the filter `ModifiedAtMicrosRange` and the sort
`ModifiedAtMicrosAsc` yields a page in the sense of `Lib.Paging`
(`isPage_list`), because no two entries have one timestamp. An upsert that is
applied gives its entry a later timestamp, so a scan that other writers run
beside misses nothing (`list_pages`).
-/

namespace VmIo.Db

open VmIo.Lib

/-- `i64` -/
def InI64 (t : ℤ) : Prop := -9223372036854775808 ≤ t ∧ t ≤ i64Max

instance (t : ℤ) : Decidable (InI64 t) := inferInstanceAs (Decidable (_ ∧ _))

def Sql.Fits (sql : Sql) : Prop := ∀ e ∈ sql.entries.rows, InI64 e.modifiedAtMicros

instance (sql : Sql) : Decidable sql.Fits := inferInstanceAs (Decidable (∀ e ∈ _, _))

/-! ### Upserts between two pages -/

def upsertStep (sql : Sql) (row : EntryRow) : Option Sql :=
  match upsert sql row with
  | .ok (sql', _) => some sql'
  | .error _ => some sql

/-- The upsert is superseded or rejected. -/
def NotApplied (sql : Sql) (row : EntryRow) : Prop :=
  match upsert sql row with
  | .ok (_, applied) => applied = false
  | .error _ => True

instance (sql : Sql) (row : EntryRow) : Decidable (NotApplied sql row) := by
  unfold NotApplied
  split <;> infer_instance

/-- An upsert writes its row as the newest of its key or leaves the database as it is. -/
theorem upsertStep_cases {sql sql' : Sql} {row : EntryRow} (h : upsertStep sql row = some sql') :
    (∃ hfree : ¬sql.ModifiedTaken row, sql.Newer row ∧ sql' = sql.putEntry row hfree ∧
      ¬NotApplied sql row) ∨ sql' = sql := by
  unfold upsertStep at h
  unfold NotApplied
  unfold upsert at h ⊢
  cases hcheck : checkEntry row with
  | error e =>
      simp only [hcheck, Option.some.injEq] at h
      exact .inr h.symm
  | ok u =>
      simp only [hcheck] at h ⊢
      cases hup : sql.upsert row with
      | error e =>
          simp only [hup, Option.some.injEq] at h
          exact .inr h.symm
      | ok res =>
          simp only [hup, Option.some.injEq] at h ⊢
          subst h
          rcases Sql.upsert_cases hup with ⟨hfree, hnew, heq⟩ | ⟨_, heq⟩ | ⟨_, _, heq⟩
          · cases heq
            exact .inl ⟨hfree, hnew, rfl, by simp⟩
          · cases heq
            exact .inr rfl
          · contradiction

/-! ### One page -/

@[simp] theorem startAccepts_included (s t : ℤ) :
    (Bound.included s).startAccepts t = true ↔ s ≤ t := decide_eq_true_iff

@[simp] theorem startAccepts_excluded (s t : ℤ) :
    (Bound.excluded s).startAccepts t = true ↔ s < t := decide_eq_true_iff

/-- The entries of a class, as a listing shows them. -/
def Sql.Shows (sql : Sql) (cls : String) (entry : VmIoDbEntry) : Prop :=
  ∃ e ∈ sql.entries.rows, e.cls = cls ∧ entry = sql.toEntry e

def page (sql : Sql) (cls : String) (start : Bound) (n : ℤ) : List VmIoDbEntry :=
  sql.list cls (.modifiedAtMicrosRange start .unbounded) .modifiedAtMicrosAsc n

def Sql.ordered (sql : Sql) (cls : String) (start : Bound) : List EntryRow :=
  (sql.entries.rows.filter (fun e =>
    e.cls = cls && (VmIoDbListFilter.modifiedAtMicrosRange start .unbounded).accepts e)).insertionSort
      VmIoDbListSort.modifiedAtMicrosAsc.le

theorem page_eq {sql : Sql} {cls : String} {start : Bound} {n : ℤ} (hn : 1 ≤ n) :
    page sql cls start n = ((sql.ordered cls start).take n.toNat).map sql.toEntry := by
  have hpos : ¬n < 0 := by omega
  simp only [page, Sql.list, Sql.sqlLimit, Sql.ordered, if_neg hpos]

theorem Sql.mem_ordered {sql : Sql} (hfits : sql.Fits) {cls : String} {start : Bound}
    {e : EntryRow} : e ∈ sql.ordered cls start ↔
      e ∈ sql.entries.rows ∧ e.cls = cls ∧ start.startAccepts e.modifiedAtMicros = true := by
  rw [Sql.ordered, List.mem_insertionSort, List.mem_filter]
  simp only [VmIoDbListFilter.accepts, Bool.and_eq_true, decide_eq_true_eq, and_congr_right_iff]
  intro he
  have hmax : Bound.unbounded.stopAccepts e.modifiedAtMicros = true := by
    simpa [Bound.stopAccepts] using (hfits e he).2
  simp [hmax]

theorem Sql.entries_nodup (sql : Sql) : sql.entries.rows.Nodup :=
  sql.entries.nodup.of_map _

instance : Std.Total VmIoDbListSort.modifiedAtMicrosAsc.le where
  total a b := le_total a.modifiedAtMicros b.modifiedAtMicros

instance : IsTrans EntryRow VmIoDbListSort.modifiedAtMicrosAsc.le where
  trans a _ c hab hbc := show a.modifiedAtMicros ≤ c.modifiedAtMicros from le_trans hab hbc

theorem Sql.ordered_sorted (sql : Sql) (cls : String) (start : Bound) :
    (sql.ordered cls start).Pairwise (fun a b => a.modifiedAtMicros < b.modifiedAtMicros) := by
  have hle : (sql.ordered cls start).Pairwise VmIoDbListSort.modifiedAtMicrosAsc.le :=
    List.pairwise_insertionSort _ _
  have hnodup : (sql.ordered cls start).Nodup :=
    (List.perm_insertionSort _ _).nodup_iff.mpr (sql.entries_nodup.filter _)
  refine (hle.and hnodup).imp_of_mem ?_
  rintro a b ha hb ⟨hab, hne⟩
  rw [Sql.ordered, List.mem_insertionSort, List.mem_filter] at ha hb
  exact lt_of_le_of_ne hab fun heq => hne (sql.modified_unique a ha.1 b hb.1 heq)

theorem isPage_list {sql : Sql} (hfits : sql.Fits) (cls : String) (start : Bound) {n : ℤ}
    (hn : 1 ≤ n) :
    IsPage VmIoDbEntry.modifiedAtMicros (sql.Shows cls) (fun t => start.startAccepts t = true)
      n.toNat (page sql cls start n) := by
  rw [page_eq hn]
  have hsorted := sql.ordered_sorted cls start
  have hsplit := List.take_append_drop n.toNat (sql.ordered cls start)
  constructor
  · rw [List.pairwise_map]
    exact hsorted.sublist (List.take_sublist _ _)
  · intro entry hentry
    obtain ⟨e, he, rfl⟩ := List.mem_map.mp hentry
    obtain ⟨he, hcls, hstart⟩ := (Sql.mem_ordered hfits).mp (List.mem_of_mem_take he)
    exact ⟨⟨e, he, hcls, rfl⟩, hstart⟩
  · simp
  · rintro _ ⟨e, he, hcls, rfl⟩ hstart
    have hmem : e ∈ sql.ordered cls start := (Sql.mem_ordered hfits).mpr ⟨he, hcls, hstart⟩
    rw [← hsplit] at hmem hsorted
    rcases List.mem_append.mp hmem with hmem | hmem
    · exact .inl (List.mem_map_of_mem hmem)
    · right
      have hlong : n.toNat < (sql.ordered cls start).length := by
        by_contra hshort
        rw [List.drop_eq_nil_of_le (by omega)] at hmem
        contradiction
      refine ⟨by simp; omega, fun entry hentry => ?_⟩
      obtain ⟨b, hb, rfl⟩ := List.mem_map.mp hentry
      exact (List.pairwise_append.mp hsorted).2.2 b hb e hmem

/-! ### The scan -/

/-- A scan by timestamp: pages of `n` entries, each starting after the last
timestamp of the one before, until one has fewer. Upserts that `ok` admits
commit between two pages. -/
inductive PageScan (ok : Sql → EntryRow → Prop) (cls : String) (n : ℤ) :
    Bound → Sql → List VmIoDbEntry → Prop
  | last {start : Bound} {sql : Sql} (h : ((page sql cls start n).length : ℤ) < n) :
      PageScan ok cls n start sql (page sql cls start n)
  | more {start : Bound} {sql sql' : Sql} {entry : VmIoDbEntry} {rest : List VmIoDbEntry}
      (h : n ≤ (page sql cls start n).length)
      (hlast : (page sql cls start n).getLast? = some entry)
      (hups : Reach upsertStep ok sql sql')
      (hrest : PageScan ok cls n (.excluded entry.modifiedAtMicros) sql' rest) :
      PageScan ok cls n start sql (page sql cls start n ++ rest)

theorem Sql.Fits.step {sql sql' : Sql} {row : EntryRow} (hfits : sql.Fits)
    (hrow : InI64 row.modifiedAtMicros) (h : upsertStep sql row = some sql') : sql'.Fits := by
  rcases upsertStep_cases h with ⟨hfree, _, rfl, _⟩ | rfl
  · intro e he
    rcases Table.mem_put.mp he with rfl | ⟨he, _⟩
    · exact hrow
    · exact hfits e he
  · exact hfits

theorem PageScan.scan {ok : Sql → EntryRow → Prop} {cls : String} {n : ℤ} (hn : 1 ≤ n)
    (hok : ∀ sql row, ok sql row → InI64 row.modifiedAtMicros) {start : Bound} {sql : Sql}
    {l : List VmIoDbEntry} (hfits : sql.Fits) (h : PageScan ok cls n start sql l) :
    Scan VmIoDbEntry.modifiedAtMicros (fun sql : Sql => sql.Shows cls) (Reach upsertStep ok) n.toNat
      (fun t => start.startAccepts t = true) sql l := by
  induction h with
  | last h => exact .last (isPage_list hfits cls _ hn) (by omega)
  | more h hlast hups _ ih =>
      refine .more (isPage_list hfits cls _ hn) hlast hups ?_
      have hfits' := hups.invariant hfits
        (fun _ row _ hfits hok' hs => hfits.step (hok _ row hok') hs)
      simpa only [startAccepts_excluded] using ih hfits'

/-- The entry, unchanged or in a newer version. -/
def VmIoDbEntry.Newer (a b : VmIoDbEntry) : Prop :=
  b = a ∨ b.cls = a.cls ∧ b.key = a.key ∧ a.modifiedAtMicros < b.modifiedAtMicros

theorem VmIoDbEntry.Newer.trans {a b c : VmIoDbEntry} (hab : a.Newer b) (hbc : b.Newer c) :
    a.Newer c := by
  rcases hab with rfl | ⟨hcls, hkey, hlt⟩
  · exact hbc
  · rcases hbc with rfl | ⟨hcls', hkey', hlt'⟩
    · exact .inr ⟨hcls, hkey, hlt⟩
    · exact .inr ⟨hcls'.trans hcls, hkey'.trans hkey, hlt.trans hlt'⟩

theorem VmIoDbEntry.Newer.le {a b : VmIoDbEntry} (h : a.Newer b) :
    a.modifiedAtMicros ≤ b.modifiedAtMicros := by
  rcases h with rfl | ⟨_, _, hlt⟩
  · exact le_rfl
  · exact hlt.le

theorem Sql.Shows.step {sql sql' : Sql} {row : EntryRow} {cls : String} {a : VmIoDbEntry}
    (ha : sql.Shows cls a) (h : upsertStep sql row = some sql') :
    ∃ b, sql'.Shows cls b ∧ a.Newer b := by
  rcases upsertStep_cases h with ⟨hfree, hnew, rfl, _⟩ | rfl
  · obtain ⟨e, he, hcls, rfl⟩ := ha
    by_cases hpk : e.pk = row.pk
    · -- the entry itself is written
      have hlt := hnew e (Table.find?_eq_some_iff.mpr ⟨he, hpk⟩)
      obtain ⟨hc, hk⟩ := Prod.mk.inj hpk
      exact ⟨sql.toEntry row, ⟨row, Table.mem_put.mpr (.inl rfl), hc ▸ hcls, rfl⟩,
        .inr ⟨hc.symm, hk.symm, hlt⟩⟩
    · exact ⟨sql.toEntry e, ⟨e, Table.mem_put.mpr (.inr ⟨he, hpk⟩), hcls, rfl⟩, .inl rfl⟩
  · exact ⟨a, ha, .inl rfl⟩

theorem Sql.Shows.upserts {ok : Sql → EntryRow → Prop} {sql sql' : Sql} {cls : String}
    (h : Reach upsertStep ok sql sql') {a : VmIoDbEntry} (ha : sql.Shows cls a) :
    ∃ b, sql'.Shows cls b ∧ a.Newer b := by
  refine h.invariant (I := fun sql' => ∃ b, sql'.Shows cls b ∧ a.Newer b) ⟨a, ha, .inl rfl⟩ ?_
  rintro s row s' ⟨b, hb, hab⟩ _ hs
  obtain ⟨c, hc, hbc⟩ := hb.step hs
  exact ⟨c, hc, hab.trans hbc⟩

theorem upserts_eq {ok : Sql → EntryRow → Prop} (hok : ∀ sql row, ok sql row → NotApplied sql row)
    {sql sql' : Sql} (h : Reach upsertStep ok sql sql') : sql' = sql := by
  refine h.invariant (I := fun sql' => sql' = sql) rfl ?_
  rintro s row s' rfl hrow hs
  rcases upsertStep_cases hs with ⟨_, _, _, happlied⟩ | rfl
  · exact absurd (hok _ _ hrow) happlied
  · rfl

/-- The cursor moves: fewer rows are past the last entry of a page than were past
its start. -/
theorem Sql.ordered_length_lt {sql : Sql} (hfits : sql.Fits) {cls : String} {start : Bound}
    {n : ℤ} (hn : 1 ≤ n) {entry : VmIoDbEntry}
    (hlast : (page sql cls start n).getLast? = some entry) :
    (sql.ordered cls (.excluded entry.modifiedAtMicros)).length <
      (sql.ordered cls start).length := by
  have hmem := List.mem_of_getLast? hlast
  rw [page_eq hn] at hmem
  obtain ⟨e, he, rfl⟩ := List.mem_map.mp hmem
  have he := List.mem_of_mem_take he
  have hout : e ∉ sql.ordered cls (.excluded e.modifiedAtMicros) := by
    rw [Sql.mem_ordered hfits, startAccepts_excluded]
    exact fun h => h.2.2.false
  have hsub : e :: sql.ordered cls (.excluded e.modifiedAtMicros) ⊆ sql.ordered cls start := by
    have hstart := ((Sql.mem_ordered hfits).mp he).2.2
    intro r hr
    rcases List.mem_cons.mp hr with rfl | hr
    · exact he
    · rw [Sql.mem_ordered hfits, startAccepts_excluded] at hr
      refine (Sql.mem_ordered hfits).mpr ⟨hr.1, hr.2.1, ?_⟩
      have hlt := hr.2.2
      cases start <;> simp only [Bound.startAccepts, decide_eq_true_eq] at hstart ⊢ <;> omega
  have hnodup := List.nodup_cons.mpr ⟨hout, (sql.ordered_sorted cls _).imp fun hab heq =>
    (heq ▸ hab).false⟩
  exact (List.subperm_of_subset hnodup hsub).length_le

theorem PageScan.exists_of_still (ok : Sql → EntryRow → Prop) (cls : String) {n : ℤ} (hn : 1 ≤ n)
    (start : Bound) {sql : Sql} (hfits : sql.Fits) : ∃ l, PageScan ok cls n start sql l := by
  induction hk : (sql.ordered cls start).length using Nat.strong_induction_on
    generalizing start with
  | _ k ih =>
      by_cases hshort : ((page sql cls start n).length : ℤ) < n
      · exact ⟨_, .last hshort⟩
      · cases hlast : (page sql cls start n).getLast? with
        | none =>
            rw [List.getLast?_eq_none_iff.mp hlast, List.length_nil] at hshort
            omega
        | some entry =>
            have hlt := Sql.ordered_length_lt hfits hn hlast
            obtain ⟨rest, hrest⟩ := ih _ (hk ▸ hlt) _ rfl
            exact ⟨_, .more (by omega) hlast .refl hrest⟩

/-- Over a scan by timestamp the timestamps returned strictly increase, and
every entry that was at or after the start when the scan began is returned, as
it was or in a newer version, whatever is upserted between the pages. When none
of these upserts is applied, exactly the entries at or after the start are
returned, each once. -/
theorem list_pages {cls : String} {n : ℤ} (hn : 1 ≤ n) (s : ℤ) {sql : Sql} (hfits : sql.Fits) :
    (∀ l, PageScan (fun _ row => InI64 row.modifiedAtMicros) cls n (.included s) sql l →
      l.Pairwise (fun a b => a.modifiedAtMicros < b.modifiedAtMicros) ∧
      ∀ e ∈ sql.entries.rows, e.cls = cls → s ≤ e.modifiedAtMicros →
        ∃ entry ∈ l, (sql.toEntry e).Newer entry) ∧
    ∀ l, PageScan (fun sql row => InI64 row.modifiedAtMicros ∧ NotApplied sql row) cls n
        (.included s) sql l →
      (∀ entry, entry ∈ l ↔ ∃ e ∈ sql.entries.rows, e.cls = cls ∧ s ≤ e.modifiedAtMicros ∧
        entry = sql.toEntry e) ∧ l.Nodup := by
  constructor
  · intro l h
    have hscan := h.scan hn (fun _ _ hrow => hrow) hfits
    refine ⟨hscan.sorted, fun e he hcls hs => ?_⟩
    show ∃ entry ∈ l, VmIoDbEntry.Newer (sql.toEntry e) entry
    exact hscan.finds (fun _ => .inl rfl)
      (fun _ _ _ hab hbc => hab.trans hbc) (fun _ _ hab => hab.le)
      (fun _ _ hups _ ha => ha.upserts hups) ⟨e, he, hcls, rfl⟩
      ((startAccepts_included s _).mpr hs)
  · intro l h
    have hscan := h.scan hn (fun _ _ hrow => hrow.1) hfits
    refine ⟨fun entry => ?_, hscan.nodup⟩
    have hmem := hscan.mem_iff
      (fun _ _ hups => by rw [upserts_eq (fun _ _ hrow => hrow.2) hups])
      (fun t u ht htu => by rw [startAccepts_included] at ht ⊢; omega) entry
    rw [hmem, startAccepts_included]
    constructor
    · rintro ⟨⟨e, he, hcls, rfl⟩, hs⟩
      exact ⟨e, he, hcls, hs, rfl⟩
    · rintro ⟨e, he, hcls, hs, rfl⟩
      exact ⟨⟨e, he, hcls, rfl⟩, hs⟩

/-- Pages of one entry, and the first entry is written anew after its page. -/
theorem list_pages_moving :
    ∃ (sql : Sql) (l : List VmIoDbEntry), sql.entries.rows.map EntryRow.key = ["b", "a"] ∧
      PageScan (fun _ row => InI64 row.modifiedAtMicros) "c" 1 (.included 0) sql l ∧
      l.map VmIoDbEntry.key = ["a", "b", "a"] ∧
      l.Pairwise (fun a b => a.modifiedAtMicros < b.modifiedAtMicros) ∧
      ∃ entry ∈ l, VmIoDbEntry.Newer ⟨"c", "b", 2, none, none, 0⟩ entry := by
  let start := (Sql.empty.putEntry ⟨"c", "a", 1, none, none⟩ (by decide)).putEntry
    ⟨"c", "b", 2, none, none⟩ (by decide)
  let later := start.putEntry ⟨"c", "a", 3, none, none⟩ (by decide)
  have hups : Reach upsertStep (fun _ row => InI64 row.modifiedAtMicros) start later :=
    .tail ⟨"c", "a", 3, none, none⟩ .refl (by decide) rfl
  have hscan : PageScan (fun _ row => InI64 row.modifiedAtMicros) "c" 1 (.included 0) start _ :=
    .more (by decide) rfl hups (.more (by decide) rfl .refl
      (.more (by decide) rfl .refl (.last (by decide))))
  obtain ⟨hsorted, hfinds⟩ := (list_pages le_rfl 0 (by decide)).1 _ hscan
  exact ⟨start, _, by decide, hscan, by decide, hsorted,
    hfinds ⟨"c", "b", 2, none, none⟩ (by decide) rfl (by decide)⟩

end VmIo.Db
