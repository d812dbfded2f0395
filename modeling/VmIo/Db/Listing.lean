import VmIo.Db.Paging
import VmIo.Db.Vectors
import VmIo.Lib.Sorted

/-!
What a listing returns.

`Sql::list` puts its statement together piece by piece and numbers the
parameters as it goes. `ListStmt` is the statement with its clauses in place of
their text, `ListStmt.run` what sqlite makes of it. A listing selects, sorts and
cuts off (`Listing`), but for the entries that the number standing in for an
unbounded start leaves out (`list_selects_iff`).
-/

namespace VmIo.Db

open VmIo.Lib

/-! ### The statement -/

/-- A value bound to a parameter. -/
inductive Param
  | text (s : List Char)
  | integer (n : ℤ)
  deriving DecidableEq

inductive Comparison
  | ge
  | gt
  | le
  | lt

/-- A condition beside `class = ?1`, with the number of its parameter. -/
inductive Cond
  | keyGlob (n : ℕ)
  | modifiedAtMicros (op : Comparison) (n : ℕ)

/-- `SELECT .. FROM entries WHERE class = ?1 .. ORDER BY .. LIMIT ?n` -/
structure ListStmt where
  conds : List Cond
  order : VmIoDbListSort
  limit : ℕ
  params : List Param

/-- The conditions and the parameters so far. -/
structure ListSql where
  conds : List Cond
  params : List Param

namespace ListSql

/-- `params.push`, then a condition on the parameter just pushed. -/
def pushCond (sql : ListSql) (value : Param) (cond : ℕ → Cond) : ListSql :=
  let params := sql.params ++ [value]
  ⟨sql.conds ++ [cond params.length], params⟩

def pushStart (sql : ListSql) : Bound → ListSql
  -- time is taken to begin with the epoch
  | .unbounded => sql.pushCond (.integer 0) (.modifiedAtMicros .ge)
  | .included t => sql.pushCond (.integer t) (.modifiedAtMicros .ge)
  | .excluded t => sql.pushCond (.integer t) (.modifiedAtMicros .gt)

def pushStop (sql : ListSql) : Bound → ListSql
  | .unbounded => sql.pushCond (.integer i64Max) (.modifiedAtMicros .le)
  | .included t => sql.pushCond (.integer t) (.modifiedAtMicros .le)
  | .excluded t => sql.pushCond (.integer t) (.modifiedAtMicros .lt)

def pushFilter (sql : ListSql) : VmIoDbListFilter → ListSql
  | .all => sql
  | .keyPrefix pfx => sql.pushCond (.text (globPrefixPattern pfx)) .keyGlob
  | .modifiedAtMicrosRange start stop => (sql.pushStart start).pushStop stop

end ListSql

/-- The statement of a listing, with its parameters. -/
def listStmt (cls : String) (filter : VmIoDbListFilter) (sort : VmIoDbListSort) (limit : ℤ) :
    ListStmt :=
  let sql := ListSql.pushFilter ⟨[], [.text cls.toList]⟩ filter
  let params := sql.params ++ [.integer limit]
  ⟨sql.conds, sort, params.length, params⟩

def Comparison.holds (a b : ℤ) : Comparison → Bool
  | .ge => b ≤ a
  | .gt => b < a
  | .le => a ≤ b
  | .lt => a < b

/-- `?n`. The parameters are numbered from 1. -/
def param? (params : List Param) (n : ℕ) : Option Param :=
  match n with
  | 0 => none
  | n + 1 => params[n]?

def Cond.holds (params : List Param) (e : EntryRow) : Cond → Bool
  | .keyGlob n =>
      match param? params n with
      | some (.text pattern) => glob pattern e.key.toList
      | _ => false
  | .modifiedAtMicros op n =>
      match param? params n with
      | some (.integer t) => op.holds e.modifiedAtMicros t
      | _ => false

def ListStmt.run (stmt : ListStmt) (db : Sql) : Except SqlError (List VmIoDbEntry) :=
  match param? stmt.params 1, param? stmt.params stmt.limit with
  | some (.text cls), some (.integer limit) =>
      let rows := db.entries.rows.filter fun e =>
        e.cls.toList = cls && stmt.conds.all (Cond.holds stmt.params e)
      .ok ((Sql.sqlLimit limit (rows.insertionSort stmt.order.le)).map db.toEntry)
  | _, _ => .error .failed

theorem param?_length (params : List Param) (value : Param) :
    param? (params ++ [value]) (params ++ [value]).length = some value := by
  rw [List.length_append, List.length_singleton, param?]
  simp

/-- Each condition has the parameter that was pushed for it. -/
theorem list_conds (cls : String) (filter : VmIoDbListFilter) (limit : ℤ) (e : EntryRow) :
    let sql := ListSql.pushFilter ⟨[], [.text cls.toList]⟩ filter
    sql.conds.all (Cond.holds (sql.params ++ [.integer limit]) e) = filter.accepts e := by
  cases filter with
  | all => rfl
  | keyPrefix pfx =>
      simp [ListSql.pushFilter, ListSql.pushCond, Cond.holds, param?, VmIoDbListFilter.accepts]
  | modifiedAtMicrosRange start stop =>
      cases start <;> cases stop <;>
        simp [ListSql.pushFilter, ListSql.pushStart, ListSql.pushStop, ListSql.pushCond, Cond.holds,
          param?, Comparison.holds, VmIoDbListFilter.accepts, Bound.startAccepts, Bound.stopAccepts]

theorem pushFilter_params (sql : ListSql) (filter : VmIoDbListFilter) :
    ∃ more, (sql.pushFilter filter).params = sql.params ++ more := by
  cases filter with
  | all => exact ⟨[], by simp [ListSql.pushFilter]⟩
  | keyPrefix pfx => exact ⟨_, rfl⟩
  | modifiedAtMicrosRange start stop =>
      cases start <;> cases stop <;> exact ⟨_, List.append_assoc _ _ _⟩

/-- The statement does what `Sql.list` says. -/
theorem listStmt_run (db : Sql) (cls : String) (filter : VmIoDbListFilter)
    (sort : VmIoDbListSort) (limit : ℤ) :
    (listStmt cls filter sort limit).run db = .ok (db.list cls filter sort limit) := by
  obtain ⟨more, hmore⟩ := pushFilter_params ⟨[], [.text cls.toList]⟩ filter
  have hclass : param? (listStmt cls filter sort limit).params 1 = some (.text cls.toList) := by
    rw [listStmt, hmore]
    rfl
  have hlimit : param? (listStmt cls filter sort limit).params
      (listStmt cls filter sort limit).limit = some (.integer limit) :=
    param?_length _ _
  have hfilter : ∀ e : EntryRow, (decide (e.cls.toList = cls.toList) &&
      (listStmt cls filter sort limit).conds.all
        (Cond.holds (listStmt cls filter sort limit).params e)) =
      (decide (e.cls = cls) && filter.accepts e) := by
    intro e
    rw [decide_eq_decide.mpr String.toList_inj]
    exact congrArg _ (list_conds cls filter limit e)
  simp only [ListStmt.run, hclass, hlimit, hfilter, Sql.list]
  rfl

/-! ### Glob escaping -/

/-- The pattern of one character of the prefix. -/
def globEscape (c : Char) : List Char :=
  if c = '*' ∨ c = '?' ∨ c = '[' then ['[', c, ']'] else [c]

theorem globPrefixPattern_eq (pfx : String) :
    globPrefixPattern pfx = pfx.toList.flatMap globEscape ++ ['*'] := rfl

theorem globMatch_single {c : Char} (hc : c = '*' ∨ c = '?' ∨ c = '[') (fuel : ℕ)
    (ps : List Char) (d : Char) (cs : List Char) :
    globMatch (fuel + 1) ('[' :: c :: ']' :: ps) (d :: cs) =
      (decide (d = c) && globMatch fuel ps cs) := by
  rcases hc with rfl | rfl | rfl <;> simp [globMatch, globClass]

theorem globMatch_escape (c : Char) (fuel : ℕ) (ps : List Char) (d : Char) (cs : List Char) :
    globMatch (fuel + 1) (globEscape c ++ ps) (d :: cs) =
      (decide (d = c) && globMatch fuel ps cs) := by
  unfold globEscape
  split
  · rename_i hc
    exact globMatch_single hc fuel ps d cs
  · rename_i hc
    push Not at hc
    obtain ⟨hstar, hone, hclass⟩ := hc
    rw [List.singleton_append, globMatch, decide_eq_decide.mpr (eq_comm (a := c))]
    · exact hstar
    · exact hone
    · exact hclass

theorem globMatch_escape_nil (c : Char) (fuel : ℕ) (ps : List Char) :
    globMatch (fuel + 1) (globEscape c ++ ps) [] = false := by
  have hne : ∀ x xs, x ≠ '*' → globMatch (fuel + 1) (x :: xs) [] = false := by
    intro x xs hx
    rw [globMatch]
    exact hx
  unfold globEscape
  split
  · exact hne _ _ (by decide)
  · rename_i hc
    push Not at hc
    exact hne _ _ hc.1

theorem globMatch_star (fuel : ℕ) (s : List Char) : globMatch (fuel + 2) ['*'] s = true := by
  rw [globMatch, List.any_eq_true]
  exact ⟨[], by simp, rfl⟩

/-- The matcher spends a unit of fuel on each character of the prefix. -/
theorem globMatch_prefix (p : List Char) {fuel : ℕ} (hfuel : p.length + 2 ≤ fuel)
    (s : List Char) : globMatch fuel (p.flatMap globEscape ++ ['*']) s = true ↔ p <+: s := by
  induction p generalizing fuel s with
  | nil =>
      obtain ⟨fuel, rfl⟩ : ∃ n, fuel = n + 2 := ⟨fuel - 2, by simp at hfuel; omega⟩
      simp [globMatch_star]
  | cons c p ih =>
      rw [List.length_cons] at hfuel
      obtain ⟨fuel, rfl⟩ : ∃ n, fuel = n + 1 := ⟨fuel - 1, by omega⟩
      rw [List.flatMap_cons, List.append_assoc]
      cases s with
      | nil => simp [globMatch_escape_nil]
      | cons d s =>
          rw [globMatch_escape, Bool.and_eq_true, decide_eq_true_eq, ih (by omega),
            List.cons_prefix_cons, eq_comm (a := d)]

theorem length_le_flatMap_globEscape (p : List Char) :
    p.length ≤ (p.flatMap globEscape).length := by
  induction p with
  | nil => simp
  | cons c p ih =>
      have hone : 1 ≤ (globEscape c).length := by
        unfold globEscape
        split <;> simp
      rw [List.flatMap_cons, List.length_append, List.length_cons]
      omega

theorem glob_globPrefixPattern (pfx : String) (key : List Char) :
    glob (globPrefixPattern pfx) key = true ↔ pfx.toList <+: key := by
  have hlen := length_le_flatMap_globEscape pfx.toList
  rw [globPrefixPattern_eq, glob, globMatch_prefix]
  rw [List.length_append, List.length_singleton]
  omega

/-- Escaping is exact: the pattern made of a prefix matches the keys that begin
with it, whatever characters it has. -/
theorem glob_matches_prefix (pfx key : String) :
    glob (globPrefixPattern pfx) key.toList = true ↔ ∃ rest, key = pfx ++ rest := by
  rw [glob_globPrefixPattern]
  constructor
  · rintro ⟨rest, hrest⟩
    refine ⟨String.ofList rest, ?_⟩
    rw [← String.toList_inj, String.toList_append, String.toList_ofList, hrest]
  · rintro ⟨rest, rfl⟩
    rw [String.toList_append]
    exact List.prefix_append _ _

/-! ### What a listing is to return -/

/-- At or after the start of a range. -/
def Bound.From : Bound → ℤ → Prop
  | .unbounded, _ => True
  | .included t, m => t ≤ m
  | .excluded t, m => t < m

/-- At or before the end of a range. -/
def Bound.To : Bound → ℤ → Prop
  | .unbounded, _ => True
  | .included t, m => m ≤ t
  | .excluded t, m => m < t

instance (b : Bound) (m : ℤ) : Decidable (b.From m) :=
  match b with
  | .unbounded => .isTrue trivial
  | .included t => inferInstanceAs (Decidable (t ≤ m))
  | .excluded t => inferInstanceAs (Decidable (t < m))

instance (b : Bound) (m : ℤ) : Decidable (b.To m) :=
  match b with
  | .unbounded => .isTrue trivial
  | .included t => inferInstanceAs (Decidable (m ≤ t))
  | .excluded t => inferInstanceAs (Decidable (m < t))

/-- The entries a filter stands for. -/
def VmIoDbListFilter.Selects : VmIoDbListFilter → EntryRow → Prop
  | .all, _ => True
  | .keyPrefix pfx, e => pfx.toList <+: e.key.toList
  | .modifiedAtMicrosRange start stop, e =>
      start.From e.modifiedAtMicros ∧ stop.To e.modifiedAtMicros

instance (filter : VmIoDbListFilter) (e : EntryRow) : Decidable (filter.Selects e) :=
  match filter with
  | .all => .isTrue trivial
  | .keyPrefix pfx => inferInstanceAs (Decidable (pfx.toList <+: e.key.toList))
  | .modifiedAtMicrosRange start stop =>
      inferInstanceAs (Decidable (start.From e.modifiedAtMicros ∧ stop.To e.modifiedAtMicros))

def VmIoDbListSort.Before : VmIoDbListSort → EntryRow → EntryRow → Prop
  | .keyAsc, a, b => byteOrder a.key < byteOrder b.key
  | .keyDesc, a, b => byteOrder b.key < byteOrder a.key
  | .modifiedAtMicrosAsc, a, b => a.modifiedAtMicros < b.modifiedAtMicros
  | .modifiedAtMicrosDesc, a, b => b.modifiedAtMicros < a.modifiedAtMicros

instance (sort : VmIoDbListSort) : DecidableRel sort.Before := fun a b =>
  match sort with
  | .keyAsc => inferInstanceAs (Decidable (byteOrder a.key < byteOrder b.key))
  | .keyDesc => inferInstanceAs (Decidable (byteOrder b.key < byteOrder a.key))
  | .modifiedAtMicrosAsc =>
      inferInstanceAs (Decidable (a.modifiedAtMicros < b.modifiedAtMicros))
  | .modifiedAtMicrosDesc =>
      inferInstanceAs (Decidable (b.modifiedAtMicros < a.modifiedAtMicros))

def Sql.Selected (db : Sql) (cls : String) (filter : VmIoDbListFilter) (e : EntryRow) : Prop :=
  e ∈ db.entries.rows ∧ e.cls = cls ∧ filter.Selects e

/-- `out` is the first `limit` of the selected entries in the order of the sort,
each with its stored fields and the number of its chunk rows. -/
def Listing (db : Sql) (cls : String) (filter : VmIoDbListFilter) (sort : VmIoDbListSort)
    (limit : ℤ) (out : List VmIoDbEntry) : Prop :=
  ∃ rows : List EntryRow, (∀ e, e ∈ rows ↔ db.Selected cls filter e) ∧
    rows.Pairwise sort.Before ∧
    out = (rows.take limit.toNat).map fun e =>
      ⟨e.cls, e.key, e.modifiedAtMicros, e.expiresAtMicros, e.metadata,
        ((db.entryFileChunks.rows.filter fun c => c.cls = e.cls ∧ c.key = e.key).length : ℤ)⟩

/-- Whatever a range without a start leaves out, because its timestamp is below
the zero that stands in for the missing bound, is behind the cut anyway. -/
def Spared (db : Sql) (cls : String) (filter : VmIoDbListFilter) (sort : VmIoDbListSort)
    (limit : ℤ) : Prop :=
  ∀ stop, filter = .modifiedAtMicrosRange .unbounded stop →
    ∀ e, db.Selected cls filter e → e.modifiedAtMicros < 0 →
      limit ≤ ((db.entries.rows.filter fun x =>
        x.cls = cls ∧ filter.Selects x ∧ sort.Before x e).length : ℤ)

/-! ### Selection, order and cut -/

theorem VmIoDbListSort.Before.asymm {sort : VmIoDbListSort} :
    ∀ a b, sort.Before a b → ¬sort.Before b a := by
  intro a b hab
  cases sort with
  | keyAsc => exact not_lt_of_gt hab
  | keyDesc => exact not_lt_of_gt hab
  | modifiedAtMicrosAsc => exact not_lt_of_gt hab
  | modifiedAtMicrosDesc => exact not_lt_of_gt hab

theorem VmIoDbListSort.total (sort : VmIoDbListSort) (a b : EntryRow) :
    sort.le a b ∨ sort.le b a := by
  cases sort with
  | keyAsc => exact le_total (keyOrder a) (keyOrder b)
  | keyDesc => exact le_total (keyOrder b) (keyOrder a)
  | modifiedAtMicrosAsc => exact le_total a.modifiedAtMicros b.modifiedAtMicros
  | modifiedAtMicrosDesc => exact le_total b.modifiedAtMicros a.modifiedAtMicros

theorem VmIoDbListSort.trans {sort : VmIoDbListSort} {a b c : EntryRow} (hab : sort.le a b)
    (hbc : sort.le b c) : sort.le a c := by
  cases sort with
  | keyAsc => exact le_trans (a := keyOrder a) hab hbc
  | keyDesc => exact le_trans (a := keyOrder c) hbc hab
  | modifiedAtMicrosAsc => exact le_trans (a := a.modifiedAtMicros) hab hbc
  | modifiedAtMicrosDesc => exact le_trans (a := c.modifiedAtMicros) hbc hab

theorem key_lt_of_le {a b : EntryRow} (hcls : a.cls = b.cls) (hpk : a.pk ≠ b.pk)
    (h : keyOrder a ≤ keyOrder b) : byteOrder a.key < byteOrder b.key := by
  rw [keyOrder, keyOrder, hcls, Prod.Lex.toLex_le_toLex] at h
  rcases h with hlt | ⟨_, hle⟩
  · exact absurd hlt (lt_irrefl _)
  · refine lt_of_le_of_ne hle fun heq => hpk ?_
    rw [EntryRow.pk, EntryRow.pk, hcls, byteOrder_injective heq]

/-- Within a class no two rows are level in any of the orders. -/
theorem Sql.before_of_le {db : Sql} {sort : VmIoDbListSort} {a b : EntryRow}
    (ha : a ∈ db.entries.rows) (hb : b ∈ db.entries.rows) (hcls : a.cls = b.cls) (hne : a ≠ b)
    (h : sort.le a b) : sort.Before a b := by
  have hpk : a.pk ≠ b.pk := fun heq => hne (db.entries.eq_of_pk_eq ha hb heq)
  have hmod : a.modifiedAtMicros ≠ b.modifiedAtMicros :=
    fun heq => hne (db.modified_unique a ha b hb heq)
  cases sort with
  | keyAsc => exact key_lt_of_le hcls hpk h
  | keyDesc => exact key_lt_of_le hcls.symm hpk.symm h
  | modifiedAtMicrosAsc => exact lt_of_le_of_ne h hmod
  | modifiedAtMicrosDesc => exact lt_of_le_of_ne h hmod.symm

def Sql.arranged (db : Sql) (cls : String) (p : EntryRow → Bool) (sort : VmIoDbListSort) :
    List EntryRow :=
  (db.entries.rows.filter fun e => e.cls = cls && p e).insertionSort sort.le

theorem Sql.mem_arranged {db : Sql} {cls : String} {p : EntryRow → Bool} {sort : VmIoDbListSort}
    {e : EntryRow} :
    e ∈ db.arranged cls p sort ↔ e ∈ db.entries.rows ∧ e.cls = cls ∧ p e = true := by
  rw [Sql.arranged, List.mem_insertionSort, List.mem_filter, Bool.and_eq_true, decide_eq_true_iff]

theorem Sql.arranged_pairwise (db : Sql) (cls : String) (p : EntryRow → Bool)
    (sort : VmIoDbListSort) : (db.arranged cls p sort).Pairwise sort.Before := by
  have : Std.Total sort.le := ⟨sort.total⟩
  have : IsTrans EntryRow sort.le := ⟨fun _ _ _ => VmIoDbListSort.trans⟩
  have hle : (db.arranged cls p sort).Pairwise sort.le := List.pairwise_insertionSort _ _
  have hnodup : (db.arranged cls p sort).Nodup :=
    (List.perm_insertionSort _ _).nodup_iff.mpr (db.entries_nodup.filter _)
  refine (hle.and hnodup).imp_of_mem ?_
  rintro a b ha hb ⟨hab, hne⟩
  obtain ⟨ha, hacls, _⟩ := Sql.mem_arranged.mp ha
  obtain ⟨hb, hbcls, _⟩ := Sql.mem_arranged.mp hb
  exact Sql.before_of_le ha hb (hacls.trans hbcls.symm) hne hab

/-- What the statement's conditions let through: what the filter selects, less the
negative timestamps where the range has no start. -/
theorem accepts_iff {filter : VmIoDbListFilter} {e : EntryRow} (h : InI64 e.modifiedAtMicros) :
    filter.accepts e = true ↔ filter.Selects e ∧
      ∀ stop, filter = .modifiedAtMicrosRange .unbounded stop → 0 ≤ e.modifiedAtMicros := by
  cases filter with
  | all => simp [VmIoDbListFilter.accepts, VmIoDbListFilter.Selects]
  | keyPrefix pfx =>
      simp [VmIoDbListFilter.accepts, VmIoDbListFilter.Selects, glob_globPrefixPattern]
  | modifiedAtMicrosRange start stop =>
      have hstop : stop.stopAccepts e.modifiedAtMicros = true ↔ stop.To e.modifiedAtMicros := by
        cases stop with
        | unbounded => simpa [Bound.stopAccepts, Bound.To] using h.2
        | included t => simp [Bound.stopAccepts, Bound.To]
        | excluded t => simp [Bound.stopAccepts, Bound.To]
      rw [VmIoDbListFilter.accepts, Bool.and_eq_true, hstop, VmIoDbListFilter.Selects]
      cases start with
      | unbounded => simp [Bound.startAccepts, Bound.From, and_comm]
      | included t => simp [Bound.startAccepts, Bound.From]
      | excluded t => simp [Bound.startAccepts, Bound.From]

theorem Sql.toEntry_injective (db : Sql) : Function.Injective db.toEntry := by
  rintro ⟨⟩ ⟨⟩ h
  simp only [toEntry, VmIoDbEntry.mk.injEq] at h
  simp_all

def Sql.selected (db : Sql) (cls : String) (filter : VmIoDbListFilter) (sort : VmIoDbListSort) :
    List EntryRow :=
  db.arranged cls (fun e => filter.Selects e) sort

theorem Sql.mem_selected {db : Sql} {cls : String} {filter : VmIoDbListFilter}
    {sort : VmIoDbListSort} {e : EntryRow} :
    e ∈ db.selected cls filter sort ↔ db.Selected cls filter e := by
  rw [Sql.selected, Sql.mem_arranged, decide_eq_true_iff, Sql.Selected]

theorem Sql.selected_pairwise (db : Sql) (cls : String) (filter : VmIoDbListFilter)
    (sort : VmIoDbListSort) : (db.selected cls filter sort).Pairwise sort.Before :=
  db.arranged_pairwise cls _ sort

theorem listing_iff {db : Sql} {cls : String} {filter : VmIoDbListFilter} {sort : VmIoDbListSort}
    {limit : ℤ} {out : List VmIoDbEntry} :
    Listing db cls filter sort limit out ↔
      out = ((db.selected cls filter sort).take limit.toNat).map db.toEntry := by
  have hentry : db.toEntry = fun e => ⟨e.cls, e.key, e.modifiedAtMicros, e.expiresAtMicros,
      e.metadata, ((db.entryFileChunks.rows.filter fun c =>
        c.cls = e.cls ∧ c.key = e.key).length : ℤ)⟩ := by
    funext e
    simp only [Sql.toEntry, Sql.chunkCount, ChunkRow.entryKey, EntryRow.pk, Prod.mk.injEq]
  rw [hentry]
  constructor
  · rintro ⟨rows, hrows, hsorted, rfl⟩
    rw [eq_of_mem_iff VmIoDbListSort.Before.asymm hsorted (db.selected_pairwise cls filter sort)
      fun e => (hrows e).trans Sql.mem_selected.symm]
  · rintro rfl
    exact ⟨_, fun _ => Sql.mem_selected, db.selected_pairwise cls filter sort, rfl⟩

/-- The sentinel takes its entries out of what was to be cut. -/
theorem list_eq {db : Sql} (hfits : db.Fits) (cls : String) (filter : VmIoDbListFilter)
    (sort : VmIoDbListSort) {limit : ℤ} (hlimit : 0 ≤ limit) :
    db.list cls filter sort limit =
      (((db.selected cls filter sort).filter filter.accepts).take limit.toNat).map db.toEntry := by
  have hrows : db.arranged cls filter.accepts sort =
      (db.selected cls filter sort).filter filter.accepts := by
    refine eq_of_mem_iff VmIoDbListSort.Before.asymm (db.arranged_pairwise cls _ sort)
      ((db.arranged_pairwise cls _ sort).sublist List.filter_sublist) fun e => ?_
    rw [List.mem_filter, Sql.mem_arranged, Sql.selected, Sql.mem_arranged, decide_eq_true_iff]
    constructor
    · rintro ⟨he, hcls, hacc⟩
      exact ⟨⟨he, hcls, ((accepts_iff (hfits e he)).mp hacc).1⟩, hacc⟩
    · rintro ⟨⟨he, hcls, _⟩, hacc⟩
      exact ⟨he, hcls, hacc⟩
  rw [← hrows, Sql.list, Sql.sqlLimit, if_neg (not_lt.mpr hlimit)]
  rfl

theorem Sql.mem_take_selected {db : Sql} {cls : String} {filter : VmIoDbListFilter}
    {sort : VmIoDbListSort} {e : EntryRow} (he : db.Selected cls filter e) (n : ℕ) :
    e ∈ (db.selected cls filter sort).take n ↔
      (db.entries.rows.filter fun x =>
        x.cls = cls ∧ filter.Selects x ∧ sort.Before x e).length < n := by
  have hperm := (List.perm_insertionSort sort.le
    (db.entries.rows.filter fun x => x.cls = cls && decide (filter.Selects x))).filter
      fun x => decide (sort.Before x e)
  have hcount : ((db.selected cls filter sort).filter fun x => sort.Before x e).length =
      (db.entries.rows.filter fun x =>
        x.cls = cls ∧ filter.Selects x ∧ sort.Before x e).length := by
    rw [Sql.selected, Sql.arranged, hperm.length_eq, List.filter_filter]
    congr 1
    refine List.filter_congr fun x _ => ?_
    rw [Bool.decide_and, Bool.decide_and, Bool.and_comm, Bool.and_assoc]
  rw [mem_take_iff VmIoDbListSort.Before.asymm (db.selected_pairwise cls filter sort)
    (Sql.mem_selected.mpr he), hcount]

/-! ### Reachable stores -/

/-- The timestamp of an upsert is an `i64`. -/
def Stamped (_ : Sys) : Action → Prop
  | .spawn (.upsert row) => InI64 row.modifiedAtMicros
  | _ => True

instance (s : Sys) (a : Action) : Decidable (Stamped s a) :=
  match a with
  | .spawn (.upsert row) => inferInstanceAs (Decidable (InI64 row.modifiedAtMicros))
  | .spawn (.upsertChunk _) => .isTrue trivial
  | .spawn (.rm _ _) => .isTrue trivial
  | .spawn .pruneBacklog => .isTrue trivial
  | .spawn .cleanupDir => .isTrue trivial
  | .spawn (.getChunk _ _ _ _) => .isTrue trivial
  | .step _ _ => .isTrue trivial
  | .tick _ => .isTrue trivial
  | .crash => .isTrue trivial

structure StampedInv (s : Sys) : Prop where
  fits : s.st.sql.Fits
  pending : ∀ row pc, Task.upsert row pc ∈ s.tasks → InI64 row.modifiedAtMicros

theorem stampedInv_step {db : VmIoDb} {s s' : Sys} {a : Action} (hinv : StampedInv s)
    (hok : Stamped s a) (h : step db s a = some s') : StampedInv s' := by
  rcases step_cases h with ⟨t, c, task, task', rfl, hcall⟩ | henv
  · constructor
    · intro e he
      rcases hcall.step.mem_entries he with he | ⟨pc, rfl⟩
      · exact hinv.fits e he
      · exact hinv.pending e pc hcall.mem_here
    · intro row pc hmem
      rcases hcall.mem hmem with heq | hmem
      · have hstep := hcall.step
        rw [← heq] at hstep
        generalize s'.st = st' at hstep
        cases hstep with
        | upsert hstep => exact hinv.pending row _ hcall.mem_here
      · exact hinv.pending row pc hmem
  · constructor
    · rw [henv.sql]
      exact hinv.fits
    · intro row pc hmem
      rcases henv.mem hmem with hmem | ⟨call, rfl, heq⟩
      · exact hinv.pending row pc hmem
      · cases call with
        | upsert row' =>
            cases heq
            exact hok
        | _ => cases heq

theorem fits_of_reach {db : VmIoDb} {now : Time} {s : Sys}
    (hreach : Reach (step db) Stamped (Sys.init db now) s) : s.st.sql.Fits := by
  have hinit : StampedInv (Sys.init db now) :=
    ⟨fun e he => absurd he List.not_mem_nil, fun row pc hmem => absurd hmem List.not_mem_nil⟩
  exact (hreach.invariant hinit fun _ _ _ hinv hok h => stampedInv_step hinv hok h).fits

/-- In every reachable store a listing returns the first `limit` of the selected
entries, exactly when no entry with a timestamp below zero belongs among them
that a range without a start leaves out. -/
theorem list_selects_iff {db : VmIoDb} {now : Time} {s : Sys}
    (hreach : Reach (step db) Stamped (Sys.init db now) s) (cls : String)
    (filter : VmIoDbListFilter) (sort : VmIoDbListSort) {limit : ℤ} (hlimit : 0 ≤ limit) :
    (∃ out, (listStmt cls filter sort limit).run s.st.sql = .ok out ∧
      Listing s.st.sql cls filter sort limit out) ↔ Spared s.st.sql cls filter sort limit := by
  have hfits := fits_of_reach hreach
  have hreturns : (∃ out, (listStmt cls filter sort limit).run s.st.sql = .ok out ∧
      Listing s.st.sql cls filter sort limit out) ↔
      Listing s.st.sql cls filter sort limit (s.st.sql.list cls filter sort limit) := by
    rw [listStmt_run]
    simp
  rw [hreturns, listing_iff, list_eq hfits cls filter sort hlimit,
    (List.map_injective_iff.mpr s.st.sql.toEntry_injective).eq_iff, take_filter_eq_iff]
  constructor
  · -- an entry that is left out must not be among the first
    intro hall stop hstop e he hneg
    by_contra hfew
    have htake : e ∈ (s.st.sql.selected cls filter sort).take limit.toNat := by
      rw [Sql.mem_take_selected he]
      omega
    have hzero := ((accepts_iff (hfits e he.1)).mp (hall e htake)).2 stop hstop
    omega
  · intro hspared e htake
    have he := Sql.mem_selected.mp (List.mem_of_mem_take htake)
    refine (accepts_iff (hfits e he.1)).mpr ⟨he.2.2, fun stop hstop => ?_⟩
    by_contra hneg
    have hmany := hspared stop hstop e he (by omega)
    rw [Sql.mem_take_selected he] at htake
    omega

/-- Of two entries the later one is listed. -/
theorem list_selects_iff_latest :
    ∃ s, Reach (step Vectors.db) Stamped (Sys.init Vectors.db 0) s ∧
      (∀ e ∈ s.st.sql.entries.rows, 0 ≤ e.modifiedAtMicros) ∧
      ∃ out, (listStmt "c" (.modifiedAtMicrosRange .unbounded .unbounded) .modifiedAtMicrosDesc
        1).run s.st.sql = .ok out ∧
        Listing s.st.sql "c" (.modifiedAtMicrosRange .unbounded .unbounded) .modifiedAtMicrosDesc
          1 out := by
  obtain ⟨s, hreach, hpos⟩ := Reach.exists_of_runOk (step Vectors.db) Stamped
    (Sys.init Vectors.db 0)
    (Vectors.putEntry 0 ++
      [.spawn (.upsert ⟨"c", "l", 2, none, none⟩), .step 1 .ok, .step 1 .ok])
    (fun s => ∀ e ∈ s.st.sql.entries.rows, 0 ≤ e.modifiedAtMicros) (by decide +kernel)
  refine ⟨s, hreach, hpos, (list_selects_iff hreach "c" _ _ (by decide)).mpr ?_⟩
  intro stop _ e he hneg
  exact absurd (hpos e he.1) (by omega)

/-- An entry from before the epoch is not listed by a range without a start. -/
theorem list_hides_negative :
    ∃ s, Reach (step Vectors.db) Stamped (Sys.init Vectors.db 0) s ∧
      ¬∃ out, (listStmt "c" (.modifiedAtMicrosRange .unbounded .unbounded) .modifiedAtMicrosAsc
        10).run s.st.sql = .ok out ∧
        Listing s.st.sql "c" (.modifiedAtMicrosRange .unbounded .unbounded) .modifiedAtMicrosAsc
          10 out := by
  obtain ⟨s, hreach, hstored, hempty⟩ := Reach.exists_of_runOk (step Vectors.db) Stamped
    (Sys.init Vectors.db 0)
    [.spawn (.upsert ⟨"c", "k", -1, none, none⟩), .step 0 .ok, .step 0 .ok]
    (fun s => ⟨"c", "k", -1, none, none⟩ ∈ s.st.sql.entries.rows ∧
      s.st.sql.list "c" (.modifiedAtMicrosRange .unbounded .unbounded) .modifiedAtMicrosAsc 10 = [])
    (by decide +kernel)
  refine ⟨s, hreach, ?_⟩
  rintro ⟨out, hrun, rows, hrows, _, hout⟩
  rw [listStmt_run, hempty] at hrun
  have hnil : rows.take 10 = [] := by
    cases hrun
    exact List.map_eq_nil_iff.mp hout.symm
  have hmem := (hrows ⟨"c", "k", -1, none, none⟩).mpr ⟨hstored, rfl, trivial, trivial⟩
  cases rows with
  | nil => exact absurd hmem List.not_mem_nil
  | cons e rows => cases hnil

end VmIo.Db
