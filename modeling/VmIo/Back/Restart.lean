import VmIo.Back.Node

/-!
Server-assigned puts across restarts.

The counter starts at zero with every process, and what is stored may be ahead
of the clock. A put whose timestamp is not newer than the one stored under its
key is a success all the same, and nothing is written. `Outruns` says of a put
that this cannot happen to it.
-/

namespace VmIo.Back

open VmIo.Lib VmIo.Db

/-- Each timestamp the put comes to allocate is newer than what its key holds. It
comes to the next one as long as another key holds the one before. -/
def Outruns (n : Node) (req : CfgPutReq) (clock : ℕ → ℤ) : Prop :=
  ∀ i < 64, (∀ j < i, n.sql.ModifiedTaken (attemptRow n req clock j)) →
    n.sql.Newer (attemptRow n req clock i)

def Holds (sql : Sql) (req : CfgPutReq) : Prop :=
  ∃ item ∈ itemAt sql req.key, item.value = req.value ∧
    item.expiresAtMicros = req.expiresAtMicros

def Reads (sql : Sql) (key value : String) (expires : Option ℤ) : Prop :=
  ∃ l, readAll sql = .ok l ∧ (∃ item ∈ l, item.key = key) ∧
    ∀ item ∈ l, item.key = key → item.value = value ∧ item.expiresAtMicros = expires

theorem reads_iff {sql : Sql} (hsql : CfgOk sql) (hfits : Fits sql) (req : CfgPutReq) :
    Reads sql req.key req.value req.expiresAtMicros ↔ Holds sql req := by
  have hmem : ∀ item, item ∈ itemAt sql req.key ↔ item ∈ items sql ∧ item.key = req.key :=
    fun item => by rw [hsql.mem_itemAt, hsql.mem_items]
  constructor
  · rintro ⟨l, hread, ⟨item, hitem, hkey⟩, hall⟩
    cases (readAll_eq hsql hfits).symm.trans hread
    exact ⟨item, (hmem item).mpr ⟨hitem, hkey⟩, hall item hitem hkey⟩
  · rintro ⟨item, hitem, hvalue⟩
    obtain ⟨hlisted, hkey⟩ := (hmem item).mp hitem
    refine ⟨_, readAll_eq hsql hfits, ⟨item, hlisted, hkey⟩, fun other hother hkey' => ?_⟩
    have hother : other ∈ itemAt sql req.key := (hmem other).mpr ⟨hother, hkey'⟩
    rw [Option.mem_unique hother hitem]
    exact hvalue

/-- A successful put is what its key holds afterwards if and only if it outruns
what is stored, or that already has its value and expiry. -/
theorem put_holds_iff {n n' : Node} {req : CfgPutReq} {clock : ℕ → ℤ}
    (hnone : req.modifiedAtMicros = none) (h : upsertValue n req clock = (.ok (), n')) :
    Holds n'.sql req ↔ Outruns n req clock ∨ Holds n.sql req := by
  obtain ⟨i, hi, applied, hup, _, hfailed⟩ := upsertValue_assigned hnone h
  obtain ⟨happlied, hfree⟩ := applied_iff hup
  have hitem := itemAt_upsert hup rfl req.key
  cases applied with
  | true =>
      rw [if_pos ⟨rfl, rfl⟩] at hitem
      refine iff_of_true ?_ (.inl fun k hk htaken => ?_)
      · rw [Holds, hitem]
        exact ⟨_, rfl, by simp [EntryRow.item, attemptRow, cfgRow, fromUtf8?_utf8]⟩
      · rcases lt_trichotomy k i with hlt | rfl | hgt
        · exact (hfailed k hlt).2
        · exact happlied.mp rfl
        · exact absurd (htaken i hgt) (hfree rfl)
  | false =>
      rw [if_neg fun hand => Bool.false_ne_true hand.1] at hitem
      have hold : ¬Outruns n req clock := fun hout =>
        Bool.false_ne_true (happlied.mpr (hout i hi fun j hj => (hfailed j hj).1))
      rw [Holds, Holds, hitem, or_iff_right hold]

/-! ### Outrunning below the end of the range -/

theorem stamp_le {counter : ℤ} {clock : ℕ → ℤ} (hcounter : counter + 64 ≤ i64Max)
    (hclock : ∀ i, clock i + 64 ≤ i64Max) (i : ℕ) (hi : i < 64) :
    stamp counter clock i + 63 ≤ i64Max + i ∧ stamp counter clock 0 ≤ stamp counter clock i := by
  induction i with
  | zero =>
      have hnow := hclock 0
      have hstamp : stamp counter clock 0 = max (clock 0) (counter + 1) :=
        nextMicros_eq_max (by omega)
      omega
  | succ i ih =>
      obtain ⟨hle, hfirst⟩ := ih (by omega)
      have hnow := hclock (i + 1)
      have hstamp : stamp counter clock (i + 1) =
          max (clock (i + 1)) (stamp counter clock i + 1) := nextMicros_eq_max (by omega)
      push_cast
      omega

/-- Away from the end of the range of `i64`, a put outruns what is stored under its
key if and only if the counter or the clock is ahead of it. -/
theorem outruns_iff {n : Node} {req : CfgPutReq} {clock : ℕ → ℤ}
    (hcounter : n.counter + 64 ≤ i64Max) (hclock : ∀ i, clock i + 64 ≤ i64Max) :
    Outruns n req clock ↔ ∀ e ∈ n.sql.entries.find? (cfgClass, req.key),
      e.modifiedAtMicros ≤ n.counter ∨ e.modifiedAtMicros < clock 0 := by
  have hfirst : ∀ e : EntryRow, e.modifiedAtMicros < stamp n.counter clock 0 ↔
      e.modifiedAtMicros ≤ n.counter ∨ e.modifiedAtMicros < clock 0 := by
    intro e
    have hstamp : stamp n.counter clock 0 = max (clock 0) (n.counter + 1) :=
      nextMicros_eq_max (by omega)
    omega
  constructor
  · intro hout e he
    exact (hfirst e).mp (hout 0 (by omega) (fun j hj => absurd hj (Nat.not_lt_zero j)) e he)
  · intro hnew i hi _ e he
    exact ((hfirst e).mpr (hnew e he)).trans_le (stamp_le hcounter hclock i hi).2

/-! ### Runs of puts -/

/-- Every put of the run outruns what is stored under its key at its turn, or finds
its value and expiry there. -/
def OutrunsAll : List CfgPutReq → (ℕ → ℕ → ℤ) → Node → Prop
  | [], _, _ => True
  | req :: reqs, clocks, n =>
      (Outruns n req (clocks 0) ∨ Holds n.sql req) ∧
        OutrunsAll reqs (fun i => clocks (i + 1)) (upsertValue n req (clocks 0)).2

theorem itemAt_upsertAll {reqs : List CfgPutReq} {clocks : ℕ → ℕ → ℤ} {n n' : Node}
    {res : Except IoError Unit} (h : upsertAll reqs clocks n = (res, n')) {key : String}
    (hkey : ∀ req ∈ reqs, req.key ≠ key) : itemAt n'.sql key = itemAt n.sql key := by
  induction reqs generalizing clocks n with
  | nil =>
      cases h
      rfl
  | cons req reqs ih =>
      have hfirst := hkey req List.mem_cons_self
      rw [upsertAll] at h
      split at h
      · rename_i mid hput
        rw [ih h fun req hreq => hkey req (List.mem_cons_of_mem _ hreq)]
        exact itemAt_upsertValue hput hfirst
      · rename_i mid hput
        cases h
        exact itemAt_upsertValue hput hfirst

/-- A successful run of puts to different keys is what its keys hold afterwards if
and only if every put of it outruns what is stored at its turn. -/
theorem run_holds_iff {reqs : List CfgPutReq} {clocks : ℕ → ℕ → ℤ} {n n' : Node}
    (hnone : ∀ req ∈ reqs, req.modifiedAtMicros = none)
    (hkeys : reqs.Pairwise (fun a b => a.key ≠ b.key))
    (h : upsertAll reqs clocks n = (.ok (), n')) :
    (∀ req ∈ reqs, Holds n'.sql req) ↔ OutrunsAll reqs clocks n := by
  induction reqs generalizing clocks n with
  | nil => exact iff_of_true (by simp) trivial
  | cons req reqs ih =>
      obtain ⟨hfirst, hkeys⟩ := List.pairwise_cons.mp hkeys
      rw [upsertAll] at h
      split at h
      · rename_i mid hput
        have hsame : itemAt n'.sql req.key = itemAt mid.sql req.key :=
          itemAt_upsertAll h fun other hother => (hfirst other hother).symm
        have hholds : Holds n'.sql req ↔ Holds mid.sql req := by rw [Holds, Holds, hsame]
        rw [List.forall_mem_cons, OutrunsAll, hput, hholds,
          put_holds_iff (hnone req List.mem_cons_self) hput,
          ih (fun req hreq => hnone req (List.mem_cons_of_mem _ hreq)) hkeys h]
      · cases h

theorem InitValues.reqs_pairwise (values : InitValues) :
    values.reqs.Pairwise (fun a b => a.key ≠ b.key) :=
  List.pairwise_map.mpr (values.sorted.imp fun hlt hkey => ne_of_lt hlt (congrArg byteOrder hkey))

/-- After a restart as before it, a successful put with a server-assigned timestamp
is what `read_all` returns if and only if it outruns what is stored, or that has
its value and expiry. After a config init `read_all` returns every init value
without expiry if and only if that holds of each of its puts. -/
theorem acknowledged_iff {n : Node} (hn : n.Reachable) :
    (∀ req clock n', req.modifiedAtMicros = none → upsertValue n req clock = (.ok (), n') →
      Fits n'.sql →
      (Reads n'.sql req.key req.value req.expiresAtMicros ↔
        Outruns n req clock ∨ Holds n.sql req)) ∧
    ∀ (values : InitValues) clocks n', configInit values clocks n.sql = (.ok (), n') →
      Fits n'.sql →
      ((∀ kv ∈ values.items, Reads n'.sql kv.1 kv.2 none) ↔
        OutrunsAll values.reqs clocks ⟨n.sql, 0⟩) := by
  constructor
  · intro req clock n' hnone hput hfits
    rw [reads_iff (hn.cfgOk.upsertValue hput) hfits, put_holds_iff hnone hput]
  · intro values clocks n' hinit hfits
    have hnone : ∀ req ∈ values.reqs, req.modifiedAtMicros = none := by
      intro req hreq
      obtain ⟨kv, _, rfl⟩ := List.mem_map.mp hreq
      rfl
    rw [← run_holds_iff hnone values.reqs_pairwise hinit, InitValues.reqs, List.forall_mem_map]
    refine forall_congr' fun kv => forall_congr' fun _ => ?_
    exact reads_iff (CfgOk.upsertAll (n := ⟨n.sql, 0⟩) hn.cfgOk hinit) hfits ⟨kv.1, kv.2, none, none⟩

def Node.restartedAfter (req : CfgPutReq) : Node :=
  ⟨(upsertValue Node.init req fun _ => 1000).2.sql, 0⟩

theorem Node.restartedAfter_reachable (req : CfgPutReq) : (Node.restartedAfter req).Reachable :=
  Reach.tail .restart (.tail (.put req fun _ => 1000) .refl trivial rfl) trivial rfl

def initOne (key value : String) : InitValues := ⟨[(key, value)], List.pairwise_singleton _ _⟩

/-- The clock has passed what is stored. -/
theorem acknowledged_iff_later :
    ∃ n', configInit (initOne "k" "new") (fun _ _ => 2000)
        (Node.restartedAfter ⟨"k", "old", none, none⟩).sql = (.ok (), n') ∧
      Reads n'.sql "k" "new" none := by
  have hn := Node.restartedAfter_reachable ⟨"k", "old", none, none⟩
  have hok : (configInit (initOne "k" "new") (fun _ _ => 2000)
      (Node.restartedAfter ⟨"k", "old", none, none⟩).sql).1 = .ok () := by decide +kernel
  have hfits : Fits (configInit (initOne "k" "new") (fun _ _ => 2000)
      (Node.restartedAfter ⟨"k", "old", none, none⟩).sql).2.sql := by
    unfold Fits
    decide +kernel
  have htimes : ∀ e ∈ (Node.restartedAfter ⟨"k", "old", none, none⟩).sql.entries.rows,
      e.modifiedAtMicros < 2000 := by decide +kernel
  refine ⟨_, Prod.ext hok rfl, ?_⟩
  refine (((acknowledged_iff hn).2 (initOne "k" "new") (fun _ _ => 2000) _ (Prod.ext hok rfl)
    hfits).mpr ⟨.inl ?_, trivial⟩) ("k", "new") (List.mem_singleton.mpr rfl)
  refine (outruns_iff (by decide) fun i => by simp only; decide).mpr fun e he => .inr ?_
  exact htimes e (Table.find?_eq_some_iff.mp he).1

/-- A stored timestamp ahead of the clock outlives a config init. -/
theorem acknowledged_lost :
    ∃ n n', n.Reachable ∧
      configInit (initOne "k" "new") (fun _ _ => 2000) n.sql = (.ok (), n') ∧
      ¬Reads n'.sql "k" "new" none ∧
      ∃ n'', upsertValue n ⟨"k", "new", none, none⟩ (fun _ => 2000) = (.ok (), n'') ∧
        ¬Reads n''.sql "k" "new" none := by
  have hread : ∀ {sql : Sql}, readAll sql = .ok [⟨"k", "old", 5000, none⟩] →
      ¬Reads sql "k" "new" none := by
    rintro sql heq ⟨l, hl, _, hall⟩
    cases heq.symm.trans hl
    have hvalue := (hall _ (List.mem_singleton.mpr rfl) rfl).1
    simp at hvalue
  refine ⟨_, _, Node.restartedAfter_reachable ⟨"k", "old", none, some 5000⟩,
    Prod.ext (by decide +kernel) rfl, hread (by decide +kernel), _,
    Prod.ext (by decide +kernel) rfl, hread (by decide +kernel)⟩

end VmIo.Back
