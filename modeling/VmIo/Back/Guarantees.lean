import VmIo.Back.History

/-!
What clients of the service can rely on, whatever else it does at the time.

All of it is read off the history of a run, of which each event is explained. Nobody writes
without a key, a put that is acknowledged has been upserted once and one that failed never
is, and a listing shows what was written or shown before it was asked for.
-/

namespace VmIo.Back

open VmIo.Lib VmIo.Db VmIo.Chan

/-! ### A session that the results are run on -/

/-- A put of an older entry under the same key. -/
def staleBody : Types.CfgPutReq :=
  { putBody with value := ⟨"u", by decide⟩, modifiedAtMicros := some 1500 }

def staleReq : Request := testRequest "cfg-put" (Types.encode staleBody)

/-- A put, one that it supersedes, and two requests for the listing. -/
def session : List ServiceAction :=
  [.receive putReq, .call 0 .ok, .call 0 .ok, .put 0 .ok, .put 0 .ok, .put 0 .ok, .put 0 .ok,
    .put 0 .ok, .call 0 .ok, .receive staleReq, .call 1 .ok, .call 1 .ok, .put 1 .ok, .put 1 .ok,
    .put 1 .ok, .call 1 .ok, .receive getReq, .call 2 .ok, .call 2 .ok, .receive getReq,
    .call 3 .ok, .call 3 .ok]

def sessionValues : List CfgGetItem := [⟨"cfg-api-key~test", "", 1000, none⟩, ⟨"k", "v", 2000, none⟩]

def sessionPut : CfgPutReq := ⟨"k", "v", none, none⟩

def stalePut : CfgPutReq := ⟨"k", "u", none, some 1500⟩

def sessionRes : Response := resp .ok (Types.encode (cfgGetRes someTexts (.ok sessionValues)))

def sessionHistory : History :=
  [.answered 3 sessionRes, .listed 3 sessionValues, .granted 3 "test", .received 3 getReq,
    .answered 2 sessionRes, .listed 2 sessionValues, .granted 2 "test", .received 2 getReq,
    .answered 1 (resp .ok []), .upserted 1 (Put.row stalePut 1500) false, .called 1 1 stalePut,
    .granted 1 "test", .received 1 staleReq,
    .answered 0 (resp .ok []), .upserted 0 (Put.row sessionPut 2000) true, .called 0 0 sessionPut,
    .granted 0 "test", .received 0 putReq]

theorem session_serves : ∃ s, Serves someTexts testNode.sql ["a"] s sessionHistory ∧
    Put.row sessionPut 2000 ∈ s.server.node.sql.entries.rows := by
  obtain ⟨⟨s, h⟩, hrun, hh, hrow⟩ := Reach.exists_of_runOk (logged (serviceStep someTexts))
    (fun _ _ => True) (.start testNode.sql 2000 ["a"], []) session
    (fun q => q.2 = sessionHistory ∧ Put.row sessionPut 2000 ∈ q.1.server.node.sql.entries.rows)
    (by decide +kernel)
  cases (hh : h = sessionHistory)
  exact ⟨s, ⟨2000, hrun⟩, hrow⟩

theorem testNode_cfgOk : CfgOk testNode.sql := testNode_sound.stored.cfgOk

section History

variable {texts : Texts} {sql : Sql} {addrs : List String} {h : History}

/-- The database holds what its history leaves, one of the latest writes of each key since
it was last removed, and every event of the history is explained. -/
theorem service_explained {s : Service} (hsql : CfgOk sql) (hrun : Serves texts sql addrs s h) :
    Legal (Explained texts sql addrs) h ∧ s.server.node.sql.entries.find? = heldAfter sql h ∧
      ∀ key, (∀ row ∈ heldAfter sql h key, Lww.IsLatest EntryRow.modifiedAtMicros
          (Lww.writesOf EntryRow.pk sql.entries.find? key (h.filterMap ServiceEvent.change?)) row) ∧
        (heldAfter sql h key = none → Lww.writesOf EntryRow.pk sql.entries.find? key
          (h.filterMap ServiceEvent.change?) = ∅) :=
  ⟨hrun.legal hsql, (hrun.traced hsql).held, fun key => Lww.changed_latest _ key _⟩

theorem service_explained_session : ∃ s, Serves someTexts testNode.sql ["a"] s sessionHistory ∧
    Legal (Explained someTexts testNode.sql ["a"]) sessionHistory ∧
    s.server.node.sql.entries.find? = heldAfter testNode.sql sessionHistory := by
  obtain ⟨s, hrun, _⟩ := session_serves
  obtain ⟨hlegal, hheld, _⟩ := service_explained testNode_cfgOk hrun
  exact ⟨s, hrun, hlegal, hheld⟩

/-! ### Who writes -/

/-- A request that was let in, while its key was held, asked for the put. -/
def Permitted (texts : Texts) (sql : Sql) (h : History) (i : ℕ) (put : CfgPutReq) : Prop :=
  ∃ later earlier token req val name body input, h = later ++ .granted i token :: earlier ∧
    .received i req ∈ earlier ∧ req.authVal = some val ∧ authToken val = token ∧
    LetsIn (heldAfter sql earlier) token ∧ routed endpoints req = .ok (name, .cfgPut, body) ∧
    texts.decoder.put body = .ok input ∧ put = .ofWire input

theorem permitted_of_called (hlegal : Legal (Explained texts sql addrs) h) {i t : ℕ}
    {put : CfgPutReq} (hmem : .called i t put ∈ h) : Permitted texts sql h i put := by
  obtain ⟨later, before, rfl⟩ := List.append_of_mem hmem
  obtain ⟨token, req, body, input, ⟨hpart, name, hrouted⟩, hdecode, hput, _⟩ := hlegal.event
  have hgranted : .granted i token ∈ before :=
    (mem_callPart.mp (hpart ▸ List.mem_cons_self)).1
  obtain ⟨mid, earlier, rfl⟩ := List.append_of_mem hgranted
  have hbefore : Legal (Explained texts sql addrs) (mid ++ .granted i token :: earlier) :=
    (Legal.of_append hlegal).2
  obtain ⟨req', val, hpart', hval, htoken, hlets⟩ := hbefore.event
  have hreceived : .received i req' ∈ earlier :=
    (mem_callPart.mp (hpart' ▸ List.mem_cons_self)).1
  have hsame : req' = req := by
    have hmem' : .received i req' ∈ callPart i (mid ++ .granted i token :: earlier) :=
      mem_callPart.mpr ⟨by simp [hreceived], rfl⟩
    rw [hpart] at hmem'
    simpa using hmem'
  subst hsame
  exact ⟨later ++ .called i t put :: mid, earlier, token, req', val, name, body, input, by simp,
    hreceived, hval, htoken, hlets, hrouted, hdecode, hput⟩

theorem upserted_origin (hlegal : Legal (Explained texts sql addrs) h) {t : ℕ} {row : EntryRow}
    {applied : Bool} (hmem : .upserted t row applied ∈ h) :
    ∃ later before put modified, h = later ++ .upserted t row applied :: before ∧
      row = Put.row put modified ∧ (∀ m ∈ put.modifiedAtMicros, modified = m) ∧
      ((∃ addr ∈ addrs, ∃ expires, put = announcePut expires addr) ∨
        ∃ i, .called i t put ∈ before) := by
  obtain ⟨later, before, rfl⟩ := List.append_of_mem hmem
  obtain ⟨issue, put, modified, hpart, hissue, hrow, hown, _⟩ := hlegal.event
  obtain ⟨hissued, hput⟩ := mem_putPart.mp (hpart ▸ List.mem_singleton_self issue)
  refine ⟨later, before, put, modified, rfl, hrow, hown, ?_⟩
  cases issue with
  | called i u put' =>
      cases hissue
      cases hput
      exact .inr ⟨i, hissued⟩
  | announced u put' =>
      cases hissue
      obtain ⟨mid, earlier, rfl⟩ := List.append_of_mem hissued
      have hbefore : Legal (Explained texts sql addrs) (mid ++ .announced u put :: earlier) :=
        (Legal.of_append hlegal).2
      exact .inl hbefore.event.2
  | _ => cases hissue

theorem row_upserted {s : Service} (hsql : CfgOk sql) (hrun : Serves texts sql addrs s h)
    {row : EntryRow} (hrow : row ∈ s.server.node.sql.entries.rows) :
    row ∈ sql.entries.rows ∨ ∃ t, .upserted t row true ∈ h := by
  have hheld : row ∈ heldAfter sql h row.pk := by
    rw [← (hrun.traced hsql).held]
    exact Table.find?_pk hrow
  rcases Lww.mem_changed hheld with hinit | ⟨hwrite, _⟩
  · exact .inl (Table.find?_eq_some_iff.mp hinit).1
  · obtain ⟨e, he, hchange⟩ := List.mem_filterMap.mp hwrite
    obtain ⟨t, rfl⟩ := ServiceEvent.change?_eq_write hchange
    exact .inr ⟨t, he⟩

/-- A row of the database was there from the start, or it advertises an address of the
server, or it is what a request wrote that was let in with a key held at the time. -/
theorem writes_authorized {s : Service} (hsql : CfgOk sql) (hrun : Serves texts sql addrs s h)
    {row : EntryRow} (hrow : row ∈ s.server.node.sql.entries.rows) :
    row ∈ sql.entries.rows ∨
      ∃ later t before put modified, h = later ++ .upserted t row true :: before ∧
        row = Put.row put modified ∧ (∀ m ∈ put.modifiedAtMicros, modified = m) ∧
        ((∃ addr ∈ addrs, ∃ expires, put = announcePut expires addr) ∨
          ∃ i, Permitted texts sql before i put) := by
  refine (row_upserted hsql hrun hrow).imp_right ?_
  rintro ⟨t, hmem⟩
  have hlegal := hrun.legal hsql
  obtain ⟨later, before, put, modified, rfl, hput, hown, horigin⟩ := upserted_origin hlegal hmem
  refine ⟨later, t, before, put, modified, rfl, hput, hown, horigin.imp_right ?_⟩
  rintro ⟨i, hcalled⟩
  exact ⟨i, permitted_of_called (Legal.of_append hlegal).2 hcalled⟩

/-- The session writes a row that was not there. -/
theorem writes_authorized_session : ∃ s, Serves someTexts testNode.sql ["a"] s sessionHistory ∧
    Put.row sessionPut 2000 ∈ s.server.node.sql.entries.rows ∧
    Put.row sessionPut 2000 ∉ testNode.sql.entries.rows ∧ ∃ later t before i put,
      sessionHistory = later ++ .upserted t (Put.row sessionPut 2000) true :: before ∧
        Permitted someTexts testNode.sql before i put := by
  obtain ⟨s, hrun, hrow⟩ := session_serves
  have hnew : Put.row sessionPut 2000 ∉ testNode.sql.entries.rows := by decide +kernel
  rcases writes_authorized testNode_cfgOk hrun hrow with
    hinit | ⟨later, t, before, put, _, heq, hput, _, horigin⟩
  · exact absurd hinit hnew
  · rcases horigin with ⟨addr, _, expires, rfl⟩ | ⟨i, hpermitted⟩
    · -- the key is not one of an address
      have hkey : "k" = cfgAddrPrefix ++ addr := congrArg EntryRow.key hput
      have hlist := congrArg String.toList hkey
      simp [cfgAddrPrefix] at hlist
    · exact ⟨s, hrun, hrow, hnew, later, t, before, i, put, heq, hpermitted⟩

/-- No api key is held, and no request has been let in. -/
structure Locked (sql : Sql) (h : History) : Prop where
  held : ∀ token, heldAfter sql h (cfgClass, cfgApiKeyPrefix ++ token) = none
  granted : ∀ i token, .granted i token ∉ h

theorem addrPrefix_ne (addr token : String) : cfgAddrPrefix ++ addr ≠ cfgApiKeyPrefix ++ token := by
  intro heq
  have hlist := congrArg String.toList heq
  simp [cfgAddrPrefix, cfgApiKeyPrefix] at hlist

theorem locked_of_legal (hlegal : Legal (Explained texts sql addrs) h)
    (hkeys : ∀ token, sql.entries.find? (cfgClass, cfgApiKeyPrefix ++ token) = none) :
    Locked sql h := by
  induction h with
  | nil => exact ⟨hkeys, fun _ _ => List.not_mem_nil⟩
  | cons e h ih =>
      have hlocked := ih hlegal.2
      have hexplained := hlegal.1
      have hkeep : (∀ i token, e ≠ .granted i token) → e.change? = none → Locked sql (e :: h) := by
        intro hne hchange
        refine ⟨fun token => ?_, fun i token hmem => ?_⟩
        · rw [heldAfter_cons hchange]
          exact hlocked.held token
        · rcases List.mem_cons.mp hmem with heq | hmem
          · exact hne i token heq.symm
          · exact hlocked.granted i token hmem
      cases e with
      | granted i token =>
          obtain ⟨req, val, _, _, _, hlets⟩ := hexplained
          have hsome := hlets.2
          rw [hlocked.held token] at hsome
          contradiction
      | upserted t row applied =>
          obtain ⟨_, before, put, modified, heq, hrow, _, horigin⟩ :=
            upserted_origin hlegal List.mem_cons_self
          refine ⟨fun token => ?_, fun i token hmem => hlocked.granted i token (by simpa using hmem)⟩
          rcases horigin with ⟨addr, _, expires, rfl⟩ | ⟨i, hcalled⟩
          · have hpk : row.pk ≠ (cfgClass, cfgApiKeyPrefix ++ token) := by
              rw [hrow]
              exact fun hpk => addrPrefix_ne addr token (Prod.mk.inj hpk).2
            exact (heldAfter_of_ne hpk).trans (hlocked.held token)
          · have hlater : Legal (Explained texts sql addrs) before := by
              rw [heq] at hlegal
              exact (Legal.of_append hlegal).2
            obtain ⟨later, earlier, token', _, _, _, _, _, hbefore, _⟩ :=
              permitted_of_called hlater hcalled
            have hgranted : .granted i token' ∈ ServiceEvent.upserted t row applied :: h := by
              rw [heq, hbefore]
              simp
            exact absurd (by simpa using hgranted) (hlocked.granted i token')
      | pruned nowMicros keys =>
          refine ⟨fun token => ?_, fun i token hmem => hlocked.granted i token (by simpa using hmem)⟩
          rw [heldAfter_pruned, hlocked.held token]
          exact ite_self none
      | _ => exact hkeep (by simp) rfl

/-- A server whose database holds no api key lets nobody in. Every answer says so or that
the lookup has failed, and only addresses of the server are added to the database. -/
theorem locked_out {s : Service} (hsql : CfgOk sql) (hrun : Serves texts sql addrs s h)
    (hkeys : ∀ token, sql.entries.find? (cfgClass, cfgApiKeyPrefix ++ token) = none) :
    (∀ i res, .answered i res ∈ h →
        res.status = .unauthorized ∨ res.status = .internalServerError) ∧
      ∀ row ∈ s.server.node.sql.entries.rows, row ∈ sql.entries.rows ∨
        ∃ addr ∈ addrs, ∃ expires modified, row = Put.row (announcePut expires addr) modified := by
  have hlegal := hrun.legal hsql
  constructor
  · intro i res hmem
    obtain ⟨later, before, rfl⟩ := List.append_of_mem hmem
    have hlocked := locked_of_legal (Legal.of_append hlegal).2 hkeys
    have hno : ∀ token rest, callPart i before ≠ .granted i token :: rest := by
      intro token rest hpart
      exact hlocked.granted i token (mem_callPart.mp (hpart ▸ List.mem_cons_self)).1
    have hno' : ∀ e token rest, callPart i before ≠ e :: .granted i token :: rest := by
      intro e token rest hpart
      exact hlocked.granted i token
        (mem_callPart.mp (hpart ▸ List.mem_cons_of_mem _ List.mem_cons_self)).1
    cases (hlegal.event : Answer texts sql before i res) with
    | refused _ hres => exact hres.imp_left And.left
    | turnedAway hpart _ => exact absurd hpart (hno _ _)
    | health hasks => exact absurd hasks.1 (hno _ _)
    | listed hpart => exact absurd hpart (hno' _ _ _)
    | listFailed hasks => exact absurd hasks.1 (hno _ _)
    | malformed hasks _ => exact absurd hasks.1 (hno _ _)
    | put hpart _ => exact absurd hpart (hno' _ _ _)
    | putFailed hpart _ => exact absurd hpart (hno' _ _ _)
  · intro row hrow
    refine (row_upserted hsql hrun hrow).imp_right ?_
    rintro ⟨t, hmem⟩
    obtain ⟨later, before, put, modified, rfl, hput, _, horigin⟩ := upserted_origin hlegal hmem
    rcases horigin with ⟨addr, haddr, expires, rfl⟩ | ⟨i, hcalled⟩
    · exact ⟨addr, haddr, expires, modified, hput⟩
    · obtain ⟨_, earlier, token, _, _, _, _, _, rfl, _⟩ :=
        permitted_of_called (Legal.of_append hlegal).2 hcalled
      exact absurd (by simp) ((locked_of_legal hlegal hkeys).granted i token)

/-- A request to an empty server, and an address that it advertises. -/
theorem locked_out_empty : ∃ s h, Serves someTexts Sql.empty ["a"] s h ∧
    .answered 0 (respText .unauthorized "Unauthorized") ∈ h ∧
    ∀ i res, .answered i res ∈ h →
      res.status = .unauthorized ∨ res.status = .internalServerError := by
  obtain ⟨⟨s, h⟩, hrun, hanswered⟩ := Reach.exists_of_runOk (logged (serviceStep someTexts))
    (fun _ _ => True) (.start Sql.empty 2000 ["a"], [])
    [.receive putReq, .call 0 .ok, .announce, .announce, .put 0 .ok]
    (fun q => .answered 0 (respText .unauthorized "Unauthorized") ∈ q.2) (by decide +kernel)
  have hserves : Serves someTexts Sql.empty ["a"] s h := ⟨2000, hrun⟩
  have hempty : CfgOk Sql.empty := fun e he => absurd he List.not_mem_nil
  exact ⟨s, h, hserves, hanswered, (locked_out hempty hserves fun _ => rfl).1⟩

/-! ### What becomes of a put -/

theorem Explained.unanswered {e : ServiceEvent} {i : ℕ} (hexplained : Explained texts sql addrs h e)
    (he : e.call? = some i) (res : Response) (rest : History) :
    callPart i h ≠ .answered i res :: rest := by
  intro hpart
  cases e with
  | received j req =>
      cases he
      cases (hexplained : callPart i h = []).symm.trans hpart
  | granted j token =>
      cases he
      obtain ⟨req, val, hpart', _⟩ := hexplained
      cases hpart'.symm.trans hpart
  | listed j values =>
      cases he
      obtain ⟨token, req, body, hasks, _⟩ := hexplained
      cases hasks.1.symm.trans hpart
  | called j t put =>
      cases he
      obtain ⟨token, req, body, input, hasks, _⟩ := hexplained
      cases hasks.1.symm.trans hpart
  | answered j res' =>
      cases he
      cases (hexplained : Answer texts sql h i res') with
      | refused hpart' _ => cases hpart'.symm.trans hpart
      | turnedAway hpart' _ => cases hpart'.symm.trans hpart
      | health hasks => cases hasks.1.symm.trans hpart
      | listed hpart' => cases hpart'.symm.trans hpart
      | listFailed hasks => cases hasks.1.symm.trans hpart
      | malformed hasks _ => cases hasks.1.symm.trans hpart
      | put hpart' _ => cases hpart'.symm.trans hpart
      | putFailed hpart' _ => cases hpart'.symm.trans hpart
  | announced t put => cases he
  | upserted t row applied => cases he
  | pruned nowMicros keys => cases he

theorem answered_last {later before : History} {i : ℕ} {res : Response}
    (hlegal : Legal (Explained texts sql addrs) (later ++ .answered i res :: before)) :
    callPart i (later ++ .answered i res :: before) = .answered i res :: callPart i before := by
  induction later with
  | nil => exact callPart_cons rfl
  | cons e later ih =>
      have hpart := ih hlegal.2
      by_cases he : e.call? = some i
      · exact absurd hpart (hlegal.1.unanswered he res _)
      · exact (callPart_skip he).trans hpart

theorem putPart_last {later before : History} {t : ℕ}
    (hlegal : Legal (Explained texts sql addrs) (later ++ before))
    (hdone : (∃ row applied issue, putPart t before = [.upserted t row applied, issue]) ∨
      ∃ i put res, putPart t before = [.called i t put] ∧ .answered i res ∈ before) :
    putPart t (later ++ before) = putPart t before := by
  induction later with
  | nil => rfl
  | cons e later ih =>
      have hpart := ih hlegal.2
      by_cases he : e.put? = some t
      · exfalso
        have hne : putPart t before ≠ [] := by
          rcases hdone with ⟨row, applied, issue, hbefore⟩ | ⟨i, put, res, hbefore, _⟩
          · simp [hbefore]
          · simp [hbefore]
        cases e with
        | called i u put =>
            cases he
            obtain ⟨_, _, _, _, _, _, _, hnil⟩ := hlegal.1
            exact hne (hpart.symm.trans hnil)
        | announced u put =>
            cases he
            exact hne (hpart.symm.trans hlegal.1.1)
        | upserted u row applied =>
            cases he
            obtain ⟨issue, _, _, hissue, _, _, _, hhead, _⟩ := hlegal.1
            rcases hdone with ⟨row', applied', issue', hbefore⟩ | ⟨i, put, res, hbefore, hanswered⟩
            · cases hbefore.symm.trans (hpart.symm.trans hissue)
            · cases hbefore.symm.trans (hpart.symm.trans hissue)
              obtain ⟨mid, earlier, rfl⟩ := List.append_of_mem hanswered
              have hrest : Legal (Explained texts sql addrs)
                  ((later ++ mid) ++ .answered i res :: earlier) := by
                rw [List.append_assoc]
                exact hlegal.2
              have hlast := answered_last hrest
              rw [List.append_assoc] at hlast
              cases (congrArg List.head? hlast).symm.trans (hhead i rfl)
        | _ => cases he
      · exact (putPart_skip he).trans hpart

theorem received_unique {i : ℕ} {req req' : Request} (hlegal : Legal (Explained texts sql addrs) h)
    (hmem : .received i req ∈ h) (hmem' : .received i req' ∈ h) : req = req' := by
  induction h with
  | nil => cases hmem
  | cons e h ih =>
      have hnew : ∀ {req₁ req₂ : Request}, e = .received i req₁ → .received i req₂ ∉ h := by
        rintro req₁ req₂ rfl hold
        have hnil : callPart i h = [] := hlegal.1
        exact List.ne_nil_of_mem (mem_callPart.mpr ⟨hold, rfl⟩) hnil
      rcases List.mem_cons.mp hmem with rfl | hold
      · rcases List.mem_cons.mp hmem' with heq | hold'
        · cases heq
          rfl
        · exact absurd hold' (hnew rfl)
      · rcases List.mem_cons.mp hmem' with heq | hold'
        · exact absurd hold (hnew heq.symm)
        · exact ih hlegal.2 hold hold'

theorem mem_of_callPart {i : ℕ} {e : ServiceEvent} {part : History} (hpart : callPart i h = part)
    (he : e ∈ part) : e ∈ h := (mem_callPart.mp (hpart ▸ he)).1

theorem Asks.received {i : ℕ} {token : String} {req : Request} {endpoint : Endpoint} {body : Bytes}
    (hasks : Asks h i token req endpoint body) : .received i req ∈ h :=
  mem_of_callPart hasks.1 (List.mem_cons_of_mem _ (List.mem_singleton_self _))

theorem Asks.unique {i : ℕ} {token name : String} {req req' : Request} {endpoint endpoint' : Endpoint}
    {body body' : Bytes} (hlegal : Legal (Explained texts sql addrs) h)
    (hasks : Asks h i token req endpoint body) (hreceived : .received i req' ∈ h)
    (hrouted : routed endpoints req' = .ok (name, endpoint', body')) :
    endpoint = endpoint' ∧ body = body' := by
  obtain rfl := received_unique hlegal hreceived hasks.received
  obtain ⟨name', hrouted'⟩ := hasks.2
  cases hrouted'.symm.trans hrouted
  exact ⟨rfl, rfl⟩

theorem not_listed {i : ℕ} {values : List CfgGetItem} {req : Request} {name : String} {body : Bytes}
    (hlegal : Legal (Explained texts sql addrs) h) (hreceived : .received i req ∈ h)
    (hrouted : routed endpoints req = .ok (name, .cfgPut, body)) : .listed i values ∉ h := by
  intro hmem
  obtain ⟨later, before, rfl⟩ := List.append_of_mem hmem
  obtain ⟨token, req', body', hasks, _⟩ := hlegal.event
  have hreceived' : .received i req ∈ before := by
    rw [received_unique hlegal hreceived
      (List.mem_append_right later (List.mem_cons_of_mem _ hasks.received))]
    exact hasks.received
  cases (hasks.unique (Legal.of_append hlegal).2 hreceived' hrouted).1

theorem called_input {i t : ℕ} {put : CfgPutReq} {req : Request} {name : String} {body : Bytes}
    (hlegal : Legal (Explained texts sql addrs) h) (hmem : .called i t put ∈ h)
    (hreceived : .received i req ∈ h)
    (hrouted : routed endpoints req = .ok (name, .cfgPut, body)) :
    ∃ input, texts.decoder.put body = .ok input ∧ put = .ofWire input := by
  obtain ⟨later, before, rfl⟩ := List.append_of_mem hmem
  obtain ⟨token, req', body', input, hasks, hdecode, hput, _⟩ := hlegal.event
  have hreceived' : .received i req ∈ before := by
    rw [received_unique hlegal hreceived
      (List.mem_append_right later (List.mem_cons_of_mem _ hasks.received))]
    exact hasks.received
  obtain ⟨_, rfl⟩ := hasks.unique (Legal.of_append hlegal).2 hreceived' hrouted
  exact ⟨input, hdecode, hput⟩

/-- What the statement of a put went through with: a row with what was asked for, which is
stored exactly if it is newer than what its key held. -/
structure Upserted (sql : Sql) (put : CfgPutReq) (row : EntryRow) (applied : Bool)
    (before : History) : Prop where
  asked : ∃ modified, row = Put.row put modified ∧ ∀ m ∈ put.modifiedAtMicros, modified = m
  applied_iff : applied = true ↔
    Lww.Fresh EntryRow.pk EntryRow.modifiedAtMicros (heldAfter sql before) row

theorem upserted_of_part {i t : ℕ} {put : CfgPutReq} {row : EntryRow} {applied : Bool}
    (hlegal : Legal (Explained texts sql addrs) h)
    (hpart : putPart t h = [.upserted t row applied, .called i t put]) :
    ∃ later before, h = later ++ .upserted t row applied :: before ∧
      Upserted sql put row applied before := by
  have hmem : .upserted t row applied ∈ h := (mem_putPart.mp (hpart ▸ List.mem_cons_self)).1
  obtain ⟨later, before, rfl⟩ := List.append_of_mem hmem
  obtain ⟨issue, put', modified, hbefore, hissue, hrow, hown, _, happlied, _⟩ := hlegal.event
  have hall : putPart t later ++ [.upserted t row applied, issue] =
      [.upserted t row applied, .called i t put] := by
    rw [← hpart, putPart, putPart, List.filter_append, ← putPart, ← putPart, putPart_cons rfl, hbefore]
  have hnil : putPart t later = [] := by
    have hlen := congrArg List.length hall
    simp only [List.length_append, List.length_cons, List.length_nil] at hlen
    exact List.length_eq_zero_iff.mp (by omega)
  rw [hnil] at hall
  cases hall
  cases hissue
  exact ⟨later, before, rfl, ⟨modified, hrow, hown⟩, happlied⟩

/-- A `cfg-put` that is answered with success has called one put, as its body says, and the
statement of that went through once. One that is answered otherwise has upserted nothing and
never will. -/
theorem put_once {s : Service} (hsql : CfgOk sql) (hrun : Serves texts sql addrs s h) {i : ℕ}
    {req : Request} {name : String} {body : Bytes} {res : Response} (hreceived : .received i req ∈ h)
    (hrouted : routed endpoints req = .ok (name, .cfgPut, body))
    (hanswered : .answered i res ∈ h) :
    (res = resp .ok [] ∧ ∃ token t input row applied, texts.decoder.put body = .ok input ∧
        callPart i h = [.answered i res, .called i t (.ofWire input), .granted i token,
          .received i req] ∧
        putPart t h = [.upserted t row applied, .called i t (.ofWire input)] ∧
        ∃ later before, h = later ++ .upserted t row applied :: before ∧
          Upserted sql (.ofWire input) row applied before) ∨
      (res.status ≠ .ok ∧
        ∀ t put row applied, .called i t put ∈ h → .upserted t row applied ∉ h) := by
  have hcode : StatusCode.unauthorized ≠ StatusCode.ok ∧
      StatusCode.internalServerError ≠ StatusCode.ok := by decide
  have hlegal := hrun.legal hsql
  obtain ⟨later, before, rfl⟩ := List.append_of_mem hanswered
  have hbefore : Legal (Explained texts sql addrs) before := (Legal.of_append hlegal).2
  have hlast := answered_last hlegal
  have hpast : ∀ e, e.call? = some i → (∀ res, e ≠ .answered i res) →
      e ∈ later ++ .answered i res :: before → e ∈ callPart i before := by
    intro e he hne hmem
    have hmem := mem_callPart.mpr ⟨hmem, he⟩
    rw [hlast] at hmem
    exact (List.mem_cons.mp hmem).resolve_left (hne res)
  have hasked : .received i req ∈ before := (mem_callPart.mp (hpast _ rfl (by simp) hreceived)).1
  have hidle : (∀ t put, .called i t put ∉ callPart i before) → ∀ t put row applied,
      .called i t put ∈ later ++ .answered i res :: before →
      .upserted t row applied ∉ later ++ .answered i res :: before :=
    fun hnone t put _ _ hmem => absurd (hpast _ rfl (by simp) hmem) (hnone t put)
  have hputPart : ∀ {t : ℕ} {part : History}, putPart t before = part →
      putPart t (.answered i res :: before) = part := fun hpart =>
    (putPart_skip (by simp [ServiceEvent.put?])).trans hpart
  cases (hlegal.event : Answer texts sql before i res) with
  | refused hpart hres =>
      refine .inr ⟨?_, hidle fun t put hmem => by simp [hpart] at hmem⟩
      rcases hres with ⟨hres, _⟩ | hres
      · exact hres ▸ hcode.1
      · exact hres ▸ hcode.2
  | @turnedAway token req' res hpart hrefused =>
      obtain rfl := received_unique hbefore hasked
        (mem_of_callPart (e := .received i req') hpart (by simp))
      cases hrefused.symm.trans hrouted
  | health hasks => cases (hasks.unique hbefore hasked hrouted).1
  | listed hpart =>
      exact absurd (mem_of_callPart hpart List.mem_cons_self) (not_listed hbefore hasked hrouted)
  | listFailed hasks => cases (hasks.unique hbefore hasked hrouted).1
  | malformed hasks _ =>
      exact .inr ⟨hcode.2, hidle fun t put hmem => by simp [hasks.1] at hmem⟩
  | @put token req' t put row applied hpart hput =>
      obtain rfl := received_unique hbefore hasked
        (mem_of_callPart (e := .received i req') hpart (by simp))
      obtain ⟨input, hdecode, rfl⟩ :=
        called_input hbefore (mem_of_callPart hpart List.mem_cons_self) hasked hrouted
      have hend := (putPart_last hlegal (.inl ⟨_, _, _, hputPart hput⟩)).trans (hputPart hput)
      exact .inl ⟨rfl, token, t, input, row, applied, hdecode,
        hlast.trans (congrArg _ hpart), hend, upserted_of_part hlegal hend⟩
  | @putFailed token req' t put e hpart hput =>
      refine .inr ⟨hcode.2, fun t' put' row applied hmem hupserted => ?_⟩
      have hmem := hpast _ rfl (by simp) hmem
      rw [hpart] at hmem
      simp only [List.mem_cons, ServiceEvent.called.injEq, true_and, reduceCtorEq,
        List.not_mem_nil, or_false] at hmem
      obtain ⟨rfl, rfl⟩ := hmem
      have hend := (putPart_last hlegal
        (.inr ⟨i, _, _, hputPart hput, List.mem_cons_self⟩)).trans (hputPart hput)
      have hmem' := mem_putPart.mpr ⟨hupserted, rfl⟩
      rw [hend] at hmem'
      simp at hmem'

/-- Both puts of the session are acknowledged, and the first has stored its row. -/
theorem put_once_session : ∃ s, Serves someTexts testNode.sql ["a"] s sessionHistory ∧
    (∃ t row, putPart t sessionHistory = [.upserted t row true, .called 0 t sessionPut]) ∧
    ∃ t row, putPart t sessionHistory = [.upserted t row false, .called 1 t stalePut] := by
  obtain ⟨s, hrun, _⟩ := session_serves
  have hput : ∀ i req body put, .received i req ∈ sessionHistory →
      routed endpoints req = .ok ("cfg-put", .cfgPut, body) →
      .answered i (resp .ok []) ∈ sessionHistory →
      (someTexts.decoder.put body).map CfgPutReq.ofWire = .ok put →
      ∃ t row applied, putPart t sessionHistory = [.upserted t row applied, .called i t put] := by
    intro i req body put hreceived hrouted hanswered hdecode
    rcases put_once testNode_cfgOk hrun hreceived hrouted hanswered with
      ⟨_, _, t, input, row, applied, hinput, _, hpart, _⟩ | ⟨hstatus, _⟩
    · rw [hinput] at hdecode
      cases hdecode
      exact ⟨t, row, applied, hpart⟩
    · exact absurd rfl hstatus
  have hevents : ∀ {i t row applied put}, putPart t sessionHistory =
      [.upserted t row applied, .called i t put] → t = i ∧ applied = decide (t = 0) := by
    intro i t row applied put hpart
    have hupserted : .upserted t row applied ∈ sessionHistory :=
      (mem_putPart.mp (hpart ▸ List.mem_cons_self)).1
    have hcalled : .called i t put ∈ sessionHistory :=
      (mem_putPart.mp (hpart ▸ List.mem_cons_of_mem _ (List.mem_singleton_self _))).1
    simp only [sessionHistory, List.mem_cons, ServiceEvent.upserted.injEq,
      ServiceEvent.called.injEq, reduceCtorEq, false_or, List.not_mem_nil, or_false]
      at hupserted hcalled
    refine ⟨?_, ?_⟩
    · rcases hcalled with ⟨rfl, rfl, _⟩ | ⟨rfl, rfl, _⟩ <;> rfl
    · rcases hupserted with ⟨rfl, _, rfl⟩ | ⟨rfl, _, rfl⟩ <;> rfl
  obtain ⟨t, row, applied, hfirst⟩ := hput 0 putReq (Types.encode putBody) sessionPut
    (by decide +kernel) (by decide +kernel) (by decide +kernel) (by decide +kernel)
  obtain ⟨t', row', applied', hsecond⟩ := hput 1 staleReq (Types.encode staleBody) stalePut
    (by decide +kernel) (by decide +kernel) (by decide +kernel) (by decide +kernel)
  obtain ⟨rfl, rfl⟩ := hevents hfirst
  obtain ⟨rfl, rfl⟩ := hevents hsecond
  exact ⟨s, hrun, ⟨_, row, hfirst⟩, _, row', hsecond⟩

/-! ### What a listing shows -/

/-- After `before`, a prune has found the entry of the key expired and removed it. -/
def Removed (sql : Sql) (mid before : History) (key : String) : Prop :=
  ∃ later nowMicros keys earlier row, mid = later ++ .pruned nowMicros keys :: earlier ∧
    (cfgClass, key) ∈ keys ∧ row ∈ heldAfter sql (earlier ++ before) (cfgClass, key) ∧
    Sql.EntryExpired nowMicros row

/-- A listing shows the entry or a later one for its key, unless it is as long as its limit. -/
def Shows (values : List CfgGetItem) (row : EntryRow) : Prop :=
  i64Max.toNat ≤ values.length ∨
    ∃ item ∈ values, item.row = row ∨
      item.key = row.key ∧ row.modifiedAtMicros < item.modifiedAtMicros

theorem heldAfter_pk {key : String × String} {row : EntryRow}
    (hrow : row ∈ heldAfter sql h key) : row.pk = key := by
  rcases Lww.mem_changed hrow with hinit | ⟨_, hpk⟩
  · exact (Table.find?_eq_some_iff.mp hinit).2
  · exact hpk

theorem heldAfter_mono {mid before : History} {key : String × String} {row : EntryRow}
    (hrow : row ∈ heldAfter sql before key)
    (hkeep : ∀ nowMicros keys, .pruned nowMicros keys ∈ mid → key ∉ keys) :
    ∃ row' ∈ heldAfter sql (mid ++ before) key,
      row' = row ∨ row.modifiedAtMicros < row'.modifiedAtMicros := by
  rw [heldAfter, List.filterMap_append]
  refine Lww.changed_mono hrow _ fun keys hkeys => ?_
  obtain ⟨e, he, hchange⟩ := List.mem_filterMap.mp hkeys
  obtain ⟨nowMicros, rfl⟩ := ServiceEvent.change?_eq_remove hchange
  exact hkeep nowMicros _ he

theorem held_item (hsql : CfgOk sql) (hlegal : Legal (Explained texts sql addrs) h) {key : String}
    {row : EntryRow} (hrow : row ∈ heldAfter sql h (cfgClass, key)) :
    ∃ item : CfgGetItem, row = item.row ∧ item.key = key := by
  rcases Lww.mem_changed hrow with hinit | ⟨hwrite, hpk⟩
  · obtain ⟨hmem, hpk⟩ := Table.find?_eq_some_iff.mp hinit
    exact ⟨EntryRow.item row, (hsql row hmem).row_item.symm, (Prod.mk.inj hpk).2⟩
  · obtain ⟨e, he, hchange⟩ := List.mem_filterMap.mp hwrite
    obtain ⟨t, rfl⟩ := ServiceEvent.change?_eq_write hchange
    obtain ⟨_, _, put, modified, _, rfl, _, _⟩ := upserted_origin hlegal he
    exact ⟨⟨put.key, put.value, modified, put.expiresAtMicros⟩, rfl, (Prod.mk.inj hpk).2⟩

/-- A listing shows what was held before, unless it has expired and was removed since. -/
theorem listed_after (hsql : CfgOk sql) {later mid before : History} {j : ℕ}
    {values : List CfgGetItem}
    (hlegal : Legal (Explained texts sql addrs) (later ++ .listed j values :: (mid ++ before)))
    {key : String} {row : EntryRow} (hrow : row ∈ heldAfter sql before (cfgClass, key)) :
    Shows values row ∨ Removed sql mid before key := by
  by_cases hremoved : Removed sql mid before key
  · exact .inr hremoved
  · have hkeep : ∀ nowMicros keys, .pruned nowMicros keys ∈ mid → (cfgClass, key) ∉ keys := by
      intro nowMicros keys hmem hkey
      obtain ⟨later', earlier, rfl⟩ := List.append_of_mem hmem
      have hpruned : Legal (Explained texts sql addrs)
          (later' ++ .pruned nowMicros keys :: (earlier ++ before)) := by
        have hrest := (Legal.of_append hlegal).2
        rwa [List.append_assoc, List.cons_append] at hrest
      obtain ⟨row, hrow, hexpired⟩ := hpruned.event _ hkey
      exact hremoved ⟨later', nowMicros, keys, earlier, row, rfl, hkey, hrow, hexpired⟩
    have hkey : row.pk = (cfgClass, key) := heldAfter_pk hrow
    obtain ⟨row', hrow', hlater⟩ := heldAfter_mono hrow hkeep
    obtain ⟨_, _, _, _, hlists⟩ := hlegal.event
    obtain ⟨item, rfl, rfl⟩ := held_item hsql (Legal.of_append hlegal).2 hrow'
    refine .inl ?_
    rcases lt_or_ge values.length i64Max.toNat with hlt | hge
    · refine .inr ⟨item, hlists.complete hlt item hrow', hlater.imp_right fun hlt' => ⟨?_, hlt'⟩⟩
      exact (Prod.mk.inj hkey).2.symm
    · exact .inl hge

theorem Upserted.held {put : CfgPutReq} {row : EntryRow} {applied : Bool} {before : History}
    (h : Upserted sql put row applied before) (t : ℕ) :
    ∃ held ∈ heldAfter sql (.upserted t row applied :: before) (cfgClass, put.key),
      (applied = true → held = row) ∧ row.modifiedAtMicros ≤ held.modifiedAtMicros := by
  obtain ⟨modified, rfl, _⟩ := h.asked
  cases applied with
  | true =>
      exact ⟨_, mem_heldAfter_applied (h.applied_iff.mp rfl), fun _ => rfl, le_rfl⟩
  | false =>
      have hold := mt h.applied_iff.mpr (by simp)
      simp only [Lww.Fresh, not_forall, not_lt] at hold
      obtain ⟨held, hheld, hle⟩ := hold
      exact ⟨held, hheld, by simp, hle⟩

/-- The listing of a `cfg-get` shows every write that was acknowledged before, or what superseded
it, or a later entry of its key, unless that has expired and was removed since. -/
theorem read_your_writes {s : Service} (hsql : CfgOk sql) (hrun : Serves texts sql addrs s h)
    {later mid before : History} {i j t : ℕ} {put : CfgPutReq} {values : List CfgGetItem}
    (hh : h = later ++ .listed j values :: (mid ++ .answered i (resp .ok []) :: before))
    (hcalled : .called i t put ∈ before) :
    ∃ row applied since earlier, before = since ++ .upserted t row applied :: earlier ∧
      Upserted sql put row applied earlier ∧
      ∃ held ∈ heldAfter sql (.upserted t row applied :: earlier) (cfgClass, put.key),
        (applied = true → held = row) ∧ row.modifiedAtMicros ≤ held.modifiedAtMicros ∧
        (Shows values held ∨ Removed sql (mid ++ .answered i (resp .ok []) :: since)
          (.upserted t row applied :: earlier) put.key) := by
  have hlegal := hrun.legal hsql
  rw [hh] at hlegal
  have hanswered := (Legal.of_append (Legal.of_append hlegal).2).1
  have hbefore := (Legal.of_append (Legal.of_append hlegal).2).2
  have hmem : .called i t put ∈ callPart i before := mem_callPart.mpr ⟨hcalled, rfl⟩
  obtain ⟨row, applied, hpart⟩ : ∃ row applied,
      putPart t before = [.upserted t row applied, .called i t put] := by
    generalize hres : resp .ok [] = res at hanswered
    cases (hanswered : Answer texts sql before i res) with
    | refused hpart _ => simp [hpart] at hmem
    | turnedAway hpart _ => simp [hpart] at hmem
    | health hasks => simp [hasks.1] at hmem
    | listed hpart => simp [hpart] at hmem
    | listFailed hasks => simp [hasks.1] at hmem
    | malformed hasks _ => simp [hasks.1] at hmem
    | @put token req t' put' row applied hpart hput =>
        rw [hpart] at hmem
        simp only [List.mem_cons, ServiceEvent.called.injEq, true_and, reduceCtorEq,
          List.not_mem_nil, or_false] at hmem
        obtain ⟨rfl, rfl⟩ := hmem
        exact ⟨row, applied, hput⟩
    | putFailed _ _ =>
        have hstatus : StatusCode.ok = StatusCode.internalServerError :=
          congrArg Response.status hres
        exact absurd hstatus (by decide)
  obtain ⟨since, earlier, rfl, hupserted⟩ := upserted_of_part hbefore hpart
  obtain ⟨held, hheld, hsame, hle⟩ := hupserted.held t
  -- the key has held this entry or a later one since the statement went through
  have hlisted : Legal (Explained texts sql addrs) (later ++ .listed j values ::
      ((mid ++ .answered i (resp .ok []) :: since) ++ .upserted t row applied :: earlier)) := by
    rw [List.append_assoc, List.cons_append]
    exact hlegal
  exact ⟨row, applied, since, earlier, rfl, hupserted, held, hheld, hsame, hle,
    listed_after hsql hlisted hheld⟩

/-- The first listing of the session shows the first put. -/
theorem read_your_writes_session : ∃ s, Serves someTexts testNode.sql ["a"] s sessionHistory ∧
    Shows sessionValues (Put.row sessionPut 2000) := by
  obtain ⟨s, hrun, _⟩ := session_serves
  have hh : sessionHistory = sessionHistory.take 5 ++ .listed 2 sessionValues ::
      ((sessionHistory.drop 6).take 7 ++ .answered 0 (resp .ok []) :: sessionHistory.drop 14) := rfl
  have hcalled : .called 0 0 sessionPut ∈ sessionHistory.drop 14 := by decide +kernel
  obtain ⟨row, applied, since, earlier, hsince, _, held, _, hsame, _, hshows⟩ :=
    read_your_writes testNode_cfgOk hrun hh hcalled
  have hupserted : .upserted 0 row applied ∈ sessionHistory.drop 14 := hsince ▸ by simp
  have hrow : row = Put.row sessionPut 2000 ∧ applied = true := by
    simpa [sessionHistory] using hupserted
  rw [hsame hrow.2, hrow.1] at hshows
  refine ⟨s, hrun, hshows.resolve_right ?_⟩
  -- nothing is pruned in the session
  rintro ⟨later, nowMicros, keys, earlier, row, hmid, _⟩
  have hmem : .pruned nowMicros keys ∈ (sessionHistory.drop 6).take 7 ++
      .answered 0 (resp .ok []) :: since := hmid ▸ by simp
  have hpruned : .pruned nowMicros keys ∈ sessionHistory := by
    rw [hh, hsince]
    simp only [List.mem_append, List.mem_cons] at hmem ⊢
    tauto
  simp [sessionHistory] at hpruned

/-- A listing shows every entry of an earlier listing, or a later one under its key, unless
that has expired and was removed in between. -/
theorem monotonic_reads {s : Service} (hsql : CfgOk sql) (hrun : Serves texts sql addrs s h)
    {later mid before : History} {i j : ℕ} {values values' : List CfgGetItem}
    (hh : h = later ++ .listed j values' :: (mid ++ .listed i values :: before))
    {item : CfgGetItem} (hitem : item ∈ values) :
    Shows values' item.row ∨ Removed sql mid (.listed i values :: before) item.key := by
  have hlegal := hrun.legal hsql
  rw [hh] at hlegal
  obtain ⟨_, _, _, _, hlists⟩ := (Legal.of_append (Legal.of_append hlegal).2).1
  have hheld : item.row ∈ heldAfter sql (.listed i values :: before) (cfgClass, item.key) := by
    rw [heldAfter_cons rfl]
    exact hlists.current item hitem
  exact listed_after hsql hlegal hheld

theorem monotonic_reads_session : ∃ s, Serves someTexts testNode.sql ["a"] s sessionHistory ∧
    Shows sessionValues (Put.row sessionPut 2000) := by
  obtain ⟨s, hrun, _⟩ := session_serves
  have hh : sessionHistory = [.answered 3 sessionRes] ++ .listed 3 sessionValues ::
      ([.granted 3 "test", .received 3 getReq, .answered 2 sessionRes] ++
        .listed 2 sessionValues :: sessionHistory.drop 6) := rfl
  have hitem : ⟨"k", "v", 2000, none⟩ ∈ sessionValues := by simp [sessionValues]
  refine ⟨s, hrun, (monotonic_reads testNode_cfgOk hrun hh hitem).resolve_right ?_⟩
  rintro ⟨later, nowMicros, keys, earlier, row, hmid, _⟩
  have hmem : .pruned nowMicros keys ∈ ([.granted 3 "test", .received 3 getReq,
      .answered 2 sessionRes] : History) := hmid ▸ by simp
  simp at hmem

end History

end VmIo.Back
