import VmIo.Back.Merge
import VmIo.Back.Service
import VmIo.Db.Prune

/-!
What a history of the service says about itself.

`Explained` is what the service is for, one event at a time, given the history before it. A
token is granted while its key is held, a listing is what is held, a put is upserted at most
once and only as it was asked for, and an answer tells what became of its request. The history of
every run is explained throughout, and the database holds what the history leaves in it
(`traced`).
-/

namespace VmIo.Back

open VmIo.Lib VmIo.Db VmIo.Chan

namespace ServiceEvent

def call? : ServiceEvent → Option ℕ
  | received i _ => some i
  | granted i _ => some i
  | listed i _ => some i
  | called i _ _ => some i
  | answered i _ => some i
  | announced _ _ => none
  | upserted _ _ _ => none
  | pruned _ _ => none

def put? : ServiceEvent → Option ℕ
  | called _ t _ => some t
  | announced t _ => some t
  | upserted t _ _ => some t
  | received _ _ => none
  | granted _ _ => none
  | listed _ _ => none
  | answered _ _ => none
  | pruned _ _ => none

def issue? : ServiceEvent → Option CfgPutReq
  | called _ _ put => some put
  | announced _ put => some put
  | _ => none

/-- What an event does to the entries. -/
def change? : ServiceEvent → Option (Lww.Change (String × String) EntryRow)
  | upserted _ row true => some (.write row)
  | pruned _ keys => some (.remove keys)
  | _ => none

theorem change?_eq_write {e : ServiceEvent} {row : EntryRow}
    (h : e.change? = some (.write row)) : ∃ t, e = upserted t row true := by
  unfold change? at h
  split at h
  · cases h
    exact ⟨_, rfl⟩
  · cases h
  · cases h

theorem change?_eq_remove {e : ServiceEvent} {keys : List (String × String)}
    (h : e.change? = some (.remove keys)) : ∃ nowMicros, e = pruned nowMicros keys := by
  unfold change? at h
  split at h
  · cases h
  · cases h
    exact ⟨_, rfl⟩
  · cases h

end ServiceEvent

def callPart (i : ℕ) (h : History) : History := h.filter fun e => e.call? = some i

def putPart (t : ℕ) (h : History) : History := h.filter fun e => e.put? = some t

def heldAfter (sql : Sql) (h : History) : String × String → Option EntryRow :=
  Lww.changed EntryRow.pk EntryRow.modifiedAtMicros sql.entries.find?
    (h.filterMap ServiceEvent.change?)

/-- A listing by ascending key of what is held: all of it, if it is not as long as its limit
of `i64::MAX`. -/
structure Lists (held : String × String → Option EntryRow) (values : List CfgGetItem) : Prop where
  sorted : values.Pairwise KeyLt
  current : ∀ item ∈ values, held (cfgClass, item.key) = some item.row
  complete : values.length < i64Max.toNat →
    ∀ item : CfgGetItem, held (cfgClass, item.key) = some item.row → item ∈ values

section Explained

variable (texts : Texts) (sql : Sql) (addrs : List String) (h : History)

/-- The request has been let in, and asks for an endpoint. -/
def Asks (i : ℕ) (token : String) (req : Request) (endpoint : Endpoint) (body : Bytes) : Prop :=
  callPart i h = [.granted i token, .received i req] ∧
    ∃ name, routed endpoints req = .ok (name, endpoint, body)

/-- What a request is answered, given its part in the history. -/
inductive Answer (i : ℕ) : Response → Prop
  | refused {req : Request} {res : Response} : callPart i h = [.received i req] →
      (res.status = .unauthorized ∧
          ∀ val, req.authVal = some val → ¬LetsIn (heldAfter sql h) (authToken val)) ∨
        res.status = .internalServerError → Answer i res
  | turnedAway {token : String} {req : Request} {res : Response} :
      callPart i h = [.granted i token, .received i req] → routed endpoints req = .error res →
      Answer i res
  | health {token : String} {req : Request} {body : Bytes} : Asks h i token req .health body →
      Answer i (handled (health body ()).1)
  | listed {token : String} {req : Request} {values : List CfgGetItem} :
      callPart i h = [.listed i values, .granted i token, .received i req] →
      Answer i (resp .ok (Types.encode (cfgGetRes texts (.ok values))))
  | listFailed {token : String} {req : Request} {body : Bytes} {e : IoError} :
      Asks h i token req .cfgGet body →
      Answer i (resp .ok (Types.encode (cfgGetRes texts (.error e))))
  | malformed {token : String} {req : Request} {body : Bytes} {e : String} :
      Asks h i token req .cfgPut body → texts.decoder.put body = .error e →
      Answer i (respText .internalServerError e)
  | put {token : String} {req : Request} {t : ℕ} {put : CfgPutReq} {row : EntryRow}
      {applied : Bool} : callPart i h = [.called i t put, .granted i token, .received i req] →
      putPart t h = [.upserted t row applied, .called i t put] → Answer i (resp .ok [])
  | putFailed {token : String} {req : Request} {t : ℕ} {put : CfgPutReq} {e : IoError} :
      callPart i h = [.called i t put, .granted i token, .received i req] →
      putPart t h = [.called i t put] → Answer i (respText .internalServerError (texts.io e))

/-- What an event says about the history before it. -/
def Explained : ServiceEvent → Prop
  | .received i _ => callPart i h = []
  | .granted i token => ∃ req val, callPart i h = [.received i req] ∧ req.authVal = some val ∧
      authToken val = token ∧ LetsIn (heldAfter sql h) token
  | .listed i values => ∃ token req body, Asks h i token req .cfgGet body ∧
      Lists (heldAfter sql h) values
  | .called i t put => ∃ token req body input, Asks h i token req .cfgPut body ∧
      texts.decoder.put body = .ok input ∧ put = .ofWire input ∧ putPart t h = []
  | .announced t put => putPart t h = [] ∧ ∃ addr ∈ addrs, ∃ expires, put = announcePut expires addr
  | .upserted t row applied => ∃ issue put modified, putPart t h = [issue] ∧
      issue.issue? = some put ∧ row = Put.row put modified ∧
      (∀ m ∈ put.modifiedAtMicros, modified = m) ∧
      (∀ i, issue.call? = some i → (callPart i h).head? = some issue) ∧
      (applied = true ↔ Lww.Fresh EntryRow.pk EntryRow.modifiedAtMicros (heldAfter sql h) row) ∧
      (applied = true → ¬Lww.Taken EntryRow.pk EntryRow.modifiedAtMicros (heldAfter sql h) row)
  | .pruned nowMicros keys => ∀ key ∈ keys, ∃ row ∈ heldAfter sql h key, Sql.EntryExpired nowMicros row
  | .answered i res => Answer texts sql h i res

end Explained

/-! ### What holds of every state -/

/-- The part a request has had, by where it is. -/
def CallPc.Traced (s : Server) (h : History) (i : ℕ) (req : Request) : CallPc → Prop
  | .received => callPart i h = [.received i req]
  | .admitted endpoint body => ∃ token, Asks h i token req endpoint body
  | .putting t => ∃ token put, callPart i h = [.called i t put, .granted i token, .received i req]
  | .answered res => ∃ rest, callPart i h = .answered i res :: rest ∧
      ∀ t put, .called i t put ∈ rest → (s.result t).isSome

/-- What a put has upserted, by where it is. -/
def PutPc.upserts (t : ℕ) (req : CfgPutReq) : PutPc → History
  | .done (.ok (modified, applied)) => [.upserted t (Put.row req modified) applied]
  | _ => []

def PutPc.Checked (req : CfgPutReq) : PutPc → Prop
  | .start => True
  | .done (.error _) => True
  | _ => checkValue req.key req.value = .ok ()

/-- A put with a timestamp of its own is not in the loop, and writes with that. -/
def PutPc.Own (req : CfgPutReq) : PutPc → Prop
  | .start => True
  | .fetchMax modified => req.modifiedAtMicros = some modified
  | .upsertAt modified => req.modifiedAtMicros = some modified
  | .done (.error _) => True
  | .done (.ok (modified, _)) => ∀ m ∈ req.modifiedAtMicros, modified = m
  | _ => req.modifiedAtMicros = none

structure Put.Traced (h : History) (t : ℕ) (p : Put) : Prop where
  part : ∃ issue, issue.issue? = some p.req ∧ putPart t h = p.pc.upserts t p.req ++ [issue]
  checked : p.pc.Checked p.req
  own : p.pc.Own p.req

def AnnouncePc.rest : AnnouncePc → List String
  | .asleep => []
  | .next _ rest => rest
  | .putting _ rest _ => rest

structure Traced (texts : Texts) (sql : Sql) (s : Service) (h : History) : Prop where
  legal : Legal (Explained texts sql s.addrs) h
  held : s.server.node.sql.entries.find? = heldAfter sql h
  cfgOk : CfgOk s.server.node.sql
  calls : ∀ i (call : Call), s.calls[i]? = some call → call.pc.Traced s.server h i call.req
  calls_length : ∀ i, s.calls.length ≤ i → callPart i h = []
  puts : ∀ t (p : Put), s.server.puts[t]? = some p → p.Traced h t
  puts_length : ∀ t, s.server.puts.length ≤ t → putPart t h = []
  announcer : ∀ addr ∈ s.announcer.rest, addr ∈ s.addrs

/-! ### Parts of a history -/

section Parts

variable {i t : ℕ} {e : ServiceEvent} {events h : History}

theorem callPart_cons (he : e.call? = some i) : callPart i (e :: h) = e :: callPart i h :=
  List.filter_cons_of_pos (decide_eq_true he)

theorem putPart_cons (he : e.put? = some t) : putPart t (e :: h) = e :: putPart t h :=
  List.filter_cons_of_pos (decide_eq_true he)

theorem callPart_skip (he : e.call? ≠ some i) : callPart i (e :: h) = callPart i h :=
  List.filter_cons_of_neg (by simpa using he)

theorem putPart_skip (he : e.put? ≠ some t) : putPart t (e :: h) = putPart t h :=
  List.filter_cons_of_neg (by simpa using he)

theorem callPart_other (hother : ∀ e ∈ events, e.call? ≠ some i) :
    callPart i (events ++ h) = callPart i h := by
  have hnil : callPart i events = [] :=
    List.filter_eq_nil_iff.mpr fun e he => by simpa using hother e he
  rw [callPart, List.filter_append, ← callPart, hnil, List.nil_append, callPart]

theorem putPart_other (hother : ∀ e ∈ events, e.put? ≠ some t) :
    putPart t (events ++ h) = putPart t h := by
  have hnil : putPart t events = [] :=
    List.filter_eq_nil_iff.mpr fun e he => by simpa using hother e he
  rw [putPart, List.filter_append, ← putPart, hnil, List.nil_append, putPart]

theorem mem_callPart : e ∈ callPart i h ↔ e ∈ h ∧ e.call? = some i := by
  simp [callPart, List.mem_filter]

theorem mem_putPart : e ∈ putPart t h ↔ e ∈ h ∧ e.put? = some t := by
  simp [putPart, List.mem_filter]

theorem heldAfter_other {sql : Sql} (hother : ∀ e ∈ events, e.change? = none) :
    heldAfter sql (events ++ h) = heldAfter sql h := by
  rw [heldAfter, List.filterMap_append, List.filterMap_eq_nil_iff.mpr hother, List.nil_append,
    heldAfter]

theorem heldAfter_pruned (sql : Sql) (nowMicros : ℤ) (keys : List (String × String)) (h : History)
    (key : String × String) :
    heldAfter sql (.pruned nowMicros keys :: h) key =
      if key ∈ keys then none else heldAfter sql h key := by
  rw [heldAfter, List.filterMap_cons_some (show ServiceEvent.change? _ = some (.remove keys) from rfl),
    Lww.changed_remove, heldAfter]
  congr

theorem heldAfter_of_ne {sql : Sql} {row : EntryRow} {applied : Bool} {key : String × String}
    (hne : row.pk ≠ key) :
    heldAfter sql (.upserted t row applied :: h) key = heldAfter sql h key := by
  cases applied with
  | false => rfl
  | true => exact Lww.deliver_of_ne hne

theorem mem_heldAfter_applied {sql : Sql} {row : EntryRow}
    (hfresh : Lww.Fresh EntryRow.pk EntryRow.modifiedAtMicros (heldAfter sql h) row) :
    row ∈ heldAfter sql (.upserted t row true :: h) row.pk :=
  Lww.mem_deliver.mpr (.inl ⟨rfl, rfl, hfresh⟩)

end Parts

/-! ### Frames -/

section Frames

variable {s s' : Server} {h h' : History} {i t : ℕ}

def Keeps (s s' : Server) : Prop := ∀ t, (s.result t).isSome → (s'.result t).isSome

theorem Keeps.refl (s : Server) : Keeps s s := fun _ h => h

theorem CallPc.Traced.frame {req : Request} {pc : CallPc} (hpc : pc.Traced s h i req)
    (hpart : callPart i h' = callPart i h) (hkeep : Keeps s s') : pc.Traced s' h' i req := by
  cases pc with
  | received => exact hpart.trans hpc
  | admitted endpoint body =>
      obtain ⟨token, hasks, hrouted⟩ := hpc
      exact ⟨token, hpart.trans hasks, hrouted⟩
  | putting t =>
      obtain ⟨token, put, hpc⟩ := hpc
      exact ⟨token, put, hpart.trans hpc⟩
  | answered res =>
      obtain ⟨rest, hpc, hres⟩ := hpc
      exact ⟨rest, hpart.trans hpc, fun t put hmem => hkeep t (hres t put hmem)⟩

theorem Put.Traced.frame {p : Put} (hp : p.Traced h t) (hpart : putPart t h' = putPart t h) :
    p.Traced h' t := by
  obtain ⟨issue, hissue, hp'⟩ := hp.part
  exact ⟨⟨issue, hissue, hpart.trans hp'⟩, hp.checked, hp.own⟩

theorem result_eq_some {res : Except IoError (ℤ × Bool)} (hres : s.result t = some res) :
    ∃ put, s.puts[t]? = some ⟨put, .done res⟩ := by
  rw [Server.result] at hres
  split at hres
  · rename_i put res' hp
    cases hres
    exact ⟨put, hp⟩
  · cases hres

theorem keeps_spawn (s : Server) (put : CfgPutReq) : Keeps s (s.spawn put) := by
  intro t hres
  obtain ⟨res, hres⟩ := Option.isSome_iff_exists.mp hres
  obtain ⟨put', hp⟩ := result_eq_some hres
  have hp' : (s.spawn put).puts[t]? = some ⟨put', .done res⟩ :=
    (List.getElem?_append_left (List.getElem?_eq_some_iff.mp hp).1).trans hp
  simp [Server.result, hp']

theorem keeps_put {p : Put} {n : Node} {pc : PutPc} (hp : s.puts[t]? = some p)
    (hput : PutStep s.node s.now p.req p.pc n pc) :
    Keeps s ⟨n, s.now, s.puts.set t ⟨p.req, pc⟩⟩ := by
  intro u hres
  obtain ⟨res, hres⟩ := Option.isSome_iff_exists.mp hres
  obtain ⟨put', hq⟩ := result_eq_some hres
  have hne : t ≠ u := by
    rintro rfl
    cases hp.symm.trans hq
    exact hput.not_done res rfl
  have hq' : (s.puts.set t ⟨p.req, pc⟩)[u]? = some ⟨put', .done res⟩ :=
    (List.getElem?_set_ne hne).trans hq
  simp [Server.result, hq']

end Frames

/-! ### What a step adds -/

theorem lists_readAll {sql : Sql} (hsql : CfgOk sql) {values : List CfgGetItem}
    (hread : readAll sql = .ok values) : Lists sql.entries.find? values := by
  rw [readAll_take hsql, List.map_take] at hread
  cases hread
  have hheld : ∀ item : CfgGetItem, sql.entries.find? (cfgClass, item.key) = some item.row ↔
      item ∈ items sql := by
    intro item
    rw [hsql.mem_items, Table.find?_eq_some_iff]
    exact and_iff_left rfl
  refine ⟨(items_pairwise sql).sublist (List.take_sublist _ _), fun item hitem => ?_,
    fun hlt item hitem => ?_⟩
  · exact (hheld item).mpr (List.mem_of_mem_take hitem)
  · rw [List.length_take] at hlt
    change item ∈ (items sql).take i64Max.toNat
    rw [List.take_of_length_le (by change _ < _ at hlt; unfold items; omega)]
    exact (hheld item).mp hitem

section CallStep

variable {texts : Texts} {sql : Sql} {addrs : List String} {s s' : Server} {h events : History}
  {i : ℕ} {req : Request} {pc pc' : CallPc}

theorem CallStep.call? (hstep : CallStep texts s i req pc s' pc' events) :
    ∀ e ∈ events, e.call? = some i := by
  cases hstep <;> simp [ServiceEvent.call?]

theorem CallStep.change? (hstep : CallStep texts s i req pc s' pc' events) :
    ∀ e ∈ events, e.change? = none := by
  cases hstep <;> simp [ServiceEvent.change?]

theorem CallStep.server (hstep : CallStep texts s i req pc s' pc' events) :
    (s' = s ∧ ∀ e ∈ events, e.put? = none) ∨
      ∃ put, s' = s.spawn put ∧ events = [.called i s.puts.length put] := by
  cases hstep with
  | put hdecode => exact .inr ⟨_, rfl, rfl⟩
  | _ => exact .inl ⟨rfl, by simp [ServiceEvent.put?]⟩

theorem answered_part {res : Response} {h : History} {rest : History} (hpart : callPart i h = rest)
    (hres : ∀ t put, .called i t put ∈ rest → (s.result t).isSome) :
    (CallPc.answered res).Traced s (.answered i res :: h) i req :=
  ⟨rest, (callPart_cons rfl).trans (congrArg _ hpart), hres⟩

theorem CallStep.explained (hlegal : Legal (Explained texts sql addrs) h)
    (hheld : s.node.sql.entries.find? = heldAfter sql h) (hcfg : CfgOk s.node.sql)
    (hputs : ∀ t (p : Put), s.puts[t]? = some p → p.Traced h t)
    (hlength : ∀ t, s.puts.length ≤ t → putPart t h = [])
    (hpc : pc.Traced s h i req) (hstep : CallStep texts s i req pc s' pc' events) :
    Legal (Explained texts sql addrs) (events ++ h) ∧ pc'.Traced s' (events ++ h) i req := by
  cases hstep with
  | refuse hrefused =>
      rw [Refused, hheld] at hrefused
      exact ⟨⟨.refused hpc hrefused, hlegal⟩, answered_part hpc (by simp)⟩
  | @turnAway val res hval hlets hrouted =>
      rw [hheld] at hlets
      have hpart : callPart i (.granted i (authToken val) :: h) =
          [.granted i (authToken val), .received i req] :=
        (callPart_cons rfl).trans (congrArg _ hpc)
      exact ⟨⟨.turnedAway hpart hrouted, ⟨req, val, hpc, hval, rfl, hlets⟩, hlegal⟩,
        answered_part hpart (by simp)⟩
  | @letIn val name endpoint body hval hlets hrouted =>
      rw [hheld] at hlets
      have hpart : callPart i (.granted i (authToken val) :: h) =
          [.granted i (authToken val), .received i req] :=
        (callPart_cons rfl).trans (congrArg _ hpc)
      exact ⟨⟨⟨req, val, hpc, hval, rfl, hlets⟩, hlegal⟩, _, hpart, name, hrouted⟩
  | health =>
      obtain ⟨token, hasks⟩ := hpc
      exact ⟨⟨.health hasks, hlegal⟩, answered_part hasks.1 (by simp)⟩
  | @list body values hread =>
      obtain ⟨token, hasks⟩ := hpc
      have hlists := lists_readAll hcfg hread
      rw [hheld] at hlists
      have hpart : callPart i (.listed i values :: h) =
          [.listed i values, .granted i token, .received i req] :=
        (callPart_cons rfl).trans (congrArg _ hasks.1)
      exact ⟨⟨.listed hpart, ⟨token, req, body, hasks, hlists⟩, hlegal⟩,
        answered_part hpart (by simp)⟩
  | listFail =>
      obtain ⟨token, hasks⟩ := hpc
      exact ⟨⟨.listFailed hasks, hlegal⟩, answered_part hasks.1 (by simp)⟩
  | malformed hdecode =>
      obtain ⟨token, hasks⟩ := hpc
      exact ⟨⟨.malformed hasks hdecode, hlegal⟩, answered_part hasks.1 (by simp)⟩
  | @put body input hdecode =>
      obtain ⟨token, hasks⟩ := hpc
      refine ⟨⟨⟨token, req, body, input, hasks, hdecode, rfl, hlength _ le_rfl⟩, hlegal⟩, ?_⟩
      exact ⟨token, _, (callPart_cons rfl).trans (congrArg _ hasks.1)⟩
  | @finish t res hres =>
      obtain ⟨token, put, hpart⟩ := hpc
      obtain ⟨put', hput⟩ := result_eq_some hres
      obtain ⟨issue, hissue, hputPart⟩ := (hputs t _ hput).part
      have hmem : ServiceEvent.called i t put ∈ putPart t h := by
        have hcalled : ServiceEvent.called i t put ∈ callPart i h := by
          rw [hpart]
          exact List.mem_cons_self
        exact mem_putPart.mpr ⟨(mem_callPart.mp hcalled).1, rfl⟩
      refine ⟨⟨?_, hlegal⟩, answered_part hpart ?_⟩
      · -- the put of the call is the one that has returned
        cases res with
        | ok r =>
            rw [hputPart] at hmem
            simp only [PutPc.upserts, List.cons_append, List.nil_append, List.mem_cons,
              reduceCtorEq, List.not_mem_nil, or_false, false_or] at hmem
            subst hmem
            exact .put hpart hputPart
        | error e =>
            rw [hputPart] at hmem
            simp only [PutPc.upserts, List.nil_append, List.mem_singleton] at hmem
            subst hmem
            exact .putFailed hpart hputPart
      · intro t' put'' hmem'
        simp only [List.mem_cons, ServiceEvent.called.injEq, reduceCtorEq, List.not_mem_nil,
          or_false, true_and] at hmem'
        rw [hmem'.1, hres]
        rfl

end CallStep

section Put

variable {n n' : Node} {now : ℤ} {t : ℕ} {req : CfgPutReq} {pc pc' : PutPc} {c : Choice}
  {events : List ServiceEvent}

theorem stepPut_checked (h : stepPut n now req pc c = some (n', pc')) (hpc : pc.Checked req) :
    pc'.Checked req := by
  unfold stepPut at h
  split at h
  · split at h
    · cases h
      trivial
    · rename_i hcheck
      split at h
      · cases h
        exact hcheck
      · cases h
        exact hcheck
  · cases h
    exact hpc
  · split at h
    · contradiction
    · cases h
      exact hpc
    · cases h
      trivial
  · cases h
    trivial
  · cases h
    exact hpc
  · cases h
    exact hpc
  · split at h
    · cases h
      exact hpc
    · cases h
      exact hpc
  · split at h
    · contradiction
    · cases h
      exact hpc
    · cases h
      exact hpc
  · contradiction

theorem PutPc.Checked.of_modified {modified : ℤ} (hpc : pc.Checked req)
    (hmod : modified ∈ pc.modified) : checkValue req.key req.value = .ok () := by
  cases pc with
  | done res =>
      cases res with
      | ok r => exact hpc
      | error e => cases hmod
  | start => cases hmod
  | _ => exact hpc

theorem PutPc.Own.of_modified {modified : ℤ} (hpc : pc.Own req) (hmod : modified ∈ pc.modified) :
    ∀ m ∈ req.modifiedAtMicros, modified = m := by
  intro m hm
  cases pc with
  | upsertAt modified' =>
      cases hmod
      exact Option.some.inj ((hpc : req.modifiedAtMicros = some _).symm.trans hm)
  | upsert left modified' =>
      cases (hpc : req.modifiedAtMicros = none).symm.trans hm
  | done res =>
      cases res with
      | ok r =>
          cases hmod
          exact hpc m hm
      | error e => cases hmod
  | _ => cases hmod

theorem PutStep.own (h : PutStep n now req pc n' pc') (hpc : pc.Own req) : pc'.Own req := by
  cases h with
  | refuse => trivial
  | explicit heq => exact heq
  | loop heq => exact heq
  | fetchMax => exact hpc
  | commitAt hup =>
      intro m hm
      exact Option.some.inj ((hpc : req.modifiedAtMicros = some _).symm.trans hm)
  | failAt => trivial
  | giveUp => trivial
  | clock => exact hpc
  | load => exact hpc
  | exchange => exact hpc
  | reload => exact hpc
  | commit hup =>
      intro m hm
      cases (hpc : req.modifiedAtMicros = none).symm.trans hm
  | retry => exact hpc

theorem PutStep.upserts (h : PutStep n now req pc n' pc') (t : ℕ) : pc.upserts t req = [] := by
  cases h <;> rfl

/-- A step of a put reports what it has upserted. -/
theorem WorkStep.upserts (h : WorkStep n now t req pc n' pc' events) :
    pc'.upserts t req = events := by
  cases h with
  | work _ _ hnot =>
      cases pc' with
      | done res =>
          cases res with
          | ok r => exact absurd rfl (hnot r)
          | error e => rfl
      | _ => rfl
  | commit _ _ _ => rfl

theorem WorkStep.call? (h : WorkStep n now t req pc n' pc' events) (i : ℕ) :
    ∀ e ∈ events, e.call? ≠ some i := by
  cases h <;> simp [ServiceEvent.call?]

theorem WorkStep.put? (h : WorkStep n now t req pc n' pc' events) :
    ∀ e ∈ events, e.put? = some t := by
  cases h <;> simp [ServiceEvent.put?]

end Put

theorem find?_pruneExpired (sql : Sql) (nowMicros limit : ℤ) (key : String × String) :
    (sql.pruneExpired nowMicros limit).1.entries.find? key =
      if key ∈ sql.expiredBatch nowMicros limit then none else sql.entries.find? key := by
  have hentries : (sql.pruneExpired nowMicros limit).1.entries =
      sql.entries.deleteWhere (fun e => e.pk ∈ sql.expiredBatch nowMicros limit) := rfl
  rw [hentries]
  split
  · rename_i hmem
    exact Table.find?_deleteWhere_of_drop fun e he => by simpa [he] using hmem
  · rename_i hkeep
    exact Table.find?_deleteWhere_of_keep fun e he => by simpa [he] using hkeep

/-! ### Runs -/

section Traced

variable {texts : Texts} {sql : Sql} {s s' : Service} {h events : History}

theorem heldAfter_cons {e : ServiceEvent} (he : e.change? = none) :
    heldAfter sql (e :: h) = heldAfter sql h := by
  rw [heldAfter, List.filterMap_cons_none he, heldAfter]

theorem Traced.puts_spawn (hs : Traced texts sql s h) {put : CfgPutReq} (issue : ServiceEvent)
    (hissue : issue.issue? = some put) (hput : issue.put? = some s.server.puts.length) :
    (∀ t (p : Put), (s.server.spawn put).puts[t]? = some p → p.Traced (issue :: h) t) ∧
      ∀ t, (s.server.spawn put).puts.length ≤ t → putPart t (issue :: h) = [] := by
  have hother : ∀ t, s.server.puts.length ≠ t → putPart t (issue :: h) = putPart t h := by
    intro t hne
    refine putPart_skip fun heq => hne ?_
    exact Option.some.inj (hput.symm.trans heq)
  constructor
  · intro t p hp
    rcases lt_or_ge t s.server.puts.length with hlt | hge
    · have hp' := hs.puts t p ((List.getElem?_append_left hlt).symm.trans hp)
      exact hp'.frame (hother t hlt.ne')
    · have hp' := (List.getElem?_append_right hge).symm.trans hp
      rw [List.getElem?_singleton] at hp'
      split at hp'
      · rename_i hzero
        cases hp'
        obtain rfl : t = s.server.puts.length := by omega
        refine ⟨⟨issue, hissue, ?_⟩, trivial, trivial⟩
        rw [putPart_cons hput, hs.puts_length _ le_rfl]
        rfl
      · cases hp'
  · intro t hle
    have hlen : (s.server.spawn put).puts.length = s.server.puts.length + 1 := by
      simp [Server.spawn]
    rw [hother t (by omega)]
    exact hs.puts_length t (by omega)

theorem Traced.receive (hs : Traced texts sql s h) (req : Request) :
    Traced texts sql { s with calls := s.calls ++ [⟨req, .received⟩] }
      (.received s.calls.length req :: h) := by
  have hother : ∀ i, s.calls.length ≠ i →
      callPart i (.received s.calls.length req :: h) = callPart i h := by
    intro i hne
    exact callPart_skip (by simpa [ServiceEvent.call?])
  refine ⟨⟨hs.calls_length _ le_rfl, hs.legal⟩, hs.held.trans (heldAfter_cons rfl).symm, hs.cfgOk,
    fun i call hcall => ?_, fun i hle => ?_, fun t p hp => (hs.puts t p hp).frame ?_,
    fun t hle => ?_, hs.announcer⟩
  · rcases lt_or_ge i s.calls.length with hlt | hge
    · have hcall' := hs.calls i call ((List.getElem?_append_left hlt).symm.trans hcall)
      exact hcall'.frame (hother i hlt.ne') (.refl _)
    · have hcall' := (List.getElem?_append_right hge).symm.trans hcall
      rw [List.getElem?_singleton] at hcall'
      split at hcall'
      · rename_i hzero
        cases hcall'
        obtain rfl : i = s.calls.length := by omega
        exact (callPart_cons rfl).trans (congrArg _ (hs.calls_length _ le_rfl))
      · cases hcall'
  · simp only [List.length_append, List.length_singleton] at hle
    rw [hother i (by omega)]
    exact hs.calls_length i (by omega)
  · exact putPart_skip (by simp [ServiceEvent.put?])
  · exact (putPart_skip (by simp [ServiceEvent.put?])).trans (hs.puts_length t hle)

theorem Traced.calls_frame (hs : Traced texts sql s h) {server : Server}
    (hkeep : Keeps s.server server) {h' : History} {i : ℕ} {call : Call}
    (hcall : s.calls[i]? = some call) (hpart : callPart i h' = callPart i h) :
    call.pc.Traced server h' i call.req :=
  (hs.calls i call hcall).frame hpart hkeep

theorem Traced.call (hs : Traced texts sql s h) {i : ℕ} {call : Call} {server : Server}
    {pc : CallPc} (hcall : s.calls[i]? = some call)
    (hstep : CallStep texts s.server i call.req call.pc server pc events) :
    Traced texts sql { s with server := server, calls := s.calls.set i ⟨call.req, pc⟩ }
      (events ++ h) := by
  obtain ⟨hlegal, hpc⟩ := hstep.explained hs.legal hs.held hs.cfgOk hs.puts hs.puts_length
    (hs.calls i call hcall)
  have hlt := (List.getElem?_eq_some_iff.mp hcall).1
  have hpart : ∀ j, i ≠ j → callPart j (events ++ h) = callPart j h := by
    intro j hne
    refine callPart_other fun e he heq => hne ?_
    exact Option.some.inj ((hstep.call? e he).symm.trans heq)
  have hheld : heldAfter sql (events ++ h) = heldAfter sql h := heldAfter_other hstep.change?
  have hcalls : Keeps s.server server → ∀ j (other : Call),
      (s.calls.set i ⟨call.req, pc⟩)[j]? = some other →
      other.pc.Traced server (events ++ h) j other.req := by
    intro hkeep j other hother
    by_cases hne : i = j
    · subst hne
      cases (List.getElem?_set_self hlt).symm.trans hother
      exact hpc
    · exact hs.calls_frame hkeep ((List.getElem?_set_ne hne).symm.trans hother) (hpart j hne)
  have hlength : ∀ j, (s.calls.set i ⟨call.req, pc⟩).length ≤ j → callPart j (events ++ h) = [] := by
    intro j hle
    rw [List.length_set] at hle
    rw [hpart j (by omega)]
    exact hs.calls_length j hle
  rcases hstep.server with ⟨rfl, hput⟩ | ⟨put, rfl, rfl⟩
  · have hputs : ∀ t, putPart t (events ++ h) = putPart t h := by
      intro t
      refine putPart_other fun e he => ?_
      rw [hput e he]
      exact (Option.some_ne_none t).symm
    exact ⟨hlegal, hs.held.trans hheld.symm, hs.cfgOk, hcalls (.refl _), hlength,
      fun t p hp => (hs.puts t p hp).frame (hputs t),
      fun t hle => (hputs t).trans (hs.puts_length t hle), hs.announcer⟩
  · obtain ⟨hputs, hputsLength⟩ := hs.puts_spawn (.called i s.server.puts.length put)
      rfl rfl
    exact ⟨hlegal, hs.held.trans hheld.symm, hs.cfgOk, hcalls (keeps_spawn _ _), hlength, hputs,
      hputsLength, hs.announcer⟩

theorem Traced.announce (hs : Traced texts sql s h) {server : Server} {announcer : AnnouncePc}
    (hstep : AnnounceStep s.server s.addrs s.announcer server announcer events) :
    Traced texts sql { s with server := server, announcer := announcer } (events ++ h) := by
  have hrest := hs.announcer
  generalize hpc : s.announcer = pc at hstep hrest
  cases hstep with
  | wake =>
      exact ⟨hs.legal, hs.held, hs.cfgOk, hs.calls, hs.calls_length, hs.puts, hs.puts_length,
        fun _ haddr => haddr⟩
  | sleep =>
      exact ⟨hs.legal, hs.held, hs.cfgOk, hs.calls, hs.calls_length, hs.puts, hs.puts_length,
        fun _ haddr => absurd haddr List.not_mem_nil⟩
  | @announce expires addr rest =>
      obtain ⟨hputs, hputsLength⟩ := hs.puts_spawn
        (.announced s.server.puts.length (announcePut expires addr)) rfl rfl
      have hpart : ∀ i, callPart i (.announced s.server.puts.length (announcePut expires addr) :: h) =
          callPart i h := fun i => callPart_skip (by simp [ServiceEvent.call?])
      refine ⟨⟨⟨hs.puts_length _ le_rfl, addr, hrest addr List.mem_cons_self, expires, rfl⟩,
        hs.legal⟩, hs.held.trans (heldAfter_cons rfl).symm, hs.cfgOk,
        fun i call hcall => hs.calls_frame (keeps_spawn _ _) hcall (hpart i),
        fun i hle => (hpart i).trans (hs.calls_length i hle), hputs, hputsLength,
        fun addr' haddr => hrest addr' (List.mem_cons_of_mem _ haddr)⟩
  | goOn =>
      exact ⟨hs.legal, hs.held, hs.cfgOk, hs.calls, hs.calls_length, hs.puts, hs.puts_length,
        hrest⟩
  | giveUp =>
      exact ⟨hs.legal, hs.held, hs.cfgOk, hs.calls, hs.calls_length, hs.puts, hs.puts_length,
        fun _ haddr => absurd haddr List.not_mem_nil⟩

theorem Traced.waiting (hs : Traced texts sql s h) {i t : ℕ} {put : CfgPutReq}
    (hcalled : .called i t put ∈ h) (hnot : s.server.result t = none) :
    (callPart i h).head? = some (.called i t put) := by
  have hmem : .called i t put ∈ callPart i h := mem_callPart.mpr ⟨hcalled, rfl⟩
  have hlt : i < s.calls.length := by
    by_contra hge
    rw [hs.calls_length i (not_lt.mp hge)] at hmem
    exact absurd hmem List.not_mem_nil
  have hpc := hs.calls i s.calls[i] (List.getElem?_eq_getElem hlt)
  generalize s.calls[i].req = req at hpc
  cases hcase : s.calls[i].pc with
  | received =>
      rw [hcase] at hpc
      rw [(hpc : callPart i h = _)] at hmem
      simp at hmem
  | admitted endpoint body =>
      rw [hcase] at hpc
      obtain ⟨token, hasks, _⟩ := hpc
      rw [hasks] at hmem
      simp at hmem
  | putting t' =>
      rw [hcase] at hpc
      obtain ⟨token, put', hpart⟩ := hpc
      rw [hpart] at hmem ⊢
      simp only [List.mem_cons, ServiceEvent.called.injEq, true_and, reduceCtorEq,
        List.not_mem_nil, or_false] at hmem
      rw [hmem.1, hmem.2]
      rfl
  | answered res =>
      rw [hcase] at hpc
      obtain ⟨rest, hpart, hres⟩ := hpc
      rw [hpart] at hmem
      have hrest : .called i t put ∈ rest := by simpa using hmem
      have hsome := hres t put hrest
      rw [hnot] at hsome
      contradiction

theorem Traced.put (hs : Traced texts sql s h) {t : ℕ} {c : Choice} {p : Put} {n : Node}
    {pc : PutPc} (hp : s.server.puts[t]? = some p)
    (hput : stepPut s.server.node s.server.now p.req p.pc c = some (n, pc))
    (hwork : WorkStep s.server.node s.server.now t p.req p.pc n pc events) :
    Traced texts sql { s with server := ⟨n, s.server.now, s.server.puts.set t ⟨p.req, pc⟩⟩ }
      (events ++ h) := by
  have hlt := (List.getElem?_eq_some_iff.mp hp).1
  have htraced := hs.puts t p hp
  have hstep := stepPut_cases hput
  obtain ⟨issue, hissue, hpart⟩ := htraced.part
  rw [hstep.upserts t, List.nil_append] at hpart
  have hcallPart : ∀ i, callPart i (events ++ h) = callPart i h :=
    fun i => callPart_other (hwork.call? i)
  have hputPart : ∀ u, t ≠ u → putPart u (events ++ h) = putPart u h := by
    intro u hne
    refine putPart_other fun e he heq => hne ?_
    exact Option.some.inj ((hwork.put? e he).symm.trans heq)
  have hown : putPart t (events ++ h) = events ++ [issue] := by
    have hall : putPart t events = events :=
      List.filter_eq_self.mpr fun e he => decide_eq_true (hwork.put? e he)
    rw [putPart, List.filter_append, ← putPart, ← putPart, hall, hpart]
  have hputs : ∀ u (q : Put), (s.server.puts.set t ⟨p.req, pc⟩)[u]? = some q →
      q.Traced (events ++ h) u := by
    intro u q hq
    by_cases hne : t = u
    · subst hne
      cases (List.getElem?_set_self hlt).symm.trans hq
      exact ⟨⟨issue, hissue, by rw [hwork.upserts]; exact hown⟩,
        stepPut_checked hput htraced.checked, hstep.own htraced.own⟩
    · exact (hs.puts u q ((List.getElem?_set_ne hne).symm.trans hq)).frame (hputPart u hne)
  have hlength : ∀ u, (s.server.puts.set t ⟨p.req, pc⟩).length ≤ u → putPart u (events ++ h) = [] := by
    intro u hle
    rw [List.length_set] at hle
    rw [hputPart u (by omega)]
    exact hs.puts_length u hle
  have hcalls : ∀ i (call : Call), s.calls[i]? = some call →
      call.pc.Traced ⟨n, s.server.now, s.server.puts.set t ⟨p.req, pc⟩⟩ (events ++ h) i call.req :=
    fun i call hcall => hs.calls_frame (keeps_put hp hstep) hcall (hcallPart i)
  have hcallsLength : ∀ i, s.calls.length ≤ i → callPart i (events ++ h) = [] :=
    fun i hle => (hcallPart i).trans (hs.calls_length i hle)
  cases hwork with
  | work _ hsql _ =>
      have hheld := hs.held
      have hcfg := hs.cfgOk
      rw [← hsql] at hheld hcfg
      exact ⟨hs.legal, hheld, hcfg, hcalls, hcallsLength, hputs, hlength, hs.announcer⟩
  | @commit _ modified applied _ hmod hup =>
      have happlied := upsert_applied hup
      rw [hs.held] at happlied
      have hcheck := htraced.checked.of_modified hmod
      have hnot : s.server.result t = none := by
        cases hres : s.server.result t with
        | none => rfl
        | some res =>
            obtain ⟨put, hdone⟩ := result_eq_some hres
            cases hp.symm.trans hdone
            exact absurd rfl (hstep.not_done res)
      have hissued : issue ∈ h := (mem_putPart.mp (hpart ▸ List.mem_singleton_self issue)).1
      have hwaiting : ∀ i, issue.call? = some i → (callPart i h).head? = some issue := by
        intro i hi
        cases issue with
        | called j u put =>
            cases hi
            have hu : u = t := by
              have hmem := (mem_putPart.mp (hpart ▸ List.mem_singleton_self _)).2
              exact Option.some.inj hmem
            subst hu
            exact hs.waiting hissued hnot
        | announced u put => cases hi
        | _ => cases hissue
      have hexplained : (applied = true ↔ _) ∧ (applied = true → _) →
          Explained texts sql s.addrs h (.upserted t (Put.row p.req modified) applied) := fun hwhen =>
        ⟨issue, p.req, modified, hpart, hissue, rfl, htraced.own.of_modified hmod, hwaiting, hwhen⟩
      have hheld : n.sql.entries.find? =
          heldAfter sql (.upserted t (Put.row p.req modified) applied :: h) := by
        rcases happlied with ⟨rfl, _, _, hdeliver⟩ | ⟨rfl, _, hsame⟩
        · exact hdeliver
        · rw [hsame, hs.held]
          exact (heldAfter_cons rfl).symm
      refine ⟨⟨hexplained ?_, hs.legal⟩, hheld, hs.cfgOk.upsert (cfgRow_ok hcheck _ _) hup, hcalls,
        hcallsLength, hputs, hlength, hs.announcer⟩
      rcases happlied with ⟨rfl, hfresh, hfree, _⟩ | ⟨rfl, hold, _⟩
      · exact ⟨iff_of_true rfl hfresh, fun _ => hfree⟩
      · exact ⟨iff_of_false (by simp) hold, by simp⟩

theorem Traced.prune (hs : Traced texts sql s h) (nowMicros : ℤ) :
    Traced texts sql { s with server := { s.server with node :=
        ⟨(s.server.node.sql.pruneExpired nowMicros pruneBatch).1, s.server.node.counter⟩ } }
      (.pruned nowMicros (s.server.node.sql.expiredBatch nowMicros pruneBatch) :: h) := by
  have hcallPart : ∀ i, callPart i (.pruned nowMicros
      (s.server.node.sql.expiredBatch nowMicros pruneBatch) :: h) = callPart i h := fun i =>
    callPart_skip (by simp [ServiceEvent.call?])
  have hputPart : ∀ t, putPart t (.pruned nowMicros
      (s.server.node.sql.expiredBatch nowMicros pruneBatch) :: h) = putPart t h := fun t =>
    putPart_skip (by simp [ServiceEvent.put?])
  refine ⟨⟨fun key hkey => ?_, hs.legal⟩, ?_, hs.cfgOk.pruneExpired nowMicros pruneBatch,
    fun i call hcall => hs.calls_frame (.refl _) hcall (hcallPart i),
    fun i hle => (hcallPart i).trans (hs.calls_length i hle),
    fun t p hp => (hs.puts t p hp).frame (hputPart t),
    fun t hle => (hputPart t).trans (hs.puts_length t hle), hs.announcer⟩
  · rw [← hs.held]
    exact Sql.expiredBatch_expired hkey
  · funext key
    rw [find?_pruneExpired, congrFun hs.held key, heldAfter_pruned]

theorem Traced.step (hs : Traced texts sql s h) {a : ServiceAction}
    (hstep : ServiceStep texts s a s' events) : Traced texts sql s' (events ++ h) := by
  cases hstep with
  | receive => exact hs.receive _
  | call hcall hstep => exact hs.call hcall hstep
  | put hp hput hwork => exact hs.put hp hput hwork
  | announce hstep => exact hs.announce hstep
  | prune => exact hs.prune _
  | clock =>
      exact ⟨hs.legal, hs.held, hs.cfgOk, hs.calls, hs.calls_length, hs.puts, hs.puts_length,
        hs.announcer⟩

theorem traced_start (hsql : CfgOk sql) (now : ℤ) (addrs : List String) :
    Traced texts sql (.start sql now addrs) [] where
  legal := trivial
  held := rfl
  cfgOk := hsql
  calls i call hcall := by simp [Service.start] at hcall
  calls_length _ _ := rfl
  puts t p hp := by simp [Service.start, Server.start] at hp
  puts_length _ _ := rfl
  announcer _ haddr := absurd haddr List.not_mem_nil

theorem Serves.traced {addrs : List String} (hsql : CfgOk sql) (hrun : Serves texts sql addrs s h) :
    Traced texts sql s h := by
  obtain ⟨now, hrun⟩ := hrun
  refine Reach.invariant (I := fun q => Traced texts sql q.1 q.2) (traced_start hsql now addrs) ?_
    hrun
  rintro ⟨s, h⟩ a ⟨s', h'⟩ hs _ hstep
  obtain ⟨events, hstep, hlog⟩ := logged_eq_some_iff.mp hstep
  have hlog : h' = events ++ h := hlog
  rw [hlog]
  exact hs.step (serviceStep_cases hstep)

theorem Serves.legal {addrs : List String} (hsql : CfgOk sql) (hrun : Serves texts sql addrs s h) :
    Legal (Explained texts sql addrs) h := hrun.addrs_eq ▸ (hrun.traced hsql).legal

end Traced

end VmIo.Back
