import VmIo.Back.Order
import VmIo.Back.Handlers

/-!
The config server in service: any number of requests beside one another, the task that
advertises the bound addresses, and the prunes of the database.

A request asks the database for its api key in one step and does its work in later ones, a
put in those of `stepPut`. Each step reports what it did as events. A request that is given
up takes no further step.
-/

namespace VmIo.Back

open VmIo.Lib VmIo.Db VmIo.Chan

deriving instance DecidableEq for Request

inductive Endpoint
  | health
  | cfgGet
  | cfgPut
  deriving DecidableEq

/-- The table of `back_srv`. -/
def endpoints (name : String) : Option Endpoint :=
  if name = healthReq then some .health
  else if name = cfgGetReq then some .cfgGet
  else if name = cfgPutReq then some .cfgPut
  else none

inductive CallPc
  | received
  /-- authorized and routed, at the handler's call -/
  | admitted (endpoint : Endpoint) (body : Bytes)
  /-- in `upsert_value`, as the put with this index -/
  | putting (t : ℕ)
  | answered (res : Response)
  deriving DecidableEq

structure Call where
  req : Request
  pc : CallPc
  deriving DecidableEq

inductive AnnouncePc
  | asleep
  /-- at the head of the loop over the addresses, with those left -/
  | next (expires : ℤ) (rest : List String)
  | putting (expires : ℤ) (rest : List String) (t : ℕ)

structure Service where
  server : Server
  addrs : List String
  announcer : AnnouncePc
  calls : List Call

def Service.start (sql : Sql) (now : ℤ) (addrs : List String) : Service :=
  ⟨.start sql now, addrs, .asleep, []⟩

inductive ServiceEvent
  | received (i : ℕ) (req : Request)
  /-- the callback found the entry of the token -/
  | granted (i : ℕ) (token : String)
  | listed (i : ℕ) (values : List CfgGetItem)
  /-- the handler calls `upsert_value` -/
  | called (i : ℕ) (t : ℕ) (put : CfgPutReq)
  | announced (t : ℕ) (put : CfgPutReq)
  /-- the statement of a put went through, and has stored this row if it was applied -/
  | upserted (t : ℕ) (row : EntryRow) (applied : Bool)
  | pruned (nowMicros : ℤ) (keys : List (String × String))
  | answered (i : ℕ) (res : Response)
  deriving DecidableEq

inductive ServiceAction
  | receive (req : Request)
  | call (i : ℕ) (c : Choice)
  | put (t : ℕ) (c : Choice)
  | announce
  | prune
  /-- the clock is set -/
  | clock (now : ℤ)

section Step

variable (texts : Texts)

def handled : Except String Bytes → Response
  | .ok out => resp .ok out
  | .error err => respText .internalServerError err

def putResult : Except IoError (ℤ × Bool) → Except String Bytes
  | .ok _ => .ok []
  | .error e => .error (texts.io e)

/-- `handle_request` up to the handler's call. -/
def stepReceived (sql : Sql) (i : ℕ) (req : Request) (c : Choice) : CallPc × List ServiceEvent :=
  match req.authVal with
  | none =>
      let res := respText .unauthorized "missing or invalid authorization"
      (.answered res, [.answered i res])
  | some val =>
      match (makeAuthCb c val sql).1 with
      | .error err =>
          (.answered (respText .internalServerError err),
            [.answered i (respText .internalServerError err)])
      | .ok code =>
          if code = .ok then
            match routed endpoints req with
            | .error res => (.answered res, [.answered i res, .granted i (authToken val)])
            | .ok (_, endpoint, body) => (.admitted endpoint body, [.granted i (authToken val)])
          else
            let res := respText code ((texts.canonicalReason code).getD "")
            (.answered res, [.answered i res])

def Server.spawn (s : Server) (put : CfgPutReq) : Server :=
  { s with puts := s.puts ++ [⟨put, .start⟩] }

/-- The handler's call. -/
def stepAdmitted (s : Server) (i : ℕ) (c : Choice) (body : Bytes) :
    Endpoint → Server × CallPc × List ServiceEvent
  | .health =>
      let res := handled (health body ()).1
      (s, .answered res, [.answered i res])
  | .cfgGet =>
      let res := handled (cfgGetHandler texts c body s.node).1
      match readAllWith s.node.sql c with
      | .ok values => (s, .answered res, [.answered i res, .listed i values])
      | .error _ => (s, .answered res, [.answered i res])
  | .cfgPut =>
      match texts.decoder.put body with
      | .error e =>
          let res := handled (.error e)
          (s, .answered res, [.answered i res])
      | .ok input =>
          let put := CfgPutReq.ofWire input
          (s.spawn put, .putting s.puts.length, [.called i s.puts.length put])

def Server.result (s : Server) (t : ℕ) : Option (Except IoError (ℤ × Bool)) :=
  match s.puts[t]? with
  | some ⟨_, .done res⟩ => some res
  | _ => none

def stepCall (s : Server) (i : ℕ) (req : Request) (c : Choice) :
    CallPc → Option (Server × CallPc × List ServiceEvent)
  | .received =>
      let (pc, events) := stepReceived texts s.node.sql i req c
      some (s, pc, events)
  | .admitted endpoint body => some (stepAdmitted texts s i c body endpoint)
  | .putting t =>
      (s.result t).map fun res =>
        (s, .answered (handled (putResult texts res)),
          [.answered i (handled (putResult texts res))])
  | .answered _ => none

def announcePut (expires : ℤ) (addr : String) : CfgPutReq :=
  ⟨cfgAddrPrefix ++ addr, "", some expires, none⟩

/-- A pass ends with the first put that fails. -/
def stepAnnounce (s : Server) (addrs : List String) :
    AnnouncePc → Option (Server × AnnouncePc × List ServiceEvent)
  | .asleep => some (s, .next (min (s.now + cfgAddrTtl) i64Max) addrs, [])
  | .next _ [] => some (s, .asleep, [])
  | .next expires (addr :: rest) =>
      let put := announcePut expires addr
      some (s.spawn put, .putting expires rest s.puts.length, [.announced s.puts.length put])
  | .putting expires rest t =>
      (s.result t).map fun res =>
        match res with
        | .ok _ => (s, .next expires rest, [])
        | .error _ => (s, .asleep, [])

/-- What a put has done when it returns. -/
def putEvents (s : Server) (t : ℕ) : List ServiceEvent :=
  match s.puts[t]? with
  | some ⟨put, .done (.ok (modified, applied))⟩ => [.upserted t (Put.row put modified) applied]
  | _ => []

def serviceStep (s : Service) : ServiceAction → Option (Service × List ServiceEvent)
  | .receive req => some ({ s with calls := s.calls ++ [⟨req, .received⟩] },
      [.received s.calls.length req])
  | .call i c =>
      match s.calls[i]? with
      | none => none
      | some call =>
          (stepCall texts s.server i call.req c call.pc).map fun (server, pc, events) =>
            ({ s with server, calls := s.calls.set i ⟨call.req, pc⟩ }, events)
  | .put t c =>
      (serverStep s.server (.step t c)).map fun server => ({ s with server }, putEvents server t)
  | .announce =>
      (stepAnnounce s.server s.addrs s.announcer).map fun (server, announcer, events) =>
        ({ s with server, announcer }, events)
  | .prune =>
      (serverStep s.server (.prune s.server.now)).map fun server =>
        ({ s with server },
          [.pruned s.server.now (s.server.node.sql.expiredBatch s.server.now pruneBatch)])
  | .clock now => some ({ s with server := { s.server with now } }, [])

end Step

/-! ### What a step can do -/

/-- The callback lets in who shows a token that a key is held for. -/
def LetsIn (held : String × String → Option EntryRow) (token : String) : Prop :=
  token ≠ "" ∧ (held (cfgClass, cfgApiKeyPrefix ++ token)).isSome

instance (held : String × String → Option EntryRow) (token : String) :
    Decidable (LetsIn held token) := inferInstanceAs (Decidable (_ ∧ _))

theorem makeAuthCb_found {sql : Sql} {val : String} (h : LetsIn sql.entries.find? (authToken val)) :
    (makeAuthCb .ok val sql).1 = .ok .ok := by
  obtain ⟨entry, hentry⟩ := Option.isSome_iff_exists.mp h.2
  have hget : dbGet sql cfgClass (cfgApiKeyPrefix ++ authToken val) .ok =
      .ok (some (sql.toEntry entry)) := by rw [dbGet, Sql.get, hentry, Option.map_some]
  simp only [makeAuthCb, if_neg h.1, hget]

theorem makeAuthCb_missing {sql : Sql} {val : String}
    (h : ¬LetsIn sql.entries.find? (authToken val)) :
    (makeAuthCb .ok val sql).1 = .ok .unauthorized := by
  unfold makeAuthCb
  by_cases hempty : authToken val = ""
  · simp only [if_pos hempty]
  · have hnone : sql.entries.find? (cfgClass, cfgApiKeyPrefix ++ authToken val) = none :=
      Option.not_isSome_iff_eq_none.mp fun hsome => h ⟨hempty, hsome⟩
    have hget : dbGet sql cfgClass (cfgApiKeyPrefix ++ authToken val) .ok = .ok none := by
      rw [dbGet, Sql.get, hnone, Option.map_none]
    simp only [if_neg hempty, hget]

theorem makeAuthCb_failed (sql : Sql) (val : String) {c : Choice} (hc : c ≠ .ok) :
    (makeAuthCb c val sql).1 = .ok .unauthorized ∧ authToken val = "" ∨
      (makeAuthCb c val sql).1 = .ok .internalServerError := by
  have hget : dbGet sql cfgClass (cfgApiKeyPrefix ++ authToken val) c = .error (.sql .failed) := by
    cases c with
    | ok => exact absurd rfl hc
    | _ => rfl
  unfold makeAuthCb
  by_cases hempty : authToken val = ""
  · simp only [if_pos hempty]
    exact .inl ⟨trivial, hempty⟩
  · simp only [if_neg hempty, hget]
    exact .inr trivial

/-- Who is let in has a key, and who is not has none, or the lookup failed. -/
theorem makeAuthCb_cases {sql : Sql} {c : Choice} {val : String} {res : Except String StatusCode}
    (h : (makeAuthCb c val sql).1 = res) :
    (res = .ok .ok ∧ LetsIn sql.entries.find? (authToken val)) ∨
      (res = .ok .unauthorized ∧ ¬LetsIn sql.entries.find? (authToken val)) ∨
      res = .ok .internalServerError := by
  by_cases hc : c = .ok
  · subst hc
    by_cases hlets : LetsIn sql.entries.find? (authToken val)
    · exact .inl ⟨h.symm.trans (makeAuthCb_found hlets), hlets⟩
    · exact .inr (.inl ⟨h.symm.trans (makeAuthCb_missing hlets), hlets⟩)
  · rcases makeAuthCb_failed sql val hc with ⟨hres, hempty⟩ | hres
    · exact .inr (.inl ⟨h.symm.trans hres, fun hlets => hlets.1 hempty⟩)
    · exact .inr (.inr (h.symm.trans hres))

/-- A request that is not let in is told so, or that the lookup failed. -/
def Refused (sql : Sql) (req : Request) (res : Response) : Prop :=
  (res.status = .unauthorized ∧
      ∀ val, req.authVal = some val → ¬LetsIn sql.entries.find? (authToken val)) ∨
    res.status = .internalServerError

inductive CallStep (texts : Texts) (s : Server) (i : ℕ) (req : Request) :
    CallPc → Server → CallPc → List ServiceEvent → Prop
  | refuse {res : Response} : Refused s.node.sql req res →
      CallStep texts s i req .received s (.answered res) [.answered i res]
  | turnAway {val : String} {res : Response} : req.authVal = some val →
      LetsIn s.node.sql.entries.find? (authToken val) → routed endpoints req = .error res →
      CallStep texts s i req .received s (.answered res)
        [.answered i res, .granted i (authToken val)]
  | letIn {val name : String} {endpoint : Endpoint} {body : Bytes} : req.authVal = some val →
      LetsIn s.node.sql.entries.find? (authToken val) →
      routed endpoints req = .ok (name, endpoint, body) →
      CallStep texts s i req .received s (.admitted endpoint body) [.granted i (authToken val)]
  | health {body : Bytes} :
      CallStep texts s i req (.admitted .health body) s (.answered (handled (health body ()).1))
        [.answered i (handled (Chan.health body ()).1)]
  | list {body : Bytes} {values : List CfgGetItem} : readAll s.node.sql = .ok values →
      CallStep texts s i req (.admitted .cfgGet body) s
        (.answered (resp .ok (Types.encode (cfgGetRes texts (.ok values)))))
        [.answered i (resp .ok (Types.encode (cfgGetRes texts (.ok values)))), .listed i values]
  | listFail {body : Bytes} {e : IoError} :
      CallStep texts s i req (.admitted .cfgGet body) s
        (.answered (resp .ok (Types.encode (cfgGetRes texts (.error e)))))
        [.answered i (resp .ok (Types.encode (cfgGetRes texts (.error e))))]
  | malformed {body : Bytes} {e : String} : texts.decoder.put body = .error e →
      CallStep texts s i req (.admitted .cfgPut body) s (.answered (handled (.error e)))
        [.answered i (handled (.error e))]
  | put {body : Bytes} {input : Types.CfgPutReq} : texts.decoder.put body = .ok input →
      CallStep texts s i req (.admitted .cfgPut body) (s.spawn (.ofWire input))
        (.putting s.puts.length) [.called i s.puts.length (.ofWire input)]
  | finish {t : ℕ} {res : Except IoError (ℤ × Bool)} : s.result t = some res →
      CallStep texts s i req (.putting t) s (.answered (handled (putResult texts res)))
        [.answered i (handled (putResult texts res))]

theorem readAllWith_ok {sql : Sql} {c : Choice} {values : List CfgGetItem}
    (h : readAllWith sql c = .ok values) : readAll sql = .ok values := by
  cases c with
  | ok => exact h
  | fail => cases h
  | portion n => cases h
  | listing names => cases h

theorem stepReceived_cases {texts : Texts} {s : Server} {i : ℕ} {req : Request} {c : Choice} :
    CallStep texts s i req .received s (stepReceived texts s.node.sql i req c).1
      (stepReceived texts s.node.sql i req c).2 := by
  have hcode : StatusCode.unauthorized ≠ StatusCode.ok ∧
      StatusCode.internalServerError ≠ StatusCode.ok := by decide
  unfold stepReceived
  cases hval : req.authVal with
  | none => exact .refuse (.inl ⟨rfl, by simp [hval]⟩)
  | some val =>
      simp only
      cases hcb : (makeAuthCb c val s.node.sql).1 with
      | error err => exact .refuse (.inr rfl)
      | ok code =>
          rcases makeAuthCb_cases hcb with ⟨heq, hlets⟩ | ⟨heq, hnot⟩ | heq
          · cases heq
            simp only [if_pos]
            split
            · rename_i hrouted
              exact .turnAway hval hlets hrouted
            · rename_i hrouted
              exact .letIn hval hlets hrouted
          · cases heq
            simp only [if_neg hcode.1]
            refine .refuse (.inl ⟨rfl, fun val' hval' => ?_⟩)
            cases hval.symm.trans hval'
            exact hnot
          · cases heq
            simp only [if_neg hcode.2]
            exact .refuse (.inr rfl)

theorem stepAdmitted_cases {texts : Texts} {s : Server} {i : ℕ} {req : Request} {c : Choice}
    {body : Bytes} (endpoint : Endpoint) :
    CallStep texts s i req (.admitted endpoint body) (stepAdmitted texts s i c body endpoint).1
      (stepAdmitted texts s i c body endpoint).2.1 (stepAdmitted texts s i c body endpoint).2.2 := by
  cases endpoint with
  | health => exact .health
  | cfgGet =>
      simp only [stepAdmitted, cfgGetHandler, handled]
      cases hread : readAllWith s.node.sql c with
      | ok values => exact .list (readAllWith_ok hread)
      | error e => exact .listFail
  | cfgPut =>
      simp only [stepAdmitted]
      split
      · rename_i hdecode
        exact .malformed hdecode
      · rename_i hdecode
        exact .put hdecode

theorem stepCall_cases {texts : Texts} {s s' : Server} {i : ℕ} {req : Request} {c : Choice}
    {pc pc' : CallPc} {events : List ServiceEvent}
    (h : stepCall texts s i req c pc = some (s', pc', events)) :
    CallStep texts s i req pc s' pc' events := by
  cases pc with
  | received =>
      simp only [stepCall, Option.some.injEq, Prod.mk.injEq] at h
      obtain ⟨rfl, rfl, rfl⟩ := h
      exact stepReceived_cases
  | admitted endpoint body =>
      rw [stepCall, Option.some.injEq] at h
      have hstep : CallStep texts s i req (.admitted endpoint body)
          (stepAdmitted texts s i c body endpoint).1 (stepAdmitted texts s i c body endpoint).2.1
          (stepAdmitted texts s i c body endpoint).2.2 := stepAdmitted_cases endpoint
      rw [h] at hstep
      exact hstep
  | putting t =>
      obtain ⟨res, hres, heq⟩ := Option.map_eq_some_iff.mp h
      cases heq
      exact .finish hres
  | answered res => cases h

inductive AnnounceStep (s : Server) (addrs : List String) :
    AnnouncePc → Server → AnnouncePc → List ServiceEvent → Prop
  | wake : AnnounceStep s addrs .asleep s (.next (min (s.now + cfgAddrTtl) i64Max) addrs) []
  | sleep {expires : ℤ} : AnnounceStep s addrs (.next expires []) s .asleep []
  | announce {expires : ℤ} {addr : String} {rest : List String} :
      AnnounceStep s addrs (.next expires (addr :: rest)) (s.spawn (announcePut expires addr))
        (.putting expires rest s.puts.length) [.announced s.puts.length (announcePut expires addr)]
  | goOn {expires : ℤ} {rest : List String} {t : ℕ} :
      AnnounceStep s addrs (.putting expires rest t) s (.next expires rest) []
  | giveUp {expires : ℤ} {rest : List String} {t : ℕ} :
      AnnounceStep s addrs (.putting expires rest t) s .asleep []

theorem stepAnnounce_cases {s s' : Server} {addrs : List String} {pc pc' : AnnouncePc}
    {events : List ServiceEvent} (h : stepAnnounce s addrs pc = some (s', pc', events)) :
    AnnounceStep s addrs pc s' pc' events := by
  cases pc with
  | asleep =>
      cases h
      exact .wake
  | next expires rest =>
      cases rest with
      | nil =>
          cases h
          exact .sleep
      | cons addr rest =>
          cases h
          exact .announce
  | putting expires rest t =>
      obtain ⟨res, _, heq⟩ := Option.map_eq_some_iff.mp h
      split at heq
      · cases heq
        exact .goOn
      · cases heq
        exact .giveUp

/-- A step of a put with which its statement goes through, and one that is not that. -/
inductive WorkStep (n : Node) (now : ℤ) (t : ℕ) (req : CfgPutReq) :
    PutPc → Node → PutPc → List ServiceEvent → Prop
  | work {pc pc' : PutPc} {n' : Node} : PutStep n now req pc n' pc' → n'.sql = n.sql →
      (∀ r, pc' ≠ .done (.ok r)) → WorkStep n now t req pc n' pc' []
  | commit {pc : PutPc} {n' : Node} {modified : ℤ} {applied : Bool} :
      PutStep n now req pc n' (.done (.ok (modified, applied))) → modified ∈ pc.modified →
      n.sql.upsert (Put.row req modified) = .ok (n'.sql, applied) →
      WorkStep n now t req pc n' (.done (.ok (modified, applied)))
        [.upserted t (Put.row req modified) applied]

theorem PutStep.work {n n' : Node} {now : ℤ} {t : ℕ} {req : CfgPutReq} {pc pc' : PutPc}
    (h : PutStep n now req pc n' pc') : ∃ events, WorkStep n now t req pc n' pc' events := by
  have hput := h
  cases h with
  | commitAt hup => exact ⟨_, .commit hput rfl hup⟩
  | commit hup => exact ⟨_, .commit hput rfl hup⟩
  | _ => exact ⟨_, .work hput rfl (by simp)⟩

inductive ServiceStep (texts : Texts) (s : Service) :
    ServiceAction → Service → List ServiceEvent → Prop
  | receive {req : Request} : ServiceStep texts s (.receive req)
      { s with calls := s.calls ++ [⟨req, .received⟩] } [.received s.calls.length req]
  | call {i : ℕ} {c : Choice} {call : Call} {server : Server} {pc : CallPc}
      {events : List ServiceEvent} : s.calls[i]? = some call →
      CallStep texts s.server i call.req call.pc server pc events →
      ServiceStep texts s (.call i c)
        { s with server := server, calls := s.calls.set i ⟨call.req, pc⟩ } events
  | put {t : ℕ} {c : Choice} {p : Put} {n : Node} {pc : PutPc} {events : List ServiceEvent} :
      s.server.puts[t]? = some p →
      stepPut s.server.node s.server.now p.req p.pc c = some (n, pc) →
      WorkStep s.server.node s.server.now t p.req p.pc n pc events →
      ServiceStep texts s (.put t c)
        { s with server := ⟨n, s.server.now, s.server.puts.set t ⟨p.req, pc⟩⟩ } events
  | announce {server : Server} {announcer : AnnouncePc} {events : List ServiceEvent} :
      AnnounceStep s.server s.addrs s.announcer server announcer events →
      ServiceStep texts s .announce { s with server := server, announcer := announcer } events
  | prune : ServiceStep texts s .prune
      { s with server := { s.server with node :=
          ⟨(s.server.node.sql.pruneExpired s.server.now pruneBatch).1, s.server.node.counter⟩ } }
      [.pruned s.server.now (s.server.node.sql.expiredBatch s.server.now pruneBatch)]
  | clock {now : ℤ} : ServiceStep texts s (.clock now)
      { s with server := { s.server with now := now } } []

theorem putEvents_eq {s : Server} {t : ℕ} {n n' : Node} {now : ℤ} {p : Put} {pc : PutPc}
    {events : List ServiceEvent} (hp : s.puts[t]? = some p)
    (h : WorkStep n now t p.req p.pc n' pc events) :
    putEvents ⟨n', s.now, s.puts.set t ⟨p.req, pc⟩⟩ t = events := by
  have hset : (s.puts.set t ⟨p.req, pc⟩)[t]? = some ⟨p.req, pc⟩ :=
    List.getElem?_set_self (List.getElem?_eq_some_iff.mp hp).1
  simp only [putEvents, hset]
  cases h with
  | work _ _ hnot =>
      split
      · rename_i heq
        cases heq
        exact absurd rfl (hnot _)
      · rfl
  | commit _ _ _ => rfl

theorem serviceStep_cases {texts : Texts} {s s' : Service} {a : ServiceAction}
    {events : List ServiceEvent} (h : serviceStep texts s a = some (s', events)) :
    ServiceStep texts s a s' events := by
  cases a with
  | receive req =>
      cases h
      exact .receive
  | call i c =>
      rw [serviceStep] at h
      split at h
      · cases h
      · rename_i call hcall
        obtain ⟨⟨server, pc, events'⟩, hstep, heq⟩ := Option.map_eq_some_iff.mp h
        cases heq
        exact .call hcall (stepCall_cases hstep)
  | put t c =>
      rw [serviceStep, serverStep] at h
      cases hp : s.server.puts[t]? with
      | none => simp [hp] at h
      | some p =>
          simp only [hp, Option.map_map, Option.map_eq_some_iff] at h
          obtain ⟨⟨n, pc⟩, hput, heq⟩ := h
          obtain ⟨events', hwork⟩ := (stepPut_cases hput).work (t := t)
          cases heq
          simp only [putEvents_eq hp hwork]
          exact .put hp hput hwork
  | announce =>
      obtain ⟨⟨server, announcer, events'⟩, hstep, heq⟩ := Option.map_eq_some_iff.mp h
      cases heq
      exact .announce (stepAnnounce_cases hstep)
  | prune =>
      cases h
      exact .prune
  | clock now =>
      cases h
      exact .clock

/-! ### Runs -/

/-- The events of a run, the latest first. -/
abbrev History := List ServiceEvent

/-- The service runs, from a database and with the addresses it is bound to. -/
def Serves (texts : Texts) (sql : Sql) (addrs : List String) (s : Service) (h : History) : Prop :=
  ∃ now, Reach (logged (serviceStep texts)) (fun _ _ => True) (.start sql now addrs, []) (s, h)

section Runs

variable {texts : Texts} {sql : Sql} {addrs : List String} {s : Service} {h : History}

theorem Serves.invariant {I : Service → Prop} (hrun : Serves texts sql addrs s h)
    (h₀ : ∀ now, I (.start sql now addrs))
    (hstep : ∀ s a s' events, I s → ServiceStep texts s a s' events → I s') : I s := by
  obtain ⟨now, hrun⟩ := hrun
  refine Reach.invariant (I := fun q => I q.1) (h₀ now) ?_ hrun
  rintro ⟨s, h⟩ a ⟨s', h'⟩ hs _ hlogged
  obtain ⟨events, hlogged, _⟩ := logged_eq_some_iff.mp hlogged
  exact hstep s a s' events hs (serviceStep_cases hlogged)

theorem Serves.addrs_eq (hrun : Serves texts sql addrs s h) : s.addrs = addrs := by
  refine hrun.invariant (I := fun s => s.addrs = addrs) (fun _ => rfl) ?_
  intro s a s' events hs hstep
  have hsame : s'.addrs = s.addrs := by
    cases hstep <;> rfl
  exact hsame.trans hs

theorem CallStep.puts_length {s s' : Server} {i : ℕ} {req : Request} {pc pc' : CallPc}
    {events : List ServiceEvent} (hstep : CallStep texts s i req pc s' pc' events) :
    s.puts.length ≤ s'.puts.length ∧ ∀ t, pc' = .putting t → t < s'.puts.length := by
  cases hstep with
  | put hdecode =>
      refine ⟨by simp [Server.spawn], fun t ht => ?_⟩
      cases ht
      simp [Server.spawn]
  | _ => exact ⟨le_rfl, by simp⟩

theorem AnnounceStep.puts_length {s s' : Server} {addrs : List String} {pc pc' : AnnouncePc}
    {events : List ServiceEvent} (hstep : AnnounceStep s addrs pc s' pc' events) :
    s.puts.length ≤ s'.puts.length := by
  cases hstep with
  | announce => simp [Server.spawn]
  | _ => exact le_rfl

end Runs

end VmIo.Back
