import VmIo.Back.Service

/-!
A request that goes on alone.

Whatever state the service is in, a request can be brought to its answer by steps of its own
and of its put (`request_answerable`). A request that has only just arrived is then answered
as `handleRequest` says, which is the service with its requests one at a time
(`served_alone`).
-/

namespace VmIo.Back

open VmIo.Lib VmIo.Db VmIo.Chan

/-- A step of one request or of one put. The clock may be set in between. -/
def OwnStep (i t : ℕ) : ServiceAction → Prop
  | .call j c => j = i ∧ c = .ok
  | .put u c => u = t ∧ c = .ok
  | .clock _ => True
  | _ => False

/-- A run in which only the request `i` and the put `t` take steps. -/
def Alone (texts : Texts) (i t : ℕ) (s s' : Service) : Prop :=
  Reach (fun s a => (serviceStep texts s a).map Prod.fst) (fun _ a => OwnStep i t a) s s'

def Service.withPut (s : Service) (t : ℕ) (n : Node) (now : ℤ) (put : Put) : Service :=
  { s with server := ⟨n, now, s.server.puts.set t put⟩ }

section Put

variable {texts : Texts} {i t : ℕ} {s₀ s : Service} {n n' : Node} {now : ℤ} {req : CfgPutReq}
  {pc pc' : PutPc}

theorem Alone.put (h : Alone texts i t s₀ (s.withPut t n now ⟨req, pc⟩))
    (ht : t < s.server.puts.length) (hs : stepPut n now req pc .ok = some (n', pc')) :
    Alone texts i t s₀ (s.withPut t n' now ⟨req, pc'⟩) := by
  refine Reach.tail (.put t .ok) h ⟨rfl, rfl⟩ ?_
  simp [serviceStep, serverStep, Service.withPut, ht, hs]

theorem Alone.clock (h : Alone texts i t s₀ (s.withPut t n now ⟨req, pc⟩)) (now' : ℤ) :
    Alone texts i t s₀ (s.withPut t n now' ⟨req, pc⟩) :=
  Reach.tail (.clock now') h trivial rfl

theorem Alone.upsert {left : ℕ} {modified : ℤ} (ht : t < s.server.puts.length)
    (h : Alone texts i t s₀ (s.withPut t n now ⟨req, .upsert left modified⟩)) :
    (∃ sql applied, Db.upsert n.sql (Put.row req modified) = .ok (sql, applied) ∧
        Alone texts i t s₀
          (s.withPut t ⟨sql, n.counter⟩ now ⟨req, .done (.ok (modified, applied))⟩)) ∨
      ∃ e, Db.upsert n.sql (Put.row req modified) = .error e ∧
        Alone texts i t s₀ (s.withPut t n now ⟨req, .attempt left (some e)⟩) := by
  cases hup : Db.upsert n.sql (Put.row req modified) with
  | ok out =>
      obtain ⟨sql, applied⟩ := out
      exact .inl ⟨sql, applied, rfl, h.put ht (by simp only [stepPut, runUpsert, hup])⟩
  | error e => exact .inr ⟨e, rfl, h.put ht (by simp only [stepPut, runUpsert, hup])⟩

theorem Alone.upsertAt {modified : ℤ} (ht : t < s.server.puts.length)
    (h : Alone texts i t s₀ (s.withPut t n now ⟨req, .upsertAt modified⟩)) :
    (∃ sql applied, Db.upsert n.sql (Put.row req modified) = .ok (sql, applied) ∧
        Alone texts i t s₀
          (s.withPut t ⟨sql, n.counter⟩ now ⟨req, .done (.ok (modified, applied))⟩)) ∨
      ∃ e, Db.upsert n.sql (Put.row req modified) = .error e ∧
        Alone texts i t s₀ (s.withPut t n now ⟨req, .done (.error e)⟩) := by
  cases hup : Db.upsert n.sql (Put.row req modified) with
  | ok out =>
      obtain ⟨sql, applied⟩ := out
      exact .inl ⟨sql, applied, rfl, h.put ht (by simp only [stepPut, runUpsert, hup])⟩
  | error e => exact .inr ⟨e, rfl, h.put ht (by simp only [stepPut, runUpsert, hup])⟩

theorem Alone.upsertFresh {left : ℕ} {lastErr : Option IoError} (ht : t < s.server.puts.length)
    (h : Alone texts i t s₀ (s.withPut t n now ⟨req, .attempt left lastErr⟩)) (clock : ℕ → ℤ) :
    ∃ now' res, Alone texts i t s₀
        (s.withPut t (upsertFresh (Put.row req) left clock lastErr n).2 now' ⟨req, .done res⟩) ∧
      answer res = (upsertFresh (Put.row req) left clock lastErr n).1 := by
  induction left generalizing clock lastErr n now with
  | zero => exact ⟨now, _, h.put ht rfl, rfl⟩
  | succ left ih =>
      have hload := (h.clock (clock 0)).put ht rfl
      have hswap : Alone texts i t s₀ (s.withPut t ⟨n.sql, nextMicros (clock 0) n.counter⟩ (clock 0)
          ⟨req, .upsert left (nextMicros (clock 0) n.counter)⟩) :=
        (hload.put ht rfl).put ht (by simp [stepPut])
      rw [Back.upsertFresh]
      rcases hswap.upsert ht with ⟨sql, applied, hup, hdone⟩ | ⟨e, hup, hretry⟩
      · simp only [hup]
        exact ⟨clock 0, _, hdone, rfl⟩
      · simp only [hup]
        exact ih hretry fun i => clock (i + 1)

theorem Alone.upsertValue (ht : t < s.server.puts.length)
    (h : Alone texts i t s₀ (s.withPut t n now ⟨req, .start⟩)) (clock : ℕ → ℤ) :
    ∃ now' res, Alone texts i t s₀
        (s.withPut t (upsertValue n req clock).2 now' ⟨req, .done res⟩) ∧
      answer res = (upsertValue n req clock).1 := by
  unfold Back.upsertValue
  cases hcheck : checkValue req.key req.value with
  | error e => exact ⟨now, .error e, h.put ht (by simp only [stepPut, hcheck]), rfl⟩
  | ok u =>
      cases hmod : req.modifiedAtMicros with
      | none =>
          have hloop := h.put ht (show stepPut n now req .start .ok = some (n, .attempt 64 none) by
            simp only [stepPut, hcheck, hmod])
          exact hloop.upsertFresh ht clock
      | some modified =>
          have hfetch := h.put ht (show stepPut n now req .start .ok = some (n, .fetchMax modified) by
            simp only [stepPut, hcheck, hmod])
          have hmax := hfetch.put ht rfl
          rcases hmax.upsertAt ht with ⟨sql, applied, hup, hdone⟩ | ⟨e, hup, hdone⟩
          · rw [Put.row] at hup
            simp only [hup]
            exact ⟨now, _, hdone, rfl⟩
          · rw [Put.row] at hup
            simp only [hup]
            exact ⟨now, _, hdone, rfl⟩

end Put

/-! ### Requests -/

section Request

variable {texts : Texts} {i t : ℕ} {s₀ s : Service}

def Service.withCall (s : Service) (i : ℕ) (server : Server) (call : Call) : Service :=
  { s with server := server, calls := s.calls.set i call }

theorem Alone.call {server server' : Server} {req : Request} {pc pc' : CallPc}
    {events : List ServiceEvent} (hi : i < s.calls.length)
    (h : Alone texts i t s₀ (s.withCall i server ⟨req, pc⟩))
    (hs : stepCall texts server i req .ok pc = some (server', pc', events)) :
    Alone texts i t s₀ (s.withCall i server' ⟨req, pc'⟩) := by
  refine Reach.tail (.call i .ok) h ⟨rfl, rfl⟩ ?_
  simp [serviceStep, Service.withCall, hi, hs]

theorem Alone.finish_answers {server : Server} {req : Request} {res : Except IoError (ℤ × Bool)}
    (hi : i < s.calls.length) (h : Alone texts i t s₀ (s.withCall i server ⟨req, .putting t⟩))
    (hres : server.result t = some res) :
    Alone texts i t s₀
      (s.withCall i server ⟨req, .answered (handled (putResult texts res))⟩) :=
  h.call hi (by rw [stepCall, hres, Option.map_some])

section Handler

variable {server : Server} {req : Request} {body : Bytes}

theorem Alone.received (hi : i < s.calls.length)
    (h : Alone texts i t s₀ (s.withCall i server ⟨req, .received⟩)) :
    Alone texts i t s₀
      (s.withCall i server ⟨req, (stepReceived texts server.node.sql i req .ok).1⟩) := h.call hi rfl

theorem Alone.health (hi : i < s.calls.length)
    (h : Alone texts i t s₀ (s.withCall i server ⟨req, .admitted .health body⟩)) :
    Alone texts i t s₀
      (s.withCall i server ⟨req, .answered (handled (Chan.health body ()).1)⟩) := h.call hi rfl

theorem Alone.cfgGet (hi : i < s.calls.length)
    (h : Alone texts i t s₀ (s.withCall i server ⟨req, .admitted .cfgGet body⟩)) :
    Alone texts i t s₀ (s.withCall i server
      ⟨req, .answered (handled (cfgGetHandler texts .ok body server.node).1)⟩) := by
  cases hread : readAllWith server.node.sql .ok with
  | ok values => exact h.call hi (by rw [stepCall, stepAdmitted, hread])
  | error e => exact h.call hi (by rw [stepCall, stepAdmitted, hread])

theorem Alone.malformed {e : String} (hi : i < s.calls.length)
    (h : Alone texts i t s₀ (s.withCall i server ⟨req, .admitted .cfgPut body⟩))
    (hdecode : texts.decoder.put body = .error e) :
    Alone texts i t s₀
      (s.withCall i server ⟨req, .answered (handled (.error e))⟩) :=
  h.call hi (by rw [stepCall, stepAdmitted, hdecode])

theorem Alone.cfgPut {input : Types.CfgPutReq} (hi : i < s.calls.length)
    (h : Alone texts i t s₀ (s.withCall i server ⟨req, .admitted .cfgPut body⟩))
    (hdecode : texts.decoder.put body = .ok input) :
    Alone texts i t s₀
      (s.withCall i (server.spawn (.ofWire input)) ⟨req, .putting server.puts.length⟩) :=
  h.call hi (by rw [stepCall, stepAdmitted, hdecode])

end Handler

def Endpoint.handler (texts : Texts) (clock : ℕ → ℤ) : Endpoint → Handler Node
  | .health => Chan.health
  | .cfgGet => cfgGetHandler texts .ok
  | .cfgPut => cfgPutHandler texts clock

theorem backSrv_endpoints {clock : ℕ → ℤ} {inner : SrvInner Node}
    (h : backSrv texts clock = .ok inner) :
    inner = ⟨backAuthCb, fun name => (endpoints name).map (Endpoint.handler texts clock)⟩ := by
  have hne : cfgGetReq ≠ healthReq ∧ cfgPutReq ≠ healthReq ∧ cfgPutReq ≠ cfgGetReq := by decide
  cases htable : newHandlers (backHandlers texts clock) with
  | error e =>
      rw [backSrv, htable, Except.map] at h
      cases h
  | ok handlers =>
      rw [backSrv, htable, Except.map, Except.ok.injEq] at h
      rw [← h]
      congr
      funext name
      refine Option.ext fun handler => ?_
      have hmem : handlers name = some handler ↔
          (name, handler) ∈ (healthReq, Chan.health) :: backHandlers texts clock :=
        newHandlers_eq_some htable
      rw [hmem]
      simp only [backHandlers, List.mem_cons, Prod.mk.injEq, List.not_mem_nil, or_false, endpoints]
      split_ifs with hhealth hget hput
      · subst hhealth
        simp [Endpoint.handler, hne.1.symm, hne.2.1.symm, eq_comm]
      · subst hget
        simp [Endpoint.handler, hne.1, hne.2.2.symm, eq_comm]
      · subst hput
        simp [Endpoint.handler, hne.2.1, hne.2.2, eq_comm]
      · simp [hhealth, hget, hput]

theorem routed_map {H H' : Type*} (f : H → H') (table : String → Option H) (req : Request) :
    routed (fun name => (table name).map f) req =
      (routed table req).map fun r => (r.1, f r.2.1, r.2.2) := by
  unfold routed
  cases segment req.path with
  | none => rfl
  | some name =>
      cases htable : table name with
      | none => simp [htable]; rfl
      | some handler =>
          simp only [htable, Option.map_some]
          split
          · rfl
          · cases collect maxBody req.frames req.broken with
            | ok body => rfl
            | error e =>
                cases e with
                | lengthLimit => rfl
                | stream => rfl

theorem dispatch_eq (handler : Handler Node) (name : String) (body : Bytes) (n : Node) :
    (dispatch handler name body n).response = handled (handler body n).1 ∧
      (dispatch handler name body n).state = (handler body n).2 := by
  unfold dispatch
  split
  · rename_i heq
    simp [heq, handled]
  · rename_i heq
    simp [heq, handled]

theorem health_eq (body : Bytes) (n : Node) : Chan.health body n = ((Chan.health body ()).1, n) := by
  unfold Chan.health
  split <;> rfl

theorem cfgPutHandler_eq {body : Bytes} {input : Types.CfgPutReq} {n : Node} {clock : ℕ → ℤ}
    (hdecode : texts.decoder.put body = .ok input) {res : Except IoError (ℤ × Bool)}
    (hres : answer res = (Back.upsertValue n (.ofWire input) clock).1) :
    cfgPutHandler texts clock body n =
      (putResult texts res, (Back.upsertValue n (.ofWire input) clock).2) := by
  simp only [cfgPutHandler, hdecode]
  cases hvalue : Back.upsertValue n (.ofWire input) clock with
  | mk value n' =>
      rw [hvalue] at hres
      cases res with
      | ok r =>
          cases hres
          rfl
      | error e =>
          cases hres
          rfl

theorem Alone.put_alone {n : Node} {now : ℤ} {puts : List Put} {req : Request} {body : Bytes}
    {input : Types.CfgPutReq} (clock : ℕ → ℤ) (hi : i < s.calls.length)
    (h : Alone texts i puts.length s₀
      (s.withCall i ⟨n, now, puts⟩ ⟨req, .admitted .cfgPut body⟩))
    (hdecode : texts.decoder.put body = .ok input) :
    ∃ now' res, answer res = (Back.upsertValue n (.ofWire input) clock).1 ∧
      Alone texts i puts.length s₀ (s.withCall i
        ⟨(Back.upsertValue n (.ofWire input) clock).2, now',
          puts ++ [⟨.ofWire input, .done res⟩]⟩
        ⟨req, .answered (handled (putResult texts res))⟩) := by
  have hset : ∀ pc pc', (puts ++ [Put.mk (.ofWire input) pc]).set puts.length
      ⟨.ofWire input, pc'⟩ = puts ++ [⟨.ofWire input, pc'⟩] := by simp
  have hspawn : Alone texts i puts.length s₀
      ((s.withCall i ⟨n, now, puts ++ [⟨.ofWire input, .start⟩]⟩
        ⟨req, .putting puts.length⟩).withPut puts.length n now ⟨.ofWire input, .start⟩) := by
    rw [Service.withPut, Service.withCall, hset]
    exact h.cfgPut hi hdecode
  obtain ⟨now', res, hdone, hres⟩ := hspawn.upsertValue (by simp [Service.withCall]) clock
  rw [Service.withPut, Service.withCall, hset] at hdone
  have hwait : Alone texts i puts.length s₀ (s.withCall i
      ⟨(Back.upsertValue n (.ofWire input) clock).2, now', puts ++ [⟨.ofWire input, .done res⟩]⟩
      ⟨req, .putting puts.length⟩) := hdone
  exact ⟨now', res, hres, hwait.finish_answers hi (by simp [Server.result])⟩

theorem Alone.admitted_alone {n : Node} {now : ℤ} {puts : List Put} {req : Request}
    {endpoint : Endpoint} {body : Bytes} (clock : ℕ → ℤ) (hi : i < s.calls.length)
    (h : Alone texts i puts.length s₀
      (s.withCall i ⟨n, now, puts⟩ ⟨req, .admitted endpoint body⟩)) :
    ∃ now' puts', puts <+: puts' ∧ Alone texts i puts.length s₀
      (s.withCall i ⟨(endpoint.handler texts clock body n).2, now', puts'⟩
        ⟨req, .answered (handled (endpoint.handler texts clock body n).1)⟩) := by
  cases endpoint with
  | health =>
      rw [Endpoint.handler, health_eq]
      exact ⟨now, puts, List.prefix_rfl, h.health hi⟩
  | cfgGet => exact ⟨now, puts, List.prefix_rfl, h.cfgGet hi⟩
  | cfgPut =>
      rw [Endpoint.handler]
      cases hdecode : texts.decoder.put body with
      | error e =>
          rw [cfgPutHandler, hdecode]
          exact ⟨now, puts, List.prefix_rfl, h.malformed hi hdecode⟩
      | ok input =>
          obtain ⟨now', res, hres, hanswer⟩ := h.put_alone clock hi hdecode
          rw [cfgPutHandler_eq hdecode hres]
          exact ⟨now', _, List.prefix_append _ _, hanswer⟩

/-- A request that arrives and then goes on alone is answered as `handleRequest` says, leaves
what that leaves, and does nothing to the other requests and puts. -/
theorem served_alone (texts : Texts) (s : Service) (req : Request) (clock : ℕ → ℤ)
    {inner : SrvInner Node} (hinner : backSrv texts clock = .ok inner) :
    ∃ s', Alone texts s.calls.length s.server.puts.length
        { s with calls := s.calls ++ [⟨req, .received⟩] } s' ∧
      s'.calls = s.calls ++ [⟨req, .answered
        (handleRequest texts.canonicalReason inner req s.server.node).response⟩] ∧
      s'.server.node = (handleRequest texts.canonicalReason inner req s.server.node).state ∧
      s.server.puts <+: s'.server.puts ∧ s'.announcer = s.announcer := by
  obtain rfl := backSrv_endpoints hinner
  obtain ⟨⟨n, now, puts⟩, addrs, announcer, calls⟩ := s
  have hset : ∀ pc pc', (calls ++ [Call.mk req pc]).set calls.length ⟨req, pc'⟩ =
      calls ++ [⟨req, pc'⟩] := by simp
  have hlen : calls.length < (calls ++ [Call.mk req .received]).length := by simp
  have hstart : Alone texts calls.length puts.length
      ⟨⟨n, now, puts⟩, addrs, announcer, calls ++ [⟨req, .received⟩]⟩
      (Service.withCall ⟨⟨n, now, puts⟩, addrs, announcer, calls ++ [⟨req, .received⟩]⟩
        calls.length ⟨n, now, puts⟩ ⟨req, .received⟩) := by
    rw [Service.withCall, hset]
    exact .refl
  have hnext := hstart.received hlen
  have hdone : ∀ {n' now' puts' res}, Alone texts calls.length puts.length
      ⟨⟨n, now, puts⟩, addrs, announcer, calls ++ [⟨req, .received⟩]⟩
      (Service.withCall ⟨⟨n, now, puts⟩, addrs, announcer, calls ++ [⟨req, .received⟩]⟩
        calls.length ⟨n', now', puts'⟩ ⟨req, .answered res⟩) → puts <+: puts' →
      ∃ s', Alone texts calls.length puts.length
          ⟨⟨n, now, puts⟩, addrs, announcer, calls ++ [⟨req, .received⟩]⟩ s' ∧
        s'.calls = calls ++ [⟨req, .answered res⟩] ∧ s'.server.node = n' ∧
        puts <+: s'.server.puts ∧ s'.announcer = announcer := by
    intro n' now' puts' res hrun hputs
    exact ⟨_, hrun, hset _ _, rfl, hputs, rfl⟩
  simp only
  unfold stepReceived at hnext
  unfold handleRequest
  cases hval : req.authVal with
  | none =>
      simp only [hval] at hnext
      exact hdone hnext List.prefix_rfl
  | some val =>
      simp only [hval] at hnext
      simp only [backAuthCb]
      cases hcb : (makeAuthCb .ok val n.sql).1 with
      | error err =>
          simp only [hcb] at hnext
          exact hdone hnext List.prefix_rfl
      | ok code =>
          simp only [hcb] at hnext
          simp only
          by_cases hok : code = .ok
          · simp only [if_pos hok] at hnext ⊢
            rw [route_routed, routed_map]
            cases hrouted : routed endpoints req with
            | error res =>
                simp only [hrouted] at hnext
                exact hdone hnext List.prefix_rfl
            | ok r =>
                obtain ⟨name, endpoint, body⟩ := r
                simp only [hrouted] at hnext
                obtain ⟨now', puts', hputs, hanswer⟩ := hnext.admitted_alone clock hlen
                have hdispatch := dispatch_eq (endpoint.handler texts clock) name body n
                simp only [Except.map, hdispatch]
                exact hdone hanswer hputs
          · simp only [if_neg hok] at hnext ⊢
            exact hdone hnext List.prefix_rfl

theorem served_alone_put : ∃ s', Alone someTexts 0 0
    ⟨.start testNode.sql 2000, [], .asleep, [⟨putReq, .received⟩]⟩ s' ∧
      s'.calls = [⟨putReq, .answered (resp .ok [])⟩] := by
  obtain ⟨handlers, hinner, _⟩ := backSrv_ok someTexts fun _ => 2000
  obtain ⟨s', hrun, hcalls, _⟩ := served_alone someTexts (.start testNode.sql 2000 []) putReq
    (fun _ => 2000) hinner
  refine ⟨s', hrun, hcalls.trans ?_⟩
  rw [backSrv_endpoints hinner]
  have hres : (handleRequest someTexts.canonicalReason ⟨backAuthCb, fun name =>
      (endpoints name).map (Endpoint.handler someTexts fun _ => 2000)⟩ putReq
      (Service.start testNode.sql 2000 []).server.node).response = resp .ok [] := by
    decide +kernel
  rw [hres]
  rfl

end Request

end VmIo.Back
