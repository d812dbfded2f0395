import VmIo.Chan.Server
import VmIo.Lib.UrlPath

/-!
From the name a client asks for to the handler that answers.

The client checks the name itself, and the server routes on the path that is left
of the URL after parsing. The two agree for the names the parser leaves alone.
-/

namespace VmIo.Chan

open VmIo.Lib VmIo.Lib.Url

section Table

variable {σ : Type*}

def healthReq : String := "__health"

def health : Handler σ := fun body s =>
  if body = [] then (.ok [], s) else (.error "health check does not accept a body", s)

def insertHandlers :
    List (String × Handler σ) → (String → Option (Handler σ)) →
      Except String (String → Option (Handler σ))
  | [], handlers => .ok handlers
  | (name, handler) :: rest, handlers =>
      if (handlers name).isSome then .error ("duplicate handler req: " ++ name)
      else insertHandlers rest (Function.update handlers name (some handler))

def newHandlers (config : List (String × Handler σ)) :
    Except String (String → Option (Handler σ)) :=
  insertHandlers config (Function.update (fun _ => none) healthReq (some health))

theorem insertHandlers_eq_some {config : List (String × Handler σ)}
    {handlers handlers' : String → Option (Handler σ)} {name : String} {handler : Handler σ}
    (h : insertHandlers config handlers = .ok handlers') :
    handlers' name = some handler ↔ handlers name = some handler ∨ (name, handler) ∈ config := by
  induction config generalizing handlers with
  | nil =>
      cases h
      simp
  | cons entry rest ih =>
      obtain ⟨name', handler'⟩ := entry
      rw [insertHandlers] at h
      split at h
      · cases h
      · rename_i hfree
        rw [ih h, List.mem_cons, Prod.mk.injEq, ← or_assoc]
        refine or_congr_left ?_
        by_cases heq : name = name'
        · subst heq
          have hnone : handlers name = none := by simpa using hfree
          rw [Function.update_self, hnone]
          simp [eq_comm]
        · rw [Function.update_of_ne heq]
          simp [heq]

theorem newHandlers_eq_some {config : List (String × Handler σ)}
    {handlers : String → Option (Handler σ)} {name : String} {handler : Handler σ}
    (h : newHandlers config = .ok handlers) :
    handlers name = some handler ↔ (name, handler) ∈ (healthReq, health) :: config := by
  rw [insertHandlers_eq_some h, List.mem_cons, Prod.mk.injEq]
  refine or_congr_left ?_
  by_cases heq : name = healthReq
  · subst heq
    rw [Function.update_self]
    simp [eq_comm]
  · rw [Function.update_of_ne heq]
    simp [heq]

def serve (handler : Handler σ) (name : String) (req : Request) (s : σ) : Outcome σ :=
  if ∃ len ∈ ((req.header "content-length").bind toStr).bind parseU64, maxBody < len then
    ⟨respText .payloadTooLarge "payload exceeds maximum size limit", s, []⟩
  else
    match collect maxBody req.frames req.broken with
    | .error .lengthLimit =>
        ⟨respText .payloadTooLarge "payload exceeds maximum size limit", s, []⟩
    | .error .stream =>
        ⟨respText .badRequest "failed to read stream or malformed payload", s, []⟩
    | .ok body => dispatch handler name body s

/-- The answer of the handler registered under a name, or that there is none. -/
def answer (handlers : String → Option (Handler σ)) (name : String) (req : Request) (s : σ) :
    Outcome σ :=
  match handlers name with
  | none => ⟨respText .notFound "not found", s, []⟩
  | some handler => serve handler name req s

theorem route_eq (inner : SrvInner σ) (req : Request) (s : σ) :
    route inner req s =
      match segment req.path with
      | none => ⟨respText .notFound "not found", s, []⟩
      | some name => answer inner.handlers name req s := rfl

/-- `handle_request` from its routing to the handler's call, whatever a handler is. -/
def routed {H : Type*} (handlers : String → Option H) (req : Request) :
    Except Response (String × H × Bytes) :=
  match segment req.path with
  | none => .error (respText .notFound "not found")
  | some name =>
      match handlers name with
      | none => .error (respText .notFound "not found")
      | some handler =>
          if ∃ len ∈ ((req.header "content-length").bind toStr).bind parseU64, maxBody < len then
            .error (respText .payloadTooLarge "payload exceeds maximum size limit")
          else
            match collect maxBody req.frames req.broken with
            | .error .lengthLimit =>
                .error (respText .payloadTooLarge "payload exceeds maximum size limit")
            | .error .stream =>
                .error (respText .badRequest "failed to read stream or malformed payload")
            | .ok body => .ok (name, handler, body)

theorem route_routed (inner : SrvInner σ) (req : Request) (s : σ) :
    route inner req s =
      match routed inner.handlers req with
      | .error res => ⟨res, s, []⟩
      | .ok (name, handler, body) => dispatch handler name body s := by
  unfold route routed
  cases segment req.path with
  | none => rfl
  | some name =>
      cases hhandler : inner.handlers name with
      | none => simp only [hhandler]
      | some handler =>
          simp only [hhandler]
          split
          · rfl
          · cases collect maxBody req.frames req.broken with
            | ok body => rfl
            | error e =>
                cases e with
                | lengthLimit => rfl
                | stream => rfl

end Table

/-! ### The client -/

structure ChanCli where
  authHeader : String

/-- The path of the URL `<base>/<name>`, where the base is a scheme, a host and a port. -/
def urlPath (name : String) : String :=
  String.ofList (serializePath (parsePath name.toList))

/-- `ChanCli::request` up to where the request is sent. -/
def ChanCli.request (cli : ChanCli) (req : String) (body : Bytes) : Except String Request :=
  if req = "" ∨ '/' ∈ req.toList then .error "req must be a single non-empty path segment"
  else .ok ⟨"POST", urlPath req, [("authorization", utf8 cli.authHeader)], [body], false⟩

/-- The request as it arrives. The client library adds headers, and the body may come in
other frames or break off. -/
structure Received (sent req : Request) : Prop where
  method : req.method = sent.method
  path : req.path = sent.path
  authorization : req.header "authorization" = sent.header "authorization"

/-- Every request of this name, once it is authorized, is answered by the handler registered
under the name, or as there is none. -/
def Dispatched {σ : Type*} (handlers : String → Option (Handler σ)) (name : String) : Prop :=
  ∀ (cli : ChanCli) (body : Bytes) (sent req : Request) (authCb : AuthCb σ)
    (canonicalReason : StatusCode → Option String) (s s' : σ) (val : String),
    cli.request name body = .ok sent → Received sent req →
    req.authVal = some val → authCb val s = (.ok .ok, s') →
    handleRequest canonicalReason ⟨authCb, handlers⟩ req s =
      { answer handlers name req s' with
        events := .authCb val :: (answer handlers name req s').events }

/-! ### What the server makes of the path -/

def routedName (name : String) : Option String := segment (urlPath name)

theorem segment_slash (cs : List Char) :
    segment (String.ofList ('/' :: cs)) =
      if cs = [] ∨ '/' ∈ cs then none else some (String.ofList cs) := by
  unfold segment
  by_cases hnil : cs = []
  · subst hnil
    rfl
  · have hne : String.ofList ('/' :: cs) ≠ "/" := by
      intro heq
      have hlist := congrArg String.toList heq
      simp at hlist
      exact hnil hlist
    rw [if_neg hne, String.toList_ofList]
    rfl

theorem plain_of_routedName {name other : String} (h : routedName name = some other) :
    parsePath name.toList = [other.toList] ∧ Plain other.toList := by
  unfold routedName urlPath at h
  have hclean := clean_parsePath name.toList
  match hpath : parsePath name.toList with
  | [] =>
      have hnone : segment (String.ofList (serializePath [])) = none := by decide
      rw [hpath, hnone] at h
      cases h
  | [seg] =>
      rw [hpath] at h hclean
      simp only [serializePath, List.flatMap_cons, List.flatMap_nil, List.append_nil,
        segment_slash] at h
      split at h
      · cases h
      · rename_i hseg
        cases h
        rw [String.toList_ofList]
        have hplain := hclean seg (List.mem_singleton_self _)
        exact ⟨rfl, hplain.resolve_left fun hnil => hseg (.inl hnil)⟩
  | seg :: seg' :: rest =>
      rw [hpath] at h
      simp only [serializePath, List.flatMap_cons, List.cons_append, segment_slash] at h
      rw [if_pos (.inr (List.mem_append_right _ List.mem_cons_self))] at h
      cases h

theorem routedName_of_plain {name : String} (h : Plain name.toList) :
    routedName name = some name := by
  have hslash : '/' ∉ name.toList := fun hmem => (h.kept _ hmem).2.1 rfl
  unfold routedName urlPath
  rw [h.parsePath]
  simp only [serializePath, List.flatMap_cons, List.flatMap_nil, List.append_nil, segment_slash]
  rw [if_neg (not_or.mpr ⟨h.nonempty, hslash⟩), String.ofList_toList]

example : routedName "x\\..\\echo" = some "echo" ∧ routedName "a^b" = some "a^b" := by
  decide +kernel

/-! ### When the two agree -/

section Routing

variable {σ : Type*} {handlers : String → Option (Handler σ)} {name : String}

theorem handleRequest_authorized {authCb : AuthCb σ}
    {canonicalReason : StatusCode → Option String} {req : Request} {s s' : σ} {val : String}
    (hval : req.authVal = some val) (hcb : authCb val s = (.ok .ok, s')) :
    handleRequest canonicalReason ⟨authCb, handlers⟩ req s =
      { route ⟨authCb, handlers⟩ req s' with
        events := .authCb val :: (route ⟨authCb, handlers⟩ req s').events } := by
  simp only [handleRequest, hval, hcb, if_pos]

theorem request_path {cli : ChanCli} {body : Bytes} {sent : Request}
    (h : cli.request name body = .ok sent) : sent.path = urlPath name := by
  unfold ChanCli.request at h
  split at h
  · cases h
  · cases h
    rfl

def emptyRequest (name : String) : Request :=
  ⟨"POST", urlPath name, [("authorization", utf8 "key")], [[]], false⟩

theorem answer_none {req : Request} {s : σ} (h : handlers name = none) :
    answer handlers name req s = ⟨respText .notFound "not found", s, []⟩ := by
  rw [answer, h]

/-- The calls of a request without a body for a name. -/
def calls (handlers : String → Option (Handler σ)) : Option String → List Event
  | none => []
  | some name => if (handlers name).isSome then [.handle name []] else []

theorem answer_empty (handlers : String → Option (Handler σ)) (name name' : String) (s : σ) :
    (answer handlers name (emptyRequest name') s).events = calls handlers (some name) := by
  simp only [answer, calls]
  cases handlers name with
  | none => rfl
  | some handler =>
      have hheader : (emptyRequest name').header "content-length" = none := by
        simp [Request.header, emptyRequest]
      have hbody : collect maxBody (emptyRequest name').frames (emptyRequest name').broken =
          .ok [] := by
        simp [emptyRequest, collect]
        rfl
      simp only [serve, hheader, hbody, Option.bind_none, reduceCtorEq, Option.mem_def, false_and,
        exists_false, if_false]
      exact (dispatch_events handler name [] s).1

theorem of_calls_eq {routed : Option String}
    (h : calls handlers routed = calls handlers (some name)) :
    routed = some name ∨
      handlers name = none ∧ ∀ other, routed = some other → handlers other = none := by
  have hcalls : ∀ {name : String}, calls handlers (some name) = [] → handlers name = none := by
    intro name hnil
    cases hhandler : handlers name with
    | none => rfl
    | some handler => simp [calls, hhandler] at hnil
  cases hhandler : handlers name with
  | none =>
      have hnil : calls handlers (some name) = [] := by simp [calls, hhandler]
      rw [hnil] at h
      exact .inr ⟨rfl, fun other hother => hcalls (hother ▸ h)⟩
  | some handler =>
      have hone : calls handlers (some name) = [.handle name []] := by simp [calls, hhandler]
      rw [hone] at h
      refine .inl ?_
      cases routed with
      | none => cases h
      | some other =>
          rw [calls] at h
          split at h
          · cases h
            rfl
          · cases h

/-- The parser leaves the name alone, or neither the name nor what becomes of it is
registered. -/
def Agrees (handlers : String → Option (Handler σ)) (name : String) : Prop :=
  Plain name.toList ∨
    handlers name = none ∧ ∀ other, routedName name = some other → handlers other = none

theorem Agrees.dispatched (h : Agrees handlers name) : Dispatched handlers name := by
  intro cli body sent req authCb canonicalReason s s' val hsent hreceived hval hcb
  have hseg : segment req.path = routedName name := by
    rw [hreceived.path, request_path hsent, routedName]
  rw [handleRequest_authorized hval hcb, route_eq, hseg]
  rcases h with hplain | ⟨hnone, hother⟩
  · rw [routedName_of_plain hplain]
  · rw [answer_none hnone]
    cases hrouted : routedName name with
    | none => rfl
    | some other => simp only [answer_none (hother other hrouted)]

theorem Dispatched.calls_eq [Inhabited σ] (hname : name ≠ "" ∧ '/' ∉ name.toList)
    (h : Dispatched handlers name) :
    calls handlers (routedName name) = calls handlers (some name) := by
  have hsent : (ChanCli.mk "key").request name [] = .ok (emptyRequest name) := by
    rw [ChanCli.request, if_neg (not_or.mpr hname)]
    rfl
  have hval : (emptyRequest name).authVal = some "key" := by
    have hheader : (emptyRequest name).header "authorization" = some (utf8 "key") := rfl
    rw [Request.authVal, hheader]
    decide +kernel
  have hall := h ⟨"key"⟩ [] (emptyRequest name) (emptyRequest name) (fun _ s => (.ok .ok, s))
    (fun _ => none) default default "key" hsent ⟨rfl, rfl, rfl⟩ hval rfl
  rw [handleRequest_authorized hval rfl] at hall
  have hevents := congrArg (fun out => out.events.tail) hall
  simp only [List.tail_cons, answer_empty] at hevents
  rw [← hevents, route_eq]
  have hseg : segment (emptyRequest name).path = routedName name := rfl
  rw [hseg]
  cases routedName name with
  | none => rfl
  | some other => exact (answer_empty handlers other name default).symm

/-- The requests of an accepted name are answered by the handler registered under exactly that
name, and with 404 if there is none, if and only if the parser leaves the name alone or neither
the name nor what becomes of it is registered. -/
theorem client_routing_iff [Inhabited σ] (hname : name ≠ "" ∧ '/' ∉ name.toList) :
    Dispatched handlers name ↔ Agrees handlers name := by
  refine ⟨fun h => ?_, Agrees.dispatched⟩
  rcases of_calls_eq (h.calls_eq hname) with hrouted | hnone
  · exact .inl (plain_of_routedName hrouted).2
  · exact .inr hnone

end Routing

def echo : Handler Unit := fun body s => (.ok body, s)

/-- A plain name reaches its handler. -/
theorem client_routing_iff_echo :
    ∃ handlers, newHandlers [("echo", echo)] = .ok handlers ∧ Dispatched handlers "echo" :=
  ⟨_, rfl, (client_routing_iff ⟨by decide, by decide⟩).mpr
    (.inl (by decide +kernel))⟩

/-- The client accepts `echo?x`, and its request comes to the handler of `echo`. -/
theorem client_reaches_another :
    ∃ handlers sent, newHandlers [("echo", echo)] = .ok handlers ∧ handlers "echo?x" = none ∧
      (ChanCli.mk "key").request "echo?x" [1] = .ok sent ∧
      (handleRequest (fun _ => none) ⟨fun _ s => (.ok .ok, s), handlers⟩ sent ()).events =
        [.authCb "key", .handle "echo" [1]] ∧
      ¬Dispatched handlers "echo?x" := by
  refine ⟨_, _, rfl, by decide, rfl, by decide +kernel, fun h => ?_⟩
  have hcalls := h.calls_eq ⟨by decide, by decide⟩
  exact absurd hcalls (by decide +kernel)

end VmIo.Chan
