import VmIo.Lib.Bytes

/-!
The channel server: authorization, routing and a body limit before a table of
handlers.

The authorization callback and the handlers do what they like to a state `σ`.
Every call of one of them is noted as an event. The body arrives in frames, and
the stream of frames may break off.
-/

namespace VmIo.Chan

open VmIo.Lib

structure StatusCode where
  code : ℕ
  range : 100 ≤ code ∧ code < 1000
  deriving DecidableEq

namespace StatusCode

def ok : StatusCode := ⟨200, by decide⟩
def badRequest : StatusCode := ⟨400, by decide⟩
def unauthorized : StatusCode := ⟨401, by decide⟩
def notFound : StatusCode := ⟨404, by decide⟩
def payloadTooLarge : StatusCode := ⟨413, by decide⟩
def internalServerError : StatusCode := ⟨500, by decide⟩

end StatusCode

structure Response where
  status : StatusCode
  contentType : Option String
  body : Bytes
  deriving DecidableEq

def resp (code : StatusCode) (body : Bytes) : Response := ⟨code, none, body⟩

def respText (code : StatusCode) (body : String) : Response :=
  { resp code (utf8 body) with contentType := some "text/plain; charset=utf-8" }

structure Request where
  method : String
  path : String
  /-- names in lower case, in the order received -/
  headers : List (String × Bytes)
  frames : List Bytes
  /-- the stream fails after its frames -/
  broken : Bool

/-- `headers().get`, the first value of a name. -/
def Request.header (req : Request) (name : String) : Option Bytes :=
  (req.headers.find? (fun h => h.1 = name)).map Prod.snd

/-- `HeaderValue::to_str`: visible ascii and tabs. -/
def toStr (val : Bytes) : Option String :=
  if ∀ b ∈ val, (32 ≤ b ∧ b < 127) ∨ b = 9 then
    some (String.ofList (val.map fun b => Char.ofNat b.toNat))
  else none

/-- `u64::from_str` -/
def parseU64 (s : String) : Option ℕ :=
  let digits := match s.toList with
    | '+' :: cs => cs
    | cs => cs
  if digits ≠ [] ∧ ∀ c ∈ digits, c.isDigit then
    let n := digits.foldl (fun n c => 10 * n + (c.toNat - '0'.toNat)) 0
    if n < 2 ^ 64 then some n else none
  else none

/-- The one non-empty path segment that names a handler. -/
def segment (path : String) : Option String :=
  if path = "/" then none
  else
    let name := match path.toList with
      | '/' :: cs => cs
      | cs => cs
    if name = [] ∨ '/' ∈ name then none else some (String.ofList name)

/-- 16 MiB -/
def maxBody : ℕ := 16 * 1024 * 1024

inductive BodyError
  | lengthLimit
  | stream
  deriving DecidableEq

/-- `Limited::collect`, with what is left of the limit. -/
def collect : ℕ → List Bytes → Bool → Except BodyError Bytes
  | _, [], broken => if broken then .error .stream else .ok []
  | left, frame :: frames, broken =>
      if left < frame.length then .error .lengthLimit
      else (collect (left - frame.length) frames broken).map (frame ++ ·)

inductive Event
  | authCb (val : String)
  | handle (name : String) (body : Bytes)
  deriving DecidableEq

section Server

variable {σ : Type*}

/-- An error is its text. -/
abbrev AuthCb (σ : Type*) := String → σ → Except String StatusCode × σ

abbrev Handler (σ : Type*) := Bytes → σ → Except String Bytes × σ

structure SrvInner (σ : Type*) where
  authCb : AuthCb σ
  handlers : String → Option (Handler σ)

/-- What a request comes to: the response, the state, and the calls made. -/
structure Outcome (σ : Type*) where
  response : Response
  state : σ
  events : List Event

def dispatch (handler : Handler σ) (name : String) (body : Bytes) (s : σ) : Outcome σ :=
  match handler body s with
  | (.ok out, s) => ⟨resp .ok out, s, [.handle name body]⟩
  | (.error err, s) => ⟨respText .internalServerError err, s, [.handle name body]⟩

/-- `handle_request` from its routing on. -/
def route (inner : SrvInner σ) (req : Request) (s : σ) : Outcome σ :=
  match segment req.path with
  | none => ⟨respText .notFound "not found", s, []⟩
  | some name =>
      match inner.handlers name with
      | none => ⟨respText .notFound "not found", s, []⟩
      | some handler =>
          if ∃ len ∈ ((req.header "content-length").bind toStr).bind parseU64, maxBody < len then
            ⟨respText .payloadTooLarge "payload exceeds maximum size limit", s, []⟩
          else
            match collect maxBody req.frames req.broken with
            | .error .lengthLimit =>
                ⟨respText .payloadTooLarge "payload exceeds maximum size limit", s, []⟩
            | .error .stream =>
                ⟨respText .badRequest "failed to read stream or malformed payload", s, []⟩
            | .ok body => dispatch handler name body s

def Request.authVal (req : Request) : Option String := (req.header "authorization").bind toStr

def handleRequest (canonicalReason : StatusCode → Option String) (inner : SrvInner σ)
    (req : Request) (s : σ) : Outcome σ :=
  match req.authVal with
  | none => ⟨respText .unauthorized "missing or invalid authorization", s, []⟩
  | some val =>
      match inner.authCb val s with
      | (.ok code, s) =>
          if code = .ok then
            let out := route inner req s
            { out with events := .authCb val :: out.events }
          else ⟨respText code ((canonicalReason code).getD ""), s, [.authCb val]⟩
      | (.error err, s) => ⟨respText .internalServerError err, s, [.authCb val]⟩

/-! ### Who reaches a handler -/

theorem collect_ok {left : ℕ} {frames : List Bytes} {broken : Bool} {body : Bytes}
    (h : collect left frames broken = .ok body) :
    body = frames.flatten ∧ broken = false ∧ body.length ≤ left := by
  induction frames generalizing left body with
  | nil =>
      cases broken with
      | true => cases h
      | false =>
          cases h
          exact ⟨rfl, rfl, Nat.zero_le _⟩
  | cons frame frames ih =>
      rw [collect] at h
      split at h
      · cases h
      · cases hrest : collect (left - frame.length) frames broken with
        | error e =>
            rw [hrest] at h
            cases h
        | ok rest =>
            rw [hrest] at h
            cases h
            obtain ⟨rfl, hbroken, hlen⟩ := ih hrest
            refine ⟨rfl, hbroken, ?_⟩
            rw [List.length_append]
            omega

/-- What a handler's call means for the request that made it. -/
structure Handled (inner : SrvInner σ) (req : Request) (s : σ) (out : Outcome σ) (name : String)
    (body : Bytes) : Prop where
  path : segment req.path = some name
  called : ∃ handler, inner.handlers name = some handler ∧ out.state = (handler body s).2 ∧
    out.response = (dispatch handler name body s).response
  whole : body = req.frames.flatten
  complete : req.broken = false
  limit : body.length ≤ maxBody

theorem dispatch_events (handler : Handler σ) (name : String) (body : Bytes) (s : σ) :
    (dispatch handler name body s).events = [.handle name body] ∧
      (dispatch handler name body s).state = (handler body s).2 := by
  unfold dispatch
  split
  · rename_i heq
    simp [heq]
  · rename_i heq
    simp [heq]

theorem route_cases (inner : SrvInner σ) (req : Request) (s : σ) :
    ((route inner req s).events = [] ∧ (route inner req s).state = s) ∨
      ∃ name body, (route inner req s).events = [.handle name body] ∧
        Handled inner req s (route inner req s) name body := by
  unfold route
  split
  · exact .inl ⟨rfl, rfl⟩
  · rename_i name hname
    split
    · exact .inl ⟨rfl, rfl⟩
    · rename_i handler hhandler
      split
      · exact .inl ⟨rfl, rfl⟩
      · split
        · exact .inl ⟨rfl, rfl⟩
        · exact .inl ⟨rfl, rfl⟩
        · rename_i body hbody
          obtain ⟨hwhole, hcomplete, hlimit⟩ := collect_ok hbody
          obtain ⟨hevents, hstate⟩ := dispatch_events handler name body s
          exact .inr ⟨name, body, hevents, hname, ⟨handler, hhandler, hstate, rfl⟩, hwhole,
            hcomplete, hlimit⟩

/-- The calls of a request: the callback's, and after an answer of exactly 200
those of the routing. -/
theorem handleRequest_cases (canonicalReason : StatusCode → Option String)
    (inner : SrvInner σ) (req : Request) (s : σ) :
    ((handleRequest canonicalReason inner req s).events = [] ∧
        (handleRequest canonicalReason inner req s).state = s) ∨
      ∃ val, req.authVal = some val ∧
        (((handleRequest canonicalReason inner req s).events = [.authCb val] ∧
            (handleRequest canonicalReason inner req s).state = (inner.authCb val s).2) ∨
          (inner.authCb val s).1 = .ok .ok ∧
            handleRequest canonicalReason inner req s =
              { route inner req (inner.authCb val s).2 with
                events := .authCb val :: (route inner req (inner.authCb val s).2).events }) := by
  unfold handleRequest
  split
  · exact .inl ⟨rfl, rfl⟩
  · rename_i val hval
    refine .inr ⟨val, hval, ?_⟩
    split
    · rename_i code s₁ hcb
      split
      · rename_i hcode
        exact .inr ⟨by rw [hcb, hcode], by simp [hcb]⟩
      · exact .inl ⟨rfl, by simp [hcb]⟩
    · rename_i err s₁ hcb
      exact .inl ⟨rfl, by simp [hcb]⟩

/-- The response to a request that is not authorized is made of the callback's
answer alone. -/
theorem response_unauthorized {canonicalReason : StatusCode → Option String}
    {inner inner' : SrvInner σ} {req req' : Request} {s s' : σ} (hval : req'.authVal = req.authVal)
    (hcb : ∀ val, req.authVal = some val → (inner'.authCb val s').1 = (inner.authCb val s).1 ∧
      (inner.authCb val s).1 ≠ .ok .ok) :
    (handleRequest canonicalReason inner' req' s').response =
      (handleRequest canonicalReason inner req s).response := by
  unfold handleRequest
  rw [hval]
  cases hauth : req.authVal with
  | none => rfl
  | some val =>
      obtain ⟨hsame, hne⟩ := hcb val hauth
      cases hres' : inner'.authCb val s' with
      | mk res' s₁' =>
          cases hres : inner.authCb val s with
          | mk res s₁ =>
              rw [hres', hres] at hsame
              rw [hres] at hne
              have hsame : res' = res := hsame
              subst hsame
              cases res' with
              | error err => simp only [hres', hres]
              | ok code =>
                  have hcode : code ≠ .ok := fun h => hne (by rw [h])
                  simp only [hres', hres, if_neg hcode]

/-- A handler is called at most once, after the callback has answered exactly 200
for the request's own Authorization value, and is the one registered for the
path. Otherwise only the callback has been called, if at all. A caller the
callback answers otherwise cannot tell two servers apart by any request. -/
theorem handleRequest_gated (canonicalReason : StatusCode → Option String)
    (inner : SrvInner σ) (req : Request) (s : σ) :
    (∀ name body, .handle name body ∈ (handleRequest canonicalReason inner req s).events →
      ∃ val, req.authVal = some val ∧ (inner.authCb val s).1 = .ok .ok ∧
        (handleRequest canonicalReason inner req s).events = [.authCb val, .handle name body] ∧
        Handled inner req (inner.authCb val s).2 (handleRequest canonicalReason inner req s) name
          body) ∧
      ((∀ name body, .handle name body ∉ (handleRequest canonicalReason inner req s).events) →
        (handleRequest canonicalReason inner req s).state = s ∨
          ∃ val, req.authVal = some val ∧
            (handleRequest canonicalReason inner req s).state = (inner.authCb val s).2) ∧
      ∀ (inner' : SrvInner σ) (req' : Request) (s' : σ), req'.authVal = req.authVal →
        (∀ val, req.authVal = some val → (inner'.authCb val s').1 = (inner.authCb val s).1 ∧
          (inner.authCb val s).1 ≠ .ok .ok) →
        (handleRequest canonicalReason inner' req' s').response =
          (handleRequest canonicalReason inner req s).response := by
  refine ⟨?_, ?_, fun inner' req' s' hval hcb => response_unauthorized hval hcb⟩
  · intro name body hmem
    rcases handleRequest_cases canonicalReason inner req s with
      ⟨hnil, _⟩ | ⟨val, hval, ⟨hone, _⟩ | ⟨hok, hout⟩⟩
    · rw [hnil] at hmem
      exact absurd hmem List.not_mem_nil
    · rw [hone] at hmem
      simp at hmem
    · refine ⟨val, hval, hok, ?_⟩
      rw [hout] at hmem ⊢
      rcases route_cases inner req (inner.authCb val s).2 with
        ⟨hnil, _⟩ | ⟨name', body', hone, hhandled⟩
      · simp [hnil] at hmem
      · simp only [hone, List.mem_cons, reduceCtorEq, Event.handle.injEq, List.not_mem_nil, or_false,
          false_or] at hmem
        obtain ⟨rfl, rfl⟩ := hmem
        exact ⟨by simp only [hone], hhandled.path, hhandled.called, hhandled.whole,
          hhandled.complete, hhandled.limit⟩
  · intro hnone
    rcases handleRequest_cases canonicalReason inner req s with
      ⟨_, hstate⟩ | ⟨val, hval, ⟨_, hstate⟩ | ⟨_, hout⟩⟩
    · exact .inl hstate
    · exact .inr ⟨val, hval, hstate⟩
    · refine .inr ⟨val, hval, ?_⟩
      rcases route_cases inner req (inner.authCb val s).2 with ⟨_, hstate⟩ | ⟨name, body, hone, _⟩
      · rw [hout]
        exact hstate
      · exact absurd (by rw [hout]; simp [hone]) (hnone name body)

def echoServer (names : List String) : SrvInner Unit where
  authCb val s := (.ok (if val = "key" then .ok else .unauthorized), s)
  handlers name := if name ∈ names then some (fun body s => (.ok body, s)) else none

/-- With the key the whole body reaches the echo. With another value a request for
it is answered like one for nothing, of a declared length beyond the limit. -/
theorem handleRequest_gated_echo :
    Handled (echoServer ["e"]) ⟨"POST", "/e", [("authorization", utf8 "key")], [[1], [2]], false⟩ ()
        (handleRequest (fun _ => none) (echoServer ["e"])
          ⟨"POST", "/e", [("authorization", utf8 "key")], [[1], [2]], false⟩ ()) "e" [1, 2] ∧
      (handleRequest (fun _ => none) (echoServer [])
          ⟨"GET", "/", [("authorization", utf8 "kex"), ("content-length", utf8 "99999999")], [], true⟩
          ()).response =
        (handleRequest (fun _ => none) (echoServer ["e"])
          ⟨"POST", "/e", [("authorization", utf8 "kex")], [[1], [2]], false⟩ ()).response := by
  constructor
  · obtain ⟨_, _, _, _, hhandled⟩ := (handleRequest_gated (fun _ => none) (echoServer ["e"])
      ⟨"POST", "/e", [("authorization", utf8 "key")], [[1], [2]], false⟩ ()).1 "e" [1, 2]
      (by decide +kernel)
    exact hhandled
  · refine (handleRequest_gated (fun _ => none) (echoServer ["e"])
      ⟨"POST", "/e", [("authorization", utf8 "kex")], [[1], [2]], false⟩ ()).2.2 _ _ () ?_ ?_
    · decide +kernel
    · intro val hval
      have hkex : val = "kex" := Option.some.inj (hval.symm.trans (by decide +kernel))
      subst hkex
      exact ⟨rfl, by decide +kernel⟩

end Server

end VmIo.Chan
