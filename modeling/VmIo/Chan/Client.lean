import VmIo.Chan.Routing

/-!
A request from end to end: what the client sends, what arrives, what the server makes
of it and what the client makes of the response.

The names the program uses are plain, so each request reaches the handler of its name
(`call_answered`), and a caller that the callback does not let in is told so and no more
(`call_refused`).
-/

namespace VmIo.Chan

open VmIo.Lib VmIo.Lib.Url

def StatusCode.isSuccess (status : StatusCode) : Bool := 200 ≤ status.code ∧ status.code < 300

/-- `ChanCli::request` from the response on. -/
def requestResult (res : Response) : Except String Bytes :=
  if res.status.isSuccess then .ok res.body
  else .error ("request failed: " ++ toString res.status.code ++ " " ++ fromUtf8Lossy res.body)

/-- The request as it arrives when nothing is lost. The body may come in other frames, and
there may be more headers, among them a length that is the body's. -/
structure Arrives (sent req : Request) : Prop extends Received sent req where
  body : req.frames.flatten = sent.frames.flatten
  complete : req.broken = false
  length : ∀ len ∈ ((req.header "content-length").bind toStr).bind parseU64,
    len = sent.frames.flatten.length

def isBlank (c : Char) : Bool := c = ' ' ∨ c = '\t'

/-- A header value that is carried as it is: visible ascii and tabs, without a blank at either
end. -/
def Carried (val : String) : Prop :=
  toStr (utf8 val) = some val ∧
    val.toList.head?.any isBlank = false ∧ val.toList.getLast?.any isBlank = false

instance (val : String) : Decidable (Carried val) := inferInstanceAs (Decidable (_ ∧ _))

/-- What lies between a client and a server, where requests get through. -/
structure Wire where
  carry : Request → Request
  arrives : ∀ sent, sent.broken = false → sent.header "content-length" = none →
    (∀ val ∈ sent.header "authorization", ∃ s, val = utf8 s ∧ Carried s) →
    Arrives sent (carry sent)

def Wire.direct : Wire where
  carry := id
  arrives _ hwhole hlength _ :=
    { method := rfl
      path := rfl
      authorization := rfl
      body := rfl
      complete := hwhole
      length := by simp [hlength] }

section Call

variable {σ : Type*} (canonicalReason : StatusCode → Option String) (inner : SrvInner σ)
  (wire : Wire) (cli : ChanCli)

/-- `ChanCli::request`, with the server that it reaches. -/
def ChanCli.call (name : String) (body : Bytes) (s : σ) : Except String Bytes × σ :=
  match cli.request name body with
  | .error e => (.error e, s)
  | .ok sent =>
      let out := handleRequest canonicalReason inner (wire.carry sent) s
      (requestResult out.response, out.state)

/-- `ChanCli::connect`, which checks that the server is there. -/
def ChanCli.connect (s : σ) : Except String ChanCli × σ :=
  match cli.call canonicalReason inner wire healthReq [] s with
  | (.ok _, s) => (.ok cli, s)
  | (.error e, s) => (.error e, s)

/-! ### Bodies -/

theorem collect_complete {left : ℕ} {frames : List Bytes} :
    collect left frames false =
      if frames.flatten.length ≤ left then .ok frames.flatten else .error .lengthLimit := by
  induction frames generalizing left with
  | nil => rfl
  | cons frame frames ih =>
      rw [collect, ih, List.flatten_cons, List.length_append]
      split
      · rw [if_neg (by omega)]
      · split
        · rw [if_pos (by omega)]
          rfl
        · rw [if_neg (by omega)]
          rfl

def ChanCli.sent (cli : ChanCli) (name : String) (body : Bytes) : Request :=
  ⟨"POST", urlPath name, [("authorization", utf8 cli.authHeader)], [body], false⟩

variable {canonicalReason inner wire cli} {name : String} {body : Bytes} {s : σ}

theorem ChanCli.request_plain (hname : Plain name.toList) :
    cli.request name body = .ok (cli.sent name body) := by
  have hne : name ≠ "" := by
    rintro rfl
    exact hname.nonempty rfl
  have hslash : '/' ∉ name.toList := fun hmem => (hname.kept _ hmem).2.1 rfl
  rw [request, if_neg (not_or.mpr ⟨hne, hslash⟩)]
  rfl

theorem ChanCli.arrives (wire : Wire) (hcli : Carried cli.authHeader) (name : String)
    (body : Bytes) : Arrives (cli.sent name body) (wire.carry (cli.sent name body)) := by
  refine wire.arrives _ rfl (by simp [Request.header, sent]) fun val hval => ?_
  have hheader : (cli.sent name body).header "authorization" = some (utf8 cli.authHeader) := rfl
  cases hheader.symm.trans hval
  exact ⟨cli.authHeader, rfl, hcli⟩

theorem carried_authVal (hcli : Carried cli.authHeader) :
    (wire.carry (cli.sent name body)).authVal = some cli.authHeader := by
  have hheader : (wire.carry (cli.sent name body)).header "authorization" =
      some (utf8 cli.authHeader) := (cli.arrives wire hcli name body).authorization
  rw [Request.authVal, hheader]
  exact hcli.1

theorem carried_collect (hcli : Carried cli.authHeader) :
    collect maxBody (wire.carry (cli.sent name body)).frames
        (wire.carry (cli.sent name body)).broken =
      if body.length ≤ maxBody then .ok body else .error .lengthLimit := by
  have hbody : (wire.carry (cli.sent name body)).frames.flatten = body := by
    rw [(cli.arrives wire hcli name body).body]
    exact List.flatten_singleton
  rw [(cli.arrives wire hcli name body).complete, collect_complete, hbody]

theorem carried_length (hcli : Carried cli.authHeader) :
    (∃ len ∈ (((wire.carry (cli.sent name body)).header "content-length").bind toStr).bind
      parseU64, maxBody < len) → maxBody < body.length := by
  rintro ⟨len, hlen, hlt⟩
  rw [(cli.arrives wire hcli name body).length len hlen] at hlt
  simpa [ChanCli.sent] using hlt

/-! ### What the client gets -/

/-- A caller that the callback does not let in gets the callback's answer, and nothing of
its request reaches a handler. -/
theorem ChanCli.call_refused (hname : Plain name.toList) (hcli : Carried cli.authHeader) {s' : σ}
    {status : StatusCode} (hcb : inner.authCb cli.authHeader s = (.ok status, s'))
    (hstatus : status ≠ .ok) :
    cli.call canonicalReason inner wire name body s =
      (requestResult (respText status ((canonicalReason status).getD "")), s') := by
  simp only [call, request_plain hname, handleRequest, carried_authVal hcli, hcb, if_neg hstatus]

def handlerResult (handler : Handler σ) (body : Bytes) (s : σ) : Except String Bytes × σ :=
  match handler body s with
  | (.ok out, s) => (.ok out, s)
  | (.error e, s) => (.error ("request failed: 500 " ++ e), s)

theorem requestResult_respText (status : StatusCode) (h : status.isSuccess = false) (e : String) :
    requestResult (respText status e) =
      .error ("request failed: " ++ toString status.code ++ " " ++ e) := by
  have hstatus : (respText status e).status = status := rfl
  have hbody : (respText status e).body = utf8 e := rfl
  rw [requestResult, hstatus, hbody, fromUtf8Lossy_utf8, h]
  rfl

theorem requestResult_dispatch (handler : Handler σ) (name : String) (body : Bytes) (s : σ) :
    (requestResult (dispatch handler name body s).response, (dispatch handler name body s).state) =
      handlerResult handler body s := by
  have htext : "request failed: " ++ toString StatusCode.internalServerError.code ++ " " =
      "request failed: 500 " := by decide +kernel
  cases hres : handler body s with
  | mk res s' =>
      cases res with
      | ok out =>
          simp only [dispatch, handlerResult, hres]
          rfl
      | error e =>
          simp only [dispatch, handlerResult, hres,
            requestResult_respText .internalServerError (by decide), htext]

/-- A caller that is let in gets the answer of the handler registered under exactly the name
it asked for, which is given the body as it was sent, unless that is too long. -/
theorem ChanCli.call_answered (hname : Plain name.toList) (hcli : Carried cli.authHeader) {s' : σ}
    (hcb : inner.authCb cli.authHeader s = (.ok .ok, s')) {handler : Handler σ}
    (hhandler : inner.handlers name = some handler) :
    cli.call canonicalReason inner wire name body s =
      if body.length ≤ maxBody then handlerResult handler body s'
      else (.error "request failed: 413 payload exceeds maximum size limit", s') := by
  have hseg : segment (wire.carry (cli.sent name body)).path = some name := by
    rw [(cli.arrives wire hcli name body).path]
    exact routedName_of_plain hname
  have htext : "request failed: " ++ toString StatusCode.payloadTooLarge.code ++ " " ++
      "payload exceeds maximum size limit" =
      "request failed: 413 payload exceeds maximum size limit" := by decide +kernel
  simp only [call, request_plain hname, handleRequest, carried_authVal hcli, hcb, if_pos, route_eq,
    hseg, answer, hhandler, serve, carried_collect hcli]
  by_cases hlen : body.length ≤ maxBody
  · rw [if_neg fun hex => absurd (carried_length hcli hex) (by omega), if_pos hlen, if_pos hlen]
    exact requestResult_dispatch handler name body s'
  · rw [if_neg hlen, if_neg hlen]
    split
    · rw [requestResult_respText _ (by decide), htext]
    · rw [requestResult_respText _ (by decide), htext]

end Call

end VmIo.Chan
