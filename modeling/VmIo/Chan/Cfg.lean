import VmIo.Chan.Client
import VmIo.Types.Api

/-!
The config requests of a client.
-/

namespace VmIo.Chan

open VmIo.Lib VmIo.Types

section Cfg

variable {σ : Type*} (decoder : Decoder)
  (canonicalReason : StatusCode → Option String) (inner : SrvInner σ) (wire : Wire) (cli : ChanCli)

def cfgGetReq : String := "cfg-get"

def cfgPutReq : String := "cfg-put"

def ChanCli.cfgGet (s : σ) : Except String CfgGetRes × σ :=
  match cli.call canonicalReason inner wire cfgGetReq [] s with
  | (.error e, s) => (.error e, s)
  | (.ok payload, s) => (decoder.get payload, s)

def ChanCli.cfgPut (input : CfgPutReq) (s : σ) : Except String Unit × σ :=
  match cli.call canonicalReason inner wire cfgPutReq (encode input) s with
  | (.error e, s) => (.error e, s)
  | (.ok payload, s) =>
      if payload = [] then (.ok (), s) else (.error "unexpected cfg_put result", s)

end Cfg

end VmIo.Chan
