import PcEnv.ReqHeaders
import PcEnv.SockReap

/-! The requests that `HandleRequest` hands over, and what `parse` makes of them. -/
namespace PcEnv
namespace SockServer

open Runs Text Word
open ReqContex (Carried Harmless amp blank build headerBlock parse_built parse_same_iff question
  request resource slash)

/-- A client whose request has passed the tests, in some state that a run comes to. -/
def HandedOver (req : List UInt8) : Prop :=
  ∃ es t c, exec step Sys.start es = .ok t ∧ (t.objs c).handler = .responding req

theorem HandedOver.length {req : List UInt8} (h : HandedOver req) : req.length ≤ intMax := by
  obtain ⟨es,t,c,ht,hc⟩ := h
  exact (request_length ht hc).trans (by decide)

/-- Every request handed over is parsed to an end. Its pairs come out as they were put in, and the
lines of its header change neither them nor the command if and only if they are harmless. -/
theorem handed_over_parse {req : List UInt8} (h : HandedOver req) :
    (∃ r, ReqContex.new.parse req = some r) ∧
    (∀ method command ps rest, req = build method command ps rest → ¬slash <:+: method →
      question ∉ command → ps ≠ [] → (∀ p ∈ ps, Carried p) → (∃ t, rest = blank::t) →
      amp ∉ rest → ReqContex.new.parse req = some (⟨method,command,ps⟩,true)) ∧
    ∀ method target lines, req = request method target lines →
      (ReqContex.new.parse req = ReqContex.new.parse (request method target []) ↔
        Harmless (resource method target) (headerBlock lines)) := by
  have hlen := h.length
  refine ⟨ReqContex.parse_total _ req,?_,?_⟩
  · rintro method command ps rest rfl hmethod hcmd hne hps hrest hamp
    exact parse_built hmethod hcmd hne hps hrest hamp hlen
  · rintro method target lines rfl
    have hless : (request method target []).length ≤ (request method target lines).length := by
      simp [request,headerBlock]
    rw [ReqContex.harmless_iff]
    exact parse_same_iff hlen (hless.trans hlen)

def requestRun : List Event :=
  [.select .accepted,.select .quiet,.visit true,.visit true,.reap,.reap,
    .handler 0 (.recv (.bytes (request (ascii "GET") (ascii "getVideo?time=1")
      [ascii "Host: cam"]))),.handler 0 .test]

theorem handed_over_parse_host :
    ReqContex.new.parse (request (ascii "GET") (ascii "getVideo?time=1") [ascii "Host: cam"]) =
      ReqContex.new.parse (request (ascii "GET") (ascii "getVideo?time=1") []) := by
  have hrun : observe (fun t => (t.objs 0).handler) (exec step Sys.start requestRun) =
      some (.responding (request (ascii "GET") (ascii "getVideo?time=1") [ascii "Host: cam"])) := by
    decide
  obtain ⟨t,ht,hhandler⟩ := observe_eq_some.mp hrun
  exact ((handed_over_parse ⟨_,t,0,ht,hhandler⟩).2.2 _ _ _ rfl).mpr (by decide)

end SockServer
end PcEnv
