import GemStaging.World

/-!
Requests for web addresses. A transport answers each of them with bytes or with a fault; it knows
the requests that were made before, so it may answer in any way.
-/

namespace GemStaging.Http

structure Transport where
  answer : List String → String → Except Fault Bytes

def getBytes (t : Transport) (url : String) : Work Bytes := do
  Work.note .debug "gemstage::http" "GET" [("url", url)]
  let earlier := (← Effect.get).requests
  Effect.modify fun m => { m with requests := m.requests ++ [url] }
  Effect.ofExcept (t.answer earlier url)

/-- Requests an address and reads the answer as text, whatever bytes it holds. -/
def getText (t : Transport) (url : String) : Work String := do
  return Text.decodeLossy (← getBytes t url)

end GemStaging.Http
