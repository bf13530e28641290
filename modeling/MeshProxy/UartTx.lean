import MeshProxy.UartRx

/-!
# uart_meshtastic.c, transmit side

Callers put payloads on a message queue and submit the work item; the work
handler frames one entry and starts `uart_tx`, and the completion event
submits the work item again. `passed` and `started` record the payloads that
were passed to `uart_meshtastic_tx` and the frames handed to `uart_tx`.
-/

namespace MeshProxy

def txQueueDepth : Nat := 4

structure UartTx where
  /-- `tx_msgq`, oldest entry first. -/
  msgq : List (List UInt8) := []
  /-- `tx_work` is queued. -/
  workPending : Bool := false
  inProgress : Bool := false
  frameBuf : Cells (meshtasticMaxPayload + 4) UInt8 := Cells.zero
  passed : List (List UInt8) := []
  started : List (List UInt8) := []

/-- `k_msgq_put` with `K_NO_WAIT`. -/
def txMsgqPut (u : UartTx) (payload : List UInt8) : UartTx × Except Errno Unit :=
  if txQueueDepth ≤ u.msgq.length then (u, .error .enomem)
  else ({ u with msgq := u.msgq ++ [payload] }, .ok ())

/-- `k_work_submit(&tx_work)`. -/
def txWorkSubmit (u : UartTx) : UartTx := { u with workPending := true }

def uartMeshtasticTx (u : UartTx) (payload : List UInt8) : UartTx × Except Errno Unit :=
  let u := { u with passed := u.passed ++ [payload] }
  if meshtasticMaxPayload < payload.length then (u, .error .emsgsize)
  else
    match txMsgqPut u payload with
    | (u, .error _) => (u, .error .enomem)
    | (u, .ok ()) => (txWorkSubmit u, .ok ())

def frameHeader (len : Nat) : List UInt8 :=
  [meshtasticMagic1, meshtasticMagic2, UInt8.ofNat (len >>> 8), UInt8.ofNat (len &&& 0xFF)]

/-- One run of the work item; `failed` is what `uart_tx` returns. -/
def txWorkHandler (u : UartTx) (failed : Bool) : UartTx :=
  let u := { u with workPending := false }
  if u.inProgress then u
  else
    match u.msgq with
    | [] => u
    | entry :: rest =>
      let frameBuf := (u.frameBuf.memcpy 0 (frameHeader entry.length)).memcpy 4 entry
      let u := { u with
        msgq := rest, frameBuf, inProgress := true,
        started := u.started ++ [frameBuf.slice 0 (entry.length + 4)] }
      if failed then txWorkSubmit { u with inProgress := false } else u

def uartTxDone (u : UartTx) : UartTx := txWorkSubmit { u with inProgress := false }

def uartTxAborted (u : UartTx) : UartTx := txWorkSubmit { u with inProgress := false }

end MeshProxy
