import Cheshire.Lib.Bytes
import Cheshire.Lib.Session

/-!
# The UART debug protocol: `uart_debug.c` and `vip_cheshire_soc.sv`

The server is `uart_debug_serve`, after the poll of the boot ROM for a request
(`uart_debug_check`). The host is the test bench: its handshake, and then calls of
`uart_debug_rw`, one after the other. The UART is one channel of bytes in each direction.

Each side is a party: its states are the points where it sends a byte or waits for one, with the
variables it needs from there on. What happens between two bytes belongs to the step before.
-/

namespace Cheshire.UartDebug

open Lib

abbrev U64 := BitVec 64

def uartDebugCmdRead : Byte := 0x11

def uartDebugCmdWrite : Byte := 0x12

def uartDebugCmdExec : Byte := 0x13

def uartDebugAck : Byte := 0x06

def uartDebugEot : Byte := 0x04

def uartDebugEoc : Byte := 0x14

/-! ## The server -/

/-- What has been read into a 64-bit variable. -/
def u64Of (got : List Byte) : U64 := BitVec.ofNat 64 (le 8 fun i => got.getD i 0)

inductive ServerPc
  | check
  | start
  | cmd
  | addr (cmd : Byte) (got : List Byte)
  | len (cmd : Byte) (addr : U64) (got : List Byte)
  | ack (cmd : Byte) (addr len : U64)
  | data (cmd : Byte) (addr len i : U64)
  | ackExec (addr : U64)
  | eoc (rest : List Byte) (ret : BitVec 32)
  | returned (ret : BitVec 32)

/-- The server and the memory of the target. -/
structure Server where
  pc : ServerPc
  mem : Mem

/-- `uart_debug_serve`. The code that EXEC invokes returns a number, and may change the memory. -/
def server (invoke : U64 → Mem → BitVec 32 × Mem) : Party Server Byte where
  send s :=
    match s.pc with
    | .start => some (uartDebugAck, { s with pc := .cmd })
    | .ack cmd addr len => some (uartDebugAck, { s with pc := .data cmd addr len 0 })
    | .data cmd addr len i =>
      if i < len then
        if cmd = uartDebugCmdRead then
          some (s.mem (addr + i), { s with pc := .data cmd addr len (i + 1) })
        else none
      else some (uartDebugEot, { s with pc := .cmd })
    | .ackExec addr =>
      let (ret, mem) := invoke addr s.mem
      some (uartDebugAck, ⟨.eoc (uartDebugEoc :: (List.range 4).map (byteOf ret.toNat)) ret, mem⟩)
    | .eoc (b :: rest) ret =>
      some (b, { s with pc := if rest = [] then .returned ret else .eoc rest ret })
    | _ => none
  recv s b :=
    match s.pc with
    | .check => some (if b = uartDebugAck then { s with pc := .start } else s)
    | .cmd =>
      if b = uartDebugCmdRead ∨ b = uartDebugCmdWrite ∨ b = uartDebugCmdExec then
        some { s with pc := .addr b [] }
      else some { s with pc := .returned 1 }
    | .addr cmd got =>
      if got.length + 1 < 8 then some { s with pc := .addr cmd (got ++ [b]) }
      else if cmd = uartDebugCmdExec then some { s with pc := .ackExec (u64Of (got ++ [b])) }
      else some { s with pc := .len cmd (u64Of (got ++ [b])) [] }
    | .len cmd addr got =>
      if got.length + 1 < 8 then some { s with pc := .len cmd addr (got ++ [b]) }
      else some { s with pc := .ack cmd addr (u64Of (got ++ [b])) }
    | .data cmd addr len i =>
      if i < len ∧ cmd = uartDebugCmdWrite then
        some ⟨.data cmd addr len (i + 1), s.mem.write (addr + i) 1 fun _ => b⟩
      else none
    | _ => none

/-! ## The host -/

/-- The arguments of a call of `uart_debug_rw`; `data` is a reference. -/
structure Call where
  addr : U64
  lenOrW : U64
  data : List Byte

namespace Call

variable (c : Call)

/-- The length of a queue is a 32-bit integer. -/
def len : U64 :=
  if c.lenOrW ≠ 0 then c.lenOrW else (BitVec.ofNat 32 c.data.length).setWidth 64

/-- The command, and the bytes of the address and length. -/
def header : List Byte :=
  (if c.lenOrW ≠ 0 then uartDebugCmdRead else uartDebugCmdWrite) ::
    ((List.range 8).map (byteOf c.addr.toNat) ++ (List.range 8).map (byteOf c.len.toNat))

/-- `data[i]`: items outside the queue, as those with a negative index, read as 0. -/
def item (i : BitVec 32) : Byte := if i.msb then 0 else c.data.getD i.toNat 0

end Call

inductive HostPc
  | challenge
  | connect
  | header (c : Call) (rest : List Byte)
  | ack (c : Call)
  | data (c : Call) (i : BitVec 32)
  | done
  | fatal

/-- The host with its calls to come, and the queues of those that have returned. -/
structure Host where
  pc : HostPc
  calls : List Call
  results : List (List Byte)

/-- At the start of the next call. -/
def Host.next (calls : List Call) (results : List (List Byte)) : Host :=
  match calls with
  | [] => ⟨.done, [], results⟩
  | c :: calls => ⟨.header c c.header, calls, results⟩

/-- `uart_boot_scoop_expect`. -/
def Host.expect (h : Host) (b exp : Byte) (h' : Host) : Host :=
  if b = exp then h' else { h with pc := .fatal }

/-- The handshake, and `uart_debug_rw` for each call. The loop counter `i` is an `int`, which is
compared with a 64-bit length as an unsigned number. -/
def host : Party Host Byte where
  send h :=
    match h.pc with
    | .challenge => some (uartDebugAck, { h with pc := .connect })
    | .header c (b :: rest) =>
      some (b, { h with pc := if rest = [] then .ack c else .header c rest })
    | .data c i =>
      if i.setWidth 64 < c.len ∧ c.lenOrW = 0 then
        some (c.item i, { h with pc := .data c (i + 1) })
      else none
    | _ => none
  recv h b :=
    match h.pc with
    | .connect => some (h.expect b uartDebugAck (.next h.calls h.results))
    | .ack c => some (h.expect b uartDebugAck { h with pc := .data c 0 })
    | .data c i =>
      if i.setWidth 64 < c.len then
        if c.lenOrW ≠ 0 then
          some { h with pc := .data { c with data := c.data ++ [b] } (i + 1) }
        else none
      else
        some (h.expect b uartDebugEot (.next h.calls (h.results ++ [c.data])))
    | _ => none

/-! ## Sessions -/

abbrev UartSession := Session Host Server Byte

/-- The host makes `calls`, the memory is `mem`, and the boot ROM polls for a request. -/
def sessions (invoke : U64 → Mem → BitVec 32 × Mem) (mem : Mem) (calls : List Call) :
    Machine UartSession :=
  Session.machine host (server invoke) ⟨.challenge, calls, []⟩ ⟨.check, mem⟩

/-! ## What the calls are for -/

namespace Call

variable (m : Mem) (c : Call)

/-- The target memory that a read asks for. -/
def received : List Byte :=
  if c.lenOrW ≠ 0 then (List.range c.lenOrW.toNat).map fun i => m (c.addr + BitVec.ofNat 64 i)
  else []

/-- The queue after the call. -/
def result : List Byte := c.data ++ c.received m

/-- The target memory after the call. -/
def store : Mem :=
  if c.lenOrW ≠ 0 then m else m.write c.addr c.data.length fun i => c.data.getD i 0

end Call

/-- The target memory after the calls, in order. -/
def memAfter (m : Mem) (calls : List Call) : Mem := calls.foldl Call.store m

/-- The queues after the calls: a read gets the memory as changed by the writes before it. -/
def results : Mem → List Call → List (List Byte)
  | _, [] => []
  | m, c :: calls => c.result m :: results (c.store m) calls

end Cheshire.UartDebug
