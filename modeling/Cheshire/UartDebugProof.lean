import Cheshire.UartDebug

/-!
# Sessions of the UART debug protocol

Host and server are each shown to follow one script, in which the lengths and the data of all
calls are those of the calls and of the memory at that time (`host_follows`, `server_follows`).
That they stay together then holds of any two parties that follow a script.

**Theorem (`sessions_serve`).** As long as the loop counter of the host can reach the lengths,
every run serves all calls. A read whose length it cannot reach is served in no run.
-/

namespace Cheshire.UartDebug

open Lib

/-! ## The script -/

namespace Call

variable (m : Mem) (c : Call)

/-- The counter of the loop over the data, an `int`, gets to the length of a read, and does not
become negative before the length of a write. -/
def Fits : Prop := if c.lenOrW ≠ 0 then c.lenOrW.toNat < 2 ^ 32 else c.data.length ≤ 2 ^ 31

instance : Decidable c.Fits :=
  inferInstanceAs (Decidable
    (if c.lenOrW ≠ 0 then c.lenOrW.toNat < 2 ^ 32 else c.data.length ≤ 2 ^ 31))

/-- The host sends the data of a write as it is in the queue, also where the counter becomes
negative. -/
def Sent : Prop :=
  if c.lenOrW ≠ 0 then c.lenOrW.toNat < 2 ^ 32
  else c.data.length < 2 ^ 32 ∧
    ∀ i < c.data.length, c.item (BitVec.ofNat 32 i) = c.data.getD i 0

theorem item_nonneg {i : ℕ} (h : i < 2 ^ 31) : c.item (BitVec.ofNat 32 i) = c.data.getD i 0 := by
  have hval : (BitVec.ofNat 32 i).toNat = i := by
    rw [BitVec.toNat_ofNat]
    omega
  have hmsb : (BitVec.ofNat 32 i).msb = false :=
    BitVec.msb_eq_false_iff_two_mul_lt.2 (by omega)
  rw [item, hmsb, if_neg Bool.false_ne_true, hval]

variable {c} in
theorem sent_of_le (hwrite : c.lenOrW = 0) (h : c.data.length ≤ 2 ^ 31) : c.Sent := by
  unfold Sent
  rw [if_neg (not_not.2 hwrite)]
  exact ⟨by omega, fun i hi => c.item_nonneg (by omega)⟩

variable {c} in
theorem Fits.sent (h : c.Fits) : c.Sent := by
  unfold Fits at h
  by_cases hread : c.lenOrW ≠ 0
  · rw [if_pos hread] at h
    exact (if_pos hread).mpr h
  · rw [if_neg hread] at h
    exact sent_of_le (not_not.1 hread) h

/-- The bytes of a call, as the host sees them. -/
def script : List (Act Byte) :=
  c.header.map .out ++ .inp uartDebugAck ::
    ((if c.lenOrW ≠ 0 then (c.received m).map .inp else c.data.map .out) ++ [.inp uartDebugEot])

end Call

def callsScript : Mem → List Call → List (Act Byte)
  | _, [] => []
  | m, c :: calls => c.script m ++ callsScript (c.store m) calls

/-- The handshake and the calls. -/
def script (m : Mem) (calls : List Call) : List (Act Byte) :=
  .out uartDebugAck :: .inp uartDebugAck :: callsScript m calls

/-! ## The host follows the script -/

section Host

variable {c : Call} {calls : List Call} {res : List (List Byte)} {m : Mem}

theorem host_header (b : Byte) (rest : List Byte) :
    host.Follows ⟨.header c (b :: rest), calls, res⟩ ((b :: rest).map .out)
      ⟨.ack c, calls, res⟩ := by
  induction rest generalizing b with
  | nil => exact ⟨_, rfl, fun _ => rfl, rfl⟩
  | cons b' rest ih => exact ⟨_, rfl, fun _ => rfl, ih b'⟩

/-- The end of the loop over the data. -/
theorem host_eot {i : BitVec 32} (hi : ¬i.setWidth 64 < c.len) :
    host.Follows ⟨.data c i, calls, res⟩ [.inp uartDebugEot]
      (.next calls (res ++ [c.data])) := by
  refine ⟨_, ?_, ?_, rfl⟩
  · exact if_neg fun h => hi h.1
  · exact (if_neg hi).trans (congrArg some (if_pos rfl))

theorem setWidth_lt {i : BitVec 32} {n : U64} : i.setWidth 64 < n ↔ i.toNat < n.toNat := by
  rw [BitVec.lt_def, BitVec.toNat_setWidth]
  omega

theorem toNat_succ {i : BitVec 32} {n : ℕ} (h : i.toNat < n) (hn : n < 2 ^ 32) :
    (i + 1).toNat = i.toNat + 1 := by
  rw [BitVec.toNat_add]
  exact Nat.mod_eq_of_lt (by show i.toNat + 1 < 2 ^ 32; omega)

/-- Receiving what is left of the data of a read. -/
theorem host_read (l : List Byte) {i : BitVec 32} (hread : c.lenOrW ≠ 0)
    (hfits : c.lenOrW.toNat < 2 ^ 32) (hi : i.toNat + l.length = c.lenOrW.toNat) :
    host.Follows ⟨.data c i, calls, res⟩ (l.map .inp ++ [.inp uartDebugEot])
      (.next calls (res ++ [c.data ++ l])) := by
  induction l generalizing c i with
  | nil =>
    rw [List.append_nil]
    refine host_eot ?_
    rw [Call.len, if_pos hread, setWidth_lt]
    exact not_lt.2 hi.ge
  | cons b l ih =>
    rw [List.length_cons] at hi
    have hlt : i.setWidth 64 < c.len := by
      rw [Call.len, if_pos hread, setWidth_lt]
      omega
    have hnext : (i + 1).toNat + l.length = c.lenOrW.toNat := by
      rw [toNat_succ (n := c.lenOrW.toNat) (by omega) hfits]
      omega
    have hrest := @ih { c with data := c.data ++ [b] } (i + 1) hread hfits hnext
    rw [List.append_assoc] at hrest
    exact ⟨_, if_neg fun h => hread h.2, (if_pos hlt).trans (if_pos hread), hrest⟩

/-- The length of a write is that of its queue. -/
theorem len_of_write (hwrite : c.lenOrW = 0) (hlen : c.data.length < 2 ^ 32) :
    c.len.toNat = c.data.length := by
  rw [Call.len, if_neg (not_not.2 hwrite), BitVec.toNat_setWidth, BitVec.toNat_ofNat]
  omega

/-- Sending what is left of the data of a write. -/
theorem host_write (l : List Byte) {i : BitVec 32} (hwrite : c.lenOrW = 0)
    (hsent : c.data.length < 2 ^ 32 ∧
      ∀ i < c.data.length, c.item (BitVec.ofNat 32 i) = c.data.getD i 0)
    (hi : c.data.drop i.toNat = l) (hle : i.toNat ≤ c.data.length) :
    host.Follows ⟨.data c i, calls, res⟩ (l.map .out ++ [.inp uartDebugEot])
      (.next calls (res ++ [c.data])) := by
  obtain ⟨hfits, hitems⟩ := hsent
  have hlen := len_of_write hwrite hfits
  have hcount : l.length = c.data.length - i.toNat := by rw [← hi, List.length_drop]
  induction l generalizing i with
  | nil =>
    refine host_eot ?_
    rw [setWidth_lt, hlen]
    rw [List.length_nil] at hcount
    omega
  | cons b l ih =>
    rw [List.length_cons] at hcount
    have hlt : i.setWidth 64 < c.len := by
      rw [setWidth_lt, hlen]
      omega
    have hnext : (i + 1).toNat = i.toNat + 1 :=
      toNat_succ (n := c.data.length) (by omega) (by omega)
    have hitem : c.item i = b := by
      have hget : (c.data.drop i.toNat).getD 0 0 = b := by rw [hi]; rfl
      rw [List.getD_eq_getElem?_getD, List.getElem?_drop, Nat.add_zero,
        ← List.getD_eq_getElem?_getD, ← hitems i.toNat (by omega), BitVec.ofNat_toNat,
        BitVec.setWidth_eq] at hget
      exact hget
    have hdrop : c.data.drop (i + 1).toNat = l := by
      rw [hnext, ← List.drop_drop, hi]
      rfl
    refine ⟨_, (if_pos ⟨hlt, hwrite⟩).trans (by rw [hitem]), fun b => ?_,
      ih hdrop (by omega) (by rw [hnext]; omega)⟩
    exact (if_pos hlt).trans (if_neg (not_not.2 hwrite))

theorem received_length (hread : c.lenOrW ≠ 0) : (c.received m).length = c.lenOrW.toNat := by
  rw [Call.received, if_pos hread, List.length_map, List.length_range]

theorem host_call (hsent : c.Sent) :
    host.Follows ⟨.header c c.header, calls, res⟩ (c.script m)
      (.next calls (res ++ [c.result m])) := by
  refine (host_header _ _).append ⟨⟨.data c 0, calls, res⟩, rfl, rfl, ?_⟩
  unfold Call.Sent at hsent
  by_cases hread : c.lenOrW ≠ 0
  · rw [if_pos hread] at hsent ⊢
    exact host_read _ hread hsent (by rw [received_length hread]; exact Nat.zero_add _)
  · rw [if_neg hread] at hsent ⊢
    have hresult : c.result m = c.data := by
      rw [Call.result, Call.received, if_neg hread, List.append_nil]
    rw [hresult]
    exact host_write c.data (not_not.1 hread) hsent rfl (Nat.zero_le _)

theorem host_calls (hsent : ∀ c ∈ calls, c.Sent) :
    host.Follows (.next calls res) (callsScript m calls) ⟨.done, [], res ++ results m calls⟩ := by
  induction calls generalizing res m with
  | nil =>
    rw [results, List.append_nil]
    exact rfl
  | cons c calls ih =>
    have hrest : host.Follows (.next calls (res ++ [c.result m])) (callsScript (c.store m) calls)
        ⟨.done, [], res ++ [c.result m] ++ results (c.store m) calls⟩ :=
      ih fun d hd => hsent d (List.mem_cons_of_mem c hd)
    rw [List.append_assoc] at hrest
    exact (host_call (hsent c List.mem_cons_self)).append hrest

/-- **The host follows the script.** -/
theorem host_follows (m : Mem) (hsent : ∀ c ∈ calls, c.Sent) :
    host.Follows ⟨.challenge, calls, []⟩ (script m calls) ⟨.done, [], results m calls⟩ :=
  ⟨_, rfl, fun _ => rfl, _, rfl, rfl, host_calls hsent⟩

end Host

/-! ## The server follows the script -/

section Server

variable {invoke : U64 → Mem → BitVec 32 × Mem} {c : Call} {calls : List Call} {m : Mem}

/-- Reading the eight bytes of an argument. -/
theorem server_arg {f : List Byte → ServerPc} {g : U64 → ServerPc}
    (hsend : ∀ got, (server invoke).send ⟨f got, m⟩ = none)
    (hrecv : ∀ got b, (server invoke).recv ⟨f got, m⟩ b =
      if got.length + 1 < 8 then some ⟨f (got ++ [b]), m⟩ else some ⟨g (u64Of (got ++ [b])), m⟩)
    (got : List Byte) (b : Byte) (l : List Byte) (hlen : got.length + l.length = 7) :
    (server invoke).Follows ⟨f got, m⟩ ((b :: l).map .inp) ⟨g (u64Of (got ++ b :: l)), m⟩ := by
  induction l generalizing got b with
  | nil =>
    rw [List.length_nil] at hlen
    exact ⟨_, hsend got, (hrecv got b).trans (if_neg (by omega)), rfl⟩
  | cons b' l ih =>
    rw [List.length_cons] at hlen
    have hrest := ih (got ++ [b]) b' (by rw [List.length_append, List.length_singleton]; omega)
    rw [List.append_assoc] at hrest
    exact ⟨_, hsend got, (hrecv got b).trans (if_pos (by omega)), hrest⟩

/-- An argument is what was sent. -/
theorem server_u64 {f : List Byte → ServerPc} {g : U64 → ServerPc} (x : U64)
    (hsend : ∀ got, (server invoke).send ⟨f got, m⟩ = none)
    (hrecv : ∀ got b, (server invoke).recv ⟨f got, m⟩ b =
      if got.length + 1 < 8 then some ⟨f (got ++ [b]), m⟩ else some ⟨g (u64Of (got ++ [b])), m⟩) :
    (server invoke).Follows ⟨f [], m⟩ (((List.range 8).map (byteOf x.toNat)).map .inp)
      ⟨g x, m⟩ := by
  have hbytes := server_arg hsend hrecv [] (byteOf x.toNat 0)
    ((List.range 7).map fun i => byteOf x.toNat (i + 1)) rfl
  have hrange : byteOf x.toNat 0 :: (List.range 7).map (fun i => byteOf x.toNat (i + 1)) =
      (List.range 8).map (byteOf x.toNat) := rfl
  have hx : u64Of ((List.range 8).map (byteOf x.toNat)) = x :=
    @ofNat_le_bytes 64 8 rfl x
  rw [hrange, List.nil_append, hx] at hbytes
  exact hbytes

theorem toNat_succ_u64 {i n : U64} (h : i < n) : (i + 1).toNat = i.toNat + 1 := by
  rw [BitVec.lt_def] at h
  rw [BitVec.toNat_add]
  exact Nat.mod_eq_of_lt (by show i.toNat + 1 < 2 ^ 64; omega)

/-- The end of the loop over the data. -/
theorem server_eot {cmd : Byte} {addr len i : U64} (hi : ¬i < len) :
    (server invoke).Follows ⟨.data cmd addr len i, m⟩ [.out uartDebugEot] ⟨.cmd, m⟩ :=
  ⟨_, if_neg hi, fun _ => if_neg fun h => hi h.1, rfl⟩

/-- Sending what is left of the data of a read. -/
theorem server_read (k : ℕ) {addr len i : U64} (hi : i.toNat + k = len.toNat) :
    (server invoke).Follows ⟨.data uartDebugCmdRead addr len i, m⟩
      (((List.range k).map fun j => m (addr + BitVec.ofNat 64 (i.toNat + j))).map .out ++
        [.out uartDebugEot]) ⟨.cmd, m⟩ := by
  induction k generalizing i with
  | zero =>
    refine server_eot ?_
    rw [BitVec.lt_def]
    exact not_lt.2 hi.ge
  | succ k ih =>
    have hlt : i < len := by
      rw [BitVec.lt_def]
      omega
    have hnext := toNat_succ_u64 hlt
    have hbyte : m (addr + BitVec.ofNat 64 (i.toNat + 0)) = m (addr + i) := by
      rw [Nat.add_zero, BitVec.ofNat_toNat, BitVec.setWidth_eq]
    have hrest (j : ℕ) : i.toNat + (j + 1) = (i + 1).toNat + j := by
      rw [hnext]
      omega
    rw [List.range_succ_eq_map, List.map_cons, List.map_map, hbyte]
    simp only [Function.comp_def, Nat.succ_eq_add_one, hrest]
    exact ⟨_, (if_pos hlt).trans (if_pos rfl), fun _ => if_neg fun h => absurd h.2 (by decide),
      ih (by omega)⟩

/-- Storing what is left of the data of a write. -/
theorem server_write (l : List Byte) {addr len i : U64} (hi : i.toNat + l.length = len.toNat) :
    (server invoke).Follows ⟨.data uartDebugCmdWrite addr len i, m⟩
      (l.map .inp ++ [.out uartDebugEot])
      ⟨.cmd, m.write (addr + i) l.length fun j => l.getD j 0⟩ := by
  induction l generalizing i m with
  | nil =>
    rw [List.length_nil, Mem.write_zero]
    refine server_eot ?_
    rw [BitVec.lt_def]
    exact not_lt.2 hi.ge
  | cons b l ih =>
    rw [List.length_cons] at hi
    have hlt : i < len := by
      rw [BitVec.lt_def]
      omega
    have hrest := @ih (m.write (addr + i) 1 fun _ => b) (i + 1) (by rw [toNat_succ_u64 hlt]; omega)
    have hmem : (m.write (addr + i) 1 fun _ => b).write (addr + (i + 1)) l.length
        (fun j => l.getD j 0) =
          m.write (addr + i) (b :: l).length fun j => (b :: l).getD j 0 := by
      have hone : (m.write (addr + i) 1 fun _ => b) =
          m.write (addr + i) 1 fun j => (b :: l).getD j 0 := by
        refine Mem.write_congr fun j hj => ?_
        rw [Nat.lt_one_iff.1 hj]
        rfl
      have htail : (fun j => l.getD j 0) = fun j => (b :: l).getD (1 + j) 0 := by
        funext j
        rw [Nat.add_comm]
        rfl
      have haddr : addr + (i + 1) = addr + i + BitVec.ofNat 64 1 := (BitVec.add_assoc ..).symm
      have hbound := len.isLt
      rw [hone, htail, haddr, Mem.write_append (by omega), List.length_cons, Nat.add_comm 1]
    rw [hmem] at hrest
    refine ⟨_, ?_, if_pos ⟨hlt, rfl⟩, hrest⟩
    exact (if_pos hlt).trans (if_neg (by decide))

/-- Receiving a command and its arguments. -/
theorem server_args {cmd : Byte} (hcmd : cmd = uartDebugCmdRead ∨ cmd = uartDebugCmdWrite)
    (addr len : U64) {w : List (Act Byte)} {s' : Server}
    (h : (server invoke).Follows ⟨.data cmd addr len 0, m⟩ w s') :
    (server invoke).Follows ⟨.cmd, m⟩
      (.inp cmd :: (((List.range 8).map (byteOf addr.toNat)).map .inp ++
        (((List.range 8).map (byteOf len.toNat)).map .inp ++ .out uartDebugAck :: w))) s' := by
  have hexec : cmd ≠ uartDebugCmdExec := by
    rcases hcmd with rfl | rfl <;> decide
  have hdone : (server invoke).Follows ⟨.ack cmd addr len, m⟩ (.out uartDebugAck :: w) s' :=
    ⟨_, rfl, fun _ => rfl, h⟩
  have hlen : (server invoke).Follows ⟨.len cmd addr [], m⟩
      (((List.range 8).map (byteOf len.toNat)).map .inp ++ .out uartDebugAck :: w) s' :=
    (server_u64 (g := .ack cmd addr) len (fun _ => rfl) fun _ _ => rfl).append hdone
  have haddr : (server invoke).Follows ⟨.addr cmd [], m⟩
      (((List.range 8).map (byteOf addr.toNat)).map .inp ++
        (((List.range 8).map (byteOf len.toNat)).map .inp ++ .out uartDebugAck :: w)) s' := by
    refine (server_u64 (g := fun addr => .len cmd addr []) addr (fun _ => rfl) ?_).append hlen
    intro got b
    show (if _ then _ else if cmd = uartDebugCmdExec then _ else _) = _
    rw [if_neg hexec]
  exact ⟨_, rfl, if_pos (hcmd.elim Or.inl fun h => Or.inr (Or.inl h)), haddr⟩

theorem server_call (hsent : c.Sent) :
    (server invoke).Follows ⟨.cmd, m⟩ ((c.script m).map Act.dual) ⟨.cmd, c.store m⟩ := by
  have hinp (l : List Byte) : (l.map Act.inp).map Act.dual = l.map Act.out := List.map_map ..
  have hout (l : List Byte) : (l.map Act.out).map Act.dual = l.map Act.inp := List.map_map ..
  unfold Call.Sent at hsent
  unfold Call.script Call.header Call.store
  by_cases hread : c.lenOrW ≠ 0
  · simp only [if_pos hread] at hsent ⊢
    have hlen : (0 : U64).toNat + c.lenOrW.toNat = c.len.toNat := by
      rw [Call.len, if_pos hread]
      exact Nat.zero_add _
    have hdata : (server invoke).Follows ⟨.cmd, m⟩ _ _ :=
      server_args (Or.inl rfl) c.addr c.len (server_read c.lenOrW.toNat hlen)
    have hbytes : (c.received m) = (List.range c.lenOrW.toNat).map fun j =>
        m (c.addr + BitVec.ofNat 64 ((0 : U64).toNat + j)) := by
      rw [Call.received, if_pos hread]
      refine List.map_congr_left fun j _ => ?_
      rw [show (0 : U64).toNat + j = j from Nat.zero_add j]
    rw [← hbytes] at hdata
    simp only [List.map_append, List.map_cons, List.map_nil, hinp, hout, Act.dual,
      List.cons_append, List.append_assoc]
    exact hdata
  · simp only [if_neg hread] at hsent ⊢
    have hlen : (0 : U64).toNat + c.data.length = c.len.toNat := by
      rw [len_of_write (not_not.1 hread) hsent.1]
      exact Nat.zero_add _
    have hdata : (server invoke).Follows ⟨.cmd, m⟩ _ _ :=
      server_args (Or.inr rfl) c.addr c.len (server_write c.data hlen)
    rw [show c.addr + 0 = c.addr from BitVec.add_zero _] at hdata
    simp only [List.map_append, List.map_cons, List.map_nil, hout, Act.dual, List.cons_append,
      List.append_assoc]
    exact hdata

theorem server_calls (hsent : ∀ c ∈ calls, c.Sent) :
    (server invoke).Follows ⟨.cmd, m⟩ ((callsScript m calls).map Act.dual)
      ⟨.cmd, memAfter m calls⟩ := by
  induction calls generalizing m with
  | nil => exact rfl
  | cons c calls ih =>
    rw [callsScript, List.map_append]
    exact (server_call (hsent c List.mem_cons_self)).append
      (ih fun d hd => hsent d (List.mem_cons_of_mem c hd))

/-- **The server follows the script.** -/
theorem server_follows (invoke : U64 → Mem → BitVec 32 × Mem) (m : Mem)
    (hsent : ∀ c ∈ calls, c.Sent) :
    (server invoke).Follows ⟨.check, m⟩ ((script m calls).map Act.dual)
      ⟨.cmd, memAfter m calls⟩ :=
  ⟨_, rfl, rfl, _, rfl, fun _ => rfl, server_calls hsent⟩

end Server

/-! ## All runs -/

section Runs

variable {invoke : U64 → Mem → BitVec 32 × Mem} {calls : List Call} {m : Mem} {h h' : Host}
  {b : Byte}

/-- All calls are served, in every run: the host always receives the byte it expects, its reads
return what they ask for, and at the end the writes have been done and the channels are empty.
No run is stuck before that, or goes on forever. -/
structure Served (invoke : U64 → Mem → BitVec 32 × Mem) (m : Mem) (calls : List Call) : Prop where
  expected : ∀ s, (sessions invoke m calls).Reachable s → s.left.pc ≠ .fatal
  results : ∀ s, (sessions invoke m calls).Reachable s → s.left.results <+: results m calls
  done : ∀ s, (sessions invoke m calls).Reachable s → s.left.pc = .done →
    s.left.results = UartDebug.results m calls ∧ s.right.mem = memAfter m calls ∧
      s.out = [] ∧ s.back = []
  progress : ∀ s, (sessions invoke m calls).Reachable s → s.left.pc ≠ .done →
    ∃ s', (sessions invoke m calls).step s s'
  finite : ∃ n, ∀ k s, (sessions invoke m calls).Run k s → k ≤ n

theorem host_send_results (hs : host.send h = some (b, h')) : h'.results = h.results := by
  unfold host at hs
  dsimp only at hs
  split at hs
  · cases hs
    rfl
  · cases hs
    rfl
  · split_ifs at hs
    cases hs
    rfl
  · cases hs

theorem next_results (calls : List Call) (res : List (List Byte)) :
    (Host.next calls res).results = res := by
  cases calls <;> rfl

theorem expect_results {exp : Byte} {res : List (List Byte)} (hres : res <+: h.results)
    (hres' : res <+: h'.results) : res <+: (h.expect b exp h').results := by
  unfold Host.expect
  split_ifs
  · exact hres'
  · exact hres

theorem host_recv_results (hr : host.recv h b = some h') : h.results <+: h'.results := by
  unfold host at hr
  dsimp only at hr
  split at hr
  · cases hr
    refine expect_results (List.prefix_refl _) ?_
    rw [next_results]
  · cases hr
    exact expect_results (List.prefix_refl _) (List.prefix_refl _)
  · split_ifs at hr
    · cases hr
      exact List.prefix_refl _
    · cases hr
      refine expect_results (List.prefix_refl _) ?_
      rw [next_results]
      exact List.prefix_append _ _
  · cases hr

/-- The script ends with a message to the host. -/
theorem script_last (m : Mem) (calls : List Call) (b : Byte) : ¬[.out b] <:+ script m calls := by
  have hcalls (l : List (Act Byte)) (b : Byte) (m : Mem) (calls : List Call) :
      ∃ l' b', l ++ [.inp b] ++ callsScript m calls = l' ++ [.inp b'] := by
    induction calls generalizing l b m with
    | nil => exact ⟨l, b, by rw [callsScript, List.append_nil]⟩
    | cons c calls ih =>
      have hscript : c.script m = c.header.map .out ++ .inp uartDebugAck ::
          (if c.lenOrW ≠ 0 then (c.received m).map .inp else c.data.map .out) ++
            [.inp uartDebugEot] := by
        rw [Call.script, List.append_assoc]
        rfl
      rw [callsScript, hscript, ← List.append_assoc, ← List.append_assoc]
      exact ih _ _ _
  intro hsuffix
  obtain ⟨l, b', hlast⟩ := hcalls [.out uartDebugAck] uartDebugAck m calls
  obtain ⟨t, ht⟩ := hsuffix
  obtain ⟨-, hmsg⟩ := List.append_inj' (ht.trans hlast) rfl
  exact absurd (List.singleton_inj.1 hmsg) fun h => nomatch h

/-- A host that is through, or has given up, does nothing. -/
theorem host_quiet (hpc : h.pc = .done ∨ h.pc = .fatal) :
    host.send h = none ∧ ∀ b, host.recv h b = none := by
  obtain ⟨pc, calls, res⟩ := h
  rcases hpc with hpc | hpc
  · obtain rfl : pc = .done := hpc
    exact ⟨rfl, fun _ => rfl⟩
  · obtain rfl : pc = .fatal := hpc
    exact ⟨rfl, fun _ => rfl⟩

/-- A host at the end has nothing left of the script, and then nothing is left at all. -/
theorem sessions_end (invoke : U64 → Mem → BitVec 32 × Mem) (m : Mem)
    (hsent : ∀ c ∈ calls, c.Sent) {s : UartSession}
    (hs : (sessions invoke m calls).Reachable s) (hpc : s.left.pc = .done ∨ s.left.pc = .fatal) :
    s = ⟨⟨.done, [], results m calls⟩, ⟨.cmd, memAfter m calls⟩, [], []⟩ := by
  obtain ⟨n, hrun⟩ := hs.run
  obtain ⟨wp, wq, hsynced, -⟩ :=
    Session.run_synced (host_follows m hsent) (server_follows invoke m hsent) rfl rfl hrun
  obtain ⟨hsend, hrecv⟩ := host_quiet hpc
  obtain rfl := hsynced.left.eq_nil hsend hrecv
  obtain rfl := hsynced.right_nil (script_last m calls)
  exact hsynced.eq_end

/-- Calls whose data are sent as they are in the queue are served. -/
theorem served_of_sent (invoke : U64 → Mem → BitVec 32 × Mem) (m : Mem)
    (hsent : ∀ c ∈ calls, c.Sent) : Served invoke m calls := by
  have hsync {n : ℕ} {s : UartSession} (hrun : (sessions invoke m calls).Run n s) :=
    Session.run_synced (host_follows m hsent) (server_follows invoke m hsent) rfl rfl hrun
  refine ⟨fun s hs hfatal => ?_, fun s hs => ?_, fun s hs hdone => ?_, fun s hs hdone => ?_, ?_⟩
  · rw [sessions_end invoke m hsent hs (Or.inr hfatal)] at hfatal
    exact absurd hfatal fun h => nomatch h
  · obtain ⟨n, hrun⟩ := hs.run
    obtain ⟨wp, wq, hsynced, -⟩ := hsync hrun
    exact hsynced.left.preserves (I := fun h => s.left.results <+: h.results) (List.prefix_refl _)
      (fun _ _ _ hI hsend => by rw [host_send_results hsend]; exact hI)
      fun _ _ _ hI hrecv => hI.trans (host_recv_results hrecv)
  · rw [sessions_end invoke m hsent hs (Or.inl hdone)]
    exact ⟨rfl, rfl, rfl, rfl⟩
  · obtain ⟨n, hrun⟩ := hs.run
    obtain ⟨wp, wq, hsynced, -⟩ := hsync hrun
    refine hsynced.progress (not_and_or.1 fun hnil => hdone ?_)
    obtain ⟨rfl, rfl⟩ := hnil
    rw [hsynced.eq_end]
  · refine ⟨2 * (script m calls).length, fun n s hrun => ?_⟩
    obtain ⟨wp, wq, -, hn⟩ := hsync hrun
    omega

/-- Calls that are served have all returned at the end of some run. -/
theorem Served.exists_done {invoke : U64 → Mem → BitVec 32 × Mem} {m : Mem} {calls : List Call}
    (h : Served invoke m calls) :
    ∃ s, (sessions invoke m calls).Reachable s ∧ s.left.pc = .done := by
  by_contra hnone
  have hlong (n : ℕ) : ∃ s, (sessions invoke m calls).Run n s := by
    induction n with
    | zero => exact ⟨_, .start rfl⟩
    | succ n ih =>
      obtain ⟨s, hrun⟩ := ih
      obtain ⟨s', hstep⟩ :=
        h.progress s hrun.reachable fun hdone => hnone ⟨s, hrun.reachable, hdone⟩
      exact ⟨s', hrun.step hstep⟩
  obtain ⟨n, hbound⟩ := h.finite
  obtain ⟨s, hrun⟩ := hlong (n + 1)
  exact absurd (hbound (n + 1) s hrun) (Nat.not_succ_le_self n)

/-! ## Reads that do not end -/

/-- A read whose length the counter does not reach. -/
def Call.Endless (c : Call) : Prop := 2 ^ 32 ≤ c.lenOrW.toNat

/-- The host is at or before such a read, or has given up. -/
def Host.Reading (h : Host) : Prop :=
  match h.pc with
  | .challenge | .connect => ∃ c ∈ h.calls, c.Endless
  | .header c _ | .ack c | .data c _ => c.Endless ∨ ∃ d ∈ h.calls, d.Endless
  | .done => False
  | .fatal => True

theorem reading_send (h : Host) (b : Byte) (h' : Host) (hh : h.Reading)
    (hs : host.send h = some (b, h')) : h'.Reading := by
  obtain ⟨pc, calls, res⟩ := h
  cases pc with
  | challenge =>
    cases hs
    exact hh
  | header c rest =>
    cases rest with
    | nil => cases hs
    | cons b rest =>
      cases hs
      show Host.Reading ⟨if rest = [] then .ack c else .header c rest, calls, res⟩
      split_ifs
      · exact hh
      · exact hh
  | data c i =>
    by_cases hsend : i.setWidth 64 < c.len ∧ c.lenOrW = 0
    · cases (if_pos hsend).symm.trans hs
      exact hh
    · exact absurd ((if_neg hsend).symm.trans hs) fun h => nomatch h
  | _ => cases hs

theorem expect_reading {h h' : Host} {b exp : Byte} (hh : h'.Reading) :
    (h.expect b exp h').Reading := by
  unfold Host.expect
  split_ifs
  · exact hh
  · exact trivial

theorem next_reading (hcalls : ∃ c ∈ calls, c.Endless) (res : List (List Byte)) :
    (Host.next calls res).Reading := by
  obtain ⟨c, hc, hendless⟩ := hcalls
  cases calls with
  | nil => exact absurd hc List.not_mem_nil
  | cons d calls =>
    rcases List.mem_cons.1 hc with rfl | hc
    · exact Or.inl hendless
    · exact Or.inr ⟨c, hc, hendless⟩

theorem Call.Endless.lenOrW_ne {c : Call} (h : c.Endless) : c.lenOrW ≠ 0 := by
  intro hzero
  rw [Call.Endless, hzero] at h
  exact absurd h (by decide)

/-- The loop counter never reaches the length. -/
theorem Call.Endless.lt {c : Call} (h : c.Endless) (i : BitVec 32) : i.setWidth 64 < c.len := by
  rw [Call.len, if_pos h.lenOrW_ne, setWidth_lt]
  exact i.isLt.trans_le h

theorem reading_recv (h : Host) (b : Byte) (h' : Host) (hh : h.Reading)
    (hr : host.recv h b = some h') : h'.Reading := by
  obtain ⟨pc, calls, res⟩ := h
  cases pc with
  | connect =>
    cases hr
    exact expect_reading (next_reading hh res)
  | ack c =>
    cases hr
    exact expect_reading hh
  | data c i =>
    by_cases hlt : i.setWidth 64 < c.len
    · by_cases hread : c.lenOrW ≠ 0
      · cases ((if_pos hlt).trans (if_pos hread)).symm.trans hr
        exact hh
      · exact absurd (((if_pos hlt).trans (if_neg hread)).symm.trans hr) fun h => nomatch h
    · cases (if_neg hlt).symm.trans hr
      rcases hh with hh | hh
      · exact absurd (hh.lt i) hlt
      · exact expect_reading (next_reading hh _)
  | _ => cases hr

/-- The test bench never returns from such a read: no run serves it. -/
theorem not_served_of_endless (hcalls : ∃ c ∈ calls, c.Endless) : ¬Served invoke m calls := by
  intro hserved
  have hinv : (sessions invoke m calls).Invariant fun s => s.left.Reading :=
    Session.left_invariant hcalls reading_send reading_recv
  obtain ⟨s, hs, hdone⟩ := hserved.exists_done
  have hreading := hinv.reachable hs
  unfold Host.Reading at hreading
  rw [hdone] at hreading
  exact hreading

/-- **All calls are served in every run** if the counter reaches their lengths, and no list with a
read whose length it does not reach is served. -/
theorem sessions_serve (invoke : U64 → Mem → BitVec 32 × Mem) (m : Mem) (calls : List Call) :
    ((∀ c ∈ calls, c.Fits) → Served invoke m calls) ∧
      (Served invoke m calls → ∀ c ∈ calls, c.lenOrW.toNat < 2 ^ 32) := by
  refine ⟨fun hfits => served_of_sent invoke m fun c hc => (hfits c hc).sent, ?_⟩
  intro hserved c hc
  by_contra hlen
  exact not_served_of_endless ⟨c, hc, not_lt.1 hlen⟩ hserved

/-- Code that does nothing. -/
def noCode : U64 → Mem → BitVec 32 × Mem := fun _ m => (0, m)

/-- A write of bytes that are commands, and a read of two of them. -/
theorem sessions_serve_opcodes :
    Served noCode (fun _ => 0) [⟨0x80000000, 0, [0x11, 0x04, 0x06]⟩, ⟨0x80000001, 2, []⟩] ∧
    results (fun _ => 0) [⟨0x80000000, 0, [0x11, 0x04, 0x06]⟩, ⟨0x80000001, 2, []⟩] =
      [[0x11, 0x04, 0x06], [0x04, 0x06]] := by
  refine ⟨(sessions_serve noCode _ _).1 fun c hc => ?_, by decide⟩
  rcases List.mem_pair.1 hc with rfl | rfl <;> decide

/-- A read of 4 GiB. -/
def bigRead : Call := ⟨0x80000000, 0x100000000, []⟩

theorem bigRead_not_served : ¬Served noCode (fun _ => 0) [bigRead] := by
  have hendless : bigRead.Endless := show 2 ^ 32 ≤ bigRead.lenOrW.toNat by decide
  exact not_served_of_endless ⟨bigRead, List.mem_singleton_self _, hendless⟩

end Runs

end Cheshire.UartDebug
