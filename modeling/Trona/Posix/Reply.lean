import Trona.Posix.Call
import Trona.Posix.Message
import Trona.Posix.Transfer

/-!
# Decoding replies

Where the POSIX layer has a reply, it copies bytes of its registers to a buffer of the caller. How
many there are is in a register of the reply, which a server can set to anything. The decoders of
`posix_read`, `posix_pread` (`posix/file.rs`), `posix_readlinkat` (`posix/at.rs`),
`posix_getsockopt`, the receiving functions (`posix/socket.rs`), `dns_reverse_lookup`
(`posix/dns.rs`) and `posix_epoll_wait` (`posix/poll.rs`) are here programs in which each access is
looked at: one outside of the reply or of the buffer is a fault.

The counts are compared with the size of the buffer (in `posix_epoll_wait` they are not), but not
with the size of the reply. So there is no fault exactly for the replies whose counts are
small enough for the reply, or for the buffer (`Decoder.safe_iff`).
-/

namespace Trona

namespace Posix

/-! ## Accesses -/

/-- An access outside of the registers of the reply, or of a variable with some of them, and one
    outside of a buffer of the caller. -/
inductive Fault
  | reply
  | buffer
  deriving DecidableEq

/-- What the caller is given. -/
inductive Out
  | data
  | fds
  | fdCount
  | addr
  | timestamp
  | optlen
  | events
  | eventData
  deriving DecidableEq

/-- A program that writes values to the buffers of the caller, at some places. -/
abbrev DecodeM := EStateM Fault (List (Out × ℕ × ℕ))

/-- Bytes in memory that may be read. -/
structure Source where
  bytes : Bytes
  size : ℕ

/-- The registers of a reply. -/
def TronaMsg.source (reply : TronaMsg) : Source := ⟨reply.regs, 8 * msgRegs⟩

/-- Read bytes, as one number. -/
def Source.read (src : Source) (a n : ℕ) : DecodeM ℕ :=
  if a + n ≤ src.size then return leNat (src.bytes.slice a n) else throw .reply

/-- Write a value to a place of a buffer that has some places. -/
def write (out : Out) (size i value : ℕ) : DecodeM PUnit :=
  if i < size then modify (· ++ [(out, i, value)]) else throw .buffer

/-- Copy bytes, from the address `a` of the source on, to the beginning of a buffer. -/
def copyTo (src : Source) (a : ℕ) (out : Out) (size n : ℕ) : DecodeM PUnit :=
  (List.range n).forM fun i => do
    let b ← src.read (a + i) 1
    write out size i b

/-! ## The decoders -/

/-- What `posix_read` does with a reply when it has `total` bytes: it returns, or goes on with
    more. -/
def readReply (count total : ℕ) (reply : TronaMsg) : DecodeM (ℤ ⊕ ℕ) := do
  let chunk := if count - total > 152 then 152 else count - total
  if reply.label ≠ tronaOk then
    return .inl (if total > 0 then toI64 total else tronaErrToPosix reply.label)
  else
    let actual := reply.reg 0
    if actual = 0 then return .inl (toI64 total)
    else
      (List.range actual).forM fun i =>
        if (total + i) % 2 ^ 64 < count then do
          let b ← reply.source.read (8 + i) 1
          write .data count ((total + i) % 2 ^ 64) b
        else return ⟨⟩
      let total := (total + actual) % 2 ^ 64
      if actual < chunk ∨ ¬total < count then return .inl (toI64 total) else return .inr total

/-- `posix_pread` does the same with a reply. -/
def preadReply : (count total : ℕ) → TronaMsg → DecodeM (ℤ ⊕ ℕ) := readReply

section

variable (reply : TronaMsg)

def readlinkatReply (bufsiz : ℕ) : DecodeM ℤ := do
  if reply.label ≠ tronaOk then return tronaErrToPosix reply.label
  else
    let targetLen := reply.reg 0
    let copyLen := if targetLen < bufsiz then targetLen else bufsiz
    copyTo reply.source 8 .data bufsiz copyLen
    return copyLen

/-- `posix_getsockopt` reads from a variable that has the value of a register. -/
def getsockoptReply (optlen : ℕ) : DecodeM ℤ := do
  if reply.label ≠ tronaOk then return tronaErrToPosix reply.label
  else
    let actualLen := reply.reg 1 % 2 ^ 32
    copyTo ⟨reply.regs, 8⟩ 0 .data optlen (min optlen actualLen)
    write .optlen 1 0 actualLen
    return 0

/-- The descriptors that `posix_recvmsg` gives to a caller, if it takes any, and the number of them
    in the reply. -/
def recvFdsReply (dataRegs actualFds : ℕ) : (maxFds : Option ℕ) → DecodeM PUnit
  | none => return ⟨⟩
  | some maxFds => do
    (List.range (if actualFds < maxFds then actualFds else maxFds)).forM fun i => do
      let fd ← reply.source.read (8 * (2 + dataRegs) + 4 * i) 4
      write .fds maxFds i fd
    write .fdCount 1 0 actualFds

/-- `posix_recvmsg`, with the number of descriptors that the caller takes, if it takes any. An index
    of a register that does not exist is a fault. -/
def recvmsgReply (dataLen : ℕ) (maxFds : Option ℕ) : DecodeM ℤ := do
  if reply.label ≠ tronaOk then return tronaErrToPosix reply.label
  else
    let actualData := reply.reg 0
    let actualFds := reply.reg 1 % 2 ^ 32
    (List.range actualData).forM fun i =>
      if i < dataLen then do
        let b ← reply.source.read (16 + i) 1
        write .data dataLen i b
      else return ⟨⟩
    let dataRegs := (actualData + 7) % 2 ^ 64 / 8
    if 2 + dataRegs ≥ msgRegs then throw .reply
    else
      recvFdsReply reply dataRegs actualFds maxFds
      return toI64 actualData

/-- `sockaddr_in_from_host`: an address has 8 bytes, of which the port and the number are in network
    order. -/
def sockaddrInFromHost (addrLen ip port : ℕ) : DecodeM PUnit :=
  (List.range 8).forM fun i =>
    write .addr addrLen i
      ((wordBytes 2 2 ++ (wordBytes 2 port).reverse ++ (wordBytes 4 ip).reverse).getD i 0).toNat

/-- The address of the sender, if the caller wants it and has room for it. -/
def senderReply (addrLen : Option ℕ) : DecodeM PUnit :=
  match addrLen with
  | none => return ⟨⟩
  | some addrLen =>
    if addrLen ≥ 8 then
      sockaddrInFromHost addrLen (reply.reg 1 % 2 ^ 32) (reply.reg 2 % 2 ^ 16)
    else return ⟨⟩

def recvfromReply (dataLen : ℕ) (addrLen : Option ℕ) : DecodeM ℤ := do
  if reply.label ≠ tronaOk then return tronaErrToPosix reply.label
  else
    let actualData := reply.reg 0
    copyTo reply.source 32 .data dataLen (if actualData < dataLen then actualData else dataLen)
    senderReply reply addrLen
    return toI64 actualData

def recvInetReply (dataLen : ℕ) : DecodeM ℤ := do
  if reply.label ≠ tronaOk then return tronaErrToPosix reply.label
  else
    let actualData := reply.reg 0
    copyTo reply.source 8 .data dataLen (min actualData dataLen)
    return toI64 actualData

def recvmsgInetReply (dataLen : ℕ) (addrLen : Option ℕ) (timestamp : Bool) : DecodeM ℤ := do
  if reply.label ≠ tronaOk then return tronaErrToPosix reply.label
  else
    let actualData := reply.reg 0
    if timestamp then write .timestamp 1 0 (reply.reg 3)
    copyTo reply.source 32 .data dataLen (min actualData dataLen)
    senderReply reply addrLen
    return toI64 actualData

/-- `dns_reverse_lookup`, with or without a buffer. -/
def dnsReverseLookupReply (hostnameMax : ℕ) (buffer : Bool) : DecodeM ℤ := do
  if reply.label ≠ tronaOk then return 0
  else
    let copyLen := min (reply.reg 0) hostnameMax
    if copyLen > 0 then
      if ¬buffer then return 0
      else
        copyTo reply.source 8 .data hostnameMax copyLen
        return copyLen
    else return copyLen

/-- A 32-bit number with a sign, as an unsigned one of 64 bits. -/
def signExtend (n : ℕ) : ℕ :=
  if n % 2 ^ 32 < 2 ^ 31 then n % 2 ^ 32 else n % 2 ^ 32 + (2 ^ 64 - 2 ^ 32)

/-- `posix_epoll_wait`, with or without a buffer. The registers are read by their index. -/
def epollWaitReply (maxevents : ℤ) (events : Bool) : DecodeM ℤ := do
  if reply.label ≠ tronaOk then return tronaErrToPosix reply.label
  else
    let count := signExtend (reply.reg 0)
    (List.range count).forM fun i =>
      if events then do
        let e ← reply.source.read (8 * (1 + i * 2)) 8
        write .events maxevents.toNat i (e % 2 ^ 32)
        let d ← reply.source.read (8 * (2 + i * 2)) 8
        write .eventData maxevents.toNat i d
      else return ⟨⟩
    return toI64 count

end

/-- A decoder, with the buffers of the caller. -/
inductive Decoder
  | read (count total : UInt64)
  | pread (count total : UInt64)
  | readlinkat (bufsiz : ℕ)
  | getsockopt (optlen : ℕ)
  | recvmsg (dataLen : ℕ) (maxFds : Option ℕ)
  | recvfrom (dataLen : ℕ) (addrLen : Option ℕ)
  | recvInet (dataLen : ℕ)
  | recvmsgInet (dataLen : ℕ) (addrLen : Option ℕ) (timestamp : Bool)
  | dnsReverseLookup (hostnameMax : ℕ) (buffer : Bool)
  | epollWait (maxevents : ℤ) (events : Bool)

namespace Decoder

variable (reply : TronaMsg)

/-- What a decoder does with a reply. `posix_read` and `posix_pread` ask for one as long as there is
    room in the buffer. -/
def run : Decoder → DecodeM PUnit
  | read count total =>
    if total < count then do
      let _ ← readReply count.toNat total.toNat reply
    else return ⟨⟩
  | pread count total =>
    if total < count then do
      let _ ← preadReply count.toNat total.toNat reply
    else return ⟨⟩
  | readlinkat bufsiz => do let _ ← readlinkatReply reply bufsiz
  | getsockopt optlen => do let _ ← getsockoptReply reply optlen
  | recvmsg dataLen maxFds => do let _ ← recvmsgReply reply dataLen maxFds
  | recvfrom dataLen addrLen => do let _ ← recvfromReply reply dataLen addrLen
  | recvInet dataLen => do let _ ← recvInetReply reply dataLen
  | recvmsgInet dataLen addrLen timestamp => do
    let _ ← recvmsgInetReply reply dataLen addrLen timestamp
  | dnsReverseLookup hostnameMax buffer => do
    let _ ← dnsReverseLookupReply reply hostnameMax buffer
  | epollWait maxevents events => do let _ ← epollWaitReply reply maxevents events

/-- All that is read is in the reply, and all that is written is in the buffers. -/
def Safe (d : Decoder) : Prop := wp (d.run reply) (fun _ _ => True) (fun _ _ => False) []

/-- The counts of a reply are small enough: for the registers that follow in the reply, or for the
    buffer. -/
def Accepts (d : Decoder) : Prop :=
  reply.label = tronaOk →
    match d with
    | read count total | pread count total =>
      total < count → reply.reg 0 ≤ 248 ∨
        count.toNat ≤ total.toNat + 248 ∧ total.toNat + reply.reg 0 ≤ 2 ^ 64
    | readlinkat bufsiz => min (reply.reg 0) bufsiz ≤ 248
    | getsockopt optlen => min optlen (reply.reg 1 % 2 ^ 32) ≤ 8
    | recvmsg dataLen maxFds =>
      min (reply.reg 0) dataLen ≤ 240 ∧ (reply.reg 0 + 7) % 2 ^ 64 / 8 < 30 ∧
        ∀ n ∈ maxFds, 8 * ((reply.reg 0 + 7) % 2 ^ 64 / 8) + 4 * min (reply.reg 1 % 2 ^ 32) n ≤ 240
    | recvfrom dataLen _ => min (reply.reg 0) dataLen ≤ 224
    | recvInet dataLen => min (reply.reg 0) dataLen ≤ 248
    | recvmsgInet dataLen .. => min (reply.reg 0) dataLen ≤ 224
    | dnsReverseLookup hostnameMax buffer => buffer = true → min (reply.reg 0) hostnameMax ≤ 248
    | epollWait maxevents events =>
      events = true → signExtend (reply.reg 0) ≤ min 15 maxevents.toNat

end Decoder

/-! ## Programs whose faults do not depend on what was written -/

section

variable {ε σ α β : Type} {x y : EStateM ε σ α} {P Q : Prop}

/-- Whatever the state, the program returns exactly if `P`. -/
def Decides (x : EStateM ε σ α) (P : Prop) : Prop :=
  ∀ s, wp x (fun _ _ => True) (fun _ _ => False) s ↔ P

theorem wp_const {s : σ} : wp x (fun _ _ => Q) (fun _ _ => False) s ↔
    wp x (fun _ _ => True) (fun _ _ => False) s ∧ Q := by
  constructor
  · intro h
    obtain ⟨-, -, -, hQ⟩ := wp_exists_ok h
    exact ⟨wp_post h fun _ _ _ => trivial, hQ⟩
  · exact fun h => wp_post h.1 fun _ _ _ => h.2

namespace Decides

protected theorem pure {a : α} : Decides (pure a : EStateM ε σ α) True := fun _ => wp_pure

protected theorem throw {e : ε} : Decides (throw e : EStateM ε σ α) False := fun _ => wp_throw

protected theorem modify {f : σ → σ} : Decides (modify f : EStateM ε σ PUnit) True :=
  fun _ => wp_modify

variable {f : α → EStateM ε σ β} {c : Prop}

protected theorem bind (hx : Decides x P) (hf : ∀ a, Decides (f a) Q) :
    Decides (x >>= f) (P ∧ Q) := by
  intro s
  rw [wp_bind, ← hx s, ← wp_const]
  constructor
  · exact fun h => wp_post h fun a s' h => (hf a s').1 h
  · exact fun h => wp_post h fun a s' h => (hf a s').2 h

protected theorem ite [Decidable c] (hx : c → Decides x P) (hy : ¬c → Decides y Q) :
    Decides (if c then x else y) ((c → P) ∧ (¬c → Q)) := by
  intro s
  by_cases hc : c
  · simp [hc, hx hc s]
  · simp [hc, hy hc s]

theorem congr (h : Decides x P) (hPQ : P ↔ Q) : Decides x Q := fun s => (h s).trans hPQ

/-- What follows does not matter if it returns. -/
theorem bind_true (hx : Decides x P) (hf : ∀ a, Decides (f a) True) : Decides (x >>= f) P :=
  (hx.bind hf).congr ⟨And.left, fun h => ⟨h, trivial⟩⟩

theorem ite_true [Decidable c] (hx : Decides x True) (hy : Decides y True) :
    Decides (if c then x else y) True := by
  split
  · exact hx
  · exact hy

protected theorem forM {ι : Type} {l : List ι} {f : ι → EStateM ε σ PUnit} {P : ι → Prop}
    (hf : ∀ i, Decides (f i) (P i)) : Decides (l.forM f) (∀ i ∈ l, P i) := by
  induction l with
  | nil => exact Decides.pure.congr (by simp)
  | cons i l ih => exact ((hf i).bind fun _ => ih).congr List.forall_mem_cons.symm

end Decides

end

section

variable {src : Source} {out : Out} {a n i size value : ℕ}

theorem read_decides : Decides (src.read a n) (a + n ≤ src.size) :=
  (Decides.ite (fun _ => .pure) fun _ => .throw).congr (by simp)

theorem write_decides : Decides (write out size i value) (i < size) :=
  (Decides.ite (fun _ => .modify) fun _ => .throw).congr (by simp)

/-- Bytes are copied to a buffer that is large enough exactly if the source has them. -/
theorem copyTo_decides (ha : a ≤ src.size) (hn : n ≤ size) :
    Decides (copyTo src a out size n) (a + n ≤ src.size) := by
  have hstep : ∀ i, Decides (do let b ← src.read (a + i) 1; write out size i b)
      (a + i + 1 ≤ src.size ∧ i < size) := fun i => read_decides.bind fun _ => write_decides
  refine (Decides.forM hstep).congr ?_
  simp only [List.mem_range]
  constructor
  · intro h
    cases n with
    | zero => exact ha
    | succ n =>
      have := (h n (by omega)).1
      omega
  · intro h i hi
    omega

variable {α : Type} {reply : TronaMsg}

/-- All decoders return if the reply is an error. -/
theorem decides_of_label {a : α} {x : DecodeM α} {P : Prop} (hx : Decides x P) :
    Decides (if reply.label ≠ tronaOk then return a else x) (reply.label = tronaOk → P) :=
  (Decides.ite (fun _ => .pure) fun _ => hx).congr (by simp)

/-- With `total` bytes in the buffer, `posix_read` copies bytes up to the end of the buffer, and
    from its beginning again if the count is so large that their number overflows. -/
theorem readReply_decides {count total : ℕ} (htotal : total < count) (hcount : count < 2 ^ 64) :
    Decides (readReply count total reply) (reply.label = tronaOk → reply.reg 0 ≤ 248 ∨
      count ≤ total + 248 ∧ total + reply.reg 0 ≤ 2 ^ 64) := by
  have hstep : ∀ i, Decides (if (total + i) % 2 ^ 64 < count then do
        let b ← reply.source.read (8 + i) 1
        write .data count ((total + i) % 2 ^ 64) b
      else return ⟨⟩)
      (((total + i) % 2 ^ 64 < count → 8 + i + 1 ≤ 256 ∧ (total + i) % 2 ^ 64 < count) ∧
        (¬(total + i) % 2 ^ 64 < count → True)) :=
    fun i => .ite (fun _ => read_decides.bind fun _ => write_decides) fun _ => .pure
  refine decides_of_label ?_
  refine (Decides.ite (fun _ => .pure) fun _ => (Decides.forM hstep).bind_true fun _ =>
    .ite_true .pure .pure).congr ?_
  simp only [List.mem_range]
  constructor
  · intro h
    by_contra hnot
    rw [not_or, not_and_or] at hnot
    have hread := (h.2 (by omega) · · |>.1)
    -- The first byte after the reply is copied, or the one where the number overflows.
    rcases hnot.2 with hlong | hlong
    · have := (hread 248 (by omega) (by omega)).1
      omega
    · by_cases hnear : 2 ^ 64 ≤ total + 248
      · have := (hread 248 (by omega) (by omega)).1
        omega
      · have := (hread (2 ^ 64 - total) (by omega) (by omega)).1
        omega
  · intro h
    refine ⟨fun _ => trivial, fun _ i hi => ⟨fun hin => ⟨?_, hin⟩, fun _ => trivial⟩⟩
    rcases h with h | ⟨h, h'⟩
    · omega
    · omega

theorem source_size : reply.source.size = 256 := rfl

/-- A copy from a register on of as many bytes as the reply says, but not more than the buffer
    has. -/
theorem copyTo_min_decides (ha : a ≤ 256) :
    Decides (copyTo reply.source a out size (min n size)) (min n size ≤ 256 - a) :=
  (copyTo_decides ha (Nat.min_le_right n size)).congr (by rw [source_size]; omega)

theorem ite_lt_eq_min (n m : ℕ) : (if n < m then n else m) = min n m := by
  split <;> omega

theorem readlinkatReply_decides {bufsiz : ℕ} : Decides (readlinkatReply reply bufsiz)
    (reply.label = tronaOk → min (reply.reg 0) bufsiz ≤ 248) := by
  simp only [readlinkatReply, ite_lt_eq_min]
  exact decides_of_label ((copyTo_min_decides (by decide)).bind_true fun _ => .pure)

theorem getsockoptReply_decides {optlen : ℕ} : Decides (getsockoptReply reply optlen)
    (reply.label = tronaOk → min optlen (reply.reg 1 % 2 ^ 32) ≤ 8) := by
  refine decides_of_label ?_
  have hcopy : Decides (copyTo ⟨reply.regs, 8⟩ 0 .data optlen (min optlen (reply.reg 1 % 2 ^ 32)))
      (min optlen (reply.reg 1 % 2 ^ 32) ≤ 8) :=
    (copyTo_decides (Nat.zero_le _) (Nat.min_le_left _ _)).congr (by simp)
  refine hcopy.bind_true fun _ => Decides.bind_true ?_ fun _ => .pure
  exact write_decides.congr (by simp)

variable {dataLen : ℕ} {addrLen maxFds : Option ℕ}

theorem recvFdsReply_decides {dataRegs actualFds : ℕ} (hregs : dataRegs < 30) :
    Decides (recvFdsReply reply dataRegs actualFds maxFds)
      (∀ n ∈ maxFds, 8 * dataRegs + 4 * min actualFds n ≤ 240) := by
  rcases maxFds with _ | n
  · exact Decides.pure.congr (by simp)
  · have hstep : ∀ i, Decides (do
          let fd ← reply.source.read (8 * (2 + dataRegs) + 4 * i) 4
          write .fds n i fd) (8 * (2 + dataRegs) + 4 * i + 4 ≤ 256 ∧ i < n) :=
      fun i => read_decides.bind fun _ => write_decides
    simp only [recvFdsReply, ite_lt_eq_min]
    refine ((Decides.forM hstep).bind_true fun _ => write_decides.congr (by simp)).congr ?_
    simp only [List.mem_range, Option.mem_def, Option.some.injEq, forall_eq']
    constructor
    · intro h
      rcases Nat.eq_zero_or_pos (min actualFds n) with hzero | hpos
      · omega
      · have := (h (min actualFds n - 1) (by omega)).1
        omega
    · intro h i hi
      omega

theorem recvmsgReply_decides :
    Decides (recvmsgReply reply dataLen maxFds) (reply.label = tronaOk →
      min (reply.reg 0) dataLen ≤ 240 ∧ (reply.reg 0 + 7) % 2 ^ 64 / 8 < 30 ∧
        ∀ n ∈ maxFds, 8 * ((reply.reg 0 + 7) % 2 ^ 64 / 8) +
          4 * min (reply.reg 1 % 2 ^ 32) n ≤ 240) := by
  refine decides_of_label (Decides.bind ?_ fun _ => ?_)
  · -- The bytes of the data that are in the buffer.
    have hstep : ∀ i, Decides (if i < dataLen then do
          let b ← reply.source.read (16 + i) 1
          write .data dataLen i b
        else return ⟨⟩)
        ((i < dataLen → 16 + i + 1 ≤ 256 ∧ i < dataLen) ∧ (¬i < dataLen → True)) :=
      fun i => .ite (fun _ => read_decides.bind fun _ => write_decides) fun _ => .pure
    refine (Decides.forM hstep).congr ⟨fun h => ?_, fun h i hi => ?_⟩
    · by_contra hlong
      have := ((h 240 (List.mem_range.2 (by omega))).1 (by omega)).1
      omega
    · have := List.mem_range.1 hi
      exact ⟨fun _ => by omega, fun _ => trivial⟩
  · -- The register after the data is there, and the descriptors from it on.
    generalize (reply.reg 0 + 7) % 2 ^ 64 / 8 = dataRegs
    have hlt : ¬2 + dataRegs ≥ msgRegs ↔ dataRegs < 30 := by
      rw [msgRegs]
      omega
    refine (Decides.ite (fun _ => .throw) fun hindex =>
      (recvFdsReply_decides (hlt.1 hindex)).bind_true fun _ => .pure).congr ?_
    rw [hlt]
    exact ⟨fun h => ⟨hlt.1 h.1, h.2 (hlt.1 h.1)⟩, fun h => ⟨hlt.2 h.1, fun _ => h.2⟩⟩

theorem sockaddrInFromHost_decides {addrLen ip port : ℕ} (h : 8 ≤ addrLen) :
    Decides (sockaddrInFromHost addrLen ip port) True := by
  refine (Decides.forM fun i => write_decides).congr ?_
  simp only [List.mem_range, iff_true]
  omega

theorem senderReply_decides : Decides (senderReply reply addrLen) True := by
  rcases addrLen with _ | addrLen
  · exact .pure
  · exact (Decides.ite sockaddrInFromHost_decides fun _ => .pure).congr (by simp)

theorem recvfromReply_decides :
    Decides (recvfromReply reply dataLen addrLen)
      (reply.label = tronaOk → min (reply.reg 0) dataLen ≤ 224) := by
  simp only [recvfromReply, ite_lt_eq_min]
  exact decides_of_label ((copyTo_min_decides (by decide)).bind_true fun _ =>
    senderReply_decides.bind_true fun _ => .pure)

theorem recvInetReply_decides : Decides (recvInetReply reply dataLen)
    (reply.label = tronaOk → min (reply.reg 0) dataLen ≤ 248) :=
  decides_of_label ((copyTo_min_decides (by decide)).bind_true fun _ => .pure)

theorem recvmsgInetReply_decides {timestamp : Bool} :
    Decides (recvmsgInetReply reply dataLen addrLen timestamp)
      (reply.label = tronaOk → min (reply.reg 0) dataLen ≤ 224) := by
  refine decides_of_label ?_
  have hcopy : Decides (do
      copyTo reply.source 32 .data dataLen (min (reply.reg 0) dataLen)
      senderReply reply addrLen
      return toI64 (reply.reg 0)) (min (reply.reg 0) dataLen ≤ 224) :=
    (copyTo_min_decides (by decide)).bind_true fun _ => senderReply_decides.bind_true fun _ => .pure
  cases timestamp with
  | false => exact hcopy
  | true => exact (write_decides.bind fun _ => hcopy).congr (by simp)

theorem dnsReverseLookupReply_decides {hostnameMax : ℕ} {buffer : Bool} :
    Decides (dnsReverseLookupReply reply hostnameMax buffer)
      (reply.label = tronaOk → buffer = true → min (reply.reg 0) hostnameMax ≤ 248) := by
  refine decides_of_label ?_
  refine (Decides.ite (fun _ => Decides.ite (fun _ => .pure) fun _ =>
    (copyTo_min_decides (by decide)).bind_true fun _ => .pure) fun _ => .pure).congr ?_
  cases buffer with
  | false => simp
  | true =>
    simp only [not_true, not_false_eq_true, true_imp_iff, implies_true, and_true, true_and]
    omega

theorem epollWaitReply_decides {maxevents : ℤ} {events : Bool} :
    Decides (epollWaitReply reply maxevents events)
      (reply.label = tronaOk → events = true →
        signExtend (reply.reg 0) ≤ min 15 maxevents.toNat) := by
  refine decides_of_label (Decides.bind_true ?_ fun _ => .pure)
  generalize signExtend (reply.reg 0) = count
  generalize maxevents.toNat = size
  have hstep : ∀ i, Decides (if events then do
        let e ← reply.source.read (8 * (1 + i * 2)) 8
        write .events size i (e % 2 ^ 32)
        let d ← reply.source.read (8 * (2 + i * 2)) 8
        write .eventData size i d
      else return ⟨⟩)
      ((events = true →
        8 * (1 + i * 2) + 8 ≤ 256 ∧ i < size ∧ 8 * (2 + i * 2) + 8 ≤ 256 ∧ i < size) ∧
        (¬events = true → True)) :=
    fun i => .ite (fun _ => read_decides.bind fun _ => write_decides.bind fun _ =>
      read_decides.bind fun _ => write_decides) fun _ => .pure
  refine (Decides.forM hstep).congr ⟨fun h hevents => ?_, fun h i hi => ?_⟩
  · rcases Nat.eq_zero_or_pos count with hzero | hpos
    · omega
    · have := (h (count - 1) (List.mem_range.2 (by omega))).1 hevents
      omega
  · have := List.mem_range.1 hi
    exact ⟨fun hevents => by have := h hevents; omega, fun _ => trivial⟩

end

/-- No access of a decoder is outside of the reply or of the buffers exactly if the counts of the
    reply are small enough. -/
theorem Decoder.safe_iff (d : Decoder) (reply : TronaMsg) : d.Safe reply ↔ d.Accepts reply := by
  have hread : ∀ {x : ℕ → ℕ → TronaMsg → DecodeM (ℤ ⊕ ℕ)} (count total : UInt64), x = readReply →
      Decides (if total < count then do let _ ← x count.toNat total.toNat reply else return ⟨⟩)
        (reply.label = tronaOk → total < count → reply.reg 0 ≤ 248 ∨
          count.toNat ≤ total.toNat + 248 ∧ total.toNat + reply.reg 0 ≤ 2 ^ 64) := by
    rintro _ count total rfl
    refine (Decides.ite (fun hlt => (readReply_decides (UInt64.lt_iff_toNat_lt.1 hlt)
      count.toNat_lt).bind_true fun _ => .pure) fun _ => .pure).congr ?_
    constructor
    · exact fun h hok hlt => h.1 hlt hok
    · exact fun h => ⟨fun hlt hok => h hok hlt, fun _ => trivial⟩
  cases d with
  | read count total => exact hread count total rfl []
  | pread count total => exact hread count total rfl []
  | readlinkat bufsiz => exact (readlinkatReply_decides.bind_true fun _ => .pure) []
  | getsockopt optlen => exact (getsockoptReply_decides.bind_true fun _ => .pure) []
  | recvmsg dataLen maxFds => exact (recvmsgReply_decides.bind_true fun _ => .pure) []
  | recvfrom dataLen addrLen => exact (recvfromReply_decides.bind_true fun _ => .pure) []
  | recvInet dataLen => exact (recvInetReply_decides.bind_true fun _ => .pure) []
  | recvmsgInet dataLen addrLen timestamp =>
    exact (recvmsgInetReply_decides.bind_true fun _ => .pure) []
  | dnsReverseLookup hostnameMax buffer =>
    exact (dnsReverseLookupReply_decides.bind_true fun _ => .pure) []
  | epollWait maxevents events => exact (epollWaitReply_decides.bind_true fun _ => .pure) []

/-- A reply that says that it has `n` of something. -/
def countReply (n : ℕ) : TronaMsg := ({ label := tronaOk } : TronaMsg).setRegs [n]

/-- A reply with all the bytes that there is room for. -/
theorem Decoder.safe_iff_full : (readlinkat 4096).Safe (countReply 248) ∧
    (read 1000 0).Safe (countReply 152) ∧ (epollWait 20 true).Safe (countReply 15) := by
  refine ⟨(safe_iff _ _).2 fun _ => ?_, (safe_iff _ _).2 fun _ _ => .inl ?_,
    (safe_iff _ _).2 fun _ _ => ?_⟩ <;> decide

/-- A link whose target has one byte more than there is room for in a reply, and two events for a
    caller with room for one. -/
theorem Decoder.safe_iff_overrun :
    wp ((readlinkat 4096).run (countReply 249)) (fun _ _ => False) (fun e _ => e = .reply) [] ∧
      wp ((epollWait 1 true).run (countReply 2)) (fun _ _ => False) (fun e _ => e = .buffer) [] ∧
      ¬(readlinkat 4096).Safe (countReply 249) ∧ ¬(epollWait 1 true).Safe (countReply 2) := by
  have hlink : wp ((readlinkat 4096).run (countReply 249)) (fun _ _ => False)
      (fun e _ => e = .reply) [] := by decide +kernel
  have hevents : wp ((epollWait 1 true).run (countReply 2)) (fun _ _ => False)
      (fun e _ => e = .buffer) [] := by decide +kernel
  refine ⟨hlink, hevents, fun h => ?_, fun h => ?_⟩
  · exact (wp_exists_ok (wp_mono (wp_and h hlink) (fun _ _ h => h.2) fun _ _ h => h.1)).elim
      fun _ h => h.elim fun _ h => h.2
  · exact (wp_exists_ok (wp_mono (wp_and h hevents) (fun _ _ h => h.2) fun _ _ h => h.1)).elim
      fun _ h => h.elim fun _ h => h.2

end Posix

end Trona
