import Trona.Posix.Call
import Trona.Posix.Message

/-!
# Paths in messages

The functions of the POSIX layer that take paths (`posix/file.rs`, `posix/at.rs`, `posix/misc.rs`,
`posix/pipe.rs`, `posix/socket.rs`, `posix/proc.rs`) put them into the registers of a message. They
count the bytes of a path up to a limit, and put the bytes there that they have counted. So a path
that is longer than the limit is cut off, and the message has the beginning of it
(`PathCall.transmits_iff`).
-/

namespace Trona

namespace Posix

/-! ## Paths -/

/-- A path in memory: bytes that are not null, and a null after them. -/
structure CStr where
  bytes : List UInt8
  nul_notMem : 0 ∉ bytes

/-- The byte of a path at a position. -/
def CStr.get (path : CStr) (i : ℕ) : UInt8 := path.bytes.getD i 0

/-- The loop that counts the bytes of a path, from `n` on. -/
def measureFrom (path : CStr) : (todo n : ℕ) → ℕ
  | 0, n => n
  | todo + 1, n => if path.get n ≠ 0 then measureFrom path todo (n + 1) else n

/-- The number of bytes of a path, but not more than the limit. -/
def measure (limit : ℕ) (path : CStr) : ℕ := measureFrom path limit 0

section

variable {path : CStr} {limit todo n : ℕ}

theorem CStr.get_ne_zero_iff : path.get n ≠ 0 ↔ n < path.bytes.length := by
  rw [CStr.get, List.getD_eq_getElem?_getD]
  constructor
  · intro h
    by_contra hn
    rw [List.getElem?_eq_none (not_lt.1 hn)] at h
    exact h rfl
  · intro hn hzero
    rw [List.getElem?_eq_getElem hn, Option.getD_some] at hzero
    exact path.nul_notMem (hzero ▸ List.getElem_mem hn)

theorem measureFrom_eq (hn : n ≤ path.bytes.length) :
    measureFrom path todo n = min (n + todo) path.bytes.length := by
  induction todo generalizing n with
  | zero => rw [measureFrom, Nat.add_zero, Nat.min_eq_left hn]
  | succ todo ih =>
    rw [measureFrom]
    split
    next h =>
      rw [ih (CStr.get_ne_zero_iff.1 h)]
      omega
    next h =>
      rw [CStr.get_ne_zero_iff] at h
      omega

theorem measure_eq : measure limit path = min limit path.bytes.length := by
  rw [measure, measureFrom_eq (Nat.zero_le _), Nat.zero_add]

/-- What is counted is the whole path exactly if it is not longer than the limit. -/
theorem take_measure_iff :
    path.bytes.take (measure limit path) = path.bytes ↔ path.bytes.length ≤ limit := by
  rw [measure_eq]
  constructor
  · intro h
    have hlen := congrArg List.length h
    rw [List.length_take] at hlen
    omega
  · exact fun h => List.take_of_length_le (by omega)

theorem length_take_measure :
    (path.bytes.take (measure limit path)).length = measure limit path := by
  rw [List.length_take, measure_eq]
  omega

end

/-! ## Packing -/

/-- The number of registers that a request with a path has at most. -/
def pathRegs : ℕ := 20

/-- The bytes of a path that `pack_path` counts at most. -/
def packLimit (offset maxLen : ℕ) : ℕ :=
  let avail := (pathRegs - (offset + 1)) * 8
  let cap := if maxLen < 128 then maxLen else 128
  if cap < avail then cap else avail

/-- `pack_path`: put the length of a path into a register, and its bytes into those after it. -/
def packPath (msg : TronaMsg) (offset : ℕ) (path : CStr) (maxLen : ℕ) : TronaMsg × ℕ :=
  let pathLen := measure (packLimit offset maxLen) path
  let msg := (msg.putBytes offset (wordBytes 8 pathLen)).clearRegs (offset + 1) pathRegs
  (msg.putBytes (offset + 1) (path.bytes.take pathLen), pathLen)

/-- A request with a path after its other arguments. -/
def packed (label : ℕ) (args : List ℕ) (path : CStr) (maxLen : ℕ) : TronaMsg :=
  let msg : TronaMsg := { label }
  let (msg, pathLen) := packPath (msg.setRegs args) args.length path maxLen
  { msg with length := args.length + 1 + regsFor pathLen }

/-- A request with two paths after its other arguments, of which some are the lengths of the
    paths. -/
def packedTwo (label : ℕ) (args : List ℕ) (first second : List UInt8) : TronaMsg :=
  let msg : TronaMsg := { label }
  let msg := (msg.setRegs args).clearRegs args.length pathRegs
  let msg := msg.putBytes args.length first
  let msg := msg.putBytes (args.length + regsFor first.length) second
  { msg with length := args.length + regsFor first.length + regsFor second.length }

/-! ## The functions -/

/-- A 32-bit number in a register, without its sign. -/
def u32Reg (x : ℤ) : ℕ := (x % 2 ^ 32).toNat

/-- The permissions that the mask of the process leaves. -/
def maskMode (mode umask : ℕ) : ℕ := mode &&& (umask ^^^ 0xFFFFFFFF)

section

variable (path : CStr)

def posixOpen (umask : ℕ) (flags : ℤ) (mode : ℕ) : TronaMsg :=
  packed 1 [maskMode mode umask, u32Reg flags] path 128

def posixStat : TronaMsg := packed 5 [] path 128

def posixLstat : TronaMsg := packed 15 [] path 128

def posixAccess (mode : ℤ) : TronaMsg := packed 8 [fdReg mode] path 128

def posixUnlink : TronaMsg := packed 9 [] path 128

def posixMkdir (umask : ℕ) (mode : ℤ) : TronaMsg :=
  packed 11 [maskMode (u32Reg mode) umask] path 128

def posixRmdir : TronaMsg := packed 12 [] path 128

def posixOpendir : TronaMsg := packed 13 [] path 128

def posixOpenat (umask : ℕ) (dirfd flags : ℤ) (mode : ℕ) : TronaMsg :=
  packed 47 [u32Reg dirfd, u32Reg flags, maskMode mode umask] path 128

def posixFstatat (dirfd atFlags : ℤ) : TronaMsg :=
  packed 48 [u32Reg dirfd, u32Reg atFlags] path 128

def posixUnlinkat (dirfd atFlags : ℤ) : TronaMsg :=
  packed 49 [u32Reg dirfd, u32Reg atFlags] path 128

def posixMkdirat (umask : ℕ) (dirfd mode : ℤ) : TronaMsg :=
  packed 51 [u32Reg dirfd, maskMode (u32Reg mode) umask] path 128

def posixFaccessat (dirfd mode atFlags : ℤ) : TronaMsg :=
  packed 52 [u32Reg dirfd, fdReg mode, u32Reg atFlags] path 128

def posixFchmodat (dirfd : ℤ) (mode : ℕ) (atFlags : ℤ) : TronaMsg :=
  packed 53 [u32Reg dirfd, mode, u32Reg atFlags] path 128

def posixFchownat (dirfd : ℤ) (uid gid : ℕ) (atFlags : ℤ) : TronaMsg :=
  packed 54 [u32Reg dirfd, uid, gid, u32Reg atFlags] path 128

def posixUtimensat (dirfd atimeSec atimeNsec mtimeSec mtimeNsec atFlags : ℤ) : TronaMsg :=
  packed 58 [u32Reg dirfd, u32Reg atFlags, fdReg atimeSec, fdReg atimeNsec, fdReg mtimeSec,
    fdReg mtimeNsec] path 128

def posixReadlinkat (dirfd : ℤ) : TronaMsg := packed 57 [u32Reg dirfd] path 128

def posixMkfifo (umask mode : ℕ) : TronaMsg := packed 44 [maskMode mode umask] path 128

def posixChdir : TronaMsg := packed 36 [] path 128

def posixShmOpen (flags : ℤ) : TronaMsg := packed 17 [fdReg flags] path 128

def posixShmUnlink : TronaMsg := packed 18 [] path 128

end

/-- The address of a socket: one of the internet, or a path. -/
inductive SockAddr
  | inet (ip port : ℕ)
  | unix (path : CStr)

/-- A request about the address of a socket, with these registers for one of the internet. There
    may be no address. -/
def socketRequest (label : ℕ) (fd : ℤ) (inetRegs : ℕ → ℕ → List ℕ) (addrLen : ℕ) :
    Option SockAddr → Except ℤ TronaMsg
  | none => .error (-14)
  | some addr =>
    if addrLen < 2 then .error (-22)
    else
      match addr with
      | .inet ip port =>
        if addrLen < 8 then .error (-22)
        else
          let msg : TronaMsg := { label, length := (inetRegs ip port).length }
          .ok (msg.setRegs (inetRegs ip port))
      | .unix path => .ok (packed label [fdReg fd] path (addrLen - 2))

def posixBind (fd : ℤ) (addrLen : ℕ) (addr : Option SockAddr) : Except ℤ TronaMsg :=
  socketRequest 21 fd (fun ip port => [fdReg fd, 2, ip, port]) addrLen addr

def posixConnect (fd : ℤ) (addrLen : ℕ) (addr : Option SockAddr) : Except ℤ TronaMsg :=
  socketRequest 24 fd (fun ip port => [fdReg fd, ip, port]) addrLen addr

section

variable (old new : CStr)

/-- `posix_rename` does not look whether the registers are enough: they are. -/
def posixRename : TronaMsg :=
  let oldLen := measure 64 old
  let newLen := measure 64 new
  packedTwo 10 [oldLen, newLen] (old.bytes.take oldLen) (new.bytes.take newLen)

def posixRenameat (oldDirfd newDirfd : ℤ) : Except ℤ TronaMsg :=
  let oldLen := measure 64 old
  let newLen := measure 64 new
  if 4 + regsFor oldLen + regsFor newLen > 20 then .error (-36)
  else .ok (packedTwo 50 [u32Reg oldDirfd, u32Reg newDirfd, oldLen, newLen]
    (old.bytes.take oldLen) (new.bytes.take newLen))

/-- `posix_symlinkat` puts the path of the link first, and then the target. -/
def posixSymlinkat (target : CStr) (newDirfd : ℤ) (link : CStr) : Except ℤ TronaMsg :=
  let targetLen := measure 64 target
  let linkLen := measure 64 link
  if 3 + regsFor linkLen + regsFor targetLen > 20 then .error (-36)
  else .ok (packedTwo 56 [targetLen, u32Reg newDirfd, linkLen]
    (link.bytes.take linkLen) (target.bytes.take targetLen))

def posixLinkat (oldDirfd newDirfd flags : ℤ) : Except ℤ TronaMsg :=
  let oldLen := measure 64 old
  let newLen := measure 64 new
  if 5 + regsFor oldLen + regsFor newLen > 20 then .error (-36)
  else .ok (packedTwo 55 [u32Reg oldDirfd, u32Reg newDirfd, u32Reg flags, oldLen, newLen]
    (old.bytes.take oldLen) (new.bytes.take newLen))

end

/-- `IPC_BUFFER_RESERVED_BYTES`. -/
def ipcBufferReservedBytes : ℕ := 465 * 8

/-- The strings of an argument vector, each with the null after it. There may be no vector. -/
def vectorBytes (vector : Option (List CStr)) : List UInt8 :=
  (vector.getD []).flatMap fun s => s.bytes ++ [0]

/-- `posix_execve`: the request, and what it puts into the reserved part of the IPC buffer. There
    may be no buffer. -/
def posixExecve (path : CStr) (argv envp : Option (List CStr)) (buffer : Bool) :
    Except ℤ (TronaMsg × List UInt8) :=
  let pathLen := measure 64 path
  let msg : TronaMsg := { label := 6 }
  let msg := (msg.setRegs [pathLen]).putBytes 1 (path.bytes.take pathLen)
  let next := 1 + regsFor pathLen
  let argc := (argv.getD []).length % 2 ^ 32
  let envc := (envp.getD []).length % 2 ^ 32
  let strings := vectorBytes argv ++ vectorBytes envp
  let msg := msg.putBytes next (wordBytes 8 (argc * 2 ^ 32 + envc))
  if strings.length > ipcBufferReservedBytes then .error (-7)
  else if ¬buffer then .error (-5)
  else
    let msg := msg.putBytes (next + 1) (wordBytes 8 strings.length)
    .ok ({ msg with length := max (next + 2) 5 }, strings)

/-! ## Requests and what a server reads -/

/-- A call of a function that takes paths. -/
inductive PathCall
  | «open» (path : CStr) (umask : ℕ) (flags : ℤ) (mode : ℕ)
  | stat (path : CStr)
  | lstat (path : CStr)
  | access (path : CStr) (mode : ℤ)
  | unlink (path : CStr)
  | mkdir (path : CStr) (umask : ℕ) (mode : ℤ)
  | rmdir (path : CStr)
  | opendir (path : CStr)
  | openat (path : CStr) (umask : ℕ) (dirfd flags : ℤ) (mode : ℕ)
  | fstatat (path : CStr) (dirfd atFlags : ℤ)
  | unlinkat (path : CStr) (dirfd atFlags : ℤ)
  | mkdirat (path : CStr) (umask : ℕ) (dirfd mode : ℤ)
  | faccessat (path : CStr) (dirfd mode atFlags : ℤ)
  | fchmodat (path : CStr) (dirfd : ℤ) (mode : ℕ) (atFlags : ℤ)
  | fchownat (path : CStr) (dirfd : ℤ) (uid gid : ℕ) (atFlags : ℤ)
  | utimensat (path : CStr) (dirfd atimeSec atimeNsec mtimeSec mtimeNsec atFlags : ℤ)
  | readlinkat (path : CStr) (dirfd : ℤ)
  | mkfifo (path : CStr) (umask mode : ℕ)
  | chdir (path : CStr)
  | shmOpen (path : CStr) (flags : ℤ)
  | shmUnlink (path : CStr)
  | bind (fd : ℤ) (addrLen : ℕ) (addr : Option SockAddr)
  | connect (fd : ℤ) (addrLen : ℕ) (addr : Option SockAddr)
  | rename (old new : CStr)
  | renameat (old new : CStr) (oldDirfd newDirfd : ℤ)
  | symlinkat (target : CStr) (newDirfd : ℤ) (link : CStr)
  | linkat (old new : CStr) (oldDirfd newDirfd flags : ℤ)
  | execve (path : CStr) (argv envp : Option (List CStr)) (buffer : Bool)

/-- Where a request has its paths: after the register with the length, or two of them one after the
    other, with the lengths in other registers. -/
inductive PathLayout
  | none
  | one (offset : ℕ)
  | two (firstLen secondLen base : ℕ)

/-- Where a request about the address of a socket has its path. -/
def SockAddr.layout : SockAddr → PathLayout
  | .inet .. => .none
  | .unix _ => .one 1

def SockAddr.paths : SockAddr → List (List UInt8)
  | .inet .. => []
  | .unix path => [path.bytes]

/-- The paths that a server reads from a request, if all of their registers are within its
    length. -/
def PathLayout.decode (msg : TronaMsg) : PathLayout → Option (List (List UInt8))
  | none => some []
  | one offset =>
    let len := msg.reg offset
    if offset + 1 + regsFor len ≤ msg.length then some [msg.regs.slice (8 * (offset + 1)) len]
    else .none
  | two firstLen secondLen base =>
    let n := msg.reg firstLen
    let k := msg.reg secondLen
    if base + regsFor n + regsFor k ≤ msg.length then
      some [msg.regs.slice (8 * base) n, msg.regs.slice (8 * (base + regsFor n)) k]
    else .none

theorem PathLayout.decode_one {msg : TronaMsg} {offset n : ℕ} {bs : List UInt8}
    (hreg : msg.reg offset = n) (hslice : msg.regs.slice (8 * (offset + 1)) n = bs)
    (hlen : offset + 1 + regsFor n ≤ msg.length) :
    (PathLayout.one offset).decode msg = some [bs] := by
  rw [PathLayout.decode]
  simp only [hreg, hslice]
  exact if_pos hlen

theorem PathLayout.decode_two {msg : TronaMsg} {i j base n k : ℕ} {bs bs' : List UInt8}
    (hi : msg.reg i = n) (hj : msg.reg j = k) (hfirst : msg.regs.slice (8 * base) n = bs)
    (hsecond : msg.regs.slice (8 * (base + regsFor n)) k = bs')
    (hlen : base + regsFor n + regsFor k ≤ msg.length) :
    (PathLayout.two i j base).decode msg = some [bs, bs'] := by
  rw [PathLayout.decode]
  simp only [hi, hj, hfirst, hsecond]
  exact if_pos hlen

/-- A message is sent in which a server finds these paths, or nothing is sent and there is an
    error. -/
def Sends (request : Except ℤ TronaMsg) (layout : PathLayout) (paths : List (List UInt8)) : Prop :=
  match request with
  | .error e => e < 0
  | .ok msg => layout.decode msg = some paths

theorem sends_iff_of_ok {request : Except ℤ TronaMsg} {layout : PathLayout}
    {paths : List (List UInt8)} {msg : TronaMsg} (h : request = .ok msg) :
    Sends request layout paths ↔ layout.decode msg = some paths := by
  rw [h]
  exact Iff.rfl

theorem sends_of_error {request : Except ℤ TronaMsg} {layout : PathLayout}
    {paths : List (List UInt8)} {e : ℤ} (h : request = .error e) (he : e < 0) :
    Sends request layout paths := by
  rw [h]
  exact he

namespace PathCall

/-- The message that a function sends, or the error with which it returns before. -/
def request : PathCall → Except ℤ TronaMsg
  | «open» path umask flags mode => .ok (posixOpen path umask flags mode)
  | stat path => .ok (posixStat path)
  | lstat path => .ok (posixLstat path)
  | access path mode => .ok (posixAccess path mode)
  | unlink path => .ok (posixUnlink path)
  | mkdir path umask mode => .ok (posixMkdir path umask mode)
  | rmdir path => .ok (posixRmdir path)
  | opendir path => .ok (posixOpendir path)
  | openat path umask dirfd flags mode => .ok (posixOpenat path umask dirfd flags mode)
  | fstatat path dirfd atFlags => .ok (posixFstatat path dirfd atFlags)
  | unlinkat path dirfd atFlags => .ok (posixUnlinkat path dirfd atFlags)
  | mkdirat path umask dirfd mode => .ok (posixMkdirat path umask dirfd mode)
  | faccessat path dirfd mode atFlags => .ok (posixFaccessat path dirfd mode atFlags)
  | fchmodat path dirfd mode atFlags => .ok (posixFchmodat path dirfd mode atFlags)
  | fchownat path dirfd uid gid atFlags => .ok (posixFchownat path dirfd uid gid atFlags)
  | utimensat path dirfd asec ansec msec mnsec atFlags =>
    .ok (posixUtimensat path dirfd asec ansec msec mnsec atFlags)
  | readlinkat path dirfd => .ok (posixReadlinkat path dirfd)
  | mkfifo path umask mode => .ok (posixMkfifo path umask mode)
  | chdir path => .ok (posixChdir path)
  | shmOpen path flags => .ok (posixShmOpen path flags)
  | shmUnlink path => .ok (posixShmUnlink path)
  | bind fd addrLen addr => posixBind fd addrLen addr
  | connect fd addrLen addr => posixConnect fd addrLen addr
  | rename old new => .ok (posixRename old new)
  | renameat old new oldDirfd newDirfd => posixRenameat old new oldDirfd newDirfd
  | symlinkat target newDirfd link => posixSymlinkat target newDirfd link
  | linkat old new oldDirfd newDirfd flags => posixLinkat old new oldDirfd newDirfd flags
  | execve path argv envp buffer => (posixExecve path argv envp buffer).map Prod.fst

/-- Where the requests have their paths, as the comments of the functions say. -/
def layout : PathCall → PathLayout
  | «open» .. => .one 2
  | stat .. | lstat .. | unlink .. | rmdir .. | opendir .. | chdir .. | shmUnlink .. => .one 0
  | access .. | mkdir .. | readlinkat .. | mkfifo .. | shmOpen .. => .one 1
  | openat .. | faccessat .. | fchmodat .. => .one 3
  | fstatat .. | unlinkat .. | mkdirat .. => .one 2
  | fchownat .. => .one 4
  | utimensat .. => .one 6
  | bind _ _ addr | connect _ _ addr => addr.elim .none SockAddr.layout
  | rename .. => .two 0 1 2
  | renameat .. => .two 2 3 4
  | symlinkat .. => .two 2 0 3
  | linkat .. => .two 3 4 5
  | execve .. => .one 0

/-- The paths that are to be sent, in the order in which the request has them. -/
def paths : PathCall → List (List UInt8)
  | «open» path .. | stat path | lstat path | access path _ | unlink path | mkdir path ..
  | rmdir path | opendir path | openat path .. | fstatat path .. | unlinkat path ..
  | mkdirat path .. | faccessat path .. | fchmodat path .. | fchownat path .. | utimensat path ..
  | readlinkat path _ | mkfifo path .. | chdir path | shmOpen path _ | shmUnlink path
  | execve path .. => [path.bytes]
  | bind _ _ addr | connect _ _ addr => addr.elim [] SockAddr.paths
  | rename old new | renameat old new .. | linkat old new .. => [old.bytes, new.bytes]
  | symlinkat target _ link => [link.bytes, target.bytes]

/-- The function sends a message in which a server finds the whole paths, or returns an error and
    sends nothing. -/
def Transmits (c : PathCall) : Prop := Sends c.request c.layout c.paths

/-- The paths are not longer than the function takes them. -/
def Fits : PathCall → Prop
  | «open» path .. | stat path | lstat path | access path _ | unlink path | mkdir path ..
  | rmdir path | opendir path | openat path .. | fstatat path .. | unlinkat path ..
  | mkdirat path .. | faccessat path .. | fchmodat path .. | readlinkat path _ | mkfifo path ..
  | chdir path | shmOpen path _ | shmUnlink path => path.bytes.length ≤ 128
  | fchownat path .. => path.bytes.length ≤ 120
  | utimensat path .. => path.bytes.length ≤ 104
  | bind _ addrLen addr | connect _ addrLen addr =>
    ∀ path, addr = some (.unix path) →
      addrLen < 2 ∨ path.bytes.length ≤ min (addrLen - 2) 128
  | rename old new | renameat old new .. => old.bytes.length ≤ 64 ∧ new.bytes.length ≤ 64
  | symlinkat target _ link => link.bytes.length ≤ 64 ∧ target.bytes.length ≤ 64
  | linkat old new .. =>
    old.bytes.length ≤ 64 ∧ new.bytes.length ≤ 64 ∨ 56 < old.bytes.length ∧ 56 < new.bytes.length
  | execve path argv envp buffer =>
    path.bytes.length ≤ 64 ∨
      (vectorBytes argv ++ vectorBytes envp).length > ipcBufferReservedBytes ∨ buffer = false

end PathCall

/-! ## What is sent -/

section

variable {label maxLen i j : ℕ} {args : List ℕ} {path : CStr} {first second : List UInt8}

theorem le_regsFor (n : ℕ) : n ≤ 8 * regsFor n := by
  rw [regsFor]
  omega

theorem packLimit_le (offset maxLen : ℕ) : packLimit offset maxLen ≤ 128 := by
  simp only [packLimit]
  split <;> split <;> omega

/-- A server finds in a request with one path what was counted of it. -/
theorem decode_packed : (PathLayout.one args.length).decode (packed label args path maxLen) =
    some [path.bytes.take (measure (packLimit args.length maxLen) path)] := by
  have hlt : measure (packLimit args.length maxLen) path < 2 ^ 64 := by
    rw [measure_eq]
    exact (Nat.min_le_left _ _).trans_lt ((packLimit_le _ _).trans_lt (by decide))
  have htake := @length_take_measure path (packLimit args.length maxLen)
  simp only [packed, packPath]
  refine PathLayout.decode_one ?_ ?_ le_rfl
  · refine (TronaMsg.reg_putBytes (Nat.lt_succ_self _)).trans ?_
    rw [TronaMsg.reg_clearRegs (Nat.lt_succ_self _), TronaMsg.reg_putBytes_self,
      Nat.mod_eq_of_lt hlt]
  · exact TronaMsg.slice_putBytes htake

/-- The whole path is sent exactly if it is not longer than the limit. -/
theorem decode_packed_iff :
    (PathLayout.one args.length).decode (packed label args path maxLen) = some [path.bytes] ↔
      path.bytes.length ≤ packLimit args.length maxLen := by
  rw [decode_packed, Option.some.injEq, List.cons.injEq, eq_self, and_true, take_measure_iff]

/-- A server finds in a request with two paths what was put there, if the lengths are in their
    registers. -/
theorem decode_packedTwo (hi : i < args.length) (hj : j < args.length)
    (hfirst : args.getD i 0 = first.length) (hsecond : args.getD j 0 = second.length)
    (hlt : first.length < 2 ^ 64) (hlt' : second.length < 2 ^ 64) :
    (PathLayout.two i j args.length).decode (packedTwo label args first second) =
      some [first, second] := by
  have hreg : ∀ {k}, k < args.length →
      (packedTwo label args first second).reg k = args.getD k 0 % 2 ^ 64 := by
    intro k hk
    refine (TronaMsg.reg_putBytes (by omega)).trans ((TronaMsg.reg_putBytes hk).trans ?_)
    exact (TronaMsg.reg_clearRegs hk).trans (TronaMsg.reg_setRegs hk)
  refine PathLayout.decode_two (n := first.length) (k := second.length) ?_ ?_ ?_ ?_ le_rfl
  · rw [hreg hi, hfirst, Nat.mod_eq_of_lt hlt]
  · rw [hreg hj, hsecond, Nat.mod_eq_of_lt hlt']
  · refine (TronaMsg.slice_putBytes_before ?_).trans (TronaMsg.slice_putBytes rfl)
    have := le_regsFor first.length
    omega
  · exact TronaMsg.slice_putBytes rfl

/-- Two paths that were counted up to 64 bytes are sent exactly if they are not longer. -/
theorem decode_packedTwo_iff {old new : CStr} (hi : i < args.length) (hj : j < args.length)
    (hold : args.getD i 0 = measure 64 old) (hnew : args.getD j 0 = measure 64 new) :
    (PathLayout.two i j args.length).decode (packedTwo label args
        (old.bytes.take (measure 64 old)) (new.bytes.take (measure 64 new))) =
      some [old.bytes, new.bytes] ↔ old.bytes.length ≤ 64 ∧ new.bytes.length ≤ 64 := by
  have hlt : ∀ path : CStr, (path.bytes.take (measure 64 path)).length < 2 ^ 64 := by
    intro path
    rw [length_take_measure, measure_eq]
    exact (Nat.min_le_left _ _).trans_lt (by decide)
  rw [decode_packedTwo hi hj (hold.trans length_take_measure.symm)
    (hnew.trans length_take_measure.symm) (hlt old) (hlt new), Option.some.injEq,
    List.cons.injEq, List.cons.injEq, eq_self, and_true, take_measure_iff, take_measure_iff]

theorem decode_execve {argv envp : Option (List CStr)} {msg : TronaMsg} {strings : List UInt8}
    (h : posixExecve path argv envp true = .ok (msg, strings)) :
    (PathLayout.one 0).decode msg = some [path.bytes.take (measure 64 path)] := by
  have hlt : measure 64 path < 2 ^ 64 := by
    rw [measure_eq]
    exact (Nat.min_le_left _ _).trans_lt (by decide)
  have htake := @length_take_measure path 64
  simp only [posixExecve] at h
  generalize measure 64 path = n at hlt htake h ⊢
  split at h
  · cases h
  · obtain ⟨rfl, -⟩ := Prod.mk.inj (Except.ok.inj h)
    have hregs := le_regsFor n
    refine PathLayout.decode_one (n := n) ?_ ?_ ?_
    · refine (TronaMsg.reg_putBytes (by omega)).trans ((TronaMsg.reg_putBytes (by omega)).trans ?_)
      refine (TronaMsg.reg_putBytes (by omega)).trans ?_
      rw [TronaMsg.reg_setRegs Nat.zero_lt_one]
      exact Nat.mod_eq_of_lt hlt
    · refine (TronaMsg.slice_putBytes_before (by omega)).trans
        ((TronaMsg.slice_putBytes_before (by omega)).trans ?_)
      exact TronaMsg.slice_putBytes htake
    · dsimp only
      omega

end

/-- With the length of the address and of the registers, a socket takes a path of 128 bytes at
    most. -/
theorem packLimit_one (maxLen : ℕ) : packLimit 1 maxLen = min maxLen 128 := by
  simp only [packLimit, pathRegs]
  split <;> split <;> omega

theorem regsFor_measure_le (path : CStr) : regsFor (measure 64 path) ≤ 8 := by
  rw [regsFor, measure_eq]
  omega

/-- A request to a socket, with a path as the address. -/
theorem decode_socket_iff {label addrLen fd : ℕ} {path : CStr} :
    (PathLayout.one 1).decode (packed label [fd] path (addrLen - 2)) = some [path.bytes] ↔
      path.bytes.length ≤ min (addrLen - 2) 128 := by
  rw [← packLimit_one]
  exact decode_packed_iff

theorem sends_socketRequest_iff {label addrLen : ℕ} {fd : ℤ} {inetRegs : ℕ → ℕ → List ℕ}
    {addr : Option SockAddr} :
    Sends (socketRequest label fd inetRegs addrLen addr) (addr.elim .none SockAddr.layout)
        (addr.elim [] SockAddr.paths) ↔
      ∀ path, addr = some (.unix path) →
        addrLen < 2 ∨ path.bytes.length ≤ min (addrLen - 2) 128 := by
  rcases addr with _ | addr
  · exact iff_of_true (sends_of_error rfl (by decide)) fun _ h => by cases h
  · by_cases hshort : addrLen < 2
    · exact iff_of_true (sends_of_error (if_pos hshort) (by decide)) fun _ _ => .inl hshort
    · cases addr with
      | inet ip port =>
        refine iff_of_true ?_ fun _ h => by cases h
        by_cases hlen : addrLen < 8
        · exact sends_of_error ((if_neg hshort).trans (if_pos hlen)) (by decide)
        · exact (sends_iff_of_ok ((if_neg hshort).trans (if_neg hlen))).2 rfl
      | unix path =>
        refine Iff.trans (sends_iff_of_ok (if_neg hshort)) (decode_socket_iff.trans ?_)
        constructor
        · intro h path' hpath
          obtain rfl := SockAddr.unix.inj (Option.some.inj hpath)
          exact .inr h
        · exact fun h => (h path rfl).resolve_left hshort

/-- The paths are sent as a whole, or nothing is sent, exactly if they are not longer than the
    function takes them. The exceptions are errors before that: there is no address or it is too
    short, the registers are not enough, the strings are too long, or there is no buffer. -/
theorem PathCall.transmits_iff (c : PathCall) : c.Transmits ↔ c.Fits := by
  cases c with
  | bind fd addrLen addr => exact sends_socketRequest_iff
  | connect fd addrLen addr => exact sends_socketRequest_iff
  | rename old new => exact decode_packedTwo_iff (by simp) (by simp) rfl rfl
  | renameat old new oldDirfd newDirfd =>
    -- 64 bytes of each path fit, so that there is no error.
    have hold := regsFor_measure_le old
    have hnew := regsFor_measure_le new
    refine Iff.trans (sends_iff_of_ok (if_neg (by omega))) ?_
    exact decode_packedTwo_iff (by simp) (by simp) rfl rfl
  | symlinkat target newDirfd link =>
    have htarget := regsFor_measure_le target
    have hlink := regsFor_measure_le link
    refine Iff.trans (sends_iff_of_ok (if_neg (by omega))) ?_
    exact decode_packedTwo_iff (by simp) (by simp) rfl rfl
  | linkat old new oldDirfd newDirfd flags =>
    -- With three other arguments there is no room for 64 bytes of both paths.
    have hregs : 5 + regsFor (measure 64 old) + regsFor (measure 64 new) > 20 ↔
        56 < old.bytes.length ∧ 56 < new.bytes.length := by
      rw [regsFor, regsFor, measure_eq, measure_eq]
      omega
    by_cases hroom : 5 + regsFor (measure 64 old) + regsFor (measure 64 new) > 20
    · exact iff_of_true (sends_of_error (if_pos hroom) (by decide)) (.inr (hregs.1 hroom))
    · rw [Fits, or_iff_left (mt hregs.2 hroom)]
      refine Iff.trans (sends_iff_of_ok (if_neg hroom)) ?_
      exact decode_packedTwo_iff (by simp) (by simp) rfl rfl
  | execve path argv envp buffer =>
    by_cases hlong : (vectorBytes argv ++ vectorBytes envp).length > ipcBufferReservedBytes
    · refine iff_of_true (@sends_of_error _ _ _ (-7) ?_ (by decide)) (.inr (.inl hlong))
      simp only [request, posixExecve, if_pos hlong]
      rfl
    · cases buffer with
      | false =>
        refine iff_of_true (@sends_of_error _ _ _ (-5) ?_ (by decide)) (.inr (.inr rfl))
        simp only [request, posixExecve, if_neg hlong]
        rfl
      | true =>
        obtain ⟨msg, hmsg⟩ : ∃ msg, posixExecve path argv envp true =
            .ok (msg, vectorBytes argv ++ vectorBytes envp) :=
          ⟨_, by simp only [posixExecve, if_neg hlong]; rfl⟩
        have hrequest : request (.execve path argv envp true) = .ok msg := by
          rw [request, hmsg]
          rfl
        rw [Fits, or_iff_left (not_or.2 ⟨hlong, Bool.true_eq_false_eq_False⟩)]
        refine (sends_iff_of_ok hrequest).trans ((Eq.congr_left (decode_execve hmsg)).trans ?_)
        rw [paths, Option.some.injEq, List.cons.injEq, eq_self, and_true, take_measure_iff]
  | _ => exact decode_packed_iff

/-- A path of one letter, some times. -/
def repeated (n : ℕ) (b : UInt8) (hb : 0 ≠ b) : CStr := ⟨List.replicate n b, fun h =>
  hb (List.eq_of_mem_replicate h)⟩

/-- Two paths that are too long for `posix_linkat` together, and a path of 128 bytes. -/
theorem PathCall.transmits_iff_longest :
    (stat (repeated 128 0x61 (by decide))).Transmits ∧
      (rename (repeated 64 0x61 (by decide)) (repeated 64 0x62 (by decide))).Transmits ∧
      (linkat (repeated 70 0x61 (by decide)) (repeated 70 0x62 (by decide)) 3 3 0).Transmits := by
  have hlen : ∀ n b hb, (repeated n b hb).bytes.length = n := fun _ _ _ => List.length_replicate
  refine ⟨(transmits_iff _).2 ?_, (transmits_iff _).2 ⟨?_, ?_⟩, (transmits_iff _).2 (.inr ⟨?_, ?_⟩)⟩
  · exact (hlen 128 0x61 _).le
  · exact (hlen 64 0x61 _).le
  · exact (hlen 64 0x62 _).le
  · exact (hlen 70 0x61 _).ge.trans_lt' (by decide)
  · exact (hlen 70 0x62 _).ge.trans_lt' (by decide)

/-- `posix_rename` sends the first 64 bytes of a path of 65 bytes. -/
theorem PathCall.transmits_iff_cut :
    (rename (repeated 65 0x61 (by decide)) (repeated 1 0x62 (by decide))).request =
        .ok (posixRename (repeated 65 0x61 (by decide)) (repeated 1 0x62 (by decide))) ∧
      (PathLayout.two 0 1 2).decode
          (posixRename (repeated 65 0x61 (by decide)) (repeated 1 0x62 (by decide))) =
        some [List.replicate 64 0x61, [0x62]] ∧
      ¬(rename (repeated 65 0x61 (by decide)) (repeated 1 0x62 (by decide))).Transmits := by
  have hdecode : (PathLayout.two 0 1 2).decode
      (posixRename (repeated 65 0x61 (by decide)) (repeated 1 0x62 (by decide))) =
      some [List.replicate 64 0x61, [0x62]] := by decide +kernel
  refine ⟨rfl, hdecode, fun h => ?_⟩
  have hpaths := hdecode.symm.trans h
  exact absurd hpaths (by decide)

end Posix

end Trona
