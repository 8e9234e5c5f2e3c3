import Trona.Posix.Call
import Trona.Posix.Message

/-!
# Data and descriptors in one message

`posix_sendmsg` (`posix/socket.rs`) packs data and file descriptors into the registers of one
message, with a header that says how much of each there is. A receiver takes them out by that
header, as `posix_recvmsg` does with a reply. `sendmsg_consistent_iff` says when what is taken out
is what was sent.
-/

namespace Trona

namespace Posix

/-- The data and the descriptors (`i32`) of a call. Their numbers are a `u64` and a `u32`. -/
structure SendArgs where
  data : List UInt8
  fds : List (BitVec 32)
  data_lt : data.length < 2 ^ 64
  fds_lt : fds.length < 2 ^ 32

/-- The bytes of descriptors. -/
def fdBytes (fds : List (BitVec 32)) : List UInt8 := fds.flatMap fun fd => wordBytes 4 fd.toNat

/-- The request of `posix_sendmsg`. -/
def sendmsgRequest (fd : ℤ) (a : SendArgs) : TronaMsg :=
  let actualData := min a.data.length 120
  let dataRegs := regsFor actualData
  let actualFds := min a.fds.length 4
  let msg := TronaMsg.setRegs [fdReg fd, a.data.length, a.fds.length] {}
  let msg := msg.putBytes 3 (a.data.take actualData)
  let msg := msg.putBytes (3 + dataRegs) (fdBytes (a.fds.take actualFds))
  { msg with label := 25, length := 3 + dataRegs + regsFor (4 * actualFds) }

/-- What is taken out of a message by its header. All words that are read are within its length. -/
def unpackSent (msg : TronaMsg) : Option (List UInt8 × List (BitVec 32)) :=
  let dataLen := msg.reg 1
  let fdCount := msg.reg 2
  let fdStart := 3 + regsFor dataLen
  if fdStart + regsFor (4 * fdCount) ≤ msg.length then
    some (msg.regs.slice (8 * 3) dataLen, (List.range fdCount).map fun i =>
      BitVec.ofNat 32 (leNat (msg.regs.slice (8 * fdStart + 4 * i) 4)))
  else none

/-- A message gives, by its header, the first bytes and descriptors of its sender, as many as the
    header says. -/
def Consistent (a : SendArgs) (msg : TronaMsg) : Prop :=
  msg.reg 1 ≤ a.data.length ∧ msg.reg 2 ≤ a.fds.length ∧
    unpackSent msg = some (a.data.take (msg.reg 1), a.fds.take (msg.reg 2))

variable {fd : ℤ} {a : SendArgs}

/-- The header has the numbers of the caller. -/
theorem sendmsgRequest_header :
    (sendmsgRequest fd a).reg 1 = a.data.length ∧ (sendmsgRequest fd a).reg 2 = a.fds.length := by
  have hreg : ∀ i < 3, (sendmsgRequest fd a).reg i =
      [fdReg fd, a.data.length, a.fds.length].getD i 0 % 2 ^ 64 := fun i hi =>
    (TronaMsg.reg_putBytes (by omega)).trans
      ((TronaMsg.reg_putBytes hi).trans (TronaMsg.reg_setRegs hi))
  have hfds := a.fds_lt
  exact ⟨(hreg 1 (by decide)).trans (Nat.mod_eq_of_lt a.data_lt),
    (hreg 2 (by decide)).trans (Nat.mod_eq_of_lt (hfds.trans (by decide)))⟩

/-- Descriptors that were packed are read back. -/
theorem map_fdBytes {m : Bytes} {start : ℕ} {fds : List (BitVec 32)}
    (h : m.slice start (4 * fds.length) = fdBytes fds) :
    (List.range fds.length).map (fun i => BitVec.ofNat 32 (leNat (m.slice (start + 4 * i) 4))) =
      fds := by
  refine List.ext_getElem (by simp) fun i hi hi' => ?_
  have hpart := @Bytes.slice_slice m start (4 * fds.length) (4 * i) 4 (by omega)
  rw [h, fdBytes, Bytes.take_drop_flatMap 0 (fun fd => length_wordBytes 4 fd.toNat) hi'] at hpart
  rw [List.getElem_map, List.getElem_range, hpart, leNat_wordBytes, List.getD_eq_getElem _ _ hi']
  exact BitVec.eq_of_toNat_eq (by simpa using fds[i].isLt)

/-- What `posix_sendmsg` sends is what its header says exactly when there are at most 120 bytes
    and four descriptors. -/
theorem sendmsg_consistent_iff (fd : ℤ) (a : SendArgs) :
    Consistent a (sendmsgRequest fd a) ↔ a.data.length ≤ 120 ∧ a.fds.length ≤ 4 := by
  obtain ⟨hdata, hfds⟩ := @sendmsgRequest_header fd a
  rw [Consistent, unpackSent]
  simp only [hdata, hfds, Nat.le_refl, true_and, List.take_length]
  constructor
  · intro h
    -- what is stated has more words than what was packed
    have hlen := (Option.ite_none_right_eq_some.1 h).1
    simp only [sendmsgRequest, regsFor] at hlen
    omega
  · rintro ⟨hle, hle'⟩
    have hregs : (sendmsgRequest fd a).regs = Bytes.put (8 * (3 + regsFor a.data.length))
        (fdBytes a.fds) (Bytes.put (8 * 3) a.data (TronaMsg.setRegs
          [fdReg fd, a.data.length, a.fds.length] {}).regs) := by
      simp only [sendmsgRequest, TronaMsg.putBytes, Nat.min_eq_left hle, Nat.min_eq_left hle',
        List.take_length]
    rw [if_pos (by simp only [sendmsgRequest, Nat.min_eq_left hle, Nat.min_eq_left hle', le_refl]),
      hregs, Bytes.slice_put_before (by rw [regsFor]; omega), Bytes.slice_put, ← hregs]
    have hlen : (fdBytes a.fds).length = 4 * a.fds.length := by
      rw [fdBytes, List.length_flatMap]
      simp [Nat.mul_comm]
    rw [map_fdBytes]
    rw [hregs, ← hlen, Bytes.slice_put]

/-- With 121 bytes the header says more than the message has. -/
theorem sendmsg_overstates :
    ¬Consistent ⟨List.replicate 121 0, [], by decide, by decide⟩
      (sendmsgRequest 3 ⟨List.replicate 121 0, [], by decide, by decide⟩) := by
  rw [Consistent]
  decide +kernel

end Posix

end Trona
