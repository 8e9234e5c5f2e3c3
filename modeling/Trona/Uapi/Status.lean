import Mathlib.Data.List.Basic

/-!
# Status codes

The codes that the kernel and the servers answer with (`uapi/consts/kernel.rs`,
`uapi/consts/server.rs`), zero for success. The servers have taken some of the numbers
that the kernel has.
-/

namespace Trona

def tronaOk : ℕ := 0
def tronaInvalidCapability : ℕ := 1
def tronaInvalidOperation : ℕ := 2
def tronaInsufficientRights : ℕ := 3
def tronaInvalidArgument : ℕ := 4
def tronaOutOfMemory : ℕ := 5
def tronaNotFound : ℕ := 6
def tronaBusy : ℕ := 7
def tronaAlreadyExists : ℕ := 8
def tronaWouldBlock : ℕ := 9
def tronaBadAddress : ℕ := 10
def tronaOutOfRange : ℕ := 11
def tronaCancelled : ℕ := 12
def tronaRestart : ℕ := 13
def tronaDeadlock : ℕ := 14
def tronaInterrupted : ℕ := 15
def tronaInProgress : ℕ := 0x10
def tronaSlotOccupied : ℕ := 0x18
def tronaAlreadyMapped : ℕ := 0x19
def tronaAlreadyBound : ℕ := 0x1A

def tronaConnRefused : ℕ := 21
def tronaTimedOut : ℕ := 22
def tronaDnsNxdomain : ℕ := 23
def tronaDnsServerFail : ℕ := 24
def tronaProtoNotSupported : ℕ := 25
def tronaHostUnreachable : ℕ := 26
def tronaNetUnreachable : ℕ := 27
def tronaNoBufs : ℕ := 28
def tronaConnReset : ℕ := 29
def tronaNotConnected : ℕ := 30
def tronaIsConnected : ℕ := 31
def tronaAddrInUse : ℕ := 32

end Trona
