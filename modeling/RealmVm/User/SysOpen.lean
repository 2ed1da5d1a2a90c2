import RealmVm.Fd.FileCalls
import RealmVm.Exec.NewProcess

/-! `sys_open`: which name the host finds in the shared heap. -/
namespace RealmVm

open Lib

/- What the kernel has around the call: the block that `smalloc(len + 1)` returned, and the
memory then, with what is left in the block. -/
structure OpenCall where
  guest : Guest
  host : Host
  behind : Nat → Word
  newPath : Word
  heap : Word → Byte

/-- What passes between the kernel and the host, and the memory when the host gets the call. -/
structure Opened where
  exchange : Exchange
  heap : Word → Byte

/- `int len = strlen(pathname)` -/
def pathLen (path : CString) : CInt := BitVec.ofNat 32 path.strlen

/- `memcpy` of a negative length runs out of memory before `open` is reached. -/
def sysOpenPath (c : OpenCall) (path : CString) (flags mode : CInt) : Opened :=
  let len := pathLen path
  if len = 0 then ⟨rejected (-einvalWord), c.heap⟩
  else if c.newPath = 0 then ⟨rejected (-enomemWord), c.heap⟩
  else if len.toInt < 0 then ⟨⟨none, none, none⟩, c.heap⟩
  else
    ⟨openWrapper c.guest c.host c.behind c.newPath flags mode,
      Bytes.store c.heap c.newPath (path.bytes.take len.toNat)⟩

/-- Behind the copied part the block holds the rest of the path and its end: for a path that is
shorter than 2^31 one byte 0. -/
def OpenCall.EndsThere (c : OpenCall) (path : CString) : Prop :=
  Bytes.bytesAt c.heap (c.newPath + BitVec.ofNat 64 (pathLen path).toNat) (path.strlen + 1 - (pathLen path).toNat) =
    (path.bytes ++ [0]).drop (pathLen path).toNat

theorem pathLen_small {path : CString} (short : path.strlen < 2 ^ 31) : (pathLen path).toNat = path.strlen := by
  rw [pathLen, BitVec.toNat_ofNat, Nat.mod_eq_of_lt (by omega)]

theorem pathLen_le (path : CString) : (pathLen path).toNat ≤ path.strlen := by
  rw [pathLen, BitVec.toNat_ofNat]
  exact Nat.mod_le _ _

theorem endsThere_short (c : OpenCall) {path : CString} (short : path.strlen < 2 ^ 31) :
    c.EndsThere path ↔ c.heap (c.newPath + BitVec.ofNat 64 path.strlen) = 0 := by
  have one : path.strlen + 1 - path.strlen = 1 := by omega
  have tail : (path.bytes ++ [0]).drop path.strlen = [0] := List.drop_left
  rw [OpenCall.EndsThere, pathLen_small short, one, tail]
  simp [Bytes.bytesAt]

theorem sysOpenPath_opened (c : OpenCall) (path : CString) (flags mode : CInt) (allocated : c.newPath ≠ 0)
    (positive : 0 < (pathLen path).toInt) :
    sysOpenPath c path flags mode = ⟨openWrapper c.guest c.host c.behind c.newPath flags mode,
      Bytes.store c.heap c.newPath (path.bytes.take (pathLen path).toNat)⟩ := by
  have some : pathLen path ≠ 0 := by
    intro zero
    rw [zero] at positive
    exact absurd positive (by decide)
  simp only [sysOpenPath, if_neg some, if_neg allocated, if_neg (Int.not_lt.mpr (Int.le_of_lt positive))]

/-- The same call as over the descriptor table, where the length is an `int` above 0. -/
theorem sysOpen_opened {e : FileEnv} (table : FdState) {pathname : Word} (path : CString) (flags mode : CInt)
    (given : pathname ≠ 0) (readable : ReadablePath e.mmu pathname (BitVec.ofNat 64 path.strlen))
    (inMemory : path.strlen < 2 ^ 64) (positive : 0 < (pathLen path).toInt) (stores : e.Stores hcallOpen)
    (heap : Word → Byte) :
    let opened := sysOpenPath ⟨e.guest, e.host, e.behind, e.newBuffer, heap⟩ path flags mode
    sysOpen e table pathname (BitVec.ofNat 64 path.strlen) flags mode =
      ⟨opened.exchange.result, opened.exchange.block, table, false⟩ := by
  have cut : (BitVec.ofNat 64 path.strlen).truncate 32 = pathLen path := by
    rw [pathLen, BitVec.truncate_eq_setWidth, BitVec.setWidth_ofNat_of_le (by decide)]
  have some : pathLen path ≠ 0 := by
    intro zero
    rw [zero] at positive
    exact absurd positive (by decide)
  -- `memcpy` reads no more than `strlen`
  have copied : Readable e.mmu pathname ((pathLen path).signExtend 64) := by
    intro i inside
    have length : ((pathLen path).signExtend 64).toNat = (pathLen path).toNat := by
      have value := BitVec.toInt_signExtend_of_le (x := pathLen path) (v := 64) (by decide)
      rw [BitVec.toInt_eq_toNat_cond, BitVec.toInt_eq_toNat_cond] at value
      rw [BitVec.toInt_eq_toNat_cond] at positive
      split at value <;> split at value <;> omega
    have most := pathLen_le path
    refine readable i ?_
    rw [BitVec.toNat_ofNat, Nat.mod_eq_of_lt inMemory]
    omega
  by_cases null : e.newBuffer = 0
  · simp only [sysOpen, cut, if_neg given, if_neg (not_not_intro readable), if_neg some, if_pos null, sysOpenPath]
    rfl
  · have handed := sysOpenPath_opened ⟨e.guest, e.host, e.behind, e.newBuffer, heap⟩ path flags mode null positive
    rw [sysOpen_sent table flags mode given readable (cut ▸ some) null (cut ▸ copied), exchange_stored table rfl stores,
      handed]
    rfl

end RealmVm
