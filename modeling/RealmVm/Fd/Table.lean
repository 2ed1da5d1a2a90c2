import RealmVm.Basic
import RealmVm.Lib.Loop
import Mathlib.Data.Finset.Basic

/-! The file-descriptor table: one list of entries for all processes, linked by pointers. -/
namespace RealmVm

open Lib

def enoent : Int := 2
def enomem : Int := 12
def eexist : Int := 17

/- `fd_table_t`; its other two members are read by nothing here. -/
structure FdEntry where
  pid : Int
  hostFd : Int
  kFd : Int
  next : Word

/- `kernel_struct.fd_head`, the entries by address, and the addresses `kcalloc` handed
out that were not freed. Address 0 is the null pointer. -/
structure FdState where
  head : Word
  node : Word → FdEntry
  allocated : Finset Word

namespace FdState

def next (s : FdState) (p : Word) : Word := (s.node p).next

/- `target` filled in, then `ptr->next = target; target->next = new`. -/
def linkAfter (s : FdState) (ptr target new : Word) (e : FdEntry) : FdState where
  head := s.head
  node := Function.update (Function.update s.node ptr { s.node ptr with next := target }) target
    { e with next := new }
  allocated := insert target s.allocated

/-- The first loop of `insert_fd`. `inl` is the early return; otherwise `ptr`, `new` and
`pid_exists` as the loop leaves them. -/
def insertScan (s : FdState) (pid hostFd kFd : Int) :
    Nat → Word → Bool → Option (Int ⊕ Word × Word × Bool)
  | 0, _, _ => none
  | fuel + 1, ptr, pidExists =>
    let e := s.node ptr
    let onward (seen : Bool) :=
      if e.next ≠ 0 then insertScan s pid hostFd kFd fuel e.next seen
      else some (.inr (ptr, 0, seen))
    if e.pid = pid then
      if e.hostFd = hostFd ∧ e.kFd = kFd then some (.inl (-eexist))
      else if kFd < e.kFd then some (.inr (ptr, ptr, true))
      else onward true
    else onward pidExists

/-- `target` is the pointer `kcalloc` returns. -/
def insertFd (s : FdState) (fuel : Nat) (pid hostFd kFd : Int) (target : Word) :
    Option (Int × FdState) :=
  if s.head = 0 then
    if target = 0 then some (-enomem, s)
    else
      some (0, { head := target
                 node := Function.update s.node target ⟨pid, hostFd, 0, 0⟩
                 allocated := insert target s.allocated })
  else
    match s.insertScan pid hostFd kFd fuel s.head false with
    | none => none
    | some (.inl code) => some (code, s)
    | some (.inr (last, new, pidExists)) =>
      -- `for (; ptr->next && new; ptr = ptr->next) if (ptr->next == new) break;`
      let place :=
        if pidExists then
          follow s.next (fun ptr => s.next ptr == 0 || new == 0 || s.next ptr == new) fuel s.head
        else some last
      match place with
      | none => none
      | some ptr =>
        if target = 0 then some (-enomem, s)
        else some (0, s.linkAfter ptr target new ⟨pid, hostFd, kFd, 0⟩)

/-- The loop of `append_fd` with its variable `new_kfd`. -/
def appendScan (s : FdState) (pid : Int) : Nat → Word → Int → Option Int
  | 0, _, _ => none
  | fuel + 1, ptr, newKfd =>
    if ptr = 0 then some newKfd
    else
      let e := s.node ptr
      if e.pid = pid then
        if newKfd + 1 < e.kFd then some (newKfd + 1) else appendScan s pid fuel e.next e.kFd
      else appendScan s pid fuel e.next newKfd

/- What `insert_fd` returns is dropped. -/
def appendFd (s : FdState) (fuel : Nat) (pid hostFd : Int) (target : Word) : Option (Int × FdState) :=
  match s.appendScan pid fuel s.head (-1) with
  | none => none
  | some newKfd =>
    let kFd := if newKfd = -1 then 0 else newKfd
    (s.insertFd fuel pid hostFd kFd target).map fun result => (kFd, result.2)

def getHostFd (s : FdState) (fuel : Nat) (pid kFd : Int) : Option Int :=
  match follow s.next (fun p => p == 0 || ((s.node p).pid == pid && (s.node p).kFd == kFd)) fuel s.head with
  | none => none
  | some p => some (if p = 0 then -enoent else (s.node p).hostFd)

def kfree (s : FdState) (p : Word) : FdState := { s with allocated := s.allocated.erase p }

/- The first loop stays at the last entry when nothing matches. -/
def deleteFd (s : FdState) (fuel : Nat) (pid hostFd kFd : Int) : Option (Int × FdState) :=
  let stay (p : Word) : Word := if s.next p = 0 then p else s.next p
  let matching (p : Word) : Bool :=
    (s.node p).pid == pid && (s.node p).hostFd == hostFd && (s.node p).kFd == kFd
  match follow stay (fun p => p == 0 || matching p) fuel s.head with
  | none => none
  | some ptr =>
    if ptr = 0 then some (-enoent, s)
    else if ptr = s.head then some (0, { s with head := s.next ptr }.kfree ptr)
    else
      match follow s.next (fun prev => s.next prev == ptr) fuel s.head with
      | none => none
      | some prev =>
        some (0, { s with node := Function.update s.node prev { s.node prev with next := s.next ptr } }.kfree ptr)

end FdState

end RealmVm
