import RealmVm.Hypercall.HostErrors

/-! The bytes that `hypercall_read` stores and `hypercall_write` hands over, over every
sequence of short reads and writes. -/
namespace RealmVm

open Lib

section Read

/-- A file as `read(2)` shows it: each call for `n` bytes fails or stores at most `n`, and once
none were left there are none later on. -/
structure FileReader where
  reply : Nat → (n : Nat) → Option { bytes : List Byte // bytes.length ≤ n }
  endOfFile : ∀ i n, 0 < n → (reply i n).map Subtype.val = some [] → ∀ n', (reply (i + 1) n').map Subtype.val = some []

/- What `hypercall_read` returns, the memory then, and what its calls of `read` gave. -/
structure ReadRun where
  result : Word
  memory : Word → Byte
  replies : List (Option (List Byte))

/- The loop of `hypercall_read` with its variables `total` and `remaining`. -/
def readInto (file : FileReader) (buf : Word) (len : Nat) :
    Nat → Nat → Nat → Nat → (Word → Byte) → List (Option (List Byte)) → Option ReadRun
  | 0, _, _, _, _, _ => none
  | fuel + 1, i, total, remaining, m, seen =>
    if remaining = 0 then some ⟨BitVec.ofNat 64 total, m, seen⟩
    else
      match file.reply i remaining with
      | none => some ⟨if remaining < len then BitVec.ofNat 64 (len - remaining) else -1, m, seen ++ [none]⟩
      | some bytes =>
        readInto file buf len fuel (i + 1) (total + bytes.val.length) (remaining - bytes.val.length)
          (Bytes.store m (buf + BitVec.ofNat 64 total) bytes.val) (seen ++ [some bytes.val])

/- `from_raw_parts_mut` promises nothing for a null pointer or more than `isize::MAX` bytes. -/
def hypercallRead (file : FileReader) (fuel : Nat) (buf len : Word) (m : Word → Byte) : Option ReadRun :=
  if buf = 0 ∨ isizeMax < len.toNat then none else readInto file buf len.toNat fuel 0 0 len.toNat m []

def ReadRun.bytes (run : ReadRun) : List Byte := run.replies.flatMap fun reply => reply.getD []

/-- The buffer starts with all that was read, and the result is its length; -1 stands for a
failure of the first call. -/
structure ReadRun.Complete (run : ReadRun) (buf : Word) : Prop where
  stored : Bytes.bytesAt run.memory buf run.bytes.length = run.bytes
  result : run.result = if run.replies.head? = some none then -1 else BitVec.ofNat 64 run.bytes.length

namespace FileReader

variable (file : FileReader) (len : Nat)

/-- What the first `i` calls store together. -/
def delivered : Nat → List Byte
  | 0 => []
  | i + 1 => delivered i ++ (file.reply i (len - (delivered i).length)).elim [] Subtype.val

/-- The reply to call `i`. -/
def call (i : Nat) : Option (List Byte) := (file.reply i (len - (file.delivered len i).length)).map Subtype.val

/- The loop ends when all is read or at an error. -/
def Stops (i : Nat) : Prop := (file.delivered len i).length = len ∨ file.call len i = none

/-- No call that is made finds the end of the file. -/
def NoEarlyEnd : Prop := ∀ i, (∀ j < i, file.call len j ≠ none) → file.call len i = some [] →
  (file.delivered len i).length = len

variable {file len}

theorem delivered_succ (i : Nat) :
    file.delivered len (i + 1) = file.delivered len i ++ (file.call len i).getD [] := by
  rw [delivered, call]
  cases file.reply i (len - (file.delivered len i).length) with
  | none => rfl
  | some bytes => rfl

theorem delivered_le (file : FileReader) (len i : Nat) : (file.delivered len i).length ≤ len := by
  induction i with
  | zero => exact Nat.zero_le _
  | succ i ih =>
    rw [delivered, List.length_append]
    cases file.reply i (len - (file.delivered len i).length) with
    | none => exact ih
    | some bytes =>
      have few := bytes.property
      simp only [Option.elim]
      omega

theorem delivered_mono : Monotone fun i => (file.delivered len i).length := by
  refine monotone_nat_of_le_succ fun i => ?_
  rw [delivered_succ, List.length_append]
  exact Nat.le_add_right _ _

/-- Behind the end of the file nothing comes. -/
theorem call_behind {i : Nat} (left : (file.delivered len i).length ≠ len) (ended : file.call len i = some [])
    (d : Nat) : file.call len (i + d) = some [] ∧ file.delivered len (i + d) = file.delivered len i := by
  have most := delivered_le file len i
  induction d with
  | zero => exact ⟨ended, rfl⟩
  | succ d ih =>
    obtain ⟨here, same⟩ := ih
    have unread : 0 < len - (file.delivered len (i + d)).length := by
      rw [same]
      omega
    refine ⟨file.endOfFile (i + d) _ unread here _, ?_⟩
    rw [← Nat.add_assoc, delivered_succ, here, Option.getD_some, List.append_nil]
    exact same

/-- The loop ends exactly when the end of the file does not come too early. -/
theorem stops_iff : (∃ k, file.Stops len k) ↔ file.NoEarlyEnd len := by
  constructor
  · rintro ⟨k, stops⟩ i fine ended
    by_contra left
    cases Nat.le_total i k with
    | inl before =>
      obtain ⟨d, rfl⟩ := Nat.le.dest before
      obtain ⟨empty, same⟩ := call_behind left ended d
      cases stops with
      | inl all => exact left (same ▸ all)
      | inr error => exact absurd (empty.symm.trans error) (Option.some_ne_none _)
    | inr behind =>
      cases stops with
      | inl all =>
        have most := delivered_le file len i
        exact left (Nat.le_antisymm most (Nat.le_trans (Nat.le_of_eq all.symm) (delivered_mono behind)))
      | inr error =>
        cases Nat.eq_or_lt_of_le behind with
        | inl same => exact absurd (ended.symm.trans (same ▸ error)) (Option.some_ne_none _)
        | inr earlier => exact fine k earlier error
  · intro fine
    by_contra never
    have running : ∀ i, ¬ file.Stops len i := fun i stops => never ⟨i, stops⟩
    have working : ∀ i, file.call len i ≠ none := fun i error => running i (Or.inr error)
    -- every call gets at least one byte
    have growing : ∀ i, i ≤ (file.delivered len i).length := by
      intro i
      induction i with
      | zero => exact Nat.zero_le _
      | succ i ih =>
        rw [delivered_succ, List.length_append]
        cases reply : file.call len i with
        | none => exact absurd reply (working i)
        | some bytes =>
          have some : bytes ≠ [] := by
            rintro rfl
            exact running i (Or.inl (fine i (fun j _ => working j) reply))
          have positive := List.length_pos_iff.mpr some
          rw [Option.getD_some]
          omega
    have most := delivered_le file len (len + 1)
    have long := growing (len + 1)
    omega

def seen (file : FileReader) (len i : Nat) : List (Option (List Byte)) := (List.range i).map (file.call len)

theorem seen_bytes (i : Nat) : ((file.seen len i).flatMap fun reply => reply.getD []) = file.delivered len i := by
  induction i with
  | zero => rfl
  | succ i ih =>
    rw [seen, List.range_succ, List.map_append, List.flatMap_append, delivered_succ]
    rw [seen] at ih
    rw [ih]
    simp

/-- The run up to call `k`, where the loop ends. -/
def runTo (file : FileReader) (len : Nat) (buf : Word) (m : Word → Byte) (k : Nat) : ReadRun :=
  if (file.delivered len k).length = len then
    ⟨BitVec.ofNat 64 len, Bytes.store m buf (file.delivered len k), file.seen len k⟩
  else
    ⟨if (file.delivered len k).length = 0 then -1 else BitVec.ofNat 64 (file.delivered len k).length,
      Bytes.store m buf (file.delivered len k), file.seen len k ++ [none]⟩

instance (file : FileReader) (len i : Nat) : Decidable (file.Stops len i) := inferInstanceAs (Decidable (_ ∨ _))

theorem readInto_round (buf : Word) (m : Word → Byte) (fits : len ≤ isizeMax) (fuel i : Nat) :
    readInto file buf len (fuel + 1) i (file.delivered len i).length (len - (file.delivered len i).length)
        (Bytes.store m buf (file.delivered len i)) (file.seen len i) =
      if file.Stops len i then some (file.runTo len buf m i)
      else readInto file buf len fuel (i + 1) (file.delivered len (i + 1)).length
        (len - (file.delivered len (i + 1)).length) (Bytes.store m buf (file.delivered len (i + 1)))
        (file.seen len (i + 1)) := by
  have most := delivered_le file len i
  rw [readInto]
  by_cases all : (file.delivered len i).length = len
  · have stops : file.Stops len i := Or.inl all
    rw [if_pos stops, if_pos (by omega), runTo, if_pos all, all]
  · rw [if_neg (by omega)]
    cases reply : file.reply i (len - (file.delivered len i).length) with
    | none =>
      have stops : file.Stops len i := Or.inr (by rw [call, reply, Option.map_none])
      rw [if_pos stops, runTo, if_neg all]
      by_cases nothing : (file.delivered len i).length = 0
      · rw [if_pos nothing, if_neg (by omega)]
      · have total : len - (len - (file.delivered len i).length) = (file.delivered len i).length := by omega
        rw [if_neg nothing, if_pos (by omega), total]
    | some bytes =>
      have got : file.call len i = some bytes.val := by rw [call, reply, Option.map_some]
      have running : ¬ file.Stops len i := by
        rintro (stops | error)
        · exact all stops
        · exact absurd (got.symm.trans error) (Option.some_ne_none _)
      have next : file.delivered len (i + 1) = file.delivered len i ++ bytes.val := by
        rw [delivered_succ, got, Option.getD_some]
      have few := bytes.property
      have more : file.seen len (i + 1) = file.seen len i ++ [some bytes.val] := by
        rw [seen, List.range_succ, List.map_append, List.map_singleton, got]
        rfl
      have room : (file.delivered len i).length + bytes.val.length ≤ 2 ^ 64 := by
        unfold isizeMax at fits
        omega
      rw [if_neg running, next, more, List.length_append, ← Bytes.store_append m buf _ _ room, ← Nat.sub_sub]

theorem hypercallRead_returns {buf : Word} {len : Word} {m : Word → Byte} {run : ReadRun} (proper : buf ≠ 0)
    (fits : len.toNat ≤ isizeMax) :
    Returns (fun fuel => hypercallRead file fuel buf len m) run ↔
      ∃ k, (∀ i < k, ¬ file.Stops len.toNat i) ∧ file.Stops len.toNat k ∧ file.runTo len.toNat buf m k = run := by
  have promised : ¬ (buf = 0 ∨ isizeMax < len.toNat) := not_or.mpr ⟨proper, Nat.not_lt.mpr fits⟩
  have loop := returns_iff_first (a := run)
    (fun fuel i => readInto file buf len.toNat fuel i (file.delivered len.toNat i).length
      (len.toNat - (file.delivered len.toNat i).length) (Bytes.store m buf (file.delivered len.toNat i))
      (file.seen len.toNat i))
    (file.Stops len.toNat) (fun i => some (file.runTo len.toNat buf m i)) (fun _ => rfl)
    (fun fuel i stops => (readInto_round buf m fits fuel i).trans (if_pos stops))
    (fun fuel i running => (readInto_round buf m fits fuel i).trans (if_neg running))
  simp only [Option.some.injEq] at loop
  simp only [hypercallRead, if_neg promised]
  exact loop

theorem seen_head {k : Nat} (running : ∀ i < k, ¬ file.Stops len i) (positive : 0 < k)
    (rest : List (Option (List Byte))) : (file.seen len k ++ rest).head? ≠ some none := by
  cases k with
  | zero => cases positive
  | succ k =>
    rw [seen, List.range_succ_eq_map, List.map_cons, List.cons_append, List.head?_cons]
    intro failed
    exact running 0 positive (Or.inr (Option.some.inj failed))

/-- Where an error comes later than at the first call, something was read before it. -/
theorem delivered_some {k : Nat} (running : ∀ i < k, ¬ file.Stops len i) (positive : 0 < k)
    (error : file.call len k = none) : (file.delivered len k).length ≠ 0 := by
  intro nothing
  obtain ⟨left, working⟩ := not_or.mp (running 0 positive)
  cases reply : file.call len 0 with
  | none => exact working reply
  | some bytes =>
    have start : (file.delivered len 1).length ≤ 0 := Nat.le_trans (delivered_mono positive) (Nat.le_of_eq nothing)
    rw [delivered_succ, reply, Option.getD_some, List.length_append] at start
    obtain rfl : bytes = [] := List.eq_nil_of_length_eq_zero (by omega)
    have later := (call_behind left reply k).1
    rw [Nat.zero_add, error] at later
    cases later

/-- The first failure is reported as such only when nothing was read. -/
theorem runTo_complete (buf : Word) (m : Word → Byte) (fits : len ≤ isizeMax) {k : Nat}
    (running : ∀ i < k, ¬ file.Stops len i) (stops : file.Stops len k) : (file.runTo len buf m k).Complete buf := by
  have most := delivered_le file len k
  have room : (file.delivered len k).length ≤ 2 ^ 64 := by
    unfold isizeMax at fits
    omega
  by_cases all : (file.delivered len k).length = len
  · have bytes : (file.runTo len buf m k).bytes = file.delivered len k := by
      rw [ReadRun.bytes, runTo, if_pos all]
      exact seen_bytes k
    have noError : (file.seen len k).head? ≠ some none := by
      by_cases start : k = 0
      · subst start
        exact fun failed => absurd failed (by simp [seen])
      · rw [← List.append_nil (file.seen len k)]
        exact seen_head running (Nat.pos_of_ne_zero start) []
    constructor
    · rw [bytes, runTo, if_pos all]
      exact Bytes.bytesAt_store m buf room
    · rw [bytes, runTo, if_pos all, if_neg noError, all]
  · have error : file.call len k = none := stops.resolve_left all
    have bytes : (file.runTo len buf m k).bytes = file.delivered len k := by
      rw [ReadRun.bytes, runTo, if_neg all]
      simp [seen_bytes]
    constructor
    · rw [bytes, runTo, if_neg all]
      exact Bytes.bytesAt_store m buf room
    · rw [bytes, runTo, if_neg all]
      by_cases start : k = 0
      · subst start
        rfl
      · have positive : 0 < k := Nat.pos_of_ne_zero start
        simp only [if_neg (delivered_some running positive error), if_neg (seen_head running positive [none])]

end FileReader

theorem FileReader.noEarlyEnd_of_returns {file : FileReader} {buf len : Word} {m : Word → Byte} {run : ReadRun}
    (returned : Returns (fun fuel => hypercallRead file fuel buf len m) run) :
    buf ≠ 0 ∧ len.toNat ≤ isizeMax ∧ file.NoEarlyEnd len.toNat := by
  by_cases promised : buf = 0 ∨ isizeMax < len.toNat
  · simp only [hypercallRead, if_pos promised] at returned
    exact absurd returned (not_returns_none run)
  · obtain ⟨proper, fits⟩ := not_or.mp promised
    obtain ⟨k, _, stops, _⟩ := (hypercallRead_returns proper (Nat.not_lt.mp fits)).mp returned
    exact ⟨proper, Nat.not_lt.mp fits, stops_iff.mp ⟨k, stops⟩⟩

/-- `hypercall_read` ends and keeps its promise exactly when no call finds the end of the file early. -/
theorem hypercallRead_complete_iff (file : FileReader) (buf len : Word) (m : Word → Byte) :
    (∃ run, Returns (fun fuel => hypercallRead file fuel buf len m) run ∧ run.Complete buf) ↔
      buf ≠ 0 ∧ len.toNat ≤ isizeMax ∧ file.NoEarlyEnd len.toNat := by
  constructor
  · rintro ⟨run, returned, _⟩
    exact FileReader.noEarlyEnd_of_returns returned
  · rintro ⟨proper, fits, fine⟩
    have stops := FileReader.stops_iff.mpr fine
    have first : ∀ i < Nat.find stops, ¬ file.Stops len.toNat i := fun i => Nat.find_min stops
    refine ⟨file.runTo len.toNat buf m (Nat.find stops), ?_, ?_⟩
    · exact (FileReader.hypercallRead_returns proper fits).mpr ⟨_, first, Nat.find_spec stops, rfl⟩
    · exact FileReader.runTo_complete buf m fits first (Nat.find_spec stops)

/- The lengths alone are the answers of `readCalls`. -/
def FileReader.counts (file : FileReader) : Nat → HostReply := fun i n =>
  (file.reply i n).map fun bytes => ⟨bytes.val.length, Nat.lt_succ_of_le bytes.property⟩

theorem readInto_result (file : FileReader) (buf : Word) (len fuel i total remaining : Nat) (m : Word → Byte)
    (seen : List (Option (List Byte))) :
    (readInto file buf len fuel i total remaining m seen).map ReadRun.result =
      readCalls file.counts len fuel i total remaining := by
  induction fuel generalizing i total remaining m seen with
  | zero => rfl
  | succ fuel ih =>
    rw [readInto, readCalls, FileReader.counts]
    by_cases finished : remaining = 0
    · rw [if_pos finished, if_pos finished]
      rfl
    · rw [if_neg finished, if_neg finished]
      cases file.reply i remaining with
      | none => rfl
      | some bytes => exact ih _ _ _ _ _

/- A file of three bytes: the first call stores them, then there are none. -/
def threeBytes : FileReader where
  reply i n :=
    if i = 0 then if fits : 3 ≤ n then some ⟨[7, 8, 9], fits⟩ else some ⟨[], Nat.zero_le n⟩
    else some ⟨[], Nat.zero_le n⟩
  endOfFile i n _ _ n' := by rw [if_neg (Nat.succ_ne_zero i)]; rfl

/-- Eight bytes are asked for: from the second call on 0 comes back, for ever. -/
theorem short_file_never_ends : ¬ ∃ run, Returns (fun fuel => hypercallRead threeBytes fuel 0x1000 8 fun _ => 0) run ∧
    run.Complete 0x1000 := by
  rintro ⟨run, returned, _⟩
  obtain ⟨_, _, fine⟩ := FileReader.noEarlyEnd_of_returns returned
  have first : ∀ j < 1, threeBytes.call 8 j ≠ none := by decide
  have early := fine 1 first rfl
  revert early
  decide

end Read

section Write

/-- What `write(2)` answers: -1, or between 1 and the length that it was asked for. -/
structure FileWriter where
  reply : Nat → HostReply
  progress : ∀ i n, 0 < n → reply i n ≠ some 0

/- `result` is the `io::Result`, and `accepted` all that the descriptor took. -/
structure WriteRun where
  result : Option Word
  accepted : List Byte

/- The loop of `hypercall_write` with its variables `buf_ptr` and `len`. -/
def writeFrom (file : FileWriter) (m : Word → Byte) (count : Word) :
    Nat → Nat → Word → Nat → List Byte → Option WriteRun
  | 0, _, _, _, _ => none
  | fuel + 1, i, bufPtr, len, accepted =>
    if len = 0 then some ⟨some count, accepted⟩
    else
      match file.reply i (min len isizeMax) with
      | none => some ⟨none, accepted⟩
      | some ret =>
        let accepted := accepted ++ Bytes.bytesAt m bufPtr ret
        if bufPtr + BitVec.ofNat 64 ret = 0 then some ⟨none, accepted⟩ -- `NonNull::new`
        else writeFrom file m count fuel (i + 1) (bufPtr + BitVec.ofNat 64 ret) (len - ret) accepted

def hypercallWrite (file : FileWriter) (fuel : Nat) (buf len : Word) (m : Word → Byte) : Option WriteRun :=
  if buf = 0 then some ⟨none, []⟩ else writeFrom file m len fuel 0 buf len.toNat []

/-- On success all was accepted, once and in order; on an error a part from the start. -/
structure WriteRun.Delivers (run : WriteRun) (m : Word → Byte) (buf len : Word) : Prop where
  ok : ∀ n, run.result = some n → run.accepted = Bytes.bytesAt m buf len.toNat ∧ n = len
  err : run.result = none → run.accepted <+: Bytes.bytesAt m buf len.toNat

theorem WriteRun.delivers_err {m : Word → Byte} {buf len : Word} {accepted : List Byte}
    (start : accepted <+: Bytes.bytesAt m buf len.toNat) : WriteRun.Delivers ⟨none, accepted⟩ m buf len := by
  refine ⟨fun n ok => ?_, fun _ => start⟩
  cases ok

theorem bytesAt_prefix (m : Word → Byte) (a : Word) {k n : Nat} (shorter : k ≤ n) :
    Bytes.bytesAt m a k <+: Bytes.bytesAt m a n := by
  obtain ⟨d, rfl⟩ := Nat.le.dest shorter
  rw [Bytes.bytesAt_append]
  exact List.prefix_append _ _

/-- Behind `done` bytes the loop ends, whatever comes: each call takes at least one of the rest. -/
theorem writeFrom_delivers (file : FileWriter) (m : Word → Byte) (buf len : Word) (left : Nat) {done : Nat}
    (split : done + left = len.toNat) (i : Nat) :
    ∃ run, (∀ fuel, left < fuel →
      writeFrom file m len fuel i (buf + BitVec.ofNat 64 done) left (Bytes.bytesAt m buf done) = some run) ∧
        run.Delivers m buf len := by
  induction left using Nat.strong_induction_on generalizing done i with
  | h left ih =>
    have start : Bytes.bytesAt m buf done <+: Bytes.bytesAt m buf len.toNat := bytesAt_prefix m buf (by omega)
    by_cases finished : left = 0
    · have all : done = len.toNat := by omega
      refine ⟨⟨some len, Bytes.bytesAt m buf done⟩, fun fuel enough => ?_, ?_, fun failed => ?_⟩
      · cases fuel with
        | zero => cases enough
        | succ fuel => rw [writeFrom, if_pos finished]
      · intro n ok
        exact ⟨all ▸ rfl, (Option.some.inj ok).symm⟩
      · cases failed
    · cases answer : file.reply i (min left isizeMax) with
      | none =>
        refine ⟨_, fun fuel enough => ?_, WriteRun.delivers_err start⟩
        cases fuel with
        | zero => cases enough
        | succ fuel => rw [writeFrom, if_neg finished, answer]
      | some ret =>
        have asked : 0 < min left isizeMax := by
          unfold isizeMax
          omega
        have positive : ret.val ≠ 0 := by
          intro zero
          obtain rfl : ret = 0 := Fin.ext zero
          exact file.progress i _ asked answer
        have few : ret.val ≤ left := Nat.le_trans (Nat.le_of_lt_succ ret.isLt) (Nat.min_le_left _ _)
        have advanced : buf + BitVec.ofNat 64 done + BitVec.ofNat 64 ret = buf + BitVec.ofNat 64 (done + ret) := by
          rw [BitVec.add_assoc, ← BitVec.ofNat_add]
        have accepted : Bytes.bytesAt m buf done ++ Bytes.bytesAt m (buf + BitVec.ofNat 64 done) ret =
            Bytes.bytesAt m buf (done + ret) := (Bytes.bytesAt_append m buf done ret).symm
        by_cases null : buf + BitVec.ofNat 64 (done + ret) = 0
        · have further : Bytes.bytesAt m buf (done + ret) <+: Bytes.bytesAt m buf len.toNat :=
            bytesAt_prefix m buf (by omega)
          refine ⟨_, fun fuel enough => ?_, WriteRun.delivers_err further⟩
          cases fuel with
          | zero => cases enough
          | succ fuel =>
            rw [writeFrom, if_neg finished, answer]
            simp only [advanced, accepted, if_pos null]
        · have rest : done + ret.val + (left - ret.val) = len.toNat := by omega
          obtain ⟨run, returns, delivers⟩ := ih (left - ret.val) (by omega) rest (i + 1)
          refine ⟨run, fun fuel enough => ?_, delivers⟩
          cases fuel with
          | zero => cases enough
          | succ fuel =>
            rw [writeFrom, if_neg finished, answer]
            simp only [advanced, accepted, if_neg null]
            exact returns fuel (by omega)

/-- `hypercall_write` ends over every sequence of partial writes; success means the whole buffer. -/
theorem hypercallWrite_delivers (file : FileWriter) (buf len : Word) (m : Word → Byte) :
    ∃ run, Returns (fun fuel => hypercallWrite file fuel buf len m) run ∧ run.Delivers m buf len := by
  by_cases null : buf = 0
  · exact ⟨_, ⟨0, fun fuel _ => if_pos null⟩, WriteRun.delivers_err List.nil_prefix⟩
  · obtain ⟨run, returns, delivers⟩ := writeFrom_delivers file m buf len len.toNat (Nat.zero_add _) 0
    refine ⟨run, ⟨len.toNat, fun fuel enough => ?_⟩, delivers⟩
    have same := returns fuel enough
    rw [BitVec.add_zero] at same
    exact (if_neg null).trans same

/- The results are those of `writeCalls`. -/
theorem writeFrom_result (file : FileWriter) (m : Word → Byte) (count : Word) (fuel i : Nat) (bufPtr : Word)
    (len : Nat) (accepted : List Byte) :
    (writeFrom file m count fuel i bufPtr len accepted).bind WriteRun.result =
      Libc.written (writeCalls file.reply count fuel i bufPtr len) := by
  induction fuel generalizing i bufPtr len accepted with
  | zero => rfl
  | succ fuel ih =>
    rw [writeFrom, writeCalls]
    by_cases finished : len = 0
    · rw [if_pos finished, if_pos finished]
      rfl
    · rw [if_neg finished, if_neg finished]
      cases file.reply i (min len isizeMax) with
      | none => rfl
      | some ret =>
        by_cases null : bufPtr + BitVec.ofNat 64 ret = 0
        · simp only [if_pos null]
          rfl
        · simp only [if_neg null]
          exact ih _ _ _ _

end Write

end RealmVm
