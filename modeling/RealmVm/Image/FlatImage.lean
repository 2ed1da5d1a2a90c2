import RealmVm.Image.Generator
import Mathlib.Algebra.Group.Nat.Even
import Mathlib.Data.List.Chain

/-! When `image-generator` produces the flat image of the file. -/
namespace RealmVm.ImageGenerator

open Lib

def roundUp (n : Nat) : Nat := (n + 4095) / 4096 * 4096

def start (s : Phdr) : Nat := s.pVaddr.toNat

def past (s : Phdr) : Nat := s.pVaddr.toNat + s.pMemsz.toNat

/- `p_vaddr` of the first header, the lowest when they ascend. -/
def lowest : List Phdr → Word
  | [] => 0
  | s :: _ => s.pVaddr

/-- Headers as a linker writes them: ascending, apart, and within the file. -/
structure Linear (stSize : Word) (loads : List Phdr) : Prop where
  some : loads ≠ []
  few : loads.length ≤ maxSegments
  ascending : loads.Pairwise fun s t => past s ≤ start t
  below : ∀ s ∈ loads, past s ≤ 2 ^ 32
  filled : ∀ s ∈ loads, s.pFilesz.toNat ≤ s.pMemsz.toNat
  held : ∀ s ∈ loads, s.pOffset.toNat + s.pFilesz.toNat ≤ stSize.toNat

structure FlatImage (file : Word → Byte) (stSize : Word) (loads : List Phdr) (image : Image) : Prop where
  large : ∀ s ∈ loads, roundUp (past s) - (lowest loads).toNat ≤ image.size.toNat
  inside : ∀ c ∈ image.copies, c.dst.toNat + c.toWrite.toNat ≤ image.size.toNat
  sourced : ∀ c ∈ image.copies, c.src.toNat + c.toWrite.toNat ≤ stSize.toNat
  contents : ∀ s ∈ loads, ∀ k < s.pFilesz.toNat,
    image.bytes (s.pVaddr - lowest loads + BitVec.ofNat 64 k) = file (s.pOffset + BitVec.ofNat 64 k)

/- Where the memory of the segments ends that lie behind `behind`. -/
def lastPast : Nat → List Phdr → Nat
  | behind, [] => behind
  | _, s :: rest => lastPast (past s) rest

/-- How many of the last segments, one after the other, begin on the last page of the memory
before them and reach beyond that page. -/
def adjoining : Nat → Nat → List Phdr → Nat
  | _, run, [] => run
  | behind, run, s :: rest =>
    adjoining (past s) (if start s ≤ roundUp behind ∧ roundUp behind < roundUp (past s) then run + 1 else 0) rest

/-- The file and the image have room for the distance to the next segment, in whole pages
when the contents of the first lie in front of the size of the second. -/
def Fits (stSize top : Nat) (s next : Phdr) : Prop :=
  let distance := start next - start s
  s.pOffset.toNat + distance ≤ stSize ∧
    (s.pOffset.toNat + s.pFilesz.toNat < next.pMemsz.toNat →
      s.pOffset.toNat + roundUp distance ≤ stSize ∧ start s + roundUp distance ≤ top)

structure Copyable (stSize : Word) (loads : List Phdr) : Prop where
  spare : loads.length < maxSegments
  some : (lowest loads).toNat < roundUp (lastPast 0 loads)
  low : roundUp (lastPast 0 loads) < 2 ^ 32
  aligned : (lowest loads).toNat % 4096 = 0
  whole : Even (adjoining 0 0 loads)
  fits : loads.IsChain (Fits stSize.toNat (roundUp (lastPast 0 loads)))

theorem roundUp_facts (n : Nat) : n ≤ roundUp n ∧ roundUp n < n + 4096 ∧ roundUp n % 4096 = 0 := by
  have whole : roundUp n % 4096 = 0 := Nat.mul_mod_left _ _
  have size : roundUp n = (n + 4095) / 4096 * 4096 := rfl
  omega

theorem roundUp_mono {n k : Nat} (order : n ≤ k) : roundUp n ≤ roundUp k :=
  Nat.mul_le_mul_right 4096 (Nat.div_le_div_right (Nat.add_le_add_right order 4095))

theorem roundUp_le {n k : Nat} (order : n ≤ k) (whole : k % 4096 = 0) : roundUp n ≤ k := by
  have facts := roundUp_facts n
  omega

theorem pageup_toNat (x : Word) : (pageup x).toNat = (x.toNat + 4095) % 2 ^ 32 / 4096 * 4096 := by
  have low : ((x + 0xFFF) &&& 0xFFFFFFFF).toNat = (x.toNat + 4095) % 2 ^ 32 := by
    rw [BitVec.toNat_and]
    have cut := Nat.and_two_pow_sub_one_eq_mod (x + 0xFFF).toNat 32
    have sum : (x + 0xFFF).toNat = (x.toNat + 4095) % 2 ^ 64 := BitVec.toNat_add ..
    exact cut.trans (by omega)
  have same : pageup x = (x + 0xFFF) &&& 0xFFFFFFFF &&& ~~~0xFFF := by
    have whole : x + 0x1000 - 1 = x + 0xFFF := by bv_omega
    rw [pageup, whole, BitVec.and_assoc]
    rfl
  calc (pageup x).toNat = ((x + 0xFFF) &&& 0xFFFFFFFF).toNat / 4096 * 4096 := by
        rw [same]
        exact Bits.toNat_and_not_mask _ 12
    _ = (x.toNat + 4095) % 2 ^ 32 / 4096 * 4096 := by rw [low]

theorem pageup_small {x : Word} (low : roundUp x.toNat < 2 ^ 32) : (pageup x).toNat = roundUp x.toNat := by
  have value := pageup_toNat x
  have size : roundUp x.toNat = (x.toNat + 4095) / 4096 * 4096 := rfl
  omega

theorem pageup_lt (x : Word) : (pageup x).toNat < 2 ^ 32 := by
  have value := pageup_toNat x
  omega

/- The scan. -/

theorem scanHeaders_eq {headers : List Phdr} {scan : Scan}
    (few : scan.segments.length + (headers.filter fun phdr => phdr.pType = ptLoad).length ≤ maxSegments) :
    scanHeaders scan headers =
      some ⟨scan.segments ++ (headers.filter fun phdr => phdr.pType = ptLoad).map segment,
        (headers.filter fun phdr => phdr.pType = ptLoad).foldl
          (fun lowest s => if s.pVaddr < lowest then s.pVaddr else lowest) scan.lowestVirtAddr⟩ := by
  induction headers generalizing scan with
  | nil => simp [scanHeaders]
  | cons phdr rest ih =>
    by_cases load : phdr.pType = ptLoad
    · have kept : (phdr :: rest).filter (fun phdr => phdr.pType = ptLoad) =
          phdr :: rest.filter fun phdr => phdr.pType = ptLoad := List.filter_cons_of_pos (decide_eq_true load)
      rw [kept, List.length_cons] at few
      rw [kept, scanHeaders, if_pos load, if_pos (by omega), ih (by simp; omega)]
      simp
    · have kept : (phdr :: rest).filter (fun phdr => phdr.pType = ptLoad) =
          rest.filter fun phdr => phdr.pType = ptLoad := List.filter_cons_of_neg (by simpa using load)
      rw [kept] at few ⊢
      rw [scanHeaders, if_neg load, ih few]

theorem least_kept {loads : List Phdr} {lowest : Word} (above : ∀ s ∈ loads, lowest.toNat ≤ start s) :
    loads.foldl (fun lowest s => if s.pVaddr < lowest then s.pVaddr else lowest) lowest = lowest := by
  induction loads with
  | nil => rfl
  | cons s rest ih =>
    obtain ⟨here, later⟩ := List.forall_mem_cons.mp above
    have stays : ¬ s.pVaddr < lowest := Nat.not_lt_of_le here
    rw [List.foldl_cons, if_neg stays]
    exact ih later

theorem Linear.lowest_le {stSize : Word} {loads : List Phdr} (linear : Linear stSize loads) :
    ∀ s ∈ loads, (lowest loads).toNat ≤ start s := by
  intro s member
  cases loads with
  | nil => exact nomatch member
  | cons first rest =>
    cases List.mem_cons.mp member with
    | inl here => exact Nat.le_of_eq (congrArg start here.symm)
    | inr later =>
      have apart := (List.pairwise_cons.mp linear.ascending).1 s later
      exact Nat.le_trans (Nat.le_add_right ..) apart

theorem scan_linear {file : Word → Byte} {stSize : Word} (linear : Linear stSize (loads file 0)) :
    scanHeaders ⟨[], -1⟩ (phdrs file 0) = some ⟨(loads file 0).map segment, lowest (loads file 0)⟩ := by
  have found := @scanHeaders_eq (phdrs file 0) ⟨[], -1⟩ ((Nat.zero_add _).symm ▸ linear.few)
  have same : (phdrs file 0).filter (fun phdr => phdr.pType = ptLoad) = loads file 0 := rfl
  rw [same] at found
  have below := linear.below
  have above := linear.lowest_le
  have some := linear.some
  cases shape : loads file 0 with
  | nil => exact absurd shape some
  | cons first rest =>
    rw [shape] at found below above
    have small : first.pVaddr < (-1 : Word) := by
      have low := below first List.mem_cons_self
      unfold past at low
      have top : (-1 : Word).toNat = 2 ^ 64 - 1 := by decide
      exact Nat.lt_of_le_of_lt (Nat.le_trans (Nat.le_add_right ..) low) (by omega)
    have least : rest.foldl (fun lowest s => if s.pVaddr < lowest then s.pVaddr else lowest) first.pVaddr =
        first.pVaddr := least_kept (List.forall_mem_cons.mp above).2
    rw [List.foldl_cons, if_pos small, least] at found
    exact found

/- The highest address. -/

theorem highest_spare (loads : List Phdr) (spare : loads.length < maxSegments) :
    highestVaddr (loads.map segment) = some ((loads.map segment).foldl raise 0) := by
  have last : ∀ highest : Word, raise highest emptySegment = highest := fun highest =>
    if_neg (Nat.not_lt_zero highest.toNat)
  rw [highestVaddr, List.length_map, if_pos spare, List.foldl_append, List.foldl_cons, List.foldl_nil, last]

theorem raise_lt {segments : List Phdr} {highest : Word} (low : highest.toNat < 2 ^ 32) :
    ((segments.map segment).foldl raise highest).toNat < 2 ^ 32 := by
  induction segments generalizing highest with
  | nil => exact low
  | cons s rest ih =>
    apply ih
    unfold raise
    split
    · exact pageup_lt _
    · exact low

theorem lastPast_le (behind : Nat) {loads : List Phdr} (after : ∀ s ∈ loads, behind ≤ start s)
    (ascending : loads.Pairwise fun s t => past s ≤ start t) :
    behind ≤ lastPast behind loads ∧ ∀ s ∈ loads, past s ≤ lastPast behind loads := by
  induction loads generalizing behind with
  | nil => exact ⟨Nat.le_refl _, fun s member => nomatch member⟩
  | cons s rest ih =>
    obtain ⟨apart, others⟩ := List.pairwise_cons.mp ascending
    obtain ⟨first, later⟩ := ih _ apart others
    have here : behind ≤ start s := after s List.mem_cons_self
    have length : start s ≤ past s := Nat.le_add_right ..
    exact ⟨by simp only [lastPast]; omega, List.forall_mem_cons.mpr ⟨first, later⟩⟩

/- After an even number of adjoining segments the running maximum is the end of the last
page; after an odd number it is an earlier end, in front of what comes. -/
theorem highest_adjoining {behind run : Nat} {highest : Word} {loads : List Phdr}
    (after : ∀ s ∈ loads, behind ≤ start s) (ascending : loads.Pairwise fun s t => past s ≤ start t)
    (low : ∀ s ∈ loads, roundUp (past s) < 2 ^ 32) (whole : highest.toNat % 4096 = 0)
    (even : Even run → highest.toNat = roundUp behind) (odd : ¬ Even run → highest.toNat < roundUp behind) :
    (Even (adjoining behind run loads) →
      ((loads.map segment).foldl raise highest).toNat = roundUp (lastPast behind loads)) ∧
    (¬ Even (adjoining behind run loads) →
      ((loads.map segment).foldl raise highest).toNat < roundUp (lastPast behind loads)) := by
  induction loads generalizing behind run highest with
  | nil => exact ⟨even, odd⟩
  | cons s rest ih =>
    obtain ⟨apart, others⟩ := List.pairwise_cons.mp ascending
    have order : behind ≤ start s := after s List.mem_cons_self
    have length : start s ≤ past s := Nat.le_add_right ..
    have grows : roundUp behind ≤ roundUp (past s) := roundUp_mono (Nat.le_trans order length)
    have lowHere := low s List.mem_cons_self
    have facts := roundUp_facts (past s)
    have factsBehind := roundUp_facts behind
    have small : s.pVaddr.toNat + s.pMemsz.toNat < 2 ^ 32 := Nat.lt_of_le_of_lt facts.1 lowHere
    have sum : (s.pVaddr + s.pMemsz).toNat = past s := BitVec.toNat_add_of_lt (by omega)
    have endValue : (segment s).pVaddrEnd.toNat = roundUp (past s) := by
      have value := pageup_small (x := s.pVaddr + s.pMemsz) (by rwa [sum])
      rwa [sum] at value
    have raised : (raise highest (segment s)).toNat =
        if highest.toNat < start s then roundUp (past s) else highest.toNat := by
      rw [← endValue]
      exact apply_ite BitVec.toNat ..
    have next := @ih (past s)
      (if start s ≤ roundUp behind ∧ roundUp behind < roundUp (past s) then run + 1 else 0) (raise highest (segment s))
      apart others (fun t later => low t (List.mem_cons_of_mem _ later))
    apply next
    · rw [raised]
      split <;> omega
    · intro evenNext
      rw [raised]
      by_cases evenRun : Even run
      · have same := even evenRun
        by_cases touches : start s ≤ roundUp behind ∧ roundUp behind < roundUp (past s)
        · rw [if_pos touches, Nat.even_add_one] at evenNext
          exact absurd evenRun evenNext
        · rw [same]
          split <;> omega
      · have less := odd evenRun
        -- a segment was left out: the next one begins behind the old maximum
        have above : highest.toNat < start s := by omega
        exact if_pos above
    · intro oddNext
      rw [raised]
      by_cases touches : start s ≤ roundUp behind ∧ roundUp behind < roundUp (past s)
      · rw [if_pos touches, Nat.even_add_one, not_not] at oddNext
        have same := even oddNext
        rw [if_neg (by omega)]
        omega
      · rw [if_neg touches] at oddNext
        exact absurd (Even.zero) oddNext

/- The copies. -/

/- What is known about a segment of an image up to `top`. -/
structure Within (stSize base : Word) (top : Nat) (s : Phdr) : Prop where
  above : base.toNat ≤ start s
  below : past s ≤ top
  filled : s.pFilesz.toNat ≤ s.pMemsz.toNat
  held : s.pOffset.toNat + s.pFilesz.toNat ≤ stSize.toNat

structure Copy.Good (stSize : Word) (room : Nat) (c : Copy) : Prop where
  inside : c.dst.toNat + c.toWrite.toNat ≤ room
  sourced : c.src.toNat + c.toWrite.toNat ≤ stSize.toNat

section Copies

variable {file : Word → Byte} {stSize base : Word} {top : Nat} {s next : Phdr} {loads : List Phdr}

theorem dst_toNat (within : Within stSize base top s) : (s.pVaddr - base).toNat = start s - base.toNat :=
  BitVec.toNat_sub_of_le within.above

theorem written_upTo (small : top < 2 ^ 32) (whole : top % 4096 = 0) (first : Within stSize base top s)
    (second : Within stSize base top next) (order : past s ≤ start next) :
    (copyUpTo base (segment s) (segment next)).toWrite.toNat =
      if s.pOffset.toNat + s.pFilesz.toNat < next.pMemsz.toNat then roundUp (start next - start s)
      else start next - start s := by
  have ahead : start s ≤ start next := Nat.le_trans (Nat.le_add_right ..) order
  have nextBelow : start next ≤ top := Nat.le_trans (Nat.le_add_right ..) second.below
  have distance : (next.pVaddr - s.pVaddr).toNat = start next - start s := BitVec.toNat_sub_of_le ahead
  have high : roundUp (start next - start s) ≤ top := roundUp_le (by omega) whole
  have rounded : (pageup (next.pVaddr - s.pVaddr)).toNat = roundUp (start next - start s) := by
    rw [← distance]
    apply pageup_small
    rw [distance]
    omega
  have sum : (s.pOffset + s.pFilesz).toNat = s.pOffset.toNat + s.pFilesz.toNat :=
    BitVec.toNat_add_of_lt (Nat.lt_of_le_of_lt first.held stSize.isLt)
  have decided : s.pOffset + s.pFilesz < next.pMemsz ↔
      s.pOffset.toNat + s.pFilesz.toNat < next.pMemsz.toNat := by
    rw [← sum]
    exact Iff.rfl
  by_cases short : s.pOffset.toNat + s.pFilesz.toNat < next.pMemsz.toNat
  · rw [if_pos short, ← rounded]
    exact congrArg BitVec.toNat (if_pos (decided.mpr short))
  · rw [if_neg short, ← distance]
    exact congrArg BitVec.toNat (if_neg (fun less => short (decided.mp less)))

theorem written_last (within : Within stSize base top s) :
    (copyLast stSize base (segment s)).toWrite.toNat = min (stSize.toNat - s.pOffset.toNat) s.pMemsz.toNat := by
  have rest : (stSize - s.pOffset).toNat = stSize.toNat - s.pOffset.toNat :=
    BitVec.toNat_sub_of_le (Nat.le_trans (Nat.le_add_right ..) within.held)
  by_cases less : stSize - s.pOffset < s.pMemsz
  · have lessNat : stSize.toNat - s.pOffset.toNat < s.pMemsz.toNat := rest ▸ less
    rw [Nat.min_eq_left (Nat.le_of_lt lessNat), ← rest]
    exact congrArg BitVec.toNat (if_pos less)
  · have notLess : ¬ stSize.toNat - s.pOffset.toNat < s.pMemsz.toNat := rest ▸ less
    rw [Nat.min_eq_right (Nat.le_of_not_lt notLess)]
    exact congrArg BitVec.toNat (if_neg less)

theorem good_upTo_iff (small : top < 2 ^ 32) (whole : top % 4096 = 0) (first : Within stSize base top s)
    (second : Within stSize base top next) (order : past s ≤ start next) :
    (copyUpTo base (segment s) (segment next)).Good stSize (top - base.toNat) ↔ Fits stSize.toNat top s next := by
  have written := written_upTo small whole first second order
  have dst : (copyUpTo base (segment s) (segment next)).dst.toNat = start s - base.toNat := dst_toNat first
  have src : (copyUpTo base (segment s) (segment next)).src = s.pOffset := rfl
  have above := first.above
  have ahead : start s ≤ start next := Nat.le_trans (Nat.le_add_right ..) order
  have nextBelow : start next ≤ top := Nat.le_trans (Nat.le_add_right ..) second.below
  have facts := roundUp_facts (start next - start s)
  by_cases short : s.pOffset.toNat + s.pFilesz.toNat < next.pMemsz.toNat
  · rw [if_pos short] at written
    constructor
    · rintro ⟨inside, sourced⟩
      rw [dst, written] at inside
      rw [src, written] at sourced
      exact ⟨by omega, fun _ => ⟨sourced, by omega⟩⟩
    · rintro ⟨-, room⟩
      obtain ⟨sourced, inside⟩ := room short
      exact ⟨by rw [dst, written]; omega, by rw [src, written]; exact sourced⟩
  · rw [if_neg short] at written
    constructor
    · rintro ⟨-, sourced⟩
      rw [src, written] at sourced
      exact ⟨sourced, fun less => absurd less short⟩
    · rintro ⟨sourced, -⟩
      exact ⟨by rw [dst, written]; omega, by rw [src, written]; exact sourced⟩

theorem good_last (within : Within stSize base top s) :
    (copyLast stSize base (segment s)).Good stSize (top - base.toNat) := by
  have written := written_last within
  have dst : (copyLast stSize base (segment s)).dst.toNat = start s - base.toNat := dst_toNat within
  have src : (copyLast stSize base (segment s)).src = s.pOffset := rfl
  obtain ⟨above, below, -, held⟩ := within
  have length : start s + s.pMemsz.toNat = past s := rfl
  have shorter : (copyLast stSize base (segment s)).toWrite.toNat ≤ s.pMemsz.toNat := written ▸ Nat.min_le_right ..
  have read : (copyLast stSize base (segment s)).toWrite.toNat ≤ stSize.toNat - s.pOffset.toNat :=
    written ▸ Nat.min_le_left ..
  exact ⟨by rw [dst]; omega, by rw [src]; omega⟩

/- One copy for each segment; all but the last depend on the segment behind. -/
theorem copies_good_iff (small : top < 2 ^ 32) (whole : top % 4096 = 0)
    (ascending : loads.Pairwise fun s t => past s ≤ start t) (within : ∀ s ∈ loads, Within stSize base top s) :
    (∀ c ∈ copies stSize base (loads.map segment), c.Good stSize (top - base.toNat)) ↔
      loads.IsChain (Fits stSize.toNat top) := by
  induction loads with
  | nil => exact iff_of_true (fun c member => nomatch member) .nil
  | cons s rest ih =>
    obtain ⟨here, later⟩ := List.forall_mem_cons.mp within
    obtain ⟨apart, others⟩ := List.pairwise_cons.mp ascending
    cases rest with
    | nil =>
      have last : ∀ c ∈ copies stSize base [segment s], c.Good stSize (top - base.toNat) :=
        List.forall_mem_singleton.mpr (good_last here)
      exact iff_of_true last (.singleton s)
    | cons next rest =>
      have step := good_upTo_iff small whole here (later next List.mem_cons_self) (apart next List.mem_cons_self)
      have tail := ih others later
      simp only [List.map_cons, copies, List.forall_mem_cons, List.isChain_cons_cons] at tail ⊢
      exact and_congr step tail

theorem dst_of_segment : ∀ c ∈ copies stSize base (loads.map segment), ∃ s ∈ loads, c.dst = s.pVaddr - base := by
  induction loads with
  | nil => exact fun c member => nomatch member
  | cons s rest ih =>
    cases rest with
    | nil => exact List.forall_mem_singleton.mpr ⟨s, List.mem_cons_self, rfl⟩
    | cons next rest =>
      intro c member
      cases List.mem_cons.mp member with
      | inl head => exact ⟨s, List.mem_cons_self, congrArg Copy.dst head⟩
      | inr tail =>
        obtain ⟨t, later, same⟩ := ih c tail
        exact ⟨t, List.mem_cons_of_mem _ later, same⟩

/- The stores that `fill` makes. -/
def stores (file : Word → Byte) (copies : List Copy) : List (Word × List Byte) :=
  copies.map fun c => (c.dst, Bytes.bytesAt file c.src c.toWrite.toNat)

/- What a copy wrote stays, when the segments of the later copies begin behind it. -/
theorem contents_kept (file : Word → Byte) {k : Nat} (within : Within stSize base top s)
    (inFile : k < s.pFilesz.toNat) (small : top < 2 ^ 32)
    (m : Word → Byte) (behind : ∀ t ∈ loads, past s ≤ start t) (others : ∀ t ∈ loads, Within stSize base top t)
    (good : ∀ c ∈ copies stSize base (loads.map segment), c.Good stSize (top - base.toNat)) :
    Bytes.storeAll m (stores file (copies stSize base (loads.map segment)))
        (s.pVaddr - base + BitVec.ofNat 64 k) = m (s.pVaddr - base + BitVec.ofNat 64 k) := by
  have dst := dst_toNat within
  obtain ⟨above, below, filled, -⟩ := within
  have length : start s + s.pMemsz.toNat = past s := rfl
  have here : (s.pVaddr - base + BitVec.ofNat 64 k).toNat = start s - base.toNat + k := by
    have offset : (BitVec.ofNat 64 k).toNat = k := Nat.mod_eq_of_lt (by omega)
    rw [BitVec.toNat_add_of_lt (by rw [dst, offset]; omega), dst, offset]
  apply Bytes.storeAll_outside
  intro store member
  obtain ⟨c, copied, rfl⟩ := List.mem_map.mp member
  obtain ⟨t, later, segmentOf⟩ := dst_of_segment c copied
  obtain ⟨inside, -⟩ := good c copied
  have dstLater : c.dst.toNat = start t - base.toNat := segmentOf ▸ dst_toNat (others t later)
  have order := behind t later
  rw [Bytes.length_bytesAt]
  apply Bytes.not_mem_span_of_lt
  · show (s.pVaddr - base + BitVec.ofNat 64 k).toNat < c.dst.toNat
    omega
  · show c.dst.toNat + c.toWrite.toNat ≤ 2 ^ 64
    omega

theorem contents_filled (small : top < 2 ^ 32) (whole : top % 4096 = 0)
    (ascending : loads.Pairwise fun s t => past s ≤ start t) (within : ∀ s ∈ loads, Within stSize base top s)
    (good : ∀ c ∈ copies stSize base (loads.map segment), c.Good stSize (top - base.toNat)) (m : Word → Byte) :
    ∀ s ∈ loads, ∀ k < s.pFilesz.toNat,
      Bytes.storeAll m (stores file (copies stSize base (loads.map segment)))
        (s.pVaddr - base + BitVec.ofNat 64 k) = file (s.pOffset + BitVec.ofNat 64 k) := by
  induction loads generalizing m with
  | nil => exact fun s member => nomatch member
  | cons s rest ih =>
    obtain ⟨here, later⟩ := List.forall_mem_cons.mp within
    obtain ⟨apart, others⟩ := List.pairwise_cons.mp ascending
    cases rest with
    | nil =>
      intro t only k inFile
      obtain rfl := List.mem_singleton.mp only
      have covered : k < (copyLast stSize base (segment t)).toWrite.toNat := by
        have filled := here.filled
        have held := here.held
        rw [written_last here]
        omega
      exact Bytes.store_bytesAt m file _ _ covered (Nat.le_of_lt (BitVec.isLt _))
    | cons next rest =>
      have order := apart next List.mem_cons_self
      obtain ⟨-, goodLater⟩ := List.forall_mem_cons.mp good
      intro t member
      cases List.mem_cons.mp member with
      | inl head =>
        subst head
        intro k inFile
        have covered : k < (copyUpTo base (segment t) (segment next)).toWrite.toNat := by
          have filled := here.filled
          have facts := roundUp_facts (start next - start t)
          have length : start t + t.pMemsz.toNat = past t := rfl
          rw [written_upTo small whole here (later next List.mem_cons_self) order]
          split <;> omega
        have kept := contents_kept file here inFile small
          (Bytes.store m (t.pVaddr - base) (Bytes.bytesAt file t.pOffset
            (copyUpTo base (segment t) (segment next)).toWrite.toNat)) apart later goodLater
        exact kept.trans (Bytes.store_bytesAt m file _ _ covered (Nat.le_of_lt (BitVec.isLt _)))
      | inr tail => exact ih others later goodLater _ t tail

end Copies

/- The whole program. -/

theorem main_eq {file : Word → Byte} {stSize : Word} (linear : Linear stSize (loads file 0)) :
    main file stSize false =
      if (loads file 0).length < maxSegments then
        let mapSize := ((loads file 0).map segment).foldl raise 0 - lowest (loads file 0)
        if mmapRefuses mapSize then none
        else
          let copies := copies stSize (lowest (loads file 0)) ((loads file 0).map segment)
          some ⟨mapSize / 0x1000 * 0x1000, copies, fill file copies⟩
      else none := by
  have full : ((loads file 0).map segment).isEmpty = false := by
    have some := linear.some
    cases shape : loads file 0 with
    | nil => exact absurd shape some
    | cons first rest => rfl
  unfold main
  rw [scan_linear linear]
  by_cases spare : (loads file 0).length < maxSegments
  · simp only [highest_spare _ spare, if_pos spare, full, Bool.or_false]
    rfl
  · simp only [highestVaddr, List.length_map, if_neg spare]

theorem pages_toNat (x : Word) : (x / 0x1000 * 0x1000).toNat = x.toNat / 4096 * 4096 := by
  have size : (0x1000 : Word).toNat = 4096 := rfl
  have bound := x.isLt
  rw [BitVec.toNat_mul, BitVec.toNat_udiv, size]
  exact Nat.mod_eq_of_lt (by omega)

theorem mmapRefuses_iff (length : Word) :
    mmapRefuses length = false ↔ 0 < length.toNat ∧ length.toNat ≤ 2 ^ 47 := by
  have zero : length = 0 ↔ length.toNat = 0 := by
    rw [← BitVec.toNat_inj]
    exact Iff.rfl
  have huge : (0x800000000000 : Word) < length ↔ 2 ^ 47 < length.toNat := Iff.rfl
  simp only [mmapRefuses, Bool.or_eq_false_iff, decide_eq_false_iff_not, zero, huge]
  omega

theorem lastPast_mem (behind : Nat) {loads : List Phdr} (some : loads ≠ []) :
    ∃ s ∈ loads, lastPast behind loads = past s := by
  induction loads generalizing behind with
  | nil => exact absurd rfl some
  | cons s rest ih =>
    cases rest with
    | nil => exact ⟨s, List.mem_cons_self, rfl⟩
    | cons next rest =>
      obtain ⟨t, member, same⟩ := ih (past s) (List.cons_ne_nil next rest)
      exact ⟨t, List.mem_cons_of_mem _ member, same⟩

section Linear

variable {file : Word → Byte} {stSize : Word} {loads : List Phdr}

/- `highest_vaddr` before the loop is 0, which is where the memory in front of the first segment ends. -/
theorem Linear.highest (linear : Linear stSize loads) (low : roundUp (lastPast 0 loads) < 2 ^ 32) :
    (Even (adjoining 0 0 loads) → ((loads.map segment).foldl raise 0).toNat = roundUp (lastPast 0 loads)) ∧
      (¬ Even (adjoining 0 0 loads) → ((loads.map segment).foldl raise 0).toNat < roundUp (lastPast 0 loads)) := by
  have after : ∀ s ∈ loads, 0 ≤ start s := fun s _ => Nat.zero_le _
  have inside := (lastPast_le _ after linear.ascending).2
  have lowAll : ∀ s ∈ loads, roundUp (past s) < 2 ^ 32 := fun s member =>
    Nat.lt_of_le_of_lt (roundUp_mono (inside s member)) low
  exact highest_adjoining after linear.ascending lowAll rfl (fun _ => rfl) (fun odd => absurd Even.zero odd)

theorem Linear.within (linear : Linear stSize loads) :
    ∀ s ∈ loads, Within stSize (lowest loads) (roundUp (lastPast 0 loads)) s := by
  intro s member
  have inside := (lastPast_le 0 (fun s _ => Nat.zero_le _) linear.ascending).2 s member
  exact ⟨linear.lowest_le s member, Nat.le_trans inside (roundUp_facts _).1, linear.filled s member,
    linear.held s member⟩

theorem Linear.lowest_low (linear : Linear stSize loads) : (lowest loads).toNat ≤ 2 ^ 32 := by
  obtain ⟨s, member, -⟩ := lastPast_mem 0 linear.some
  have above := linear.lowest_le s member
  have below := linear.below s member
  exact Nat.le_trans above (Nat.le_trans (Nat.le_add_right ..) below)

end Linear

/-- The image is the flat image of the file exactly when the array keeps a spare element,
the segments begin on a page and end below the last one, no odd number of segments adjoins
at the end, and every copy up to the next segment fits. -/
theorem flat_image_iff (file : Word → Byte) (stSize : Word) (linear : Linear stSize (loads file 0)) :
    (∃ image, main file stSize false = some image ∧ FlatImage file stSize (loads file 0) image) ↔
      Copyable stSize (loads file 0) := by
  have whole := (roundUp_facts (lastPast 0 (loads file 0))).2.2
  have lowestLow := linear.lowest_low
  have highestLow : (((loads file 0).map segment).foldl raise 0).toNat < 2 ^ 32 := raise_lt (by decide)
  rw [main_eq linear]
  constructor
  · rintro ⟨image, made, flat⟩
    by_cases spare : (loads file 0).length < maxSegments
    · rw [if_pos spare] at made
      cases refused : mmapRefuses (((loads file 0).map segment).foldl raise 0 - lowest (loads file 0)) with
      | true =>
        simp only [refused, if_true] at made
        exact nomatch made
      | false =>
        simp only [refused, Bool.false_eq_true, if_false] at made
        obtain rfl := Option.some.inj made
        obtain ⟨positive, possible⟩ := (mmapRefuses_iff _).mp refused
        -- a lowest address above the highest would ask for almost 2 ^ 64 bytes
        have order : (lowest (loads file 0)).toNat ≤ (((loads file 0).map segment).foldl raise 0).toNat := by
          rw [BitVec.toNat_sub] at possible
          omega
        have mapSize := BitVec.toNat_sub_of_le order
        rw [mapSize] at positive
        obtain ⟨large, inside, sourced, -⟩ := flat
        simp only [pages_toNat, mapSize] at large inside
        obtain ⟨last, member, reaches⟩ := lastPast_mem 0 linear.some
        have enough := large last member
        rw [← reaches] at enough
        have low : roundUp (lastPast 0 (loads file 0)) < 2 ^ 32 := by omega
        obtain ⟨even, odd⟩ := linear.highest low
        have parity : Even (adjoining 0 0 (loads file 0)) := by
          by_contra isOdd
          have less := odd isOdd
          omega
        have top := even parity
        have aligned : (lowest (loads file 0)).toNat % 4096 = 0 := by omega
        have size : ((((loads file 0).map segment).foldl raise 0).toNat - (lowest (loads file 0)).toNat) / 4096 * 4096 =
            roundUp (lastPast 0 (loads file 0)) - (lowest (loads file 0)).toNat := by omega
        have good : ∀ c ∈ copies stSize (lowest (loads file 0)) ((loads file 0).map segment),
            c.Good stSize (roundUp (lastPast 0 (loads file 0)) - (lowest (loads file 0)).toNat) :=
          fun c copied => ⟨size ▸ inside c copied, sourced c copied⟩
        exact ⟨spare, by omega, low, aligned, parity,
          (copies_good_iff low whole linear.ascending linear.within).mp good⟩
    · rw [if_neg spare] at made
      exact nomatch made
  · rintro ⟨spare, some, low, aligned, parity, fits⟩
    have top := (linear.highest low).1 parity
    have order : (lowest (loads file 0)).toNat ≤ (((loads file 0).map segment).foldl raise 0).toNat := by omega
    have mapSize := BitVec.toNat_sub_of_le order
    have accepted : mmapRefuses (((loads file 0).map segment).foldl raise 0 - lowest (loads file 0)) = false := by
      apply (mmapRefuses_iff _).mpr
      omega
    have good := (copies_good_iff low whole linear.ascending linear.within).mpr fits
    rw [if_pos spare]
    simp only [accepted, Bool.false_eq_true, if_false]
    refine ⟨_, rfl, ?_⟩
    have size : ((((loads file 0).map segment).foldl raise 0 - lowest (loads file 0)) / 0x1000 * 0x1000 : Word).toNat =
        roundUp (lastPast 0 (loads file 0)) - (lowest (loads file 0)).toNat := by
      rw [pages_toNat, mapSize]
      omega
    constructor
    · intro s member
      have inside := (lastPast_le 0 (fun s _ => Nat.zero_le _) linear.ascending).2 s member
      rw [size]
      exact Nat.sub_le_sub_right (roundUp_mono inside) _
    · intro c copied
      rw [size]
      exact (good c copied).inside
    · exact fun c copied => (good c copied).sourced
    · exact contents_filled low whole linear.ascending linear.within good _

/- A file with two segments of one page, each at the same offset as in memory. -/
def twoPages (first second : Nat) : Word → Byte :=
  Bytes.storeAll (fun _ => 0)
    [(32, Bytes.encode 8 64), (56, Bytes.encode 2 2),
      (64, Bytes.encode 4 1), (72, Bytes.encode 8 first), (80, Bytes.encode 8 first), (96, Bytes.encode 8 0x1000),
      (104, Bytes.encode 8 0x1000),
      (120, Bytes.encode 4 1), (128, Bytes.encode 8 second), (136, Bytes.encode 8 second),
      (152, Bytes.encode 8 0x1000), (160, Bytes.encode 8 0x1000)]

def onePage (a : Word) : Phdr := ⟨ptLoad, 0, a, a, 0x1000, 0x1000, 0⟩

theorem loads_apart : loads (twoPages 0x1000 0x3000) 0 = [onePage 0x1000, onePage 0x3000] := by decide +kernel

theorem loads_adjacent : loads (twoPages 0x1000 0x2000) 0 = [onePage 0x1000, onePage 0x2000] := by decide +kernel

theorem flat_image_iff_apart :
    ∃ image, main (twoPages 0x1000 0x3000) 0x4000 false = some image ∧
      FlatImage (twoPages 0x1000 0x3000) 0x4000 (loads (twoPages 0x1000 0x3000) 0) image := by
  have linear : Linear 0x4000 (loads (twoPages 0x1000 0x3000) 0) := by
    rw [loads_apart]
    constructor <;> decide
  apply (flat_image_iff _ _ linear).mpr
  rw [loads_apart]
  have fits : Fits 0x4000 0x4000 (onePage 0x1000) (onePage 0x3000) := ⟨by decide, fun short => absurd short (by decide)⟩
  exact ⟨by decide, by decide, by decide, by decide, by decide, .cons_cons fits (.singleton _)⟩

/-- The second segment begins where the page-rounded first one ends: it is missing in the
size of the image, and the last copy writes behind it. -/
theorem adjacent_segment_missing :
    Linear 0x3000 (loads (twoPages 0x1000 0x2000) 0) ∧
      ∃ image, main (twoPages 0x1000 0x2000) 0x3000 false = some image ∧ image.size = 0x1000 ∧
        ⟨0x1000, 0x2000, 0x1000⟩ ∈ image.copies ∧
        ¬ FlatImage (twoPages 0x1000 0x2000) 0x3000 (loads (twoPages 0x1000 0x2000) 0) image := by
  have linear : Linear 0x3000 (loads (twoPages 0x1000 0x2000) 0) := by
    rw [loads_adjacent]
    constructor <;> decide
  have made : (main (twoPages 0x1000 0x2000) 0x3000 false).map (fun image => (image.size, image.copies)) =
      some (0x1000, [⟨0, 0x1000, 0x1000⟩, ⟨0x1000, 0x2000, 0x1000⟩]) := by decide +kernel
  obtain ⟨image, run, same⟩ := Option.map_eq_some_iff.mp made
  obtain ⟨size, copies⟩ := Prod.mk.inj same
  have last : (⟨0x1000, 0x2000, 0x1000⟩ : Copy) ∈ image.copies := by
    rw [copies]
    exact List.mem_cons_of_mem _ List.mem_cons_self
  refine ⟨linear, image, run, size, last, ?_⟩
  intro flat
  have outside := flat.inside _ last
  rw [size] at outside
  exact absurd outside (by decide)

end RealmVm.ImageGenerator
