import RealmVm.Elf.Mapping

/-! One turn of the loader's loop: a segment comes into memory, and the others stay. -/
namespace RealmVm

open Lib Lib.Bits

/- What PAR_EL1 gives for a page. -/
section Address

theorem page_mask {frame : Word} (aligned : frame.toNat % 4096 = 0) (output : frame.toNat < 2 ^ 48) :
    frame &&& 0x0000FFFFFFFFF000 = frame := by
  have mask : (0x0000FFFFFFFFF000 : Word) = BitVec.ofNat 64 (2 ^ 48 - 1) &&& ~~~BitVec.ofNat 64 (2 ^ 12 - 1) := by
    decide
  have bound : frame &&& BitVec.ofNat 64 (2 ^ 48 - 1) = frame := by
    apply BitVec.eq_of_toNat_eq
    have low := toNat_field frame 0 48 (by decide)
    rw [BitVec.ushiftRight_zero] at low
    rw [low]
    omega
  rw [mask, ← BitVec.and_assoc, bound]
  apply BitVec.eq_of_toNat_eq
  rw [toNat_and_not_mask]
  omega

theorem page_offset {va : Word} (aligned : va.toNat % 4096 = 0) : va &&& (0xFFF : Word) = 0#64 := by
  apply BitVec.eq_of_toNat_eq
  have low := toNat_field va 0 12 (by decide)
  rw [BitVec.ushiftRight_zero] at low
  have mask : (0xFFF : Word) = BitVec.ofNat 64 (2 ^ 12 - 1) := rfl
  have zero : (0#64).toNat = 0 := rfl
  rw [mask, low, zero]
  omega

/-- Of two masked parts one is seen through a mask. -/
theorem and_or_mask (x y rest : Word) {mask keep other : Word} (first : mask &&& keep = rest)
    (second : other &&& keep = 0#64) : ((x &&& mask) ||| (y &&& other)) &&& keep = x &&& rest := by
  rw [BitVec.and_comm, BitVec.and_or_distrib_left, BitVec.and_comm keep, BitVec.and_comm keep, BitVec.and_assoc,
    BitVec.and_assoc, first, second, BitVec.and_zero, BitVec.or_zero]

/-- `get_physical_address` of a page is its frame, whatever the attributes are. -/
theorem getPhysicalAddress_page {mmu : Mmu} {va frame : Word} (permitted : mmu.permits .el1 false va = true)
    (translated : mmu.translate va = some frame) (page : va.toNat % 4096 = 0) (aligned : frame.toNat % 4096 = 0)
    (output : frame.toNat < 2 ^ 48) (attributes shared : Word) :
    getPhysicalAddress ⟨mmu.parEl1 attributes, shared⟩ va = frame := by
  have result : mmu.parEl1 attributes va =
      (frame &&& 0x0000FFFFFFFFF000) ||| (attributes &&& 0xFF00000000000FFE) := by
    rw [Mmu.parEl1, if_pos permitted, translated]
  have success : mmu.parEl1 attributes va &&& (1 : Word) = 0#64 := by
    rw [result, and_or_mask frame attributes 0#64 (by decide) (by decide), BitVec.and_zero]
  have kept : (mmu.parEl1 attributes va &&& ~~~(0xFFF : Word)) &&& ~~~((0xFF : Word) <<< 56) = frame := by
    rw [result, BitVec.and_assoc, and_or_mask frame attributes 0x0000FFFFFFFFF000 (by decide) (by decide),
      page_mask aligned output]
  have found : ¬ mmu.parEl1 attributes va &&& 1 ≠ 0 := fun failed => failed success
  have offset := page_offset page
  simp only [getPhysicalAddress, translateVaToPa, if_neg found, offset]
  rw [BitVec.or_zero]
  exact kept

end Address

theorem accessKernelOk_of_permits {mmu : Mmu} {va : Word} (permitted : mmu.permits .el1 true va = true) :
    accessKernelOk mmu va protRw = 0 := by
  simp only [accessKernelOk, accessOk, true_or, if_true, faultBit, permitted]

/-- A frame holds whole words. -/
theorem inFrame_of_wordOf {f a : Word} (aligned : f.toNat % 4096 = 0) (inside : InFrame f (WordBytes.wordOf a)) :
    InFrame f a := by
  have down := WordBytes.wordOf_toNat a
  unfold InFrame at *
  omega

/- The state in which the loop starts: no region yet, frames and data apart from each other
and from the tables. -/
structure LoadStart (call : LoadCall) (p : Process) (s : AddressSpace) (pool : Pool Word) : Prop where
  lower : p.t.startVa = 0
  fresh : FreshBlocks p.headRegion call.blocks
  tracks : Tracks s.frames pool
  physical : s.frames.frameStart.toNat + s.frames.frameCount.toNat * 4096 ≤ 2 ^ 48
  apart : ∀ f ∈ pool.free, ∀ l,
    f.toNat + 4096 ≤ (p.t.base l).toNat ∨ (p.t.base l).toNat + userPages l * 4096 ≤ f.toNat
  data : ∀ i < call.size.toNat,
    Elsewhere p.t userPages (WordBytes.wordOf (s.memory.pa (call.data + BitVec.ofNat 64 i))) ∧
      ∀ f ∈ pool.free, ¬ InFrame f (s.memory.pa (call.data + BitVec.ofNat 64 i))

/-- What the pages of a segment hold: the bytes of the file from the start of the first page
on, and behind them what was in the frames before. -/
def SegmentIn (call : LoadCall) (m₀ m : Memory) (pages : PageMap) (phdr : Phdr) : Prop :=
  ∀ j < 4096 * pageCount phdr.pMemsz, ∃ a, pageByte pages ((pageDown phdr.pVaddr).toNat + j) = some a ∧
    WordBytes.byte m.word a =
      if j < phdr.pFilesz.toNat then call.image m₀ (phdr.pOffset + BitVec.ofNat 64 j) else WordBytes.byte m₀.word a

/- The memory after the segments `done`, all of them below `bound`. -/
structure Loaded (call : LoadCall) (p : Process) (s₀ : AddressSpace) (pool₀ : Pool Word) (bound : Nat)
    (done : List Phdr) (s : AddressSpace) (pool : Pool Word) (pages : PageMap) : Prop where
  backed : Backed s.memory p.t pages
  tracks : Tracks s.frames pool
  arena : s.frames.frameStart = s₀.frames.frameStart ∧ s.frames.frameCount = s₀.frames.frameCount
  pa : s.memory.pa = s₀.memory.pa
  free : pool.free ⊆ pool₀.free
  distinct : ∀ q r x y, pages q = some x → pages r = some y → x.1 = y.1 → q = r
  given : ∀ q x, pages q = some x → x.1 ∈ pool₀.free ∧ x.1 ∉ pool.free
  below : ∀ q x, pages q = some x → 4096 * q < bound
  stale : ∀ f ∈ pool.free, ∀ a, InFrame f a → s.memory.word a = s₀.memory.word a
  kept : ∀ a, Elsewhere p.t userPages a → (∀ f ∈ pool₀.free, ¬ InFrame f a) → s.memory.word a = s₀.memory.word a
  segments : ∀ phdr ∈ done, SegmentIn call s₀.memory s.memory pages phdr

variable {call : LoadCall} {p : Process} {s₀ s s' : AddressSpace} {pool₀ pool pool' : Pool Word} {bound : Nat}
  {done : List Phdr} {pages pages' : PageMap}

theorem Loaded.own (start : LoadStart call p s₀ pool₀) (loaded : Loaded call p s₀ pool₀ bound done s pool pages) :
    OwnFrames p.t pages :=
  ⟨loaded.distinct, fun q x page l => start.apart x.1 (loaded.given q x page).1 l⟩

/-- The frames are pages of the arena. -/
theorem LoadStart.frame (start : LoadStart call p s₀ pool₀) {f : Word} (free : f ∈ pool₀.free) :
    f.toNat % 4096 = 0 ∧ f.toNat + 4096 ≤ 2 ^ 48 :=
  frame_spec start.tracks start.physical free

theorem LoadStart.frame_elsewhere (start : LoadStart call p s₀ pool₀) (laid : LaidOut s.memory p.t userPages)
    {f a : Word}
    (free : f ∈ pool₀.free) (inside : InFrame f a) : Elsewhere p.t userPages a := by
  intro l i hi same
  have place := laid.entryAddress_toNat hi
  have apart := start.apart f free l
  rw [← same] at place
  unfold InFrame at inside
  omega

/-- Two frames of the pool have no address in common. -/
theorem LoadStart.frames_apart (start : LoadStart call p s₀ pool₀) {f g a : Word} (first : f ∈ pool₀.free)
    (second : g ∈ pool₀.free) (inF : InFrame f a) (inG : InFrame g a) : f = g := by
  have alignedF := (start.frame first).1
  have alignedG := (start.frame second).1
  unfold InFrame at inF inG
  apply BitVec.eq_of_toNat_eq
  omega

/-- The data stay readable, and as they were. -/
theorem Loaded.image_byte (start : LoadStart call p s₀ pool₀)
    (loaded : Loaded call p s₀ pool₀ bound done s pool pages) {i : Nat} (inside : i < call.size.toNat) :
    s.memory.kernelByte (call.data + BitVec.ofNat 64 i) = call.image s₀.memory (BitVec.ofNat 64 i) := by
  obtain ⟨elsewhere, outside⟩ := start.data i inside
  rw [LoadCall.image, Memory.kernelByte, Memory.kernelByte, loaded.pa]
  apply WordBytes.byte_congr
  refine loaded.kept _ elsewhere fun f free within => ?_
  exact outside f free (inFrame_of_wordOf (start.frame free).1 within)

theorem pageByte_of_page {n : Nat} (same : pages' (n / 4096) = pages (n / 4096)) :
    pageByte pages' n = pageByte pages n := by
  rw [pageByte, pageByte, same]

/-- More pages above all others. -/
theorem Loaded.map (start : LoadStart call p s₀ pool₀) (loaded : Loaded call p s₀ pool₀ bound done s pool pages)
    {prot : CInt} {base : Word} {n : Nat} (aligned : base.toNat % 4096 = 0) (above : bound ≤ base.toNat)
    (added : PagesAdded p.t prot (pageNumber base) n (s.memory, s.frames) (s'.memory, s'.frames) pool pool' pages
      pages') : Loaded call p s₀ pool₀ (base.toNat + 4096 * n) done s' pool' pages' := by
  have first : 4096 * pageNumber base = base.toNat := by
    unfold pageNumber
    omega
  have newOrOld (q : Nat) {x : Word × CInt} (page : pages' q = some x) :
      (pageNumber base ≤ q ∧ q < pageNumber base + n ∧ x.1 ∈ pool.free ∧ x.1 ∉ pool'.free ∧ x.2 = prot) ∨
        pages q = some x := by
    by_cases new : pageNumber base ≤ q ∧ q < pageNumber base + n
    · obtain ⟨f, found, free, taken⟩ := added.new q new.1 new.2
      obtain rfl := Option.some.inj (page.symm.trans found)
      exact Or.inl ⟨new.1, new.2, free, taken, rfl⟩
    · exact Or.inr (added.others q new ▸ page)
  have laid := loaded.backed.own.laid
  refine ⟨added.backed, added.tracks, ?_, added.pa.trans loaded.pa, added.free.trans loaded.free, ?_, ?_, ?_,
    ?_, ?_, ?_⟩
  · exact ⟨added.arena.1.trans loaded.arena.1, added.arena.2.trans loaded.arena.2⟩
  · intro q r x y pageQ pageR same
    cases newOrOld q pageQ with
    | inl newQ =>
      cases newOrOld r pageR with
      | inl newR =>
        have equal : x = y := Prod.ext same (newQ.2.2.2.2.trans newR.2.2.2.2.symm)
        obtain ⟨f, v⟩ := x
        obtain rfl : v = prot := newQ.2.2.2.2
        exact added.distinct q r f ⟨newQ.1, newQ.2.1⟩ ⟨newR.1, newR.2.1⟩ pageQ (equal ▸ pageR)
      | inr oldR => exact absurd (same ▸ newQ.2.2.1) (loaded.given r y oldR).2
    | inr oldQ =>
      cases newOrOld r pageR with
      | inl newR => exact absurd (same ▸ newR.2.2.1) (loaded.given q x oldQ).2
      | inr oldR => exact loaded.distinct q r x y oldQ oldR same
  · intro q x page
    cases newOrOld q page with
    | inl new => exact ⟨loaded.free new.2.2.1, new.2.2.2.1⟩
    | inr old =>
      have given := loaded.given q x old
      exact ⟨given.1, fun free => given.2 (added.free free)⟩
  · intro q x page
    cases newOrOld q page with
    | inl new => omega
    | inr old =>
      have low := loaded.below q x old
      omega
  · intro f free a inside
    have elsewhere := start.frame_elsewhere laid (loaded.free (added.free free)) inside
    exact (added.word a elsewhere).trans (loaded.stale f (added.free free) a inside)
  · intro a elsewhere outside
    exact (added.word a elsewhere).trans (loaded.kept a elsewhere outside)
  · intro phdr member j inside
    obtain ⟨a, found, value⟩ := loaded.segments phdr member j inside
    obtain ⟨x, page, _, frameAligned, within⟩ := pageByte_frame loaded.backed found
    have low := loaded.below _ x page
    have other : pages' (((pageDown phdr.pVaddr).toNat + j) / 4096) =
        pages (((pageDown phdr.pVaddr).toNat + j) / 4096) :=
      added.others _ (by omega)
    have elsewhere := start.frame_elsewhere laid (loaded.given _ x page).1 (inFrame_wordOf frameAligned within)
    refine ⟨a, (pageByte_of_page other).trans found, ?_⟩
    rw [← value]
    exact WordBytes.byte_congr (added.word _ elsewhere)

/-- Bytes copied to the pages of a segment, wherever they come from: no table and no free frame is touched. -/
theorem Loaded.overwrite (start : LoadStart call p s₀ pool₀)
    (loaded : Loaded call p s₀ pool₀ bound done s pool pages) {phdr : Phdr} (src : Word)
    (mapped : ∀ j < 4096 * pageCount phdr.pMemsz, ∃ x, pages (((pageDown phdr.pVaddr).toNat + j) / 4096) = some x ∧
      protW &&& x.2 ≠ 0)
    (positive : 0 < phdr.pMemsz.toNat) (inside : (pageDown phdr.pVaddr).toNat + 4096 * pageCount phdr.pMemsz ≤ 2 ^ 23)
    (short : phdr.pFilesz.toNat ≤ 4096 * pageCount phdr.pMemsz) :
    ∃ m, s.memory.copyToUser p.t.pgd call.ttbr1 (pageDown phdr.pVaddr) src phdr.pFilesz = some (phdr.pFilesz, m) ∧
      s.memory.copyBytes p.t.pgd call.ttbr1 (pageDown phdr.pVaddr) src phdr.pFilesz.toNat 0 = some m ∧
      Loaded call p s₀ pool₀ bound [] { s with memory := m } pool pages := by
  have own := loaded.own start
  have long : 0 < pageCount phdr.pMemsz := by
    unfold pageCount
    omega
  obtain ⟨x, page, write⟩ := mapped 0 (by omega)
  have permitted : Mmu.permits ⟨s.memory.word, p.t.pgd, call.ttbr1⟩ .el1 true (pageDown phdr.pVaddr) = true :=
    loaded.backed.permits start.lower call.ttbr1 (by omega) page fun _ => write
  obtain ⟨m, ran, pa, backed, _, _, outside⟩ := copyBytes_spec start.lower own call.ttbr1 (pageDown phdr.pVaddr) src
    phdr.pFilesz.toNat 0 loaded.backed (by omega) fun j _ high => mapped j (by omega)
  refine ⟨m, ?_, ran, backed, loaded.tracks, loaded.arena, pa.trans loaded.pa, loaded.free, loaded.distinct,
    loaded.given, loaded.below, ?_, ?_, List.forall_mem_nil _⟩
  · simp only [Memory.copyToUser, accessKernelOk_of_permits permitted, ne_eq, not_true_eq_false, if_false, ran,
      Option.map_some]
  · intro f free a within
    have unused : ∀ q y, pages q = some y → ¬ InFrame y.1 a := by
      intro q y found taken
      have given := loaded.given q y found
      exact given.2 (start.frames_apart (loaded.free free) given.1 within taken ▸ free)
    exact (outside a unused).trans (loaded.stale f free a within)
  · intro a elsewhere apart
    have unused : ∀ q y, pages q = some y → ¬ InFrame y.1 a := fun q y found => apart y.1 (loaded.given q y found).1
    exact (outside a unused).trans (loaded.kept a elsewhere apart)

/-- The bytes of a segment whose pages were just mapped, writable. -/
theorem Loaded.copy (start : LoadStart call p s₀ pool₀)
    (loaded : Loaded call p s₀ pool₀ bound done s pool pages) {phdr : Phdr}
    (before : ∀ old ∈ done, (pageDown old.pVaddr).toNat + 4096 * pageCount old.pMemsz ≤ (pageDown phdr.pVaddr).toNat)
    (mapped : ∀ j < 4096 * pageCount phdr.pMemsz, ∃ x, pages (((pageDown phdr.pVaddr).toNat + j) / 4096) = some x ∧
      protW &&& x.2 ≠ 0 ∧ ∀ a, InFrame x.1 a → s.memory.word a = s₀.memory.word a)
    (positive : 0 < phdr.pMemsz.toNat) (inside : (pageDown phdr.pVaddr).toNat + 4096 * pageCount phdr.pMemsz ≤ 2 ^ 23)
    (filled : phdr.pFilesz.toNat ≤ phdr.pMemsz.toNat)
    (inData : phdr.pOffset.toNat + phdr.pFilesz.toNat ≤ call.size.toNat) :
    ∃ m, s.memory.copyToUser p.t.pgd call.ttbr1 (pageDown phdr.pVaddr) (phdr.pOffset + call.data) phdr.pFilesz =
        some (phdr.pFilesz, m) ∧
      Loaded call p s₀ pool₀ bound (done ++ [phdr]) { s with memory := m } pool pages := by
  have own := loaded.own start
  have long : phdr.pMemsz.toNat ≤ 4096 * pageCount phdr.pMemsz := by
    unfold pageCount
    omega
  have source (j : Nat) : phdr.pOffset + call.data + BitVec.ofNat 64 j =
      call.data + BitVec.ofNat 64 (phdr.pOffset.toNat + j) := by
    bv_omega
  have offset (j : Nat) : phdr.pOffset + BitVec.ofNat 64 j = BitVec.ofNat 64 (phdr.pOffset.toNat + j) := by
    bv_omega
  have writable : ∀ j < 4096 * pageCount phdr.pMemsz, ∃ x,
      pages (((pageDown phdr.pVaddr).toNat + j) / 4096) = some x ∧ protW &&& x.2 ≠ 0 := by
    intro j small
    obtain ⟨y, found, write, _⟩ := mapped j small
    exact ⟨y, found, write⟩
  obtain ⟨m, called, ran, kept⟩ := loaded.overwrite start (phdr.pOffset + call.data) writable positive inside (by omega)
  obtain ⟨m', ran', _, _, copied, missed, _⟩ := copyBytes_spec start.lower own call.ttbr1 (pageDown phdr.pVaddr)
    (phdr.pOffset + call.data) phdr.pFilesz.toNat 0 loaded.backed (by omega) fun j _ high => writable j (by omega)
  obtain rfl := Option.some.inj (ran.symm.trans ran')
  have unmoved : ∀ j, 0 ≤ j → j < 0 + phdr.pFilesz.toNat → ∀ q x, pages q = some x →
      ¬ InFrame x.1 (s.memory.pa (phdr.pOffset + call.data + BitVec.ofNat 64 j)) := by
    intro j _ high q y found
    rw [source, loaded.pa]
    exact (start.data _ (by omega)).2 y.1 (loaded.given q y found).1
  refine ⟨m, called, kept.backed, kept.tracks, kept.arena, kept.pa, kept.free, kept.distinct, kept.given, kept.below,
    kept.stale, kept.kept, ?_⟩
  intro other member j small
  cases List.mem_append.mp member with
  | inl old =>
    obtain ⟨a, found, value⟩ := loaded.segments other old j small
    refine ⟨a, found, ?_⟩
    rw [← value]
    apply missed
    intro k _ high again
    have same := pageByte_injective loaded.backed own found again
    have low := before other old
    omega
  | inr new =>
    obtain rfl := List.mem_singleton.mp new
    obtain ⟨y, found, _, content⟩ := mapped j small
    obtain ⟨a, target⟩ : ∃ a, pageByte pages ((pageDown other.pVaddr).toNat + j) = some a := ⟨_, congrArg _ found⟩
    refine ⟨a, target, ?_⟩
    split
    · rename_i inFile
      rw [copied unmoved j (Nat.zero_le j) (by omega) a target, source, offset]
      exact loaded.image_byte start (by omega)
    · rename_i behind
      rw [missed a fun k _ high again => behind ?_]
      · obtain ⟨z, found', _, alignedZ, within⟩ := pageByte_frame loaded.backed target
        obtain rfl := Option.some.inj (found.symm.trans found')
        exact WordBytes.byte_congr (content _ (inFrame_wordOf alignedZ within))
      · have same := pageByte_injective loaded.backed own target again
        omega

/-- The last protection of a page that is mapped already. -/
theorem Loaded.protect (start : LoadStart call p s₀ pool₀) (loaded : Loaded call p s₀ pool₀ bound done s pool pages)
    {va : Word} {x : Word × CInt} (page : pages (pageNumber va) = some x) (near : va.toNat < 2 ^ 23) (prot : CInt) :
    ∃ m, pageTableMapUser s.memory p.t va x.1 prot = some (0, m) ∧
      Loaded call p s₀ pool₀ bound done { s with memory := m } pool
        (Function.update pages (pageNumber va) (some (x.1, prot))) := by
  obtain ⟨_, aligned, output⟩ := loaded.backed.frames _ x page
  obtain ⟨called, backed, pa, word⟩ := loaded.backed.map start.lower prot near aligned output
  have laid := loaded.backed.own.laid
  -- no page changes its frame
  have frame (q : Nat) {y : Word × CInt} (found : Function.update pages (pageNumber va) (some (x.1, prot)) q = some y) :
      ∃ z, pages q = some z ∧ z.1 = y.1 := by
    cases decEq q (pageNumber va) with
    | isTrue here =>
      subst here
      rw [Function.update_self] at found
      obtain rfl := Option.some.inj found
      exact ⟨x, page, rfl⟩
    | isFalse other =>
      rw [Function.update_of_ne other] at found
      exact ⟨y, found, rfl⟩
  have sameByte (n : Nat) : pageByte (Function.update pages (pageNumber va) (some (x.1, prot))) n =
      pageByte pages n := by
    unfold pageByte
    cases decEq (n / 4096) (pageNumber va) with
    | isTrue here =>
      rw [here, Function.update_self, page]
      rfl
    | isFalse other => rw [Function.update_of_ne other]
  refine ⟨_, called, backed, loaded.tracks, loaded.arena, pa.trans loaded.pa, loaded.free, ?_, ?_, ?_, ?_, ?_, ?_⟩
  · intro q r y z pageQ pageR same
    obtain ⟨y', foundQ, sameQ⟩ := frame q pageQ
    obtain ⟨z', foundR, sameR⟩ := frame r pageR
    exact loaded.distinct q r y' z' foundQ foundR (sameQ.trans (same.trans sameR.symm))
  · intro q y found
    obtain ⟨z, old, same⟩ := frame q found
    exact same ▸ loaded.given q z old
  · intro q y found
    obtain ⟨z, old, _⟩ := frame q found
    exact loaded.below q z old
  · intro f free a inside
    have elsewhere := start.frame_elsewhere laid (loaded.free free) inside
    exact (word a elsewhere).trans (loaded.stale f free a inside)
  · intro a elsewhere outside
    exact (word a elsewhere).trans (loaded.kept a elsewhere outside)
  · intro phdr member j inside
    obtain ⟨a, found, value⟩ := loaded.segments phdr member j inside
    obtain ⟨y, old, _, alignedY, within⟩ := pageByte_frame loaded.backed found
    have elsewhere := start.frame_elsewhere laid (loaded.given _ y old).1 (inFrame_wordOf alignedY within)
    refine ⟨a, (sameByte _).trans found, ?_⟩
    rw [← value]
    exact WordBytes.byte_congr (word _ elsewhere)

theorem pageCount_pageUp {size : Word} (small : size.toNat + 4095 < 2 ^ 64) :
    pageCount (pageUp size) = pageCount size := by
  have up := pageUp_toNat size small
  unfold pageCount
  omega

theorem protW_or (prot : CInt) : protW &&& (prot ||| protW) ≠ 0 := by
  intro none
  have write : protW.getLsbD 1 = true := by decide
  have bit : (protW &&& (prot ||| protW)).getLsbD 1 = false := by
    rw [none]
    rfl
  rw [BitVec.getLsbD_and, BitVec.getLsbD_or, write, Bool.or_true] at bit
  cases bit

/-- The bytes of the file that a segment names are in the data, and there are not too many. -/
structure LoadCall.Fits (call : LoadCall) (phdr : Phdr) : Prop where
  filled : phdr.pFilesz.toNat ≤ phdr.pMemsz.toNat
  inData : phdr.pOffset.toNat + phdr.pFilesz.toNat ≤ call.size.toNat

/-- The end of the pages that the loader maps for a segment. -/
def segmentEnd (phdr : Phdr) : Nat := (pageDown phdr.pVaddr).toNat + 4096 * pageCount phdr.pMemsz

/-- The page with number `q` is one of them. -/
def Covers (phdr : Phdr) (q : Nat) : Prop := (pageDown phdr.pVaddr).toNat ≤ 4096 * q ∧ 4096 * q < segmentEnd phdr

variable {n : Nat} {phdr : Phdr}

theorem pageDown_aligned (va : Word) : (pageDown va).toNat % 4096 = 0 := by
  have down := pageDown_toNat va
  omega

/-- The first step for a segment: its pages are mapped where it wants them. -/
theorem mapSegment_spec (start : LoadStart call p s₀ pool₀) (loaded : Loaded call p s₀ pool₀ bound done s pool pages)
    (few : n < 2 ^ 16) (fill : RegionsFill p.headRegion call.blocks n bound s.regions)
    (enough : pageCount phdr.pMemsz ≤ pool.free.card) (above : bound ≤ (pageDown phdr.pVaddr).toNat)
    (inside : segmentEnd phdr ≤ 2 ^ 23)
    (positive : 0 < phdr.pMemsz.toNat) (prot : CInt) :
    ∃ s' pool' pages',
      Returns (fun fuel => sysMmapUser fuel s p.t p.headRegion call.mmapStart (call.blocks n) (pageDown phdr.pVaddr)
        (pageUp phdr.pMemsz) prot mapFixed) (pageDown phdr.pVaddr, s') ∧
      RegionsFill p.headRegion call.blocks (n + 1) (segmentEnd phdr) s'.regions ∧
      PagesAdded p.t prot (pageNumber (pageDown phdr.pVaddr)) (pageCount phdr.pMemsz) (s.memory, s.frames)
        (s'.memory, s'.frames) pool pool' pages pages' := by
  unfold segmentEnd at inside ⊢
  have small : phdr.pMemsz.toNat + 4095 < 2 ^ 64 := by
    unfold pageCount at inside
    omega
  have count := pageCount_pageUp small
  have up := pageUp_toNat _ small
  have physical : s.frames.frameStart.toNat + s.frames.frameCount.toNat * 4096 ≤ 2 ^ 48 := by
    rw [loaded.arena.1, loaded.arena.2]
    exact start.physical
  have mapping := sysMmapUser_spec start.lower start.fresh few fill loaded.backed loaded.tracks physical
    (count.le.trans enough) (pageDown_aligned phdr.pVaddr) above (by omega) (count.symm ▸ inside) call.mmapStart prot
  rw [count] at mapping
  exact mapping

/-- A page is found again through the tables. -/
theorem Loaded.physicalAddress (start : LoadStart call p s₀ pool₀)
    (loaded : Loaded call p s₀ pool₀ bound done s pool pages) {va : Word} (near : va.toNat < 2 ^ 23)
    (aligned : va.toNat % 4096 = 0) {x : Word × CInt} (page : pages (pageNumber va) = some x) :
    getPhysicalAddress ⟨Mmu.parEl1 ⟨s.memory.word, p.t.pgd, call.ttbr1⟩ call.attributes, 0⟩ va = x.1 := by
  obtain ⟨_, frameAligned, output⟩ := loaded.backed.frames _ x page
  have lower : va.toNat < 2 ^ 48 := Nat.lt_trans near (by decide)
  have readable : Mmu.permits ⟨s.memory.word, p.t.pgd, call.ttbr1⟩ .el1 false va = true :=
    loaded.backed.permits start.lower call.ttbr1 lower page fun write => absurd write (by decide)
  have translated : Mmu.translate ⟨s.memory.word, p.t.pgd, call.ttbr1⟩ va = some x.1 := by
    have found := loaded.backed.translate_eq start.lower call.ttbr1 lower
    rw [page, Option.map_some, aligned] at found
    exact found.trans (congrArg some (BitVec.add_zero x.1))
  exact getPhysicalAddress_page readable translated aligned frameAligned output call.attributes 0

/-- The page with number `q` of a segment, after it was mapped and at the end of its turn: only the first page gets
the protection that the segment asks for, the others stay writable. -/
def TurnProtects (phdr : Phdr) (mapped final : PageMap) : Prop :=
  ∀ q, Covers phdr q → ∃ f, mapped q = some (f, elfPfToProt phdr.pFlags ||| protW) ∧
    final q = some (f, if 4096 * q = (pageDown phdr.pVaddr).toNat then elfPfToProt phdr.pFlags
      else elfPfToProt phdr.pFlags ||| protW)

/-- The turn for `phdr`, after `n` others: the `mmap` leaves `s₁`, and the turn returns with `s'`. -/
structure SegmentTurn (call : LoadCall) (p : Process) (n : Nat) (phdr : Phdr) (s : AddressSpace) (pool : Pool Word)
    (pages : PageMap) (s₁ : AddressSpace) (pages₁ : PageMap) (s' : AddressSpace) (pool' : Pool Word)
    (pages' : PageMap) : Prop where
  mapping : Returns (fun fuel => sysMmapUser fuel s p.t p.headRegion call.mmapStart (call.blocks n)
    (pageDown phdr.pVaddr) (pageUp phdr.pMemsz) (elfPfToProt phdr.pFlags ||| protW) mapFixed)
    (pageDown phdr.pVaddr, s₁)
  mapped : Backed s₁.memory p.t pages₁
  low : ∀ q, (pages₁ q).isSome → 4096 * q < segmentEnd phdr
  returned : Returns (fun fuel => loadSegment fuel call p (call.blocks n) phdr s) (0, s')
  protects : TurnProtects phdr pages₁ pages'
  fill : RegionsFill p.headRegion call.blocks (n + 1) (segmentEnd phdr) s'.regions
  card : pool'.free.card + pageCount phdr.pMemsz = pool.free.card
  others : ∀ q, ¬ Covers phdr q → pages' q = pages q

/-- A turn for a segment above the others, for whatever the copy leaves in its pages. -/
theorem loadSegment_steps (start : LoadStart call p s₀ pool₀) (loaded : Loaded call p s₀ pool₀ bound done s pool pages)
    (few : n < 2 ^ 16) (fill : RegionsFill p.headRegion call.blocks n bound s.regions)
    (enough : pageCount phdr.pMemsz ≤ pool.free.card) (above : bound ≤ (pageDown phdr.pVaddr).toNat)
    (inside : segmentEnd phdr ≤ 2 ^ 23) (positive : 0 < phdr.pMemsz.toNat) (proper : pageDown phdr.pVaddr ≠ 0)
    {done' : List Phdr}
    (copy : ∀ s₁ pool₁ pages₁, Loaded call p s₀ pool₀ (segmentEnd phdr) done s₁ pool₁ pages₁ →
      (∀ j < 4096 * pageCount phdr.pMemsz, ∃ x, pages₁ (((pageDown phdr.pVaddr).toNat + j) / 4096) = some x ∧
        protW &&& x.2 ≠ 0 ∧ ∀ a, InFrame x.1 a → s₁.memory.word a = s₀.memory.word a) →
      ∃ m, s₁.memory.copyToUser p.t.pgd call.ttbr1 (pageDown phdr.pVaddr) (phdr.pOffset + call.data) phdr.pFilesz =
          some (phdr.pFilesz, m) ∧
        Loaded call p s₀ pool₀ (segmentEnd phdr) done' { s₁ with memory := m } pool₁ pages₁) :
    ∃ s₁ pages₁ s' pool' pages', SegmentTurn call p n phdr s pool pages s₁ pages₁ s' pool' pages' ∧
      Loaded call p s₀ pool₀ (segmentEnd phdr) done' s' pool' pages' := by
  obtain ⟨s₁, pool₁, pages₁, ⟨k, ran⟩, fill₁, added⟩ :=
    mapSegment_spec start loaded few fill enough above inside positive (elfPfToProt phdr.pFlags ||| protW)
  have aligned := pageDown_aligned phdr.pVaddr
  have loaded₁ := loaded.map start aligned above added
  have below := loaded₁.below
  have laid := loaded.backed.own.laid
  have first : 4096 * pageNumber (pageDown phdr.pVaddr) = (pageDown phdr.pVaddr).toNat := by
    unfold pageNumber
    omega
  have mapped : ∀ j < 4096 * pageCount phdr.pMemsz, ∃ x, pages₁ (((pageDown phdr.pVaddr).toNat + j) / 4096) = some x ∧
      protW &&& x.2 ≠ 0 ∧ ∀ a, InFrame x.1 a → s₁.memory.word a = s₀.memory.word a := by
    intro j small
    obtain ⟨f, page, free, _⟩ := added.new (((pageDown phdr.pVaddr).toNat + j) / 4096) (by omega) (by omega)
    refine ⟨_, page, protW_or _, fun a within => ?_⟩
    have elsewhere := start.frame_elsewhere laid (loaded.free free) within
    exact (added.word a elsewhere).trans (loaded.stale f free a within)
  obtain ⟨m₂, copied, loaded₂⟩ := copy s₁ pool₁ pages₁ loaded₁ mapped
  have near : (pageDown phdr.pVaddr).toNat < 2 ^ 23 := by
    unfold segmentEnd pageCount at inside
    omega
  obtain ⟨x, page, _⟩ := mapped 0 (by unfold pageCount; omega)
  have here : pages₁ (pageNumber (pageDown phdr.pVaddr)) = some x := page
  have address := loaded₂.physicalAddress start near aligned here
  obtain ⟨m₃, remapped, loaded₃⟩ := loaded₂.protect start here near (elfPfToProt phdr.pFlags)
  have answered : ¬ (pageDown phdr.pVaddr = mapFailed ∨ pageDown phdr.pVaddr = 0) := by
    rintro (failed | null)
    · have high : mapFailed.toNat = 2 ^ 64 - 1 := rfl
      rw [failed] at near
      omega
    · exact proper null
  have number (q : Nat) : Covers phdr q ↔ pageNumber (pageDown phdr.pVaddr) ≤ q ∧
      q < pageNumber (pageDown phdr.pVaddr) + pageCount phdr.pMemsz := by
    unfold Covers segmentEnd
    omega
  refine ⟨s₁, pages₁, _, pool₁, _, ?_, loaded₃⟩
  refine ⟨⟨k, ran⟩, added.backed, fun q found => ?_, ⟨k, fun fuel more => ?_⟩, fun q covers => ?_, fill₁, added.card,
    fun q outside => ?_⟩
  · obtain ⟨x, found⟩ := Option.isSome_iff_exists.mp found
    exact below q x found
  · simp only [loadSegment, ran fuel more, if_neg answered, copied, address, remapped]
  · obtain ⟨low, high⟩ := (number q).mp covers
    obtain ⟨f, found, _⟩ := added.new q low high
    refine ⟨f, found, ?_⟩
    cases decEq q (pageNumber (pageDown phdr.pVaddr)) with
    | isTrue same =>
      rw [same] at found ⊢
      obtain rfl := Option.some.inj (here.symm.trans found)
      rw [Function.update_self, if_pos first]
    | isFalse other => rw [Function.update_of_ne other, found, if_neg (by omega)]
  · rw [number] at outside
    have count : 0 < pageCount phdr.pMemsz := by
      unfold pageCount
      omega
    rw [Function.update_of_ne (by omega), added.others q outside]

/-- A segment above the others is loaded. -/
theorem loadSegment_spec (start : LoadStart call p s₀ pool₀) (loaded : Loaded call p s₀ pool₀ bound done s pool pages)
    (few : n < 2 ^ 16) (fill : RegionsFill p.headRegion call.blocks n bound s.regions)
    (before : ∀ old ∈ done, segmentEnd old ≤ bound) (enough : pageCount phdr.pMemsz ≤ pool.free.card)
    (fits : call.Fits phdr)
    (above : bound ≤ (pageDown phdr.pVaddr).toNat) (inside : segmentEnd phdr ≤ 2 ^ 23)
    (positive : 0 < phdr.pMemsz.toNat) (proper : pageDown phdr.pVaddr ≠ 0) :
    ∃ s' pool' pages', Returns (fun fuel => loadSegment fuel call p (call.blocks n) phdr s) (0, s') ∧
      Loaded call p s₀ pool₀ (segmentEnd phdr) (done ++ [phdr]) s' pool' pages' ∧
      RegionsFill p.headRegion call.blocks (n + 1) (segmentEnd phdr) s'.regions ∧
      pool'.free.card + pageCount phdr.pMemsz = pool.free.card ∧
      ∀ q, (pages' q).isSome → (pages q).isSome ∨ Covers phdr q := by
  obtain ⟨_, _, s', pool', pages', turn, loaded'⟩ :=
    loadSegment_steps start loaded few fill enough above inside positive proper fun s₁ pool₁ pages₁ loaded₁ mapped =>
      loaded₁.copy start (fun old member => Nat.le_trans (before old member) above) mapped positive inside fits.filled
        fits.inData
  refine ⟨s', pool', pages', turn.returned, loaded', turn.fill, turn.card, fun q found => ?_⟩
  by_cases covers : Covers phdr q
  · exact Or.inr covers
  · rw [turn.others q covers] at found
    exact Or.inl found

/-- The same for a segment whose bytes need not be in the data, as far as they have room in its pages. -/
theorem loadSegment_mapped (start : LoadStart call p s₀ pool₀) (loaded : Loaded call p s₀ pool₀ bound [] s pool pages)
    (few : n < 2 ^ 16) (fill : RegionsFill p.headRegion call.blocks n bound s.regions)
    (enough : pageCount phdr.pMemsz ≤ pool.free.card) (short : phdr.pFilesz.toNat ≤ 4096 * pageCount phdr.pMemsz)
    (above : bound ≤ (pageDown phdr.pVaddr).toNat) (inside : segmentEnd phdr ≤ 2 ^ 23)
    (positive : 0 < phdr.pMemsz.toNat) (proper : pageDown phdr.pVaddr ≠ 0) :
    ∃ s₁ pages₁ s' pool' pages', SegmentTurn call p n phdr s pool pages s₁ pages₁ s' pool' pages' ∧
      Loaded call p s₀ pool₀ (segmentEnd phdr) [] s' pool' pages' := by
  refine loadSegment_steps start loaded few fill enough above inside positive proper
    fun s₁ pool₁ pages₁ loaded₁ mapped => ?_
  have writable : ∀ j < 4096 * pageCount phdr.pMemsz, ∃ x,
      pages₁ (((pageDown phdr.pVaddr).toNat + j) / 4096) = some x ∧ protW &&& x.2 ≠ 0 := by
    intro j small
    obtain ⟨x, found, write, _⟩ := mapped j small
    exact ⟨x, found, write⟩
  obtain ⟨m, called, _, kept⟩ := loaded₁.overwrite start (phdr.pOffset + call.data) writable positive inside short
  exact ⟨m, called, kept⟩

/-- A segment without memory is refused. -/
theorem loadSegment_empty (s : AddressSpace) (fuel : Nat) (block : Word) (empty : phdr.pMemsz = 0) :
    loadSegment fuel call p block phdr s = some (-enomem, s) := by
  have nothing : pageUp phdr.pMemsz = 0 := by
    rw [empty]
    decide
  have refused : sysMmapUser fuel s p.t p.headRegion call.mmapStart block (pageDown phdr.pVaddr)
      (pageUp phdr.pMemsz) (elfPfToProt phdr.pFlags ||| protW) mapFixed = some (mapFailed, s) := by
    simp only [sysMmapUser, genericMmap, nothing, true_or, if_true]
  simp only [loadSegment, refused, true_or, if_true]

/-- A segment in page 0 is mapped, and then taken for a failure. -/
theorem loadSegment_pageZero (start : LoadStart call p s₀ pool₀)
    (loaded : Loaded call p s₀ pool₀ bound done s pool pages)
    (few : n < 2 ^ 16) (fill : RegionsFill p.headRegion call.blocks n bound s.regions)
    (enough : pageCount phdr.pMemsz ≤ pool.free.card) (above : bound ≤ (pageDown phdr.pVaddr).toNat)
    (inside : segmentEnd phdr ≤ 2 ^ 23)
    (positive : 0 < phdr.pMemsz.toNat) (zero : pageDown phdr.pVaddr = 0) :
    ∃ s', Returns (fun fuel => loadSegment fuel call p (call.blocks n) phdr s) (-enomem, s') := by
  obtain ⟨s', _, _, ⟨k, ran⟩, _, _⟩ :=
    mapSegment_spec start loaded few fill enough above inside positive (elfPfToProt phdr.pFlags ||| protW)
  refine ⟨s', k, fun fuel more => ?_⟩
  have refused : pageDown phdr.pVaddr = mapFailed ∨ pageDown phdr.pVaddr = 0 := Or.inr zero
  simp only [loadSegment, ran fuel more, if_pos refused]

end RealmVm
