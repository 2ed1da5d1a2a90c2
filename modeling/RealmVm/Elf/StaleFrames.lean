import RealmVm.Elf.LoadedImage
import RealmVm.Vma.CreatedSpace

/-! `load_executable` against the file it loads, whatever the frames held before. -/
namespace RealmVm

open Lib Lib.Bits

def AddressSpace.withWord (s : AddressSpace) (word : Word → Word) : AddressSpace :=
  { s with memory := { s.memory with word := word } }

@[simp] theorem AddressSpace.withWord_word (s : AddressSpace) (word : Word → Word) :
    (s.withWord word).memory.word = word := rfl

/-- Memory that differs in the free frames only. -/
def DiffersInFrames (pool : Pool Word) (s : AddressSpace) (word : Word → Word) : Prop :=
  ∀ a, (∀ f ∈ pool.free, ¬ InFrame f a) → word a = s.memory.word a

/- The byte the process reads at `n`. -/
def userByte (m : Memory) (t : TranslationTables) (n : Nat) : Option Byte :=
  (walk m.word t.pgd (BitVec.ofNat 64 n)).map (WordBytes.byte m.word)

/-- What the file describes: its bytes, zeros behind them, and every page mapped. -/
structure ImageLoaded (call : LoadCall) (m₀ : Memory) (t : TranslationTables) (m : Memory) : Prop where
  file : ∀ phdr ∈ call.segments m₀, ∀ k < phdr.pFilesz.toNat,
    userByte m t (phdr.pVaddr.toNat + k) = some (call.image m₀ (phdr.pOffset + BitVec.ofNat 64 k))
  zero : ∀ phdr ∈ call.segments m₀, ∀ k, phdr.pFilesz.toNat ≤ k → k < phdr.pMemsz.toNat →
    userByte m t (phdr.pVaddr.toNat + k) = some 0
  mapped : ∀ phdr ∈ call.segments m₀, ∀ k < phdr.pMemsz.toNat,
    (walk m.word t.pgd (pageDown (BitVec.ofNat 64 (phdr.pVaddr.toNat + k)))).isSome

/-- Every call that returns 0 leaves the image, for any content of the free frames. -/
def LoadsImage (call : LoadCall) (p : Process) (s : AddressSpace) (pool : Pool Word) : Prop :=
  ∀ word, DiffersInFrames pool s word → ∀ p' s',
    Returns (fun fuel => loadExecutable fuel call p (s.withWord word)) (0, p', s') →
      ImageLoaded call s.memory p'.t s'.memory

/-- The file is no executable, or has a segment that cannot be loaded. -/
def LoadCall.Refused (call : LoadCall) (m : Memory) : Prop :=
  ¬ call.Executable m ∨ ∃ phdr ∈ call.segments m, ¬ Loadable phdr

/-- The segment starts at a page and is in the file as a whole. -/
def WholePages (phdr : Phdr) : Prop := phdr.pVaddr.toNat % 4096 = 0 ∧ phdr.pFilesz = phdr.pMemsz

def EndsBelow (limit : Nat) (phdr : Phdr) : Prop := phdr.pVaddr.toNat + phdr.pMemsz.toNat ≤ limit

instance (limit : Nat) (phdr : Phdr) : Decidable (EndsBelow limit phdr) := Nat.decLe _ _

instance (call : LoadCall) (m : Memory) : Decidable (call.Executable m) := inferInstanceAs (Decidable (_ ∨ _))

variable {call : LoadCall} {p : Process} {s s' : AddressSpace} {pool pool' : Pool Word} {word : Word → Word}
  {bound : Nat} {done : List Phdr} {pages : PageMap} {phdr : Phdr}

section Content

theorem LoadReady.withWord (ready : LoadReady call p s pool) (differs : DiffersInFrames pool s word) :
    LoadReady call p (s.withWord word) pool := by
  have same : ∀ l, ∀ i < userPages l * 512, entry (s.withWord word).memory p.t l i = entry s.memory p.t l i := by
    intro l i inside
    refine differs _ fun f free within => ?_
    exact ready.start.frame_elsewhere ready.laid free within l i inside rfl
  obtain ⟨⟨lower, fresh, tracks, physical, apart, data⟩, buffer, hasData, laid, empty, writable, unmapped,
    alone⟩ := ready
  refine ⟨⟨lower, fresh, tracks, physical, apart, data⟩, buffer, hasData, laid.of_pa rfl, ?_, ?_, unmapped, alone⟩
  · intro l i inside
    rw [same l i inside]
    exact empty l i inside
  · intro l upper i inside
    rw [same l i inside]
    exact writable l upper i inside

/-- The data are in no free frame. -/
theorem LoadReady.image_same (ready : LoadReady call p s pool) (differs : DiffersInFrames pool s word) {i : Nat}
    (inside : i < call.size.toNat) :
    call.image (s.withWord word).memory (BitVec.ofNat 64 i) = call.image s.memory (BitVec.ofNat 64 i) := by
  apply WordBytes.byte_congr
  refine differs _ fun f free within => ?_
  exact (ready.start.data i inside).2 f free (inFrame_of_wordOf (ready.start.frame free).1 within)

theorem LoadReady.header_same (ready : LoadReady call p s pool) (differs : DiffersInFrames pool s word) :
    call.header (s.withWord word).memory = call.header s.memory := by
  funext i
  unfold LoadCall.header
  split
  · rename_i inData
    have small : i.toNat < call.size.toNat := inData.2
    have same := ready.image_same differs small
    rwa [BitVec.ofNat_toNat, BitVec.setWidth_eq] at same
  · rfl

/-- What the process reads is what its page holds. -/
theorem Backed.userByte_eq {m : Memory} {t : TranslationTables} (backed : Backed m t pages) (lower : t.startVa = 0)
    {n : Nat} (near : n < 2 ^ 48) : userByte m t n = (pageByte pages n).map (WordBytes.byte m.word) := by
  have place : (BitVec.ofNat 64 n).toNat = n := Nat.mod_eq_of_lt (by omega)
  have found : walk m.word t.pgd (BitVec.ofNat 64 n) = _ := backed.walk_eq lower (by omega)
  rw [pageNumber, place] at found
  rw [userByte, found]
  rfl

theorem Loaded.userByte_eq (start : LoadStart call p s pool) (loaded : Loaded call p s pool bound done s' pool' pages)
    {n : Nat} (lower : n < 2 ^ 48) :
    userByte s'.memory p.t n = (pageByte pages n).map (WordBytes.byte s'.memory.word) :=
  loaded.backed.userByte_eq start.lower lower

theorem LoadReady.segments_same (ready : LoadReady call p s pool) (differs : DiffersInFrames pool s word) :
    call.segments (s.withWord word).memory = call.segments s.memory := by
  rw [LoadCall.segments, ready.header_same differs, LoadCall.segments]

end Content

section Whole

theorem pageDown_whole (whole : WholePages phdr) : pageDown phdr.pVaddr = phdr.pVaddr := by
  have down := pageDown_toNat phdr.pVaddr
  have aligned := whole.1
  apply BitVec.eq_of_toNat_eq
  omega

/-- Segments of whole pages are in memory as the file describes them. -/
theorem Loaded.whole (start : LoadStart call p s pool) (loaded : Loaded call p s pool bound done s' pool' pages)
    (order : SegmentsInOrder call (2 ^ 23) done) {phdr : Phdr} (member : phdr ∈ done) (whole : WholePages phdr) :
    (∀ k < phdr.pFilesz.toNat, userByte s'.memory p.t (phdr.pVaddr.toNat + k) =
      some (call.image s.memory (phdr.pOffset + BitVec.ofNat 64 k))) ∧
    ∀ k < phdr.pMemsz.toNat,
      (walk s'.memory.word p.t.pgd (pageDown (BitVec.ofNat 64 (phdr.pVaddr.toNat + k)))).isSome := by
  have inside := order.inside phdr member
  have size : phdr.pFilesz.toNat = phdr.pMemsz.toNat := congrArg BitVec.toNat whole.2
  have content := loaded.segments phdr member
  rw [SegmentIn, pageDown_whole whole] at content
  have pages : phdr.pMemsz.toNat ≤ 4096 * pageCount phdr.pMemsz := by
    unfold pageCount
    omega
  constructor
  · intro k small
    obtain ⟨a, found, value⟩ := content k (by omega)
    rw [if_pos small] at value
    rw [loaded.userByte_eq start (by omega), found, Option.map_some, value]
  · intro k small
    obtain ⟨a, found, _⟩ := content k (by omega)
    obtain ⟨x, page, _⟩ := pageByte_frame loaded.backed found
    have place : (BitVec.ofNat 64 (phdr.pVaddr.toNat + k)).toNat = phdr.pVaddr.toNat + k :=
      Nat.mod_eq_of_lt (by omega)
    have down := pageDown_toNat (BitVec.ofNat 64 (phdr.pVaddr.toNat + k))
    rw [place] at down
    have number : pageNumber (pageDown (BitVec.ofNat 64 (phdr.pVaddr.toNat + k))) = (phdr.pVaddr.toNat + k) / 4096 := by
      unfold pageNumber
      omega
    rw [loaded.backed.walk_eq start.lower (by omega), number, page]
    rfl

/-- A file that is refused is refused with any content of the frames. -/
theorem loadsImage_of_refused (ready : LoadReady call p s pool)
    (order : SegmentsInOrder call (2 ^ 23) (call.segments s.memory))
    (enough : framesFor (call.segments s.memory) + 4 ≤ pool.free.card) (refused : call.Refused s.memory) :
    LoadsImage call p s pool := by
  intro word differs p' s' returned
  have same := ready.segments_same differs
  rw [← same] at order enough
  refine absurd returned (loadExecutable_fails (ready.withWord differs) order enough ?_)
  rw [same, LoadCall.Executable, ready.header_same differs]
  exact refused

/-- A file that is not refused is loaded, with any content of the frames. -/
theorem LoadReady.runs (ready : LoadReady call p s pool) (differs : DiffersInFrames pool s word)
    (order : SegmentsInOrder call stackLow (call.segments s.memory))
    (enough : framesFor (call.segments s.memory) + 4 ≤ pool.free.card) (accepted : ¬ call.Refused s.memory) :
    ∃ q p' s' pool' pages', Returns (fun fuel => loadExecutable fuel call p (s.withWord word)) (0, p', s') ∧
      q.t = p.t ∧ p'.t = p.t ∧ LoadStart call q (s.withWord word) pool ∧
      Loaded call q (s.withWord word) pool (stackLow + 4096 * 4) (call.segments s.memory) s' pool' pages' ∧
      ∀ n, (pages' n).isSome → stackLow ≤ 4096 * n ∨ ∃ phdr ∈ call.segments s.memory, Covers phdr n := by
  have ready' := ready.withWord differs
  have executable : call.Executable (s.withWord word).memory := by
    rw [LoadCall.Executable, ready.header_same differs]
    by_contra other
    exact accepted (Or.inl other)
  have loadable : ∀ phdr ∈ call.segments s.memory, Loadable phdr := by
    intro phdr member
    by_contra unloadable
    exact accepted (Or.inr ⟨phdr, member, unloadable⟩)
  rw [← ready.segments_same differs] at order enough loadable ⊢
  obtain ⟨p', s', pool', pages', ran, tables, loaded, only⟩ :=
    loadExecutable_spec ready' executable order enough loadable
  exact ⟨{ p with entry := eEntry (call.header (s.withWord word).memory) 0 }, p', s', pool', pages', ran, rfl, tables,
    (ready'.withEntry _).start, loaded, only⟩

theorem loadsImage_of_whole (ready : LoadReady call p s pool)
    (order : SegmentsInOrder call (2 ^ 23) (call.segments s.memory))
    (enough : framesFor (call.segments s.memory) + 4 ≤ pool.free.card)
    (whole : ∀ phdr ∈ call.segments s.memory, WholePages phdr ∧ EndsBelow stackLow phdr) :
    LoadsImage call p s pool := by
  by_cases refused : call.Refused s.memory
  · exact loadsImage_of_refused ready order enough refused
  intro word differs p' s' returned
  have below : SegmentsInOrder call stackLow (call.segments s.memory) :=
    ⟨order.fits, order.ascending, fun phdr member => (whole phdr member).2⟩
  obtain ⟨q, q', t', pool', pages', ran, tables, tables', start, loaded, _⟩ :=
    ready.runs differs below enough refused
  have result := returned.unique ran
  obtain ⟨rfl, rfl⟩ : p' = q' ∧ s' = t' := by
    simpa using result
  rw [tables', ← tables]
  refine ⟨fun phdr member k small => ?_, fun phdr member k behind inside => ?_, fun phdr member k small => ?_⟩
  · have fits := order.fits phdr member
    have filled := fits.filled
    have inData := fits.inData
    have offset : phdr.pOffset + BitVec.ofNat 64 k = BitVec.ofNat 64 (phdr.pOffset.toNat + k) := by
      bv_omega
    have read := (loaded.whole start order member (whole phdr member).1).1 k small
    rw [offset, ready.image_same differs (by omega), ← offset] at read
    exact read
  · have size : phdr.pFilesz.toNat = phdr.pMemsz.toNat := congrArg BitVec.toNat (whole phdr member).1.2
    omega
  · exact (loaded.whole start order member (whole phdr member).1).2 k small

end Whole

section Stale

instance (f a : Word) : Decidable (InFrame f a) := inferInstanceAs (Decidable (_ ∧ _))

/-- Every word of the free frames holds `c`. -/
def fillFrames (pool : Pool Word) (c : Word) (word : Word → Word) : Word → Word := fun a =>
  if ∃ f ∈ pool.free, InFrame f a then c else word a

theorem fillFrames_inside {f a : Word} (free : f ∈ pool.free) (within : InFrame f a) (c : Word) (word : Word → Word) :
    fillFrames pool c word a = c :=
  if_pos ⟨f, free, within⟩

theorem differs_fillFrames (pool : Pool Word) (s : AddressSpace) (c : Word) :
    DiffersInFrames pool s (fillFrames pool c s.memory.word) := by
  intro a outside
  refine if_neg ?_
  rintro ⟨f, free, within⟩
  exact outside f free within

/-- Every byte is missed by some content. -/
theorem exists_byte_ne (b : Byte) :
    ∃ c : Word, ∀ word a, word (WordBytes.wordOf a) = c → WordBytes.byte word a ≠ b := by
  cases decEq b 0 with
  | isTrue zero =>
    refine ⟨BitVec.allOnes 64, fun word a content equal => ?_⟩
    have low := WordBytes.lowBit_le a
    have bit : (WordBytes.byte word a).getLsbD 0 = true := by
      rw [WordBytes.byte, content, BitVec.getLsbD_extractLsb', BitVec.getLsbD_allOnes]
      simp only [Nat.zero_lt_succ, decide_true, Bool.true_and, decide_eq_true_eq]
      omega
    rw [equal, zero] at bit
    cases bit
  | isFalse other =>
    refine ⟨0, fun word a content equal => other (equal.symm.trans ?_)⟩
    rw [WordBytes.byte, content]
    exact BitVec.extractLsb'_zero

/-- A byte that is not copied: nothing, or what its frame held before. -/
theorem Loaded.stale_byte (start : LoadStart call p s pool)
    (loaded : Loaded call p s pool bound done s' pool' pages) (order : SegmentsInOrder call stackLow done)
    (only : ∀ q, (pages q).isSome → stackLow ≤ 4096 * q ∨ ∃ phdr ∈ done, Covers phdr q)
    {c : Word} (filled : ∀ f ∈ pool.free, ∀ a, InFrame f a → s.memory.word a = c)
    {b : Byte} (other : ∀ word a, word (WordBytes.wordOf a) = c → WordBytes.byte word a ≠ b)
    {phdr : Phdr} (member : phdr ∈ done) {k : Nat} (small : k < phdr.pMemsz.toNat)
    (behind : phdr.pFilesz.toNat ≤ phdr.pVaddr.toNat % 4096 + k) :
    userByte s'.memory p.t (phdr.pVaddr.toNat + k) ≠ some b := by
  have inside := order.inside phdr member
  have down := pageDown_toNat phdr.pVaddr
  have limit : stackLow = 0x7fb000 := rfl
  have place : (pageDown phdr.pVaddr).toNat + (phdr.pVaddr.toNat % 4096 + k) = phdr.pVaddr.toNat + k := by omega
  rw [loaded.userByte_eq start (by omega)]
  intro read
  obtain ⟨a, found, value⟩ := Option.map_eq_some_iff.mp read
  obtain ⟨x, page, _, aligned, within⟩ := pageByte_frame loaded.backed found
  have free := (loaded.given _ x page).1
  by_cases near : phdr.pVaddr.toNat % 4096 + k < 4096 * pageCount phdr.pMemsz
  · obtain ⟨a', found', content⟩ := loaded.segments phdr member _ near
    rw [place] at found'
    obtain rfl := Option.some.inj (found.symm.trans found')
    rw [if_neg (by omega)] at content
    exact other _ a (filled x.1 free _ (inFrame_wordOf aligned within)) (content.symm.trans value)
  · -- the pages of the segment end before this byte
    have ends : segmentEnd phdr ≤ 4096 * ((phdr.pVaddr.toNat + k) / 4096) := by
      unfold segmentEnd
      omega
    have covered : Covers phdr ((phdr.pVaddr.toNat + k) / 4096) := by
      cases only _ (Option.isSome_of_mem page) with
      | inl stack => omega
      | inr segment =>
        obtain ⟨next, second, covers⟩ := segment
        exact order.below.covers member second covers (by omega) (by omega)
    have last := covered.2
    omega

/-- An image below the stack that is there whatever the frames held has only whole pages. -/
theorem whole_of_loadsImage (ready : LoadReady call p s pool)
    (order : SegmentsInOrder call (2 ^ 23) (call.segments s.memory))
    (enough : framesFor (call.segments s.memory) + 4 ≤ pool.free.card)
    (below : ∀ phdr ∈ call.segments s.memory, EndsBelow stackLow phdr) (loads : LoadsImage call p s pool)
    (accepted : ¬ call.Refused s.memory) : ∀ phdr ∈ call.segments s.memory, WholePages phdr := by
  have order : SegmentsInOrder call stackLow (call.segments s.memory) := ⟨order.fits, order.ascending, below⟩
  -- every byte that the file describes is copied
  have copied : ∀ phdr ∈ call.segments s.memory, ∀ k < phdr.pMemsz.toNat, ∀ b,
      (∀ m t, ImageLoaded call s.memory t m → userByte m t (phdr.pVaddr.toNat + k) = some b) →
      phdr.pVaddr.toNat % 4096 + k < phdr.pFilesz.toNat := by
    intro phdr member k small b expected
    by_contra behind
    obtain ⟨c, other⟩ := exists_byte_ne b
    have differs := differs_fillFrames pool s c
    obtain ⟨q, p', s', pool', pages', ran, tables, tables', start, loaded, only⟩ :=
      ready.runs differs order enough accepted
    have filled : ∀ f ∈ pool.free, ∀ a, InFrame f a →
        (s.withWord (fillFrames pool c s.memory.word)).memory.word a = c := by
      intro f free a within
      rw [AddressSpace.withWord_word]
      exact fillFrames_inside free within c s.memory.word
    have image := loads _ differs p' s' ran
    rw [tables', ← tables] at image
    exact loaded.stale_byte start order only filled other member small (Nat.le_of_not_lt behind)
      (expected _ _ image)
  intro phdr member
  obtain ⟨positive, _⟩ : Loadable phdr := by
    by_contra unloadable
    exact accepted (Or.inr ⟨phdr, member, unloadable⟩)
  have filled := (order.fits phdr member).filled
  have size : phdr.pFilesz = phdr.pMemsz := by
    by_contra shorter
    have less : phdr.pFilesz.toNat < phdr.pMemsz.toNat := by bv_omega
    have first := copied phdr member phdr.pFilesz.toNat less 0 fun m t image =>
      image.zero phdr member _ (Nat.le_refl _) less
    omega
  refine ⟨?_, size⟩
  have same := congrArg BitVec.toNat size
  have last := copied phdr member (phdr.pFilesz.toNat - 1) (by omega) _ fun m t image =>
    image.file phdr member (phdr.pFilesz.toNat - 1) (by omega)
  omega

end Stale

/-- The image is there if all its segments are whole pages below the stack; without the pages
of the stack in it, only then. -/
theorem whole_pages_loaded (ready : LoadReady call p s pool)
    (order : SegmentsInOrder call (2 ^ 23) (call.segments s.memory))
    (enough : framesFor (call.segments s.memory) + 4 ≤ pool.free.card) :
    ((call.Refused s.memory ∨ ∀ phdr ∈ call.segments s.memory, WholePages phdr ∧ EndsBelow stackLow phdr) →
      LoadsImage call p s pool) ∧
    ((∀ phdr ∈ call.segments s.memory, EndsBelow stackLow phdr) → LoadsImage call p s pool →
      call.Refused s.memory ∨ ∀ phdr ∈ call.segments s.memory, WholePages phdr ∧ EndsBelow stackLow phdr) := by
  constructor
  · rintro (refused | whole)
    · exact loadsImage_of_refused ready order enough refused
    · exact loadsImage_of_whole ready order enough whole
  · intro below loads
    by_cases refused : call.Refused s.memory
    · exact Or.inl refused
    · have whole := whole_of_loadsImage ready order enough below loads refused
      exact Or.inr fun phdr member => ⟨whole phdr member, below phdr member⟩

/- A file of 128 bytes: a header, a program header, and eight bytes for page 1. `p_filesz`
of them are loaded. -/
def smallFile (filesz : Word) : List Word :=
  [0x00010102464C457F, 0, 0x0000000100B70002, 0x1000, 0x40, 0, 0x0038004000000000, 1,
    0x600000001, 0x78, 0x1000, 0, filesz, 8, 8, 0]

def smallWord (filesz : Word) : Word → Word := fun a =>
  if a.toNat < 0x800000 then 0 else (smallFile filesz).getD ((a.toNat - 0x800000) / 8) 0

def smallTables : TranslationTables := ⟨0x1000, 0x2000, 0x3000, 0x4000, 0, 0, 0x1000, 0x2000, 0x3000, 0x4000⟩

def smallSpace (filesz : Word) : AddressSpace := ⟨⟨smallWord filesz, id⟩, bareSecureFrames, fun _ => noRegion⟩

def smallProcess : Process := ⟨smallTables, 0x80C00, 0, 0, 0⟩

def smallPool : Pool Word := Pool.empty (arena bareSecureFrames)

def smallLoad : LoadCall where
  data := 0x800000
  size := 0x80
  buf := 0x900000
  behind := fun _ => 0
  count := 0
  blocks i := 0xA00000 + 0x40 * BitVec.ofNat 64 i
  mmapStart := 0
  ttbr1 := 0x8000
  attributes := 0

theorem smallTables_laidOut (word : Word → Word) : LaidOut ⟨word, id⟩ smallTables userPages where
  aligned l := by cases l <;> rfl
  bounded l := by cases l <;> decide
  apart l l' := by cases l <;> cases l' <;> decide
  visible l i _ := by cases l <;> rfl

theorem smallTables_low (l : Level) : (smallTables.base l).toNat + userPages l * 4096 ≤ 0x8000 := by
  cases l <;> decide

theorem smallPool_tracks : Tracks bareSecureFrames smallPool :=
  kframeAllocatorInit_tracks bareFrames (fun _ => 0xFF) 16 0x1000000 0x10000 (by decide) (by decide) (by decide)
    (by decide)

theorem smallPool_card : smallPool.free.card = 16 := by
  rw [← smallPool_tracks.counted]
  decide

theorem smallPool_high {f : Word} (free : f ∈ smallPool.free) : 0x1000000 ≤ f.toNat := by
  obtain ⟨k, small, rfl⟩ := place_of_free smallPool_tracks free
  have start : bareSecureFrames.frameStart.toNat = 0x1000000 := by decide
  rw [smallPool_tracks.fits.frameAddress_toNat (Nat.le_of_lt small)]
  omega

/-- The state with a file of 128 bytes, whatever is in it, and zeros below it. -/
theorem smallLoad_ready {word : Word → Word} (zero : ∀ a, a.toNat < 0x800000 → word a = 0) :
    LoadReady smallLoad smallProcess ⟨⟨word, id⟩, bareSecureFrames, fun _ => noRegion⟩ smallPool := by
  have laid := smallTables_laidOut word
  have entries : ∀ l, ∀ i < userPages l * 512, entry ⟨word, id⟩ smallTables l i = 0 := by
    intro l i inside
    have place := laid.entryAddress_toNat inside
    have low := smallTables_low l
    exact zero _ (by omega)
  have blocks (i : Nat) : smallLoad.blocks i = 0xA00000 + 0x40 * BitVec.ofNat 64 i := rfl
  have head : smallProcess.headRegion = 0x80C00 := rfl
  have fresh : FreshBlocks smallProcess.headRegion smallLoad.blocks := by
    refine ⟨by decide, fun i small => ?_, fun i small j small' same => ?_⟩
    · rw [blocks, head]
      constructor <;> bv_omega
    · rw [blocks, blocks] at same
      bv_omega
  have physical : bareSecureFrames.frameStart.toNat + bareSecureFrames.frameCount.toNat * 4096 ≤ 2 ^ 48 := by decide
  have place (i : Nat) (small : i < 0x80) : (0x800000 + BitVec.ofNat 64 i : Word).toNat = 0x800000 + i := by
    bv_omega
  refine ⟨⟨rfl, fresh, smallPool_tracks, physical, fun f free l => ?_, fun i small => ⟨?_, fun f free within => ?_⟩⟩,
    by decide, by decide, laid, fun l i inside => ?_, fun l _ i inside => ?_, rfl, rfl⟩
  · have high := smallPool_high free
    have low := smallTables_low l
    right
    exact Nat.le_trans low (Nat.le_trans (by decide) high)
  · intro l n inside equal
    have table := laid.entryAddress_toNat inside
    have low := smallTables_low l
    have down := WordBytes.wordOf_toNat (0x800000 + BitVec.ofNat 64 i)
    have equal' : WordBytes.wordOf (0x800000 + BitVec.ofNat 64 i) =
        entryAddress (smallTables.base l) (BitVec.ofNat 64 n) := equal
    rw [place i small, equal', table] at down
    omega
  · have high := smallPool_high free
    have first : f.toNat ≤ (0x800000 + BitVec.ofNat 64 i : Word).toNat := within.1
    rw [place i small] at first
    have few : i < 0x80 := small
    omega
  · have none : entry ⟨word, id⟩ smallProcess.t l i = 0 := entries l i inside
    rw [none]
    decide
  · have none : entry ⟨word, id⟩ smallProcess.t l i = 0 := entries l i inside
    rw [none]
    decide

/- Any other file in the place of the small one. -/
def fileWord (file : List Word) : Word → Word := fun a =>
  if a.toNat < 0x800000 then 0 else file.getD ((a.toNat - 0x800000) / 8) 0

def fileSpace (file : List Word) : AddressSpace := ⟨⟨fileWord file, id⟩, bareSecureFrames, fun _ => noRegion⟩

theorem fileSpace_ready (file : List Word) : LoadReady smallLoad smallProcess (fileSpace file) smallPool :=
  smallLoad_ready fun _ low => if_pos low

theorem smallSpace_ready (filesz : Word) : LoadReady smallLoad smallProcess (smallSpace filesz) smallPool :=
  fileSpace_ready (smallFile filesz)

/- Eight bytes of memory with `filesz` of them from the file. -/
def smallSegment (filesz : Word) : Phdr := ⟨1, 6, 0x78, 0x1000, filesz, 8, 8⟩

theorem smallSegment_order (filesz : Word) (filled : filesz ≤ 8) :
    SegmentsInOrder smallLoad (2 ^ 23) [smallSegment filesz] ∧
      framesFor [smallSegment filesz] + 4 ≤ smallPool.free.card := by
  have length : filesz.toNat ≤ 8 := filled
  constructor
  · refine ⟨List.forall_mem_singleton.mpr ⟨length, ?_⟩, List.pairwise_singleton .., List.forall_mem_singleton.mpr ?_⟩
    · show 0x78 + filesz.toNat ≤ 0x80
      omega
    · show 0x1000 + 8 ≤ 2 ^ 23
      decide
  · have one : framesFor [smallSegment filesz] = 1 := by
      have page : pageCount 8 = 1 := by decide
      rw [framesFor_cons, smallSegment, page]
      rfl
    rw [one, smallPool_card]
    decide

theorem smallFile_segments : smallLoad.segments (smallSpace 8).memory = [smallSegment 8] ∧
    smallLoad.segments (smallSpace 4).memory = [smallSegment 4] := by
  decide +kernel

theorem whole_pages_loaded_small : LoadsImage smallLoad smallProcess (smallSpace 8) smallPool := by
  have segments := smallFile_segments.1
  have facts := smallSegment_order 8 (by decide)
  rw [← segments] at facts
  refine (whole_pages_loaded (smallSpace_ready 8) facts.1 facts.2).1 (Or.inr ?_)
  rw [segments]
  exact List.forall_mem_singleton.mpr ⟨⟨by decide, rfl⟩, by decide⟩

/-- Four bytes behind the four of the file: they hold what the frame held. -/
theorem stale_tail : LoadReady smallLoad smallProcess (smallSpace 4) smallPool ∧
    SegmentsInOrder smallLoad (2 ^ 23) (smallLoad.segments (smallSpace 4).memory) ∧
    framesFor (smallLoad.segments (smallSpace 4).memory) + 4 ≤ smallPool.free.card ∧
    ¬ LoadsImage smallLoad smallProcess (smallSpace 4) smallPool := by
  have segments := smallFile_segments.2
  have facts := smallSegment_order 4 (by decide)
  rw [← segments] at facts
  refine ⟨smallSpace_ready 4, facts.1, facts.2, fun loads => ?_⟩
  have below : ∀ phdr ∈ smallLoad.segments (smallSpace 4).memory, EndsBelow stackLow phdr := by
    rw [segments]
    exact List.forall_mem_singleton.mpr (by decide)
  have accepted : ¬ smallLoad.Refused (smallSpace 4).memory := by
    have executable : smallLoad.Executable (smallSpace 4).memory := by decide +kernel
    have loadable : Loadable (smallSegment 4) := by decide
    rw [LoadCall.Refused, segments]
    rintro (other | unloadable)
    · exact other executable
    · obtain ⟨phdr, member, refused⟩ := unloadable
      exact refused (List.mem_singleton.mp member ▸ loadable)
  have whole := whole_of_loadsImage (smallSpace_ready 4) facts.1 facts.2 below loads accepted
  rw [segments] at whole
  have size := (List.forall_mem_singleton.mp whole).2
  cases size

end RealmVm
