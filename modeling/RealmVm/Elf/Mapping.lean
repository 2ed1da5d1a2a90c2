import RealmVm.Elf.LoadExecutable
import RealmVm.Vma.MmapCalls
import RealmVm.Vma.UserPages

/-! The two steps of the loader's loop: `sys_mmap_user` for a range above all others, and
`copy_to_user` into pages just mapped. -/
namespace RealmVm

open Lib

/-- Pages that a size takes, rounded up. -/
def pageCount (size : Word) : Nat := (size.toNat + 4095) / 4096

section Mapping

variable {head : Word} {blocks : Nat → Word} {regions regions' : Regions} {n bound : Nat}

/-- The regions that `n` calls with the blocks `0` to `n - 1` leave: the first call takes the
head, and all of them end at `bound` or before. -/
structure RegionsFill (head : Word) (blocks : Nat → Word) (n bound : Nat) (regions : Regions) : Prop where
  list : ∃ ptrs, RegionChain regions head (head :: ptrs) ∧ (∀ q ∈ ptrs, ∃ i < n, blocks i = q) ∧
    ((n = 0 ∧ ptrs = [] ∧ (regions head).isMapped = 0) ∨ 0 < n ∧ (∀ q ∈ head :: ptrs, (regions q).isMapped ≠ 0) ∧
      ∀ q ∈ head :: ptrs, (regions q).vaBase.toNat + (regions q).vaSize.toNat ≤ bound)

/-- Blocks of `kcalloc`: proper, different, and none of them the head. `e_phnum` has 16 bits,
so that there are no more than 2^16 calls. -/
structure FreshBlocks (head : Word) (blocks : Nat → Word) : Prop where
  first : head ≠ 0
  proper : ∀ i < 2 ^ 16, blocks i ≠ 0 ∧ blocks i ≠ head
  different : ∀ i < 2 ^ 16, ∀ j < 2 ^ 16, blocks i = blocks j → i = j

variable {t : TranslationTables} {s : AddressSpace} {p : Pool Word} {pages : PageMap} {base size : Word}

/-- The first call describes its range in the head. -/
theorem RegionsFill.first {prot : CInt} (chain : RegionChain regions head [head]) (n : Nat)
    (recorded : regions' = regions.record head base 0 1 size prot) :
    RegionsFill head blocks (n + 1) (base.toNat + size.toNat) regions' := by
  have written : regions' head = { regions head with
      isKernel := 0
      isSecure := 1
      vaSize := size
      perm := prot
      vaBase := base
      isMapped := 1 } := by
    rw [recorded]
    exact Function.update_self ..
  refine ⟨[], ?_, fun q member => (nomatch member), .inr ⟨Nat.succ_pos n, ?_, ?_⟩⟩
  · refine chain.frame fun q member => ?_
    obtain rfl := List.mem_singleton.mp member
    show (regions' q).next = (regions q).next
    rw [written]
  · intro q member
    obtain rfl := List.mem_singleton.mp member
    rw [written]
    exact (by decide : (1 : CInt) ≠ 0)
  · intro q member
    obtain rfl := List.mem_singleton.mp member
    rw [written]

/-- The later ones do so in a block of their own, at the end of the list. -/
theorem RegionsFill.later {prot : CInt} {ptrs pre : List Word} {last : Word} (split : head :: ptrs = pre ++ [last])
    (chain : RegionChain regions head (head :: ptrs)) (known : ∀ q ∈ ptrs, ∃ i < n, blocks i = q)
    (mapped : ∀ q ∈ head :: ptrs, (regions q).isMapped ≠ 0)
    (below : ∀ q ∈ head :: ptrs, (regions q).vaBase.toNat + (regions q).vaSize.toNat ≤ bound)
    (above : bound ≤ base.toNat) (unused : blocks n ∉ head :: ptrs) (proper : blocks n ≠ 0)
    (recorded : regions' = Regions.record (Function.update regions (blocks n) noRegion) (blocks n) base 0 1 size prot) :
    RegionsFill head blocks (n + 1) (base.toNat + size.toNat) (regions'.setNext last (blocks n)) := by
  have whole : pre ++ [last, blocks n] = head :: (ptrs ++ [blocks n]) := by
    rw [← List.cons_append, split, List.append_assoc]
    rfl
  rw [split] at chain mapped unused
  obtain ⟨chain', mapped'⟩ := recorded_list recorded chain mapped unused proper
  rw [whole] at chain' mapped'
  refine ⟨ptrs ++ [blocks n], chain', ?_, .inr ⟨Nat.succ_pos n, mapped', ?_⟩⟩
  · intro q member
    cases List.mem_append.mp member with
    | inl old =>
      obtain ⟨i, small, same⟩ := known q old
      exact ⟨i, Nat.lt_succ_of_lt small, same⟩
    | inr new => exact ⟨n, Nat.lt_succ_self n, (List.mem_singleton.mp new).symm⟩
  · intro q member
    have members := setNext_members regions' last (blocks n) q
    rw [members.1, members.2.1, recorded, Regions.record]
    cases decEq q (blocks n) with
    | isTrue here => rw [here, Function.update_self]
    | isFalse other =>
      rw [Function.update_of_ne other, Function.update_of_ne other]
      have old : q ∈ head :: ptrs := by
        rw [← List.cons_append] at member
        exact (List.mem_append.mp member).resolve_right fun new => other (List.mem_singleton.mp new)
      exact Nat.le_trans (below q old) (Nat.le_trans above (Nat.le_add_right ..))

theorem pageUp_inside {x : Nat} (inside : x + 4096 * pageCount size ≤ 2 ^ 23) :
    (pageUp size).toNat = 4096 * pageCount size ∧ (pageUp size / pageSize4KB).toNat = pageCount size := by
  have small : size.toNat + 4095 < 2 ^ 64 := by
    unfold pageCount at inside
    omega
  exact ⟨(pageUp_toNat size small).trans (Nat.mul_comm ..), pageUp_count size small⟩

/-- A fixed range above all regions is mapped where it was asked for. -/
theorem sysMmapUser_spec (start : t.startVa = 0) (fresh : FreshBlocks head blocks)
    (few : n < 2 ^ 16) (fill : RegionsFill head blocks n bound s.regions) (backed : Backed s.memory t pages)
    (tracks : Tracks s.frames p)
    (physical : s.frames.frameStart.toNat + s.frames.frameCount.toNat * 4096 ≤ 2 ^ 48)
    (enough : pageCount size ≤ p.free.card) (aligned : base.toNat % 4096 = 0) (above : bound ≤ base.toNat)
    (positive : 0 < size.toNat) (inside : base.toNat + 4096 * pageCount size ≤ 2 ^ 23)
    (mmapStart : Word) (prot : CInt) :
    ∃ s' p' pages',
      Returns (fun fuel => sysMmapUser fuel s t head mmapStart (blocks n) base size prot mapFixed) (base, s') ∧
      RegionsFill head blocks (n + 1) (base.toNat + 4096 * pageCount size) s'.regions ∧
      PagesAdded t prot (pageNumber base) (pageCount size) (s.memory, s.frames) (s'.memory, s'.frames) p p' pages
        pages' := by
  obtain ⟨ptrs, chain, known, state⟩ := fill
  obtain ⟨rounded, count⟩ := pageUp_inside inside
  have nonempty : size ≠ 0 := by bv_omega
  have fixed : mapFixed &&& mapFixed ≠ 0 := by decide
  have loop (regions : Regions) := mapPages_backed start aligned prot (pageCount size) 0
    (s := { s with regions := regions }) backed tracks physical enough (by rw [Nat.zero_add]; exact inside)
  have zero : BitVec.ofNat 64 (4096 * 0) = 0 := rfl
  rw [← rounded]
  rcases state with ⟨none, rfl, unmapped⟩ | ⟨some, mapped, below⟩
  · obtain ⟨s', p', pages', ran, same, added⟩ :=
      loop (s.regions.record head base 0 1 (pageUp size) (Wrapper.user.flags prot))
    refine ⟨s', p', pages', ⟨0, fun fuel _ => ?_⟩, RegionsFill.first chain n same, added⟩
    rw [zero, ← count] at ran
    exact genericMmap_first fresh.first nonempty unmapped (if_pos fixed).symm ran same fuel
  · obtain ⟨pre, last, split⟩ : ∃ pre last, head :: ptrs = pre ++ [last] :=
      ⟨_, _, (List.dropLast_append_getLast (List.cons_ne_nil head ptrs)).symm⟩
    have length := congrArg List.length split
    rw [List.length_cons, List.length_append, List.length_singleton] at length
    have unused : blocks n ∉ head :: ptrs := by
      intro member
      cases List.mem_cons.mp member with
      | inl same => exact (fresh.proper n few).2 same
      | inr later =>
        obtain ⟨i, small, same⟩ := known _ later
        have equal := fresh.different i (by omega) n few same
        omega
    have under : Below s.regions (head :: ptrs) base := fun q member => Nat.le_trans (below q member) above
    have fits : base.toNat + (pageUp size).toNat < 2 ^ 64 := by omega
    have long : 0 < (pageUp size).toNat := by
      unfold pageCount at rounded
      omega
    obtain ⟨regions, recorded⟩ : ∃ regions, regions = Regions.record (Function.update s.regions (blocks n) noRegion)
      (blocks n) base 0 1 (pageUp size) (Wrapper.user.flags prot) := ⟨_, rfl⟩
    obtain ⟨s', p', pages', ran, same, added⟩ := loop regions
    have search : ∀ fuel, ptrs.length < fuel →
        (if mapFixed &&& mapFixed ≠ 0 then searchMmapRegionFixed fuel s.regions head base (pageUp size)
          else searchMmapRegion fuel s.regions head (pageUp size)) = Option.some 0 := by
      intro fuel enough
      rw [if_pos fixed]
      exact searchMmapRegionFixed_past chain under long fits enough
    have proper := (fresh.proper n few).1
    have filled := RegionsFill.later split chain known mapped below above unused proper recorded
    have first := mapped head List.mem_cons_self
    rw [split] at chain unused under
    refine ⟨{ s' with regions := regions.setNext last (blocks n) }, p', pages', ⟨ptrs.length, fun fuel enough => ?_⟩,
      filled, added⟩
    rw [zero, ← count] at ran
    exact genericMmap_next nonempty first chain unused proper fuel (by omega) (search fuel enough) under fits regions
      recorded ran same

/-- Without enough frames the call does not come back. -/
theorem sysMmapUser_none (fresh : FreshBlocks head blocks) (few : n < 2 ^ 16)
    (fill : RegionsFill head blocks n bound s.regions) (tracks : Tracks s.frames p)
    (short : p.free.card < pageCount size) (above : bound ≤ base.toNat)
    (inside : base.toNat + 4096 * pageCount size ≤ 2 ^ 23) (mmapStart : Word) (prot : CInt) :
    ∃ k, ∀ fuel, k < fuel → sysMmapUser fuel s t head mmapStart (blocks n) base size prot mapFixed = none := by
  obtain ⟨ptrs, chain, known, state⟩ := fill
  obtain ⟨rounded, count⟩ := pageUp_inside inside
  have nonempty : size ≠ 0 := by
    rintro rfl
    exact absurd short (by simp [pageCount])
  have proper : ¬ (size = 0 ∨ head = 0) := not_or.mpr ⟨nonempty, fresh.first⟩
  have fixed : mapFixed &&& mapFixed ≠ 0 := by decide
  have crash (region at_ : Word) (fuel : Nat) (regions : Regions) : startMapping fuel { s with regions := regions } t
      head region at_ 0 1 (pageUp size) (permToPt prot ||| ptUser) = none := by
    have loop : mapPages t at_ (permToPt prot ||| ptUser) (pageCount size) 0
        { s with regions := regions.record region at_ 0 1 (pageUp size) (permToPt prot ||| ptUser) } = none :=
      mapPages_none _ _ tracks short
    simp only [startMapping, count, loop]
  rcases state with ⟨none, rfl, unmapped⟩ | ⟨some, mapped, below⟩
  · refine ⟨0, fun fuel _ => ?_⟩
    simp only [sysMmapUser, genericMmap, if_neg proper, if_pos unmapped]
    exact crash head _ fuel s.regions
  · have under : Below s.regions (head :: ptrs) base := fun q member => Nat.le_trans (below q member) above
    have long : 0 < (pageUp size).toNat := by
      rw [rounded]
      omega
    have taken := mapped head List.mem_cons_self
    refine ⟨ptrs.length, fun fuel enough => ?_⟩
    have search := searchMmapRegionFixed_past chain under long (by omega) enough
    have free : ¬ (mapFixed &&& mapFixed ≠ 0 ∧ (0 : Word) = mapFailed) := fun both => absurd both.2 (by decide)
    simp only [sysMmapUser, genericMmap, if_neg proper, if_neg taken, if_pos fixed, search, if_neg free,
      if_neg (fresh.proper n few).1]
    exact crash _ _ fuel _

end Mapping

section Copy

/-- What the processor finds with these tables in TTBR0. -/
theorem Backed.translate_eq {t : TranslationTables} {m : Memory} {pages : PageMap} (backed : Backed m t pages)
    (start : t.startVa = 0) (ttbr1 : Word) {va : Word}
    (lower : va.toNat < 2 ^ 48) : Mmu.translate ⟨m.word, t.pgd, ttbr1⟩ va =
      (pages (pageNumber va)).map fun x => x.1 + BitVec.ofNat 64 (va.toNat % 4096) := by
  have laid := backed.own.laid
  have bounded : t.pgd.toNat + userPages .pgd * 4096 ≤ 2 ^ 48 := laid.bounded .pgd
  have one : userPages .pgd = 1 := rfl
  have base : Mmu.base ⟨m.word, t.pgd, ttbr1⟩ va = some t.pgd := base_lower (laid.aligned .pgd) (by omega) lower
  rw [Mmu.translate, base, Option.bind_some]
  exact backed.walk_eq start lower

def InFrame (f a : Word) : Prop := f.toNat ≤ a.toNat ∧ a.toNat < f.toNat + 4096

/-- Every page has a frame of its own, and none of them is one of the tables. -/
structure OwnFrames (t : TranslationTables) (pages : PageMap) : Prop where
  distinct : ∀ q r x y, pages q = some x → pages r = some y → x.1 = y.1 → q = r
  apart : ∀ q x, pages q = some x → ∀ l,
    x.1.toNat + 4096 ≤ (t.base l).toNat ∨ (t.base l).toNat + userPages l * 4096 ≤ x.1.toNat

/- The physical address of a byte of the process. -/
def pageByte (pages : PageMap) (n : Nat) : Option Word :=
  (pages (n / 4096)).map fun x => x.1 + BitVec.ofNat 64 (n % 4096)

variable {t : TranslationTables} {m : Memory} {pages : PageMap} {a : Word} {n k : Nat}

theorem pageByte_frame (backed : Backed m t pages) (found : pageByte pages n = some a) :
    ∃ x, pages (n / 4096) = some x ∧ a.toNat = x.1.toNat + n % 4096 ∧ x.1.toNat % 4096 = 0 ∧ InFrame x.1 a := by
  obtain ⟨x, page, rfl⟩ := Option.map_eq_some_iff.mp found
  obtain ⟨_, aligned, output⟩ := backed.frames _ x page
  have place : (x.1 + BitVec.ofNat 64 (n % 4096)).toNat = x.1.toNat + n % 4096 := by bv_omega
  refine ⟨x, page, place, aligned, ?_⟩
  unfold InFrame
  omega

/-- Different addresses of the process have different bytes. -/
theorem pageByte_injective (backed : Backed m t pages) (own : OwnFrames t pages) (first : pageByte pages n = some a)
    (second : pageByte pages k = some a) : n = k := by
  obtain ⟨x, pageX, placeX, alignedX, _⟩ := pageByte_frame backed first
  obtain ⟨y, pageY, placeY, alignedY, _⟩ := pageByte_frame backed second
  have frame : x.1 = y.1 := BitVec.eq_of_toNat_eq (by omega)
  have number := own.distinct _ _ x y pageX pageY frame
  rw [frame] at placeX
  omega

theorem inFrame_wordOf {f : Word} (aligned : f.toNat % 4096 = 0) (inside : InFrame f a) :
    InFrame f (WordBytes.wordOf a) := by
  have down := WordBytes.wordOf_toNat a
  unfold InFrame at *
  omega

theorem OwnFrames.elsewhere (own : OwnFrames t pages) (backed : Backed m t pages) {q : Nat} {x : Word × CInt}
    (page : pages q = some x) (inside : InFrame x.1 a) : Elsewhere t userPages a := by
  intro l i hi same
  have place := backed.own.laid.entryAddress_toNat hi
  have apart := own.apart q x page l
  rw [← same] at place
  unfold InFrame at inside
  omega

/-- Stores to the frames of a process leave its tables alone. -/
theorem Backed.write (backed : Backed m t pages) (own : OwnFrames t pages) (found : pageByte pages n = some a)
    (b : Byte) :
    Backed { m with word := WordBytes.setByte m.word a b } t pages := by
  obtain ⟨x, page, _, aligned, inside⟩ := pageByte_frame backed found
  have elsewhere := own.elsewhere backed page (inFrame_wordOf aligned inside)
  exact backed.of_entries rfl fun l i hi => WordBytes.setByte_elsewhere (elsewhere l i hi)

/-- A copy to pages that were mapped with PROT_W. What is copied from memory that is no frame of the process
stays as it was while it is copied. -/
theorem copyBytes_spec (start : t.startVa = 0) (own : OwnFrames t pages) (ttbr1 dst src : Word) (n i : Nat)
    (backed : Backed m t pages) (inside : dst.toNat + i + n ≤ 2 ^ 23)
    (mapped : ∀ j, i ≤ j → j < i + n → ∃ x, pages ((dst.toNat + j) / 4096) = some x ∧ protW &&& x.2 ≠ 0) :
    ∃ m', m.copyBytes t.pgd ttbr1 dst src n i = some m' ∧ m'.pa = m.pa ∧ Backed m' t pages ∧
      ((∀ j, i ≤ j → j < i + n → ∀ q x, pages q = some x → ¬ InFrame x.1 (m.pa (src + BitVec.ofNat 64 j))) →
        ∀ j, i ≤ j → j < i + n → ∀ a, pageByte pages (dst.toNat + j) = some a →
          WordBytes.byte m'.word a = m.kernelByte (src + BitVec.ofNat 64 j)) ∧
      (∀ a, (∀ j, i ≤ j → j < i + n → pageByte pages (dst.toNat + j) ≠ some a) →
        WordBytes.byte m'.word a = WordBytes.byte m.word a) ∧
      ∀ a, (∀ q x, pages q = some x → ¬ InFrame x.1 a) → m'.word a = m.word a := by
  induction n generalizing i m with
  | zero =>
    refine ⟨m, rfl, rfl, backed, ?_, fun _ _ => rfl, fun _ _ => rfl⟩
    intro _ j low high
    omega
  | succ n ih =>
    have ends : i + (n + 1) = i + 1 + n := by omega
    have more : dst.toNat + (i + 1) + n ≤ 2 ^ 23 := by omega
    have self : i < i + (n + 1) := by omega
    obtain ⟨x, page, write⟩ := mapped i (Nat.le_refl i) self
    have place : (dst + BitVec.ofNat 64 i).toNat = dst.toNat + i := by bv_omega
    have number : pageNumber (dst + BitVec.ofNat 64 i) = (dst.toNat + i) / 4096 := congrArg (· / 4096) place
    have lower : (dst + BitVec.ofNat 64 i).toNat < 2 ^ 48 := by omega
    obtain ⟨a, target⟩ : ∃ a, pageByte pages (dst.toNat + i) = some a := ⟨_, congrArg _ page⟩
    obtain ⟨y, pageY, _, aligned, within⟩ := pageByte_frame backed target
    have translated : Mmu.translate ⟨m.word, t.pgd, ttbr1⟩ (dst + BitVec.ofNat 64 i) = some a := by
      rw [backed.translate_eq start ttbr1 lower, number, place]
      exact target
    have permitted : Mmu.permits ⟨m.word, t.pgd, ttbr1⟩ .el1 true (dst + BitVec.ofNat 64 i) = true :=
      backed.permits start ttbr1 lower (number ▸ page) fun _ => write
    obtain ⟨b, byte⟩ : ∃ b, b = m.kernelByte (src + BitVec.ofNat 64 i) := ⟨_, rfl⟩
    obtain ⟨m', ran, pa, backed', copied, kept, outside⟩ := ih (i + 1) (backed.write own target b) more
      (fun j low high => mapped j (Nat.le_of_lt low) (ends ▸ high))
    refine ⟨m', ?_, pa, backed', ?_, ?_, ?_⟩
    · simp only [Memory.copyBytes, permitted, translated, ← byte, if_true]
      exact ran
    · intro source j low high c found
      have unread : Memory.kernelByte { m with word := WordBytes.setByte m.word a b } (src + BitVec.ofNat 64 j) =
          m.kernelByte (src + BitVec.ofNat 64 j) := by
        refine WordBytes.byte_setByte_of_ne fun same => ?_
        exact source j low high _ y pageY (same ▸ within)
      cases Nat.eq_or_lt_of_le low with
      | inl first =>
        subst first
        obtain rfl := Option.some.inj (target.symm.trans found)
        have later : ∀ j, i + 1 ≤ j → j < i + 1 + n → pageByte pages (dst.toNat + j) ≠ some a := by
          intro j low _ again
          exact Nat.ne_of_lt low (Nat.add_left_cancel (pageByte_injective backed own target again))
        rw [kept a later, WordBytes.byte_setByte, byte]
      | inr later =>
        rw [copied (fun j low high => source j (Nat.le_of_lt low) (ends ▸ high)) j later (ends ▸ high) c found]
        exact unread
    · intro c missed
      rw [kept c fun j low high => missed j (Nat.le_of_lt low) (ends ▸ high)]
      refine WordBytes.byte_setByte_of_ne fun same => ?_
      exact missed i (Nat.le_refl i) self (same ▸ target)
    · intro c missed
      rw [outside c missed]
      refine WordBytes.setByte_elsewhere fun same => ?_
      exact missed _ y pageY (same ▸ inFrame_wordOf aligned within)

/-- A copy that comes to a page that is not mapped faults. -/
theorem copyBytes_fault (start : t.startVa = 0) (own : OwnFrames t pages) (ttbr1 dst src : Word) (n i : Nat)
    (backed : Backed m t pages) {j : Nat} (low : i ≤ j) (high : j < i + n) (lower : dst.toNat + j < 2 ^ 48)
    (unmapped : pages ((dst.toNat + j) / 4096) = none) : m.copyBytes t.pgd ttbr1 dst src n i = none := by
  induction n generalizing i m with
  | zero => omega
  | succ n ih =>
    have place : (dst + BitVec.ofNat 64 i).toNat = dst.toNat + i := by bv_omega
    have near : (dst + BitVec.ofNat 64 i).toNat < 2 ^ 48 := by omega
    have number : pageNumber (dst + BitVec.ofNat 64 i) = (dst.toNat + i) / 4096 := congrArg (· / 4096) place
    have found := backed.translate_eq start ttbr1 near
    rw [number, place] at found
    cases permitted : Mmu.permits ⟨m.word, t.pgd, ttbr1⟩ .el1 true (dst + BitVec.ofNat 64 i) with
    | false => simp only [Memory.copyBytes, permitted, Bool.false_eq_true, if_false]
    | true =>
      cases target : pageByte pages (dst.toNat + i) with
      | none =>
        have nothing : Mmu.translate ⟨m.word, t.pgd, ttbr1⟩ (dst + BitVec.ofNat 64 i) = none := found.trans target
        simp only [Memory.copyBytes, permitted, if_true, nothing]
      | some a =>
        have translated : Mmu.translate ⟨m.word, t.pgd, ttbr1⟩ (dst + BitVec.ofNat 64 i) = some a := found.trans target
        have other : i ≠ j := by
          rintro rfl
          rw [pageByte, unmapped] at target
          cases target
        simp only [Memory.copyBytes, permitted, if_true, translated]
        exact ih (i + 1) (backed.write own target _) (by omega) (by omega)

end Copy

end RealmVm
