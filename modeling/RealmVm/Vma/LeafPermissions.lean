import RealmVm.Vma.MapThenWalk
import RealmVm.Vma.MmapCalls

/-! Which permissions the level-3 descriptors of the mapping functions carry. -/
namespace RealmVm

open Lib Lib.Bits

def Wants (bit prot : CInt) : Prop := bit &&& prot ≠ 0

instance (bit prot : CInt) : Decidable (Wants bit prot) := inferInstanceAs (Decidable (_ ≠ _))

/- The kernel's pointer to the level-3 entry of an address. -/
def leafSlot (t : TranslationTables) (va : Word) : Word :=
  entryAddress t.vaPt3 (vaOffset48L3 va + (va - t.startVa) / bytes2mb * 512)

/-- AP[1] is bit 6, AP[2] bit 7, and bit 54 forbids execution. -/
structure LeafRight (w : Wrapper) (prot : CInt) (pa desc : Word) : Prop where
  el0 : desc.getLsbD 6 = true ↔ w = .user
  readOnly : w ≠ .device → ¬ Wants protW prot → desc.getLsbD 7 = true
  noExecute : w = .device ∨ ¬ Wants protX prot → desc.getLsbD 54 = true
  output : field desc 12 36 = field pa 12 36

/-- The protections that the flags can say: execution with some other access. -/
def Expressible (w : Wrapper) (prot : CInt) : Prop :=
  w = .device ∨ Wants protX prot ∧ (Wants protR prot ∨ Wants protW prot)

instance (w : Wrapper) (prot : CInt) : Decidable (Expressible w prot) := inferInstanceAs (Decidable (_ ∨ _))

variable {m m' : Memory} {t : TranslationTables} {prot : CInt}

theorem store_load (m : Memory) (a v : Word) : (m.store a v).load a = v := Function.update_self ..

/-- A call that returns 0 leaves its descriptor in the level-3 entry. -/
theorem leaf_installed {c : MapCall} (mapped : mapStep t m c m') : m'.load (leafSlot t c.va) = c.leaf := by
  have called : pageTableMap m t c.va c.pa (c.wrapper.flags c.prot) c.wrapper.isDev = some (0, m') :=
    (c.perform_eq m t).symm.trans mapped
  obtain ⟨zero, low⟩ := tests_pass t c.va
  simp only [pageTableMap, if_neg zero, if_neg low] at called
  obtain ⟨_, rfl⟩ := Prod.mk.inj (Option.some.inj called)
  exact store_load _ _ _

/- What `perm_to_pt` keeps of a protection. -/
theorem permToPt_eq (prot : CInt) :
    permToPt prot = if Wants protR prot ∧ ¬ Wants protW prot then ptRo else 0 := by
  have zero : orAssign 0 (if protX &&& prot ≠ 0 then 0 else ptNx) = 0 := by
    split <;> decide
  simp only [permToPt, zero, Wants]
  by_cases write : protW &&& prot ≠ 0
  · simp only [write, ne_eq, not_false_eq_true, or_true, if_true, not_true_eq_false, and_false, if_false]
    rfl
  · have rw : ¬ protRw = prot := by
      rintro rfl
      exact write (by decide)
    have rwx : ¬ protRwx = prot := by
      rintro rfl
      exact write (by decide)
    simp only [rw, rwx, write, or_self, if_false, not_false_eq_true, and_true]
    split
    · decide
    · rfl

/- The three bits, for each function and each value of `perm_to_pt`. -/
theorem getLsbD_leaf (c : MapCall) : (c.leaf.getLsbD 6 = true ↔ c.wrapper = .user) ∧
    (c.leaf.getLsbD 7 = true ↔ Wants protR c.prot ∧ ¬ Wants protW c.prot) ∧
    (c.leaf.getLsbD 54 = true ↔ c.wrapper = .device) := by
  have own : ((leafAttributes (c.wrapper.flags c.prot) c.wrapper.isDev).getLsbD 6 = true ↔ c.wrapper = .user) ∧
      ((leafAttributes (c.wrapper.flags c.prot) c.wrapper.isDev).getLsbD 7 = true ↔ permToPt c.prot = ptRo) ∧
      ((leafAttributes (c.wrapper.flags c.prot) c.wrapper.isDev).getLsbD 54 = true ↔ c.wrapper = .device) := by
    cases permToPt_cases c.prot with
    | inl writable =>
      unfold Wrapper.flags
      cases c.wrapper <;> simp only [writable] <;> decide
    | inr readOnly =>
      unfold Wrapper.flags
      cases c.wrapper <;> simp only [readOnly] <;> decide
  have readOnly : permToPt c.prot = ptRo ↔ Wants protR c.prot ∧ ¬ Wants protW c.prot := by
    rw [permToPt_eq]
    split
    · rename_i yes
      exact iff_of_true rfl yes
    · rename_i no
      exact iff_of_false (by decide) no
  rw [MapCall.leaf, getLsbD_leafEntry _ _ _ (by decide) (by decide), getLsbD_leafEntry _ _ _ (by decide) (by decide),
    getLsbD_leafEntry _ _ _ (by decide) (by decide), ← readOnly]
  exact own

theorem leafRight_iff (c : MapCall) : LeafRight c.wrapper c.prot c.pa c.leaf ↔ Expressible c.wrapper c.prot := by
  obtain ⟨el0, readOnly, noExecute⟩ := getLsbD_leaf c
  constructor
  · intro right
    by_cases device : c.wrapper = Wrapper.device
    · exact .inl device
    · have execute : Wants protX c.prot := by
        by_contra not
        exact device (noExecute.mp (right.noExecute (.inr not)))
      refine .inr ⟨execute, ?_⟩
      by_cases write : Wants protW c.prot
      · exact .inr write
      · exact .inl (readOnly.mp (right.readOnly device write)).1
  · intro expressible
    refine ⟨el0, fun notDevice not => ?_, fun wanted => ?_, field_leafEntry _ (c.wrapper.plain c.prot) _⟩
    · obtain ⟨_, read | write⟩ := expressible.resolve_left notDevice
      · exact readOnly.mpr ⟨read, not⟩
      · exact absurd write not
    · apply noExecute.mpr
      cases expressible with
      | inl device => exact device
      | inr both => exact wanted.resolve_right (not_not_intro both.1)

/- A turn of the loop of `generic_mmap` on behalf of `sys_mmap_user`. -/
def userPageStep (t : TranslationTables) (prot : CInt) (m : Memory) (c : MapCall) (m' : Memory) : Prop :=
  mapStep t m c m' ∧ c.wrapper = .user ∧ c.prot = prot

/-- The loop maps its pages one after the other, as `page_table_map_user` would. -/
theorem mapPages_run {vaBase : Word} (n : Nat) {count : Word} {s s' : AddressSpace}
    (ran : mapPages t vaBase (MmapCaller.prot prot .user) n count s = some s') :
    ∃ calls, Run (userPageStep t prot) s.memory calls s'.memory ∧
      calls.map MapCall.va = (List.range n).map fun i => vaBase + count + BitVec.ofNat 64 i * pageSize4KB := by
  induction n generalizing count s with
  | zero =>
    obtain rfl := Option.some.inj ran
    exact ⟨[], .nil _, rfl⟩
  | succ n ih =>
    simp only [mapPages] at ran
    split at ran
    · cases ran
    · split at ran
      · cases ran
      · rename_i ret memory mapped
        split at ran
        · cases ran
        · rename_i success
          obtain rfl := not_not.mp success
          obtain ⟨calls, run, places⟩ := ih ran
          refine ⟨⟨.user, vaBase + count, (kframeAllocateRange s.frames 1).1, prot⟩ :: calls, ?_, ?_⟩
          · exact .cons ⟨(MapCall.perform_eq _ _ _).trans mapped, rfl, rfl⟩ run
          · rw [List.map_cons, places, List.range_succ_eq_map, List.map_cons, List.map_map]
            refine congrArg₂ List.cons (BitVec.add_zero _).symm (List.map_congr_left fun i _ => ?_)
            show vaBase + (count + pageSize4KB) + BitVec.ofNat 64 i * pageSize4KB =
              vaBase + count + BitVec.ofNat 64 (i + 1) * pageSize4KB
            unfold pageSize4KB
            bv_omega

/-- A call that changes nothing in the tables, or maps the pages of one range. -/
theorem sysMmapUser_run {call : MmapCall} (user : call.caller = .user) {fuel : Nat} {s s' : AddressSpace}
    {head mmapStart r : Word} (ran : call.perform fuel s t head mmapStart = some (r, s')) :
    r = mapFailed ∧ s' = s ∨ ∃ base calls, Run (userPageStep t call.prot) s.memory calls s'.memory ∧
      calls.map MapCall.va =
        (List.range (pageUp call.size / pageSize4KB).toNat).map fun i => base + BitVec.ofNat 64 i * pageSize4KB := by
  have mapping : ∀ {s₀ : AddressSpace} {region vaBase : Word} {out : Word × AddressSpace},
      startMapping fuel s₀ t head region vaBase 0 1 (pageUp call.size) (MmapCaller.prot call.prot .user) = some out →
      s₀.memory = s.memory →
      ∃ base calls, Run (userPageStep t call.prot) s.memory calls out.2.memory ∧ calls.map MapCall.va =
        (List.range (pageUp call.size / pageSize4KB).toNat).map fun i => base + BitVec.ofNat 64 i * pageSize4KB := by
    intro s₀ region vaBase out started same
    simp only [startMapping] at started
    split at started
    · cases started
    · rename_i s₁ loop
      obtain ⟨calls, run, places⟩ := mapPages_run _ loop
      have zero : vaBase + 0 = vaBase := BitVec.add_zero vaBase
      rw [zero] at places
      refine ⟨vaBase, calls, ?_, places⟩
      have memory : out.2.memory = s₁.memory := by
        split at started
        · obtain rfl := Option.some.inj started
          rfl
        · split at started
          · cases started
          · obtain rfl := Option.some.inj started
            rfl
      rw [memory, ← same]
      exact run
  simp only [MmapCall.perform, user, genericMmap] at ran
  split at ran
  · obtain ⟨rfl, rfl⟩ := Prod.mk.inj (Option.some.inj ran)
    exact .inl ⟨rfl, rfl⟩
  · split at ran
    · exact .inr (mapping ran rfl)
    · split at ran
      · cases ran
      · split at ran
        · obtain ⟨rfl, rfl⟩ := Prod.mk.inj (Option.some.inj ran)
          exact .inl ⟨rfl, rfl⟩
        · split at ran
          · obtain ⟨rfl, rfl⟩ := Prod.mk.inj (Option.some.inj ran)
            exact .inl ⟨rfl, rfl⟩
          · exact .inr (mapping ran rfl)

/-- What the level-3 descriptors allow is what was asked for exactly when the protection can be
said: of the three mapping functions, and of every page that `sys_mmap_user` maps. -/
theorem leaf_permissions_iff (t : TranslationTables) :
    (∀ m m' (c : MapCall), mapStep t m c m' →
      (LeafRight c.wrapper c.prot c.pa (m'.load (leafSlot t c.va)) ↔ Expressible c.wrapper c.prot)) ∧
    ∀ fuel (s s' : AddressSpace) head mmapStart r (call : MmapCall), call.caller = .user →
      call.perform fuel s t head mmapStart = some (r, s') → r = mapFailed ∧ s' = s ∨
        ∃ base calls, Run (fun m c m' => userPageStep t call.prot m c m' ∧
            (LeafRight .user call.prot c.pa (m'.load (leafSlot t c.va)) ↔ Expressible .user call.prot))
          s.memory calls s'.memory ∧ calls.map MapCall.va =
            (List.range (pageUp call.size / pageSize4KB).toNat).map fun i =>
              base + BitVec.ofNat 64 i * pageSize4KB := by
  have single : ∀ m m' (c : MapCall), mapStep t m c m' →
      (LeafRight c.wrapper c.prot c.pa (m'.load (leafSlot t c.va)) ↔ Expressible c.wrapper c.prot) := by
    intro m m' c mapped
    rw [leaf_installed mapped]
    exact leafRight_iff c
  refine ⟨single, fun fuel s s' head mmapStart r call user ran => ?_⟩
  rcases sysMmapUser_run user ran with unchanged | ⟨base, calls, run, places⟩
  · exact .inl unchanged
  · refine .inr ⟨base, calls, run.mono ?_, places⟩
    rintro m c m' ⟨mapped, wrapper, prot⟩
    have own := single m m' c mapped
    rw [wrapper, prot] at own
    exact ⟨⟨mapped, wrapper, prot⟩, own⟩

/- A page at the start of the kernel's window, mapped to the second gigabyte. -/
def windowPage (w : Wrapper) (prot : CInt) : MapCall := ⟨w, bareTables.startVa, 0x40000000, prot⟩

theorem windowPage_mapped (w : Wrapper) (prot : CInt) : ∃ m', mapStep bareTables bareMemory (windowPage w prot) m' := by
  have inWindow : (windowPage w prot).InWindow bareTables :=
    ⟨(by decide : bareTables.startVa.toNat % 4096 = 0), (by decide : (0x40000000 : Word).toNat % 4096 = 0),
      (by decide : (0x40000000 : Word).toNat < 2 ^ 48), (by decide : distance bareTables bareTables.startVa < 2 ^ 32)⟩
  exact ⟨_, mapStep_eq (by decide) inWindow bareMemory⟩

theorem leaf_permissions_iff_one_page : ∃ m', mapStep bareTables bareMemory (windowPage .user 5) m' ∧
    (LeafRight .user 5 0x40000000 (m'.load (leafSlot bareTables bareTables.startVa)) ↔ Expressible .user 5) := by
  obtain ⟨m', mapped⟩ := windowPage_mapped .user 5
  exact ⟨m', mapped, (leaf_permissions_iff bareTables).1 _ _ _ mapped⟩

/-- A page mapped for reading only can be executed. -/
theorem readable_page_executable : ¬ ∀ t m m' (c : MapCall), mapStep t m c m' →
    LeafRight c.wrapper c.prot c.pa (m'.load (leafSlot t c.va)) := by
  intro always
  obtain ⟨m', mapped⟩ := windowPage_mapped .user protR
  have right := always _ _ _ _ mapped
  rw [leaf_installed mapped] at right
  exact absurd ((leafRight_iff _).mp right) (by decide)

end RealmVm
