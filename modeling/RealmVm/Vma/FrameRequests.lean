import RealmVm.Vma.FrameOwnership

/-! Requests of any number of frames, on an allocator some of whose frames are reserved. -/
namespace RealmVm

open Lib

inductive FrameRequest where
  | allocate (count : Word)
  | free (address : Word)
deriving DecidableEq

/-- An allocator and the frames that were handed out since the reservation. -/
structure FrameClients where
  fa : KframeAlloc
  given : Finset Word

/- The frames a result stands for. A result whose frames are not all in the arena is the
start of a run that was too short, and marks nothing. -/
def granted (fa : KframeAlloc) (result : Word) (count : Word) : Finset Word :=
  if result ≠ mapFailed ∧ frameSpan result count.toNat ⊆ arena fa then frameSpan result count.toNat
  else ∅

def FrameRequest.Allowed (s : FrameClients) : FrameRequest → Prop
  | .allocate count => 0 < count.toNat
  | .free address => address ∈ s.given

def FrameRequest.perform (s : FrameClients) : FrameRequest → FrameClients
  | .allocate count =>
    let out := kframeAllocateRange s.fa count
    ⟨out.2, s.given ∪ granted s.fa out.1 count⟩
  | .free address => ⟨kframeFree s.fa address, s.given.erase address⟩

def requestStep (s : FrameClients) (r : FrameRequest) (t : FrameClients) : Prop :=
  r.Allowed s ∧ t = r.perform s

/-- In no run of requests is a frame of `reserved` handed out. -/
def NeverHandedOut (fa : KframeAlloc) (reserved : Finset Word) : Prop :=
  ∀ requests s, Run requestStep ⟨fa, ∅⟩ requests s → ∀ count : Word, 0 < count.toNat →
    (kframeAllocateRange s.fa count).1 ≠ mapFailed →
    Disjoint (frameSpan (kframeAllocateRange s.fa count).1 count.toNat) reserved

/-- The arena could be twice as long without reaching the end of the address space. -/
def Roomy (fa : KframeAlloc) : Prop :=
  fa.frameStart.toNat + 8192 * fa.frameCount.toNat < 2 ^ 64

variable {fa : KframeAlloc} {p : Pool Word}

/- Past the last frame of a roomy arena there are no frames of it. -/
theorem not_mem_arena (fits : ArenaFits fa) (roomy : Roomy fa) {k : Nat}
    (past : fa.frameCount.toNat ≤ k) (near : k < 2 * fa.frameCount.toNat) :
    frameAddress fa k ∉ arena fa := by
  intro inside
  obtain ⟨j, hj, same⟩ := mem_arena.mp inside
  have left := fits.frameAddress_toNat (Nat.le_of_lt hj)
  have right : (frameAddress fa k).toNat = fa.frameStart.toNat + k * 4096 := by
    unfold Roomy at roomy
    unfold frameAddress kframeSize
    bv_omega
  rw [same] at left
  omega

theorem request_count (tracks : Tracks fa p) {count : Word}
    (answered : (kframeAllocateRange fa count).1 ≠ mapFailed) : count.toNat ≤ fa.frameCount.toNat := by
  have total := p.card_free_add_held
  rw [tracks.all_eq, tracks.fits.card_arena, ← tracks.counted] at total
  have enough : ¬ fa.availableFrameCount < count := by
    intro few
    apply answered
    rw [kframeAllocateRange, if_pos few]
  bv_omega

/-- Whatever a request returns, it is no frame that somebody holds; and the frames it
takes are the granted ones. -/
theorem request_spec (tracks : Tracks fa p) (roomy : Roomy fa) (count : Word) (positive : 0 < count.toNat) :
    ((kframeAllocateRange fa count).1 ≠ mapFailed →
      Disjoint (frameSpan (kframeAllocateRange fa count).1 count.toNat) p.held) ∧
    ∃ available : granted fa (kframeAllocateRange fa count).1 count ⊆ p.free,
      Tracks (kframeAllocateRange fa count).2 (p.take _ available) := by
  rcases tracks.kframeAllocateRange_spec count positive _ rfl with
    ⟨j, hj, address, _, available, after⟩ | ⟨same, _, failed | ⟨l, some, short, within, run, address⟩⟩
  · have success : (kframeAllocateRange fa count).1 ≠ mapFailed := by
      rw [address]
      exact tracks.fits.frameAddress_ne_failed (by omega)
    have inside : frameSpan (kframeAllocateRange fa count).1 count.toNat ⊆ arena fa := by
      intro a ha
      exact tracks.all_eq ▸ (Pool.mem_free.mp (available ha)).1
    have all : granted fa (kframeAllocateRange fa count).1 count =
        frameSpan (kframeAllocateRange fa count).1 count.toNat := if_pos ⟨success, inside⟩
    refine ⟨fun _ => ?_, ?_⟩
    · exact Finset.disjoint_of_subset_left available p.free_disjoint_held
    · simp only [all]
      exact ⟨available, after⟩
  · have none : granted fa (kframeAllocateRange fa count).1 count = ∅ := if_neg fun h => h.1 failed
    refine ⟨fun success => absurd failed success, ?_⟩
    simp only [none, same]
    exact ⟨Finset.empty_subset _, (p.take_empty (Finset.empty_subset _)).symm ▸ tracks⟩
  · -- the run at the end of the arena was too short: its frames are free, the rest lies outside
    have inside : p.held ⊆ arena fa := tracks.all_eq ▸ p.within
    have outside : frameAddress fa fa.frameCount.toNat ∉ arena fa :=
      not_mem_arena tracks.fits roomy (Nat.le_refl _) (by omega)
    have none : granted fa (kframeAllocateRange fa count).1 count = ∅ := by
      refine if_neg fun h => outside (h.2 ?_)
      rw [address, mem_frameSpan_frameAddress]
      exact ⟨l, short, by rw [Nat.sub_add_cancel within]⟩
    refine ⟨fun success => ?_, ?_⟩
    · have bound := request_count tracks success
      rw [Finset.disjoint_left]
      intro a ha held
      rw [address] at ha
      obtain ⟨k, hk, rfl⟩ := mem_frameSpan_frameAddress.mp ha
      cases Nat.lt_or_ge k l with
      | inl low =>
        have free := (tracks.freeAt_iff (by omega)).mp (run (fa.frameCount.toNat - l + k) (by omega) (by omega))
        exact (Pool.mem_free.mp free).2 held
      | inr high => exact not_mem_arena tracks.fits roomy (by omega) (by omega) (inside held)
    · simp only [none, same]
      exact ⟨Finset.empty_subset _, (p.take_empty (Finset.empty_subset _)).symm ▸ tracks⟩

/-- The pool holds the reserved frames and, apart from them, what was handed out. -/
structure Reserves (s : FrameClients) (reserved : Finset Word) (p : Pool Word) : Prop where
  tracks : Tracks s.fa p
  roomy : Roomy s.fa
  held : p.held = reserved ∪ s.given
  apart : Disjoint reserved s.given

theorem Reserves.step {s t : FrameClients} {reserved : Finset Word} (reserves : Reserves s reserved p)
    (r : FrameRequest) (step : requestStep s r t) : ∃ q, Reserves t reserved q := by
  obtain ⟨allowed, rfl⟩ := step
  obtain ⟨tracks, roomy, held, apart⟩ := reserves
  cases r with
  | allocate count =>
    obtain ⟨_, available, after⟩ := request_spec tracks roomy count allowed
    have kept := kframeAllocateRange_arena s.fa count
    refine ⟨_, after, ?_, ?_, ?_⟩
    · show Roomy (kframeAllocateRange s.fa count).2
      rw [Roomy, kept.1, kept.2]
      exact roomy
    · rw [Pool.held_take, held, Finset.union_assoc]
      rfl
    · refine Finset.disjoint_union_right.mpr ⟨apart, ?_⟩
      have fresh := Finset.disjoint_of_subset_left available p.free_disjoint_held
      rw [held, Finset.disjoint_union_right] at fresh
      exact fresh.1.symm
  | free address =>
    have given : address ∈ s.given := allowed
    have member : address ∈ p.held := held ▸ Finset.mem_union_right _ given
    have other : address ∉ reserved := Finset.disjoint_right.mp apart given
    refine ⟨_, tracks.kframeFree_spec member, ?_, ?_, ?_⟩
    · simp only [FrameRequest.perform, kframeFree]
      split <;> exact roomy
    · rw [Pool.held_giveBack, held, Finset.erase_union_distrib, Finset.erase_eq_of_notMem other]
      rfl
    · exact Finset.disjoint_of_subset_right (Finset.erase_subset _ _) apart

/-- Frames that the pool holds from the start are never handed out. -/
theorem neverHandedOut_of_held (tracks : Tracks fa p) (roomy : Roomy fa) : NeverHandedOut fa p.held := by
  intro requests s run count positive answered
  have reserves : ∃ q, Reserves s p.held q := by
    refine run.invariant (I := fun s => ∃ q, Reserves s p.held q) ?_ ?_
    · rintro s r t ⟨q, reserves⟩ step
      exact reserves.step r step
    · exact ⟨p, tracks, roomy, by simp, by simp⟩
  obtain ⟨q, reserves⟩ := reserves
  have fresh := (request_spec reserves.tracks reserves.roomy count positive).1 answered
  rw [reserves.held, Finset.disjoint_union_right] at fresh
  exact fresh.1

end RealmVm
