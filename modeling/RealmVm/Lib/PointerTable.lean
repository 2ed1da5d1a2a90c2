import RealmVm.Lib.Bytes

/-! A table of pointers, with a null pointer behind them, and the items they point to, which stand one behind the
other. Places are distances from a base. -/
namespace Lib.Bytes

variable {w : Nat}

/-- Two areas, each a place and a length, have no byte in common. -/
def AreasApart (a b : Nat × Nat) : Prop := a.1 + a.2 ≤ b.1 ∨ b.1 + b.2 ≤ a.1

def totalLength (items : List (List (BitVec 8))) : Nat := (items.map List.length).sum

/-- The stores of a table at `slot`, pointers of `k` bytes, with its items from `place` on. -/
def tableStores (k : Nat) (base : BitVec w) : Nat → Nat → List (List (BitVec 8)) → List (Nat × List (BitVec 8))
  | slot, _, [] => [(slot, encode k 0)]
  | slot, place, item :: rest =>
    (slot, encode k (base + BitVec.ofNat w place).toNat) :: (place, item) ::
      tableStores k base (slot + k) (place + item.length) rest

/-- Where the items are. -/
def itemAreas : Nat → List (List (BitVec 8)) → List (Nat × Nat)
  | _, [] => []
  | place, item :: rest => (place, item.length) :: itemAreas (place + item.length) rest

/-- A table as it is read: pointers to `items`, then the null pointer. -/
structure TableAt (k : Nat) (m : BitVec w → BitVec 8) (table : BitVec w) (ptrs : List (BitVec w))
    (items : List (List (BitVec 8))) : Prop where
  length : ptrs.length = items.length
  pointer : ∀ (i : Nat) ptr, ptrs[i]? = some ptr → load m (table + BitVec.ofNat w (k * i)) k = ptr.toNat
  null : load m (table + BitVec.ofNat w (k * ptrs.length)) k = 0
  item : ∀ (i : Nat) ptr item, ptrs[i]? = some ptr → items[i]? = some item → bytesAt m ptr item.length = item

variable {k slot place : Nat} {base : BitVec w} {items : List (List (BitVec 8))}

@[simp] theorem totalLength_cons (item : List (BitVec 8)) (items : List (List (BitVec 8))) :
    totalLength (item :: items) = item.length + totalLength items := rfl

theorem itemAreas_append (place : Nat) (first second : List (List (BitVec 8))) :
    itemAreas place (first ++ second) = itemAreas place first ++ itemAreas (place + totalLength first) second := by
  induction first generalizing place with
  | nil => rfl
  | cons item rest ih =>
    rw [totalLength_cons, ← Nat.add_assoc]
    exact congrArg _ (ih (place + item.length))

/-- The items are between `place` and the end of the last. -/
theorem itemAreas_inside {a : Nat × Nat} (member : a ∈ itemAreas place items) :
    place ≤ a.1 ∧ a.1 + a.2 ≤ place + totalLength items := by
  induction items generalizing place with
  | nil => cases member
  | cons item rest ih =>
    rw [totalLength_cons]
    cases List.mem_cons.mp member with
    | inl here =>
      subst here
      simp only
      omega
    | inr later =>
      have inside := ih later
      omega

theorem itemAreas_apart (place : Nat) (items : List (List (BitVec 8))) :
    (itemAreas place items).Pairwise AreasApart := by
  induction items generalizing place with
  | nil => exact .nil
  | cons item rest ih =>
    apply List.Pairwise.cons _ (ih (place + item.length))
    intro a member
    exact .inl (itemAreas_inside member).1

theorem itemAreas_zip (base : BitVec w) (place : Nat) (items : List (List (BitVec 8))) :
    (itemAreas place items).map (fun a => (base + BitVec.ofNat w a.1, a.2)) =
      ((itemAreas place items).map fun a => base + BitVec.ofNat w a.1).zip (items.map List.length) := by
  induction items generalizing place with
  | nil => rfl
  | cons item rest ih => simp only [itemAreas, List.map_cons, List.zip_cons_cons, ih]

/-- A table ends where the table of the other items does. -/
theorem tableEnd_cons (slot k : Nat) (item : List (BitVec 8)) (rest : List (List (BitVec 8))) :
    slot + k * ((item :: rest).length + 1) = slot + k + k * (rest.length + 1) := by
  rw [List.length_cons, Nat.mul_succ k (rest.length + 1), Nat.add_assoc, Nat.add_comm k]

/-- Every store of a table is in the table or in the area of its items. -/
theorem tableStores_inside {s : Nat × List (BitVec 8)} (member : s ∈ tableStores k base slot place items) :
    slot ≤ s.1 ∧ s.1 + s.2.length ≤ slot + k * (items.length + 1) ∨
      place ≤ s.1 ∧ s.1 + s.2.length ≤ place + totalLength items := by
  induction items generalizing slot place with
  | nil =>
    obtain rfl := List.mem_singleton.mp member
    simp
  | cons item rest ih =>
    rw [tableEnd_cons, totalLength_cons]
    simp only [tableStores, List.mem_cons] at member
    rcases member with rfl | rfl | later
    · simp only [length_encode]
      omega
    · simp only
      omega
    · have inside := ih later
      omega

/-- When the items begin behind the table, no store meets another. -/
theorem tableStores_apart (order : slot + k * (items.length + 1) ≤ place) :
    (tableStores k base slot place items).Pairwise fun s t => AreasApart (s.1, s.2.length) (t.1, t.2.length) := by
  induction items generalizing slot place with
  | nil => exact List.pairwise_singleton ..
  | cons item rest ih =>
    rw [tableEnd_cons] at order
    apply List.Pairwise.cons
    · intro s member
      cases List.mem_cons.mp member with
      | inl here =>
        subst here
        left
        simp only [length_encode]
        omega
      | inr later =>
        have inside := tableStores_inside later
        left
        simp only [length_encode]
        omega
    · apply List.Pairwise.cons _ (ih (by omega))
      intro s member
      have inside := tableStores_inside member
      unfold AreasApart
      simp only
      omega

/-- With all its stores in memory, a table can be read. -/
theorem tableStores_read {m : BitVec w → BitVec 8} (width : 2 ^ w = 256 ^ k)
    (stored : ∀ s ∈ tableStores k base slot place items, bytesAt m (base + BitVec.ofNat w s.1) s.2.length = s.2) :
    TableAt k m (base + BitVec.ofNat w slot)
        ((itemAreas place items).map fun a => base + BitVec.ofNat w a.1) items := by
  have number (n at_ : Nat) (small : n < 256 ^ k) (there : bytesAt m (base + BitVec.ofNat w at_) (encode k n).length =
      encode k n) : load m (base + BitVec.ofNat w at_) k = n := by
    rw [length_encode] at there
    rw [load, there, decode_encode, Nat.mod_eq_of_lt small]
  induction items generalizing slot place with
  | nil =>
    have null := stored (slot, encode k 0) List.mem_cons_self
    have zero := number 0 slot (Nat.pow_pos (by decide)) null
    constructor
    · rfl
    · intro i ptr found
      cases found
    · simpa [itemAreas] using zero
    · intro i ptr item found
      cases found
  | cons item rest ih =>
    obtain ⟨pointer, stored⟩ := List.forall_mem_cons.mp stored
    obtain ⟨here, stored⟩ := List.forall_mem_cons.mp stored
    have first := number _ slot (width ▸ BitVec.isLt _) pointer
    have later := ih stored
    have next (i : Nat) : base + BitVec.ofNat w slot + BitVec.ofNat w (k * (i + 1)) =
        base + BitVec.ofNat w (slot + k) + BitVec.ofNat w (k * i) := by
      rw [BitVec.add_assoc, BitVec.add_assoc, ← BitVec.ofNat_add, ← BitVec.ofNat_add, Nat.mul_succ, Nat.add_assoc,
        Nat.add_comm k]
    constructor
    · exact congrArg Nat.succ later.length
    · intro i ptr found
      cases i with
      | zero =>
        obtain rfl := Option.some.inj found
        simpa using first
      | succ i =>
        rw [next]
        exact later.pointer i ptr found
    · have null := later.null
      rw [← next] at null
      exact null
    · intro i ptr other found same
      cases i with
      | zero =>
        obtain rfl := Option.some.inj found
        obtain rfl := Option.some.inj same
        exact here
      | succ i => exact later.item i ptr other found same

end Lib.Bytes
