import Mathlib.Data.Set.Lattice
import Mathlib.Order.CompletePartialOrder
import Mathlib.Tactic.Ring

/-! Numbers as little-endian bytes, in lists and in a memory. Nothing here mentions a
particular program. -/
namespace Lib.Bytes

/-- The low `k` bytes of `n`, the lowest first. -/
def encode : Nat → Nat → List (BitVec 8)
  | 0, _ => []
  | k + 1, n => BitVec.ofNat 8 n :: encode k (n / 256)

def decode : List (BitVec 8) → Nat
  | [] => 0
  | b :: rest => b.toNat + 256 * decode rest

@[simp] theorem length_encode (k n : Nat) : (encode k n).length = k := by
  induction k generalizing n with
  | zero => rfl
  | succ k ih => exact congrArg Nat.succ (ih (n / 256))

theorem decode_lt (bs : List (BitVec 8)) : decode bs < 256 ^ bs.length := by
  induction bs with
  | nil => exact Nat.one_pos
  | cons b rest ih =>
    have low : b.toNat < 256 := b.isLt
    have power : 256 ^ (b :: rest).length = 256 * 256 ^ rest.length := by
      rw [List.length_cons, Nat.pow_succ, Nat.mul_comm]
    simp only [decode]
    omega

theorem decode_encode (k n : Nat) : decode (encode k n) = n % 256 ^ k := by
  induction k generalizing n with
  | zero => exact (Nat.mod_one n).symm
  | succ k ih =>
    have split : n % (256 * 256 ^ k) = n % 256 + 256 * (n / 256 % 256 ^ k) := Nat.mod_mul
    calc decode (encode (k + 1) n) = n % 256 + 256 * decode (encode k (n / 256)) := by
          simp only [encode, decode, BitVec.toNat_ofNat]
      _ = n % 256 + 256 * (n / 256 % 256 ^ k) := by rw [ih]
      _ = n % 256 ^ (k + 1) := by rw [← split, Nat.pow_succ, Nat.mul_comm (256 ^ k)]

theorem encode_decode (bs : List (BitVec 8)) : encode bs.length (decode bs) = bs := by
  induction bs with
  | nil => rfl
  | cons b rest ih =>
    have low : b.toNat < 256 := b.isLt
    have high : (b.toNat + 256 * decode rest) / 256 = decode rest := by omega
    have head : BitVec.ofNat 8 (b.toNat + 256 * decode rest) = b := by
      apply BitVec.eq_of_toNat_eq
      rw [BitVec.toNat_ofNat]
      omega
    simp only [List.length_cons, encode, decode, head, high, ih]

theorem decode_getElem {bs : List (BitVec 8)} {i : Nat} (inside : i < bs.length) :
    decode bs / 256 ^ i % 256 = bs[i].toNat := by
  induction bs generalizing i with
  | nil => exact absurd inside (Nat.not_lt_zero i)
  | cons b rest ih =>
    have low : b.toNat < 256 := b.isLt
    cases i with
    | zero =>
      simp only [decode, Nat.pow_zero, List.getElem_cons_zero]
      omega
    | succ i =>
      have high : (b.toNat + 256 * decode rest) / 256 = decode rest := by omega
      rw [decode, Nat.pow_succ', ← Nat.div_div_eq_div_mul, high, List.getElem_cons_succ]
      exact ih (Nat.lt_of_succ_lt_succ inside)

theorem getElem_encode {k i : Nat} (n : Nat) (inside : i < (encode k n).length) :
    (encode k n)[i] = BitVec.ofNat 8 (n / 256 ^ i) := by
  induction k generalizing i n with
  | zero => exact absurd inside (Nat.not_lt_zero i)
  | succ k ih =>
    cases i with
    | zero => simp [encode]
    | succ i =>
      simp only [encode, List.getElem_cons_succ]
      rw [ih, Nat.div_div_eq_div_mul, Nat.pow_succ']

/-- A word of `8 * k` bits survives the trip through its bytes. -/
theorem ofNat_decode_encode {w : Nat} (k : Nat) (width : 2 ^ w = 256 ^ k) (x : BitVec w) :
    BitVec.ofNat w (decode (encode k x.toNat)) = x := by
  have small : x.toNat < 256 ^ k := width ▸ x.isLt
  rw [decode_encode, Nat.mod_eq_of_lt small]
  exact (BitVec.ofNat_toNat w x).trans (BitVec.setWidth_eq x)

/-- Messages of one width can be told apart in a stream: what begins a stream of messages
with whole messages begins with the same ones. -/
theorem flatMap_split {A B : Type} {f : A → List B} {k : Nat} (width : ∀ a, (f a).length = k) (positive : 0 < k)
    (injective : ∀ a b, f a = f b → a = b) {as bs : List A} {rest : List B}
    (same : as.flatMap f ++ rest = bs.flatMap f) : ∃ cs, bs = as ++ cs ∧ rest = cs.flatMap f := by
  induction as generalizing bs with
  | nil => exact ⟨bs, rfl, same⟩
  | cons a as ih =>
    rw [List.flatMap_cons, List.append_assoc] at same
    cases bs with
    | nil =>
      have long := congrArg List.length same
      rw [List.length_append, width] at long
      have none : ([].flatMap f).length = 0 := rfl
      omega
    | cons b bs =>
      rw [List.flatMap_cons] at same
      obtain ⟨head, tail⟩ := List.append_inj same ((width a).trans (width b).symm)
      obtain rfl := injective a b head
      obtain ⟨cs, rfl, left⟩ := ih tail
      exact ⟨cs, rfl, left⟩

theorem length_flatMap_width {A B : Type} {f : A → List B} {k : Nat} (width : ∀ a, (f a).length = k) (as : List A) :
    (as.flatMap f).length = as.length * k := by
  induction as with
  | nil => exact (Nat.zero_mul k).symm
  | cons a as ih => rw [List.flatMap_cons, List.length_append, width, ih, List.length_cons, Nat.succ_mul, Nat.add_comm]

section Memory

variable {w : Nat} {m m' : BitVec w → BitVec 8} {a b x : BitVec w} {bs : List (BitVec 8)} {k : Nat}

/-- The `n` addresses from `a` on. They may run over the end of the address space. -/
def span (a : BitVec w) (n : Nat) : Set (BitVec w) := {x | (x - a).toNat < n}

def bytesAt (m : BitVec w → BitVec 8) (a : BitVec w) (k : Nat) : List (BitVec 8) :=
  (List.range k).map fun i => m (a + BitVec.ofNat w i)

def load (m : BitVec w → BitVec 8) (a : BitVec w) (k : Nat) : Nat := decode (bytesAt m a k)

def store (m : BitVec w → BitVec 8) (a : BitVec w) (bs : List (BitVec 8)) : BitVec w → BitVec 8 :=
  fun x => bs.getD (x - a).toNat (m x)

theorem offset_toNat (a : BitVec w) {i : Nat} (small : i < 2 ^ w) : (a + BitVec.ofNat w i - a).toNat = i := by
  have back : a + BitVec.ofNat w i - a = BitVec.ofNat w i := by
    rw [BitVec.add_comm]
    exact BitVec.add_sub_cancel ..
  rw [back, BitVec.toNat_ofNat, Nat.mod_eq_of_lt small]

theorem offset_mem (a : BitVec w) {i : Nat} (inside : i < k) (fits : k ≤ 2 ^ w) : a + BitVec.ofNat w i ∈ span a k := by
  rw [span, Set.mem_ofPred_eq, offset_toNat a (Nat.lt_of_lt_of_le inside fits)]
  exact inside

theorem mem_span_iff (fits : k ≤ 2 ^ w) : x ∈ span a k ↔ ∃ i < k, x = a + BitVec.ofNat w i := by
  constructor
  · intro inside
    refine ⟨(x - a).toNat, inside, ?_⟩
    rw [BitVec.ofNat_toNat, BitVec.setWidth_eq, BitVec.add_comm]
    exact (BitVec.sub_add_cancel x a).symm
  · rintro ⟨i, inside, rfl⟩
    exact offset_mem a inside fits

@[simp] theorem length_bytesAt (m : BitVec w → BitVec 8) (a : BitVec w) (k : Nat) : (bytesAt m a k).length = k := by
  rw [bytesAt, List.length_map, List.length_range]

theorem store_outside (outside : x ∉ span a bs.length) : store m a bs x = m x := by
  rw [store, List.getD_eq_getElem?_getD, List.getElem?_eq_none (Nat.le_of_not_lt outside)]
  rfl

/-- What lies in front of a span that does not wrap is outside it. -/
theorem not_mem_span_of_lt (before : x.toNat < a.toNat) (fits : a.toNat + k ≤ 2 ^ w) : x ∉ span a k := by
  have distance : (x - a).toNat = 2 ^ w - a.toNat + x.toNat := by
    rw [BitVec.toNat_sub, Nat.mod_eq_of_lt (by have bound := a.isLt; omega)]
  rw [span, Set.mem_ofPred_eq, distance]
  omega

theorem span_between (fits : a.toNat + k ≤ 2 ^ w) (member : x ∈ span a k) :
    a.toNat ≤ x.toNat ∧ x.toNat < a.toNat + k := by
  have low : a.toNat ≤ x.toNat := Nat.le_of_not_lt fun before => not_mem_span_of_lt before fits member
  have distance : (x - a).toNat = x.toNat - a.toNat := BitVec.toNat_sub_of_le low
  rw [span, Set.mem_ofPred_eq, distance] at member
  omega

/-- A copy reads as its source. -/
theorem store_bytesAt (m m' : BitVec w → BitVec 8) (a b : BitVec w) {i : Nat} (inside : i < k) (fits : k ≤ 2 ^ w) :
    store m a (bytesAt m' b k) (a + BitVec.ofNat w i) = m' (b + BitVec.ofNat w i) := by
  rw [store, offset_toNat a (Nat.lt_of_lt_of_le inside fits), bytesAt]
  simp [inside]

theorem bytesAt_congr (fits : k ≤ 2 ^ w) (same : ∀ x ∈ span a k, m x = m' x) : bytesAt m a k = bytesAt m' a k := by
  apply List.map_congr_left
  intro i inside
  exact same _ (offset_mem a (List.mem_range.mp inside) fits)

theorem load_congr (fits : k ≤ 2 ^ w) (same : ∀ x ∈ span a k, m x = m' x) : load m a k = load m' a k :=
  congrArg decode (bytesAt_congr fits same)

theorem bytesAt_store (m : BitVec w → BitVec 8) (a : BitVec w) (fits : bs.length ≤ 2 ^ w) :
    bytesAt (store m a bs) a bs.length = bs := by
  apply List.ext_getElem
  · exact length_bytesAt ..
  · intro i _ inside
    have here := offset_toNat a (Nat.lt_of_lt_of_le inside fits)
    simp only [bytesAt, List.getElem_map, List.getElem_range, store, here]
    exact (List.getElem_eq_getD _).symm

@[simp] theorem store_nil (m : BitVec w → BitVec 8) (a : BitVec w) : store m a [] = m := rfl

/-- What follows a string is stored behind it. -/
theorem store_append (m : BitVec w → BitVec 8) (a : BitVec w) (first second : List (BitVec 8))
    (fits : first.length + second.length ≤ 2 ^ w) :
    store (store m a first) (a + BitVec.ofNat w first.length) second = store m a (first ++ second) := by
  cases second with
  | nil => rw [store_nil, List.append_nil]
  | cons b rest =>
    rw [List.length_cons] at fits
    funext x
    have position := (x - a).isLt
    have length : (BitVec.ofNat w first.length).toNat = first.length := by
      rw [BitVec.toNat_ofNat, Nat.mod_eq_of_lt (by omega)]
    have shifted : x - (a + BitVec.ofNat w first.length) = x - a - BitVec.ofNat w first.length := by
      rw [BitVec.sub_eq_add_neg, BitVec.sub_eq_add_neg, BitVec.sub_eq_add_neg, BitVec.neg_add, BitVec.sub_eq_add_neg,
        BitVec.add_assoc]
    by_cases before : (x - a).toNat < first.length
    · have outside : x ∉ span (a + BitVec.ofNat w first.length) (b :: rest).length := by
        rw [span, Set.mem_ofPred_eq, shifted, BitVec.toNat_sub, length, Nat.mod_eq_of_lt (by omega), List.length_cons]
        omega
      rw [store_outside outside, store, store, List.getD_eq_getElem?_getD, List.getD_eq_getElem?_getD,
        List.getElem?_append_left before]
    · have later : (x - a - BitVec.ofNat w first.length).toNat = (x - a).toNat - first.length := by
        rw [BitVec.toNat_sub_of_le, length]
        rw [BitVec.le_def, length]
        exact Nat.le_of_not_lt before
      rw [store, shifted, later, store_outside before, store, List.getD_eq_getElem?_getD, List.getD_eq_getElem?_getD,
        List.getElem?_append_right (Nat.le_of_not_lt before)]

theorem bytesAt_append (m : BitVec w → BitVec 8) (a : BitVec w) (j k : Nat) :
    bytesAt m a (j + k) = bytesAt m a j ++ bytesAt m (a + BitVec.ofNat w j) k := by
  simp only [bytesAt, List.range_add, List.map_append, List.map_map, List.append_cancel_left_eq]
  apply List.map_congr_left
  intro i _
  rw [Function.comp_apply, BitVec.ofNat_add, BitVec.add_assoc]

theorem bytesAt_succ (m : BitVec w → BitVec 8) (a : BitVec w) (k : Nat) :
    bytesAt m a (k + 1) = m a :: bytesAt m (a + 1) k := by
  rw [Nat.add_comm, bytesAt_append]
  have first : bytesAt m a 1 = [m a] := congrArg (fun x => [m x]) (BitVec.add_zero a)
  rw [first]
  rfl

theorem bytesAt_store_apart (fits : k ≤ 2 ^ w) (apart : Disjoint (span a k) (span b bs.length)) :
    bytesAt (store m b bs) a k = bytesAt m a k :=
  bytesAt_congr fits fun _ inside => store_outside (Set.disjoint_left.mp apart inside)

theorem span_mono (a : BitVec w) {n : Nat} (shorter : k ≤ n) : span a k ⊆ span a n :=
  fun _ inside => Nat.lt_of_lt_of_le inside shorter

theorem span_zero (a : BitVec w) (s : Set (BitVec w)) : span a 0 ⊆ s :=
  fun _ inside => absurd inside (Nat.not_lt_zero _)

/-- The end of a span is part of it. -/
theorem span_drop (a : BitVec w) {n : Nat} (shorter : k ≤ n) (fits : n ≤ 2 ^ w) :
    span (a + BitVec.ofNat w k) (n - k) ⊆ span a n := by
  intro x inside
  obtain ⟨i, few, rfl⟩ := (mem_span_iff (by omega)).mp inside
  rw [BitVec.add_assoc, ← BitVec.ofNat_add]
  exact offset_mem a (by omega) fits

theorem load_lt (m : BitVec w → BitVec 8) (a : BitVec w) (k : Nat) : load m a k < 256 ^ k := by
  have bound := decode_lt (bytesAt m a k)
  rwa [length_bytesAt] at bound

theorem load_store (m : BitVec w → BitVec 8) (a : BitVec w) {n : Nat} (small : n < 256 ^ k) (fits : k ≤ 2 ^ w) :
    load (store m a (encode k n)) a k = n := by
  have length := length_encode k n
  have back : bytesAt (store m a (encode k n)) a k = encode k n := by
    have whole := @bytesAt_store _ (encode k n) m a (by rwa [length])
    rwa [length] at whole
  rw [load, back, decode_encode, Nat.mod_eq_of_lt small]

theorem load_store_apart {n k' : Nat} (fits : k ≤ 2 ^ w) (apart : Disjoint (span a k) (span b k')) :
    load (store m b (encode k' n)) a k = load m a k :=
  congrArg decode (bytesAt_store_apart fits (by rwa [length_encode]))

/-- Equal numbers come from equal bytes. -/
theorem eq_of_load (fits : k ≤ 2 ^ w) (same : load m a k = load m' a k) : ∀ x ∈ span a k, m x = m' x := by
  have bytes : bytesAt m a k = bytesAt m' a k := by
    have first := encode_decode (bytesAt m a k)
    have second := encode_decode (bytesAt m' a k)
    rw [length_bytesAt] at first second
    rw [← first, ← second]
    exact congrArg (encode k) same
  intro x inside
  obtain ⟨i, few, rfl⟩ := (mem_span_iff fits).mp inside
  exact List.map_inj_left.mp bytes i (List.mem_range.mpr few)

/-- Spans at different distances from one base do not meet. -/
theorem span_apart (base : BitVec w) {i j n : Nat} (order : i + k ≤ j ∨ j + n ≤ i) (first : i + k ≤ 2 ^ w)
    (second : j + n ≤ 2 ^ w) : Disjoint (span (base + BitVec.ofNat w i) k) (span (base + BitVec.ofNat w j) n) := by
  rw [Set.disjoint_left]
  intro x inFirst inSecond
  obtain ⟨p, hp, rfl⟩ := (mem_span_iff (by omega)).mp inFirst
  obtain ⟨q, hq, same⟩ := (mem_span_iff (by omega)).mp inSecond
  rw [BitVec.add_assoc, BitVec.add_assoc, ← BitVec.ofNat_add, ← BitVec.ofNat_add] at same
  have offset := congrArg (fun x => (x - base).toNat) same
  rw [offset_toNat base (by omega), offset_toNat base (by omega)] at offset
  omega

theorem span_part (base : BitVec w) {i n : Nat} (inside : i + k ≤ n) (fits : n ≤ 2 ^ w) :
    span (base + BitVec.ofNat w i) k ⊆ span base n := by
  intro x member
  obtain ⟨p, hp, rfl⟩ := (mem_span_iff (by omega)).mp member
  rw [BitVec.add_assoc, ← BitVec.ofNat_add]
  exact offset_mem base (by omega) fits

/-- One store after the other. -/
def storeAll (m : BitVec w → BitVec 8) (stores : List (BitVec w × List (BitVec 8))) : BitVec w → BitVec 8 :=
  stores.foldl (fun m s => store m s.1 s.2) m

theorem storeAll_cons (m : BitVec w → BitVec 8) (s : BitVec w × List (BitVec 8))
    (rest : List (BitVec w × List (BitVec 8))) :
    storeAll m (s :: rest) = storeAll (store m s.1 s.2) rest := rfl

theorem storeAll_append (m : BitVec w → BitVec 8) (first second : List (BitVec w × List (BitVec 8))) :
    storeAll m (first ++ second) = storeAll (storeAll m first) second := List.foldl_append ..

theorem storeAll_outside {stores : List (BitVec w × List (BitVec 8))}
    (outside : ∀ s ∈ stores, x ∉ span s.1 s.2.length) : storeAll m stores x = m x := by
  induction stores generalizing m with
  | nil => rfl
  | cons s rest ih =>
    obtain ⟨here, later⟩ := List.forall_mem_cons.mp outside
    exact (ih later).trans (store_outside here)

/-- Stores that do not meet can all be read back. -/
theorem bytesAt_storeAll {stores : List (BitVec w × List (BitVec 8))}
    (apart : stores.Pairwise fun s t => Disjoint (span s.1 s.2.length) (span t.1 t.2.length))
    {s : BitVec w × List (BitVec 8)} (member : s ∈ stores) (fits : s.2.length ≤ 2 ^ w) :
    bytesAt (storeAll m stores) s.1 s.2.length = s.2 := by
  induction stores generalizing m with
  | nil => exact nomatch member
  | cons t rest ih =>
    obtain ⟨first, others⟩ := List.pairwise_cons.mp apart
    cases List.mem_cons.mp member with
    | inl here =>
      subst here
      have kept : bytesAt (storeAll (store m s.1 s.2) rest) s.1 s.2.length =
          bytesAt (store m s.1 s.2) s.1 s.2.length :=
        bytesAt_congr fits fun x inside => storeAll_outside fun t later =>
          Set.disjoint_left.mp (first t later) inside
      exact kept.trans (bytesAt_store m s.1 fits)
    | inr later => exact ih others later

end Memory

end Lib.Bytes
