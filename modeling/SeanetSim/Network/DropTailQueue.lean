import Mathlib.Algebra.Order.Group.Nat

/-!
# Drop-tail queues

A queue with counters of its packets and bytes in 32 bits, from which it decides whether there is
room and whether it is empty.  Where what fits in the queue fits in the counters, they are exact
(`DropTailQueue.Ok`), and the queue is a bounded first-in first-out list.
-/

namespace SeanetSim

/-- The units of a `QueueSize`. -/
inductive QueueSizeUnit
  | packets
  | bytes
deriving DecidableEq, Repr

structure DropTailQueue (α : Type) where
  packets : List α
  nPackets : UInt32
  nBytes : UInt32
  unit : QueueSizeUnit
  maxSize : UInt32

namespace DropTailQueue

variable {α : Type}

def empty (unit : QueueSizeUnit) (maxSize : UInt32) : DropTailQueue α := ⟨[], 0, 0, unit, maxSize⟩

section Operations

variable (size : α → UInt32) (q : DropTailQueue α)

/-- `GetCurrentSize`. -/
def getCurrentSize : UInt32 :=
  match q.unit with
  | .packets => q.nPackets
  | .bytes => q.nBytes

/-- What `operator +` adds for an item. -/
def unitsOf (item : α) : UInt32 :=
  match q.unit with
  | .packets => 1
  | .bytes => size item

/-- `DoEnqueue` at the end, with what it returns. -/
def enqueue (item : α) : DropTailQueue α × Bool :=
  if q.maxSize < q.getCurrentSize + q.unitsOf size item then (q, false)
  else
    ({ q with
        packets := q.packets ++ [item]
        nPackets := q.nPackets + 1
        nBytes := q.nBytes + size item }, true)

/-- `DoDequeue` at the front; `none` is a failed assertion or the front of an empty list. -/
def dequeue : Option (DropTailQueue α × Option α) :=
  if q.nPackets = 0 then some (q, none)
  else
    match q.packets with
    | [] => none
    | item :: packets => do
      guard (size item ≤ q.nBytes)
      return ({ q with packets, nPackets := q.nPackets - 1, nBytes := q.nBytes - size item },
        some item)

end Operations

/-! ### Exact counters -/

variable {size : α → UInt32} {q : DropTailQueue α} {limit : ℕ} {item : α}

def totalBytes (size : α → UInt32) : List α → ℕ
  | [] => 0
  | item :: packets => (size item).toNat + totalBytes size packets

/-- Items up to a size that find room do not make a counter overflow. -/
def Fits (limit : ℕ) (q : DropTailQueue α) : Prop :=
  match q.unit with
  | .packets => (q.maxSize.toNat + 1) * limit < 2 ^ 32
  | .bytes => q.maxSize.toNat + limit < 2 ^ 32

theorem Fits.limit_lt (h : q.Fits limit) : limit < 2 ^ 32 := by
  rw [Fits] at h
  cases hunit : q.unit with
  | packets =>
    rw [hunit] at h
    exact (Nat.le_mul_of_pos_left limit (Nat.succ_pos _)).trans_lt h
  | bytes =>
    rw [hunit] at h
    exact (Nat.le_add_left limit _).trans_lt h

/-- The counters count what the queue holds, and that is no more than it may hold. -/
structure Ok (size : α → UInt32) (limit : ℕ) (q : DropTailQueue α) : Prop where
  fits : q.Fits limit
  nPackets : q.nPackets.toNat = q.packets.length
  nBytes : q.nBytes.toNat = totalBytes size q.packets
  sizes : ∀ p ∈ q.packets, 0 < (size p).toNat ∧ (size p).toNat ≤ limit
  room : q.getCurrentSize ≤ q.maxSize

theorem ok_empty {unit : QueueSizeUnit} {maxSize : UInt32}
    (hfits : (empty unit maxSize : DropTailQueue α).Fits limit) :
    Ok size limit (empty unit maxSize : DropTailQueue α) where
  fits := hfits
  nPackets := rfl
  nBytes := rfl
  sizes := by simp [empty]
  room := by cases unit <;> exact UInt32.le_iff_toNat_le.2 (Nat.zero_le _)

theorem totalBytes_cons (size : α → UInt32) (item : α) (packets : List α) :
    totalBytes size (item :: packets) = (size item).toNat + totalBytes size packets :=
  rfl

theorem totalBytes_append_singleton (size : α → UInt32) (packets : List α) (item : α) :
    totalBytes size (packets ++ [item]) = totalBytes size packets + (size item).toNat := by
  induction packets with
  | nil => exact Nat.add_comm _ _
  | cons p packets ih => rw [List.cons_append, totalBytes_cons, ih, totalBytes_cons, Nat.add_assoc]

theorem length_le_totalBytes {packets : List α} (h : ∀ p ∈ packets, 0 < (size p).toNat) :
    packets.length ≤ totalBytes size packets := by
  induction packets with
  | nil => exact le_rfl
  | cons p packets ih =>
    rw [List.forall_mem_cons] at h
    have hrest := ih h.2
    have hfirst := h.1
    rw [totalBytes_cons, List.length_cons]
    omega

theorem totalBytes_le {packets : List α} (h : ∀ p ∈ packets, (size p).toNat ≤ limit) :
    totalBytes size packets ≤ packets.length * limit := by
  induction packets with
  | nil => exact Nat.zero_le _
  | cons p packets ih =>
    rw [List.forall_mem_cons] at h
    have hrest := ih h.2
    have hfirst := h.1
    rw [totalBytes_cons, List.length_cons, Nat.succ_mul]
    omega

/-- One more item fits in the counters. -/
theorem Ok.no_overflow (h : Ok size limit q) (hpos : 0 < (size item).toNat)
    (hle : (size item).toNat ≤ limit) :
    q.packets.length + 1 < 2 ^ 32 ∧ totalBytes size q.packets + (size item).toNat < 2 ^ 32 := by
  obtain ⟨hfits, hpackets, hbytes, hsizes, hroom⟩ := h
  have hlength := length_le_totalBytes fun p hp => (hsizes p hp).1
  have htotal := totalBytes_le fun p hp => (hsizes p hp).2
  rw [UInt32.le_iff_toNat_le, getCurrentSize] at hroom
  rw [Fits] at hfits
  cases hunit : q.unit with
  | packets =>
    rw [hunit] at hfits hroom
    dsimp only at hfits hroom
    rw [hpackets] at hroom
    have hmul : (q.packets.length + 1) * limit ≤ (q.maxSize.toNat + 1) * limit :=
      Nat.mul_le_mul_right limit (Nat.succ_le_succ hroom)
    rw [Nat.succ_mul] at hmul
    have hone := Nat.le_mul_of_pos_right (q.maxSize.toNat + 1) (hpos.trans_le hle)
    constructor <;> omega
  | bytes =>
    rw [hunit] at hfits hroom
    dsimp only at hfits hroom
    rw [hbytes] at hroom
    constructor <;> omega

/-- The queue takes an item at its end, or it is full. -/
theorem enqueue_cases (h : Ok size limit q) (item : α) (hpos : 0 < (size item).toNat)
    (hle : (size item).toNat ≤ limit) :
    q.enqueue size item = (q, false) ∨
      ∃ q', q.enqueue size item = (q', true) ∧ Ok size limit q' ∧
        q'.packets = q.packets ++ [item] := by
  obtain ⟨hlength, htotal⟩ := h.no_overflow hpos hle
  rw [enqueue]
  split
  · exact .inl rfl
  · rename_i hroom
    refine .inr ⟨_, rfl, ?_, rfl⟩
    exact {
      fits := h.fits
      nPackets := by
        rw [UInt32.toNat_add, h.nPackets, List.length_append, List.length_singleton]
        exact Nat.mod_eq_of_lt hlength
      nBytes := by
        rw [UInt32.toNat_add, h.nBytes, totalBytes_append_singleton]
        exact Nat.mod_eq_of_lt htotal
      sizes := by
        intro p hp
        rcases List.mem_append.1 hp with hp | hp
        · exact h.sizes p hp
        · rw [List.mem_singleton.1 hp]
          exact ⟨hpos, hle⟩
      room := by
        rw [getCurrentSize]
        rw [getCurrentSize, unitsOf] at hroom
        cases hunit : q.unit <;> rw [hunit] at hroom <;> exact UInt32.not_lt.1 hroom }

/-- The assertions about the counters hold when an item leaves, and they stay exact. -/
theorem Ok.dequeued {packets : List α} (h : Ok size limit q) (hq : q.packets = item :: packets) :
    q.nPackets ≠ 0 ∧ size item ≤ q.nBytes ∧
      Ok size limit { q with
        packets, nPackets := q.nPackets - 1, nBytes := q.nBytes - size item } := by
  have hcount := h.nPackets
  have hbytes := h.nBytes
  rw [hq, List.length_cons] at hcount
  rw [hq, totalBytes_cons] at hbytes
  have hone : (1 : UInt32) ≤ q.nPackets := by
    rw [UInt32.le_iff_toNat_le, hcount]
    exact Nat.succ_le_succ (Nat.zero_le _)
  have hsize : size item ≤ q.nBytes := by
    rw [UInt32.le_iff_toNat_le, hbytes]
    exact Nat.le_add_right _ _
  refine ⟨fun hzero => ?_, hsize, ?_⟩
  · rw [hzero] at hcount
    exact absurd hcount (Nat.succ_ne_zero _).symm
  · exact {
      fits := h.fits
      nPackets := by
        rw [UInt32.toNat_sub_of_le _ _ hone, hcount]
        rfl
      nBytes := by
        rw [UInt32.toNat_sub_of_le _ _ hsize, hbytes]
        exact Nat.add_sub_cancel_left _ _
      sizes := fun p hp => h.sizes p (hq ▸ List.mem_cons_of_mem _ hp)
      room := by
        have hroom := h.room
        rw [UInt32.le_iff_toNat_le, getCurrentSize] at hroom ⊢
        cases hunit : q.unit <;> rw [hunit] at hroom <;> dsimp only at hroom ⊢
        · rw [UInt32.toNat_sub_of_le _ _ hone]
          omega
        · rw [UInt32.toNat_sub_of_le _ _ hsize]
          omega }

/-- The queue gives its first item, or nothing if it is empty. -/
theorem dequeue_cases (h : Ok size limit q) :
    (q.packets = [] ∧ q.dequeue size = some (q, none)) ∨
      ∃ item packets q', q.packets = item :: packets ∧ q.dequeue size = some (q', some item) ∧
        Ok size limit q' ∧ q'.packets = packets := by
  rw [dequeue]
  cases hq : q.packets with
  | nil =>
    have hzero : q.nPackets = 0 := UInt32.toNat_inj.1 (by rw [h.nPackets, hq]; rfl)
    exact .inl ⟨rfl, if_pos hzero⟩
  | cons item packets =>
    obtain ⟨hne, hsize, hok⟩ := h.dequeued hq
    have hguard : guard (size item ≤ q.nBytes) = some () := if_pos hsize
    refine .inr ⟨item, packets, _, rfl, ?_, hok, rfl⟩
    rw [if_neg hne]
    dsimp only
    rw [hguard]
    rfl

end DropTailQueue

end SeanetSim
