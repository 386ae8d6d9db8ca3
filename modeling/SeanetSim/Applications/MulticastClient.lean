import SeanetSim.Applications.SwitchApplication

/-!
# Writers and readers of identifiers

`MulticastClientApplicationv4` numbers its requests and puts the number into three bytes of the
identifier.  A writer divides the number by 100 into byte 17, and the last one, 7000, makes the
quotient 70; a reader takes the quotient modulo 70.  So the two never agree on the set of
identifiers (`reads_ne_writes`).
-/

namespace SeanetSim

open SeanetProtocol

/-! ## Loops that emit -/

section Emits

variable {σ α : Type*}

/-- What at most `n` rounds of a loop emit; a round that yields nothing ends the loop. -/
def emits (round : σ → Option (α × σ)) : ℕ → σ → List α
  | 0, _ => []
  | n + 1, s =>
    match round s with
    | some (a, s') => a :: emits round n s'
    | none => []

end Emits

/-! ## The client -/

/-- The values of the attribute `FunctionType` that the code tells apart. -/
inductive FunctionType
  | read
  | write
  | all
  | other
  deriving DecidableEq, Repr

structure MulticastClientApplicationv4 where
  functionType : FunctionType
  totalSwitchNum : UInt32
  switchIndex : UInt32
  switchAddress : Address
  mCount : UInt32
  mSent : UInt32

namespace MulticastClientApplicationv4

def eidUnit : UInt32 := 7000

/-- The buffer before its bytes are set: twenty characters `1`. -/
def buffer : SeanetEID := Vector.replicate eidSize 49

/-- `StartApplication`, as far as the counters go. -/
def startApplication (c : MulticastClientApplicationv4) : MulticastClientApplicationv4 :=
  { c with
    mCount := match c.functionType with
      | .read => c.totalSwitchNum * eidUnit
      | .write => eidUnit
      | _ => 10
    mSent := 0 }

def sendPacket (c : MulticastClientApplicationv4) (buffer : SeanetEID) (ssenh : SeanetHeader) :
    Datagram :=
  ⟨ssenh, .eid buffer, .deserialize c.switchAddress⟩

/-- The identifier of the request `mSent` of a writer. -/
def writeEID (c : MulticastClientApplicationv4) (mSent : UInt32) : SeanetEID :=
  ((buffer.set 18 (49 + (mSent % 100).toUInt8)).set 17 (49 + (mSent / 100).toUInt8)).set 16
    (49 + c.switchIndex.toUInt8)

/-- The identifier of the request `mSent` of a reader; the quotients are cut to a byte before the
remainders are taken. -/
def readEID (c : MulticastClientApplicationv4) (mSent : UInt32) : SeanetEID :=
  ((buffer.set 18 (49 + (mSent % 100).toUInt8)).set 17
    (49 + ((mSent / 100).toUInt8.toUInt32 % (eidUnit / 100)).toUInt8)).set 16
      (49 + ((mSent / eidUnit + c.switchIndex).toUInt8.toUInt32 % c.totalSwitchNum).toUInt8)

/-- One call of `Write` or `Read`: the next request, as long as the counter is below its bound. -/
def round (request : MulticastClientApplicationv4 → UInt32 → Datagram)
    (c : MulticastClientApplicationv4) : Option (Datagram × MulticastClientApplicationv4) :=
  if c.mSent < c.mCount then
    let mSent := c.mSent + 1
    some (request c mSent, { c with mSent := mSent })
  else none

def writeRequest (c : MulticastClientApplicationv4) (mSent : UInt32) : Datagram :=
  c.sendPacket (c.writeEID mSent) (.ofTypes multicastApplication registToSourceDR)

def readRequest (c : MulticastClientApplicationv4) (mSent : UInt32) : Datagram :=
  c.sendPacket (c.readEID mSent) (.ofTypes multicastApplication registToDestDR)

def write : MulticastClientApplicationv4 → Option (Datagram × MulticastClientApplicationv4) :=
  round writeRequest

def read : MulticastClientApplicationv4 → Option (Datagram × MulticastClientApplicationv4) :=
  round readRequest

/-- The identifiers a client requests over the whole run of a loop. -/
def Requests
    (loop : MulticastClientApplicationv4 → Option (Datagram × MulticastClientApplicationv4))
    (c : MulticastClientApplicationv4) : Set SeanetEID :=
  {e | ∃ n, ∃ d ∈ emits loop n c.startApplication, d.payload = .eid e}

/-! ## Runs -/

section Runs

variable {request : MulticastClientApplicationv4 → UInt32 → Datagram}
  (hrequest : ∀ c s m, request { c with mSent := s } m = request c m)

include hrequest

/-- A run of `n` rounds emits a request for each of the next `n` numbers up to the bound. -/
theorem mem_emits_round (n : ℕ) (c : MulticastClientApplicationv4) (d : Datagram) :
    d ∈ emits (round request) n c ↔ ∃ m : UInt32, c.mSent.toNat < m.toNat ∧
      m.toNat ≤ c.mCount.toNat ∧ m.toNat ≤ c.mSent.toNat + n ∧ d = request c m := by
  induction n generalizing c with
  | zero =>
    constructor
    · intro h
      exact absurd h List.not_mem_nil
    · rintro ⟨m, hlt, -, hle, -⟩
      omega
  | succ n ih =>
    by_cases hlt : c.mSent.toNat < c.mCount.toNat
    · have hsucc : (c.mSent + 1).toNat = c.mSent.toNat + 1 := by
        have hbound := c.mCount.toNat_lt
        rw [UInt32.toNat_add, UInt32.toNat_one]
        omega
      have hround : round request c =
          some (request c (c.mSent + 1), { c with mSent := c.mSent + 1 }) := if_pos hlt
      rw [emits, hround]
      dsimp only
      rw [List.mem_cons, ih]
      simp only [hrequest, hsucc]
      constructor
      · rintro (rfl | ⟨m, hm, hcount, hn, rfl⟩)
        · exact ⟨c.mSent + 1, by omega, by omega, by omega, rfl⟩
        · exact ⟨m, by omega, hcount, by omega, rfl⟩
      · rintro ⟨m, hm, hcount, hn, rfl⟩
        rcases Nat.lt_or_ge (c.mSent.toNat + 1) m.toNat with hlt' | hge
        · exact .inr ⟨m, hlt', hcount, by omega, rfl⟩
        · obtain rfl : c.mSent + 1 = m := UInt32.toNat_inj.1 (by omega)
          exact .inl rfl
    · have hround : round request c = none := if_neg hlt
      rw [emits, hround]
      dsimp only
      constructor
      · intro h
        exact absurd h List.not_mem_nil
      · rintro ⟨m, hm, hle, -⟩
        omega

/-- Over a whole run a client makes a request for each number from 1 up to its bound. -/
theorem mem_requests_iff (c : MulticastClientApplicationv4) (e : SeanetEID) :
    e ∈ Requests (round request) c ↔ ∃ m : UInt32, 0 < m.toNat ∧
      m.toNat ≤ c.startApplication.mCount.toNat ∧
        (request c.startApplication m).payload = .eid e := by
  constructor
  · rintro ⟨n, d, hd, he⟩
    obtain ⟨m, hpos, hle, -, rfl⟩ := (mem_emits_round hrequest n c.startApplication d).1 hd
    exact ⟨m, hpos, hle, he⟩
  · rintro ⟨m, hpos, hle, he⟩
    refine ⟨m.toNat, _, (mem_emits_round hrequest _ c.startApplication _).2 ?_, he⟩
    exact ⟨m, hpos, hle, by omega, rfl⟩

end Runs

theorem mem_requests_write (c : MulticastClientApplicationv4) (h : c.functionType = .write)
    (e : SeanetEID) :
    e ∈ Requests write c ↔ ∃ m : UInt32, 0 < m.toNat ∧ m.toNat ≤ 7000 ∧ c.writeEID m = e := by
  have hcount : c.startApplication.mCount.toNat = 7000 := by
    rw [startApplication, h]
    rfl
  rw [write, mem_requests_iff (fun _ _ _ => rfl), hcount]
  refine exists_congr fun m => and_congr_right fun _ => and_congr_right fun _ => ?_
  exact Payload.eid.injEq _ _ ▸ Iff.rfl

theorem mem_requests_read (c : MulticastClientApplicationv4) (h : c.functionType = .read)
    (e : SeanetEID) :
    e ∈ Requests read c ↔ ∃ m : UInt32, 0 < m.toNat ∧
      m.toNat ≤ (c.totalSwitchNum * eidUnit).toNat ∧ c.readEID m = e := by
  have hcount : c.startApplication.mCount = c.totalSwitchNum * eidUnit := by
    rw [startApplication, h]
  rw [read, mem_requests_iff (fun _ _ _ => rfl), hcount]
  refine exists_congr fun m => and_congr_right fun _ => and_congr_right fun _ => ?_
  exact Payload.eid.injEq _ _ ▸ Iff.rfl

/-! ## The sets differ -/

/-- The last request of a writer has 70 in byte 17, counted from the character `1`. -/
theorem writeEID_last (c : MulticastClientApplicationv4) : (c.writeEID 7000)[17] = 49 + 70 := by
  simp [writeEID]

/-- No request of a reader has. -/
theorem readEID_ne (c : MulticastClientApplicationv4) (m : UInt32) :
    (c.readEID m)[17] ≠ 49 + 70 := by
  have hget : (c.readEID m)[17] =
      49 + ((m / 100).toUInt8.toUInt32 % (eidUnit / 100)).toUInt8 := by simp [readEID]
  have hlt : ((m / 100).toUInt8.toUInt32 % (eidUnit / 100)).toNat < 70 := by
    rw [UInt32.toNat_mod]
    exact Nat.mod_lt _ (by decide)
  generalize (m / 100).toUInt8.toUInt32 % (eidUnit / 100) = quotient at hget hlt
  rw [hget]
  intro h
  have hnat := congrArg UInt8.toNat h
  rw [UInt8.toNat_add, UInt32.toNat_toUInt8, show UInt8.toNat 49 = 49 from rfl,
    show (49 + 70 : UInt8).toNat = 119 from rfl] at hnat
  omega

/-- The last identifier of a writer is asked for by no reader. -/
theorem writeEID_last_mem (writer reader : MulticastClientApplicationv4)
    (h : writer.functionType = .write) (h' : reader.functionType = .read) :
    writer.writeEID 7000 ∈ Requests write writer ∧ writer.writeEID 7000 ∉ Requests read reader := by
  constructor
  · exact (mem_requests_write writer h _).2 ⟨7000, by decide, by decide, rfl⟩
  · intro hmem
    obtain ⟨m, -, -, hm⟩ := (mem_requests_read reader h' _).1 hmem
    exact readEID_ne reader m (hm ▸ writeEID_last writer)

/-- For every number of writers and every reader, the identifiers the reader asks for over its run
are not those the writers register over theirs. -/
theorem reads_ne_writes {T : UInt32} (hT : 1 ≤ T) {reader : MulticastClientApplicationv4}
    {writer : UInt32 → MulticastClientApplicationv4} (hread : reader.functionType = .read)
    (_htotal : reader.totalSwitchNum = T) (hwrite : ∀ i < T, (writer i).functionType = .write)
    (_hindex : ∀ i < T, (writer i).switchIndex = i) :
    Requests read reader ≠ {e | ∃ i < T, e ∈ Requests write (writer i)} := by
  have hzero : (0 : UInt32) < T := by
    have h := UInt32.le_iff_toNat_le.1 hT
    rw [UInt32.lt_iff_toNat_lt]
    exact h
  obtain ⟨hmem, hnot⟩ := writeEID_last_mem (writer 0) reader (hwrite 0 hzero) hread
  intro hsets
  rw [hsets] at hnot
  exact hnot ⟨0, hzero, hmem⟩

/-- A client of the run with one writer. -/
def single (functionType : FunctionType) (switchIndex : UInt32) : MulticastClientApplicationv4 :=
  ⟨functionType, 1, switchIndex, [10, 0, 0, 1], 1, 0⟩

theorem reads_ne_writes_single :
    Requests read (single .read 0) ≠ {e | ∃ i < 1, e ∈ Requests write (single .write i)} :=
  reads_ne_writes (by decide) rfl rfl (fun _ _ => rfl) (fun _ _ => rfl)

/-- With one writer, the reader does not ask for the writer's last identifier. -/
theorem not_reads_eq_writes :
    ¬ ∀ (T : UInt32) (reader : MulticastClientApplicationv4)
      (writer : UInt32 → MulticastClientApplicationv4), 1 ≤ T → reader.functionType = .read →
      reader.totalSwitchNum = T → (∀ i < T, (writer i).functionType = .write) →
      (∀ i < T, (writer i).switchIndex = i) →
      Requests read reader = {e | ∃ i < T, e ∈ Requests write (writer i)} := by
  intro h
  have hsets := h 1 (single .read 0) (single .write) (by decide) rfl rfl (fun _ _ => rfl)
    (fun _ _ => rfl)
  obtain ⟨hmem, hnot⟩ := writeEID_last_mem (single .write 0) (single .read 0) rfl rfl
  rw [hsets] at hnot
  exact hnot ⟨0, by decide, hmem⟩

end MulticastClientApplicationv4

end SeanetSim
