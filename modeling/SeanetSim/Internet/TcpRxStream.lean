import SeanetSim.Internet.TcpRxInvariant

/-!
# The stream that the receive buffer delivers

Segments may come in any order, overlap and repeat; the application gets the bytes of the stream one
after the other (`delivers`).
-/

namespace SeanetSim

open SequenceNumber Blocks

namespace TcpRxBuffer

section Stream

variable {S : Type} [SequenceNumber S]

/-- The bytes of a stream from a sequence number on. -/
def streamFrom (stream : S → UInt8) (seq : S) (n : ℕ) : List UInt8 :=
  (List.range n).map fun k => stream (SequenceNumber.add seq k)

/-- A segment has the bytes of the stream; there is no FIN. -/
def ConsistentWith (stream : S → UInt8) : RxEvent S → Prop
  | .add seq payload => payload = streamFrom stream seq payload.length
  | .extract _ => True
  | .setFinSequence _ => False

instance [DecidableEq S] (stream : S → UInt8) :
    (e : RxEvent S) → Decidable (ConsistentWith stream e)
  | .add _ _ => inferInstanceAs (Decidable (_ = _))
  | .extract _ => inferInstanceAs (Decidable True)
  | .setFinSequence _ => inferInstanceAs (Decidable False)

theorem streamFrom_int (stream : ℤ → UInt8) (x : ℤ) (n : ℕ) :
    streamFrom stream x n = piece stream x n := rfl

theorem streamFrom_wrap (stream : UInt32 → UInt8) (x : ℤ) (n : ℕ) :
    streamFrom stream (wrap x) n = piece (fun x => stream (wrap x)) x n := by
  exact List.map_congr_left fun k _ => congrArg stream (wrap_add x k).symm

/-- The bytes that a run has given to the application. -/
def extracted (trace : RxTrace S) : List UInt8 :=
  trace.flatMap fun p => p.2.2

end Stream

theorem consistentWith_lift {stream : UInt32 → UInt8} {e : RxEvent ℤ} :
    ConsistentWith stream (liftEvent e) ↔ ConsistentWith (fun x => stream (wrap x)) e := by
  cases e with
  | add seq payload =>
    rw [liftEvent, ConsistentWith, ConsistentWith, streamFrom_wrap, streamFrom_int]
  | extract maxSize => rfl
  | setFinSequence s => rfl

/-- What `delivers` says, without wrap. -/
theorem valid_of_run (stream : ℤ → UInt8) {initial fin : ℤ} {maxBuffer : ℕ}
    {trace : RxTrace ℤ} {b : TcpRxBuffer ℤ}
    (hrun : Run Step (empty initial fin maxBuffer) trace b)
    (hconsistent : ∀ p ∈ trace, ConsistentWith stream p.2.1)
    (hlength : ∀ p ∈ trace, ∀ seq payload, p.2.1 = .add seq payload → payload.length < 2 ^ 32) :
    extracted trace = piece stream initial (extracted trace).length ∧ Holds stream b.data ∧
      b.gotFin = false ∧
        ∃ d front back, Valid (initial + (extracted trace).length) d front back b := by
  induction hrun with
  | nil =>
    refine ⟨rfl, nofun, rfl, initial, [], [], ?_⟩
    rw [show extracted ([] : RxTrace ℤ) = [] from rfl, List.length_nil, Nat.cast_zero, add_zero]
    exact valid_empty initial fin maxBuffer
  | snoc hrun hst ih =>
    rename_i trace b b' e
    obtain ⟨e, out⟩ := e
    obtain ⟨hout, hholds, hfin, d, front, back, hb⟩ := ih
      (fun p hp => hconsistent p (List.mem_append_left _ hp))
      (fun p hp => hlength p (List.mem_append_left _ hp))
    have hlast := hconsistent (b, e, out) (List.mem_append_right _ List.mem_cons_self)
    have hlength' := hlength (b, e, out) (List.mem_append_right _ List.mem_cons_self)
    have hextracted : extracted (trace ++ [(b, e, out)]) = extracted trace ++ out := by
      simp [extracted]
    rw [hextracted]
    cases e with
    | add seq payload =>
      obtain ⟨r, c, d', front', back', heq, hvalid, hgot, hholds'⟩ :=
        add_valid hb hfin seq payload (hlength' seq payload rfl)
      obtain ⟨rfl, rfl⟩ := hst.of_add heq
      rw [List.append_nil]
      exact ⟨hout, hholds' stream hholds hlast, hgot, d', front', back', hvalid⟩
    | extract maxSize =>
      obtain ⟨out', c, front', heq, -, hvalid, hgot, -, -, -, -, hholds'⟩ :=
        extract_valid hb maxSize
      obtain ⟨rfl, rfl⟩ := hst.of_extract heq
      obtain ⟨hpiece, hdata⟩ := hholds' stream hholds
      rw [List.length_append, piece_add, ← hout, ← hpiece, Nat.cast_add, ← add_assoc]
      exact ⟨rfl, hdata, hgot.trans hfin, d, front', back, hvalid⟩
    | setFinSequence s => exact absurd hlast id

/-- A block has the byte with a sequence number. -/
def Contains (i : RxBlock UInt32) (x : UInt32) : Prop := offset i.1 x < i.2.length

instance (i : RxBlock UInt32) (x : UInt32) : Decidable (Contains i x) :=
  inferInstanceAs (Decidable (_ < _))

theorem contains_lift {lo : ℤ} {i : RxBlock ℤ} {x : UInt32} (hi : In lo (lo + 2 ^ 31) i.1)
    (hi' : In lo (lo + 2 ^ 31) (blockEnd i)) :
    Contains (liftBlock i) x ↔ i.1 ≤ unwrap lo x ∧ unwrap lo x < stop i := offset_lift hi hi'

/-- What the application has got, and what the buffer has counted. -/
structure Delivers (stream : UInt32 → UInt8) (initial : UInt32) (out : List UInt8)
    (b : TcpRxBuffer UInt32) : Prop where
  stream : out = streamFrom stream initial out.length
  disjoint : b.data.Pairwise fun i j => ∀ x, ¬ (Contains i x ∧ Contains j x)
  size : b.size = (b.data.map fun i => i.2.length).sum
  avail : b.availBytes = offset (SequenceNumber.add initial out.length) b.nextRxSeq

theorem Valid.avail_lt {u d lo : ℤ} {front back : List (RxBlock ℤ)} {b : TcpRxBuffer ℤ}
    (hvalid : Valid u d front back b) (hfin : b.gotFin = false) (hb : Within lo (lo + 2 ^ 31) b) :
    b.availBytes < 2 ^ 31 := by
  have hnext := hb.next
  have havail := hvalid.avail
  have hchain := hvalid.chain
  rw [hvalid.next_eq hfin] at hnext
  unfold In at hnext
  cases front with
  | nil =>
    have hu : u = d := hchain
    omega
  | cons i rest =>
    have hfirst := (hb.data i (by simp [hvalid.data])).1
    have hu : i.1 = u := hchain.1
    unfold In at hfirst
    omega

/-- Segments of a stream in any order give the application the stream, as long as no two sequence
numbers that a call works with are `2 ^ 31` apart; no call fails. -/
theorem delivers {stream : UInt32 → UInt8} {initial fin : UInt32} {maxBuffer : ℕ}
    {trace : RxTrace UInt32} {b : TcpRxBuffer UInt32}
    (hrun : Run Step (empty initial fin maxBuffer) trace b)
    (hconsistent : ∀ p ∈ trace, ConsistentWith stream p.2.1)
    (hwindow : ∀ p ∈ trace, ∃ base, InWindow base p.1 ∧ EventInWindow base p.1 p.2.1) :
    Delivers stream initial (extracted trace) b ∧
      ∀ base e, InWindow base b → EventInWindow base b e → ConsistentWith stream e →
        ∃ result, b.execute e = some result := by
  obtain ⟨z, rfl⟩ := exists_wrap initial
  obtain ⟨zfin, rfl⟩ := exists_wrap fin
  obtain ⟨trace, b, hrun', rfl, rfl, ⟨lo, hb⟩, hin⟩ := exists_run_of_inWindow
    (P := fun _ _ _ => True) (within_empty z zfin maxBuffer) hrun fun p hp => by
      obtain ⟨base, hbase, hevent⟩ := hwindow p hp
      exact ⟨base, hbase, hevent, trivial⟩
  have hout : extracted (trace.map (Prod.map lift (Prod.map liftEvent id))) = extracted trace := by
    unfold extracted
    rw [List.flatMap_map]
    rfl
  obtain ⟨hstream, -, hfin, d, front, back, hvalid⟩ := valid_of_run
    (fun x => stream (wrap x)) hrun'
    (fun q hq => consistentWith_lift.1 (hconsistent _ (List.mem_map_of_mem hq)))
    (fun q hq seq payload he => by
      obtain ⟨lo, -, hevent, -⟩ := hin q hq
      rw [he] at hevent
      exact hevent.length_lt)
  rw [hout]
  refine ⟨⟨?_, ?_, ?_, ?_⟩, fun base e hbase he hcons => ?_⟩
  · rw [streamFrom_wrap]
    exact hstream
  · show (b.data.map liftBlock).Pairwise _
    rw [List.pairwise_map]
    refine hvalid.ordered_data.2.imp_of_mem fun {i j} hi hj hle x hx => ?_
    obtain ⟨hi₁, hi₂⟩ := hb.data i hi
    obtain ⟨hj₁, hj₂⟩ := hb.data j hj
    have hxi := (contains_lift hi₁ hi₂).1 hx.1
    have hxj := (contains_lift hj₁ hj₂).1 hx.2
    omega
  · show b.size = ((b.data.map liftBlock).map fun i => i.2.length).sum
    rw [hvalid.size]
    induction b.data with
    | nil => rfl
    | cons i rest ih =>
      rw [total_cons, ih]
      simp [liftBlock]
  · show b.availBytes =
      offset (SequenceNumber.add (wrap z) (extracted trace).length) (wrap b.nextRxSeq)
    have havail := hvalid.avail
    have hshort := hvalid.avail_lt hfin hb
    have hsub := toNat_wrap_sub d (z + (extracted trace).length)
    rw [← wrap_add, hvalid.next_eq hfin, offset]
    omega
  · obtain ⟨lo, rfl, hb⟩ := within_of_inWindow hb hbase
    obtain ⟨e, rfl, he'⟩ := exists_event hb he
    rw [(execute_lift (by omega) hb he').1]
    cases e with
    | add seq payload =>
      obtain ⟨r, b', -, -, -, heq, -⟩ := add_valid hvalid hfin seq payload he'.length_lt
      exact ⟨_, by rw [execute, heq]; rfl⟩
    | extract maxSize =>
      obtain ⟨out, b', -, heq, -⟩ := extract_valid hvalid maxSize
      exact ⟨_, by rw [execute, heq]; rfl⟩
    | setFinSequence s => exact absurd hcons id

/-- A gap is filled where the sequence numbers wrap. -/
theorem delivers_wrapped : ∃ trace b,
    (empty (0xfffffffe : UInt32) 0 10).executeAll
      [.add 1 [3, 4], .add 0xfffffffe [0, 1, 2], .extract 4] = some (trace, b) ∧
    extracted trace = [0, 1, 2, 3] ∧
    Delivers (fun x => (x - 0xfffffffe).toUInt8) 0xfffffffe (extracted trace) b := by
  have hrun : (empty (0xfffffffe : UInt32) 0 10).executeAll
      [.add 1 [3, 4], .add 0xfffffffe [0, 1, 2], .extract 4] =
      some (([(empty 0xfffffffe 0 10, .add 1 [3, 4], []),
        ({ empty 0xfffffffe 0 10 with sackList := [(1, 3)], size := 2, data := [(1, [3, 4])] },
          .add 0xfffffffe [0, 1, 2], []),
        ({ empty 3 0 10 with
            size := 5, availBytes := 5, data := [(0xfffffffe, [0, 1, 2]), (1, [3, 4])] },
          .extract 4, [0, 1, 2, 3])] : RxTrace UInt32),
        { empty 3 0 10 with size := 1, availBytes := 1, data := [(2, [4])] }) := rfl
  refine ⟨_, _, hrun, rfl,
    (delivers (run_executeAll hrun) (by decide) fun p hp => ⟨0xfffffffe, ?_⟩).1⟩
  revert p
  decide +kernel

end TcpRxBuffer

end SeanetSim
