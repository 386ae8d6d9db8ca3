import SeanetSim.Internet.TcpRxStream

/-!
# What the receive buffer must not store

The bytes that come into an empty window are cut off where the first stored block says, not at
`MaxRxSequence`, and nothing is cut off at the FIN.  The buffer stays within its size as long as no
segment reaches behind its window (`bounded_of_run`), and below the FIN as long as no segment does
(`belowFin_of_run`).
-/

namespace SeanetSim

open SequenceNumber Blocks

namespace TcpRxBuffer

section Code

variable {S : Type} [SequenceNumber S] [DecidableEq S]

/-- The stored bytes fit, and the advertised window is not negative. -/
def Bounded (b : TcpRxBuffer S) : Prop :=
  b.size ≤ b.maxBuffer ∧ ge b.maxRxSequence b.nextRxSeq = true

/-- A segment that begins in the window; there is no FIN. -/
def BeginsInWindow (b : TcpRxBuffer S) : RxEvent S → Prop
  | .add seq _ => lt seq b.maxRxSequence = true
  | .extract _ => True
  | .setFinSequence _ => False

/-- When the application has taken all bytes in order, a segment ends in the window, too. -/
def EndsInWindow (b : TcpRxBuffer S) : RxEvent S → Prop
  | .add seq payload =>
    b.availBytes = 0 → le (SequenceNumber.add seq payload.length) b.maxRxSequence = true
  | .extract _ => True
  | .setFinSequence _ => False

/-- Nothing from a number on is stored or acknowledged. -/
def Below (s : S) (b : TcpRxBuffer S) : Prop :=
  le b.nextRxSeq s = true ∧ ∀ i ∈ b.data, le (blockEnd i) s = true

/-- No stored byte lies behind the FIN, and at most the FIN itself is acknowledged. -/
def BelowFin (s : S) (b : TcpRxBuffer S) : Prop :=
  le b.nextRxSeq (SequenceNumber.add s 1) = true ∧ ∀ i ∈ b.data, le (blockEnd i) s = true

/-- The bytes of a segment that lie in the window, from the next number on, lie below the FIN. -/
def EndsAtFin (b : TcpRxBuffer S) : RxEvent S → Prop
  | .add seq payload => ∀ n < payload.length, le b.nextRxSeq (SequenceNumber.add seq n) = true →
    (∀ i ∈ b.data.head?,
      lt (SequenceNumber.add seq n) (SequenceNumber.add i.1 b.maxBuffer) = true) →
    lt (SequenceNumber.add seq n) b.finSeq = true
  | .extract _ => True
  | .setFinSequence _ => False

instance (s : S) (b : TcpRxBuffer S) : Decidable (Below s b) :=
  inferInstanceAs (Decidable (_ ∧ _))

instance (b : TcpRxBuffer S) : (e : RxEvent S) → Decidable (EndsAtFin b e)
  | .add _ _ => inferInstanceAs (Decidable (∀ _ < _, _ → _ → _))
  | .extract _ => inferInstanceAs (Decidable True)
  | .setFinSequence _ => inferInstanceAs (Decidable False)

instance (b : TcpRxBuffer S) : (e : RxEvent S) → Decidable (BeginsInWindow b e)
  | .add _ _ => inferInstanceAs (Decidable (_ = _))
  | .extract _ => inferInstanceAs (Decidable True)
  | .setFinSequence _ => inferInstanceAs (Decidable False)

instance (b : TcpRxBuffer S) : (e : RxEvent S) → Decidable (EndsInWindow b e)
  | .add _ _ => inferInstanceAs (Decidable (_ → _))
  | .extract _ => inferInstanceAs (Decidable True)
  | .setFinSequence _ => inferInstanceAs (Decidable False)

end Code

/-! ## The size -/

section Size

variable {u d : ℤ} {front back : List (RxBlock ℤ)} {b : TcpRxBuffer ℤ}

/-- No byte lies `maxBuffer` behind the first undelivered one. -/
def Fits (u : ℤ) (b : TcpRxBuffer ℤ) : Prop := ∀ i ∈ b.data, stop i ≤ u + b.maxBuffer

theorem Valid.maxRxSequence_eq (hb : Valid u d front back b) (hfin : b.gotFin = false) :
    b.maxRxSequence = u + b.maxBuffer := by
  have hchain := hb.chain
  have hnext := hb.next_eq hfin
  unfold maxRxSequence
  rw [if_neg (by simp [hfin]), hb.data]
  cases front with
  | nil =>
    have hu : u = d := hchain
    cases back with
    | nil => simp [hnext, hu]
    | cons i rest =>
      have hgap := hb.above i List.mem_cons_self
      simp [hnext, hu, not_lt.2 hgap.le]
  | cons i rest =>
    have hfirst : i.1 = u := hchain.1
    have hlt := hchain.2.1
    have hle := hchain.2.2.le
    simp [hnext, hfirst, show u < d by omega]

theorem Valid.bounded (hb : Valid u d front back b) (hfin : b.gotFin = false) (hfits : Fits u b) :
    Bounded b := by
  have hmax := hb.maxRxSequence_eq hfin
  have hd : d ≤ u + b.maxBuffer :=
    hb.chain.hi_le (by omega) fun i hi => hfits i (by simp [hb.data, hi])
  have htotal : u + total b.data ≤ u + b.maxBuffer :=
    hb.ordered_data.total_le (by omega) fun i hi => ⟨hb.first_ge i hi, hfits i hi⟩
  have hsize := hb.size
  refine ⟨by omega, ?_⟩
  rw [ge_int, decide_eq_true_eq, hmax, hb.next_eq hfin]
  exact hd

theorem add_fits (hb : Valid u d front back b) (hfin : b.gotFin = false) (hfits : Fits u b)
    {seq : ℤ} {payload : List UInt8} (hlength : payload.length < 2 ^ 32)
    (hend : EndsInWindow b (.add seq payload)) :
    ∃ r b' d' front' back', b.add seq payload = some (r, b') ∧ Valid u d' front' back' b' ∧
      b'.gotFin = false ∧ b'.maxBuffer = b.maxBuffer ∧ Fits u b' := by
  have htail : (b.trimToWindow seq (seq + payload.length)).2 ≤ u + b.maxBuffer := by
    have hspec := (trimToWindow_spec b seq (seq + payload.length)).1
    cases front with
    | nil =>
      have hu : u = d := hb.chain
      have havail := hb.avail
      have hle := hend (by omega)
      rw [le_int, decide_eq_true_eq, hb.maxRxSequence_eq hfin, add_int] at hle
      omega
    | cons i rest =>
      have hfirst : i.1 = u := hb.chain.1
      have hedge := trimToWindow_edge b seq (seq + payload.length) i (by simp [hb.data])
      omega
  rcases add_cases hb seq payload hlength Prod.mk.eta.symm with
      ⟨heq, -⟩ | ⟨A, E, B, x, y, p, hcut, hx, hp, -, heq⟩
  · exact ⟨false, b, d, front, back, heq, hb, hfin, rfl, hfits⟩
  · have hnext := hb.next_eq hfin
    obtain ⟨b', d', front', back', haccount, hvalid, -, hdata, hgot, -, hmax, -⟩ :=
      account_spec hb hnext hcut (hnext ▸ hx) hp
    refine ⟨true, b', d', front', back', by rw [heq, haccount]; rfl, hvalid, hgot.trans hfin,
      hmax, ?_⟩
    unfold Fits
    rw [hdata, hmax]
    exact hcut.forall_stop hp (hcut.tail.trans htail) hfits

theorem extract_fits (hb : Valid u d front back b) (hfits : Fits u b) (maxSize : ℕ) :
    ∃ out b' front', b.extract maxSize = some (out, b') ∧
      Valid (u + out.length) d front' back b' ∧ b'.gotFin = b.gotFin ∧
      b'.maxBuffer = b.maxBuffer ∧ Fits (u + out.length) b' := by
  obtain ⟨out, b', front', heq, -, hvalid, hgot, -, hmax, -⟩ := extract_valid hb maxSize
  refine ⟨out, b', front', heq, hvalid, hgot, hmax, fun i hi => ?_⟩
  have hd : d ≤ u + b.maxBuffer :=
    hb.chain.hi_le (by omega) fun i hi => hfits i (by simp [hb.data, hi])
  rw [hvalid.data] at hi
  rw [hmax]
  rcases List.mem_append.1 hi with hi | hi
  · have := hvalid.chain.bounds i hi
    omega
  · have := hfits i (by simp [hb.data, hi])
    omega

/-- The bytes stay within the buffer as long as no segment reaches behind the window. -/
theorem fits_of_run {initial fin : ℤ} {maxBuffer : ℕ} {trace : RxTrace ℤ}
    (hrun : Run Step (empty initial fin maxBuffer) trace b)
    (hend : ∀ p ∈ trace, EndsInWindow p.1 p.2.1 ∧
      ∀ seq payload, p.2.1 = .add seq payload → payload.length < 2 ^ 32) :
    b.maxBuffer = maxBuffer ∧
      ∃ u d front back, Valid u d front back b ∧ b.gotFin = false ∧ Fits u b := by
  refine (hrun.invariant_along (I := fun b => b.maxBuffer = maxBuffer ∧
    ∃ u d front back, Valid u d front back b ∧ b.gotFin = false ∧ Fits u b) ?_ ?_ hend).2
  · exact ⟨rfl, initial, initial, [], [], valid_empty initial fin maxBuffer, rfl, nofun⟩
  · rintro b ⟨e, out⟩ b' ⟨hbuffer, u, d, front, back, hb, hfin, hfits⟩ ⟨hend, hlength⟩ hst
    cases e with
    | add seq payload =>
      obtain ⟨r, c, d', front', back', heq, hvalid, hgot, hmax, hfits'⟩ :=
        add_fits hb hfin hfits (hlength seq payload rfl) hend
      obtain ⟨-, rfl⟩ := hst.of_add heq
      exact ⟨hmax.trans hbuffer, u, d', front', back', hvalid, hgot, hfits'⟩
    | extract maxSize =>
      obtain ⟨out', c, front', heq, hvalid, hgot, hmax, hfits'⟩ := extract_fits hb hfits maxSize
      obtain ⟨-, rfl⟩ := hst.of_extract heq
      exact ⟨hmax.trans hbuffer, _, d, front', back, hvalid, hgot.trans hfin, hfits'⟩
    | setFinSequence s => exact absurd hend id

/-! ### 32 bits -/

theorem maxRxSequence_lift {lo hi : ℤ} (hspan : hi - lo ≤ 2 ^ 31) (hb : Within lo hi b) :
    b.lift.maxRxSequence = wrap b.maxRxSequence := by
  unfold maxRxSequence
  rw [show b.lift.gotFin = b.gotFin from rfl, show b.lift.data = b.data.map liftBlock from rfl,
    show b.lift.nextRxSeq = wrap b.nextRxSeq from rfl, show b.lift.finSeq = wrap b.finSeq from rfl,
    show b.lift.maxBuffer = b.maxBuffer from rfl]
  cases hdata : b.data with
  | nil => split_ifs <;> simp [wrap_add]
  | cons i rest =>
    have hgt : gt (wrap b.nextRxSeq) (wrap i.1) = gt b.nextRxSeq i.1 :=
      gt_lift hspan hb.next (hb.data i (by simp [hdata])).1
    rw [List.map_cons]
    dsimp only
    rw [show (liftBlock i).1 = wrap i.1 from rfl, hgt]
    split_ifs <;> simp [wrap_add]

theorem endsInWindow_of_lift {lo : ℤ} (hb : Within lo (lo + 2 ^ 31) b) {e : RxEvent ℤ}
    (he : EventIn lo (lo + 2 ^ 31) b e)
    (hbuffer : offset (wrap lo) b.lift.nextRxSeq + b.lift.maxBuffer < 2 ^ 31)
    (hend : EndsInWindow b.lift (liftEvent e)) : EndsInWindow b e := by
  cases e with
  | add seq payload =>
    intro havail
    have hnext := hb.next
    have hedge : In lo (lo + 2 ^ 31) (b.nextRxSeq + b.maxBuffer) := by
      unfold In at hnext
      exact (in_of_offset (by omega) (by omega) hbuffer).2
    have hmax : In lo (lo + 2 ^ 31) b.maxRxSequence := by
      unfold maxRxSequence
      cases hdata : b.data with
      | nil =>
        split_ifs with hfin
        · exact (hb.fin hfin).1
        · exact hedge
      | cons i rest =>
        dsimp only
        split_ifs with hfin
        · exact (hb.fin hfin).1
        · exact he.2.2 i (by simp [hdata])
        · exact hedge
    have hle := hend havail
    rw [maxRxSequence_lift (by omega) hb, ← wrap_add] at hle
    rwa [add_int, ← le_lift (by omega) he.2.1 hmax]
  | extract maxSize => trivial
  | setFinSequence s => exact hend

/-- The buffer stays within its size, and the window is never negative, in a run in which each
segment that comes when no bytes are left in order ends in the window. -/
theorem bounded_of_run {initial fin : UInt32} {maxBuffer : ℕ} {trace : RxTrace UInt32}
    {b : TcpRxBuffer UInt32} (hbuffer : maxBuffer < 0x80000000)
    (hrun : Run Step (empty initial fin maxBuffer) trace b)
    (hwindow : ∀ p ∈ trace, ∃ base, InWindow base p.1 ∧ EventInWindow base p.1 p.2.1 ∧
      offset base p.1.nextRxSeq + p.1.maxBuffer < 0x80000000)
    (hend : ∀ p ∈ trace, EndsInWindow p.1 p.2.1) : Bounded b := by
  obtain ⟨z, rfl⟩ := exists_wrap initial
  obtain ⟨zfin, rfl⟩ := exists_wrap fin
  obtain ⟨trace, b, hrun', rfl, rfl, ⟨lo, hb⟩, hin⟩ := exists_run_of_inWindow
    (P := fun base b e => offset base b.nextRxSeq + b.maxBuffer < 0x80000000 ∧ EndsInWindow b e)
    (within_empty z zfin maxBuffer) hrun fun p hp => by
      obtain ⟨base, hbase, hevent, hnext⟩ := hwindow p hp
      exact ⟨base, hbase, hevent, hnext, hend p hp⟩
  obtain ⟨hmax, u, d, front, back, hvalid, hfin, hfits⟩ := fits_of_run hrun' fun q hq => by
    obtain ⟨lo, hwithin, hevent, hnext, hends⟩ := hin q hq
    refine ⟨endsInWindow_of_lift hwithin hevent hnext hends, fun seq payload he => ?_⟩
    rw [he] at hevent
    exact hevent.length_lt
  obtain ⟨hsize, hge⟩ := hvalid.bounded hfin hfits
  have hedge := hvalid.maxRxSequence_eq hfin
  have hud := hvalid.chain.le
  have hnext := hvalid.next_eq hfin
  rw [ge_int, decide_eq_true_eq] at hge
  refine ⟨hsize, ?_⟩
  rw [maxRxSequence_lift (by omega) hb, show b.lift.nextRxSeq = wrap b.nextRxSeq from rfl,
    ge_wrap (by omega) (by omega), decide_eq_true_eq]
  exact hge

/-- A segment at the left edge of the window and one at the right edge, as long as the window. -/
theorem bounded_filled : Bounded (S := UInt32)
    { empty 0xfffffffe 0 10 with
      size := 10, nextRxSeq := 8, availBytes := 10,
      data := [(0xfffffffe, List.replicate 4 7), (2, List.replicate 6 8)] } := by
  have hrun : (empty (0xfffffffe : UInt32) 0 10).executeAll
      [.add 2 (List.replicate 6 8), .add 0xfffffffe (List.replicate 4 7)] =
      some (([(empty 0xfffffffe 0 10, .add 2 (List.replicate 6 8), []),
        ({ empty 0xfffffffe 0 10 with
            sackList := [(2, 8)], size := 6, data := [(2, List.replicate 6 8)] },
          .add 0xfffffffe (List.replicate 4 7), [])] : RxTrace UInt32),
        { empty 0xfffffffe 0 10 with
          size := 10, nextRxSeq := 8, availBytes := 10,
          data := [(0xfffffffe, List.replicate 4 7), (2, List.replicate 6 8)] }) := rfl
  refine bounded_of_run (by decide) (run_executeAll hrun) (fun p hp => ⟨0xfffffffe, ?_⟩) ?_
  · revert p
    decide +kernel
  · decide

/-- The segment in front of the right edge reaches over it; the one that fills the gap makes the
buffer too large. -/
theorem not_bounded_over_edge : ∃ (trace : RxTrace UInt32) (b : TcpRxBuffer UInt32),
    Run Step (empty 0 0 10) trace b ∧ (∀ p ∈ trace, BeginsInWindow p.1 p.2.1) ∧
    b.maxBuffer < b.size ∧ ge b.maxRxSequence b.nextRxSeq = false := by
  have hrun : (empty (0 : UInt32) 0 10).executeAll
      [.add 9 (List.replicate 3 8), .add 0 (List.replicate 9 7)] =
      some (([(empty 0 0 10, .add 9 (List.replicate 3 8), []),
        ({ empty 0 0 10 with
            sackList := [(9, 12)], size := 3, data := [(9, List.replicate 3 8)] },
          .add 0 (List.replicate 9 7), [])] : RxTrace UInt32),
        { empty 0 0 10 with
          size := 12, nextRxSeq := 12, availBytes := 12,
          data := [(0, List.replicate 9 7), (9, List.replicate 3 8)] }) := rfl
  exact ⟨_, _, run_executeAll hrun, by decide, by decide, by decide⟩

end Size

/-! ## The FIN -/

section Fin

variable {u d F : ℤ} {front back : List (RxBlock ℤ)} {b : TcpRxBuffer ℤ}

/-- The blocks in order end at the FIN at the latest, and so do the others. -/
structure AtFin (F u d : ℤ) (front back : List (RxBlock ℤ)) (b : TcpRxBuffer ℤ) : Prop where
  valid : Valid u d front back b
  gotFin : b.gotFin = true
  finSeq : b.finSeq = F
  stored : ∀ i ∈ b.data, stop i ≤ F
  inOrder : d ≤ F

theorem AtFin.next_eq (hb : AtFin F u d front back b) :
    b.nextRxSeq = if d = F then d + 1 else d := by
  rw [hb.valid.next, hb.gotFin, hb.finSeq]
  simp only [true_and, eq_comm]

theorem atFin_setFinSequence (hb : Valid u d front back b) (hfin : b.gotFin = false)
    (hbelow : Below F b) : AtFin F u d front back (b.setFinSequence F) := by
  have hnext := hb.next_eq hfin
  obtain ⟨hle, hstored⟩ := hbelow
  simp only [le_int, decide_eq_true_eq, hnext] at hle hstored
  refine ⟨⟨hb.data, hb.chain, hb.ordered, hb.above, hb.size, hb.avail, ?_, hb.sack⟩, rfl, rfl,
    hstored, hle⟩
  simp only [setFinSequence, hnext, add_int, true_and, eq_comm]
  rfl

theorem add_atFin (hb : AtFin F u d front back b) {seq : ℤ} {payload : List UInt8}
    (hlength : payload.length < 2 ^ 32) (hend : EndsAtFin b (.add seq payload)) :
    ∃ r b' d' front' back', b.add seq payload = some (r, b') ∧ AtFin F u d' front' back' b' := by
  rcases add_cases hb.valid seq payload hlength Prod.mk.eta.symm with
      ⟨heq, -⟩ | ⟨A, E, B, x, y, p, hcut, hx, hp, -, heq⟩
  · exact ⟨false, b, d, front, back, heq, hb⟩
  · have hxh := hcut.head
    have hxy := hcut.new
    have hyt := hcut.tail
    have hspec := trimToWindow_spec b seq (seq + payload.length)
    have hedge := trimToWindow_edge b seq (seq + payload.length)
    generalize (b.trimToWindow seq (seq + payload.length)).1 = h at *
    generalize (b.trimToWindow seq (seq + payload.length)).2 = t at *
    obtain ⟨hseq, hnext⟩ := hspec.2 (by omega)
    -- the last byte in the window lies below the FIN
    have hlast : t ≤ F := by
      have hbyte := hend (t - 1 - seq).toNat (by omega)
      simp only [add_int, le_int, lt_int, decide_eq_true_eq, hb.finSeq] at hbyte
      have := hbyte (by omega) fun i hi => by
        have := hedge i hi
        omega
      omega
    have hopen : b.nextRxSeq = d := by
      rw [hb.next_eq] at hx ⊢
      split_ifs at hx ⊢ <;> omega
    obtain ⟨b', d', front', back', haccount, hvalid, -, hdata, hgot, hfin, -⟩ :=
      account_spec hb.valid hopen hcut (hopen ▸ hx) hp
    have hstored : ∀ i ∈ b'.data, stop i ≤ F := by
      rw [hdata]
      exact hcut.forall_stop hp (by omega) hb.stored
    refine ⟨true, b', d', front', back', by rw [heq, haccount]; rfl, hvalid, hgot.trans hb.gotFin,
      hfin.trans hb.finSeq, hstored, ?_⟩
    refine hvalid.chain.hi_le ?_ fun i hi => hstored i (by simp [hvalid.data, hi])
    have := hb.valid.chain.le
    have := hb.inOrder
    omega

theorem extract_atFin (hb : AtFin F u d front back b) (maxSize : ℕ) :
    ∃ out b' front', b.extract maxSize = some (out, b') ∧
      AtFin F (u + out.length) d front' back b' := by
  obtain ⟨out, b', front', heq, -, hvalid, hgot, hfin, -⟩ := extract_valid hb.valid maxSize
  refine ⟨out, b', front', heq, hvalid, hgot.trans hb.gotFin, hfin.trans hb.finSeq, fun i hi => ?_,
    hb.inOrder⟩
  have hd := hb.inOrder
  rw [hvalid.data] at hi
  rcases List.mem_append.1 hi with hi | hi
  · have := hvalid.chain.bounds i hi
    omega
  · exact hb.stored i (by simp [hb.valid.data, hi])

theorem endsAtFin_of_lift {lo : ℤ} (hb : Within lo (lo + 2 ^ 31) b) (hfin : b.gotFin = true)
    {e : RxEvent ℤ} (he : EventIn lo (lo + 2 ^ 31) b e)
    (hend : EndsAtFin b.lift (liftEvent e)) : EndsAtFin b e := by
  cases e with
  | add seq payload =>
    intro n hn hnext hedge
    obtain ⟨hseq, hseq', hfirst⟩ := he
    have hbyte : In lo (lo + 2 ^ 31) (seq + n) := by
      unfold In at hseq hseq' ⊢
      omega
    have hlt := hend n hn
    rw [← wrap_add, show b.lift.nextRxSeq = wrap b.nextRxSeq from rfl,
      le_lift (by omega) hb.next hbyte, show b.lift.finSeq = wrap b.finSeq from rfl,
      lt_lift (by omega) hbyte (hb.fin hfin).1] at hlt
    refine hlt hnext fun i hi => ?_
    rw [show b.lift.data = b.data.map liftBlock from rfl, List.head?_map] at hi
    obtain ⟨j, hj, rfl⟩ := Option.mem_map.1 hi
    rw [show (liftBlock j).1 = wrap j.1 from rfl, show b.lift.maxBuffer = b.maxBuffer from rfl,
      ← wrap_add, lt_lift (by omega) hbyte (hfirst j hj)]
    exact hedge j hj
  | extract maxSize => trivial
  | setFinSequence s => exact hend

/-- A run after the FIN, as long as no segment reaches over it. -/
theorem atFin_of_run {b₀ : TcpRxBuffer ℤ} {trace : RxTrace ℤ} (h₀ : AtFin F u d front back b₀)
    (hrun : Run Step b₀ trace b)
    (hend : ∀ q ∈ trace, ∃ lo, Within lo (lo + 2 ^ 31) q.1 ∧
      EventIn lo (lo + 2 ^ 31) q.1 q.2.1 ∧ EndsAtFin q.1.lift (liftEvent q.2.1)) :
    ∃ d' front' back', AtFin F (u + (extracted trace).length) d' front' back' b := by
  induction hrun with
  | nil => exact ⟨d, front, back, by simpa [extracted] using h₀⟩
  | snoc hrun hst ih =>
    rename_i trace b b' e
    obtain ⟨e, out⟩ := e
    obtain ⟨d', front', back', hb⟩ := ih fun q hq => hend q (List.mem_append_left _ hq)
    obtain ⟨lo, hwithin, hevent, hlast⟩ := hend (b, e, out) (List.mem_append_right _ (by simp))
    have hends := endsAtFin_of_lift hwithin hb.gotFin hevent hlast
    cases e with
    | add seq payload =>
      obtain ⟨r, c, d', front', back', heq, hatFin⟩ := add_atFin hb hevent.length_lt hends
      obtain ⟨rfl, rfl⟩ := hst.of_add heq
      exact ⟨d', front', back', by simpa [extracted] using hatFin⟩
    | extract maxSize =>
      obtain ⟨out', c, front', heq, hatFin⟩ := extract_atFin hb maxSize
      obtain ⟨rfl, rfl⟩ := hst.of_extract heq
      exact ⟨d', front', back', by simpa [extracted, add_assoc] using hatFin⟩
    | setFinSequence s => exact absurd hends id

/-- A run before the FIN. -/
theorem valid_of_noFin {initial fin : ℤ} {maxBuffer : ℕ} {trace : RxTrace ℤ}
    (hrun : Run Step (empty initial fin maxBuffer) trace b)
    (hopen : ∀ q ∈ trace, NoFin q.2.1 ∧
      ∃ lo, EventIn lo (lo + 2 ^ 31) q.1 q.2.1) :
    ∃ u d front back, Valid u d front back b ∧ b.gotFin = false := by
  refine (hrun.invariant_along
    (I := fun b => ∃ u d front back, Valid u d front back b ∧ b.gotFin = false) ?_ ?_ hopen).2
  · exact ⟨initial, initial, [], [], valid_empty initial fin maxBuffer, rfl⟩
  · rintro b ⟨e, out⟩ b' ⟨u, d, front, back, hb, hfin⟩ ⟨hopen, lo, hevent⟩ hst
    cases e with
    | add seq payload =>
      obtain ⟨r, c, d', front', back', heq, hvalid, hgot, -⟩ :=
        add_valid hb hfin seq payload hevent.length_lt
      obtain ⟨-, rfl⟩ := hst.of_add heq
      exact ⟨u, d', front', back', hvalid, hgot⟩
    | extract maxSize =>
      obtain ⟨out', c, front', heq, -, hvalid, hgot, -⟩ := extract_valid hb maxSize
      obtain ⟨-, rfl⟩ := hst.of_extract heq
      exact ⟨_, d, front', back, hvalid, hgot.trans hfin⟩
    | setFinSequence s => exact absurd hopen id

theorem AtFin.belowFin {lo : ℤ} (hb : AtFin F u d front back b)
    (hin : Within lo (lo + 2 ^ 31) b) : BelowFin (wrap F) b.lift := by
  obtain ⟨hF, hF'⟩ := hin.fin hb.gotFin
  rw [hb.finSeq] at hF hF'
  have hnext := hb.next_eq
  have hd := hb.inOrder
  refine ⟨?_, fun i hi => ?_⟩
  · have hle : le (wrap b.nextRxSeq) (wrap (F + 1)) = le b.nextRxSeq (F + 1) :=
      le_lift (by omega) hin.next hF'
    rw [show b.lift.nextRxSeq = wrap b.nextRxSeq from rfl,
      show SequenceNumber.add (wrap F) 1 = wrap (F + 1) from (wrap_add F 1).symm, hle, le_int,
      decide_eq_true_eq, hnext]
    split_ifs <;> omega
  · obtain ⟨j, hj, rfl⟩ := List.mem_map.1 hi
    rw [blockEnd_lift, le_lift (by omega) (hin.data j hj).2 hF, le_int, decide_eq_true_eq]
    exact hb.stored j hj

theorem below_of_lift {lo : ℤ} (hb : Within lo (lo + 2 ^ 31) b) (hF : In lo (lo + 2 ^ 31) F)
    (hbelow : Below (wrap F) b.lift) : Below F b := by
  refine ⟨?_, fun i hi => ?_⟩
  · rw [← le_lift (by omega) hb.next hF]
    exact hbelow.1
  · rw [← le_lift (by omega) (hb.data i hi).2 hF, ← blockEnd_lift]
    exact hbelow.2 (liftBlock i) (List.mem_map_of_mem hi)

/-- Nothing behind the FIN is stored, acknowledged or extracted in a run after `SetFinSequence` in
which the segments end at the FIN as far as they lie in the window. -/
theorem belowFin_of_run {initial fin F : UInt32} {maxBuffer : ℕ} {trace₀ trace : RxTrace UInt32}
    {b₀ b : TcpRxBuffer UInt32} (hbefore : Run Step (empty initial fin maxBuffer) trace₀ b₀)
    (hopen : ∀ p ∈ trace₀, NoFin p.2.1)
    (hwindow₀ : ∀ p ∈ trace₀, ∃ base, InWindow base p.1 ∧ EventInWindow base p.1 p.2.1)
    (hbelow : Below F b₀)
    (hwindowF : ∃ base, InWindow base b₀ ∧ EventInWindow base b₀ (.setFinSequence F))
    (hafter : Run Step (b₀.setFinSequence F) trace b)
    (hwindow : ∀ p ∈ trace, ∃ base, InWindow base p.1 ∧ EventInWindow base p.1 p.2.1)
    (hend : ∀ p ∈ trace, EndsAtFin p.1 p.2.1) :
    BelowFin F b ∧ (extracted trace).length ≤ b₀.availBytes + offset b₀.nextRxSeq F := by
  obtain ⟨z, rfl⟩ := exists_wrap initial
  obtain ⟨zfin, rfl⟩ := exists_wrap fin
  obtain ⟨trace₀, b₀, hrun₀, rfl, rfl, ⟨lo, hb₀⟩, hin₀⟩ := exists_run_of_inWindow
    (P := fun _ _ e => NoFin e) (within_empty z zfin maxBuffer) hbefore fun p hp => by
      obtain ⟨base, hbase, hevent⟩ := hwindow₀ p hp
      exact ⟨base, hbase, hevent, hopen p hp⟩
  obtain ⟨base, hbase, hsmall⟩ := hwindowF
  obtain ⟨lo, rfl, hb₀⟩ := within_of_inWindow hb₀ hbase
  obtain ⟨e, he, hevent⟩ := exists_event hb₀ hsmall
  cases e with
  | add seq payload => cases he
  | extract maxSize => cases he
  | setFinSequence F =>
    cases he
    obtain ⟨hF, hF'⟩ := hevent
    obtain ⟨hset, hwithin⟩ := setFinSequence_lift (by omega) hb₀ hF hF'
    rw [hset] at hafter
    obtain ⟨trace, b, hrun, rfl, rfl, ⟨lo', hb⟩, hin⟩ := exists_run_of_inWindow
      (P := fun _ b e => EndsAtFin b e) hwithin hafter fun p hp => by
        obtain ⟨base, hbase, hevent⟩ := hwindow p hp
        exact ⟨base, hbase, hevent, hend p hp⟩
    obtain ⟨u, d, front, back, hvalid, hfin⟩ := valid_of_noFin hrun₀ fun q hq => by
      obtain ⟨lo, -, hevent, hnofin⟩ := hin₀ q hq
      refine ⟨?_, lo, hevent⟩
      cases he : q.2.1 with
      | add seq payload => trivial
      | extract maxSize => trivial
      | setFinSequence s =>
        rw [he] at hnofin
        exact hnofin
    obtain ⟨d', front', back', hatFin⟩ := atFin_of_run
      (atFin_setFinSequence hvalid hfin (below_of_lift hb₀ hF hbelow)) hrun hin
    refine ⟨hatFin.belowFin hb, ?_⟩
    have hout :
        extracted (trace.map (Prod.map lift (Prod.map liftEvent id))) = extracted trace := by
      unfold extracted
      rw [List.flatMap_map]
      rfl
    have hchain := hatFin.valid.chain.le
    have hd := hatFin.inOrder
    have havail := hvalid.avail
    have hnext := hb₀.next
    have hsub := toNat_wrap_sub F d
    rw [hvalid.next_eq hfin] at hnext
    unfold In at hF hnext
    rw [hout, show b₀.lift.nextRxSeq = wrap b₀.nextRxSeq from rfl, hvalid.next_eq hfin,
      show b₀.lift.availBytes = b₀.availBytes from rfl, offset]
    omega

/-- The FIN arrives between the two segments, and then a segment again. -/
theorem belowFin_filled : ∃ (trace : RxTrace UInt32) (b : TcpRxBuffer UInt32),
    extracted trace = [7, 7, 8] ∧ b.nextRxSeq = 3 ∧ BelowFin 2 b ∧
      (extracted trace).length ≤ 0 + offset 0xfffffffe 2 := by
  have hbefore : (empty (0xfffffffe : UInt32) 0 10).executeAll [.add 0 [8, 8]] =
      some (([(empty 0xfffffffe 0 10, .add 0 [8, 8], [])] : RxTrace UInt32),
        { empty 0xfffffffe 0 10 with sackList := [(0, 2)], size := 2, data := [(0, [8, 8])] }) :=
    rfl
  have hafter : (setFinSequence { empty (0xfffffffe : UInt32) 0 10 with
        sackList := [(0, 2)], size := 2, data := [(0, [8, 8])] } 2).executeAll
      [.add 0xfffffffe [7, 7], .add 0 [8, 8], .extract 3] =
      some (([({ empty 0xfffffffe 2 10 with
            gotFin := true, sackList := [(0, 2)], size := 2, data := [(0, [8, 8])] },
          .add 0xfffffffe [7, 7], []),
        ({ empty 3 2 10 with
            gotFin := true, size := 4, availBytes := 4
            data := [(0xfffffffe, [7, 7]), (0, [8, 8])] },
          .add 0 [8, 8], []),
        ({ empty 3 2 10 with
            gotFin := true, size := 4, availBytes := 4
            data := [(0xfffffffe, [7, 7]), (0, [8, 8])] },
          .extract 3, [7, 7, 8])] : RxTrace UInt32),
        { empty 3 2 10 with gotFin := true, size := 1, availBytes := 1, data := [(1, [8])] }) := rfl
  refine ⟨_, _, rfl, rfl, belowFin_of_run (run_executeAll hbefore) (by decide)
    (fun p hp => ⟨0xfffffffe, ?_⟩) (by decide) ⟨0xfffffffe, by decide +kernel⟩
    (run_executeAll hafter)
    (fun p hp => ⟨0xfffffffe, ?_⟩) (by decide)⟩
  · revert p
    decide +kernel
  · revert p
    decide +kernel

/-- A segment that reaches over the FIN is stored and acknowledged as a whole. -/
theorem not_belowFin_over_fin : ∃ (trace : RxTrace UInt32) (b : TcpRxBuffer UInt32),
    Below 3 (empty (1 : UInt32) 0 10) ∧ Run Step ((empty 1 0 10).setFinSequence 3) trace b ∧
    (∀ p ∈ trace, NoFin p.2.1) ∧ b.data = [(1, [5, 6, 7, 8])] ∧
    gt b.nextRxSeq (SequenceNumber.add 3 1) = true := by
  have hrun : ((empty (1 : UInt32) 0 10).setFinSequence 3).executeAll [.add 1 [5, 6, 7, 8]] =
      some (([((empty 1 0 10).setFinSequence 3, .add 1 [5, 6, 7, 8], [])] : RxTrace UInt32),
        { empty 5 3 10 with
          gotFin := true, size := 4, availBytes := 4, data := [(1, [5, 6, 7, 8])] }) := rfl
  exact ⟨_, _, by decide, run_executeAll hrun, by decide, rfl, by decide⟩

end Fin

end TcpRxBuffer

end SeanetSim
