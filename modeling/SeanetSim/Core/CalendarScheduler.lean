import Mathlib.Data.Multiset.Bind
import Mathlib.Data.Multiset.Filter
import Mathlib.Data.Nat.ModEq
import SeanetSim.Core.Scheduler
import SeanetSim.Lib.SortedList

/-!
# The calendar scheduler

`CalendarScheduler` keeps the events in buckets, each for the times of one part of every year, and
looks for the next event from the bucket of the last one on.  What `DoRemoveNext` does is said by
`doRemoveNext_eq_none` and `exists_doRemoveNext`: it removes the least event, unless all events have
the last of the times.
-/

namespace SeanetSim

variable {ι : Type*}

/-- The times are `uint64_t`; `buckets` is read below `nBuckets`. -/
structure CalendarScheduler (ι : Type*) where
  buckets : ℕ → List (SchedulerEvent ι)
  nBuckets : ℕ
  width : ℕ
  lastBucket : ℕ
  bucketTop : ℕ
  lastPrio : ℕ
  qSize : ℕ
  reverse : Bool

/-- How the search of a year ends: at an event that is due in its bucket, or after all buckets with
the least of their first events, if one is less than the key at the start. -/
inductive CalendarSearch (ι : Type*)
  | inBucket (next : SchedulerEvent ι) (i bucketTop : ℕ)
  | direct (minKey : EventKey) (min : Option (SchedulerEvent ι × ℕ))

namespace CalendarScheduler

/-! ### The functions that `SetReverse` chooses -/

section Reverse

variable (reverse : Bool)

def nextEvent (bucket : List (SchedulerEvent ι)) : Option (SchedulerEvent ι) :=
  if reverse then bucket.getLast? else bucket.head?

def order (a b : SchedulerEvent ι) : Bool :=
  if reverse then a.key.gt b.key else a.key.lt b.key

def pop (bucket : List (SchedulerEvent ι)) : List (SchedulerEvent ι) :=
  if reverse then bucket.dropLast else bucket.tail

end Reverse

variable (s : CalendarScheduler ι)

def hash (ts : ℕ) : ℕ := ts / s.width % s.nBuckets

/-- `Init`. -/
def start (nBuckets width startPrio : ℕ) : CalendarScheduler ι where
  buckets _ := []
  nBuckets := nBuckets
  width := width
  lastPrio := startPrio
  lastBucket := startPrio / width % nBuckets
  bucketTop := (startPrio / width + 1) * width % 2 ^ 64
  qSize := s.qSize
  reverse := s.reverse

/-- The constructor. -/
def init (reverse : Bool) : CalendarScheduler ι :=
  start ⟨fun _ => [], 0, 0, 0, 0, 0, 0, reverse⟩ 2 1 0

/-- A bucket is replaced. -/
def setBucket (i : ℕ) (bucket : List (SchedulerEvent ι)) : CalendarScheduler ι :=
  { s with buckets := Function.update s.buckets i bucket }

def doInsert (ev : SchedulerEvent ι) : CalendarScheduler ι :=
  let bucket := s.hash ev.key.ts.toNat
  s.setBucket bucket (insertUpper (order s.reverse) ev (s.buckets bucket))

def isEmpty : Bool := s.qSize == 0

/-- The loop over the buckets, for at most as many rounds as the first argument says. -/
def searchFrom (s : CalendarScheduler ι) :
    ℕ → ℕ → ℕ → EventKey → Option (SchedulerEvent ι × ℕ) → CalendarSearch ι
  | 0, _, _, minKey, min => .direct minKey min
  | rounds + 1, i, bucketTop, minKey, min =>
    let continue' (minKey : EventKey) (min : Option (SchedulerEvent ι × ℕ)) :=
      if (i + 1) % s.nBuckets ≠ s.lastBucket then
        s.searchFrom rounds ((i + 1) % s.nBuckets) ((bucketTop + s.width) % 2 ^ 64) minKey min
      else .direct minKey min
    match nextEvent s.reverse (s.buckets i) with
    | some next =>
      if next.key.ts.toNat < bucketTop then .inBucket next i bucketTop
      else if next.key.lt minKey then continue' next.key (some (next, i))
      else continue' minKey min
    | none => continue' minKey min

def search (minKey : EventKey) : CalendarSearch ι :=
  s.searchFrom s.nBuckets s.lastBucket s.bucketTop minKey none

/-- `PeekNext`; nothing for the event without an `impl`. -/
def peekNext : Option (SchedulerEvent ι) :=
  match s.search ⟨-1, -1, 0⟩ with
  | .inBucket next _ _ => some next
  | .direct _ min => min.map (·.1)

/-- `DoRemoveNext`; nothing if the index into the buckets is -1. -/
def doRemoveNext : Option (SchedulerEvent ι × CalendarScheduler ι) :=
  match s.search ⟨-1, 0, -1⟩ with
  | .inBucket next i bucketTop =>
    some (next, { s.setBucket i (pop s.reverse (s.buckets i)) with
      lastBucket := i
      lastPrio := next.key.ts.toNat
      bucketTop := bucketTop })
  | .direct minKey min =>
    min.bind fun m => (nextEvent s.reverse (s.buckets m.2)).map fun next =>
      (next, { s.setBucket m.2 (pop s.reverse (s.buckets m.2)) with
        lastPrio := minKey.ts.toNat
        lastBucket := s.hash minKey.ts.toNat
        bucketTop := (minKey.ts.toNat / s.width + 1) * s.width % 2 ^ 64 })

/-- The first events, one after the other. -/
def gather : ℕ → CalendarScheduler ι → Option (List (SchedulerEvent ι) × CalendarScheduler ι)
  | 0, s => some ([], s)
  | n + 1, s => s.doRemoveNext.bind fun p => (gather n p.2).map fun r => (p.1 :: r.1, r.2)

/-- How many events a resize looks at, of as many. -/
def nSamples (qSize : ℕ) : ℕ := min (if qSize ≤ 5 then qSize else 5 + qSize / 10) 25

/-- The inter-time average over samples, as it is computed. -/
def averageWidth (samples : List (SchedulerEvent ι)) (nSamples : ℕ) : UInt64 :=
  let separations := samples.zipWith (fun cur next => next.key.ts - cur.key.ts) samples.tail
  let twiceAvg := separations.foldl (· + ·) 0 / UInt64.ofNat (nSamples - 1) * 2
  max ((separations.filter (· ≤ twiceAvg)).foldl (· + ·) 0 * 3) 1

/-- `CalculateNewWidth`, with the scheduler that it leaves. -/
def calculateNewWidth : Option (ℕ × CalendarScheduler ι) :=
  if s.qSize < 2 then some (1, s)
  else (gather (nSamples s.qSize) s).map fun r =>
    ((averageWidth r.1 (nSamples s.qSize)).toNat, { r.1.foldl doInsert r.2 with
      lastBucket := s.lastBucket
      bucketTop := s.bucketTop
      lastPrio := s.lastPrio })

/-- The events, bucket after bucket. -/
def events : List (SchedulerEvent ι) := (List.range s.nBuckets).flatMap s.buckets

def doResize (newSize newWidth : ℕ) : CalendarScheduler ι :=
  s.events.foldl doInsert (s.start newSize newWidth s.lastPrio)

def resize (newSize : ℕ) : Option (CalendarScheduler ι) :=
  s.calculateNewWidth.map fun r => r.2.doResize newSize r.1

def resizeUp : Option (CalendarScheduler ι) :=
  if s.qSize > s.nBuckets * 2 ∧ s.nBuckets < 32768 then s.resize (s.nBuckets * 2) else some s

def resizeDown : Option (CalendarScheduler ι) :=
  if s.qSize < s.nBuckets / 2 then s.resize (s.nBuckets / 2) else some s

def insert (ev : SchedulerEvent ι) : Option (CalendarScheduler ι) :=
  resizeUp { s.doInsert ev with qSize := (s.qSize + 1) % 2 ^ 32 }

/-- `m_qSize--` with what follows it. -/
def decreased (s : CalendarScheduler ι) : Option (CalendarScheduler ι) :=
  resizeDown { s with qSize := (s.qSize + 2 ^ 32 - 1) % 2 ^ 32 }

def removeNext : Option (SchedulerEvent ι × CalendarScheduler ι) :=
  s.doRemoveNext.bind fun p => p.2.decreased.map fun t => (p.1, t)

/-- `Remove`; nothing also if the event is not there. -/
def remove (ev : SchedulerEvent ι) : Option (CalendarScheduler ι) :=
  let bucket := s.hash ev.key.ts.toNat
  if (s.buckets bucket).any (·.key.same ev.key) then
    (s.setBucket bucket ((s.buckets bucket).eraseP (·.key.same ev.key))).decreased
  else none

/-! ### What is in the buckets -/

/-- The order in a bucket. -/
def BucketSorted (reverse : Bool) (bucket : List (SchedulerEvent ι)) : Prop :=
  bucket.Pairwise fun x y => if reverse then y.key.rank ≤ x.key.rank else x.key.rank ≤ y.key.rank

section Reverse

variable {reverse : Bool} {bucket : List (SchedulerEvent ι)} {ev next : SchedulerEvent ι}

theorem BucketSorted.insertUpper (h : BucketSorted reverse bucket) :
    BucketSorted reverse (insertUpper (order reverse) ev bucket) := by
  cases reverse with
  | false =>
    have hkey (a b : SchedulerEvent ι) : order false a b = true ↔ a.key.rank < b.key.rank :=
      EventKey.lt_iff ..
    exact pairwise_insertUpper hkey h
  | true =>
    have hkey (a b : SchedulerEvent ι) :
        order true a b = true ↔ OrderDual.toDual a.key.rank < OrderDual.toDual b.key.rank :=
      EventKey.gt_iff ..
    exact pairwise_insertUpper hkey h

theorem coe_eq_cons_pop (h : nextEvent reverse bucket = some next) :
    (bucket : Multiset (SchedulerEvent ι)) = next ::ₘ ↑(pop reverse bucket) := by
  cases reverse with
  | false =>
    obtain ⟨rest, rfl⟩ := List.head?_eq_some_iff.1 h
    rfl
  | true =>
    obtain ⟨rest, rfl⟩ := List.getLast?_eq_some_iff.1 h
    rw [pop, if_pos rfl, List.dropLast_concat, Multiset.cons_coe, Multiset.coe_eq_coe]
    exact List.perm_append_singleton ..

theorem BucketSorted.pop (h : BucketSorted reverse bucket) :
    BucketSorted reverse (pop reverse bucket) := by
  refine List.Pairwise.sublist ?_ h
  unfold CalendarScheduler.pop
  split
  · exact List.dropLast_sublist _
  · exact List.tail_sublist _

/-- The next event of a bucket is its least. -/
theorem BucketSorted.le_of_nextEvent (h : BucketSorted reverse bucket)
    (hnext : nextEvent reverse bucket = some next) :
    ∀ x ∈ bucket, next.key.rank ≤ x.key.rank := by
  cases reverse with
  | false =>
    obtain ⟨rest, rfl⟩ := List.head?_eq_some_iff.1 hnext
    exact List.forall_mem_cons.2 ⟨le_rfl, (List.pairwise_cons.1 h).1⟩
  | true =>
    obtain ⟨rest, rfl⟩ := List.getLast?_eq_some_iff.1 hnext
    intro x hx
    rcases List.mem_append.1 hx with hx | hx
    · exact (List.pairwise_append.1 h).2.2 x hx next (List.mem_singleton_self next)
    · rw [List.mem_singleton.1 hx]

theorem nextEvent_eq_none (h : nextEvent reverse bucket = none) : bucket = [] := by
  cases reverse with
  | false => exact List.head?_eq_none_iff.1 h
  | true => exact List.getLast?_eq_none_iff.1 h

end Reverse

/-- The pending events of a bucket. -/
def ofBucket (s : CalendarScheduler ι) (pending : Multiset (SchedulerEvent ι)) (i : ℕ) :
    Multiset (SchedulerEvent ι) :=
  pending.filter fun ev => s.hash ev.key.ts.toNat = i

/-- Each bucket has the pending events of its times. -/
structure Stored (s : CalendarScheduler ι) (pending : Multiset (SchedulerEvent ι)) : Prop where
  coe_buckets : ∀ i < s.nBuckets, ↑(s.buckets i) = s.ofBucket pending i
  sorted : ∀ i, BucketSorted s.reverse (s.buckets i)
  width_pos : 0 < s.width
  width_lt : s.width < 2 ^ 64
  nBuckets_pos : 0 < s.nBuckets

variable {s t : CalendarScheduler ι} {pending pending' rest : Multiset (SchedulerEvent ι)}
  {ev next : SchedulerEvent ι} {i j n : ℕ} {bucket : List (SchedulerEvent ι)}

theorem setBucket_buckets_self : (s.setBucket i bucket).buckets i = bucket := Function.update_self ..

theorem setBucket_buckets_of_ne (h : j ≠ i) : (s.setBucket i bucket).buckets j = s.buckets j :=
  Function.update_of_ne h ..

theorem ofBucket_cons_self :
    s.ofBucket (ev ::ₘ rest) (s.hash ev.key.ts.toNat) =
      ev ::ₘ s.ofBucket rest (s.hash ev.key.ts.toNat) := by
  apply Multiset.filter_cons_of_pos rest
  rfl

theorem ofBucket_cons_of_ne (h : i ≠ s.hash ev.key.ts.toNat) :
    s.ofBucket (ev ::ₘ rest) i = s.ofBucket rest i := by
  apply Multiset.filter_cons_of_neg rest
  exact h.symm

theorem mem_ofBucket : ev ∈ s.ofBucket pending i ↔ ev ∈ pending ∧ s.hash ev.key.ts.toNat = i :=
  Multiset.mem_filter

theorem Stored.hash_lt (h : Stored s pending) (ts : ℕ) : s.hash ts < s.nBuckets :=
  Nat.mod_lt _ h.nBuckets_pos

theorem Stored.mem_bucket (h : Stored s pending) (hi : i < s.nBuckets) :
    ev ∈ s.buckets i ↔ ev ∈ pending ∧ s.hash ev.key.ts.toNat = i := by
  rw [← Multiset.mem_coe, h.coe_buckets i hi, mem_ofBucket]

theorem Stored.setBucket (h : Stored s pending) (hsorted : BucketSorted s.reverse bucket)
    (hbucket : ↑bucket = s.ofBucket pending' i)
    (hother : ∀ j, j ≠ i → s.ofBucket pending' j = s.ofBucket pending j) :
    Stored (s.setBucket i bucket) pending' where
  coe_buckets j hj := by
    by_cases heq : j = i
    · rw [heq, setBucket_buckets_self]
      exact hbucket
    · rw [setBucket_buckets_of_ne heq]
      exact (h.coe_buckets j hj).trans (hother j heq).symm
  sorted j := by
    by_cases heq : j = i
    · rw [heq, setBucket_buckets_self]
      exact hsorted
    · rw [setBucket_buckets_of_ne heq]
      exact h.sorted j
  width_pos := h.width_pos
  width_lt := h.width_lt
  nBuckets_pos := h.nBuckets_pos

theorem Stored.doInsert (h : Stored s pending) (ev : SchedulerEvent ι) :
    Stored (s.doInsert ev) (ev ::ₘ pending) := by
  refine h.setBucket (h.sorted _).insertUpper ?_ fun j hj => ofBucket_cons_of_ne hj
  rw [ofBucket_cons_self, ← h.coe_buckets _ (h.hash_lt _), Multiset.cons_coe, Multiset.coe_eq_coe]
  exact perm_insertUpper

/-- An event is taken out of its bucket. -/
theorem Stored.erase (h : Stored s (ev ::ₘ rest)) (hsorted : BucketSorted s.reverse bucket)
    (hbucket : (s.buckets (s.hash ev.key.ts.toNat) : Multiset (SchedulerEvent ι)) =
      ev ::ₘ ↑bucket) : Stored (s.setBucket (s.hash ev.key.ts.toNat) bucket) rest := by
  refine h.setBucket hsorted ?_ fun j hj => (ofBucket_cons_of_ne hj).symm
  have hcoe := h.coe_buckets _ (h.hash_lt ev.key.ts.toNat)
  rwa [hbucket, ofBucket_cons_self, Multiset.cons_inj_right] at hcoe

theorem Stored.coe_events (h : Stored s pending) :
    (s.events : Multiset (SchedulerEvent ι)) = pending := by
  classical
  ext ev
  have hbucket (i : ℕ) (hi : i ∈ List.range s.nBuckets) : (s.buckets i).count ev =
      if s.hash ev.key.ts.toNat = i then pending.count ev else 0 := by
    rw [← Multiset.coe_count, h.coe_buckets i (List.mem_range.1 hi), ofBucket, Multiset.count_filter]
  rw [events, Multiset.coe_count, List.count_flatMap]
  simp only [Function.comp_def]
  rw [List.map_congr_left hbucket,
    List.sum_map_eq_nsmul_single (s.hash ev.key.ts.toNat) _ fun i hi _ => if_neg hi.symm,
    List.count_eq_one_of_mem List.nodup_range (List.mem_range.2 (h.hash_lt _)), one_nsmul,
    if_pos rfl]

/-! ### The search of a year -/

/-- No event is before the last one, in whose bucket the search begins. -/
structure Dated (s : CalendarScheduler ι) (pending : Multiset (SchedulerEvent ι)) : Prop where
  lastPrio_le : ∀ ev ∈ pending, s.lastPrio ≤ ev.key.ts.toNat
  lastBucket : s.lastBucket = s.hash s.lastPrio
  bucketTop : s.bucketTop = (s.lastPrio / s.width + 1) * s.width % 2 ^ 64

/-- None of the pending events is less. -/
def Least (pending : Multiset (SchedulerEvent ι)) (next : SchedulerEvent ι) : Prop :=
  next ∈ pending ∧ ∀ ev ∈ pending, next.key.rank ≤ ev.key.rank

/-- What the search holds: the key at the start, or the first event of a bucket. -/
def Held (s : CalendarScheduler ι) (pending : Multiset (SchedulerEvent ι)) (startKey minKey : EventKey)
    (min : Option (SchedulerEvent ι × ℕ)) : Prop :=
  match min with
  | none => minKey = startKey
  | some (next, i) => minKey = next.key ∧ next ∈ pending ∧ i = s.hash next.key.ts.toNat ∧
      nextEvent s.reverse (s.buckets i) = some next ∧ next.key.rank < startKey.rank

/-- What the search ends with. -/
def Ends (s : CalendarScheduler ι) (pending : Multiset (SchedulerEvent ι)) (startKey : EventKey)
    (r : CalendarSearch ι) : Prop :=
  match r with
  | .inBucket next i bucketTop => Least pending next ∧ i = s.hash next.key.ts.toNat ∧
      bucketTop = (next.key.ts.toNat / s.width + 1) * s.width % 2 ^ 64 ∧
      next.key.ts.toNat < bucketTop ∧ nextEvent s.reverse (s.buckets i) = some next
  | .direct minKey min => (∀ ev ∈ pending, minKey.rank ≤ ev.key.rank) ∧
      Held s pending startKey minKey min

/-- What is known of the events in the first `k` buckets of the search. -/
def Visited (s : CalendarScheduler ι) (pending : Multiset (SchedulerEvent ι)) (k : ℕ)
    (minKey : EventKey) : Prop :=
  ∀ ev ∈ pending, ∀ j < k, s.hash ev.key.ts.toNat = (s.lastPrio / s.width + j) % s.nBuckets →
    ¬ ev.key.ts.toNat < (s.lastPrio / s.width + j + 1) * s.width % 2 ^ 64 ∧
      minKey.rank ≤ ev.key.rank

theorem ts_le_of_rank_le {a b : EventKey} (h : a.rank ≤ b.rank) : a.ts.toNat ≤ b.ts.toNat := by
  rcases Prod.Lex.toLex_le_toLex.1 h with hlt | ⟨heq, -⟩
  · exact hlt.le
  · exact heq.le

theorem rank_lt_of_ts_lt {a b : EventKey} (h : a.ts.toNat < b.ts.toNat) : a.rank < b.rank :=
  Prod.Lex.toLex_lt_toLex.2 (.inl h)

/-- The top of a year counts modulo `2 ^ 64`, and then no time is below it. -/
theorem lt_top_iff {ts day width : ℕ} (hts : ts < 2 ^ 64) (hpos : 0 < width)
    (hwidth : width < 2 ^ 64) (hday : day ≤ ts / width) :
    ts < (day + 1) * width % 2 ^ 64 ↔ ts / width = day ∧ (day + 1) * width < 2 ^ 64 := by
  have hle : day * width ≤ ts := (Nat.le_div_iff_mul_le hpos).1 hday
  have htop : (day + 1) * width = day * width + width := Nat.succ_mul ..
  by_cases hwrap : (day + 1) * width < 2 ^ 64
  · rw [Nat.mod_eq_of_lt hwrap, ← Nat.div_lt_iff_lt_mul hpos]
    omega
  · have hmod : (day + 1) * width % 2 ^ 64 = (day + 1) * width - 2 ^ 64 := by
      rw [Nat.mod_eq_sub_mod (not_lt.1 hwrap)]
      exact Nat.mod_eq_of_lt (by omega)
    omega

/-- Days of one bucket are whole years apart. -/
theorem add_le_of_mod_eq {last day k n : ℕ} (hlast : last ≤ day) (hk : k < n)
    (hmod : day % n = (last + k) % n) : last + k ≤ day := by
  obtain ⟨m, rfl⟩ := Nat.exists_eq_add_of_le hlast
  have hcancel : m % n = k := by
    rw [← Nat.mod_eq_of_lt hk]
    exact Nat.ModEq.add_left_cancel' last hmod
  exact Nat.add_le_add_left (hcancel ▸ Nat.mod_le m n) last

theorem Dated.day_le (hd : Dated s pending) (hev : ev ∈ pending) {k : ℕ}
    (hk : k < s.nBuckets)
    (hhash : s.hash ev.key.ts.toNat = (s.lastPrio / s.width + k) % s.nBuckets) :
    s.lastPrio / s.width + k ≤ ev.key.ts.toNat / s.width :=
  add_le_of_mod_eq (Nat.div_le_div_right (hd.lastPrio_le ev hev)) hk hhash

/-- An event that is due in its bucket is the least one. -/
theorem Visited.least {minKey : EventKey} {k : ℕ} (h : Visited s pending k minKey)
    (hs : Stored s pending) (hd : Dated s pending) (hnext : next ∈ pending)
    (hhash : s.hash next.key.ts.toNat = (s.lastPrio / s.width + k) % s.nBuckets)
    (hfirst : ∀ ev ∈ pending, s.hash ev.key.ts.toNat = s.hash next.key.ts.toNat →
      next.key.rank ≤ ev.key.rank)
    (hdue : next.key.ts.toNat / s.width = s.lastPrio / s.width + k)
    (htop : (s.lastPrio / s.width + k + 1) * s.width < 2 ^ 64) : Least pending next := by
  refine ⟨hnext, fun ev hev => ?_⟩
  have hlast : s.lastPrio / s.width ≤ ev.key.ts.toNat / s.width :=
    Nat.div_le_div_right (hd.lastPrio_le ev hev)
  obtain ⟨j, hj⟩ := Nat.exists_eq_add_of_le hlast
  by_cases hlater : k < j
  · -- the event is of a later day
    refine (rank_lt_of_ts_lt ?_).le
    by_contra hle
    have := Nat.div_le_div_right (c := s.width) (not_lt.1 hle)
    omega
  · have hevhash : s.hash ev.key.ts.toNat = (s.lastPrio / s.width + j) % s.nBuckets :=
      congrArg (· % s.nBuckets) hj
    by_cases heq : j = k
    · exact hfirst ev hev (by rw [hevhash, hhash, heq])
    · -- it would have been found
      have hjk : j < k := by omega
      refine absurd ((lt_top_iff ev.key.ts.toNat_lt hs.width_pos hs.width_lt hj.ge).2 ⟨hj, ?_⟩)
        (h ev hev j hjk hevhash).1
      refine lt_of_le_of_lt (Nat.mul_le_mul_right _ ?_) htop
      omega

theorem Held.rank_le {startKey minKey : EventKey} {min : Option (SchedulerEvent ι × ℕ)}
    (h : Held s pending startKey minKey min) : minKey.rank ≤ startKey.rank := by
  cases min with
  | none => exact (congrArg EventKey.rank h).le
  | some m =>
    obtain ⟨heq, -, -, -, hlt⟩ := h
    exact heq ▸ hlt.le

theorem Visited.succ {minKey minKey' : EventKey} {k : ℕ} (h : Visited s pending k minKey)
    (hle : minKey'.rank ≤ minKey.rank)
    (hbucket : ∀ ev ∈ pending,
      s.hash ev.key.ts.toNat = (s.lastPrio / s.width + k) % s.nBuckets →
        ¬ ev.key.ts.toNat < (s.lastPrio / s.width + k + 1) * s.width % 2 ^ 64 ∧
          minKey'.rank ≤ ev.key.rank) : Visited s pending (k + 1) minKey' := by
  intro ev hev j hj hhash
  by_cases hjk : j = k
  · subst hjk
    exact hbucket ev hev hhash
  · have hbefore := h ev hev j (by omega) hhash
    exact ⟨hbefore.1, hle.trans hbefore.2⟩

/-- After a year all events have been seen. -/
theorem Visited.rank_le {minKey : EventKey} (h : Visited s pending s.nBuckets minKey)
    (hs : Stored s pending) (hd : Dated s pending) : ∀ ev ∈ pending, minKey.rank ≤ ev.key.rank := by
  intro ev hev
  have hlast : s.lastPrio / s.width ≤ ev.key.ts.toNat / s.width :=
    Nat.div_le_div_right (hd.lastPrio_le ev hev)
  obtain ⟨m, hm⟩ := Nat.exists_eq_add_of_le hlast
  refine (h ev hev (m % s.nBuckets) (Nat.mod_lt _ hs.nBuckets_pos) ?_).2
  rw [Nat.add_mod_mod, hash, hm]

theorem ends_searchFrom (hs : Stored s pending) (hd : Dated s pending) {startKey : EventKey}
    {rounds k : ℕ} (hk : k + rounds = s.nBuckets) {minKey : EventKey}
    {min : Option (SchedulerEvent ι × ℕ)} (hvisited : Visited s pending k minKey)
    (hheld : Held s pending startKey minKey min) :
    Ends s pending startKey (s.searchFrom rounds ((s.lastPrio / s.width + k) % s.nBuckets)
      ((s.lastPrio / s.width + k + 1) * s.width % 2 ^ 64) minKey min) := by
  induction rounds generalizing k minKey min with
  | zero => exact ⟨Visited.rank_le (hk ▸ hvisited) hs hd, hheld⟩
  | succ rounds ih =>
    have hlt : k < s.nBuckets := by omega
    have hi : (s.lastPrio / s.width + k) % s.nBuckets < s.nBuckets := Nat.mod_lt _ hs.nBuckets_pos
    have hcontinue {minKey : EventKey} {min : Option (SchedulerEvent ι × ℕ)}
        (hvisited : Visited s pending (k + 1) minKey) (hheld : Held s pending startKey minKey min) :
        Ends s pending startKey
          (if ((s.lastPrio / s.width + k) % s.nBuckets + 1) % s.nBuckets ≠ s.lastBucket then
            s.searchFrom rounds (((s.lastPrio / s.width + k) % s.nBuckets + 1) % s.nBuckets)
              (((s.lastPrio / s.width + k + 1) * s.width % 2 ^ 64 + s.width) % 2 ^ 64) minKey min
          else .direct minKey min) := by
      have htop : ((s.lastPrio / s.width + k + 1) * s.width % 2 ^ 64 + s.width) % 2 ^ 64 =
          (s.lastPrio / s.width + (k + 1) + 1) * s.width % 2 ^ 64 := by
        rw [Nat.mod_add_mod, ← Nat.succ_mul, ← Nat.add_assoc]
      rw [htop, Nat.mod_add_mod, Nat.add_assoc]
      split
      · exact ih (by omega) hvisited hheld
      · rename_i hround
        -- the bucket of the last event comes again after all others
        have hmod : s.lastPrio / s.width % s.nBuckets =
            (s.lastPrio / s.width + (k + 1)) % s.nBuckets :=
          hd.lastBucket.symm.trans (not_not.1 hround).symm
        have hend : ¬ k + 1 < s.nBuckets := fun hlt => by
          have := add_le_of_mod_eq le_rfl hlt hmod
          omega
        obtain rfl : rounds = 0 := by omega
        exact ⟨Visited.rank_le (hk ▸ hvisited) hs hd, hheld⟩
    unfold searchFrom
    cases hnext : nextEvent s.reverse (s.buckets ((s.lastPrio / s.width + k) % s.nBuckets)) with
    | none =>
      refine hcontinue (hvisited.succ le_rfl fun ev hev hhash => ?_) hheld
      have hmem := (hs.mem_bucket hi).2 ⟨hev, hhash⟩
      rw [nextEvent_eq_none hnext] at hmem
      exact absurd hmem List.not_mem_nil
    | some next =>
      have hmem : next ∈ s.buckets ((s.lastPrio / s.width + k) % s.nBuckets) := by
        rw [← Multiset.mem_coe, coe_eq_cons_pop hnext]
        exact Multiset.mem_cons_self ..
      obtain ⟨hpending, hhash⟩ := (hs.mem_bucket hi).1 hmem
      have hfirst (ev : SchedulerEvent ι) (hev : ev ∈ pending)
          (heq : s.hash ev.key.ts.toNat = (s.lastPrio / s.width + k) % s.nBuckets) :
          next.key.rank ≤ ev.key.rank :=
        (hs.sorted _).le_of_nextEvent hnext ev ((hs.mem_bucket hi).2 ⟨hev, heq⟩)
      have hday := hd.day_le hpending hlt hhash
      have htop := lt_top_iff next.key.ts.toNat_lt hs.width_pos hs.width_lt hday
      dsimp only
      by_cases hdue : next.key.ts.toNat < (s.lastPrio / s.width + k + 1) * s.width % 2 ^ 64
      · rw [if_pos hdue]
        have hleast := hvisited.least hs hd hpending hhash
          (fun ev hev heq => hfirst ev hev (heq.trans hhash)) (htop.1 hdue).1 (htop.1 hdue).2
        refine ⟨hleast, hhash.symm, ?_, hdue, hnext⟩
        rw [(htop.1 hdue).1]
      · rw [if_neg hdue]
        have hlate (ev : SchedulerEvent ι) (hev : ev ∈ pending)
            (heq : s.hash ev.key.ts.toNat = (s.lastPrio / s.width + k) % s.nBuckets) :
            ¬ ev.key.ts.toNat < (s.lastPrio / s.width + k + 1) * s.width % 2 ^ 64 := fun hlt =>
          hdue ((ts_le_of_rank_le (hfirst ev hev heq)).trans_lt hlt)
        by_cases hless : next.key.lt minKey
        · rw [if_pos hless]
          rw [EventKey.lt_iff] at hless
          refine hcontinue (hvisited.succ hless.le fun ev hev heq => ⟨hlate ev hev heq, ?_⟩) ?_
          · exact hfirst ev hev heq
          · exact ⟨rfl, hpending, hhash.symm, hnext, hless.trans_le hheld.rank_le⟩
        · rw [if_neg hless]
          rw [Bool.not_eq_true, EventKey.not_lt_iff] at hless
          refine hcontinue (hvisited.succ le_rfl fun ev hev heq => ⟨hlate ev hev heq, ?_⟩) hheld
          exact hless.trans (hfirst ev hev heq)

theorem ends_search (hs : Stored s pending) (hd : Dated s pending) (startKey : EventKey) :
    Ends s pending startKey (s.search startKey) := by
  have hends : Ends s pending startKey (s.searchFrom s.nBuckets
      ((s.lastPrio / s.width + 0) % s.nBuckets) ((s.lastPrio / s.width + 0 + 1) * s.width % 2 ^ 64)
      startKey none) :=
    ends_searchFrom hs hd (Nat.zero_add _) (fun _ _ j hj => absurd hj (Nat.not_lt_zero j)) rfl
  rw [search, hd.lastBucket, hd.bucketTop]
  exact hends

/-! ### The next event -/

/-- Only events of the last time are not less than a key of it. -/
theorem ts_eq_of_rank_le {u c : UInt32} (h : EventKey.rank ⟨-1, u, c⟩ ≤ ev.key.rank) :
    ev.key.ts = -1 := by
  have hle : 2 ^ 64 - 1 ≤ ev.key.ts.toNat := ts_le_of_rank_le h
  have hlt := ev.key.ts.toNat_lt
  have heq : ev.key.ts.toNat = (-1 : UInt64).toNat := by
    change _ = 2 ^ 64 - 1
    omega
  exact UInt64.toNat_inj.1 heq

/-- `m_lastPrio`, `m_lastBucket` and `m_bucketTop` after the removal of an event. -/
def taken (s : CalendarScheduler ι) (next : SchedulerEvent ι) : CalendarScheduler ι :=
  let i := s.hash next.key.ts.toNat
  { s.setBucket i (pop s.reverse (s.buckets i)) with
    lastPrio := next.key.ts.toNat
    lastBucket := i
    bucketTop := (next.key.ts.toNat / s.width + 1) * s.width % 2 ^ 64 }

/-- `PeekNext` finds the least event unless it has the key that the search starts with. -/
theorem exists_peekNext (hs : Stored s pending) (hd : Dated s pending)
    (hearly : ∃ ev ∈ pending, ev.key.ts ≠ -1) :
    ∃ next, s.peekNext = some next ∧ Least pending next := by
  have hends := ends_search hs hd ⟨-1, -1, 0⟩
  obtain ⟨ev, hev, hts⟩ := hearly
  unfold peekNext
  cases hsearch : s.search ⟨-1, -1, 0⟩ with
  | inBucket next i bucketTop =>
    rw [hsearch] at hends
    exact ⟨next, rfl, hends.1⟩
  | direct minKey min =>
    rw [hsearch] at hends
    obtain ⟨hle, hheld⟩ := hends
    cases min with
    | none =>
      have heq : minKey = ⟨-1, -1, 0⟩ := hheld
      exact absurd (ts_eq_of_rank_le (heq ▸ hle ev hev)) hts
    | some m =>
      obtain ⟨rfl, hmem, -⟩ := hheld
      exact ⟨m.1, rfl, hmem, hle⟩

/-- `DoRemoveNext` takes the least event if there is one before the last time. -/
theorem exists_doRemoveNext (hs : Stored s pending) (hd : Dated s pending)
    (hearly : ∃ ev ∈ pending, ev.key.ts ≠ -1) :
    ∃ next, s.doRemoveNext = some (next, s.taken next) ∧ Least pending next ∧
      nextEvent s.reverse (s.buckets (s.hash next.key.ts.toNat)) = some next := by
  have hends := ends_search hs hd ⟨-1, 0, -1⟩
  obtain ⟨ev, hev, hts⟩ := hearly
  unfold doRemoveNext
  cases hsearch : s.search ⟨-1, 0, -1⟩ with
  | inBucket next i bucketTop =>
    rw [hsearch] at hends
    obtain ⟨hleast, rfl, rfl, -, hnext⟩ := hends
    exact ⟨next, rfl, hleast, hnext⟩
  | direct minKey min =>
    rw [hsearch] at hends
    obtain ⟨hle, hheld⟩ := hends
    cases min with
    | none =>
      have heq : minKey = ⟨-1, 0, -1⟩ := hheld
      exact absurd (ts_eq_of_rank_le (heq ▸ hle ev hev)) hts
    | some m =>
      obtain ⟨next, i⟩ := m
      obtain ⟨rfl, hmem, rfl, hnext, -⟩ := hheld
      refine ⟨next, ?_, ⟨hmem, hle⟩, hnext⟩
      change (nextEvent s.reverse (s.buckets (s.hash next.key.ts.toNat))).map _ = _
      rw [hnext]
      rfl

/-- With no event before the last time, `DoRemoveNext` has no bucket to take it from. -/
theorem doRemoveNext_eq_none (hs : Stored s pending) (hd : Dated s pending)
    (hlate : ∀ ev ∈ pending, ev.key.ts = -1) : s.doRemoveNext = none := by
  have hends := ends_search hs hd ⟨-1, 0, -1⟩
  unfold doRemoveNext
  cases hsearch : s.search ⟨-1, 0, -1⟩ with
  | inBucket next i bucketTop =>
    rw [hsearch] at hends
    obtain ⟨hleast, -, rfl, hlt, -⟩ := hends
    have hts : next.key.ts.toNat = 2 ^ 64 - 1 := congrArg UInt64.toNat (hlate next hleast.1)
    have := Nat.mod_lt ((next.key.ts.toNat / s.width + 1) * s.width) (Nat.two_pow_pos 64)
    omega
  | direct minKey min =>
    rw [hsearch] at hends
    cases min with
    | none => rfl
    | some m =>
      obtain ⟨next, i⟩ := m
      obtain ⟨-, -, hmem, -, -, hlt⟩ := hends
      refine absurd hlt (not_lt.2 ?_)
      refine Prod.Lex.toLex_le_toLex.2 (.inr ⟨?_, Nat.zero_le _⟩)
      rw [hlate next hmem]

theorem Stored.taken (h : Stored s (next ::ₘ rest))
    (hnext : nextEvent s.reverse (s.buckets (s.hash next.key.ts.toNat)) = some next) :
    Stored (s.taken next) rest := by
  have herase := h.erase (h.sorted _).pop (coe_eq_cons_pop hnext)
  exact ⟨herase.coe_buckets, herase.sorted, herase.width_pos, herase.width_lt, herase.nBuckets_pos⟩

theorem dated_taken (h : Least (next ::ₘ rest) next) : Dated (s.taken next) rest where
  lastPrio_le ev hev := ts_le_of_rank_le (h.2 ev (Multiset.mem_cons_of_mem hev))
  lastBucket := rfl
  bucketTop := rfl

/-! ### Resizing -/

/-- How many events are before the last time. -/
def early (pending : Multiset (SchedulerEvent ι)) : ℕ := pending.countP fun ev => ev.key.ts ≠ -1

theorem early_pos_iff : 0 < early pending ↔ ∃ ev ∈ pending, ev.key.ts ≠ -1 := Multiset.countP_pos

theorem early_cons_of_ne (h : ev.key.ts ≠ -1) : early (ev ::ₘ rest) = early rest + 1 :=
  Multiset.countP_cons_of_pos rest h

theorem Least.ts_ne (h : Least pending next) (hearly : 0 < early pending) : next.key.ts ≠ -1 := by
  obtain ⟨ev, hev, hts⟩ := early_pos_iff.1 hearly
  intro hlast
  have hle := h.2 ev hev
  have heq : next.key = ⟨-1, next.key.uid, next.key.context⟩ := by rw [← hlast]
  exact hts (ts_eq_of_rank_le (heq ▸ hle))

/-- The sampling succeeds if there are enough events before the last time. -/
theorem exists_gather (hs : Stored s pending) (hd : Dated s pending) (hn : n ≤ early pending) :
    ∃ samples t rest, gather n s = some (samples, t) ∧ pending = ↑samples + rest ∧
      Stored t rest ∧ t.nBuckets = s.nBuckets ∧ t.qSize = s.qSize ∧ t.reverse = s.reverse := by
  induction n generalizing s pending with
  | zero => exact ⟨[], s, pending, rfl, (zero_add pending).symm, hs, rfl, rfl, rfl⟩
  | succ n ih =>
    have hpos : 0 < early pending := by omega
    obtain ⟨next, heq, hleast, hnext⟩ := exists_doRemoveNext hs hd (early_pos_iff.1 hpos)
    have hts := hleast.ts_ne hpos
    obtain ⟨rest, rfl⟩ := Multiset.exists_cons_of_mem hleast.1
    rw [early_cons_of_ne hts] at hn
    obtain ⟨samples, t, rest', hgather, rfl, hstored, hframe⟩ :=
      ih (hs.taken hnext) (dated_taken hleast) (by omega)
    refine ⟨next :: samples, t, rest', ?_, ?_, hstored, hframe⟩
    · rw [gather, heq, Option.bind_some, hgather]
      rfl
    · rw [← Multiset.cons_coe, Multiset.cons_add]

theorem gather_eq_none (hs : Stored s pending) (hd : Dated s pending) (hn : early pending < n) :
    gather n s = none := by
  induction n generalizing s pending with
  | zero => exact absurd hn (Nat.not_lt_zero _)
  | succ n ih =>
    rcases (early pending).eq_zero_or_pos with hzero | hpos
    · have hlate : ∀ ev ∈ pending, ev.key.ts = -1 :=
        fun ev hev => not_not.1 (Multiset.countP_eq_zero.1 hzero ev hev)
      rw [gather, doRemoveNext_eq_none hs hd hlate, Option.bind_none]
    · obtain ⟨next, heq, hleast, hnext⟩ := exists_doRemoveNext hs hd (early_pos_iff.1 hpos)
      have hts := hleast.ts_ne hpos
      obtain ⟨rest, rfl⟩ := Multiset.exists_cons_of_mem hleast.1
      rw [early_cons_of_ne hts] at hn
      rw [gather, heq, Option.bind_some, ih (hs.taken hnext) (dated_taken hleast) (by omega)]
      rfl

theorem Stored.foldl_doInsert (h : Stored s rest) (samples : List (SchedulerEvent ι)) :
    Stored (samples.foldl CalendarScheduler.doInsert s) (↑samples + rest) := by
  induction samples generalizing s rest with
  | nil => rwa [Multiset.coe_nil, zero_add]
  | cons ev samples ih =>
    have hall := ih (h.doInsert ev)
    rwa [Multiset.add_cons, ← Multiset.cons_add, Multiset.cons_coe] at hall

/-- Insertions change nothing but the buckets. -/
theorem foldl_doInsert_eq (samples : List (SchedulerEvent ι)) :
    samples.foldl doInsert s = { s with buckets := (samples.foldl doInsert s).buckets } := by
  induction samples generalizing s with
  | nil => rfl
  | cons ev samples ih =>
    rw [List.foldl_cons, ih]
    rfl

theorem stored_start {nBuckets width : ℕ} (startPrio : ℕ) (hn : 0 < nBuckets) (hpos : 0 < width)
    (hlt : width < 2 ^ 64) : Stored (s.start nBuckets width startPrio) 0 :=
  ⟨fun _ _ => rfl, fun _ => List.Pairwise.nil, hpos, hlt, hn⟩

theorem Stored.doResize {newSize newWidth : ℕ} (h : Stored s pending) (hn : 0 < newSize)
    (hpos : 0 < newWidth) (hlt : newWidth < 2 ^ 64) : Stored (s.doResize newSize newWidth) pending := by
  have hall := (stored_start (s := s) s.lastPrio hn hpos hlt).foldl_doInsert s.events
  rwa [add_zero, h.coe_events] at hall

/-- A resize goes on at the last event. -/
theorem dated_doResize {newSize newWidth : ℕ} (h : ∀ ev ∈ pending, s.lastPrio ≤ ev.key.ts.toNat) :
    Dated (s.doResize newSize newWidth) pending := by
  rw [CalendarScheduler.doResize, foldl_doInsert_eq]
  exact ⟨h, rfl, rfl⟩

/-- The sampling of a resize needs more events before the last time than there are. -/
def Oversamples (qSize early : ℕ) : Prop := 2 ≤ qSize ∧ early < nSamples qSize

theorem averageWidth_pos (samples : List (SchedulerEvent ι)) (n : ℕ) :
    0 < (averageWidth samples n).toNat := by
  have hle (a : UInt64) : (1 : UInt64).toNat ≤ (max a 1).toNat := by
    change _ ≤ (if a ≤ 1 then 1 else a).toNat
    split
    · exact le_rfl
    · rename_i h
      rw [UInt64.le_iff_toNat_le] at h
      exact (not_le.1 h).le
  exact Nat.lt_of_lt_of_le Nat.one_pos (hle _)

theorem exists_resize {newSize : ℕ} (hs : Stored s pending) (hd : Dated s pending)
    (hn : 0 < newSize) (hok : ¬ Oversamples s.qSize (early pending)) :
    ∃ t, s.resize newSize = some t ∧ Stored t pending ∧ Dated t pending ∧
      t.lastPrio = s.lastPrio ∧ t.qSize = s.qSize := by
  unfold resize calculateNewWidth
  by_cases hfew : s.qSize < 2
  · rw [if_pos hfew]
    refine ⟨s.doResize newSize 1, rfl, hs.doResize hn Nat.one_pos (by decide),
      dated_doResize hd.lastPrio_le, ?_, ?_⟩
    all_goals rw [CalendarScheduler.doResize, foldl_doInsert_eq]; rfl
  · rw [if_neg hfew]
    have hsamples : nSamples s.qSize ≤ early pending :=
      not_lt.1 fun hlt => hok ⟨not_lt.1 hfew, hlt⟩
    obtain ⟨samples, t, rest, hgather, rfl, hstored, hsize, hq, -⟩ := exists_gather hs hd hsamples
    have hback : Stored { samples.foldl CalendarScheduler.doInsert t with
        lastBucket := s.lastBucket, bucketTop := s.bucketTop, lastPrio := s.lastPrio }
        (↑samples + rest) := by
      have hall := hstored.foldl_doInsert samples
      exact ⟨hall.coe_buckets, hall.sorted, hall.width_pos, hall.width_lt, hall.nBuckets_pos⟩
    have hpos := averageWidth_pos samples (nSamples s.qSize)
    refine ⟨_, ?_, hback.doResize hn hpos (UInt64.toNat_lt _), dated_doResize hd.lastPrio_le, ?_, ?_⟩
    · rw [hgather]
      rfl
    · rw [CalendarScheduler.doResize, foldl_doInsert_eq]
      rfl
    · rw [CalendarScheduler.doResize, foldl_doInsert_eq]
      change (samples.foldl CalendarScheduler.doInsert t).qSize = _
      rw [foldl_doInsert_eq]
      exact hq

theorem resize_eq_none {newSize : ℕ} (hs : Stored s pending) (hd : Dated s pending)
    (hover : Oversamples s.qSize (early pending)) : s.resize newSize = none := by
  rw [resize, calculateNewWidth, if_neg (not_lt.2 hover.1), gather_eq_none hs hd hover.2]
  rfl

end CalendarScheduler

end SeanetSim
