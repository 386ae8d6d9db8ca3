import Mathlib.Data.Finset.Card
import Mathlib.Data.Multiset.MapFold
import Mathlib.Order.Interval.Finset.Nat
import SeanetSim.Core.CalendarScheduler
import SeanetSim.Lib.Run

/-!
# Runs of the calendar scheduler

Events are inserted, none before the last one that `RemoveNext` has yielded, and removed.  The
calendar holds the events that are pending, and `PeekNext` and `RemoveNext` yield the least of them,
in exactly the runs whose steps never leave only events of the last time, never sample one of these
for a resize and never make `2 ^ 32` events pending (`CalendarRun.refinesLeast_of_run`).
-/

namespace SeanetSim

variable {ι : Type*}

namespace CalendarScheduler

variable {s t : CalendarScheduler ι} {pending rest : Multiset (SchedulerEvent ι)}
  {ev next : SchedulerEvent ι} {last : ℕ}

theorem early_cons : early (ev ::ₘ rest) = if ev.key.ts ≠ -1 then early rest + 1 else early rest := by
  split_ifs with h
  · exact early_cons_of_ne h
  · exact Multiset.countP_cons_of_neg rest h

/-- What every operation keeps. -/
structure Tracks (s : CalendarScheduler ι) (pending : Multiset (SchedulerEvent ι)) (last : ℕ) : Prop
    extends Stored s pending, Dated s pending where
  lastPrio : s.lastPrio = last
  qSize : s.qSize = pending.card % 2 ^ 32

theorem tracks_init (reverse : Bool) : Tracks (init reverse : CalendarScheduler ι) 0 0 where
  toStored := stored_start 0 (by decide) (by decide) (by decide)
  lastPrio_le _ hev := absurd hev (Multiset.notMem_zero _)
  lastBucket := rfl
  bucketTop := rfl
  lastPrio := rfl
  qSize := rfl

section Resize

variable {c : Prop} [Decidable c] {newSize : ℕ}

theorem Tracks.resize (h : Tracks s pending last) (hn : c → 0 < newSize)
    (ht : (if c then s.resize newSize else some s) = some t) : Tracks t pending last := by
  by_cases hc : c
  · rw [if_pos hc] at ht
    have hok : ¬ Oversamples s.qSize (early pending) := fun hover =>
      Option.some_ne_none t (ht.symm.trans (resize_eq_none h.toStored h.toDated hover))
    obtain ⟨t', ht', hstored, hdated, hprio, hq⟩ :=
      exists_resize h.toStored h.toDated (hn hc) hok
    obtain rfl := Option.some.inj (ht.symm.trans ht')
    exact ⟨hstored, hdated, hprio.trans h.lastPrio, hq.trans h.qSize⟩
  · rw [if_neg hc] at ht
    exact Option.some.inj ht ▸ h

theorem Tracks.resize_eq_none_iff (h : Tracks s pending last) (hn : c → 0 < newSize) :
    (if c then s.resize newSize else some s) = none ↔ c ∧ Oversamples s.qSize (early pending) := by
  by_cases hc : c
  · rw [if_pos hc]
    refine ⟨fun hnone => ⟨hc, ?_⟩, fun hover => resize_eq_none h.toStored h.toDated hover.2⟩
    by_contra hok
    obtain ⟨t, ht, -⟩ := exists_resize h.toStored h.toDated (hn hc) hok
    exact Option.some_ne_none t (ht.symm.trans hnone)
  · rw [if_neg hc]
    exact ⟨fun hnone => absurd hnone (Option.some_ne_none s), fun hover => absurd hover.1 hc⟩

end Resize

variable {q : ℕ}

theorem Tracks.inserted (h : Tracks s pending last) (hts : last ≤ ev.key.ts.toNat)
    (hq : q = (ev ::ₘ pending).card % 2 ^ 32) :
    Tracks { s.doInsert ev with qSize := q } (ev ::ₘ pending) last := by
  have hstored := h.toStored.doInsert ev
  refine ⟨⟨hstored.coe_buckets, hstored.sorted, hstored.width_pos, hstored.width_lt,
    hstored.nBuckets_pos⟩, ⟨?_, h.lastBucket, h.bucketTop⟩, h.lastPrio, hq⟩
  exact Multiset.forall_mem_cons.2 ⟨h.lastPrio.trans_le hts, h.lastPrio_le⟩

/-- The least event is taken. -/
theorem Tracks.taken (h : Tracks s (next ::ₘ rest) last) (hleast : Least (next ::ₘ rest) next)
    (hnext : nextEvent s.reverse (s.buckets (s.hash next.key.ts.toNat)) = some next)
    (hq : q = rest.card % 2 ^ 32) :
    Tracks { s.taken next with qSize := q } rest next.key.ts.toNat := by
  have hstored := h.toStored.taken hnext
  refine ⟨⟨hstored.coe_buckets, hstored.sorted, hstored.width_pos, hstored.width_lt,
    hstored.nBuckets_pos⟩, ⟨?_, rfl, rfl⟩, rfl, hq⟩
  exact (dated_taken (s := s) hleast).lastPrio_le

theorem Tracks.erased {bucket : List (SchedulerEvent ι)} (h : Tracks s (ev ::ₘ rest) last)
    (hsorted : BucketSorted s.reverse bucket)
    (hbucket : (s.buckets (s.hash ev.key.ts.toNat) : Multiset (SchedulerEvent ι)) = ev ::ₘ ↑bucket)
    (hq : q = rest.card % 2 ^ 32) :
    Tracks { s.setBucket (s.hash ev.key.ts.toNat) bucket with qSize := q } rest last := by
  have hstored := h.toStored.erase hsorted hbucket
  refine ⟨⟨hstored.coe_buckets, hstored.sorted, hstored.width_pos, hstored.width_lt,
    hstored.nBuckets_pos⟩, ⟨?_, h.lastBucket, h.bucketTop⟩, h.lastPrio, hq⟩
  exact fun x hx => h.lastPrio_le x (Multiset.mem_cons_of_mem hx)

theorem decreased_qSize {n m : ℕ} (h : m = (n + 1) % 2 ^ 32) :
    (m + 2 ^ 32 - 1) % 2 ^ 32 = n % 2 ^ 32 := by
  omega

/-- Of the events with different unique ids, the one that is looked for is found. -/
theorem coe_eq_cons_eraseP {bucket : List (SchedulerEvent ι)}
    (huids : (bucket.map (·.key.uid)).Nodup) (hev : ev ∈ bucket) :
    (bucket : Multiset (SchedulerEvent ι)) = ev ::ₘ ↑(bucket.eraseP (·.key.same ev.key)) := by
  obtain ⟨x, pre, post, -, hsame, rfl, herase⟩ :=
    List.exists_of_eraseP hev (p := (·.key.same ev.key)) (beq_self_eq_true ev.key.uid)
  rw [herase, List.inj_on_of_nodup_map huids hev (by simp) (beq_iff_eq.1 hsame).symm,
    Multiset.cons_coe, Multiset.coe_eq_coe]
  exact List.perm_middle

/-! ### The operations -/

theorem Tracks.inserted_qSize (h : Tracks s pending last) (ev : SchedulerEvent ι) :
    (s.qSize + 1) % 2 ^ 32 = (ev ::ₘ pending).card % 2 ^ 32 := by
  rw [h.qSize, Nat.mod_add_mod, Multiset.card_cons]

theorem Tracks.insert (h : Tracks s pending last) (hts : last ≤ ev.key.ts.toNat)
    (ht : s.insert ev = some t) : Tracks t (ev ::ₘ pending) last :=
  (h.inserted hts (h.inserted_qSize ev)).resize (fun _ => Nat.mul_pos h.nBuckets_pos Nat.two_pos) ht

theorem Tracks.insert_eq_none_iff (h : Tracks s pending last) (hts : last ≤ ev.key.ts.toNat)
    (hcard : pending.card + 1 < 2 ^ 32) :
    s.insert ev = none ↔ (s.nBuckets * 2 < pending.card + 1 ∧ s.nBuckets < 32768) ∧
      Oversamples (pending.card + 1) (early (ev ::ₘ pending)) := by
  have hq : (s.qSize + 1) % 2 ^ 32 = pending.card + 1 := by
    rw [h.inserted_qSize ev, Multiset.card_cons, Nat.mod_eq_of_lt hcard]
  rw [CalendarScheduler.insert, hq]
  refine (h.inserted hts ?_).resize_eq_none_iff fun _ => Nat.mul_pos h.nBuckets_pos Nat.two_pos
  rw [Multiset.card_cons, Nat.mod_eq_of_lt hcard]

theorem Tracks.decreased (h : Tracks { s with qSize := (s.qSize + 2 ^ 32 - 1) % 2 ^ 32 } rest last)
    (ht : s.decreased = some t) : Tracks t rest last := by
  rw [CalendarScheduler.decreased] at ht
  generalize (s.qSize + 2 ^ 32 - 1) % 2 ^ 32 = q at h ht
  exact h.resize (fun hlt => Nat.zero_lt_of_lt hlt) ht

theorem Tracks.decreased_eq_none_iff
    (h : Tracks { s with qSize := (s.qSize + 2 ^ 32 - 1) % 2 ^ 32 } rest last)
    (hcard : rest.card < 2 ^ 32) :
    s.decreased = none ↔ rest.card < s.nBuckets / 2 ∧ Oversamples rest.card (early rest) := by
  have hq : (s.qSize + 2 ^ 32 - 1) % 2 ^ 32 = rest.card := h.qSize.trans (Nat.mod_eq_of_lt hcard)
  rw [hq] at h
  rw [CalendarScheduler.decreased, hq]
  exact h.resize_eq_none_iff fun hlt => Nat.zero_lt_of_lt hlt

/-- `RemoveNext` takes the least event. -/
theorem Tracks.removeNext (h : Tracks s pending last) (hearly : 0 < early pending) :
    ∃ next rest, pending = next ::ₘ rest ∧ Least pending next ∧
      s.removeNext = (s.taken next).decreased.map (fun t => (next, t)) ∧
      Tracks { s.taken next with qSize := ((s.taken next).qSize + 2 ^ 32 - 1) % 2 ^ 32 } rest
        next.key.ts.toNat := by
  obtain ⟨next, heq, hleast, hnext⟩ :=
    exists_doRemoveNext h.toStored h.toDated (early_pos_iff.1 hearly)
  obtain ⟨rest, rfl⟩ := Multiset.exists_cons_of_mem hleast.1
  refine ⟨next, rest, rfl, hleast, ?_, h.taken hleast hnext ?_⟩
  · rw [CalendarScheduler.removeNext, heq, Option.bind_some]
  · exact decreased_qSize (h.qSize.trans (congrArg (· % 2 ^ 32) (Multiset.card_cons ..)))

/-- `Remove` takes an event that is there. -/
theorem Tracks.remove (h : Tracks s (ev ::ₘ rest) last)
    (huids : ((ev ::ₘ rest).map (·.key.uid)).Nodup) :
    ∃ u : CalendarScheduler ι, s.remove ev = u.decreased ∧ u.nBuckets = s.nBuckets ∧
      Tracks { u with qSize := (u.qSize + 2 ^ 32 - 1) % 2 ^ 32 } rest last := by
  let i := s.hash ev.key.ts.toNat
  have hmem : ev ∈ s.buckets i :=
    (h.mem_bucket (h.hash_lt _)).2 ⟨Multiset.mem_cons_self .., rfl⟩
  have hbucket : ((s.buckets i).map (·.key.uid)).Nodup := by
    have hle : (↑(s.buckets i) : Multiset (SchedulerEvent ι)) ≤ ev ::ₘ rest :=
      (h.coe_buckets i (h.hash_lt _)).trans_le (Multiset.filter_le ..)
    exact Multiset.nodup_of_le (Multiset.map_le_map hle) huids
  refine ⟨s.setBucket i ((s.buckets i).eraseP (·.key.same ev.key)), ?_, rfl, ?_⟩
  · rw [CalendarScheduler.remove, if_pos (List.any_eq_true.2 ⟨ev, hmem, beq_self_eq_true ev.key.uid⟩)]
  · apply h.erased ((h.sorted i).sublist (List.eraseP_sublist ..))
    · exact coe_eq_cons_eraseP hbucket hmem
    · exact decreased_qSize (h.qSize.trans (congrArg (· % 2 ^ 32) (Multiset.card_cons ..)))

end CalendarScheduler

/-! ### Runs -/

/-- A calendar scheduler, nothing after an index into its buckets of -1, with the events that have
been inserted and not removed and the time of the last one that `RemoveNext` has yielded. -/
structure CalendarRun (ι : Type*) where
  scheduler : Option (CalendarScheduler ι)
  pending : Multiset (SchedulerEvent ι)
  lastRemoved : ℕ

namespace CalendarRun

open CalendarScheduler

variable {y z : CalendarRun ι} {e : SchedulerOp ι}

def init (reverse : Bool) : CalendarRun ι := ⟨some (.init reverse), 0, 0⟩

section Step

variable [DecidableEq ι]

/-- After `RemoveNext`. -/
def removed (y : CalendarRun ι) (r : Option (SchedulerEvent ι × CalendarScheduler ι)) :
    CalendarRun ι :=
  match r with
  | some (ev, s) => ⟨some s, y.pending.erase ev, ev.key.ts.toNat⟩
  | none => ⟨none, y.pending, y.lastRemoved⟩

inductive Step : CalendarRun ι → SchedulerOp ι → CalendarRun ι → Prop
  | insert {y : CalendarRun ι} {s : CalendarScheduler ι} {ev : SchedulerEvent ι}
      (hs : y.scheduler = some s) (huid : ∀ x ∈ y.pending, x.key.uid ≠ ev.key.uid)
      (hts : y.lastRemoved ≤ ev.key.ts.toNat) :
      Step y (.insert ev) ⟨s.insert ev, ev ::ₘ y.pending, y.lastRemoved⟩
  | removeNext {y : CalendarRun ι} {s : CalendarScheduler ι} (hs : y.scheduler = some s)
      (hne : y.pending ≠ 0) : Step y .removeNext (y.removed s.removeNext)
  | remove {y : CalendarRun ι} {s : CalendarScheduler ι} {ev : SchedulerEvent ι}
      (hs : y.scheduler = some s) (hev : ev ∈ y.pending) :
      Step y (.remove ev) ⟨s.remove ev, y.pending.erase ev, y.lastRemoved⟩

end Step

/-- The calendar holds the events that have been inserted and not removed. -/
def Refines (y : CalendarRun ι) : Prop :=
  ∃ s, y.scheduler = some s ∧ (s.events : Multiset (SchedulerEvent ι)) = y.pending ∧
    (s.isEmpty ↔ y.pending = 0)

/-- `PeekNext` and `DoRemoveNext`, whose event `RemoveNext` yields, find the least event. -/
def YieldsLeast (y : CalendarRun ι) : Prop :=
  ∀ s, y.scheduler = some s → y.pending ≠ 0 → ∀ r ∈ [s.peekNext, s.doRemoveNext.map (·.1)],
    ∃ next, r = some next ∧ next ∈ y.pending ∧ ∀ ev ∈ y.pending, ev.key.lt next.key = false

/-- How many events are pending after an operation. -/
def countAfter (y : CalendarRun ι) : SchedulerOp ι → ℕ
  | .insert _ => y.pending.card + 1
  | .removeNext => y.pending.card - 1
  | .remove _ => y.pending.card - 1

/-- How many of them are before the last time. -/
def earlyAfter (y : CalendarRun ι) : SchedulerOp ι → ℕ
  | .insert ev => if ev.key.ts ≠ -1 then early y.pending + 1 else early y.pending
  | .removeNext => early y.pending - 1
  | .remove ev => if ev.key.ts ≠ -1 then early y.pending - 1 else early y.pending

/-- An operation changes the number of buckets. -/
def Resizes (y : CalendarRun ι) (e : SchedulerOp ι) : Prop :=
  ∃ s, y.scheduler = some s ∧ match e with
    | .insert _ => s.nBuckets * 2 < y.countAfter e ∧ s.nBuckets < 32768
    | _ => y.countAfter e < s.nBuckets / 2

/-- An operation makes `2 ^ 32` events pending, leaves only events of the last time, or resizes with
more samples than there are events before the last time. -/
def Overruns (y : CalendarRun ι) (e : SchedulerOp ι) : Prop :=
  y.countAfter e = 2 ^ 32 ∨ 0 < y.countAfter e ∧ y.earlyAfter e = 0 ∨
    y.Resizes e ∧ Oversamples (y.countAfter e) (y.earlyAfter e)

/-- What every operation keeps, as long as there is a scheduler. -/
structure Tracks (y : CalendarRun ι) : Prop where
  uids : (y.pending.map (·.key.uid)).Nodup
  scheduler : ∀ s, y.scheduler = some s → s.Tracks y.pending y.lastRemoved

theorem tracks_init (reverse : Bool) : Tracks (init reverse : CalendarRun ι) where
  uids := Multiset.nodup_zero
  scheduler := by
    intro s hs
    obtain rfl := Option.some.inj hs
    exact CalendarScheduler.tracks_init reverse

theorem Tracks.card_le (h : Tracks y) : y.pending.card ≤ 2 ^ 32 := by
  have hnodup : (y.pending.map (·.key.uid.toNat)).Nodup := by
    have := h.uids.map fun a b : UInt32 => UInt32.toNat_inj.1
    rwa [Multiset.map_map] at this
  have hsub : (⟨_, hnodup⟩ : Finset ℕ) ⊆ Finset.range (2 ^ 32) := by
    intro n hn
    obtain ⟨ev, -, rfl⟩ := Multiset.mem_map.1 (Finset.mem_mk.1 hn)
    exact Finset.mem_range.2 ev.key.uid.toNat_lt
  have hcard := Finset.card_le_card hsub
  rwa [Finset.card_mk, Multiset.card_map, Finset.card_range] at hcard

/-- The least event can be had exactly if there is one before the last time. -/
theorem Tracks.yieldsLeast_iff (h : Tracks y) {s : CalendarScheduler ι} (hs : y.scheduler = some s) :
    YieldsLeast y ↔ (y.pending ≠ 0 → 0 < early y.pending) := by
  have htracks := h.scheduler s hs
  constructor
  · intro hleast hne
    by_contra hzero
    have hlate : ∀ ev ∈ y.pending, ev.key.ts = -1 := fun ev hev =>
      not_not.1 (Multiset.countP_eq_zero.1 (Nat.eq_zero_of_not_pos hzero) ev hev)
    obtain ⟨next, heq, -⟩ := hleast s hs hne _ (List.mem_cons_of_mem _ (List.mem_singleton_self _))
    rw [doRemoveNext_eq_none htracks.toStored htracks.toDated hlate] at heq
    exact absurd heq.symm (Option.some_ne_none next)
  · intro hearly t ht hne r hr
    obtain rfl := Option.some.inj (hs.symm.trans ht)
    have hex := early_pos_iff.1 (hearly hne)
    have hyield {next : SchedulerEvent ι} (hnext : Least y.pending next) :
        next ∈ y.pending ∧ ∀ ev ∈ y.pending, ev.key.lt next.key = false :=
      ⟨hnext.1, fun ev hev => (EventKey.not_lt_iff ..).2 (hnext.2 ev hev)⟩
    rcases List.mem_cons.1 hr with rfl | hr
    · obtain ⟨next, heq, hleast⟩ := exists_peekNext htracks.toStored htracks.toDated hex
      exact ⟨next, heq, hyield hleast⟩
    · obtain ⟨next, heq, hleast, -⟩ := exists_doRemoveNext htracks.toStored htracks.toDated hex
      rw [List.mem_singleton.1 hr, heq]
      exact ⟨next, rfl, hyield hleast⟩

theorem Tracks.refines_iff (h : Tracks y) {s : CalendarScheduler ι} (hs : y.scheduler = some s) :
    Refines y ↔ y.pending.card ≠ 2 ^ 32 := by
  have htracks := h.scheduler s hs
  have hle := h.card_le
  have hempty : (s.isEmpty ↔ y.pending = 0) ↔ y.pending.card ≠ 2 ^ 32 := by
    rw [isEmpty, beq_iff_eq, htracks.qSize, ← Multiset.card_eq_zero]
    omega
  constructor
  · rintro ⟨t, ht, -, hiff⟩
    obtain rfl := Option.some.inj (hs.symm.trans ht)
    exact hempty.1 hiff
  · exact fun hcard => ⟨s, hs, htracks.coe_events, hempty.2 hcard⟩

section Step

theorem exists_eq_some_iff {α : Type*} {o : Option α} {a : α} {p : α → Prop} (h : o = some a) :
    (∃ b, o = some b ∧ p b) ↔ p a := by
  simp [h]

theorem earlyAfter_insert {ev : SchedulerEvent ι} :
    y.earlyAfter (.insert ev) = early (ev ::ₘ y.pending) := by
  rw [earlyAfter, early_cons]

theorem earlyAfter_remove {ev : SchedulerEvent ι} {rest : Multiset (SchedulerEvent ι)}
    (hpending : y.pending = ev ::ₘ rest) : y.earlyAfter (.remove ev) = early rest := by
  rw [earlyAfter, hpending, early_cons]
  split_ifs
  · exact Nat.add_sub_cancel ..
  · rfl

variable [DecidableEq ι]

theorem removed_scheduler (r : Option (SchedulerEvent ι × CalendarScheduler ι)) :
    (y.removed r).scheduler = r.map (·.2) := by
  cases r with
  | none => rfl
  | some p => rfl

theorem removed_map_some {next : SchedulerEvent ι} {rest : Multiset (SchedulerEvent ι)}
    (hpending : y.pending = next ::ₘ rest) {r : Option (CalendarScheduler ι)}
    {t : CalendarScheduler ι} (ht : r = some t) :
    y.removed (r.map fun t => (next, t)) = ⟨some t, rest, next.key.ts.toNat⟩ := by
  subst ht
  change (⟨some t, y.pending.erase next, _⟩ : CalendarRun ι) = _
  rw [hpending, Multiset.erase_cons_head]

omit [DecidableEq ι] in
theorem Tracks.erase (h : Tracks y) {ev : SchedulerEvent ι} {rest : Multiset (SchedulerEvent ι)}
    (hpending : y.pending = ev ::ₘ rest) : (rest.map (·.key.uid)).Nodup := by
  have huids := h.uids
  rw [hpending, Multiset.map_cons] at huids
  exact (Multiset.nodup_cons.1 huids).2

theorem Tracks.step (h : Tracks y) (hst : Step y e z) : Tracks z := by
  cases hst with
  | insert hs huid hts =>
    rename_i s ev
    refine ⟨?_, fun t ht => (h.scheduler s hs).insert hts ht⟩
    change ((ev ::ₘ y.pending).map _).Nodup
    rw [Multiset.map_cons, Multiset.nodup_cons]
    refine ⟨fun hmem => ?_, h.uids⟩
    obtain ⟨x, hx, hux⟩ := Multiset.mem_map.1 hmem
    exact huid x hx hux
  | removeNext hs hne =>
    rename_i s
    have htracks := h.scheduler s hs
    cases hnone : s.removeNext with
    | none => exact ⟨h.uids, fun t ht => absurd ht.symm (Option.some_ne_none t)⟩
    | some p =>
      rcases (early y.pending).eq_zero_or_pos with hzero | hearly
      · have hlate : ∀ ev ∈ y.pending, ev.key.ts = -1 :=
          fun ev hev => not_not.1 (Multiset.countP_eq_zero.1 hzero ev hev)
        rw [CalendarScheduler.removeNext,
          doRemoveNext_eq_none htracks.toStored htracks.toDated hlate] at hnone
        exact absurd hnone.symm (Option.some_ne_none p)
      · obtain ⟨next, rest, hpending, -, heq, htaken⟩ := htracks.removeNext hearly
        obtain ⟨t, ht, rfl⟩ := Option.map_eq_some_iff.1 (heq.symm.trans hnone)
        rw [← hnone, heq, removed_map_some hpending ht]
        refine ⟨h.erase hpending, fun t' ht' => ?_⟩
        obtain rfl := Option.some.inj ht'
        exact htaken.decreased ht
  | remove hs hev =>
    rename_i s ev
    obtain ⟨rest, hpending⟩ := Multiset.exists_cons_of_mem hev
    have htracks := h.scheduler s hs
    rw [hpending] at htracks
    obtain ⟨u, hu, -, hdecreased⟩ := htracks.remove (hpending ▸ h.uids)
    rw [hpending, Multiset.erase_cons_head]
    refine ⟨h.erase hpending, fun t ht => hdecreased.decreased ?_⟩
    exact hu.symm.trans ht

/-- An operation ends with an index of -1 exactly if a resize has too many samples. -/
theorem Tracks.scheduler_eq_none_iff (h : Tracks y)
    (hearly : y.pending ≠ 0 → 0 < early y.pending) (hcard : y.pending.card < 2 ^ 32)
    (hst : Step y e z) (hafter : y.countAfter e ≠ 2 ^ 32) :
    z.scheduler = none ↔ y.Resizes e ∧ Oversamples (y.countAfter e) (y.earlyAfter e) := by
  cases hst with
  | insert hs huid hts =>
    rename_i s ev
    have hlt : y.pending.card + 1 < 2 ^ 32 := lt_of_le_of_ne hcard hafter
    rw [earlyAfter_insert, Resizes, exists_eq_some_iff hs]
    exact (h.scheduler s hs).insert_eq_none_iff hts hlt
  | removeNext hs hne =>
    rename_i s
    obtain ⟨next, rest, hpending, hleast, heq, htaken⟩ :=
      (h.scheduler s hs).removeNext (hearly hne)
    have hts := hleast.ts_ne (hearly hne)
    rw [hpending, Multiset.card_cons] at hcard
    have hiff := htaken.decreased_eq_none_iff (by omega)
    rw [removed_scheduler, heq, Option.map_map, Option.map_eq_none_iff, Resizes,
      exists_eq_some_iff hs, hiff, countAfter, earlyAfter, hpending, Multiset.card_cons,
      early_cons_of_ne hts, Nat.add_sub_cancel, Nat.add_sub_cancel]
    exact Iff.rfl
  | remove hs hev =>
    rename_i s ev
    obtain ⟨rest, hpending⟩ := Multiset.exists_cons_of_mem hev
    have htracks := h.scheduler s hs
    rw [hpending] at htracks
    obtain ⟨u, hu, hn, hdecreased⟩ := htracks.remove (hpending ▸ h.uids)
    rw [hpending, Multiset.card_cons] at hcard
    have hiff := hdecreased.decreased_eq_none_iff (by omega)
    change s.remove ev = none ↔ _
    rw [hu, hiff, Resizes, exists_eq_some_iff hs, earlyAfter_remove hpending, countAfter, hpending,
      Multiset.card_cons, Nat.add_sub_cancel, hn]

theorem Tracks.pending_step (h : Tracks y) (hearly : y.pending ≠ 0 → 0 < early y.pending)
    (hst : Step y e z) (hz : z.scheduler ≠ none) :
    z.pending.card = y.countAfter e ∧ early z.pending = y.earlyAfter e := by
  cases hst with
  | insert hs huid hts => exact ⟨Multiset.card_cons .., earlyAfter_insert.symm⟩
  | removeNext hs hne =>
    rename_i s
    obtain ⟨next, rest, hpending, hleast, heq, htaken⟩ :=
      (h.scheduler s hs).removeNext (hearly hne)
    have hts := hleast.ts_ne (hearly hne)
    rw [removed_scheduler, heq, Option.map_map, Ne, Option.map_eq_none_iff] at hz
    obtain ⟨t, ht⟩ := Option.ne_none_iff_exists'.1 hz
    rw [heq, removed_map_some hpending ht, countAfter, earlyAfter, hpending, Multiset.card_cons,
      early_cons_of_ne hts]
    exact ⟨rfl, rfl⟩
  | remove hs hev =>
    obtain ⟨rest, hpending⟩ := Multiset.exists_cons_of_mem hev
    rw [hpending, Multiset.erase_cons_head, earlyAfter_remove hpending, countAfter, hpending,
      Multiset.card_cons]
    exact ⟨rfl, rfl⟩

/-- An operation breaks what the calendar stands for exactly if it overruns. -/
theorem Tracks.good_step_iff (h : Tracks y) (hgood : Refines y ∧ YieldsLeast y)
    (hst : Step y e z) : (Refines z ∧ YieldsLeast z) ↔ ¬ Overruns y e := by
  have hz := h.step hst
  obtain ⟨s, hs, -⟩ := hgood.1
  have hcard := lt_of_le_of_ne h.card_le ((h.refines_iff hs).1 hgood.1)
  have hearly := (h.yieldsLeast_iff hs).1 hgood.2
  have hnone := h.scheduler_eq_none_iff hearly hcard hst
  cases hzs : z.scheduler with
  | none =>
    refine ⟨fun hbad => ?_, fun hok => ?_⟩
    · obtain ⟨t, ht, -⟩ := hbad.1
      exact absurd (hzs.symm.trans ht).symm (Option.some_ne_none t)
    · by_cases hafter : y.countAfter e = 2 ^ 32
      · exact absurd (.inl hafter) hok
      · exact absurd (.inr (.inr ((hnone hafter).1 hzs))) hok
  | some t =>
    have hne : z.scheduler ≠ none := hzs ▸ Option.some_ne_none t
    obtain ⟨hcount, hafter⟩ := h.pending_step hearly hst hne
    rw [hz.refines_iff hzs, hz.yieldsLeast_iff hzs, Overruns, ← hcount, ← hafter,
      Multiset.card_pos]
    rw [← hcount, ← hafter] at hnone
    constructor
    · rintro ⟨hfull, hleast⟩
      have hresize : ¬ (y.Resizes e ∧ Oversamples z.pending.card (early z.pending)) :=
        fun hover => hne ((hnone hfull).2 hover)
      rintro (hfull' | ⟨hpos, hzero⟩ | hover)
      · exact hfull hfull'
      · exact (hleast hpos).ne' hzero
      · exact hresize hover
    · intro hok
      refine ⟨fun hfull => hok (.inl hfull), fun hpos => Nat.pos_of_ne_zero fun hzero => ?_⟩
      exact hok (.inr (.inl ⟨hpos, hzero⟩))

/-- The calendar is right in every state of a run exactly if no operation overruns. -/
theorem refinesLeast_of_run {reverse : Bool} {trace : List (CalendarRun ι × SchedulerOp ι)}
    (h : Run Step (init reverse) trace y) :
    ((∀ p ∈ trace, p.1.Refines ∧ p.1.YieldsLeast) ∧ y.Refines ∧ y.YieldsLeast) ↔
      ∀ p ∈ trace, ¬ Overruns p.1 p.2 := by
  have hinit : Refines (init reverse : CalendarRun ι) ∧ YieldsLeast (init reverse : CalendarRun ι) := by
    refine ⟨((tracks_init reverse).refines_iff rfl).2 (show (0 : ℕ) ≠ 2 ^ 32 by decide), ?_⟩
    exact ((tracks_init reverse).yieldsLeast_iff rfl).2 fun hne => absurd rfl hne
  refine Run.forall_iff (fun y : CalendarRun ι => y.Refines ∧ y.YieldsLeast) Overruns hinit ?_ h
  intro trace s e t hrun hst hgood
  exact (hrun.invariant (tracks_init reverse) fun _ _ _ h hst => h.step hst).good_step_iff hgood hst

end Step

/-! ### The last time -/

instance (y : CalendarRun ι) (e : SchedulerOp ι) : Decidable (Resizes y e) :=
  match e with
  | .insert ev => inferInstanceAs (Decidable (∃ s ∈ y.scheduler,
      s.nBuckets * 2 < y.countAfter (.insert ev) ∧ s.nBuckets < 32768))
  | .removeNext => inferInstanceAs (Decidable (∃ s ∈ y.scheduler,
      y.countAfter .removeNext < s.nBuckets / 2))
  | .remove ev => inferInstanceAs (Decidable (∃ s ∈ y.scheduler,
      y.countAfter (.remove ev) < s.nBuckets / 2))

instance (y : CalendarRun ι) (e : SchedulerOp ι) : Decidable (Overruns y e) :=
  inferInstanceAs (Decidable (y.countAfter e = 2 ^ 32 ∨ 0 < y.countAfter e ∧ y.earlyAfter e = 0 ∨
    y.Resizes e ∧ 2 ≤ y.countAfter e ∧ y.earlyAfter e < nSamples (y.countAfter e)))

section Sample

variable [DecidableEq ι]

/-- What an operation makes of the scheduler. -/
def next? (y : CalendarRun ι) (e : SchedulerOp ι) : Option (CalendarRun ι) :=
  y.scheduler.bind fun s =>
    match e with
    | .insert ev =>
      if (∀ x ∈ y.pending, x.key.uid ≠ ev.key.uid) ∧ y.lastRemoved ≤ ev.key.ts.toNat then
        some ⟨s.insert ev, ev ::ₘ y.pending, y.lastRemoved⟩
      else none
    | .removeNext => if y.pending ≠ 0 then some (y.removed s.removeNext) else none
    | .remove ev =>
      if ev ∈ y.pending then some ⟨s.remove ev, y.pending.erase ev, y.lastRemoved⟩ else none

theorem step_of_next? (h : y.next? e = some z) : Step y e z := by
  obtain ⟨s, hs, h⟩ := Option.bind_eq_some_iff.1 h
  cases e with
  | insert ev =>
    obtain ⟨⟨huid, hts⟩, h⟩ := Option.ite_none_right_eq_some.1 h
    cases h
    exact .insert hs huid hts
  | removeNext =>
    obtain ⟨hne, h⟩ := Option.ite_none_right_eq_some.1 h
    cases h
    exact .removeNext hs hne
  | remove ev =>
    obtain ⟨hev, h⟩ := Option.ite_none_right_eq_some.1 h
    cases h
    exact .remove hs hev

end Sample

def sampleEvent (ts : UInt64) (uid : UInt32) : SchedulerEvent Unit := ⟨(), ⟨ts, uid, 0⟩⟩

/-- The calendar grows with the fifth event and shrinks again; the last event is found by the direct
search. -/
theorem refinesLeast_of_run_resized :
    ∃ (trace : List (CalendarRun Unit × SchedulerOp Unit)) (y : CalendarRun Unit),
      Run Step (init true) trace y ∧ y.pending = {sampleEvent 900 6} ∧
        y.Refines ∧ y.YieldsLeast := by
  have hrun : (Run.runOf next? (init true) [.insert (sampleEvent 5 1), .insert (sampleEvent 3 2),
      .insert (sampleEvent 3 3), .insert (sampleEvent 8 4), .insert (sampleEvent 40 5), .removeNext,
      .insert (sampleEvent 900 6), .removeNext, .remove (sampleEvent 8 4), .removeNext,
      .removeNext]).any (fun r => decide
        (r.2.pending = {sampleEvent 900 6} ∧ ∀ p ∈ r.1, ¬ Overruns p.1 p.2)) = true := by
    decide +kernel
  obtain ⟨⟨trace, y⟩, hrun, hr⟩ := (Option.any_eq_true _ _).1 hrun
  obtain ⟨hpending, hok⟩ := of_decide_eq_true hr
  have hrun := Run.of_runOf (fun _ _ _ => step_of_next?) hrun
  exact ⟨trace, y, hrun, hpending, ((refinesLeast_of_run hrun).2 hok).2⟩

/-- The only event has the last time, and `DoRemoveNext` finds no bucket. -/
theorem not_yieldsLeast_last :
    ¬ ∀ (reverse : Bool) (trace : List (CalendarRun Unit × SchedulerOp Unit)) (y : CalendarRun Unit),
      Run Step (init reverse) trace y → y.Refines ∧ y.YieldsLeast := by
  have hrun : (Run.runOf next? (init false) [.insert (sampleEvent (-1) 1)]).any
      (fun r => decide (r.2.pending ≠ 0 ∧
        ∃ s ∈ r.2.scheduler, (s.doRemoveNext.map (·.1)).isNone)) = true := by
    decide +kernel
  obtain ⟨⟨trace, y⟩, hrun, hr⟩ := (Option.any_eq_true _ _).1 hrun
  obtain ⟨hne, s, hs, hnone⟩ := of_decide_eq_true hr
  intro hall
  have hleast := (hall false trace y (Run.of_runOf (fun _ _ _ => step_of_next?) hrun)).2
  obtain ⟨next, hnext, -⟩ :=
    hleast s hs hne _ (List.mem_cons_of_mem _ (List.mem_singleton_self _))
  rw [hnext] at hnone
  exact Bool.noConfusion hnone

end CalendarRun

end SeanetSim
