import PStress.Interleaving.RelyGuarantee
import PStress.Metadata.Handles

/-! Who owns which mutex, in every run. -/
namespace PStress.Metadata
open Interleaving
variable {ι V : Type}

/-- A handle's mutexes are exactly those it accounts for, and it knows about its slots. -/
structure Owned (i : ι) (d : InternalData ι V) (t : Thread V) : Prop where
  writer : ∀ k, (d.tableLocks k).writer = some i ↔ k ∈ t.held
  nodup : t.held.Nodup
  reader : ∀ k, i ∈ (d.tableLocks k).readers ↔ k ∈ t.pc.shared
  ok : PcOk d t.res t.pc

/-- The other handles leave a handle's mutexes and slots alone. -/
structure Untouched (i : ι) (d d' : InternalData ι V) : Prop where
  writer : ∀ k, (d'.tableLocks k).writer = some i ↔ (d.tableLocks k).writer = some i
  reader : ∀ k, i ∈ (d'.tableLocks k).readers ↔ i ∈ (d.tableLocks k).readers
  tables : ∀ k, (d.tableLocks k).writer = some i → d'.tables k = d.tables k

theorem SharedMutex.free_iff {m : SharedMutex ι} :
    m.free = true ↔ m.writer = none ∧ m.readers = ∅ := by
  simp [SharedMutex.free]

/-- What one step of handle `i` can do to the mutexes and slots, given the mutexes it owns and
those it shares. -/
inductive Effect [DecidableEq ι] (i : ι) (d : InternalData ι V) (held shared : List Nat) :
    InternalData ι V → List Nat → List Nat → Prop where
  | keep {d' held'} : d'.tables = d.tables → d'.tableLocks = d.tableLocks → held'.Perm held →
      Effect i d held shared d' held' shared
  | lock {held'} (k : Nat) : (d.tableLocks k).free = true → held'.Perm (k :: held) →
      Effect i d held shared (d.lock k i) held' shared
  | unlock {held'} (k : Nat) : held.Perm (k :: held') →
      Effect i d held shared (d.unlock k) held' shared
  | store (k : Nat) (p : Option (TablePtr V)) : k ∈ held →
      Effect i d held shared (d.store k p) held shared
  | share (k : Nat) : shared = [] → Effect i d held shared (d.lockShared k i) held [k]
  | unshare (k : Nat) : shared = [k] → Effect i d held shared (d.unlockShared k i) held []

variable [DecidableEq ι]

/-- Each step has one effect; the mutexes a handle accounts for follow it. -/
theorem tick_effect [Inhabited V] {i : ι} {d d' : InternalData ι V} {r : Reservation V} {pc : Pc V}
    {t' : Thread V} (h : tick i d r pc = some (d', t')) (ho : PcOk d r pc) :
    Effect i d (Thread.held ⟨r, pc⟩) pc.shared d' t'.held t'.pc.shared := by
  simp only [PcOk, Reservation.Holding, Reservation.Settled, Reservation.Creating] at ho
  cases pc with
  | idle | undefined => cases h
  | acquire | lastLock | outerLock =>
    simp only [tick] at h
    repeat' split at h
    all_goals cases h
    all_goals first
      | exact .lock _ (by assumption) (by simp [Thread.held, Pc.held, ho, List.Perm.swap])
      | exact .keep rfl rfl (.refl _)
  | innerLock n o =>
    simp only [tick] at h
    split at h
    · split at h <;> cases h
      exact .lock _ (by assumption) (by simp [Thread.held, Pc.held, ho])
    · cases h
      exact .keep rfl rfl (.refl _)
  | abandon | alterUnlock | dropUnlock | lastRetry | moveUnlock | moveRelease | outerRetry
  | outerUnlock =>
    cases h
    exact .unlock _ (by simp [Thread.held, Pc.held, Reservation.closed, ho, List.Perm.swap])
  | innerUnlock n o =>
    cases h
    cases o <;> exact .unlock _ (by simp [Thread.held, Pc.held, ho])
  | alterStore | dropClear | moveStore | moveClear | innerStore =>
    cases h
    exact .store _ _ (by simp [Thread.held, Pc.held, ho])
  | lookupLock =>
    simp only [tick] at h
    split at h <;> cases h
    exact .share _ rfl
  | lookupUnlock =>
    cases h
    exact .unshare _ rfl
  | _ =>
    simp only [tick] at h
    (repeat' split at h) <;> cases h <;>
      exact .keep (by simp) (by simp) (by simp [Thread.held, Pc.held, Reservation.closed, ho])

private theorem call_effect (i : ι) {d d' : InternalData ι V} {r : Reservation V} {a : Act V}
    {t' : Thread V} (h : Called d r a d' t') :
    Effect i d (Thread.held ⟨r, .idle⟩) [] d' t'.held t'.pc.shared := by
  cases h with
  | release b hb =>
    exact .unlock _ (by simp [Thread.held, Pc.held, hb.2.2.1, Reservation.cancelled])
  | giveBack hc =>
    exact .keep (by simp) (by simp)
      (by simp [Thread.held, Pc.held, hc.2.2.2.1, Reservation.cancelled])
  | refuse hs => exact .keep rfl rfl (by simp [Thread.held, Pc.held, hs.1, Reservation.closed])
  | _ => exact .keep rfl rfl (by simp [Thread.held, Pc.held])

namespace Effect
variable {i : ι} {d d' : InternalData ι V} {held held' shared shared' : List Nat}

private theorem untouched (he : Effect i d held shared d' held' shared')
    (hw : ∀ k, (d.tableLocks k).writer = some i ↔ k ∈ held) {j : ι} (hj : j ≠ i) :
    Untouched j d d' := by
  have other (k : Nat) (hk : k ∈ held) : (d.tableLocks k).writer ≠ some j := by
    rw [(hw k).mpr hk]
    simpa using Ne.symm hj
  cases he with
  | keep ht hl _ => exact ⟨by simp [hl], by simp [hl], by simp [ht]⟩
  | lock k hf _ =>
    have hn := (SharedMutex.free_iff.mp hf).1
    refine ⟨fun l => ?_, fun l => ?_, fun _ _ => rfl⟩ <;>
      by_cases hl : l = k <;> simp [hl, hn, Ne.symm hj]
  | unlock k hp =>
    have hk := other k (hp.symm.subset (by simp))
    refine ⟨fun l => ?_, fun l => ?_, fun _ _ => rfl⟩ <;>
      by_cases hl : l = k <;> simp [hl, hk]
  | store k p hk =>
    refine ⟨by simp, by simp, fun l hl => ?_⟩
    have : l ≠ k := fun h => other k hk (h ▸ hl)
    simp [this]
  | share k _ =>
    refine ⟨fun l => ?_, fun l => ?_, fun _ _ => rfl⟩ <;>
      by_cases hl : l = k <;> simp [hl, hj]
  | unshare k _ =>
    refine ⟨fun l => ?_, fun l => ?_, fun _ _ => rfl⟩ <;>
      by_cases hl : l = k <;> simp [hl, hj]

theorem writer (he : Effect i d held shared d' held' shared')
    (hw : ∀ k, (d.tableLocks k).writer = some i ↔ k ∈ held) (hn : held.Nodup) (l : Nat) :
    (d'.tableLocks l).writer = some i ↔ l ∈ held' := by
  cases he with
  | keep _ hl hp => rw [hl, hw, hp.mem_iff]
  | lock k _ hp => by_cases hl : l = k <;> simp [hl, hp.mem_iff, hw]
  | unlock k hp =>
    have hk : k ∉ held' := (List.nodup_cons.mp (hp.nodup_iff.mp hn)).1
    by_cases hl : l = k
    · simp [hl, hk]
    · simp [hl, hw, hp.mem_iff]
  | store => exact hw l
  | share k | unshare k => by_cases hl : l = k <;> simp [hl, hw]

theorem nodup (he : Effect i d held shared d' held' shared')
    (hw : ∀ k, (d.tableLocks k).writer = some i ↔ k ∈ held) (hn : held.Nodup) :
    held'.Nodup := by
  cases he with
  | keep _ _ hp => exact hp.nodup_iff.mpr hn
  | lock k hf hp =>
    refine hp.nodup_iff.mpr (List.nodup_cons.mpr ⟨fun hk => ?_, hn⟩)
    simpa [(SharedMutex.free_iff.mp hf).1] using (hw k).mpr hk
  | unlock k hp => exact (List.nodup_cons.mp (hp.nodup_iff.mp hn)).2
  | store | share | unshare => exact hn

theorem reader (he : Effect i d held shared d' held' shared')
    (hr : ∀ k, i ∈ (d.tableLocks k).readers ↔ k ∈ shared) (l : Nat) :
    i ∈ (d'.tableLocks l).readers ↔ l ∈ shared' := by
  cases he with
  | keep _ hl _ => rw [hl, hr]
  | lock k | unlock k => by_cases hl : l = k <;> simp [hl, ← hr]
  | store => exact hr l
  | share k hs | unshare k hs => by_cases hl : l = k <;> simp [hl, hr, hs]

end Effect

theorem act_effect [Inhabited V] {i : ι} {a : Act V} {d d' : InternalData ι V} {t t' : Thread V}
    (h : act i a d t = some (d', t')) (ho : PcOk d t.res t.pc) :
    Effect i d t.held t.pc.shared d' t'.held t'.pc.shared ∧ PcOk d' t'.res t'.pc := by
  obtain ⟨r, pc⟩ := t
  obtain ⟨_, ht⟩ | ⟨rfl, hc⟩ := act_eq_some h
  · exact ⟨tick_effect ht ho, tick_ok ht ho⟩
  · have hcall := called_of_call hc ho
    exact ⟨call_effect i hcall, call_ok hcall ho⟩

def ownership [Inhabited V] : Outline (act (ι := ι) (V := V)) (fun _ _ _ _ => True) where
  holds := Owned
  rely := Untouched
  stable hu ho :=
    ⟨fun k => (hu.writer k).trans (ho.writer k), ho.nodup,
      fun k => (hu.reader k).trans (ho.reader k),
      ho.ok.stable fun k hk => hu.tables k ((ho.writer k).mpr hk)⟩
  sound h _ ho := by
    obtain ⟨he, hok⟩ := act_effect h ho.ok
    exact ⟨he.writer ho.writer ho.nodup, he.nodup ho.writer ho.nodup, he.reader ho.reader, hok⟩
  guarantee h _ ho hj := (act_effect h ho.ok).1.untouched ho.writer hj

omit [DecidableEq ι] in
theorem handOver_tables (d : InternalData ι V) (l : Option Nat) (j : ι) :
    (d.handOver l j).tables = d.tables := by cases l <;> rfl

omit [DecidableEq ι] in
theorem handOver_counts (d : InternalData ι V) (l : Option Nat) (j : ι) :
    (d.handOver l j).tableCount = d.tableCount ∧
      (d.handOver l j).reservedSize = d.reservedSize ∧
      (d.handOver l j).nextTable = d.nextTable := by cases l <;> exact ⟨rfl, rfl, rfl⟩

omit [DecidableEq ι] in
theorem handOver_readers (d : InternalData ι V) (l : Option Nat) (j : ι) (k : Nat) :
    ((d.handOver l j).tableLocks k).readers = (d.tableLocks k).readers := by
  cases l with
  | none => rfl
  | some m => by_cases hk : k = m <;> simp [InternalData.handOver, hk]

omit [DecidableEq ι] in
theorem handOver_writer (d : InternalData ι V) (l : Option Nat) (j : ι) (k : Nat) :
    ((d.handOver l j).tableLocks k).writer =
      if k ∈ l.toList then some j else (d.tableLocks k).writer := by
  cases l with
  | none => simp [InternalData.handOver]
  | some m => by_cases hk : k = m <;> simp [InternalData.handOver, hk]

def AllOwned (s : State ι V) : Prop := ∀ i, Owned i s.data (s.threads i)

private theorem allOwned_move [Inhabited V] {s s' : State ι V} {i j : ι}
    (h : step s (.move i j) = some s') (ho : AllOwned s) : AllOwned s' := by
  obtain ⟨r, r', hi, hj, hij, hr, hr', rfl⟩ := step_move h
  have oi := ho i
  have oj := ho j
  rw [hi] at oi
  rw [hj] at oj
  have hn : r'.lock = none := (Resting.settled oj.ok hr').1
  have hw (k : Nat) : (s.data.tableLocks k).writer = some i ↔ k ∈ r.lock.toList := by
    simpa [Thread.held, Pc.held] using oi.writer k
  have hw' (k : Nat) : (s.data.tableLocks k).writer ≠ some j := by
    simpa [Thread.held, Pc.held, hn] using (oj.writer k).not
  have reader (k l) := (handOver_readers s.data r.lock j l) ▸ (ho k).reader l
  intro k
  by_cases hkj : k = j
  · subst hkj
    simp only [Function.update_self]
    refine ⟨fun l => ?_, oi.nodup, fun l => ?_, oi.ok.stable fun l _ => ?_⟩
    · rw [handOver_writer]
      split
      · rename_i hl
        simpa [Thread.held, Pc.held] using hl
      · rename_i hl
        simpa [Thread.held, Pc.held, hw' l] using hl
    · simpa [hj] using reader k l
    · rw [handOver_tables]
  simp only [Function.update_of_ne hkj]
  by_cases hki : k = i
  · subst hki
    simp only [Function.update_self]
    refine ⟨fun l => ?_, by simp [Thread.held, Pc.held, Reservation.movedFrom], fun l => ?_,
      .inl (Reservation.settled_movedFrom r)⟩
    · rw [handOver_writer]
      split
      · simp [Thread.held, Pc.held, Reservation.movedFrom, Ne.symm hkj]
      · rename_i hl
        simpa [Thread.held, Pc.held, Reservation.movedFrom] using (hw l).not.mpr hl
    · simpa [hi] using reader k l
  · simp only [Function.update_of_ne hki]
    refine ⟨fun l => ?_, (ho k).nodup, fun l => ?_, (ho k).ok.stable fun l _ => ?_⟩
    · rw [handOver_writer, ← (ho k).writer l]
      split
      · rename_i hl
        simp [(hw l).mpr hl, Ne.symm hki, Ne.symm hkj]
      · rfl
    · exact reader k l
    · rw [handOver_tables]

theorem allOwned_step [Inhabited V] {s s' : State ι V} {l : Label ι V} (h : step s l = some s')
    (ho : AllOwned s) : AllOwned s' := by
  cases l with
  | run i a =>
    obtain ⟨d', t', ha, rfl⟩ := step_run.mp h
    exact ownership.preserved ho ha trivial
  | move i j => exact allOwned_move h ho

omit [DecidableEq ι] in
/-- No handle owns anything yet. -/
theorem allOwned_start (g : GapFree V) : AllOwned (g.start : State ι V) := fun _ =>
  ⟨by simp [GapFree.start, GapFree.data, State.at, Thread.held, Pc.held, Reservation.closed],
    by simp [GapFree.start, State.at, Thread.held, Pc.held, Reservation.closed],
    by simp [GapFree.start, GapFree.data, State.at, Pc.shared],
    .inl Reservation.settled_closed⟩

end PStress.Metadata
