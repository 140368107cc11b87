import PStress.Metadata.Population
import PStress.Metadata.Store

/-! `Metadata` and its handles as a store. A step that takes effect stands for an event, all the
others for none; the events of a run, in the order of the run, are a run of the store. -/
namespace PStress.Metadata
open Interleaving
variable {ι V : Type}

/-- `complete()` has made its change and is giving up its mutexes. -/
def Pc.effected : Pc V → Bool
  | .alterUnlock | .dropCount | .dropReserved | .dropMoved | .dropUnlock | .moveUnlock _
  | .innerCount .. => true
  | _ => false

/-- What a reservation grants over a list of tables. -/
def Reservation.grant (cs : List (TablePtr V)) (r : Reservation V) : Option (Grant V) :=
  if r.isOpen then
    if r.index = npos then r.table.map .place
    else cs[r.index]?.bind fun o => r.table.map fun p => .slot r.drop r.index o p
  else none

def Thread.grant (cs : List (TablePtr V)) (t : Thread V) : Option (Grant V) :=
  if t.pc.effected then none else t.res.grant cs

def State.store (s : State ι V) (cs : List (TablePtr V)) : Store ι V :=
  ⟨cs, fun i => (s.threads i).grant cs⟩

def Grant.ptr : Grant V → TablePtr V
  | .place p | .slot _ _ _ p => p

/-- The event a step of handle `i` stands for. -/
def Thread.event [Inhabited V] (i : ι) (a : Act V) (d : InternalData ι V) (t : Thread V) :
    Option (Event ι V) :=
  match a, t.pc with
  | .edit f, _ => some (.edit i f)
  | .cancel, _ => some (.cancel i)
  | .tick, .reserve =>
    if maximumTableCount < d.reservedSize + 1 then none
    else some (.place i ⟨d.nextTable, default⟩)
  | .tick, .load b k =>
    some (match d.tables k with | none => .missing i k | some p => .reserve i b k p)
  | .tick, .lookupLoad k => some (.read i k (d.tables k))
  | .tick, .alterStore | .tick, .dropClear | .tick, .moveStore .. | .tick, .innerStore .. =>
    some (.commit i)
  | _, _ => none

def State.event [Inhabited V] (s : State ι V) : Label ι V → Option (Event ι V)
  | .run i a => (s.threads i).event i a s.data
  | .move i j => some (.move i j)

theorem event_of [Inhabited V] {i : ι} {a : Act V} {d : InternalData ι V} {t : Thread V}
    {e : Event ι V} (h : t.event i a d = some e) : e.Of i := by
  unfold Thread.event at h
  split at h
  · cases h
    rfl
  · cases h
    rfl
  · split at h <;> cases h
    rfl
  · cases h
    split <;> rfl
  all_goals cases h <;> rfl

section Grants
variable {cs cs' : List (TablePtr V)} {r : Reservation V} {d d' : InternalData ι V} {t : Thread V}
  {i : ι}

theorem grant_settled (h : r.Settled) : r.grant cs = none := by
  simp [Reservation.grant, h.not_open]

theorem grant_closed (cs : List (TablePtr V)) :
    (Reservation.closed : Reservation V).grant cs = none :=
  grant_settled Reservation.settled_closed

private theorem grant_creating (h : r.Creating) {p : TablePtr V} (hp : r.table = some p) :
    r.grant cs = some (.place p) := by
  simp [Reservation.grant, h.isOpen, h.2.2.1, hp]

private theorem grant_holding {b : Bool} (h : r.Holding b) {o p : TablePtr V}
    (hp : r.table = some p) (ho : cs[r.index]? = some o) :
    r.grant cs = some (.slot b r.index o p) := by
  simp [Reservation.grant, h.isOpen, h.index_ne, hp, ho, h.2.1]

/-- Whatever a handle does, it owns nothing, a place or a slot. -/
theorem PcOk.kind {pc : Pc V} (h : PcOk d r pc) (hp : SlotFacts (d.slots cs) r pc) :
    r.Settled ∨ r.Creating ∨ ∃ b, r.Holding b := by
  have resting (h : Resting d r) : r.Settled ∨ r.Creating ∨ ∃ b, r.Holding b :=
    h.imp_right (Or.imp_right And.left)
  cases pc with
  | idle => exact resting h
  | lookupLock | lookupLoad | lookupUnlock => exact resting h.1
  | reserve | unreserve => exact .inl h
  | acquire | load | abandon | moveCount | moveReserved | moveClear | moveMoved | moveRelease
  | innerUnlock | outerUnlock => exact .inl h.1
  | createRead | createTest | outerLock => exact .inr (.inl h)
  | outerLoad | outerTest | outerRetry | innerLock | innerStore | innerCount =>
    exact .inr (.inl h.1)
  | undefined => exact hp.elim
  | _ => exact .inr (.inr ⟨_, h.1⟩)

private theorem slot_of_grant {b : Bool} {k : Nat} {o p : TablePtr V}
    (h : t.grant cs = some (.slot b k o p)) : t.res.index = k ∧ t.res.isOpen = true ∧ k ≠ npos := by
  simp only [Thread.grant, Reservation.grant] at h
  split at h
  · cases h
  · split at h
    · split at h
      · obtain ⟨_, _, h⟩ := Option.map_eq_some_iff.mp h
        cases h
      · obtain ⟨_, _, h⟩ := Option.bind_eq_some_iff.mp h
        obtain ⟨_, _, h⟩ := Option.map_eq_some_iff.mp h
        cases h
        exact ⟨rfl, by assumption, by assumption⟩
    · cases h

private theorem place_of_grant {p : TablePtr V} (h : t.grant cs = some (.place p)) :
    t.pc.effected = false ∧ t.res.isOpen = true ∧ t.res.index = npos ∧ t.res.table = some p := by
  simp only [Thread.grant, Reservation.grant] at h
  split at h
  · cases h
  · rename_i heff
    split at h
    · split at h
      · obtain ⟨q, hq, h⟩ := Option.map_eq_some_iff.mp h
        cases h
        exact ⟨by simpa using heff, by assumption, by assumption, hq⟩
      · obtain ⟨_, _, h⟩ := Option.bind_eq_some_iff.mp h
        obtain ⟨_, _, h⟩ := Option.map_eq_some_iff.mp h
        cases h
    · cases h

theorem table_of_grant {g : Grant V} (h : t.grant cs = some g) :
    t.res.table = some g.ptr ∧ t.res.isOpen = true := by
  simp only [Thread.grant, Reservation.grant] at h
  split at h
  · cases h
  · split at h
    · split at h
      · obtain ⟨p, hp, h⟩ := Option.map_eq_some_iff.mp h
        cases h
        exact ⟨hp, by assumption⟩
      · obtain ⟨_, _, h⟩ := Option.bind_eq_some_iff.mp h
        obtain ⟨p, hp, h⟩ := Option.map_eq_some_iff.mp h
        cases h
        exact ⟨hp, by assumption⟩
    · cases h

/-- A handle at rest is open just if it has been granted something. -/
theorem grant_isSome (hr : Resting d r) (hp : InPlace d cs ⟨r, .idle⟩) :
    (r.grant cs).isSome = r.isOpen := by
  obtain hs | hc | ⟨⟨b, hb⟩, hk⟩ := hr
  · rw [grant_settled hs, hs.not_open]
    rfl
  · obtain ⟨p, hp'⟩ := Option.isSome_iff_exists.mp hc.2.2.2.2
    rw [grant_creating hc hp', hc.isOpen]
    rfl
  · obtain ⟨p, q, hp', hq, _⟩ := hp.entry hb hk (by simp [dirty])
    rw [grant_holding hb hp' hq, hb.isOpen]
    rfl

private theorem owns_of_grant (ho : Owned i d t) (hp : InPlace d cs t) {b : Bool} {k : Nat}
    {o p : TablePtr V} (h : t.grant cs = some (.slot b k o p)) :
    (d.tableLocks k).writer = some i := by
  obtain ⟨rfl, hopen, hk⟩ := slot_of_grant h
  refine (ho.writer _).mpr ?_
  obtain hs | hc | ⟨b, hb⟩ := ho.ok.kind hp.facts
  · simp [hs.not_open] at hopen
  · exact absurd hc.2.2.1 hk
  · exact hb.index_mem t.pc

/-- A grant is not changed by what other handles do. -/
private theorem grant_stable (ho : Owned i d t) (hp : InPlace d cs t) (hs : Steady i d cs d' cs') :
    t.grant cs' = t.grant cs := by
  simp only [Thread.grant]
  split
  · rfl
  · obtain h | h | ⟨b, h⟩ := ho.ok.kind hp.facts
    · rw [grant_settled h, grant_settled h]
    · obtain ⟨p, hp⟩ := Option.isSome_iff_exists.mp h.2.2.2.2
      rw [grant_creating h hp, grant_creating h hp]
    · have hentry : cs'[t.res.index]? = cs[t.res.index]? :=
        (hs.leaves _ ((ho.writer _).mpr (h.index_mem t.pc))).entry
      simp only [Reservation.grant, hentry]

end Grants

variable [DecidableEq ι]

/-- What handle `i` sees of a store: its own grant, and that reserved slots are locked. -/
structure Shown (i : ι) (d : InternalData ι V) (m : Store ι V) (t : Thread V) : Prop where
  grant : m.grants i = t.grant m.contents
  owner : ∀ j k, m.Reserved j k → (d.tableLocks k).writer = some j
  reading : ∀ k, i ∈ (d.tableLocks k).readers → (d.tableLocks k).writer = none
  unused : d.nextTable ∉ m.contents.map TablePtr.id
  ahead : ∀ j p, m.grants j = some (.place p) → p.id ≠ d.nextTable

section Steps
variable [Inhabited V] {i : ι} {d d' : InternalData ι V} {m : Store ι V} {t t' : Thread V}
  {a : Act V}

omit [Inhabited V] in
private theorem silent {g : Option (Grant V)} (h : m.grants i = g) :
    Does Store.Next m none ⟨m.contents, Function.update m.grants i g⟩ := by
  obtain ⟨cs, grants⟩ := m
  cases h
  simp [Does]

/-- The step of an operation is the event it stands for. -/
private theorem tick_event {r : Reservation V} {pc : Pc V} (h : tick i d r pc = some (d', t'))
    (ho : Owned i d ⟨r, pc⟩) (hp : InPlace d m.contents ⟨r, pc⟩)
    (hg : Known d m.contents ⟨r, pc⟩ .tick) (hm : Shown i d m ⟨r, pc⟩) :
    Does Store.Next m (Thread.event i .tick d ⟨r, pc⟩)
      ⟨change ⟨r, pc⟩ .tick m.contents,
        Function.update m.grants i (t'.grant (change ⟨r, pc⟩ .tick m.contents))⟩ := by
  have hok := ho.ok
  have hok' := tick_ok h hok
  have hgrant := hm.grant
  have settled {q : Reservation V} {pc' : Pc V} (hq : q.Settled) :
      Thread.grant m.contents ⟨q, pc'⟩ = none := by
    simp [Thread.grant, grant_settled hq]
  have foreign {j : ι} {k : Nat} (hj : j ≠ i) (hr : m.Reserved j k) :
      k ∉ Thread.held ⟨r, pc⟩ := fun hk =>
    hj (Option.some.inj ((hm.owner j k hr).symm.trans ((ho.writer k).mpr hk)))
  -- a DROP takes its table out of the list when it owns the last slot as well
  have removed {k : Nat} (hr : r.Holding true) (hk : Backed d r) (hd : dirty r pc = [])
      (heff : pc.effected = false) (hlen : m.contents.length = k + 1)
      (hheld : k ∈ Thread.held ⟨r, pc⟩) :
      Store.Next m (.commit i) ⟨swapRemove m.contents r.index,
        Function.update m.grants i none⟩ := by
    obtain ⟨p, q, hp', hq, _, hdrop⟩ := hp.entry hr hk (by simp [hd])
    cases hdrop hr.2.1
    refine .remove i r.index p ?_ hq fun j l hj hrl hl => foreign hj hrl ?_
    · rw [hgrant]
      simp [Thread.grant, heff, grant_holding hr hp' hq]
    · rwa [show l = k by omega]
  cases pc with
  | idle | undefined => cases h
  | reserve =>
    simp only [tick] at h
    split at h <;> cases h
    · rename_i hfull
      simp only [Thread.event, if_pos hfull, change]
      exact silent (hgrant.trans (by simp [Thread.grant, Pc.effected]))
    · rename_i hfull
      simp only [Thread.event, if_neg hfull, change]
      exact .place i _ (hgrant.trans (settled hok)) hm.unused hm.ahead
  | unreserve =>
    cases h
    exact silent (hgrant.trans ((settled hok).trans (settled Reservation.settled_closed).symm))
  | abandon k =>
    cases h
    exact silent (hgrant.trans ((settled hok.1).trans (settled Reservation.settled_closed).symm))
  | load b k =>
    have hheld : k ∈ Thread.held ⟨r, .load b k⟩ := by simp [Thread.held, Pc.held]
    have hcell : d.tables k = m.contents[k]? := (hp.clean k hheld (by simp [dirty])).cell
    have hnone : m.grants i = none := hgrant.trans (settled hok.1)
    simp only [tick] at h
    split at h <;> cases h
    · rename_i hk
      simp only [Thread.event, hk, change]
      have hsame : Function.update m.grants i (Thread.grant m.contents ⟨r, .abandon k⟩) =
          m.grants := by
        rw [settled hok.1, ← hnone, Function.update_eq_self]
      rw [hsame]
      exact .missing i k (hcell ▸ hk)
    · rename_i p hk
      simp only [Thread.event, hk, change]
      have hholding : Reservation.Holding b ⟨true, some p, b, k, some k⟩ :=
        ⟨rfl, rfl, rfl, hok.2, rfl⟩
      have hentry : m.contents[k]? = some p := hcell ▸ hk
      rw [show Thread.grant m.contents ⟨⟨true, some p, b, k, some k⟩, .idle⟩ =
        some (.slot b k p p) from grant_holding hholding rfl hentry]
      refine .reserve i b k p hnone hentry fun j hj => ?_
      obtain rfl : j = i := by
        by_contra hne
        exact foreign hne hj hheld
      obtain ⟨_, _, _, hj⟩ := hj
      simp [hnone] at hj
  | lookupLoad k =>
    cases h
    have hfree : (d.tableLocks k).writer = none :=
      hm.reading k ((ho.reader k).mpr (by simp [Pc.shared]))
    have hcell : d.tables k = m.contents[k]? := (hg.free k hfree).cell
    have hsame : Function.update m.grants i (Thread.grant m.contents ⟨r, .lookupUnlock k⟩) =
        m.grants := by
      rw [show Thread.grant m.contents ⟨r, .lookupUnlock k⟩ = m.grants i from hgrant.symm,
        Function.update_eq_self]
    simp only [Thread.event, hcell, change, hsame]
    refine .read i k fun j hj => ?_
    simpa [hfree] using hm.owner j k hj
  | alterStore =>
    cases h
    obtain ⟨p, q, hp', hq, hid, _⟩ := hp.entry hok.1 hok.2 (by simp [dirty])
    simp only at hp' hq
    simp only [Thread.event, change, hp', Option.elim_some]
    refine .replace i r.index q p ?_ hq hid.symm
    rw [hgrant]
    exact grant_holding hok.1 hp' hq
  | dropClear =>
    cases h
    have hheld := hok.1.index_mem (.dropClear)
    have hs := hp.clean r.index hheld (by simp [dirty])
    exact removed hok.1 hok.2 rfl rfl (hs.last hp.facts) hheld
  | moveStore l p =>
    cases h
    have hheld : l ∈ Thread.held ⟨r, .moveStore l p⟩ := by simp [Thread.held, Pc.held]
    have hs := hp.clean l hheld (by simp [dirty])
    exact removed hok.1 hok.2.1 rfl rfl (hs.last hp.facts) hheld
  | innerStore n o =>
    cases h
    obtain ⟨p, hp'⟩ : ∃ p, r.table = some p := Option.isSome_iff_exists.mp hok.1.2.2.2.2
    have hf := hp.facts
    have hlen : m.contents.length = n := hf.2.2
    simp only [Thread.event, change, hp', Option.toList_some]
    refine .insert i p ?_ (hlen ▸ hok.2.1)
    rw [hgrant]
    exact grant_creating hok.1 hp'
  | alterUnlock | dropUnlock =>
    cases h
    have hs : Reservation.Settled { r with lock := none } := ⟨rfl, .inr hok.1.index_ne⟩
    exact silent (hgrant.trans (settled hs).symm)
  | moveUnlock l =>
    cases h
    exact silent (hgrant.trans (settled hok'.1).symm)
  | innerCount n o =>
    cases h
    exact silent (hgrant.trans (settled hok'.1).symm)
  | _ =>
    simp only [tick] at h
    (repeat' split at h) <;> cases h <;>
      exact silent (hgrant.trans (by simp [Thread.grant, Pc.effected, change]))

omit [Inhabited V] in
private theorem call_event [Inhabited V] {r : Reservation V} (h : Called d r a d' t')
    (hp : InPlace d m.contents ⟨r, .idle⟩) (hm : Shown i d m ⟨r, .idle⟩) :
    Does Store.Next m (Thread.event i a d ⟨r, .idle⟩)
      ⟨m.contents, Function.update m.grants i (t'.grant m.contents)⟩ := by
  have hgrant : m.grants i = r.grant m.contents := hm.grant
  have creating (hc : r.Creating) : ∃ p, r.table = some p ∧ m.grants i = some (.place p) := by
    obtain ⟨p, hp'⟩ := Option.isSome_iff_exists.mp hc.2.2.2.2
    exact ⟨p, hp', hgrant.trans (grant_creating hc hp')⟩
  have holding {b : Bool} (hb : r.Holding b) (hk : Backed d r) : ∃ p q, r.table = some p ∧
      m.contents[r.index]? = some q ∧ m.grants i = some (.slot b r.index q p) := by
    obtain ⟨p, q, hp', hq, _⟩ := hp.entry hb hk (by simp [dirty])
    exact ⟨p, q, hp', hq, hgrant.trans (grant_holding hb hp' hq)⟩
  have hcancelled : r.cancelled.grant m.contents = none :=
    grant_settled (Reservation.settled_cancelled r)
  cases h with
  | refuse hs =>
    exact silent (hgrant.trans ((grant_settled hs).trans (grant_closed m.contents).symm))
  | editCreate f hc =>
    obtain ⟨p, hp', hi⟩ := creating hc
    have hc' : (r.edit f).Creating := by simpa [Reservation.Creating] using hc
    have ht : (r.edit f).table = some ⟨p.id, f p.value⟩ := by simp [hp']
    rw [show Thread.grant m.contents ⟨r.edit f, .idle⟩ = some (Grant.edit f (.place p)) from
      grant_creating hc' ht]
    exact .edit i f _ hi (by simp)
  | editAlter f hb hk =>
    obtain ⟨p, q, hp', hq, hi⟩ := holding hb hk
    have hb' : (r.edit f).Holding false := by simpa [Reservation.Holding] using hb
    have ht : (r.edit f).table = some ⟨p.id, f p.value⟩ := by simp [hp']
    rw [show Thread.grant m.contents ⟨r.edit f, .idle⟩ =
      some (Grant.edit f (.slot false r.index q p)) from grant_holding hb' ht hq]
    exact .edit i f _ hi (by simp)
  | giveBack hc =>
    obtain ⟨p, _, hi⟩ := creating hc
    rw [show Thread.grant m.contents ⟨r.cancelled, .idle⟩ = none from hcancelled]
    exact .cancel i _ hi
  | release b hb hk =>
    obtain ⟨p, q, _, _, hi⟩ := holding hb hk
    rw [show Thread.grant m.contents ⟨r.cancelled, .idle⟩ = none from hcancelled]
    exact .cancel i _ hi
  | create hc => exact silent (hgrant.trans (by simp [Thread.grant, Pc.effected]))
  | _ => exact silent (hgrant.trans (by simp [Thread.grant, Pc.effected]))

private theorem act_event (h : act i a d t = some (d', t')) (ho : Owned i d t)
    (hp : InPlace d m.contents t) (hg : Known d m.contents t a) (hm : Shown i d m t) :
    Does Store.Next m (t.event i a d)
      ⟨change t a m.contents, Function.update m.grants i (t'.grant (change t a m.contents))⟩ := by
  obtain ⟨r, pc⟩ := t
  obtain ⟨rfl, ht⟩ | ⟨rfl, hc⟩ := act_eq_some h
  · exact tick_event ht ho hp hg hm
  · have hsame : change ⟨r, .idle⟩ a m.contents = m.contents := by cases a <;> rfl
    rw [hsame]
    exact call_event (called_of_call hc ho.ok) hp hm

end Steps

def Sharing (s : State ι V) : Prop :=
  ∀ i k, i ∈ (s.data.tableLocks k).readers → (s.data.tableLocks k).writer = none

section Runs
variable [Inhabited V] {s s' : State ι V} {cs : List (TablePtr V)} {g : GapFree V}

omit [DecidableEq ι] [Inhabited V] in
private theorem act_shares [DecidableEq ι] [Inhabited V] {i : ι} {a : Act V}
    {d d' : InternalData ι V} {t t' : Thread V} {k : Nat} (h : act i a d t = some (d', t'))
    (hk : t'.pc.shared = [k]) (hn : t.pc.shared = []) : (d.tableLocks k).writer = none := by
  obtain ⟨r, pc⟩ := t
  obtain ⟨rfl, ht⟩ | ⟨rfl, hc⟩ := act_eq_some h
  · cases pc <;> simp only [tick] at ht <;> (repeat' split at ht) <;> cases ht <;>
      simp_all [Pc.shared]
  · have hb := r.branch_cases
    cases a <;> simp only [call] at hc <;> (repeat' split at hc) <;> cases hc <;>
      simp [Pc.shared] at hk
    obtain hb | hb | hb := hb <;> simp [hb] at hk

private theorem sharing_step {l : Label ι V} (h : step s l = some s') (ho : AllOwned s)
    (hs : Sharing s) : Sharing s' := by
  cases l with
  | run i a =>
    obtain ⟨d', t', ha, rfl⟩ := step_run.mp h
    obtain ⟨he, _⟩ := act_effect ha (ho i).ok
    intro j k hj
    generalize hshared : t'.pc.shared = shared at he
    generalize t'.held = held at he
    cases he with
    | keep _ hl _ =>
      rw [hl] at hj ⊢
      exact hs j k hj
    | lock l hf _ =>
      by_cases hk : k = l
      · simp [hk, (SharedMutex.free_iff.mp hf).2] at hj
      · simp only [InternalData.lock_tableLocks, Function.update_of_ne hk] at hj ⊢
        exact hs j k hj
    | unlock l _ =>
      by_cases hk : k = l
      · simp [hk]
      · simp only [InternalData.unlock_tableLocks, Function.update_of_ne hk] at hj ⊢
        exact hs j k hj
    | store => exact hs j k hj
    | share l hn =>
      by_cases hk : k = l
      · simpa [hk] using act_shares ha hshared hn
      · simp only [InternalData.lockShared_tableLocks, Function.update_of_ne hk] at hj ⊢
        exact hs j k hj
    | unshare l _ =>
      by_cases hk : k = l
      · subst hk
        simp only [InternalData.unlockShared_tableLocks, Function.update_self,
          Finset.mem_erase] at hj ⊢
        exact hs j k hj.2
      · simp only [InternalData.unlockShared_tableLocks, Function.update_of_ne hk] at hj ⊢
        exact hs j k hj
  | move i j =>
    obtain ⟨r, r', hi, _, _, _, _, rfl⟩ := step_move h
    intro l k hl
    have hl' : l ∈ (s.data.tableLocks k).readers := by
      rwa [← handOver_readers s.data r.lock j k]
    rw [handOver_writer]
    split
    · rename_i hk
      have hw : (s.data.tableLocks k).writer = some i :=
        ((ho i).writer k).mpr (by simp [hi, Thread.held, Pc.held, hk])
      simp [hs l k hl'] at hw
    · exact hs l k hl'

theorem sharing_of_reach {guard : State ι V → Label ι V → Prop} {g : GapFree V}
    (h : Reach step guard g.start s) : Sharing s :=
  h.invariant_with (fun _ hx => (allOwned_start g).of_reach hx) (fun _ _ hi => (by cases hi))
    fun _ _ _ ho _ hs _ he => sharing_step he ho hs

section Counted
variable [Fintype ι]

omit [DecidableEq ι] [Inhabited V] in
private theorem Traced.next_new {base : List (TablePtr V)} {h : History V} (ht : Traced base s h) :
    s.data.nextTable ∉ h.contents.map TablePtr.id ∧
      ∀ i, ∀ p ∈ (s.threads i).pending, p.id ≠ s.data.nextTable := by
  have hf := ht.fresh s.data.nextTable
  have hb := ht.balance s.data.nextTable
  rw [if_neg (lt_irrefl _)] at hf
  constructor
  · refine List.count_eq_zero.mp (show occurrences s.data.nextTable h.contents = 0 from ?_)
    omega
  · rintro i p hp he
    have hle := le_total (fun t => occurrences s.data.nextTable t.pending) s.threads
      (Finset.mem_univ i)
    have hpos : 0 < occurrences s.data.nextTable (s.threads i).pending :=
      List.count_pos_iff.mpr (he ▸ List.mem_map_of_mem hp)
    omega

omit [DecidableEq ι] [Inhabited V] [Fintype ι] in
private theorem pending_of_grant {cs : List (TablePtr V)} {t : Thread V} {p : TablePtr V}
    (h : t.grant cs = some (.place p)) : p ∈ t.pending := by
  obtain ⟨heff, hopen, hindex, htable⟩ := place_of_grant h
  have hcreates : t.creates = 1 := by
    simp only [Reservation.isOpen, Bool.and_eq_true] at hopen
    simp [Thread.creates, hopen.1, hindex]
  obtain ⟨r, pc⟩ := t
  cases pc with
  | innerCount => cases heff
  | _ => simp_all [Thread.pending]

/-- What relates a state to the store it stands for. -/
structure Stands (base : List (TablePtr V)) (s : State ι V) (m : Store ι V) : Prop where
  store : m = s.store m.contents
  dense : Dense s m.contents
  sharing : Sharing s
  traced : ∃ h, h.contents = m.contents ∧ Traced base s h

omit [DecidableEq ι] [Inhabited V] in
theorem shown {base : List (TablePtr V)} {m : Store ι V} (ho : AllOwned s)
    (hm : Stands base s m) (i : ι) : Shown i s.data m (s.threads i) where
  grant := congrArg (fun n => n.grants i) hm.store
  owner j k := by
    rintro ⟨b, o, p, hj⟩
    rw [hm.store] at hj
    exact owns_of_grant (ho j) (hm.dense.inPlace j) hj
  reading := hm.sharing i
  unused := by
    obtain ⟨h, hc, ht⟩ := hm.traced
    exact hc ▸ ht.next_new.1
  ahead j p hj := by
    obtain ⟨h, _, ht⟩ := hm.traced
    rw [hm.store] at hj
    exact ht.next_new.2 j p (pending_of_grant hj)

/-- Each step of the system is the event it stands for. -/
theorem stands_step {base : List (TablePtr V)} {m : Store ι V} {l : Label ι V}
    (h : step s l = some s') (ho : AllOwned s) (hc : Counted s) (hm : Stands base s m)
    (hg : EmptyStable s l) :
    ∃ n, Does Store.Next m (s.event l) n ∧ Stands base s' n := by
  have hdense := dense_step h ho hc hm.dense hg
  have hsharing := sharing_step h ho hm.sharing
  obtain ⟨hist, hcs, ht⟩ := hm.traced
  have htraced := traced_step h ho (hcs ▸ hm.dense) ht
  have hlisted : (History.record s l hist).contents = listed s l m.contents := by
    rw [← hcs]
    cases l <;> rfl
  suffices hd : Does Store.Next m (s.event l) (s'.store (listed s l m.contents)) from
    ⟨_, hd, rfl, hdense, hsharing, _, hlisted, htraced⟩
  cases l with
  | run i a =>
    obtain ⟨d', t', ha, rfl⟩ := step_run.mp h
    have hknown : Known s.data m.contents (s.threads i) a := known_run hc hm.dense hg
    have hkept := act_kept ha (ho i) (hm.dense.inPlace i) hknown
    have hevent := act_event ha (ho i) (hm.dense.inPlace i) hknown (shown ho hm i)
    suffices hsame : (⟨d', Function.update s.threads i t'⟩ : State ι V).store
        (change (s.threads i) a m.contents) = ⟨change (s.threads i) a m.contents,
          Function.update m.grants i (t'.grant (change (s.threads i) a m.contents))⟩ from
      hsame ▸ hevent
    refine congrArg (Store.mk _) (funext fun j => ?_)
    by_cases hj : j = i
    · simp [hj]
    · have hstable := grant_stable (ho j) (hm.dense.inPlace j) (hkept.steady hj)
      simp only [Function.update_of_ne hj, hstable]
      exact ((shown ho hm j).grant).symm
  | move i j =>
    obtain ⟨r, r', hi, hj, hij, hr, hr', rfl⟩ := step_move h
    have hgi : m.grants i = r.grant m.contents := by
      simpa [hi, Thread.grant, Pc.effected] using (shown ho hm i).grant
    have hgj : m.grants j = none := by
      simpa [hj, Thread.grant, Pc.effected, Reservation.grant, hr'] using (shown ho hm j).grant
    have hok := (ho i).ok
    rw [hi] at hok
    have hp := hm.dense.inPlace i
    rw [hi] at hp
    obtain ⟨γ, hγ⟩ : ∃ γ, r.grant m.contents = some γ := by
      obtain hcr | ⟨b, hb, hk⟩ := hok.of_open hr
      · obtain ⟨p, hp'⟩ := Option.isSome_iff_exists.mp hcr.2.2.2.2
        exact ⟨_, grant_creating hcr hp'⟩
      · obtain ⟨p, q, hp', hq, _⟩ := hp.entry hb hk (by simp [dirty])
        exact ⟨_, grant_holding hb hp' hq⟩
    have hmoved : r.movedFrom.grant m.contents = none :=
      grant_settled (Reservation.settled_movedFrom r)
    suffices hsame : (⟨s.data.handOver r.lock j, Function.update
        (Function.update s.threads i ⟨r.movedFrom, .idle⟩) j ⟨r, .idle⟩⟩ : State ι V).store
          m.contents = ⟨m.contents,
            Function.update (Function.update m.grants i none) j (some γ)⟩ from
      hsame ▸ Store.Next.move i j γ hij (hgi.trans hγ) hgj
    refine congrArg (Store.mk _) (funext fun l => ?_)
    by_cases hl : l = j
    · simp [hl, Thread.grant, Pc.effected, hγ]
    · by_cases hli : l = i
      · simp [hli, hij, Thread.grant, Pc.effected, hmoved]
      · simp only [Function.update_of_ne hl, Function.update_of_ne hli]
        exact ((shown ho hm l).grant).symm

def GapFree.store (g : GapFree V) : Store ι V := ⟨g.tables, fun _ => none⟩

omit [DecidableEq ι] [Inhabited V] in
theorem stands_start (g : GapFree V) :
    Stands g.tables (g.start : State ι V) (g.store : Store ι V) where
  store := by
    refine congrArg (Store.mk _) (funext fun i => ?_)
    exact (grant_closed g.tables).symm
  dense := dense_start g
  sharing _ k := by simp [GapFree.start, State.at, GapFree.data]
  traced := ⟨_, rfl, traced_start g⟩

/-- A run in which emptiness found is found again is explained by its events: they are, in the
order of the run, what happened to a store, which ends as the slots and the handles show. -/
theorem run_refines_store {es : List (Event ι V)}
    (h : Reach (recorded step (logged State.event)) (fun x l => EmptyStable x.1 l)
      (g.start, []) (s, es)) :
    ∃ m : Store ι V, Events Store.Next g.store es m ∧ (∀ i, m.grants i =
      (s.threads i).grant m.contents) ∧ (∀ k, (s.data.tableLocks k).writer = none →
        s.data.tables k = m.contents[k]?) ∧
      ((∀ i, (s.threads i).pc.completing = false) → s.data.tableCount = m.contents.length ∧
        ∀ k, s.data.tables k = m.contents[k]?) := by
  obtain ⟨m, hm, hs⟩ := Reach.explained (R := fun s m => Stands g.tables s m) (stands_start g)
    (fun s l t m hr hm hg he => stands_step he ((allOwned_start g).of_reach hr)
      ((counted_start g).of_reach (allOwned_start g) hr) hm hg) h
  have ho := (allOwned_start g).of_reach h.forget
  exact ⟨m, hm, fun i => (shown ho hs i).grant, fun k hk => (hs.dense.free k hk).cell,
    fun hq => (hs.dense.settled ho hq).symm⟩

omit [DecidableEq ι] [Inhabited V] [Fintype ι] in
theorem sound_start (g : GapFree V) : (g.store : Store ι V).Sound :=
  ⟨g.fits, g.distinct, by simp [GapFree.store], by simp [GapFree.store, Store.Reserved],
    by simp [GapFree.store], by simp [GapFree.store]⟩

/-- A reservation that has not taken effect keeps its slot as it found it: no lookup and no other
reservation of the slot returns in the meantime, and the slot stores the table that was given. -/
theorem reserved_slot_isolated {es fs : List (Event ι V)} {i : ι} {b : Bool} {k : Nat}
    {p : TablePtr V} (h : Reach (recorded step (logged State.event))
      (fun x l => EmptyStable x.1 l) (g.start, []) (s, es ++ .reserve i b k p :: fs))
    (hi : ∀ e ∈ fs, ¬ e.GivesUp i) :
    (∀ e ∈ fs, ¬ e.At k) ∧ s.data.tables k = some p ∧
      (s.data.tableLocks k).writer = some i := by
  obtain ⟨m, hm, hs⟩ := Reach.explained (R := fun s m => Stands g.tables s m) (stands_start g)
    (fun s l t m hr hm hg he => stands_step he ((allOwned_start g).of_reach hr)
      ((counted_start g).of_reach (allOwned_start g) hr) hm hg) h
  have ho := (allOwned_start g).of_reach h.forget
  obtain ⟨m₁, h₁, h₂⟩ := (List.append_cons es _ fs ▸ hm).split
  obtain ⟨m₀, h₀, hn⟩ := h₁.snoc_inv
  have hgiven : ∃ q, m₁.grants i = some (.slot b k p q) := by
    cases hn with
    | reserve i b k p => exact ⟨p, by simp [Store.give]⟩
  obtain ⟨hat, q, hq⟩ := Store.isolated h₂ ((sound_start g).events h₁) hgiven hi
  have hkept := (((sound_start g).events hm).kept i b k p q hq).1
  have hgrant := (shown ho hs i).grant.symm.trans hq
  have hwriter := owns_of_grant (ho i) (hs.dense.inPlace i) hgrant
  refine ⟨hat, ?_, hwriter⟩
  have hclean : k ∉ dirty (s.threads i).res (s.threads i).pc := by
    have hopen := (slot_of_grant hgrant).2.1
    have hok := (ho i).ok
    generalize s.threads i = t at hgrant hopen hok
    obtain ⟨r, pc⟩ := t
    cases pc with
    | dropCount | moveUnlock | innerCount => simp [Thread.grant, Pc.effected] at hgrant
    | moveCount | moveReserved | moveClear => simp [hok.1.not_open] at hopen
    | _ => simp [dirty]
  exact ((hs.dense.inPlace i).clean k (((ho i).writer k).mp hwriter) hclean).cell.trans hkept

end Counted
end Runs

theorem run_refines_store_drop : ∃ (s : State (Fin 2) Nat) (es : List (Event (Fin 2) Nat)),
    execute (recorded step (logged State.event)) (fun x l => EmptyStable x.1 l)
      (dropWhileCreating 0 1) (pair.start, []) = some (s, es) ∧ es.length = 4 ∧
      ∃ m, Events Store.Next pair.store es m ∧ s.data.tableCount = m.contents.length := by
  obtain ⟨⟨s, es⟩, he, hs⟩ := Option.map_eq_some_iff.mp
    (show (execute (recorded step (logged State.event)) (fun x l => EmptyStable x.1 l)
      (dropWhileCreating (0 : Fin 2) 1) (pair.start, [])).map (fun x =>
        (decide (∀ i, (x.1.threads i).pc.completing = false), x.2.length)) = some (true, 4) by
        decide +kernel)
  obtain ⟨hq, hlen⟩ : decide (∀ i, (s.threads i).pc.completing = false) = true ∧
      es.length = 4 := by simpa using hs
  obtain ⟨m, hm, _, _, hend⟩ := run_refines_store (reach_of_execute _ he)
  exact ⟨s, es, he, hlen, m, hm, (hend (of_decide_eq_true hq)).1⟩

theorem reserved_slot_isolated_drop : ∃ s : State (Fin 2) Nat,
    execute (recorded step (logged State.event)) (fun x l => EmptyStable x.1 l)
      (calls 0 (.dropTable 0) 2 ++ calls 1 .createTable 1) (pair.start, []) =
        some (s, [] ++ .reserve 0 true 0 ⟨0, 10⟩ :: [.place 1 ⟨2, 0⟩]) ∧
      s.data.tables 0 = some ⟨0, 10⟩ := by
  obtain ⟨⟨s, _⟩, he, rfl⟩ := Option.map_eq_some_iff.mp
    (show (execute (recorded step (logged State.event)) (fun x l => EmptyStable x.1 l)
      (calls (0 : Fin 2) (.dropTable 0) 2 ++ calls 1 .createTable 1) (pair.start, [])).map
        Prod.snd = some ([] ++ .reserve 0 true 0 ⟨0, 10⟩ :: [.place 1 ⟨2, 0⟩]) from rfl)
  exact ⟨s, he, (reserved_slot_isolated (reach_of_execute _ he)
    (by simp [Event.GivesUp])).2.1⟩

end PStress.Metadata
