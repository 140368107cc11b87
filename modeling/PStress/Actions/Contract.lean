import PStress.Actions.Workers

/-! What actions may rely on and what they have to respect, one action at a time. When each
action keeps its side in a session of its own, stored tables and requests are as agreed in every
run of the workers. -/
namespace PStress.Actions
open Interaction Interleaving Metadata Program

/-- A reservation as the action that made it sees it. -/
inductive Handle where
  | closed
  | creating (t : Table)
  | altering (t : Table)
  | dropping (t : Table)

namespace Handle

def isOpen : Handle → Bool
  | closed => false
  | creating _ | altering _ | dropping _ => true

def write (t : Table) : Handle → Handle
  | creating _ => creating t
  | altering _ => altering t
  | h => h

/-- What `table()` may return. A handle that is not open may still point to a table. -/
def points : Handle → Option Table → Prop
  | closed, _ => True
  | creating t, p | altering t, p | dropping t, p => p = some t

def of (r : Reservation Table) : Handle :=
  match r.isOpen, r.table with
  | true, some p =>
    if r.index = npos then creating p.value
    else if r.drop then dropping p.value else altering p.value
  | _, _ => closed

private theorem of_not_open {r : Reservation Table} (h : r.isOpen = false) : of r = closed := by
  simp [of, h]

theorem of_settled {r : Reservation Table} (h : r.Settled) : of r = closed :=
  of_not_open h.not_open

theorem of_creating {r : Reservation Table} (h : r.Creating) :
    ∃ p, r.table = some p ∧ of r = creating p.value := by
  obtain ⟨p, hp⟩ := Option.isSome_iff_exists.mp h.2.2.2.2
  exact ⟨p, hp, by simp [of, h.isOpen, hp, h.2.2.1]⟩

theorem of_holding {r : Reservation Table} {b : Bool} (h : r.Holding b) :
    ∃ p, r.table = some p ∧ of r = if b then dropping p.value else altering p.value := by
  obtain ⟨p, hp⟩ := Option.isSome_iff_exists.mp h.2.2.2.2
  exact ⟨p, hp, by simp [of, h.isOpen, hp, h.index_ne, h.2.1]⟩

end Handle

/-- What stored tables satisfy, what reads of `size()` return, what is known of the bounds of a
random number that is drawn, and which requests an action makes. -/
structure Contract where
  stored : Table → Prop
  draws : Int → Int → Prop
  counts : SizeUse → Nat → Prop
  asks : Option Action → Request → Prop

namespace Contract
variable (c : Contract)

def ready : Handle → Prop
  | .creating t | .altering t => c.stored t
  | .closed | .dropping _ => True

def answers (h : Handle) : (q : Request) → q.Answer → Handle → Prop
  | .size use, n, h' => c.counts use n ∧ h' = h
  | .createTable, _, h' => h' = .closed ∨ h' = .creating default
  | .alterTable _, _, h' => h' = .closed ∨ ∃ t, c.stored t ∧ h' = .altering t
  | .dropTable _, _, h' => h' = .closed ∨ ∃ t, c.stored t ∧ h' = .dropping t
  | .lookup _, p, h' => (∀ t, p = some t → c.stored t) ∧ h' = h
  | .isOpen, b, h' => b = h.isOpen ∧ h' = h
  | .table, p, h' => h.points p ∧ h' = h
  | .write t, _, h' => h' = h.write t
  | .complete, _, h' => h' = .closed
  | .random _ min max, v, h' => (Drawn min max v ∧ c.draws min max) ∧ h' = h
  | .index, _, h' | .real, _, h' | .executeQuery _, _, h' => h' = h

def session (a : Option Action) : Session Request Request.Answer Handle where
  may h q := c.asks a q ∧ (q = .complete → c.ready h)
  next h q r h' := c.answers h q r h'

/-- The action keeps its side, and leaves no reservation open. -/
def Kept {α : Type} (a : Option Action) (h : Handle) (p : Execution α) : Prop :=
  Keeps (c.session a) (fun _ h => h = .closed) (fun e h => e = .thrown → h = .closed) h p

def Outcome (t : Thread Table) (h : Handle) : Prop :=
  match t.pc with
  | .idle | .lookupLock _ | .lookupLoad _ | .lookupUnlock _ => h = .of t.res
  | .reserve => h = .closed ∨ h = .creating default
  | .acquire false _ | .load false _ => h = .closed ∨ ∃ t, c.stored t ∧ h = .altering t
  | .acquire true _ | .load true _ => h = .closed ∨ ∃ t, c.stored t ∧ h = .dropping t
  | _ => h = .closed

/-- A completion only stores tables it may. -/
def Carries (t : Thread Table) : Prop :=
  (t.pc.completing = true → t.res.drop = false → ∀ p, t.res.table = some p → c.stored p.value) ∧
    ∀ k p, t.pc = .moveStore k (some p) → c.stored p.value

def Tables {ι : Type} (d : InternalData ι Table) : Prop :=
  ∀ k p, d.tables k = some p → c.stored p.value

variable {c} {ι : Type} {d d' : InternalData ι Table} {r : Reservation Table} {t' : Thread Table}
  {i : ι} {pc : Pc Table}

theorem Tables.store (h : c.Tables d) (k : Nat) {q : Option (TablePtr Table)}
    (hq : ∀ p, q = some p → c.stored p.value) : c.Tables (d.store k q) := by
  intro j p hp
  by_cases hj : j = k
  · subst hj
    exact hq p (by simpa using hp)
  · exact h j p (by simpa [hj] using hp)

private theorem carries_of_not_completing {t : Thread Table} (h : t.pc.completing = false) :
    c.Carries t := by
  refine ⟨fun hc => ?_, fun k p hk => ?_⟩
  · rw [h] at hc
    cases hc
  · rw [hk] at h
    cases h

variable [DecidableEq ι]

private theorem tick_tables (h : tick i d r pc = some (d', t')) (ho : PcOk d r pc) (ht : c.Tables d)
    (hc : c.Carries ⟨r, pc⟩) : c.Tables d' := by
  cases pc with
  | alterStore =>
    cases h
    exact ht.store _ (hc.1 rfl ho.1.2.1)
  | innerStore n o =>
    cases h
    exact ht.store _ (hc.1 rfl ho.1.2.1)
  | dropClear | moveClear =>
    cases h
    exact ht.store _ fun p hp => by cases hp
  | moveStore k p =>
    cases h
    exact ht.store _ fun q hq => hc.2 k q (by rw [hq])
  | _ =>
    simp only [tick] at h
    (repeat' split at h) <;> cases h <;> exact ht

private theorem tick_carries (h : tick i d r pc = some (d', t')) (ht : c.Tables d)
    (hc : c.Carries ⟨r, pc⟩) : c.Carries t' := by
  cases pc with
  | reserve | unreserve | acquire | load | abandon | lookupLock | lookupLoad | lookupUnlock
  | alterUnlock | dropUnlock | moveRelease | outerUnlock =>
    simp only [tick] at h
    (repeat' split at h) <;> cases h <;> exact carries_of_not_completing rfl
  | moveLoad k =>
    cases h
    refine ⟨fun _ => hc.1 rfl, fun j p hp => ?_⟩
    obtain ⟨rfl, hq⟩ := Pc.moveStore.inj hp
    exact ht k p hq
  | innerUnlock n o =>
    cases h
    cases o
    · exact carries_of_not_completing rfl
    · exact ⟨fun _ => hc.1 rfl, fun _ _ hp => by cases hp⟩
  | idle | undefined => cases h
  | _ =>
    simp only [tick] at h
    (repeat' split at h) <;> cases h <;>
      exact ⟨fun _ => hc.1 rfl, fun _ _ hp => by simp at hp⟩

private theorem tick_outcome (h : tick i d r pc = some (d', t')) (ho : PcOk d r pc)
    (ht : c.Tables d) {e : Handle} (he : c.Outcome t' e) : c.Outcome ⟨r, pc⟩ e := by
  cases pc with
  | idle | undefined => cases h
  | reserve =>
    simp only [tick] at h
    split at h <;> cases h
    · exact .inl he
    · exact .inr he
  | unreserve | abandon =>
    cases h
    exact he
  | acquire b k =>
    simp only [tick] at h
    split at h <;> cases h
    cases b <;> exact he
  | load b k =>
    simp only [tick] at h
    split at h <;> cases h
    · cases b <;> exact .inl he
    · rename_i p hp
      have hst := ht k p hp
      have hb : Reservation.Holding b ⟨true, some p, b, k, some k⟩ := ⟨rfl, rfl, rfl, ho.2, rfl⟩
      obtain ⟨q, hq, hof⟩ := Handle.of_holding hb
      cases hq
      rw [Outcome, hof] at he
      cases b <;> exact .inr ⟨p.value, hst, he⟩
  | lookupLock =>
    simp only [tick] at h
    split at h <;> cases h
    exact he
  | lookupLoad | lookupUnlock =>
    cases h
    exact he
  | alterUnlock | dropUnlock =>
    cases h
    exact he.trans (Handle.of_settled ⟨rfl, .inr ho.1.index_ne⟩)
  | moveRelease | outerUnlock =>
    cases h
    exact he.trans (Handle.of_settled ho.1)
  | innerUnlock n o =>
    cases h
    cases o
    · exact he.trans (Handle.of_settled ho.1)
    · exact he
  | _ =>
    simp only [tick] at h
    (repeat' split at h) <;> cases h <;> exact he

omit [DecidableEq ι] in
private theorem edit_outcome {t : Table} (hr : Resting d r)
    (h : call d r (.edit fun _ => t) = some (d', t')) :
    d' = d ∧ t'.pc = .idle ∧ Handle.of t'.res = (Handle.of r).write t := by
  have hcall := called_of_call h hr
  cases hcall with
  | editCreate _ hc =>
    obtain ⟨p, hp, hof⟩ := Handle.of_creating hc
    have hc' : (r.edit fun _ => t).Creating := by
      simpa [Reservation.Creating] using hc
    obtain ⟨q, hq, hof'⟩ := Handle.of_creating hc'
    rw [Reservation.edit, hp] at hq
    cases hq
    exact ⟨rfl, rfl, by rw [hof, hof']; rfl⟩
  | editAlter _ hb _ =>
    obtain ⟨p, hp, hof⟩ := Handle.of_holding hb
    have hb' : (r.edit fun _ => t).Holding false := by
      simpa [Reservation.Holding] using hb
    obtain ⟨q, hq, hof'⟩ := Handle.of_holding hb'
    rw [Reservation.edit, hp] at hq
    cases hq
    exact ⟨rfl, rfl, by rw [hof, hof']; rfl⟩

omit [DecidableEq ι] in
private theorem complete_outcome (hr : Resting d r) (hready : c.ready (.of r))
    (h : call d r .complete = some (d', t')) :
    d' = d ∧ c.Carries t' ∧ ∀ e, c.Outcome t' e → e = .closed := by
  have hcall := called_of_call h hr
  cases hcall with
  | create hc =>
    obtain ⟨p, hp, hof⟩ := Handle.of_creating hc
    rw [hof] at hready
    refine ⟨rfl, ⟨fun _ _ q hq => ?_, fun _ _ hk => by cases hk⟩, fun e he => he⟩
    cases hp.symm.trans hq
    exact hready
  | store hb _ =>
    obtain ⟨p, hp, hof⟩ := Handle.of_holding hb
    rw [hof] at hready
    refine ⟨rfl, ⟨fun _ _ q hq => ?_, fun _ _ hk => by cases hk⟩, fun e he => he⟩
    cases hp.symm.trans hq
    exact hready
  | remove hb _ =>
    refine ⟨rfl, ⟨fun _ hd => ?_, fun _ _ hk => by cases hk⟩, fun e he => he⟩
    cases hd.symm.trans hb.2.1

omit [DecidableEq ι] in
/-- A request leaves the action in its session, whatever the operation it begins ends with. -/
theorem serve_kept {x : Input} {q : Request} {k : q.Answer → Execution Unit}
    {ans : Option q.Answer} {a : Option Action} (h : serve x d r q = some (d', t', ans))
    (hr : Resting d r) (hk : c.Kept a (.of r) (.ask q k))
    (hsize : ∀ use, q = .size use → c.counts use d.tableCount)
    (hdraw : ∀ type min max, q = .random type min max → c.draws min max) :
    d'.tables = d.tables ∧ c.Carries t' ∧ ∀ e, c.Outcome t' e → c.Kept a e (resume q k ans) := by
  obtain ⟨⟨_, hready⟩, hnext⟩ := hk
  cases q with
  | size use =>
    cases h
    exact ⟨rfl, carries_of_not_completing rfl, fun e he => hnext _ e ⟨hsize use rfl, he⟩⟩
  | isOpen =>
    cases h
    refine ⟨rfl, carries_of_not_completing rfl, fun e he => hnext _ e ⟨?_, he⟩⟩
    obtain hs | hc | ⟨⟨b, hb⟩, _⟩ := hr
    · rw [Handle.of_settled hs, hs.not_open]
      rfl
    · obtain ⟨p, _, hof⟩ := Handle.of_creating hc
      rw [hof, hc.isOpen]
      rfl
    · obtain ⟨p, _, hof⟩ := Handle.of_holding hb
      rw [hof, hb.isOpen]
      cases b <;> rfl
  | table =>
    cases h
    refine ⟨rfl, carries_of_not_completing rfl, fun e he => hnext _ e ⟨?_, he⟩⟩
    obtain hs | hc | ⟨⟨b, hb⟩, _⟩ := hr
    · rw [Handle.of_settled hs]
      trivial
    · obtain ⟨p, hp, hof⟩ := Handle.of_creating hc
      simp [hof, hp, Handle.points]
    · obtain ⟨p, hp, hof⟩ := Handle.of_holding hb
      cases b <;> simp [hof, hp, Handle.points]
  | index =>
    cases h
    exact ⟨rfl, carries_of_not_completing rfl, fun e he => hnext _ e he⟩
  | createTable =>
    obtain ⟨y, hy, he⟩ := Option.map_eq_some_iff.mp h
    cases he
    have hcall := called_of_call hy hr
    obtain ⟨d', t'⟩ := y
    cases hcall with
    | reserve => exact ⟨rfl, carries_of_not_completing rfl, fun e he => hnext () e he⟩
    | refuse =>
      refine ⟨rfl, carries_of_not_completing rfl, fun e he => hnext () e (.inl ?_)⟩
      exact he.trans (Handle.of_not_open rfl)
  | alterTable idx | dropTable idx =>
    obtain ⟨y, hy, he⟩ := Option.map_eq_some_iff.mp h
    cases he
    have hcall := called_of_call hy hr
    obtain ⟨d', t'⟩ := y
    cases hcall
    exact ⟨rfl, carries_of_not_completing rfl, fun e he => hnext () e he⟩
  | lookup idx =>
    obtain ⟨y, hy, he⟩ := Option.map_eq_some_iff.mp h
    cases he
    have hcall := called_of_call hy hr
    obtain ⟨d', t'⟩ := y
    cases hcall
    refine ⟨rfl, carries_of_not_completing rfl, fun e he => ?_⟩
    cases he
    exact ⟨⟨by assumption, hready⟩, hnext⟩
  | write t =>
    obtain ⟨⟨d₁, r₁, pc₁⟩, hy, he⟩ := Option.map_eq_some_iff.mp h
    cases he
    obtain ⟨rfl, hpc, hof⟩ := edit_outcome hr hy
    cases hpc
    exact ⟨rfl, carries_of_not_completing rfl, fun e he => hnext () e (he.trans hof)⟩
  | complete =>
    obtain ⟨y, hy, he⟩ := Option.map_eq_some_iff.mp h
    cases he
    obtain ⟨rfl, hcarries, hout⟩ := complete_outcome hr (hready rfl) hy
    exact ⟨rfl, hcarries, fun e he => hnext () e (hout e he)⟩
  | random type min max =>
    simp only [serve] at h
    (repeat' split at h) <;> cases h
    exact ⟨rfl, carries_of_not_completing rfl,
      fun e he => hnext _ e ⟨⟨by assumption, hdraw type min max rfl⟩, he⟩⟩
  | real | executeQuery =>
    simp only [serve] at h
    (repeat' split at h) <;> cases h
    exact ⟨rfl, carries_of_not_completing rfl, fun e he => hnext _ e he⟩

omit [DecidableEq ι] in
/-- The answer of a lookup keeps the action in its session. -/
theorem deliver_kept {a : Option Action} {e : Handle} {p : Execution Unit} (ht : c.Tables d)
    (hk : c.Kept a e p) : c.Kept a e (deliver d pc p) := by
  unfold deliver
  split
  · rename_i q k
    cases q with
    | lookup idx =>
      refine hk.2 _ e ⟨fun t hx => ?_, rfl⟩
      obtain ⟨p, hp, rfl⟩ := Option.map_eq_some_iff.mp hx
      exact ht idx p hp
    | _ => exact hk
  · exact hk

/-- What the contract says of a state. -/
structure Holds (c : Contract) (s : State ι) : Prop where
  tables : c.Tables s.metadata.data
  carries : ∀ i, c.Carries (s.metadata.threads i)
  kept : ∀ i e, c.Outcome (s.metadata.threads i) e →
    c.Kept (s.workers i).action e (s.workers i).program

/-- What the contract asks of a step. -/
structure Allows (c : Contract) (s : State ι) (l : Label ι) : Prop where
  begins : ∀ i a n, l = .begin i a n → c.Kept (some a) .closed (a.execute n)
  counts : ∀ i x use, l = .go i x → (s.workers i).program.head = some (.size use) →
    c.counts use s.metadata.data.tableCount
  draws : ∀ i x type min max, l = .go i x →
    (s.workers i).program.head = some (.random type min max) → c.draws min max

theorem Holds.set {s : State ι} (hc : c.Holds s) {w : Worker} (ht : c.Tables d')
    (hcar : c.Carries t') (hk : ∀ e, c.Outcome t' e → c.Kept w.action e w.program) :
    c.Holds (s.set i d' t' w) := by
  refine ⟨ht, fun j => ?_, fun j => ?_⟩ <;> by_cases hj : j = i
  · simpa [State.set, hj] using hcar
  · simpa [State.set, hj] using hc.carries j
  · simpa [State.set, hj] using hk
  · simpa [State.set, hj] using hc.kept j

private theorem holds_step {s s' : State ι} {l : Label ι} (h : step s l = some s')
    (ho : AllOwned s.metadata) (ha : c.Allows s l) (hc : c.Holds s) : c.Holds s' := by
  cases l with
  | begin i a n =>
    obtain ⟨hpc, hfin, rfl⟩ := step_begin h
    refine hc.set hc.tables (hc.carries i) fun e he => ?_
    have hkept := hc.kept i e he
    have hclosed : e = .closed := by
      cases hp : (s.workers i).program with
      | done => simpa [Kept, hp] using hkept
      | stop x =>
        rw [hp] at hkept hfin
        cases x with
        | thrown => exact hkept rfl
        | undefined | unfinished => cases hfin
      | ask =>
        rw [hp] at hfin
        cases hfin
    exact hclosed ▸ ha.begins i a n rfl
  | go i x =>
    obtain ⟨r, q, k, d', t', ans, hr, hp, hs, rfl⟩ := step_go h
    have hok : Resting s.metadata.data r := by
      have hown := (ho i).ok
      rw [hr] at hown
      exact hown
    have hkept : c.Kept (s.workers i).action (.of r) (.ask q k) := by
      have hk := hc.kept i (.of r) (by rw [hr]; rfl)
      rwa [hp] at hk
    have hhead : (s.workers i).program.head = some q := by rw [hp, head]
    obtain ⟨ht, hcar, hk⟩ := serve_kept hs hok hkept
      (fun use hq => ha.counts i x use rfl (hq ▸ hhead))
      (fun type min max hq => ha.draws i x type min max rfl (hq ▸ hhead))
    refine hc.set (fun j p hj => hc.tables j p ?_) hcar hk
    rw [← ht]
    exact hj
  | tick i =>
    obtain ⟨d', t', ht, rfl⟩ := step_tick h
    have hok := (ho i).ok
    refine hc.set (tick_tables ht hok hc.tables (hc.carries i))
      (tick_carries ht hc.tables (hc.carries i)) fun e he => ?_
    exact deliver_kept hc.tables (hc.kept i e (tick_outcome ht hok hc.tables he))

omit [DecidableEq ι] in
private theorem holds_start {g : GapFree Table} (hg : ∀ p ∈ g.tables, c.stored p.value) :
    c.Holds (State.at g.data : State ι) := by
  refine ⟨fun k p hk => hg p (List.mem_of_getElem? hk), fun i => carries_of_not_completing rfl,
    fun i e he => ?_⟩
  exact he.trans (Handle.of_not_open rfl)

/-- The contract holds in every state of a run whose steps it allows. -/
theorem holds_of_reach {guard : State ι → Label ι → Prop} {g : GapFree Table} {s : State ι}
    (hg : ∀ p ∈ g.tables, c.stored p.value)
    (ha : ∀ s l, Reach step guard (.at g.data) s → guard s l → c.Allows s l)
    (h : Reach step guard (.at g.data) s) : c.Holds s := by
  have hr := h.weaken ha
  exact hr.invariant_with (fun _ hx => allOwned_of_reach hx) (holds_start hg)
    fun _ _ _ ho _ hc hal he => holds_step he ho hal hc

end Contract
end PStress.Actions
