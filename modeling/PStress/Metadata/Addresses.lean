import PStress.Interleaving.Forwarding
import PStress.Metadata.InTurn
import PStress.Metadata.Population

/-! `movedToMap`. Old entries stay in it, but while no CREATE completes a slot is emptied at most
once, so the entries written since a table was seen lead from there to where it is now. -/
namespace PStress.Metadata
open Interleaving
variable {ι V : Type}

/-- The entry of `movedToMap` that a step of a DROP decides on, with its value. -/
def forwards (t : Thread V) (a : Act V) : Option (Nat × Nat) :=
  match a, t.pc with
  | .tick, .dropClear => some (t.res.index, npos)
  | .tick, .moveStore l _ => some (l, t.res.index)
  | _, _ => none

/-- The entry that a DROP has decided on and has yet to write. -/
def Thread.announces (t : Thread V) : Option (Nat × Nat) :=
  match t.pc with
  | .dropCount | .dropReserved | .dropMoved => some (t.res.index, npos)
  | .moveUnlock l | .moveCount l | .moveReserved l | .moveClear l | .moveMoved l =>
    some (l, t.res.index)
  | _ => none

def readdress (x : Option (Nat × Nat)) (m : Nat → Nat) : Nat → Nat :=
  x.elim m fun y => Function.update m y.1 y.2

def addressed (s : State ι V) (l : Label ι V) (m : Nat → Nat) : Nat → Nat :=
  match l with
  | .run i a => readdress (forwards (s.threads i) a) m
  | .move _ _ => m

/-- The entries are those decided on, but for the announced ones. -/
structure Announced (s : State ι V) (m : Nat → Nat) : Prop where
  written : ∀ k, (∀ i v, (s.threads i).announces ≠ some (k, v)) → s.data.movedToMap k = m k
  announced : ∀ i k v, (s.threads i).announces = some (k, v) → m k = v

section Steps
variable {d d' : InternalData ι V} {t t' : Thread V} {a : Act V}

private theorem announces_held {k v : Nat} (ho : PcOk d t.res t.pc)
    (h : t.announces = some (k, v)) :
    k ∈ t.held := by
  obtain ⟨r, pc⟩ := t
  cases pc with
  | dropCount | dropReserved | dropMoved =>
    cases h
    exact ho.1.index_mem _
  | moveUnlock | moveCount | moveReserved | moveClear | moveMoved =>
    cases h
    simp [Thread.held, Pc.held]
  | _ => cases h

private theorem forwards_held {k v : Nat} (ho : PcOk d t.res t.pc)
    (h : forwards t a = some (k, v)) :
    k ∈ t.held := by
  obtain ⟨r, pc⟩ := t
  cases a with
  | tick =>
    cases pc with
    | dropClear =>
      cases h
      exact ho.1.index_mem _
    | moveStore =>
      cases h
      simp [Thread.held, Pc.held]
    | _ => cases h
  | _ => cases h

variable [DecidableEq ι] [Inhabited V] {i : ι}

private theorem act_announces (h : act i a d t = some (d', t')) (ho : PcOk d t.res t.pc) :
    (t.announces = none ∧ t'.announces = forwards t a ∧ d'.movedToMap = d.movedToMap) ∨
    (forwards t a = none ∧ t'.announces = t.announces ∧ d'.movedToMap = d.movedToMap) ∨
    (forwards t a = none ∧ t'.announces = none ∧
      d'.movedToMap = readdress t.announces d.movedToMap) := by
  obtain ⟨r, pc⟩ := t
  obtain ⟨rfl, hs⟩ | ⟨rfl, hc⟩ := act_eq_some h
  · cases pc with
    | dropClear | moveStore =>
      cases hs
      exact .inl ⟨rfl, rfl, rfl⟩
    | dropMoved | moveMoved =>
      cases hs
      exact .inr (.inr ⟨rfl, rfl, rfl⟩)
    | innerUnlock n o =>
      cases hs
      cases o <;> exact .inr (.inl ⟨rfl, rfl, rfl⟩)
    | _ =>
      simp only [tick] at hs
      (repeat' split at hs) <;> cases hs <;> exact .inr (.inl ⟨rfl, rfl, rfl⟩)
  · cases called_of_call hc ho <;> exact .inr (.inl ⟨rfl, rfl, rfl⟩)

section Announcements
variable {s : State ι V} {m : Nat → Nat}

omit [Inhabited V] in
/-- A step that leaves the entries and their announcements alone. -/
theorem Announced.same (hm : Announced s m) (hd : d'.movedToMap = s.data.movedToMap)
    (ht : t'.announces = (s.threads i).announces) :
    Announced ⟨d', Function.update s.threads i t'⟩ m := by
  have hsame (j : ι) : (Function.update s.threads i t' j).announces =
      (s.threads j).announces := by
    by_cases hj : j = i
    · simp [hj, ht]
    · simp [hj]
  refine ⟨fun k hk => ?_, fun j k v hv => hm.announced j k v ((hsame j).symm.trans hv)⟩
  rw [hd]
  exact hm.written k fun j v => by rw [← hsame j]; exact hk j v

omit [Inhabited V] in
/-- An entry that no other handle has announced is decided on. -/
theorem Announced.announce (hm : Announced s m) {k₀ v₀ : Nat}
    (hnone : (s.threads i).announces = none) (ht : t'.announces = some (k₀, v₀))
    (hd : d'.movedToMap = s.data.movedToMap)
    (hfree : ∀ j v, j ≠ i → (s.threads j).announces ≠ some (k₀, v)) :
    Announced ⟨d', Function.update s.threads i t'⟩ (Function.update m k₀ v₀) := by
  refine ⟨fun k hk => ?_, fun j k v hv => ?_⟩
  · have hne : k ≠ k₀ := fun he => hk i v₀ (by simp [ht, he])
    rw [hd, Function.update_of_ne hne]
    refine hm.written k fun j v => ?_
    by_cases hj : j = i
    · simp [hj, hnone]
    · simpa [hj] using hk j v
  · by_cases hj : j = i
    · obtain ⟨rfl, rfl⟩ : k₀ = k ∧ v₀ = v := by simpa [hj, ht] using hv
      simp
    · have hv : (s.threads j).announces = some (k, v) := by simpa [hj] using hv
      have hne : k ≠ k₀ := by
        rintro rfl
        exact hfree j v hj hv
      rw [Function.update_of_ne hne]
      exact hm.announced j k v hv

omit [Inhabited V] in
/-- An announced entry is written. -/
theorem Announced.write (hm : Announced s m) {k₀ v₀ : Nat}
    (hx : (s.threads i).announces = some (k₀, v₀)) (ht : t'.announces = none)
    (hd : d'.movedToMap = Function.update s.data.movedToMap k₀ v₀) :
    Announced ⟨d', Function.update s.threads i t'⟩ m := by
  refine ⟨fun k hk => ?_, fun j k v hv => hm.announced j k v ?_⟩
  · rw [hd]
    by_cases hk₀ : k = k₀
    · subst hk₀
      rw [Function.update_self]
      exact (hm.announced i k v₀ hx).symm
    · rw [Function.update_of_ne hk₀]
      refine hm.written k fun j v => ?_
      by_cases hj : j = i
      · subst hj
        simp [hx, Ne.symm hk₀]
      · simpa [hj] using hk j v
  · by_cases hj : j = i
    · simp [hj, ht] at hv
    · simpa [hj] using hv

end Announcements

private theorem announced_step {s s' : State ι V} {l : Label ι V} {m : Nat → Nat}
    (h : step s l = some s') (ho : AllOwned s) (hm : Announced s m) :
    Announced s' (addressed s l m) := by
  cases l with
  | run i a =>
    obtain ⟨d', t', ha, rfl⟩ := step_run.mp h
    obtain ⟨hnone, ht, hd⟩ | ⟨hf, ht, hd⟩ | ⟨hf, ht, hd⟩ := act_announces ha (ho i).ok
    · cases hx : forwards (s.threads i) a with
      | none =>
        rw [addressed, hx]
        exact hm.same hd (ht.trans (hx.trans hnone.symm))
      | some x =>
        obtain ⟨k₀, v₀⟩ := x
        rw [addressed, hx]
        refine hm.announce hnone (ht.trans hx) hd fun j v hj hv => ?_
        -- two handles do not own one slot
        have hjk := ((ho j).writer k₀).mpr (announces_held (ho j).ok hv)
        have hik := ((ho i).writer k₀).mpr (forwards_held (ho i).ok hx)
        exact hj (Option.some.inj (hjk.symm.trans hik))
    · rw [addressed, hf]
      exact hm.same hd ht
    · rw [addressed, hf]
      cases hx : (s.threads i).announces with
      | none =>
        rw [hx] at hd
        exact hm.same hd (ht.trans hx.symm)
      | some x =>
        obtain ⟨k₀, v₀⟩ := x
        rw [hx] at hd
        exact hm.write hx ht hd
  | move i j =>
    obtain ⟨r, r', hi, hj, hij, _, _, rfl⟩ := step_move h
    have hidle (k : ι) : ((Function.update (Function.update s.threads i ⟨r.movedFrom, .idle⟩) j
        ⟨r, .idle⟩) k).announces = (s.threads k).announces := by
      simp only [Function.update_apply]
      (repeat' split) <;> simp [*, Thread.announces]
    have hmap : (s.data.handOver r.lock j).movedToMap = s.data.movedToMap := by
      cases r.lock <;> rfl
    refine ⟨fun k hk => ?_, fun k l v hv => hm.announced k l v ?_⟩
    · rw [hmap]
      exact hm.written k fun i v => by rw [← hidle i]; exact hk i v
    · rw [← hidle k]
      exact hv

end Steps

def Pc.inCreate : Pc V → Bool
  | .createRead | .createTest _ | .outerLock _ | .outerLoad _ | .outerTest _ | .outerRetry _
  | .innerLock .. | .innerStore .. | .innerCount .. | .innerUnlock .. | .outerUnlock _ => true
  | _ => false

/-- `complete()` is called for ALTERs and DROPs only. -/
def CompletesNoCreate (s : State ι V) : Label ι V → Prop
  | .run i .complete => (s.threads i).res.index ≠ npos
  | _ => True

instance (s : State ι V) : (l : Label ι V) → Decidable (CompletesNoCreate s l)
  | .run i .complete => inferInstanceAs (Decidable ((s.threads i).res.index ≠ npos))
  | .run _ .createTable | .run _ (.alterTable _) | .run _ (.dropTable _) | .run _ (.lookup _)
  | .run _ (.edit _) | .run _ .cancel | .run _ .tick | .move _ _ => inferInstanceAs (Decidable True)

/-- Calls of `complete()` run one at a time, and none of them is for a CREATE. -/
def AltersAndDrops (s : State ι V) (l : Label ι V) : Prop := InTurn s l ∧ CompletesNoCreate s l

instance [Fintype ι] (s : State ι V) (l : Label ι V) : Decidable (AltersAndDrops s l) :=
  inferInstanceAs (Decidable (_ ∧ _))

section Runs
variable [DecidableEq ι] [Inhabited V] {s s' : State ι V} {cs : List (TablePtr V)}
  {m : Nat → Nat} {k x : Nat}

private theorem act_no_create {i : ι} {a : Act V} {d d' : InternalData ι V} {t t' : Thread V}
    (h : act i a d t = some (d', t')) (hc : a = .complete → t.res.index ≠ npos)
    (ht : t.pc.inCreate = false) : t'.pc.inCreate = false := by
  obtain ⟨r, pc⟩ := t
  obtain ⟨rfl, hs⟩ | ⟨rfl, hcall⟩ := act_eq_some h
  · cases pc <;> simp only [tick] at hs <;> (repeat' split at hs) <;> cases hs <;>
      first | rfl | cases ht
  · cases a with
    | complete =>
      simp only [call] at hcall
      split at hcall <;> cases hcall
      simp only [Reservation.branch, if_pos (hc rfl)]
      split <;> rfl
    | _ =>
      simp only [call] at hcall
      (repeat' split at hcall) <;> cases hcall <;> rfl

private theorem no_create_step {l : Label ι V} (h : step s l = some s') (hg : CompletesNoCreate s l)
    (hs : ∀ i, (s.threads i).pc.inCreate = false) (i : ι) :
    (s'.threads i).pc.inCreate = false := by
  refine step_threads (P := fun t => t.pc.inCreate = false) h (fun _ _ => rfl) ?_ hs i
  rintro i a d' t' rfl ha
  refine act_no_create ha (fun hc => ?_) (hs i)
  subst hc
  exact hg

/-- A handle's own step keeps the way to a table it does not take out. -/
private theorem act_forwarded {i : ι} {a : Act V} {d d' : InternalData ι V} {t t' : Thread V}
    (h : act i a d t = some (d', t')) (ho : Owned i d t) (hp : InPlace d cs t)
    (hins : t.pc.inCreate = false) (hx : x ∉ (taken t a).map TablePtr.id)
    (hf : Forwarded cs m (fun p => p.id = x) k) :
    Forwarded (change t a cs) (readdress (forwards t a) m) (fun p => p.id = x) k := by
  have hfacts := hp.facts
  have hok := ho.ok
  obtain ⟨r, pc⟩ := t
  cases a with
  | tick =>
    cases pc with
    | alterStore =>
      obtain ⟨p, q, hp, hq, hid, _⟩ := hp.entry hok.1 hok.2 (by simp [dirty])
      simp only at hp
      have hset := hf.replace hq (y := p) (by rw [hid])
      simpa [change, forwards, readdress, hp] using hset
    | dropClear =>
      obtain ⟨p, q, htable, hq, _, hdrop⟩ := hp.entry hok.1 hok.2 (by simp [dirty])
      have hs := hp.clean r.index (hok.1.index_mem _) (by simp [dirty])
      have hlen : cs.length = r.index + 1 := hs.last hfacts
      simp only at htable
      obtain rfl := hdrop hok.1.2.1
      exact hf.removeLast hlen hq (by simpa [taken, htable, eq_comm] using hx) npos
    | moveStore l p' =>
      obtain ⟨p, q, htable, hq, _, hdrop⟩ := hp.entry hok.1 hok.2.1 (by simp [dirty])
      have hl := hp.clean l (by simp [Thread.held, Pc.held]) (by simp [dirty])
      have hlen : cs.length = l + 1 := hl.last hfacts
      have hlock : r.lock = some r.index := hok.1.2.2.1
      have hne : r.index ≠ l := by simpa [Thread.held, Pc.held, hlock] using ho.nodup
      have hlt : r.index < cs.length := (List.getElem?_eq_some_iff.mp hq).1
      simp only at htable
      obtain rfl := hdrop hok.1.2.1
      exact hf.removeMoved hlen (show r.index < l by omega) hq
        (by simpa [taken, htable, eq_comm] using hx)
    | innerStore => cases hins
    | _ => exact hf
  | _ => exact hf

variable [Fintype ι] {h h' : History V}

/-- What is known of table `x` at a state of the run: it was taken out, or the way from `k` leads
to it. -/
structure Traceable (x k : Nat) (s : State ι V) (h : History V) (m : Nat → Nat) : Prop where
  announced : Announced s m
  noCreate : ∀ i, (s.threads i).pc.inCreate = false
  found : x ∈ h.dropped.map TablePtr.id ∨ Forwarded h.contents m (fun p => p.id = x) k

omit [Fintype ι] in
private theorem traceable_step {l : Label ι V} (he : step s l = some s')
    (hg : CompletesNoCreate s l) (ho : AllOwned s) (hd : Dense s h.contents)
    (ht : Traceable x k s h m) :
    Traceable x k s' (History.record s l h) (addressed s l m) := by
  refine ⟨announced_step he ho ht.announced, no_create_step he hg ht.noCreate, ?_⟩
  cases l with
  | move i j => exact ht.found
  | run i a =>
    obtain ⟨d', t', ha, rfl⟩ := step_run.mp he
    simp only [History.record, List.map_append, List.mem_append]
    obtain hdrop | hf := ht.found
    · exact .inl (.inl hdrop)
    · by_cases hx : x ∈ (taken (s.threads i) a).map TablePtr.id
      · exact .inl (.inr hx)
      · exact .inr (act_forwarded ha (ho i) (hd.inPlace i) (ht.noCreate i) hx hf)

omit [DecidableEq ι] [Inhabited V] [Fintype ι] in
/-- While no handle is in the middle of `complete()`, nothing is announced. -/
private theorem announces_of_not_completing {t : Thread V} (h : t.pc.completing = false) :
    t.announces = none ∧ t.pc.inCreate = false := by
  obtain ⟨r, pc⟩ := t
  cases pc <;> first | exact ⟨rfl, rfl⟩ | cases h

omit [Fintype ι] in
private theorem traceable_of_reach {guard : State ι V → Label ι V → Prop}
    (hg : ∀ s l, guard s l → CompletesNoCreate s l)
    {y₀ y : (State ι V × History V) × (Nat → Nat)}
    (hknown : ∀ z, Reach (recorded step History.record) (fun x l => guard x.1 l) y₀.1 z →
      AllOwned z.1 ∧ Dense z.1 z.2.contents)
    (h₀ : Traceable x k y₀.1.1 y₀.1.2 y₀.2)
    (hr : Reach (recorded (recorded step History.record) fun x l => addressed x.1 l)
      (fun x l => guard x.1.1 l) y₀ y) : Traceable x k y.1.1 y.1.2 y.2 := by
  refine hr.invariant_with (I := fun y => Traceable x k y.1.1 y.1.2 y.2)
    (J := fun y => AllOwned y.1.1 ∧ Dense y.1.1 y.1.2.contents)
    (fun z hz => hknown z.1 hz.forget) h₀ ?_
  rintro ⟨⟨s, h⟩, m⟩ l ⟨⟨s', h'⟩, m'⟩ ⟨ho, hd⟩ _ ht hl he
  obtain ⟨he, rfl⟩ := recorded_eq_some.mp he
  obtain ⟨he, rfl⟩ := recorded_eq_some.mp he
  exact traceable_step he (hg s l hl) ho hd ht

/-- While calls of `complete()` run one at a time and none of them is for a CREATE, the entries of
`movedToMap` lead from a slot where a table was stored to the slot where it is now, unless the table
was dropped. -/
theorem movedToMap_leads_to_table {g : GapFree V} {p : TablePtr V}
    (hr : Reach (recorded step History.record) (fun x l => InTurn x.1 l)
      (g.start, ⟨g.tables, [], []⟩) (s, h))
    (hq : ∀ i, (s.threads i).pc.completing = false) (hk : s.data.tables k = some p)
    (hr' : Reach (recorded step History.record) (fun x l => AltersAndDrops x.1 l) (s, h) (s', h'))
    (hq' : ∀ i, (s'.threads i).pc.completing = false)
    (hp : p.id ∉ h'.dropped.map TablePtr.id) :
    ∃ j, LeadsTo s'.data.tables s'.data.movedToMap (fun q => q.id = p.id) k j ∧
      ∀ j' q, s'.data.tables j' = some q → q.id = p.id → j' = j := by
  have known (y : State ι V × History V)
      (hy : Reach (recorded step History.record) (fun x l => AltersAndDrops x.1 l) (s, h) y) :=
    traced_of_reach (fun _ _ => emptyStable_of_inTurn) (allOwned_start g) (counted_start g)
      (dense_start g) (traced_start g) (hr.trans (hy.weaken fun _ _ _ hl => hl.1))
  obtain ⟨ho, _, hd, _⟩ := known _ .start
  obtain ⟨ho', _, hd', ht'⟩ := known _ hr'
  obtain ⟨m, hm⟩ : ∃ m, Reach (recorded (recorded step History.record) fun x l => addressed x.1 l)
      (fun x l => AltersAndDrops x.1.1 l) ((s, h), s.data.movedToMap) ((s', h'), m) :=
    hr'.remember _
  have hstart : Traceable p.id k s h s.data.movedToMap := by
    have hidle (i : ι) := announces_of_not_completing (hq i)
    refine ⟨⟨fun _ _ => rfl, fun i l v hv => ?_⟩, fun i => (hidle i).2, .inr ?_⟩
    · cases (hidle i).1.symm.trans hv
    · exact .here (((hd.settled ho hq).1 k).symm.trans hk) rfl
  have hfound : Traceable p.id k s' h' m := traceable_of_reach (fun _ _ hl => hl.2)
    (fun y hy => ⟨(known y hy).1, (known y hy).2.2.1⟩) hstart hm
  -- at rest the slots are the list and the entries are those decided on
  obtain ⟨hcells, _⟩ := hd'.settled ho' hq'
  have hmap : s'.data.movedToMap = m := funext fun l => hfound.announced.written l fun i v => by
    simp [(announces_of_not_completing (hq' i)).1]
  obtain ⟨j, hj⟩ := (hfound.found.resolve_left hp).leadsTo
  rw [← hmap, ← funext hcells] at hj
  refine ⟨j, hj, fun j' q hq hid => ?_⟩
  obtain ⟨q', hq', hid'⟩ := hj.arrives
  by_contra hne
  exact entry_ne ht'.nodup_contents ((hcells j').symm.trans hq) ((hcells j).symm.trans hq') hne
    (hid.trans hid'.symm)

def dropFirst (i : ι) : List (Label ι Nat) := calls i (.dropTable 0) 2 ++ calls i .complete 13

/-- The second table is found from the slot it had. -/
theorem movedToMap_leads_to_table_drop : ∃ (s : State (Fin 2) Nat) (h : History Nat),
    execute (recorded step History.record) (fun x l => AltersAndDrops x.1 l) (dropFirst 0)
      (pair.start, ⟨pair.tables, [], []⟩) = some (s, h) ∧
      LeadsTo s.data.tables s.data.movedToMap (fun q => q.id = 1) 1 0 := by
  obtain ⟨⟨s, h⟩, he, hs⟩ := Option.map_eq_some_iff.mp
    (show (execute (recorded step History.record) (fun x l => AltersAndDrops x.1 l)
      (dropFirst (0 : Fin 2)) (pair.start, ⟨pair.tables, [], []⟩)).map (fun x =>
        (decide (∀ i, (x.1.threads i).pc.completing = false), x.2.dropped.map TablePtr.id,
          (x.1.data.tables 0).map TablePtr.id)) = some (true, [0], some 1) by decide +kernel)
  obtain ⟨hq, hdrop, hzero⟩ : decide (∀ i, (s.threads i).pc.completing = false) = true ∧
      h.dropped.map TablePtr.id = [0] ∧ (s.data.tables 0).map TablePtr.id = some 1 := by
    simpa using hs
  obtain ⟨q, hq₀, hid⟩ := Option.map_eq_some_iff.mp hzero
  obtain ⟨j, hj, honly⟩ := movedToMap_leads_to_table (k := 1) (p := ⟨1, 11⟩) (g := pair) .start
    (fun _ => rfl) rfl (reach_of_execute _ he) (of_decide_eq_true hq) (by simp [hdrop])
  exact ⟨s, h, he, honly 0 q hq₀ hid ▸ hj⟩

end Runs
end PStress.Metadata
