import PStress.Metadata.Returns
import PStress.Metadata.Sequences

/-! `createTable`, `alterTable` and `dropTable` with a callback: they make a reservation, hand it to
the callback and report what its index says afterwards, before the reservation is destroyed. -/
namespace PStress.Metadata
open Interleaving
variable {ι V : Type}

/-- How a callback leaves its reservation. -/
inductive Ending where
  | complete
  | cancel
  | leave
  deriving DecidableEq, Repr

/-- A callback: it may give up unless the reservation is open, and it may edit the table. -/
structure Callback (V : Type) where
  checked : Bool
  edit : Option (V → V)
  ending : Ending

namespace Callback

def change (func : Callback V) (p : TablePtr V) : TablePtr V :=
  ⟨p.id, (func.edit.getD id) p.value⟩

/-- The callback is made for a reservation that may have been refused. -/
def Accepts (func : Callback V) (granted : Prop) : Prop :=
  granted ∨ func.checked = true ∨ func.edit = none ∧ func.ending ≠ .complete

end Callback

variable [DecidableEq ι]

/-- An edit through `table()`. A DROP has the stored table itself; a null pointer must not be
dereferenced. -/
def Objects.editTable (s : Objects ι V) (j : ι) (f : V → V) : Option (Objects ι V) :=
  (s.handles j).bind fun r => r.table.map fun p =>
    s.put (if r.drop then s.data.store r.index (some ⟨p.id, f p.value⟩) else s.data) j
      (some (r.edit f))

variable [Inhabited V]

def Ending.run (steps : Nat) (s : Objects ι V) (j : ι) :
    Ending → Option (Except MetadataException Unit × Objects ι V)
  | .complete => operate steps s (.complete j)
  | .cancel => operate steps s (.cancel j)
  | .leave => some (.ok (), s)

def Callback.run (func : Callback V) (steps : Nat) (s : Objects ι V) (j : ι) :
    Option (Except MetadataException Unit × Objects ι V) :=
  if func.checked && !(s.handles j).any Reservation.isOpen then some (.ok (), s)
  else (func.edit.elim (some s) (s.editTable j)).bind fun s' =>
    func.ending.run steps s' j

/-- The body of the templates. The object is destroyed after the result is read, and also when the
callback throws. -/
def Objects.reserving {α : Type} (s : Objects ι V) (steps : Nat) (j : ι) (o : Op ι V)
    (func : Callback V) (result : Reservation V → α) :
    Option (Except MetadataException α × Objects ι V) :=
  (after steps s o).bind fun s₁ => (func.run steps s₁ j).bind fun x =>
    (x.2.handles j).bind fun r =>
      (after steps x.2 (.destroy j)).map fun s' => (x.1.map fun _ => result r, s')

def Objects.createTable (s : Objects ι V) (steps : Nat) (j : ι) (func : Callback V) :
    Option (Except MetadataException Nat × Objects ι V) :=
  s.reserving steps j (.createTable j) func fun res => res.index

def Objects.alterTable (s : Objects ι V) (steps : Nat) (j : ι) (idx : Nat) (func : Callback V) :
    Option (Except MetadataException Bool × Objects ι V) :=
  s.reserving steps j (.alterTable j idx) func fun res => res.index != npos

def Objects.dropTable (s : Objects ι V) (steps : Nat) (j : ι) (idx : Nat) (func : Callback V) :
    Option (Except MetadataException Bool × Objects ι V) :=
  s.reserving steps j (.dropTable j idx) func fun res => res.index != npos

def InternalData.Lists (d : InternalData ι V) (cs : List (TablePtr V)) : Prop :=
  (∀ k, d.tables k = cs[k]?) ∧ d.tableCount = cs.length

section Stages
variable {steps : Nat} {s s' : Objects ι V} {cs : List (TablePtr V)} {i j : ι}
  {r r' : Reservation V} {p : TablePtr V} {func : Callback V}

omit [DecidableEq ι] [Inhabited V] in
private theorem Reservation.edit_id (r : Reservation V) : r.edit id = r := by
  simp only [edit, id]
  cases r with
  | mk _ table _ _ _ => cases table <;> rfl

omit [DecidableEq ι] [Inhabited V] in
theorem Fit.edit (h : Fit cs r) (f : V → V) : Fit cs (r.edit f) := by
  simpa [Fit, Reservation.Settled, Reservation.Creating, Reservation.Holding] using h

/-- The tables after an edit through a reservation. -/
def Reservation.editStored (r : Reservation V) (change : TablePtr V → TablePtr V)
    (cs : List (TablePtr V)) : List (TablePtr V) :=
  if r.drop then cs.modify r.index change else cs

omit [Inhabited V] in
private theorem Orderly.editTable [Fintype ι] (h : Orderly s cs) (hi : s.handles i = some r)
    (hp : r.table = some p) (hstored : r.drop = true → cs[r.index]? = some p) {f : V → V}
    (he : s.editTable i f = some s') :
    s'.handles i = some (r.edit f) ∧
      Orderly s' (r.editStored (fun p => ⟨p.id, f p.value⟩) cs) := by
  simp only [Objects.editTable, hi, hp, Option.bind_some, Option.map_some, Option.some.injEq] at he
  subst he
  refine ⟨by simp [Objects.put], ?_⟩
  have hplaces : placesOf (some (r.edit f)) = placesOf (s.handles i) := by
    simp [hi, placesOf, Thread.creates]
  have hlen : (r.editStored (fun p => ⟨p.id, f p.value⟩) cs).length = cs.length := by
    simp only [Reservation.editStored]
    split <;> simp
  refine h.put (fun k => ?_) ?_ (fun k => ?_) (fun k j _ => ?_) (fun k => ?_) (fun r' hr' => ?_)
    (fun j r' _ hr' => ?_) ?_ ?_
  · simp only [Reservation.editStored]
    split
    · rename_i hd
      by_cases hk : k = r.index
      · simp [hk, hstored hd]
      · simp [hk, h.cell, Ne.symm hk]
    · exact h.cell k
  · rw [hlen, ← h.count]
    split <;> rfl
  · have hw := h.writer k i
    split <;> simpa [hi] using hw
  · split <;> rfl
  · split <;> exact h.readers k
  · cases hr'
    exact ((h.fit i r hi).edit f).mono fun _ _ hlt => hlen.symm ▸ hlt
  · exact (h.fit j r' hr').mono fun _ _ hlt => hlen.symm ▸ hlt
  · rw [hlen, hplaces]
    split <;> rfl
  · have hroom := h.room
    split <;> exact hroom

private theorem Orderly.completed_index [Fintype ι] (h : Orderly s cs) (hi : s.handles i = some r)
    (hopen : r.isOpen = true) {y : InternalData ι V × Reservation V}
    (hy : Settles i s.data ⟨r, r.branch⟩ y) :
    y.2.index = if r.index = npos then cs.length else r.index := by
  obtain hs | hc | ⟨b, hb, hlt⟩ := h.fit i r hi
  · simp [hs.not_open] at hopen
  · rw [hc.branch] at hy
    obtain ⟨_, _, _, hroom, _⟩ := h.appends hi hc
    rw [if_pos hc.2.2.1]
    cases hlen : cs.length with
    | zero =>
      obtain ⟨_, rfl⟩ := (createFirst_settles (h.count.trans hlen)).mp hy
      rfl
    | succ n =>
      have hsome : (s.data.tables n).isSome = true := by simp [h.cell, hlen]
      obtain ⟨_, _, rfl⟩ := (createNext_settles (h.count.trans hlen) (by omega) hsome).mp hy
      rfl
  · rw [hb.branch] at hy
    rw [if_neg hb.index_ne]
    cases b with
    | false =>
      obtain rfl := alter_settles.mp hy
      rfl
    | true =>
      obtain ⟨l, hl⟩ : ∃ l, cs.length = l + 1 := Nat.exists_eq_add_one.mpr (Nat.zero_lt_of_lt hlt)
      have hroom := h.room
      have hres := h.reserved
      by_cases hlast : r.index = l
      · obtain rfl := (dropLast_settles ((h.count.trans hl).trans (by rw [hlast]))).mp hy
        rfl
      · have hsome : (s.data.tables l).isSome = true := by simp [h.cell, hl]
        obtain ⟨_, rfl⟩ := (dropMoved_settles (h.count.trans hl) hlast (by omega) hsome).mp hy
        rfl

def Ending.index (r : Reservation V) (count : Nat) : Ending → Nat
  | .complete => if r.index = npos then count else r.index
  | .cancel => npos
  | .leave => r.index

private theorem destroyed {d : InternalData ι V} (hr : r.Settled)
    (h : after steps (s.put d i (some r)) (.destroy i) = some s') : s' = s.put d i none := by
  simp only [after, operate, Objects.put, Function.update_self, Option.bind_some, hr.not_open,
    Bool.false_eq_true, if_false, Option.map_some, Option.some.injEq, hr.1,
    InternalData.release, Function.update_idem] at h
  exact h.symm

/-- A callback that leaves an open reservation leaves the change to the destructor. -/
theorem Orderly.ended [Fintype ι] (h : Orderly s cs) (hi : s.handles i = some r)
    (hopen : r.isOpen = true) {e : Ending} {x : Except MetadataException Unit}
    {s₁ : Objects ι V} (hrun : e.run steps s i = some (x, s₁)) (hr : s₁.handles i = some r')
    (hd : after steps s₁ (.destroy i) = some s') :
    x = .ok () ∧ r'.index = e.index r cs.length ∧
      Orderly s' (if e = .cancel then cs else r.effect cs) := by
  cases e with
  | complete =>
    simp only [Ending.run, operate, hi, Option.bind_some, Reservation.check_open hopen] at hrun
    obtain ⟨y, hy, he⟩ := Option.map_eq_some_iff.mp hrun
    cases he
    obtain rfl : y.2 = r' := by simpa [Objects.put] using hr
    obtain ⟨_, hs⟩ := invoke_complete hy
    obtain ⟨hsettled, ho⟩ := h.completed hi hopen hs
    exact ⟨rfl, h.completed_index hi hopen hs, destroyed hsettled hd ▸ ho none inert_none⟩
  | cancel =>
    simp only [Ending.run, operate, hi, Option.map_some, Option.some.injEq] at hrun
    cases hrun
    obtain rfl : r.cancelled = r' := by simpa [Objects.put, cancel] using hr
    exact ⟨rfl, rfl, destroyed (Reservation.settled_cancelled r) hd ▸ h.cancelled hi inert_none⟩
  | leave =>
    cases hrun
    cases hi.symm.trans hr
    simp only [after, operate, hi, Option.bind_some, hopen, if_true] at hd
    obtain ⟨⟨_, _⟩, hop, rfl⟩ := Option.map_eq_some_iff.mp hd
    obtain ⟨y, hy, he⟩ := Option.map_eq_some_iff.mp hop
    cases he
    obtain ⟨_, hs⟩ := invoke_complete hy
    obtain ⟨hsettled, ho⟩ := h.completed hi hopen hs
    exact ⟨rfl, rfl, by simpa [hsettled.1, InternalData.release] using ho none inert_none⟩

private theorem Orderly.run_granted [Fintype ι] (h : Orderly s cs) (hi : s.handles i = some r)
    (hopen : r.isOpen = true) (hp : r.table = some p)
    (hstored : r.drop = true → cs[r.index]? = some p) {x : Except MetadataException Unit}
    {s₁ : Objects ι V} (hrun : func.run steps s i = some (x, s₁)) (hr : s₁.handles i = some r')
    (hd : after steps s₁ (.destroy i) = some s') :
    x = .ok () ∧ r'.index = func.ending.index r cs.length ∧
      Orderly s' (if func.ending = .cancel then r.editStored func.change cs
        else (r.edit (func.edit.getD id)).effect (r.editStored func.change cs)) := by
  simp only [Callback.run, hi, Option.any_some, hopen, Bool.not_true, Bool.and_false,
    Bool.false_eq_true, if_false] at hrun
  obtain ⟨s₂, he, hend⟩ := Option.bind_eq_some_iff.mp hrun
  obtain ⟨hi₂, ho₂⟩ : s₂.handles i = some (r.edit (func.edit.getD id)) ∧
      Orderly s₂ (r.editStored func.change cs) := by
    cases hf : func.edit with
    | none =>
      rw [hf] at he
      cases he
      have hsame : func.change = id := by
        funext p
        simp [Callback.change, hf]
      refine ⟨by simpa [Reservation.edit_id] using hi, ?_⟩
      simpa [Reservation.editStored, hsame] using h
    | some f =>
      rw [hf] at he
      have hsame : func.change = fun p => ⟨p.id, f p.value⟩ := by
        funext p
        simp [Callback.change, hf]
      simpa [hsame] using h.editTable hi hp hstored he
  obtain ⟨hx, hindex, ho⟩ := ho₂.ended hi₂ hopen hend hr hd
  refine ⟨hx, ?_, ho⟩
  have hlen : (r.editStored func.change cs).length = cs.length := by
    simp only [Reservation.editStored]
    split <;> simp
  rw [hindex, hlen]
  cases func.ending <;> rfl

private theorem run_refused (hi : s.handles i = some .closed) {x : Except MetadataException Unit}
    {s₁ : Objects ι V} (hrun : func.run steps s i = some (x, s₁)) (hr : s₁.handles i = some r')
    (hd : after steps s₁ (.destroy i) = some s') :
    r'.index = npos ∧ s' = s.put s.data i none := by
  have hsame : s.put s.data i (some .closed) = s := by
    simp only [Objects.put, ← hi, Function.update_eq_self]
  have hclosed : s₁ = s := by
    simp only [Callback.run] at hrun
    split at hrun
    · cases hrun
      rfl
    · obtain ⟨s₂, he, hend⟩ := Option.bind_eq_some_iff.mp hrun
      cases hf : func.edit with
      | some f => simp [hf, Objects.editTable, hi, Reservation.closed] at he
      | none =>
        rw [hf] at he
        cases he
        obtain ⟨⟨e, hcomplete⟩, hcancel⟩ := operate_not_open steps hi
          Reservation.settled_closed
        cases hending : func.ending with
        | complete =>
          rw [hending] at hend
          cases hcomplete.symm.trans hend
          rfl
        | cancel =>
          rw [hending] at hend
          cases hcancel.symm.trans hend
          exact hsame
        | leave =>
          rw [hending] at hend
          cases hend
          rfl
  subst hclosed
  cases hi.symm.trans hr
  exact ⟨rfl, destroyed Reservation.settled_closed (hsame.symm ▸ hd)⟩

/-- What `createTable()` hands to the callback. -/
theorem Orderly.createTable [Fintype ι] (h : Orderly s cs)
    (ho : after steps s (.createTable j) = some s') :
    Orderly s' cs ∧ s'.handles j = some (if s.data.reservedSize < maximumTableCount then
      ⟨true, some ⟨s.data.nextTable, default⟩, false, npos, none⟩ else .closed) := by
  obtain ⟨⟨_, _⟩, hop, rfl⟩ := Option.map_eq_some_iff.mp ho
  obtain ⟨s₂, hm, he⟩ := Option.map_eq_some_iff.mp hop
  cases he
  obtain ⟨hj, y, hy, rfl⟩ := Objects.make_eq_some hm
  have hinert : Inert (s.handles j) := hj ▸ inert_none
  obtain ⟨hroom, rfl⟩ | ⟨hroom, rfl⟩ := invoke_createTable hy
  · exact ⟨h.granted hinert hroom ⟨rfl, rfl, rfl, rfl, rfl⟩, by simp [Objects.put, hroom]⟩
  · refine ⟨h.exchange hinert (inert_some Reservation.settled_closed), ?_⟩
    simp [Objects.put, Nat.not_lt.mpr hroom]

def reserveSlot (drop : Bool) (j : ι) (idx : Nat) : Op ι V :=
  if drop then .dropTable j idx else .alterTable j idx

private theorem after_reserveSlot {drop : Bool} {idx : Nat} :
    after steps s (reserveSlot drop j idx) = some s' ↔ s.handles j = none ∧
      idx < maximumTableCount ∧ ∃ y, settle j steps s.data ⟨.closed, .acquire drop idx⟩ = some y ∧
        s' = s.put y.1 j (some y.2) := by
  have hopen : (Reservation.closed : Reservation V).isOpen = false :=
    Reservation.settled_closed.not_open
  by_cases hj : s.handles j = none
  · by_cases hidx : idx < maximumTableCount
    · cases drop <;> simp [reserveSlot, after, operate, Objects.make, invoke, call, hj, hidx,
        Nat.not_le.mpr hidx, hopen, eq_comm]
    · cases drop <;> simp [reserveSlot, after, operate, Objects.make, invoke, call, hj, hidx,
        Nat.not_lt.mp hidx]
  · cases drop <;> simp [reserveSlot, after, operate, Objects.make, hj]

private theorem Orderly.reserveSlot [Fintype ι] (h : Orderly s cs) {drop : Bool} {idx : Nat}
    (ho : after steps s (reserveSlot drop j idx) = some s') :
    Orderly s' cs ∧ s'.handles j = some (cs[idx]?.elim .closed fun p =>
      ⟨true, some p, drop, idx, some idx⟩) := by
  obtain ⟨hj, hidx, y, hy, rfl⟩ := after_reserveSlot.mp ho
  have hinert : Inert (s.handles j) := hj ▸ inert_none
  obtain ⟨hfree, ⟨p, hp, rfl⟩ | ⟨hp, rfl⟩⟩ := acquired ⟨steps, hy⟩
  · rw [h.cell] at hp
    have hheld : Reservation.Holding drop (⟨true, some p, drop, idx, some idx⟩ : Reservation V) :=
      ⟨rfl, rfl, rfl, hidx, rfl⟩
    refine ⟨h.reserved_slot hinert (SharedMutex.free_iff.mp hfree).1 hheld
      (List.getElem?_eq_some_iff.mp hp).1, ?_⟩
    simp [Objects.put, hp]
  · rw [h.cell] at hp
    refine ⟨h.exchange hinert (inert_some Reservation.settled_closed), ?_⟩
    simp [Objects.put, hp]

omit [DecidableEq ι] [Inhabited V] in
theorem Orderly.lists [Fintype ι] (h : Orderly s cs) : s.data.Lists cs := ⟨h.cell, h.count⟩

private theorem reserving_returned {α : Type} {o : Op ι V} {result : Reservation V → α} {x : α}
    (h : s.reserving steps j o func result = some (.ok x, s')) :
    ∃ s₁ s₂ r, after steps s o = some s₁ ∧ func.run steps s₁ j = some (.ok (), s₂) ∧
      s₂.handles j = some r ∧ after steps s₂ (.destroy j) = some s' ∧ x = result r := by
  obtain ⟨s₁, ho, h⟩ := Option.bind_eq_some_iff.mp h
  obtain ⟨⟨e, s₂⟩, hrun, h⟩ := Option.bind_eq_some_iff.mp h
  obtain ⟨r, hr, h⟩ := Option.bind_eq_some_iff.mp h
  obtain ⟨s₃, hd, h⟩ := Option.map_eq_some_iff.mp h
  cases e <;> cases h
  exact ⟨s₁, s₂, r, ho, hrun, hr, hd, rfl⟩

end Stages

section Reports
variable {steps : Nat} {s s' : Objects ι V} {cs : List (TablePtr V)} {j : ι} {func : Callback V}
  {r : Reservation V} {p : TablePtr V}

/-- `createTable(func)` returned the slot of the new table, or `npos` as none was stored. -/
def CreateReported (d d' : InternalData ι V) (cs : List (TablePtr V)) (func : Callback V)
    (index : Nat) : Prop :=
  if index = npos then d'.Lists cs
  else index = cs.length ∧ d'.Lists (cs ++ [func.change ⟨d.nextTable, default⟩])

/-- `alterTable(idx, func)` returned whether the edited table is stored. -/
def AlterReported (d' : InternalData ι V) (cs : List (TablePtr V)) (func : Callback V) (idx : Nat)
    (applied : Bool) : Prop :=
  if applied then idx < cs.length ∧ d'.Lists (cs.modify idx func.change) else d'.Lists cs

/-- `dropTable(idx, func)` returned whether the table is gone. An edit of the callback is made in
place. -/
def DropReported (d' : InternalData ι V) (cs : List (TablePtr V)) (func : Callback V) (idx : Nat)
    (applied : Bool) : Prop :=
  if applied then idx < cs.length ∧ d'.Lists (swapRemove cs idx)
  else d'.Lists (cs.modify idx func.change)

omit [DecidableEq ι] [Inhabited V] in
theorem InternalData.Lists.length_eq {d : InternalData ι V} {cs cs' : List (TablePtr V)}
    (h : d.Lists cs) (h' : d.Lists cs') : cs.length = cs'.length := h.2.symm.trans h'.2

/-- `createTable(func)` reports what happened unless the callback leaves a reservation open that
was granted: the destructor then stores the table after the index was read. -/
private theorem createTable_reported [Fintype ι] (h : Orderly s cs) {index : Nat}
    (hcall : s.createTable steps j func = some (.ok index, s')) :
    CreateReported s.data s'.data cs func index ↔
      (func.ending = .leave → s.data.reservedSize = maximumTableCount) := by
  obtain ⟨s₁, s₂, r, ho, hrun, hr, hd, rfl⟩ := reserving_returned hcall
  obtain ⟨ho₁, hj⟩ := h.createTable ho
  by_cases hroom : s.data.reservedSize < maximumTableCount
  · rw [if_pos hroom] at hj
    obtain ⟨_, hindex, ho'⟩ := ho₁.run_granted hj rfl rfl nofun hrun hr hd
    have hlt : cs.length ≠ npos := by
      have hres := h.reserved
      have hnpos := maximumTableCount_lt_npos
      omega
    have hne : s.data.reservedSize ≠ maximumTableCount := hroom.ne
    have hlonger (p : TablePtr V) : (cs ++ [p]).length ≠ cs.length := by simp
    have hlists : if func.ending = .cancel then s'.data.Lists cs
        else s'.data.Lists (cs ++ [func.change ⟨s.data.nextTable, default⟩]) := by
      have hall := ho'.lists
      split at hall
      · rwa [if_pos (by assumption)]
      · rwa [if_neg (by assumption)]
    cases hending : func.ending with
    | complete =>
      rw [hending] at hindex hlists
      have hcount : r.index = cs.length := hindex
      simpa [CreateReported, hcount, hlt] using hlists
    | cancel =>
      rw [hending] at hindex hlists
      simpa [CreateReported, show r.index = npos from hindex] using hlists
    | leave =>
      rw [hending] at hindex hlists
      have hstored : ¬ s'.data.Lists cs := fun hcs => by simpa using hlists.length_eq hcs
      simpa [CreateReported, show r.index = npos from hindex, hne] using hstored
  · rw [if_neg hroom] at hj
    obtain ⟨hindex, rfl⟩ := run_refused hj hrun hr hd
    have hfull : s.data.reservedSize = maximumTableCount :=
      Nat.le_antisymm h.room (Nat.le_of_not_lt hroom)
    simpa [CreateReported, hindex, hfull, Objects.put] using ho₁.lists

private theorem slot_reported [Fintype ι] (h : Orderly s cs) (drop : Bool) {idx : Nat}
    {applied : Bool}
    (hcall : s.reserving steps j (reserveSlot drop j idx) func (fun res => res.index != npos) =
      some (.ok applied, s')) :
    (idx < cs.length ∧ applied = decide (func.ending ≠ .cancel) ∧
      s'.data.Lists (if func.ending = .cancel then if drop then cs.modify idx func.change else cs
        else if drop then swapRemove cs idx else cs.modify idx func.change)) ∨
      (cs.length ≤ idx ∧ applied = false ∧ s'.data.Lists cs) := by
  obtain ⟨s₁, s₂, r, ho, hrun, hr, hd, rfl⟩ := reserving_returned hcall
  obtain ⟨ho₁, hj⟩ := h.reserveSlot ho
  obtain hlt | hge := Nat.lt_or_ge idx cs.length
  · refine .inl ⟨hlt, ?_⟩
    rw [List.getElem?_eq_getElem hlt, Option.elim_some] at hj
    obtain ⟨_, hindex, ho'⟩ := ho₁.run_granted hj rfl rfl
      (fun _ => List.getElem?_eq_getElem hlt) hrun hr hd
    have hidx : idx ≠ npos := by
      have hres := h.reserved
      have hroom := h.room
      have hnpos := maximumTableCount_lt_npos
      omega
    refine ⟨?_, ?_⟩
    · rw [hindex]
      cases func.ending <;> simp [Ending.index, hidx]
    · have hall := ho'.lists
      cases drop with
      | false =>
        have hset : cs.set idx (func.change cs[idx]) = cs.modify idx func.change := by
          rw [List.modify_eq_set_getElem?]
          simp [hlt]
        rw [← hset]
        simpa [Reservation.editStored, Reservation.effect, hidx, Callback.change] using hall
      | true =>
        simpa [Reservation.editStored, Reservation.effect, hidx, swapRemove_modify] using hall
  · rw [List.getElem?_eq_none hge, Option.elim_none] at hj
    obtain ⟨hindex, rfl⟩ := run_refused hj hrun hr hd
    exact .inr ⟨hge, by simp [hindex], ho₁.lists⟩

private theorem alterTable_reported [Fintype ι] (h : Orderly s cs) {idx : Nat} {applied : Bool}
    (hcall : s.alterTable steps j idx func = some (.ok applied, s')) :
    AlterReported s'.data cs func idx applied := by
  obtain ⟨hlt, rfl, hlists⟩ | ⟨_, rfl, hlists⟩ := slot_reported h false hcall
  · by_cases hc : func.ending = .cancel
    · simpa [AlterReported, hc] using hlists
    · simpa [AlterReported, hc, hlt] using hlists
  · simpa [AlterReported] using hlists

private theorem dropTable_reported [Fintype ι] (h : Orderly s cs) {idx : Nat} {applied : Bool}
    (hcall : s.dropTable steps j idx func = some (.ok applied, s')) :
    DropReported s'.data cs func idx applied := by
  obtain ⟨hlt, rfl, hlists⟩ | ⟨hge, rfl, hlists⟩ := slot_reported h true hcall
  · by_cases hc : func.ending = .cancel
    · simpa [DropReported, hc] using hlists
    · simpa [DropReported, hc, hlt] using hlists
  · simpa [DropReported, List.modify_eq_self hge] using hlists

/-- Every mutex but the one a reservation owns is free. -/
def Objects.FreeBut (s : Objects ι V) (r : Reservation V) : Prop :=
  ∀ k, k ∉ r.lock.toList → (s.data.tableLocks k).free = true

private theorem Orderly.complete_settles [Fintype ι] (h : Orderly s cs) (hi : s.handles j = some r)
    (hopen : r.isOpen = true) (hfree : s.FreeBut r) :
    ∃ n, ∀ m ≥ n, ∃ y, invoke j m .complete s.data r = some y ∧ y.2.Settled := by
  have hsome : ∃ y, Settles j s.data ⟨r, r.branch⟩ y := by
    obtain hs | hc | ⟨b, hb, hlt⟩ := h.fit j r hi
    · simp [hs.not_open] at hopen
    · obtain ⟨_, _, _, hroom, _⟩ := h.appends hi hc
      rw [hc.branch]
      exact create_returns h.cell h.count hroom fun k => hfree k (by simp [hc.2.2.2.1])
    · rw [hb.branch]
      cases b with
      | false => exact alter_returns
      | true =>
        have hroom := h.room
        have hres := h.reserved
        refine drop_returns h.cell h.count hlt (by omega) fun k hk => hfree k ?_
        simp [hb.2.2.1, hk]
  obtain ⟨y, n, hn⟩ := hsome
  refine ⟨n, fun m hm => ⟨y, ?_, (h.completed hi hopen ⟨n, hn⟩).1⟩⟩
  simpa [invoke, call, hopen] using settle_mono hn hm

private theorem Orderly.ended_returns [Fintype ι] (h : Orderly s cs) (hi : s.handles j = some r)
    (hopen : r.isOpen = true) (hfree : s.FreeBut r) (e : Ending) :
    ∃ n, ∀ m ≥ n, ∃ s₁ r₁ s', e.run m s j = some (.ok (), s₁) ∧ s₁.handles j = some r₁ ∧
      after m s₁ (.destroy j) = some s' := by
  obtain ⟨n, hn⟩ := h.complete_settles hi hopen hfree
  refine ⟨n, fun m hm => ?_⟩
  obtain ⟨y, hy, hsettled⟩ := hn m hm
  cases e with
  | complete =>
    refine ⟨s.put y.1 j (some y.2), y.2, s.put y.1 j none, ?_, by simp [Objects.put], ?_⟩
    · simp [Ending.run, operate, hi, Reservation.check_open hopen, hy]
    · simp [after, operate, Objects.put, hsettled.not_open, hsettled.1, InternalData.release]
  | cancel =>
    have hcancelled : r.cancelled.isOpen = false := (Reservation.settled_cancelled r).not_open
    refine ⟨s.put (cancel s.data r).1 j (some r.cancelled), r.cancelled,
      s.put (cancel s.data r).1 j none, ?_, by simp [Objects.put], ?_⟩
    · simp [Ending.run, operate, hi, cancel]
    · simp [after, operate, Objects.put, hcancelled, InternalData.release,
        show r.cancelled.lock = none from rfl]
  | leave =>
    refine ⟨s, r, s.put (y.1.release y.2.lock) j none, rfl, hi, ?_⟩
    simp [after, operate, hi, hopen, hy]

private theorem Orderly.granted_returns [Fintype ι] {α : Type} {o : Op ι V}
    {result : Reservation V → α}
    {s₁ : Objects ι V} {n : Nat} (hop : ∀ m ≥ n, after m s o = some s₁) (h : Orderly s₁ cs)
    (hi : s₁.handles j = some r) (hopen : r.isOpen = true) (hp : r.table = some p)
    (hstored : r.drop = true → cs[r.index]? = some p) (hfree : s₁.FreeBut r) :
    ∃ n, ∀ m ≥ n, ∃ x s', s.reserving m j o func result = some (.ok x, s') := by
  obtain ⟨s₂, r₂, cs₂, hedit, ho₂, hi₂, hopen₂, hfree₂⟩ : ∃ s₂ r₂ cs₂,
      func.edit.elim (some s₁) (s₁.editTable j) = some s₂ ∧ Orderly s₂ cs₂ ∧
        s₂.handles j = some r₂ ∧ r₂.isOpen = true ∧ s₂.FreeBut r₂ := by
    cases func.edit with
    | none => exact ⟨s₁, r, cs, rfl, h, hi, hopen, hfree⟩
    | some f =>
      obtain ⟨s₂, he⟩ : ∃ s₂, s₁.editTable j f = some s₂ := by simp [Objects.editTable, hi, hp]
      obtain ⟨hi₂, ho₂⟩ := h.editTable hi hp hstored he
      refine ⟨s₂, _, _, he, ho₂, hi₂, hopen, fun k hk => ?_⟩
      simp only [Objects.editTable, hi, hp, Option.bind_some, Option.map_some,
        Option.some.injEq] at he
      subst he
      simp only [Objects.put]
      split <;> exact hfree k hk
  obtain ⟨n', hn'⟩ := ho₂.ended_returns hi₂ hopen₂ hfree₂ func.ending
  refine ⟨max n n', fun m hm => ?_⟩
  obtain ⟨s₃, r₃, s', hend, hi₃, hd⟩ := hn' m (le_of_max_le_right hm)
  refine ⟨result r₃, s', ?_⟩
  simp [Objects.reserving, hop m (le_of_max_le_left hm), Callback.run, hi, hopen, hedit, hend, hi₃,
    hd, Except.map]

private theorem refused_returns {α : Type} {o : Op ι V} {result : Reservation V → α}
    {s₁ : Objects ι V} {n : Nat} (hop : ∀ m ≥ n, after m s o = some s₁)
    (hi : s₁.handles j = some .closed) (hf : func.Accepts False) :
    ∃ n, ∀ m ≥ n, ∃ x s', s.reserving m j o func result = some (.ok x, s') := by
  have hclosed : (Reservation.closed : Reservation V).isOpen = false :=
    Reservation.settled_closed.not_open
  have hsame : s₁.put s₁.data j (some .closed) = s₁ := by
    simp only [Objects.put, ← hi, Function.update_eq_self]
  refine ⟨n, fun m hm => ?_⟩
  have hrun : func.run m s₁ j = some (.ok (), s₁) := by
    obtain hf | hc | ⟨he, hne⟩ := hf
    · cases hf
    · simp [Callback.run, hi, hc, hclosed]
    · cases hending : func.ending with
      | complete => exact absurd hending hne
      | cancel =>
        obtain ⟨_, hcancel⟩ := operate_not_open m hi Reservation.settled_closed
        simp only [Callback.run, he, hending, Ending.run, Option.elim_none, Option.bind_some,
          hcancel, show (Reservation.closed : Reservation V).cancelled = .closed from rfl, hsame,
          ite_self]
      | leave => simp [Callback.run, he, hending, Ending.run]
  have hd : after m s₁ (.destroy j) = some (s₁.put s₁.data j none) := by
    simp [after, operate, hi, hclosed, InternalData.release,
      show (Reservation.closed : Reservation V).lock = none from rfl]
  refine ⟨result .closed, s₁.put s₁.data j none, ?_⟩
  simp only [Objects.reserving, hop m hm, Option.bind_some, hrun, hi, hd, Option.map_some,
    Except.map]

private theorem Orderly.createTable_returns [Fintype ι] (h : Orderly s cs) (hj : s.handles j = none)
    (hfree : ∀ k, (s.data.tableLocks k).free = true)
    (hf : func.Accepts (s.data.reservedSize < maximumTableCount)) :
    ∃ n, ∀ m ≥ n, ∃ index s', s.createTable m j func = some (.ok index, s') := by
  by_cases hroom : s.data.reservedSize < maximumTableCount
  · obtain ⟨n, hn⟩ := (reserve_settles (i := j) (r := .closed) hroom).mpr rfl
    have hopen : (Reservation.closed : Reservation V).isOpen = false :=
      Reservation.settled_closed.not_open
    have hop : ∀ m ≥ n, after m s (.createTable j) = some (s.put (s.data.grant
        (s.data.reservedSize + 1)) j (some ⟨true, some ⟨s.data.nextTable, default⟩, false, npos,
          none⟩)) := by
      intro m hm
      simp [after, operate, Objects.make, hj, invoke, call, hopen, hroom, settle_mono hn hm]
    obtain ⟨ho₁, hi⟩ := h.createTable (hop n (Nat.le_refl n))
    rw [if_pos hroom] at hi
    exact ho₁.granted_returns hop hi rfl rfl (fun hc => absurd hc Bool.false_ne_true)
      fun k _ => hfree k
  · have hop : ∀ m ≥ 0, after m s (.createTable j) = some (s.put s.data j (some .closed)) := by
      intro m _
      simp [after, operate, Objects.make, hj, invoke, call, Reservation.settled_closed.not_open,
        hroom]
    exact refused_returns hop (by simp [Objects.put]) (hf.imp_left hroom)

private theorem Orderly.reserveSlot_returns [Fintype ι] (h : Orderly s cs) (hj : s.handles j = none)
    (hfree : ∀ k, (s.data.tableLocks k).free = true) (drop : Bool) {idx : Nat}
    (hidx : idx < maximumTableCount) (hf : func.Accepts (idx < cs.length)) {α : Type}
    (result : Reservation V → α) :
    ∃ n, ∀ m ≥ n, ∃ x s', s.reserving m j (Metadata.reserveSlot drop j idx) func result =
      some (.ok x, s') := by
  obtain hlt | hge := Nat.lt_or_ge idx cs.length
  · have hp : s.data.tables idx = some cs[idx] := by rw [h.cell, List.getElem?_eq_getElem hlt]
    obtain ⟨n, hn⟩ := (acquire_settles (i := j) (r := .closed) (b := drop) hp).mpr
      ⟨hfree idx, rfl⟩
    have hop : ∀ m ≥ n, after m s (Metadata.reserveSlot drop j idx) = some (s.put
        (s.data.lock idx j) j (some ⟨true, some cs[idx], drop, idx, some idx⟩)) := by
      intro m hm
      exact after_reserveSlot.mpr ⟨hj, hidx, _, settle_mono hn hm, rfl⟩
    obtain ⟨ho₁, _⟩ := h.reserveSlot (hop n (Nat.le_refl n))
    refine ho₁.granted_returns hop (by simp [Objects.put]; rfl) rfl rfl
      (fun _ => List.getElem?_eq_getElem hlt) fun k hk => ?_
    have hne : k ≠ idx := by simpa [eq_comm] using hk
    simpa [Objects.put, hne] using hfree k
  · have hp : s.data.tables idx = none := by rw [h.cell, List.getElem?_eq_none hge]
    obtain ⟨n, hn⟩ := (acquire_settles_empty (i := j) (r := .closed) (b := drop) hp).mpr
      ⟨hfree idx, rfl⟩
    have hop : ∀ m ≥ n, after m s (Metadata.reserveSlot drop j idx) = some (s.put
        ((s.data.lock idx j).unlock idx) j (some .closed)) := by
      intro m hm
      exact after_reserveSlot.mpr ⟨hj, hidx, _, settle_mono hn hm, rfl⟩
    exact refused_returns hop (by simp [Objects.put]) (hf.imp_left (Nat.not_lt.mpr hge))

/-- The three forms report what happened, but for a CREATE that the callback leaves to the
destructor. They return, if no object owns a slot and the callback is made for a refusal where
there is one. -/
theorem callbacks_report [Fintype ι] (h : Orderly s cs) (func : Callback V) :
    (∀ steps j index s', s.createTable steps j func = some (.ok index, s') →
      (CreateReported s.data s'.data cs func index ↔
        (func.ending = .leave → s.data.reservedSize = maximumTableCount))) ∧
    (∀ steps j idx applied s', s.alterTable steps j idx func = some (.ok applied, s') →
      AlterReported s'.data cs func idx applied) ∧
    (∀ steps j idx applied s', s.dropTable steps j idx func = some (.ok applied, s') →
      DropReported s'.data cs func idx applied) ∧
    ((∀ k, (s.data.tableLocks k).free = true) → ∀ j, s.handles j = none →
      (func.Accepts (s.data.reservedSize < maximumTableCount) →
        ∃ n, ∀ m ≥ n, ∃ index s', s.createTable m j func = some (.ok index, s')) ∧
      ∀ idx < maximumTableCount, func.Accepts (idx < cs.length) →
        (∃ n, ∀ m ≥ n, ∃ applied s', s.alterTable m j idx func = some (.ok applied, s')) ∧
          ∃ n, ∀ m ≥ n, ∃ applied s', s.dropTable m j idx func = some (.ok applied, s')) :=
  ⟨fun _ _ _ _ => createTable_reported h, fun _ _ _ _ _ => alterTable_reported h,
    fun _ _ _ _ _ => dropTable_reported h, fun hfree _ hj =>
      ⟨h.createTable_returns hj hfree, fun _ hidx hf =>
        ⟨h.reserveSlot_returns hj hfree false hidx hf _,
          h.reserveSlot_returns hj hfree true hidx hf _⟩⟩⟩

end Reports

/-- The callback of an ALTER edits the table and leaves the change to the destructor. -/
theorem callbacks_report_pair : ∃ s' : Objects (Fin 2) Nat,
    (pair.objects : Objects (Fin 2) Nat).alterTable 13 0 1 ⟨true, some (· + 5), .leave⟩ =
      some (.ok true, s') ∧ s'.data.Lists [⟨0, 10⟩, ⟨1, 16⟩] := by
  obtain ⟨⟨x, s'⟩, hcall, hx⟩ := Option.map_eq_some_iff.mp
    (show ((pair.objects : Objects (Fin 2) Nat).alterTable 13 0 1
      ⟨true, some (· + 5), .leave⟩).map (fun y => y.1.toOption) = some (some true) by
        decide +kernel)
  cases x <;> cases hx
  exact ⟨s', hcall, ((callbacks_report (Accounted.start pair).orderly _).2.1 _ _ _ _ _ hcall).2⟩

/-- The callback of a CREATE leaves the reservation to the destructor: the result is `npos`, and the
table is in slot 0. -/
theorem created_unreported : ¬ ∀ (s s' : Objects (Fin 1) Nat) (cs : List (TablePtr Nat))
    (func : Callback Nat) (index : Nat), Orderly s cs →
      s.createTable 13 0 func = some (.ok index, s') →
        CreateReported s.data s'.data cs func index := by
  intro h
  obtain ⟨⟨x, s'⟩, hcall, hx⟩ := Option.map_eq_some_iff.mp
    (show ((GapFree.empty.objects : Objects (Fin 1) Nat).createTable 13 0
      ⟨true, some (· + 5), .leave⟩).map (fun y => (y.1.toOption, y.2.data.tableCount)) =
        some (some npos, 1) by decide +kernel)
  obtain ⟨hindex, hcount⟩ := Prod.mk.inj hx
  cases x with
  | error _ => cases hindex
  | ok index =>
    cases hindex
    have hreported := h _ s' _ _ _ (Accounted.start GapFree.empty).orderly hcall
    exact absurd (hreported.2.symm.trans hcount) (by decide)

end PStress.Metadata
